import BootableRecovery.Twrp.Files
import Mathlib.Logic.Equiv.List

namespace BootableRecovery.Twrp
open Lib

inductive DigestKind
  | sha2
  | md5
  deriving DecidableEq, Repr

/-- The digest strings of the two libraries: hexadecimal digits, never empty. -/
structure Digests where
  returnDigestString : DigestKind → Text → Text
  ne_nil : ∀ kind content, returnDigestString kind content ≠ []

/-- `noSha2Library` is the build flag, `useSha2` the user's setting. -/
structure DigestConfig where
  noSha2Library : Bool
  useSha2 : Bool
  deriving DecidableEq, Repr

variable (cfg : DigestConfig) (d : Digests) (fs : FileSystem Text)

/-- The bytes `update` is given, one buffer after another. -/
def feed (content : Text) : Text :=
  if h : content = [] then []
  else
    have : (content.drop 4096).length < content.length := by
      have := List.length_pos_iff.mpr h
      rw [List.length_drop]
      omega
    content.take 4096 ++ feed (content.drop 4096)
termination_by content.length

theorem feed_eq (content : Text) : feed content = content := by
  induction content using feed.induct with
  | case1 => rw [feed, dif_pos rfl]
  | case2 content h _ ih => rw [feed, dif_neg h, ih, List.take_append_drop]

def streamFileToDigest (kind : DigestKind) (filename : Text) : Option Text :=
  (fs filename).map fun content => d.returnDigestString kind (feed content)

def dotSha2 : Text := ".sha2".toList

def dotSha256 : Text := ".sha256".toList

def dotMd5 : Text := ".md5".toList

def dotMd5sum : Text := ".md5sum".toList

/-- The digest file looked for, and the kind of digest it holds. -/
def digestFile (filename : Text) : DigestKind × Text :=
  let md5 := (DigestKind.md5,
    if pathExists fs (filename ++ dotMd5) then filename ++ dotMd5 else filename ++ dotMd5sum)
  if cfg.noSha2Library then md5
  else if pathExists fs (filename ++ dotSha2) then (.sha2, filename ++ dotSha2)
  else if pathExists fs (filename ++ dotSha256) then (.sha2, filename ++ dotSha256)
  else md5

/-- `read_file` into a string: `file >> results`. -/
def readFile (fn : Text) : Option Text := (fs fn).map readToken

def checkFileDigest (filename : Text) : Bool :=
  let (kind, digestfile) := digestFile cfg fs filename
  if pathExists fs digestfile = false then true -- no digest file: nothing to check
  else
    match readFile fs digestfile with
    | none => false
    | some digestStr =>
      match streamFileToDigest d fs kind filename with
      | none => false
      | some digest => digest ++ "  ".toList ++ getFilename filename = digestStr

/-- The loop of `Check_Digest`, with `n` numbers to go. -/
def checkSplit (base : Text) : ℕ → ℕ → Bool
  | 0, _ => true
  | n + 1, index =>
    if pathExists fs (splitFilename base index) = false then true
    else if checkFileDigest cfg d fs (splitFilename base index) = false then false
    else checkSplit base n (index + 1)

def checkDigest (fullFilename : Text) : Bool :=
  if pathExists fs fullFilename = false then checkSplit cfg d fs fullFilename 1000 0
  else checkFileDigest cfg d fs fullFilename

/-- The digest that is written, and the end of its file's name. -/
def writtenDigest : DigestKind × Text :=
  if cfg.useSha2 && !cfg.noSha2Library then (.sha2, dotSha2) else (.md5, dotMd5)

def writeDigest (fullFilename : Text) : Option (FileSystem Text) :=
  let (kind, ext) := writtenDigest cfg
  match streamFileToDigest d fs kind fullFilename with
  | none => none
  | some [] => none
  | some digestStr =>
    some (fs.write (fullFilename ++ ext)
      (digestStr ++ "  ".toList ++ getFilename fullFilename ++ "\n".toList))

/-- The loop of `Make_Digest`, with `n` numbers to go: the index it stops at. -/
def makeSplit (base : Text) : ℕ → ℕ → FileSystem Text → Option (ℕ × FileSystem Text)
  | 0, index, fs => some (index, fs)
  | n + 1, index, fs =>
    if pathExists fs (splitFilename base index) = false then some (index, fs)
    else
      match writeDigest cfg d fs (splitFilename base index) with
      | none => none
      | some fs' => makeSplit base n (index + 1) fs'

def makeDigest (fullFilename : Text) : Option (FileSystem Text) :=
  if pathExists fs fullFilename then writeDigest cfg d fs fullFilename
  else
    match makeSplit cfg d fullFilename 1000 0 fs with
    | none => none
    | some (index, fs') => if index = 0 then none else some fs'

/-- A digest line holds blanks and the token read back does not. -/
theorem checkFileDigest_eq_true (filename : Text) : checkFileDigest cfg d fs filename = true ↔
    pathExists fs (digestFile cfg fs filename).2 = false := by
  unfold checkFileDigest
  dsimp only
  by_cases h : pathExists fs (digestFile cfg fs filename).2 = false
  · rw [if_pos h, eq_self_iff_true, true_iff]
    exact h
  rw [if_neg h, iff_false_right h]
  rcases hread : readFile fs (digestFile cfg fs filename).2 with _ | digestStr
  · exact Bool.false_ne_true
  rcases streamFileToDigest d fs (digestFile cfg fs filename).1 filename with _ | digest
  · exact Bool.false_ne_true
  dsimp only
  rw [decide_eq_true_eq]
  intro heq
  obtain ⟨content, -, rfl⟩ := Option.map_eq_some_iff.mp hread
  have hmem : ' ' ∈ readToken content := by
    rw [← heq]
    simp
  exact absurd (not_isSpace_of_mem_readToken hmem) (by decide)

theorem streamFileToDigest_eq_some {kind : DigestKind} {filename digest : Text} :
    streamFileToDigest d fs kind filename = some digest ↔
      ∃ content, fs filename = some content ∧ d.returnDigestString kind content = digest := by
  simp [streamFileToDigest, feed_eq]

/-- Everything that writing a digest does. -/
theorem writeDigest_eq_some {f : Text} {fs' : FileSystem Text} :
    writeDigest cfg d fs f = some fs' ↔ ∃ content, fs f = some content ∧
      fs' = fs.write (f ++ (writtenDigest cfg).2)
        (d.returnDigestString (writtenDigest cfg).1 content ++ "  ".toList ++ getFilename f ++
          "\n".toList) := by
  rw [writeDigest]
  dsimp only
  constructor
  · intro h
    split at h
    · cases h
    · cases h
    · rename_i digest _ hs
      obtain ⟨content, hc, rfl⟩ := (streamFileToDigest_eq_some d fs).mp hs
      exact ⟨content, hc, (Option.some.inj h).symm⟩
  · rintro ⟨content, hc, rfl⟩
    rw [(streamFileToDigest_eq_some d fs).mpr ⟨content, hc, rfl⟩]
    obtain ⟨a, l, h⟩ := List.exists_cons_of_ne_nil (d.ne_nil (writtenDigest cfg).1 content)
    rw [h]

theorem writtenDigest_mem :
    (writtenDigest cfg).2 = dotSha2 ∧ cfg.noSha2Library = false ∨
      (writtenDigest cfg).2 = dotMd5 := by
  rw [writtenDigest]
  rcases cfg with ⟨_ | _, _ | _⟩ <;> simp

/-- A digest file that was written is one that the check finds. -/
theorem pathExists_digestFile {f : Text}
    (h : pathExists fs (f ++ (writtenDigest cfg).2) = true) :
    pathExists fs (digestFile cfg fs f).2 = true := by
  rw [digestFile]
  rcases writtenDigest_mem cfg with ⟨hext, hlib⟩ | hext
  · rw [hext] at h
    rw [hlib, if_neg Bool.false_ne_true, if_pos h]
    exact h
  · rw [hext] at h
    rw [if_pos h]
    split_ifs <;> assumption

/-- The file checks while its content stays, and no longer once the content has changed. -/
structure DigestRoundTrip (f : Text) : Prop where
  unchanged : checkFileDigest cfg d fs f = true
  archive : checkDigest cfg d fs f = true
  changed : ∀ content, fs f ≠ some content →
    checkFileDigest cfg d (fs.write f content) f = false ∧
      checkDigest cfg d (fs.write f content) f = false

/-- `>>` stops at the first of the two blanks that the writer puts after the hash, so the name
is never read back. -/
theorem checkFileDigest_of_writeDigest {f : Text} {fs' : FileSystem Text}
    (h : writeDigest cfg d fs f = some fs') : checkFileDigest cfg d fs' f = false := by
  obtain ⟨content, -, rfl⟩ := (writeDigest_eq_some cfg d fs).mp h
  rw [← Bool.not_eq_true, checkFileDigest_eq_true,
    pathExists_digestFile cfg _ (pathExists_write_self _ _ _)]
  nofun

theorem not_digestRoundTrip {f : Text} {fs' : FileSystem Text}
    (h : writeDigest cfg d fs f = some fs') : ¬DigestRoundTrip cfg d fs' f := fun hr =>
  Bool.false_ne_true ((checkFileDigest_of_writeDigest cfg d fs h).symm.trans hr.unchanged)

/-- An injective digest: the number of the content. -/
def numberDigests : Digests where
  returnDigestString _ content := decimal (Encodable.encode (content.map Char.toNat))
  ne_nil _ _ := decimal_ne_nil _

theorem numberDigests_injective (kind : DigestKind) :
    Function.Injective (numberDigests.returnDigestString kind) := fun _ _ h =>
  List.map_injective_iff.mpr (fun _ _ => Char.ext ∘ UInt32.toNat.inj)
    (Encodable.encode_injective (decimal_injective h))

def bootWin : Text := "/b/boot.emmc.win".toList

/-- A folder with one archive, and the folder once its digest is written. -/
def bootFolder : FileSystem Text := fun p => if p = bootWin then some "img".toList else none

def bootFolderDigested : FileSystem Text :=
  bootFolder.write (bootWin ++ dotSha2)
    (numberDigests.returnDigestString .sha2 "img".toList ++ "  ".toList ++ getFilename bootWin ++
      "\n".toList)

theorem writeDigest_boot : writeDigest ⟨false, true⟩ numberDigests bootFolder bootWin =
    some bootFolderDigested :=
  (writeDigest_eq_some _ _ _).mpr ⟨"img".toList, rfl, rfl⟩

theorem not_digestRoundTrip_boot :
    ¬DigestRoundTrip ⟨false, true⟩ numberDigests bootFolderDigested bootWin :=
  not_digestRoundTrip _ _ _ writeDigest_boot

/-- The digest is hexadecimal digits, distinct contents have distinct digests, the archive has no
other digest file and has not changed since its digest was written: the check fails. -/
theorem check_boot_fails :
    (∀ kind, Function.Injective (numberDigests.returnDigestString kind)) ∧
    (∀ kind content, ∀ c ∈ numberDigests.returnDigestString kind content, c.isDigit = true) ∧
    (∀ c ∈ bootWin, isSpace c = false) ∧
    (∀ p, p ≠ bootWin → bootFolder p = none) ∧
    writeDigest ⟨false, true⟩ numberDigests bootFolder bootWin = some bootFolderDigested ∧
    checkFileDigest ⟨false, true⟩ numberDigests bootFolderDigested bootWin = false := by
  refine ⟨numberDigests_injective, fun _ _ _ h => isDigit_of_mem_decimal h, ?_, ?_,
    writeDigest_boot, checkFileDigest_of_writeDigest _ _ _ writeDigest_boot⟩
  · have h : bootWin.all (fun c => !isSpace c) = true := by decide
    simpa using h
  · intro p hp
    exact if_neg hp

end BootableRecovery.Twrp
