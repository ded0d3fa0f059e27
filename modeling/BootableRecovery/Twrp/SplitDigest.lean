import BootableRecovery.Twrp.DigestDriver
import BootableRecovery.Twrp.ExtractTar

namespace BootableRecovery.Twrp
open Lib

/-! The digest driver counts through three digits and stops at the first number that is missing;
the archives are numbered by a thread digit and two digits. -/

/-- A folder after a split backup: its files with the base name are the archives of threads 0
to 8. -/
structure SplitBackup (fs : FileSystem Text) (base : Text) (count : ℕ → ℕ) : Prop
    extends HoldsArchives fs base count where
  threads : ∀ t, 8 < t → count t = 0
  only : ∀ suffix, pathExists fs (base ++ suffix) = true →
    ∃ t i, i < count t ∧ base ++ suffix = archiveName base t i

/-- Every thread before one that wrote something wrote all of its hundred archives. -/
def Gapless (count : ℕ → ℕ) : Prop := ∀ t u, t < u → 0 < count u → count t = 100

def digestExtensions : List Text := [dotSha2, dotSha256, dotMd5, dotMd5sum]

variable (cfg : DigestConfig) (d : Digests) (fileType : Text → ArchiveType) (base : Text)
  (count : ℕ → ℕ)

/-- Every archive has a digest file, and in any folder with these archives the check fails if it
fails for one that the reader opens. -/
structure DigestsCover (fs' : FileSystem Text) : Prop where
  digested : ∀ t i, i < count t →
    ∃ ext ∈ digestExtensions, pathExists fs' (archiveName base t i ++ ext) = true
  checked : ∀ fs : FileSystem Text, HoldsArchives fs base count →
    ∀ p ∈ (extractTarFork fileType (fun _ => true) fs base).1.flatten,
      checkFileDigest cfg d fs p = false → checkDigest cfg d fs base = false

variable {cfg d fileType base count} {fs fs' : FileSystem Text}

theorem dot_mem_digestExtension {ext : Text} (h : ext ∈ digestExtensions) :
    ∃ tail, ext = '.' :: tail := by
  simp only [digestExtensions, List.mem_cons, List.not_mem_nil, or_false] at h
  rcases h with rfl | rfl | rfl | rfl <;> exact ⟨_, rfl⟩

variable (cfg) in
theorem writtenDigest_mem_extensions : (writtenDigest cfg).2 ∈ digestExtensions := by
  rcases writtenDigest_mem cfg with ⟨h, -⟩ | h <;> rw [h] <;> decide

theorem dot_not_mem_padded (w n : ℕ) : '.' ∉ padded w n := fun h =>
  absurd (isDigit_of_mem_padded h) (by decide)

/-- The digits of a name end where the digest extension starts. -/
theorem digestName_inj {i j : ℕ} {ext ext' : Text} (hext : ext ∈ digestExtensions)
    (hext' : ext' ∈ digestExtensions)
    (h : splitFilename base i ++ ext = splitFilename base j ++ ext') : i = j := by
  obtain ⟨tail, rfl⟩ := dot_mem_digestExtension hext
  obtain ⟨tail', rfl⟩ := dot_mem_digestExtension hext'
  simp only [splitFilename, List.append_assoc, List.append_cancel_left_eq] at h
  have hsplit : ∀ (k : ℕ) (t : Text),
      (padded 3 k ++ '.' :: t).takeWhile (fun c => c != '.') = padded 3 k := by
    intro k t
    rw [List.takeWhile_append_of_pos, List.takeWhile_cons_of_neg (by decide), List.append_nil]
    intro c hc
    rw [bne_iff_ne]
    rintro rfl
    exact dot_not_mem_padded 3 k hc
  have heq := congrArg (List.takeWhile fun c => c != '.') h
  rw [hsplit, hsplit] at heq
  exact padded_injective 3 heq

theorem splitFilename_ne_digestName {i j : ℕ} {ext : Text} (hext : ext ∈ digestExtensions) :
    splitFilename base i ≠ splitFilename base j ++ ext := by
  obtain ⟨tail, rfl⟩ := dot_mem_digestExtension hext
  intro h
  simp only [splitFilename, List.append_assoc, List.append_cancel_left_eq] at h
  exact dot_not_mem_padded 3 i (by rw [h]; simp)

/-- Number `k` is that of an archive. -/
def IsArchive (count : ℕ → ℕ) (k : ℕ) : Prop := k % 100 < count (k / 100)

theorem HoldsArchives.splitFilename_iff (h : HoldsArchives fs base count) {k : ℕ} (hk : k < 1000) :
    pathExists fs (splitFilename base k) = true ↔ IsArchive count k := by
  have hname := splitFilename_eq_archiveName base (by omega : k / 100 < 10)
    (Nat.mod_lt k (by decide : 0 < 100))
  rw [Nat.div_add_mod] at hname
  rw [hname, h.exists_iff _ (by omega) _ (Nat.mod_lt k (by decide)), IsArchive]

/-- Where the loop of `Make_Digest` stops, and what it has written. -/
structure MadeDigests (cfg : DigestConfig) (base : Text) (count : ℕ → ℕ) (first stop : ℕ)
    (fs fs' : FileSystem Text) : Prop where
  le : first ≤ stop
  archives : ∀ k, first ≤ k → k < stop → IsArchive count k
  stops : stop < 1000 → ¬IsArchive count stop
  digested : ∀ k, first ≤ k → k < stop →
    pathExists fs' (splitFilename base k ++ (writtenDigest cfg).2) = true
  others : ∀ p, (∀ k, first ≤ k → k < stop → p ≠ splitFilename base k ++ (writtenDigest cfg).2) →
    fs' p = fs p

theorem makeSplit_eq (hex : ∀ k < 1000, pathExists fs (splitFilename base k) = true ↔
      IsArchive count k) (n first : ℕ) (hn : first + n = 1000) :
    ∃ stop fs', makeSplit cfg d base n first fs = some (stop, fs') ∧
      MadeDigests cfg base count first stop fs fs' := by
  induction n generalizing first fs with
  | zero =>
    refine ⟨first, fs, rfl, le_refl _, ?_, ?_, ?_, fun _ _ => rfl⟩ <;> omega
  | succ n ih =>
    rw [makeSplit]
    by_cases hk : IsArchive count first
    · have hpath := (hex first (by omega)).mpr hk
      obtain ⟨content, hcontent⟩ := (pathExists_eq_true fs _).mp hpath
      obtain ⟨text, hwrite⟩ : ∃ text, writeDigest cfg d fs (splitFilename base first) =
          some (fs.write (splitFilename base first ++ (writtenDigest cfg).2) text) :=
        ⟨_, (writeDigest_eq_some cfg d fs).mpr ⟨content, hcontent, rfl⟩⟩
      rw [hpath, if_neg (Ne.symm Bool.false_ne_true), hwrite]
      have hwritten : (writtenDigest cfg).2 ∈ digestExtensions := writtenDigest_mem_extensions cfg
      have hsame : ∀ k, splitFilename base k ≠ splitFilename base first ++ (writtenDigest cfg).2 :=
        fun k => splitFilename_ne_digestName hwritten
      have hex' : ∀ k < 1000, pathExists
          (fs.write (splitFilename base first ++ (writtenDigest cfg).2) text)
          (splitFilename base k) = true ↔ IsArchive count k := fun k hk' => by
        rw [pathExists_write_of_ne _ _ _ _ (hsame k), hex k hk']
      obtain ⟨stop, fs', hmake, hm⟩ := ih hex' (first + 1) (by omega)
      refine ⟨stop, fs', hmake, by have := hm.le; omega, ?_, hm.stops, ?_, ?_⟩
      · intro k hle hlt
        rcases Nat.eq_or_lt_of_le hle with rfl | hlt'
        · exact hk
        · exact hm.archives k hlt' hlt
      · intro k hle hlt
        rcases Nat.eq_or_lt_of_le hle with rfl | hlt'
        · rw [pathExists, hm.others, FileSystem.write_self]
          · rfl
          · intro k hle' _ heq
            have := digestName_inj hwritten hwritten heq
            omega
        · exact hm.digested k hlt' hlt
      · intro p hp
        rw [hm.others p fun k hle hlt => hp k (by omega) hlt,
          FileSystem.write_of_ne _ _ _ _ (hp first (le_refl _) hm.le)]
    · rw [if_pos (by rw [← Bool.not_eq_true, hex first (by omega)]; exact hk)]
      exact ⟨first, fs, rfl, le_refl _, by omega, fun _ => hk, by omega, fun _ _ => rfl⟩

theorem checkSplit_false (hex : ∀ k < 1000, pathExists fs (splitFilename base k) = true ↔
      IsArchive count k) {k : ℕ} (hk : k < 1000) (hbad : checkFileDigest cfg d fs
      (splitFilename base k) = false) (n first : ℕ) (hn : first + n = 1000) (hle : first ≤ k)
    (hall : ∀ j, first ≤ j → j ≤ k → IsArchive count j) :
    checkSplit cfg d fs base n first = false := by
  induction n generalizing first with
  | zero => omega
  | succ n ih =>
    rw [checkSplit, (hex first (by omega)).mpr (hall first (le_refl _) hle),
      if_neg (Ne.symm Bool.false_ne_true)]
    split_ifs with hcheck
    · rfl
    · rcases Nat.eq_or_lt_of_le hle with rfl | hlt
      · exact absurd hbad hcheck
      · exact ih (first + 1) (by omega) hlt fun j hj hjk => hall j (by omega) hjk

/-- Without a gap, every number up to an archive's is an archive. -/
theorem Gapless.isArchive (hg : Gapless count) {t i k : ℕ} (hi : i < count t)
    (hk : k ≤ 100 * t + i) (hi' : i < 100) : IsArchive count k := by
  rw [IsArchive]
  rcases Nat.lt_or_ge (k / 100) t with hlt | hge
  · rw [hg _ t hlt (by omega)]
    exact Nat.mod_lt _ (by decide)
  · have ht : k / 100 = t := by omega
    rw [ht]
    omega

variable (cfg d) in
theorem makeDigest_eq (h : HoldsArchives fs base count) : ∃ stop fs',
    makeDigest cfg d fs base = (if stop = 0 then none else some fs') ∧
      MadeDigests cfg base count 0 stop fs fs' := by
  obtain ⟨stop, fs', hmake, hm⟩ := makeSplit_eq
    (fun k hk => h.splitFilename_iff hk) 1000 0 rfl
  refine ⟨stop, fs', ?_, hm⟩
  rw [makeDigest, h.noSingle, if_neg Bool.false_ne_true, hmake]

theorem digestsCover_of_gapless (h : SplitBackup fs base count) (hg : Gapless count)
    (hmake : makeDigest cfg d fs base = some fs') :
    DigestsCover cfg d fileType base count fs' := by
  obtain ⟨stop, made, heq, hm⟩ := makeDigest_eq cfg d h.toHoldsArchives
  rw [heq] at hmake
  split_ifs at hmake
  cases hmake
  have hthread : ∀ {t i}, i < count t → t < 9 ∧ i < 100 := by
    intro t i hi
    constructor
    · by_contra hno
      rw [h.threads t (by omega)] at hi
      exact Nat.not_lt_zero _ hi
    · exact lt_of_lt_of_le hi (h.twoDigits t)
  constructor
  · intro t i hi
    obtain ⟨ht, hi'⟩ := hthread hi
    refine ⟨_, writtenDigest_mem_extensions cfg, ?_⟩
    rw [← splitFilename_eq_archiveName base (by omega) hi']
    refine hm.digested _ (Nat.zero_le _) ?_
    by_contra hno
    exact hm.stops (by omega) (hg.isArchive hi (by omega) hi')
  · intro fs₂ h₂ p hp hbad
    rcases Nat.eq_zero_or_pos (count 0) with hz | hpos
    · rw [extractTarFork_none fileType h₂ hz] at hp
      cases hp
    rw [extractTarFork_eq fileType h₂ (fun _ _ => rfl) hpos] at hp
    obtain ⟨_, hl, hp⟩ := List.mem_flatten.mp hp
    obtain ⟨t, -, rfl⟩ := List.mem_map.mp hl
    obtain ⟨i, hi, rfl⟩ := List.mem_map.mp hp
    rw [List.mem_range] at hi
    obtain ⟨ht, hi'⟩ := hthread hi
    rw [← splitFilename_eq_archiveName base (by omega) hi'] at hbad
    rw [checkDigest, if_pos h₂.noSingle]
    exact checkSplit_false (fun k hk => h₂.splitFilename_iff hk) (by omega) hbad 1000 0 rfl
      (Nat.zero_le _) fun j _ hj => hg.isArchive hi hj hi'

/-- With a gap the archives behind it get no digest. -/
theorem not_digestsCover_of_gap (h : SplitBackup fs base count) (hpos : 0 < count 0)
    (hg : ¬Gapless count) :
    ∃ fs', makeDigest cfg d fs base = some fs' ∧ ¬DigestsCover cfg d fileType base count fs' := by
  simp only [Gapless, not_forall] at hg
  obtain ⟨t, u, htu, hu, hgap⟩ := hg
  have hlt : count t < 100 := lt_of_le_of_ne (h.twoDigits t) hgap
  have hu9 : u < 9 := by
    by_contra hno
    rw [h.threads u (by omega)] at hu
    exact Nat.lt_irrefl 0 hu
  obtain ⟨stop, made, heq, hm⟩ := makeDigest_eq cfg d h.toHoldsArchives
  have hstop : stop ≤ 100 * t + count t := by
    by_contra hno
    have harch := hm.archives (100 * t + count t) (Nat.zero_le _) (by omega)
    rw [IsArchive, show (100 * t + count t) % 100 = count t by omega,
      show (100 * t + count t) / 100 = t by omega] at harch
    exact Nat.lt_irrefl _ harch
  have hstart : stop ≠ 0 := by
    intro hz
    exact hm.stops (by omega) (by rw [hz]; exact hpos)
  rw [if_neg hstart] at heq
  refine ⟨made, heq, fun hcover => ?_⟩
  obtain ⟨ext, hext, hex⟩ := hcover.digested u 0 hu
  have hname := splitFilename_eq_archiveName base (by omega : u < 10) (by decide : 0 < 100)
  rw [← hname, pathExists, hm.others _ ?_] at hex
  · rw [splitFilename, List.append_assoc] at hex
    obtain ⟨v, i, hi, heq'⟩ := h.only _ hex
    have hv : v < 10 := by
      by_contra hno
      rw [h.threads v (by omega)] at hi
      exact Nat.not_lt_zero _ hi
    rw [← splitFilename_eq_archiveName base hv (lt_of_lt_of_le hi (h.twoDigits v)),
      ← List.append_assoc] at heq'
    exact splitFilename_ne_digestName hext heq'.symm
  · intro k _ hk heq'
    have := digestName_inj hext (writtenDigest_mem_extensions cfg) heq'
    omega

/-- Every archive is digested and checked exactly when the threads leave no gap in the numbers
(without archive 000 there is nothing that `Make_Digest` finds). -/
theorem digestsCover_iff_gapless (h : SplitBackup fs base count) :
    (∀ fs', makeDigest cfg d fs base = some fs' → DigestsCover cfg d fileType base count fs') ↔
      count 0 = 0 ∨ Gapless count := by
  constructor
  · intro hcover
    rcases Nat.eq_zero_or_pos (count 0) with hz | hpos
    · exact .inl hz
    · right
      by_contra hg
      obtain ⟨fs', hmake, hno⟩ := not_digestsCover_of_gap h hpos hg
      exact hno (hcover fs' hmake)
  · rintro (hz | hg) fs' hmake
    · obtain ⟨stop, made, heq, hm⟩ := makeDigest_eq cfg d h.toHoldsArchives
      rw [heq] at hmake
      split_ifs at hmake with hstop
      have harch := hm.archives 0 (le_refl _) (by omega)
      rw [IsArchive, hz] at harch
      exact absurd harch (Nat.not_lt_zero _)
    · exact digestsCover_of_gapless h hg hmake

/-! Two threads with an archive each. -/

def twoThreads (t : ℕ) : ℕ := if t < 2 then 1 else 0

def dataWin : Text := "/b/data.ext4.win".toList

def twoThreadsFolder : FileSystem Text := fun p =>
  if p = archiveName dataWin 0 0 ∨ p = archiveName dataWin 1 0 then some "tar".toList else none

theorem lt_twoThreads {t i : ℕ} : i < twoThreads t ↔ t < 2 ∧ i = 0 := by
  rw [twoThreads]
  split_ifs <;> omega

theorem pathExists_twoThreads (p : Text) : pathExists twoThreadsFolder p = true ↔
    p = archiveName dataWin 0 0 ∨ p = archiveName dataWin 1 0 := by
  rw [pathExists, twoThreadsFolder]
  split_ifs with h <;> simp [h]

theorem splitBackup_twoThreads : SplitBackup twoThreadsFolder dataWin twoThreads where
  noSingle := rfl
  exists_iff t ht i hi := by
    rw [pathExists_twoThreads, archiveName_inj dataWin ht hi (by decide) (by decide),
      archiveName_inj dataWin ht hi (by decide) (by decide), lt_twoThreads]
    omega
  twoDigits t := by
    rw [twoThreads]
    split_ifs <;> decide
  threads t ht := if_neg (by omega)
  only suffix h := by
    rcases (pathExists_twoThreads _).mp h with h | h
    · exact ⟨0, 0, by decide, h⟩
    · exact ⟨1, 0, by decide, h⟩

theorem not_gapless_twoThreads : ¬Gapless twoThreads := fun h =>
  absurd (h 0 1 (by decide) (by decide)) (by decide)

theorem twoThreads_not_covered : ∃ fs',
    makeDigest ⟨false, true⟩ numberDigests twoThreadsFolder dataWin = some fs' ∧
      ¬DigestsCover ⟨false, true⟩ numberDigests (fun _ => .encrypted) dataWin twoThreads fs' :=
  not_digestsCover_of_gap splitBackup_twoThreads (by decide) not_gapless_twoThreads

theorem digestsCover_iff_twoThreads :
    (∀ fs', makeDigest ⟨false, true⟩ numberDigests twoThreadsFolder dataWin = some fs' →
      DigestsCover ⟨false, true⟩ numberDigests (fun _ => .encrypted) dataWin twoThreads fs') ↔
      twoThreads 0 = 0 ∨ Gapless twoThreads :=
  digestsCover_iff_gapless splitBackup_twoThreads

end BootableRecovery.Twrp
