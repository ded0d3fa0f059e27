import BootableRecovery.Lib.Text
import Mathlib.Data.List.Basic

namespace BootableRecovery.Updater
open Lib

/-! `set_metadata` and `set_metadata_recursive`: owners, modes, capabilities and labels. -/

namespace SetMetadata

/-! ### The arguments -/

/-- The value that `%d`, or `%i` with its bases, of `sscanf` reads: blanks, a sign, digits. -/
def scanSigned (anyBase : Bool) (s : Text) : Option ℤ :=
  let t := s.dropWhile isSpace
  let neg := t.head? = some '-'
  let u := if t.head? = some '-' ∨ t.head? = some '+' then t.tail else t
  let hex (c : Char) : Bool := c.isDigit || ('a' ≤ c && c ≤ 'f') || ('A' ≤ c && c ≤ 'F')
  let digit (c : Char) : ℕ :=
    if c.isDigit then c.toNat - '0'.toNat
    else if 'a' ≤ c then c.toNat - 'a'.toNat + 10 else c.toNat - 'A'.toNat + 10
  let (base, digits) :=
    if anyBase ∧ u.head? = some '0' ∧ (u.tail.head? = some 'x' ∨ u.tail.head? = some 'X') ∧
        (u.drop 2).head?.any hex then
      (16, (u.drop 2).takeWhile hex)
    else if anyBase ∧ u.head? = some '0' then
      (8, u.takeWhile fun c => '0' ≤ c && c ≤ '7')
    else (10, u.takeWhile Char.isDigit)
  if digits = [] then none
  else
    let v : ℤ := digits.foldl (fun v c => v * base + digit c) 0
    some (if neg then max (-v) (-2 ^ 63) else min v (2 ^ 63 - 1))

/-- A value that is stored in an unsigned object of this many bits. -/
def stored (bits : ℕ) (v : ℤ) : ℕ := (v % 2 ^ bits).toNat

structure PermParsedArgs where
  uid : Option ℕ := none
  gid : Option ℕ := none
  mode : Option ℕ := none
  fmode : Option ℕ := none
  dmode : Option ℕ := none
  selabel : Option Text := none
  capabilities : Option ℕ := none
  deriving DecidableEq, Repr

/-- The result so far and the count of the values that are not read. -/
abbrev Parsing := PermParsedArgs × ℕ

/-- A value is stored when it is read, and counted when it is not. -/
def Parsing.store {α : Type} (s : Parsing) (value : Option α) (set : α → PermParsedArgs) :
    Parsing :=
  match value with
  | some v => (set v, s.2)
  | none => (s.1, s.2 + 1)

def parsePair (s : Parsing) (pair : Text × Text) : Parsing :=
  let (key, value) := pair
  if key = "uid".toList then
    s.store (scanSigned false value) fun v => { s.1 with uid := some (stored 32 v) }
  else if key = "gid".toList then
    s.store (scanSigned false value) fun v => { s.1 with gid := some (stored 32 v) }
  else if key = "mode".toList then
    s.store (scanSigned true value) fun v => { s.1 with mode := some (stored 32 v) }
  else if key = "dmode".toList then
    s.store (scanSigned true value) fun v => { s.1 with dmode := some (stored 32 v) }
  else if key = "fmode".toList then
    s.store (scanSigned true value) fun v => { s.1 with fmode := some (stored 32 v) }
  else if key = "capabilities".toList then
    s.store (scanSigned true value) fun v => { s.1 with capabilities := some (stored 64 v) }
  else if key = "selabel".toList then
    s.store (if value = [] then none else some value) fun v => { s.1 with selabel := some v }
  else s

def pairs : List Text → List (Text × Text)
  | key :: value :: args => (key, value) :: pairs args
  | _ => []

/-- The count of the values that are not read is local. -/
def parsePermArgs (args : List Text) : PermParsedArgs :=
  ((pairs args.tail).foldl parsePair ({}, 0)).1

/-! ### The changes of a file -/

inductive FileType
  | regular
  | directory
  | link
  | other
  deriving DecidableEq, Repr

structure File where
  path : Text
  type : FileType
  deriving DecidableEq, Repr

inductive Change
  | setfilecon (selabel : Text)
  | chown (uid : ℕ)
  | chgrp (gid : ℕ)
  | chmod (mode : ℕ)
  | removeCaps
  | setCaps (permitted₀ permitted₁ : ℕ)
  deriving DecidableEq, Repr

/-- The calls that `ApplyParsedPerms` makes for a file, in order. -/
def changes (parsed : PermParsedArgs) (type : FileType) : List Change :=
  parsed.selabel.toList.map .setfilecon ++
    if type = .link then []
    else
      parsed.uid.toList.map .chown ++ parsed.gid.toList.map .chgrp ++
        parsed.mode.toList.map .chmod ++
        (if type = .directory then parsed.dmode.toList.map .chmod else []) ++
        (if type = .regular then parsed.fmode.toList.map .chmod else []) ++
        (if type = .regular then
          parsed.capabilities.toList.map fun capabilities =>
            if capabilities = 0 then .removeCaps
            else .setCaps (capabilities % 2 ^ 32) (capabilities / 2 ^ 32)
        else [])

/-- A call for a file, and whether it was successful. -/
structure Attempt where
  path : Text
  change : Change
  success : Bool
  deriving DecidableEq, Repr

structure Run where
  visited : List File := []
  attempts : List Attempt := []
  deriving DecidableEq, Repr

/-- A call, and the count of the failures. Calls are told by their number. -/
def Run.attempt (ok : ℕ → Bool) (path : Text) (s : ℕ × Run) (change : Change) : ℕ × Run :=
  let success := ok s.2.attempts.length
  (if success then s.1 else s.1 + 1,
    { s.2 with attempts := s.2.attempts ++ [⟨path, change, success⟩] })

def applyParsedPerms (ok : ℕ → Bool) (s : Run) (file : File) (parsed : PermParsedArgs) : ℕ × Run :=
  (changes parsed file.type).foldl (Run.attempt ok file.path) (0, s)

/-! ### The walk -/

inductive Access
  | opened
  | unreadable
  | failed
  deriving DecidableEq, Repr

/-- The files under a path, and how it goes when each directory is opened. -/
inductive Tree
  | leaf (file : File)
  | dir (path : Text) (access : Access) (children : List Tree)

inductive Step
  | visit (file : File)
  | fail
  deriving DecidableEq, Repr

mutual

/-- What `nftw` does for a tree, with the contents of a directory before it. -/
def Tree.steps : Tree → List Step
  | .leaf file => [.visit file]
  | .dir path .opened children => stepsAll children ++ [.visit ⟨path, .directory⟩]
  | .dir path .unreadable _ => [.visit ⟨path, .directory⟩]
  | .dir _ .failed _ => [.fail]

def stepsAll : List Tree → List Step
  | [] => []
  | tree :: trees => tree.steps ++ stepsAll trees

end

mutual

def Tree.files : Tree → List File
  | .leaf file => [file]
  | .dir path _ children => filesAll children ++ [⟨path, .directory⟩]

def filesAll : List Tree → List File
  | [] => []
  | tree :: trees => tree.files ++ filesAll trees

end

/-- `do_SetMetadataRecursive` -/
def doSetMetadataRecursive (ok : ℕ → Bool) (parsed : PermParsedArgs) (s : Run) (file : File) :
    ℕ × Run :=
  applyParsedPerms ok { s with visited := s.visited ++ [file] } file parsed

/-- The walk ends with the first result that is not zero. -/
def nftw (ok : ℕ → Bool) (parsed : PermParsedArgs) : List Step → Run → ℤ × Run
  | [], s => (0, s)
  | .fail :: _, s => (-1, s)
  | .visit file :: steps, s =>
    let (bad, s) := doSetMetadataRecursive ok parsed s file
    if bad ≠ 0 then (bad, s) else nftw ok parsed steps s

/-! ### The function -/

inductive CauseCode
  | argsParsingFailure
  | setMetadataFailure
  deriving DecidableEq, Repr

inductive Result
  | abort (cause : CauseCode)
  | value (text : Text)
  deriving DecidableEq, Repr

/-- The values of the arguments, what `lstat` finds for the first, the tree under it, and which of
the calls are successful. -/
structure Env where
  argv : List (Option Text)
  lstat : Option FileType
  tree : Tree
  ok : ℕ → Bool

variable (env : Env) (isRecursive : Bool)

def setMetadataFn : Result × Run :=
  if env.argv.length % 2 ≠ 1 then (.abort .argsParsingFailure, {})
  else
    match env.argv.mapM id with
    | none => (.abort .argsParsingFailure, {})
    | some args =>
      match env.lstat with
      | none => (.abort .setMetadataFailure, {})
      | some type =>
        let parsed := parsePermArgs args
        let (bad, s) :=
          if isRecursive then nftw env.ok parsed env.tree.steps {}
          else
            let file : File := ⟨args.headD [], type⟩
            let (bad, s) := applyParsedPerms env.ok { visited := [file] } file parsed
            ((bad : ℤ), s)
        if bad > 0 then (.abort .setMetadataFailure, s) else (.value [], s)

/-! ### What is to be done -/

/-- The key is known and its value is read. -/
def IsRead (pair : Text × Text) : Prop :=
  (pair.1 ∈ ["uid".toList, "gid".toList] ∧ scanSigned false pair.2 ≠ none) ∨
    (pair.1 ∈ ["mode".toList, "dmode".toList, "fmode".toList, "capabilities".toList] ∧
      scanSigned true pair.2 ≠ none) ∨
    (pair.1 = "selabel".toList ∧ pair.2 ≠ [])

/-- The changes that the arguments ask for. -/
def requests (parsed : PermParsedArgs) (files : List File) : List (Text × Change) :=
  files.flatMap fun file => (changes parsed file.type).map (file.path, ·)

def succeeded (request : Text × Change) : Attempt := ⟨request.1, request.2, true⟩

def filesOf (args : List Text) (type : FileType) : List File :=
  if isRecursive then env.tree.files else [⟨args.headD [], type⟩]

/-- Every pair has been read, every file visited, and every change made. -/
structure Done (args : List Text) (type : FileType) (s : Run) : Prop where
  read : ∀ pair ∈ pairs args.tail, IsRead pair
  visited : s.visited = filesOf env isRecursive args type
  changed : s.attempts =
    (requests (parsePermArgs args) (filesOf env isRecursive args type)).map succeeded

/-- A value is only returned when everything has been done. -/
def Reports : Prop :=
  ∀ text s, setMetadataFn env isRecursive = (.value text, s) →
    ∃ args type, env.argv.mapM id = some args ∧ env.lstat = some type ∧
      Done env isRecursive args type s

/-- The files before the first directory at which the walk fails. -/
def reached : List Step → List File
  | .visit file :: steps => file :: reached steps
  | _ => []

mutual

/-- Every directory is opened, but for empty ones. -/
def Tree.Readable : Tree → Prop
  | .leaf _ => True
  | .dir _ .opened children => AllReadable children
  | .dir _ .unreadable children => children = []
  | .dir _ .failed _ => False

def AllReadable : List Tree → Prop
  | [] => True
  | tree :: trees => tree.Readable ∧ AllReadable trees

end

/-- What the call works on before a directory at which the walk fails. -/
def reachedFiles (args : List Text) (type : FileType) : List File :=
  if isRecursive then reached env.tree.steps else [⟨args.headD [], type⟩]

/-- Some call for a file that is reached fails. -/
def SomeFails (args : List Text) (type : FileType) : Prop :=
  ∃ k < (requests (parsePermArgs args) (reachedFiles env isRecursive args type)).length,
    env.ok k = false

section changes
variable {ok : ℕ → Bool} {parsed : PermParsedArgs} {s : Run} {file : File} {path : Text}
  {cs : List Change} {bad : ℕ}

theorem store_none {α : Type} {parsing : Parsing} {set : α → PermParsedArgs} {value : Option α}
    (h : value = none) : (parsing.store value set).1 = parsing.1 := by
  rw [h, Parsing.store]

/-- A pair that is not read leaves nothing in the result. -/
theorem parsePair_of_not_isRead {key value : Text} {parsing : Parsing} (h : ¬IsRead (key, value)) :
    (parsePair parsing (key, value)).1 = parsing.1 := by
  simp only [IsRead, not_or, not_and, not_not] at h
  obtain ⟨hdecimal, hany, hlabel⟩ := h
  dsimp only [parsePair]
  split_ifs with huid hgid hmode hdmode hfmode hcaps hselabel hempty
  · exact store_none (hdecimal (by rw [huid]; exact List.mem_cons_self))
  · exact store_none (hdecimal (by rw [hgid]; exact List.mem_cons_of_mem _ List.mem_cons_self))
  · exact store_none (hany (by rw [hmode]; exact List.mem_cons_self))
  · exact store_none (hany (by rw [hdmode]; exact List.mem_cons_of_mem _ List.mem_cons_self))
  · apply store_none (hany _)
    rw [hfmode]
    exact List.mem_cons_of_mem _ (List.mem_cons_of_mem _ List.mem_cons_self)
  · apply store_none (hany _)
    rw [hcaps]
    exact List.mem_of_getLast? rfl
  · exact store_none rfl
  · exact absurd (hlabel hselabel) hempty
  · rfl

theorem foldl_attempt_ok (h : ∀ k < cs.length, ok (s.attempts.length + k) = true) :
    cs.foldl (Run.attempt ok path) (bad, s) =
      (bad, { s with attempts := s.attempts ++ cs.map fun c => ⟨path, c, true⟩ }) := by
  induction cs generalizing s with
  | nil => simp
  | cons c cs ih =>
    have hfirst := h 0 (by simp)
    rw [Nat.add_zero] at hfirst
    rw [List.foldl_cons, Run.attempt]
    simp only [hfirst, if_true]
    rw [ih]
    · simp
    · intro k hk
      have hnext := h (k + 1) (by simpa using hk)
      simpa [Nat.add_assoc, Nat.add_comm 1] using hnext

theorem le_foldl_attempt : bad ≤ (cs.foldl (Run.attempt ok path) (bad, s)).1 := by
  induction cs generalizing s bad with
  | nil => simp
  | cons c cs ih =>
    rw [List.foldl_cons, Run.attempt]
    refine le_trans ?_ ih
    dsimp only
    split_ifs <;> omega

theorem foldl_attempt_bad (h : ∃ k < cs.length, ok (s.attempts.length + k) = false) :
    bad < (cs.foldl (Run.attempt ok path) (bad, s)).1 := by
  induction cs generalizing s bad with
  | nil => simp at h
  | cons c cs ih =>
    rw [List.foldl_cons, Run.attempt]
    obtain ⟨k, hk, hbad⟩ := h
    by_cases hfirst : ok s.attempts.length = true
    · have hpos : k ≠ 0 := by
        rintro rfl
        simp [hfirst] at hbad
      obtain ⟨k, rfl⟩ := Nat.exists_eq_succ_of_ne_zero hpos
      simp only [hfirst, if_true]
      apply ih
      refine ⟨k, by simpa using hk, ?_⟩
      simpa [Nat.add_assoc, Nat.add_comm 1] using hbad
    · simp only [hfirst]
      exact lt_of_lt_of_le (Nat.lt_succ_self bad) le_foldl_attempt

/-- The number of changes of a file. -/
abbrev count (parsed : PermParsedArgs) (file : File) : ℕ := (changes parsed file.type).length

theorem applyParsedPerms_ok (h : ∀ k < count parsed file, ok (s.attempts.length + k) = true) :
    applyParsedPerms ok s file parsed =
      (0, { s with attempts := s.attempts ++ (requests parsed [file]).map succeeded }) := by
  rw [applyParsedPerms, foldl_attempt_ok h]
  simp [requests, succeeded, Function.comp_def]

theorem applyParsedPerms_bad (h : ∃ k < count parsed file, ok (s.attempts.length + k) = false) :
    0 < (applyParsedPerms ok s file parsed).1 :=
  foldl_attempt_bad h

theorem requests_cons (files : List File) :
    requests parsed (file :: files) = requests parsed [file] ++ requests parsed files := by
  simp [requests]

/-- A walk without a failure makes every change for the files that it reaches. -/
theorem nftw_ok {steps : List Step}
    (h : ∀ k < (requests parsed (reached steps)).length, ok (s.attempts.length + k) = true) :
    (nftw ok parsed steps s).1 ≤ 0 ∧ (nftw ok parsed steps s).2 =
      ⟨s.visited ++ reached steps,
        s.attempts ++ (requests parsed (reached steps)).map succeeded⟩ := by
  induction steps generalizing s with
  | nil => simp [nftw, reached, requests]
  | cons step steps ih =>
    cases step with
    | fail => simp [nftw, reached, requests]
    | visit file =>
      rw [reached, requests_cons, List.length_append] at h
      have hone : (requests parsed [file]).length = count parsed file := by simp [requests]
      have hfile := @applyParsedPerms_ok ok parsed { s with visited := s.visited ++ [file] } file
        fun k hk => h k (by omega)
      rw [nftw, doSetMetadataRecursive, hfile]
      simp only [ne_eq, not_true_eq_false, if_false]
      have hrest := @ih { s with
        visited := s.visited ++ [file]
        attempts := s.attempts ++ (requests parsed [file]).map succeeded } ?_
      · rw [reached, requests_cons (reached steps)]
        simpa using hrest
      · intro k hk
        have hnext := h (count parsed file + k) (by omega)
        rw [← Nat.add_assoc] at hnext
        simpa [hone] using hnext

/-- A failure ends the walk with its count. -/
theorem nftw_bad {steps : List Step}
    (h : ∃ k < (requests parsed (reached steps)).length, ok (s.attempts.length + k) = false) :
    0 < (nftw ok parsed steps s).1 := by
  induction steps generalizing s with
  | nil => simp [reached, requests] at h
  | cons step steps ih =>
    cases step with
    | fail => simp [reached, requests] at h
    | visit file =>
      rw [reached, requests_cons] at h
      obtain ⟨k, hk, hbad⟩ := h
      have hone : (requests parsed [file]).length = count parsed file := by simp [requests]
      rw [List.length_append, hone] at hk
      rw [nftw, doSetMetadataRecursive]
      by_cases hfile : ∀ k < count parsed file, ok (s.attempts.length + k) = true
      · have hlate : count parsed file ≤ k := by
          by_contra hearly
          simp [hfile k (by omega)] at hbad
        rw [@applyParsedPerms_ok ok parsed { s with visited := s.visited ++ [file] } file hfile]
        simp only [ne_eq, not_true_eq_false, if_false]
        apply ih
        refine ⟨k - count parsed file, by omega, ?_⟩
        have hsum : s.attempts.length + count parsed file + (k - count parsed file) =
            s.attempts.length + k := by omega
        simpa [hone, hsum] using hbad
      · simp only [not_forall, Bool.not_eq_true] at hfile
        obtain ⟨k, hk, hbad⟩ := hfile
        have hpos := @applyParsedPerms_bad ok parsed { s with visited := s.visited ++ [file] } file
          ⟨k, hk, hbad⟩
        dsimp only
        rw [if_pos (by omega)]
        simpa using hpos

end changes

/-! ### The walk reaches every file when every directory is opened -/

section walk

theorem reached_append_length (a b : List Step) :
    (reached (a ++ b)).length ≤ (reached a).length + (reached b).length := by
  induction a with
  | nil => simp [reached]
  | cons step a ih =>
    cases step with
    | fail => simp [reached]
    | visit file =>
      simp only [List.cons_append, reached, List.length_cons]
      omega

theorem reached_visits (files : List File) (b : List Step) :
    reached (files.map .visit ++ b) = files ++ reached b := by
  induction files with
  | nil => rfl
  | cons file files ih => simp [reached, ih]

mutual

theorem Tree.steps_of_readable : ∀ tree : Tree, tree.Readable → tree.steps = tree.files.map .visit
  | .leaf _, _ => rfl
  | .dir _ .opened children, h => by
    simp [Tree.steps, Tree.files, steps_of_allReadable children h]
  | .dir _ .unreadable _, h => by
    simp [Tree.steps, Tree.files, show _ = [] from h, filesAll]

theorem steps_of_allReadable : ∀ trees : List Tree, AllReadable trees →
    stepsAll trees = (filesAll trees).map .visit
  | [], _ => rfl
  | tree :: trees, h => by
    simp [stepsAll, filesAll, Tree.steps_of_readable tree h.1, steps_of_allReadable trees h.2]

end

mutual

/-- The walk reaches fewer files than there are when a directory is not opened. -/
theorem Tree.reached_length : ∀ tree : Tree, (reached tree.steps).length ≤ tree.files.length ∧
    (tree.files.length ≤ (reached tree.steps).length → tree.Readable)
  | .leaf _ => ⟨le_rfl, fun _ => trivial⟩
  | .dir path .opened children => by
    have hchildren := reachedAll_length children
    have happend := reached_append_length (stepsAll children) [.visit ⟨path, .directory⟩]
    simp only [Tree.steps, Tree.files, Tree.Readable, List.length_append, reached,
      List.length_singleton] at happend ⊢
    exact ⟨by omega, fun h => hchildren.2 (by omega)⟩
  | .dir _ .unreadable children => by
    have hnil : filesAll children = [] → children = [] := by
      cases children with
      | nil => intro _; rfl
      | cons tree trees => cases tree <;> simp [filesAll, Tree.files]
    simp only [Tree.steps, Tree.files, Tree.Readable, List.length_append, reached,
      List.length_singleton]
    exact ⟨by omega, fun h => hnil (List.length_eq_zero_iff.mp (by omega))⟩
  | .dir _ .failed _ => by simp [Tree.steps, Tree.files, reached]

theorem reachedAll_length : ∀ trees : List Tree,
    (reached (stepsAll trees)).length ≤ (filesAll trees).length ∧
      ((filesAll trees).length ≤ (reached (stepsAll trees)).length → AllReadable trees)
  | [] => ⟨le_rfl, fun _ => trivial⟩
  | tree :: trees => by
    have hfirst := tree.reached_length
    have hrest := reachedAll_length trees
    have happend := reached_append_length tree.steps (stepsAll trees)
    simp only [stepsAll, filesAll, List.length_append, AllReadable]
    exact ⟨by omega, fun h => ⟨hfirst.2 (by omega), hrest.2 (by omega)⟩⟩

end

theorem reached_eq_files_iff (tree : Tree) : reached tree.steps = tree.files ↔ tree.Readable := by
  constructor
  · intro h
    exact tree.reached_length.2 (by rw [h])
  · intro h
    simpa [tree.steps_of_readable h, reached] using reached_visits tree.files []

end walk

section result
variable {env isRecursive} {args : List Text} {type : FileType}

theorem setMetadataFn_ok (hodd : env.argv.length % 2 = 1) (hargs : env.argv.mapM id = some args)
    (hlstat : env.lstat = some type) (h : ¬SomeFails env isRecursive args type) :
    setMetadataFn env isRecursive = (.value [],
      ⟨reachedFiles env isRecursive args type, (requests (parsePermArgs args)
        (reachedFiles env isRecursive args type)).map succeeded⟩) := by
  simp only [SomeFails, not_exists, not_and, Bool.not_eq_false] at h
  rw [setMetadataFn, if_neg (by omega), hargs, hlstat]
  cases isRecursive with
  | true =>
    have hwalk := @nftw_ok env.ok (parsePermArgs args) {} env.tree.steps
      (by simpa [reachedFiles] using h)
    simp only [if_true]
    rw [if_neg (by omega), hwalk.2]
    simp [reachedFiles]
  | false =>
    have hfile := @applyParsedPerms_ok env.ok (parsePermArgs args)
      { visited := [⟨args.headD [], type⟩] } ⟨args.headD [], type⟩
      (by simpa [reachedFiles, requests] using h)
    dsimp only
    rw [if_neg Bool.false_ne_true, hfile]
    simp [reachedFiles]

theorem setMetadataFn_bad (hodd : env.argv.length % 2 = 1) (hargs : env.argv.mapM id = some args)
    (hlstat : env.lstat = some type) (h : SomeFails env isRecursive args type) :
    (setMetadataFn env isRecursive).1 = .abort .setMetadataFailure := by
  rw [setMetadataFn, if_neg (by omega), hargs, hlstat]
  cases isRecursive with
  | true =>
    have hwalk := @nftw_bad env.ok (parsePermArgs args) {} env.tree.steps
      (by simpa [reachedFiles, SomeFails] using h)
    simp only [if_true]
    rw [if_pos (by omega)]
  | false =>
    have hfile := @applyParsedPerms_bad env.ok (parsePermArgs args)
      { visited := [⟨args.headD [], type⟩] } ⟨args.headD [], type⟩
      (by simpa [reachedFiles, SomeFails, requests] using h)
    dsimp only
    rw [if_neg Bool.false_ne_true, if_pos (by simpa using hfile)]

/-- A value is returned only when everything has been done just when some call fails, or all pairs
are read and all directories opened. -/
theorem reports_iff : Reports env isRecursive ↔
    ∀ args type, env.argv.length % 2 = 1 → env.argv.mapM id = some args →
      env.lstat = some type →
        SomeFails env isRecursive args type ∨
          (∀ pair ∈ pairs args.tail, IsRead pair) ∧ (isRecursive → env.tree.Readable) := by
  have hfiles : ∀ args type, reachedFiles env isRecursive args type =
      filesOf env isRecursive args type ↔ (isRecursive → env.tree.Readable) := by
    intro args type
    rw [reachedFiles, filesOf]
    cases isRecursive with
    | true => simp [reached_eq_files_iff]
    | false => simp
  constructor
  · intro h args type hodd hargs hlstat
    refine or_iff_not_imp_left.mpr fun hok => ?_
    obtain ⟨args', type', hargs', hlstat', hdone⟩ :=
      h _ _ (setMetadataFn_ok hodd hargs hlstat hok)
    obtain rfl := Option.some.inj (hargs.symm.trans hargs')
    obtain rfl := Option.some.inj (hlstat.symm.trans hlstat')
    exact ⟨hdone.read, (hfiles args type).mp hdone.visited⟩
  · intro h text s hvalue
    have hodd : env.argv.length % 2 = 1 := by
      by_contra hodd
      rw [setMetadataFn, if_pos hodd] at hvalue
      cases hvalue
    cases hargs : env.argv.mapM id with
    | none =>
      rw [setMetadataFn, if_neg (by omega), hargs] at hvalue
      cases hvalue
    | some args =>
      cases hlstat : env.lstat with
      | none =>
        rw [setMetadataFn, if_neg (by omega), hargs, hlstat] at hvalue
        cases hvalue
      | some type =>
        refine ⟨args, type, rfl, rfl, ?_⟩
        by_cases hfail : SomeFails env isRecursive args type
        · have habort := setMetadataFn_bad hodd hargs hlstat hfail
          rw [hvalue] at habort
          cases habort
        · obtain ⟨hread, hreadable⟩ := (h args type hodd hargs hlstat).resolve_left hfail
          rw [setMetadataFn_ok hodd hargs hlstat hfail] at hvalue
          cases hvalue
          have hreached := (hfiles args type).mpr hreadable
          exact ⟨hread, hreached, by rw [hreached]⟩

end result

/-- A user that is not a number is passed over. -/
theorem not_reports : ¬Reports
    ⟨[some "/system/bin/su".toList, some "uid".toList, some "root".toList], some .regular,
      .leaf ⟨"/system/bin/su".toList, .regular⟩, fun _ => true⟩ false := by
  intro h
  obtain ⟨args, type, hargs, -, hdone⟩ := h _ _ rfl
  have hpair : ("uid".toList, "root".toList) ∈ pairs args.tail := by
    rw [← Option.some.inj hargs]
    exact List.mem_cons_self
  have hunread : ¬IsRead ("uid".toList, "root".toList) := by
    unfold IsRead
    decide +kernel
  exact hunread (hdone.read _ hpair)

end SetMetadata
end BootableRecovery.Updater
