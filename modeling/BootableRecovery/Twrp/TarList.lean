import BootableRecovery.Twrp.Files
import Mathlib.Data.List.Induction
import Mathlib.Tactic.Ring

namespace BootableRecovery.Twrp
open Lib

/-! `twrpTar::tarList`: one thread writes its entries into numbered archives. -/

def maxArchiveSize : ℕ := 1610612736

/-- What `lstat` says: an `off_t` for a regular file. -/
inductive Lstat
  | regular (size : Fin (2 ^ 63))
  | other
  deriving DecidableEq

structure TarListStruct where
  fn : Text
  threadId : ℕ
  deriving DecidableEq, Repr

/-- The calls that go out of the program: whether an archive can be opened, given an entry and
closed. -/
structure TarEnv where
  lstat : Text → Lstat
  openTar : Text → Bool
  addFile : Text → Text → Bool
  closeTar : Text → Bool

/-- The members of `twrpTar` that `tarList` reads. Compressed and encrypted archives are opened
with `O_EXCL`. -/
structure TwrpTar where
  tarfn : Text
  threadId : ℕ
  splitArchives : Bool
  exclusive : Bool
  deriving DecidableEq, Repr

/-- The files hold the entries added to them so far. -/
structure TarState where
  fs : FileSystem (List Text)
  archiveCount : ℕ
  archiveCurrentSize : ℕ

variable (env : TarEnv) (tar : TwrpTar)

def TwrpTar.actualFilename (archiveCount : ℕ) : Text :=
  if tar.splitArchives then archiveName tar.tarfn tar.threadId archiveCount else tar.tarfn

def createTar (name : Text) (fs : FileSystem (List Text)) : Option (FileSystem (List Text)) :=
  if tar.exclusive && pathExists fs name || !env.openTar name then none else some (fs.write name [])

/-- The files, and the return value when it is not 0. -/
abbrev TarResult (α : Type) := Except (ℤ × FileSystem (List Text)) α

/-- The body of the split: close the archive, count, open the next one. -/
def nextArchive (s : TarState) : TarResult TarState :=
  if env.closeTar (tar.actualFilename s.archiveCount) = false then .error (-3, s.fs)
  else if s.archiveCount + 1 > 99 then .error (-4, s.fs)
  else
    match createTar env tar (tar.actualFilename (s.archiveCount + 1)) s.fs with
    | none => .error (-2, s.fs)
    | some fs => .ok { fs := fs, archiveCount := s.archiveCount + 1, archiveCurrentSize := 0 }

/-- Room for a regular file of `size` bytes. -/
def makeRoom (s : TarState) (size : ℕ) : TarResult TarState :=
  if tar.splitArchives && (s.archiveCurrentSize + size) % 2 ^ 64 > maxArchiveSize then
    match nextArchive env tar s with
    | .error e => .error e
    | .ok s' => .ok { s' with archiveCurrentSize := (s'.archiveCurrentSize + size) % 2 ^ 64 }
  else .ok { s with archiveCurrentSize := (s.archiveCurrentSize + size) % 2 ^ 64 }

def addFile (s : TarState) (fn : Text) : TarResult TarState :=
  let name := tar.actualFilename s.archiveCount
  if env.addFile name fn = false then .error (-1, s.fs)
  else .ok { s with fs := s.fs.write name ((s.fs name).getD [] ++ [fn]) }

/-- One pass of the loop. -/
def tarStep (s : TarState) (item : TarListStruct) : TarResult TarState :=
  if item.threadId = tar.threadId then
    match env.lstat item.fn with
    | .other => addFile env tar s item.fn
    | .regular size =>
      match makeRoom env tar s size with
      | .error e => .error e
      | .ok s' => addFile env tar s' item.fn
  else .ok s

def tarLoop : List TarListStruct → TarState → TarResult (FileSystem (List Text))
  | [], s =>
    if env.closeTar (tar.actualFilename s.archiveCount) = false then .error (-3, s.fs) else .ok s.fs
  | item :: rest, s =>
    match tarStep env tar s item with
    | .error e => .error e
    | .ok s' => tarLoop rest s'

def tarList (tarItems : List TarListStruct) (fs : FileSystem (List Text)) :
    TarResult (FileSystem (List Text)) :=
  match createTar env tar (tar.actualFilename 0) fs with
  | none => .error (-2, fs)
  | some fs' => tarLoop env tar tarItems { fs := fs', archiveCount := 0, archiveCurrentSize := 0 }

/-- The sizes of the regular files among some entries. -/
def regularSizes (entries : List Text) : List ℕ :=
  entries.filterMap fun fn =>
    match env.lstat fn with
    | .regular size => some size
    | .other => none

/-- What one archive may hold. -/
def Fits (entries : List Text) : Prop :=
  (regularSizes env entries).sum ≤ maxArchiveSize ∨
    ∃ size, regularSizes env entries = [size] ∧ maxArchiveSize < size

/-- The folder with a thread's archives in it. -/
def putArchives (base : Text) (threadId : ℕ) (archives : List (List Text))
    (fs : FileSystem (List Text)) : FileSystem (List Text) :=
  archives.zipIdx.foldl (fun fs a => fs.write (archiveName base threadId a.2) a.1) fs

def threadEntries (threadId : ℕ) (tarItems : List TarListStruct) : List Text :=
  (tarItems.filter fun item => item.threadId = threadId).map TarListStruct.fn

/-- The thread's entries are in numbered archives, each in one, in the order of the list; nothing
else has been written. -/
structure SplitInto (tarItems : List TarListStruct) (archives : List (List Text))
    (fs fs' : FileSystem (List Text)) : Prop where
  nonempty : archives ≠ []
  twoDigits : archives.length ≤ 100
  entries : archives.flatten = threadEntries tar.threadId tarItems
  fits : ∀ entries ∈ archives, Fits env entries
  files : ∀ i entries, archives[i]? = some entries →
    fs' (archiveName tar.tarfn tar.threadId i) = some entries
  others : ∀ p, (∀ i < archives.length, p ≠ archiveName tar.tarfn tar.threadId i) → fs' p = fs p

/-- How often the loop goes on to another archive, from an archive of some size on. -/
def splitCount : List Text → ℕ → ℕ
  | [], _ => 0
  | fn :: rest, archiveCurrentSize =>
    match env.lstat fn with
    | .other => splitCount rest archiveCurrentSize
    | .regular size =>
      if archiveCurrentSize + size ≤ maxArchiveSize then splitCount rest (archiveCurrentSize + size)
      else splitCount rest size + 1

/-- Archives can be opened and closed and take every entry; none is there before where `O_EXCL`
asks for it. -/
structure CallsSucceed (fs : FileSystem (List Text)) : Prop where
  opens : ∀ name, env.openTar name = true
  adds : ∀ name fn, env.addFile name fn = true
  closes : ∀ name, env.closeTar name = true
  fresh : tar.exclusive = true →
    ∀ i < 100, pathExists fs (archiveName tar.tarfn tar.threadId i) = false

section putArchives
variable (base : Text) (tid : ℕ) (archives : List (List Text)) (entries entries' : List Text)
  (fs : FileSystem (List Text))

theorem FileSystem.write_write {α : Type} (fs : FileSystem α) (path : Text) (a b : α) :
    (fs.write path a).write path b = fs.write path b := by
  funext p
  simp only [FileSystem.write]
  split_ifs <;> rfl

theorem archiveName_index_inj {i i' : ℕ} :
    archiveName base tid i = archiveName base tid i' ↔ i = i' := by
  rw [archiveName, archiveName, List.append_right_inj, List.append_right_inj,
    (padded_injective 2).eq_iff]

theorem putArchives_concat : putArchives base tid (archives ++ [entries]) fs =
    (putArchives base tid archives fs).write (archiveName base tid archives.length) entries := by
  simp [putArchives, List.zipIdx_append]

/-- Adding to the last archive. -/
theorem putArchives_rewrite : (putArchives base tid (archives ++ [entries]) fs).write
      (archiveName base tid archives.length) entries' =
    putArchives base tid (archives ++ [entries']) fs := by
  rw [putArchives_concat, FileSystem.write_write, putArchives_concat]

theorem putArchives_last : putArchives base tid (archives ++ [entries]) fs
    (archiveName base tid archives.length) = some entries := by
  rw [putArchives_concat, FileSystem.write_self]

theorem putArchives_other {p : Text} (h : ∀ i < archives.length, p ≠ archiveName base tid i) :
    putArchives base tid archives fs p = fs p := by
  induction archives using List.reverseRecOn with
  | nil => rfl
  | append_singleton archives entries ih =>
    rw [List.length_append, List.length_singleton] at h
    rw [putArchives_concat, FileSystem.write_of_ne _ _ _ _ (h _ (Nat.lt_succ_self _)),
      ih fun i hi => h i (Nat.lt_succ_of_lt hi)]

theorem putArchives_get {i : ℕ} (h : archives[i]? = some entries) :
    putArchives base tid archives fs (archiveName base tid i) = some entries := by
  induction archives using List.reverseRecOn with
  | nil => cases h
  | append_singleton archives last ih =>
    rw [putArchives_concat]
    rcases Nat.lt_trichotomy i archives.length with hi | rfl | hi
    · rw [List.getElem?_append_left hi] at h
      rw [FileSystem.write_of_ne _ _ _ _ ?_, ih h]
      rw [Ne, archiveName_index_inj]
      exact hi.ne
    · rw [List.getElem?_concat_length, Option.some.injEq] at h
      rw [FileSystem.write_self, h]
    · rw [List.getElem?_eq_none (by simpa using Nat.succ_le_of_lt hi)] at h
      cases h

end putArchives

theorem regularSizes_append (l l' : List Text) :
    regularSizes env (l ++ l') = regularSizes env l ++ regularSizes env l' :=
  List.filterMap_append

theorem regularSizes_regular {fn : Text} {size : Fin (2 ^ 63)} (h : env.lstat fn = .regular size) :
    regularSizes env [fn] = [size.val] := by
  simp [regularSizes, h]

theorem regularSizes_other {fn : Text} (h : env.lstat fn = .other) :
    regularSizes env [fn] = [] := by
  simp [regularSizes, h]

theorem lt_of_mem_regularSizes {entries : List Text} {size : ℕ}
    (h : size ∈ regularSizes env entries) : size < 2 ^ 63 := by
  obtain ⟨fn, -, hfn⟩ := List.mem_filterMap.mp h
  split at hfn
  · rename_i s _
    rw [← Option.some.inj hfn]
    exact s.isLt
  · cases hfn

theorem Fits.sum_lt {entries : List Text} (h : Fits env entries) :
    (regularSizes env entries).sum < 2 ^ 63 := by
  rcases h with h | ⟨size, h, -⟩
  · exact lt_of_le_of_lt h (by decide)
  · rw [h, List.sum_singleton]
    exact lt_of_mem_regularSizes env (by rw [h]; exact List.mem_singleton_self _)

theorem threadEntries_concat (tid : ℕ) (tarItems : List TarListStruct) (item : TarListStruct) :
    threadEntries tid (tarItems ++ [item]) =
      threadEntries tid tarItems ++ if item.threadId = tid then [item.fn] else [] := by
  by_cases h : item.threadId = tid <;> simp [threadEntries, h]

/-- The loop has closed some archives and holds one open; the running size is that of the open
archive. -/
structure Writing (fs : FileSystem (List Text)) (entries : List Text)
    (closed : List (List Text)) (current : List Text) (s : TarState) : Prop where
  count : s.archiveCount = closed.length
  twoDigits : closed.length ≤ 99
  entries : (closed ++ [current]).flatten = entries
  fits : ∀ a ∈ closed ++ [current], Fits env a
  size : s.archiveCurrentSize = (regularSizes env current).sum
  files : s.fs = putArchives tar.tarfn tar.threadId (closed ++ [current]) fs

/-- The archive that is open after `makeRoom` will fit with the file in it: the running size
already counts the file. -/
structure Room (fs : FileSystem (List Text)) (entries : List Text) (closed : List (List Text))
    (current : List Text) (size : ℕ) (s : TarState) : Prop where
  writing : Writing env tar fs entries closed current
    { s with archiveCurrentSize := (regularSizes env current).sum }
  currentSize : s.archiveCurrentSize = (regularSizes env current).sum + size
  fits : (regularSizes env current).sum + size ≤ maxArchiveSize ∨ regularSizes env current = []

section run
variable {env tar} {fs : FileSystem (List Text)} {entries : List Text} {s s' : TarState}
  {closed : List (List Text)} {current : List Text}

theorem createTar_eq_some {name : Text} {fs' : FileSystem (List Text)}
    (h : createTar env tar name fs = some fs') : fs' = fs.write name [] := by
  unfold createTar at h
  split_ifs at h
  exact (Option.some.inj h).symm

/-- The archive that opens next is empty, behind those that are closed. -/
theorem nextArchive_ok (hsplit : tar.splitArchives = true)
    (hw : Writing env tar fs entries closed current s) (h : nextArchive env tar s = .ok s') :
    Writing env tar fs entries (closed ++ [current]) [] s' := by
  unfold nextArchive at h
  split_ifs at h with hclose hcount
  split at h
  · cases h
  · rename_i fs' hopen
    cases h
    have hname : tar.actualFilename (s.archiveCount + 1) =
        archiveName tar.tarfn tar.threadId (closed ++ [current]).length := by
      rw [TwrpTar.actualFilename, if_pos hsplit, hw.count, List.length_append,
        List.length_singleton]
    refine ⟨?_, ?_, ?_, ?_, ?_, ?_⟩
    · rw [List.length_append, List.length_singleton, ← hw.count]
    · rw [List.length_append, List.length_singleton, ← hw.count]
      omega
    · rw [List.flatten_append, hw.entries, List.flatten_singleton, List.append_nil]
    · intro a ha
      rcases List.mem_append.mp ha with ha | ha
      · exact hw.fits a ha
      · rw [List.mem_singleton.mp ha]
        exact .inl (Nat.zero_le _)
    · rfl
    · rw [createTar_eq_some hopen, hname, hw.files, putArchives_concat _ _ (closed ++ [current])]

theorem Writing.size_mod (hw : Writing env tar fs entries closed current s) {size : ℕ}
    (hsize : size < 2 ^ 63) :
    (s.archiveCurrentSize + size) % 2 ^ 64 = s.archiveCurrentSize + size := by
  have hsum : s.archiveCurrentSize < 2 ^ 63 := by
    rw [hw.size]
    exact (hw.fits current (by simp)).sum_lt
  exact Nat.mod_eq_of_lt (by omega)

theorem makeRoom_ok (hsplit : tar.splitArchives = true) {size : ℕ} (hsize : size < 2 ^ 63)
    (hw : Writing env tar fs entries closed current s) (h : makeRoom env tar s size = .ok s') :
    ∃ closed current, Room env tar fs entries closed current size s' := by
  unfold makeRoom at h
  rw [hsplit, Bool.true_and, hw.size_mod hsize] at h
  split_ifs at h with hbig
  · rcases hnext : nextArchive env tar s with e | s₁
    · rw [hnext] at h
      cases h
    · rw [hnext] at h
      cases h
      have hw₁ := nextArchive_ok hsplit hw hnext
      have hzero : s₁.archiveCurrentSize = 0 := hw₁.size
      refine ⟨_, _, ⟨⟨hw₁.count, hw₁.twoDigits, hw₁.entries, hw₁.fits, rfl, hw₁.files⟩, ?_,
        .inr rfl⟩⟩
      change (s₁.archiveCurrentSize + size) % 2 ^ 64 = 0 + size
      rw [hzero, Nat.zero_add, Nat.mod_eq_of_lt (by omega)]
  · cases h
    have hle : s.archiveCurrentSize + size ≤ maxArchiveSize := by simpa using hbig
    rw [hw.size] at hle
    refine ⟨closed, current, ⟨⟨hw.count, hw.twoDigits, hw.entries, hw.fits, rfl, hw.files⟩, ?_,
      .inl hle⟩⟩
    change s.archiveCurrentSize + size = _
    rw [hw.size]

theorem addFile_ok (hsplit : tar.splitArchives = true) {fn : Text}
    (hw : Writing env tar fs entries closed current
      { s with archiveCurrentSize := (regularSizes env current).sum })
    (hsize : s.archiveCurrentSize = (regularSizes env (current ++ [fn])).sum)
    (hfits : Fits env (current ++ [fn])) (h : addFile env tar s fn = .ok s') :
    Writing env tar fs (entries ++ [fn]) closed (current ++ [fn]) s' := by
  have hname : tar.actualFilename s.archiveCount =
      archiveName tar.tarfn tar.threadId closed.length := by
    rw [TwrpTar.actualFilename, if_pos hsplit, ← hw.count]
  have hfiles : s.fs = putArchives tar.tarfn tar.threadId (closed ++ [current]) fs := hw.files
  unfold addFile at h
  dsimp only at h
  split_ifs at h
  cases h
  refine ⟨hw.count, hw.twoDigits, ?_, ?_, hsize, ?_⟩
  · rw [← hw.entries, List.flatten_append, List.flatten_append, List.flatten_singleton,
      List.flatten_singleton, List.append_assoc]
  · intro a ha
    rcases List.mem_append.mp ha with ha | ha
    · exact hw.fits a (List.mem_append_left _ ha)
    · rw [List.mem_singleton.mp ha]
      exact hfits
  · rw [hname, hfiles, putArchives_last, putArchives_rewrite]
    rfl

/-- One pass of the loop adds the entry to the open archive if it is the thread's. -/
theorem tarStep_ok (hsplit : tar.splitArchives = true) {item : TarListStruct}
    (hw : Writing env tar fs entries closed current s) (h : tarStep env tar s item = .ok s') :
    ∃ closed current, Writing env tar fs
      (entries ++ if item.threadId = tar.threadId then [item.fn] else []) closed current s' := by
  unfold tarStep at h
  by_cases hid : item.threadId = tar.threadId
  · rw [if_pos hid] at h ⊢
    rcases hstat : env.lstat item.fn with size | _
    · rw [hstat] at h
      dsimp only at h
      rcases hroom : makeRoom env tar s size with e | s₁
      · rw [hroom] at h
        cases h
      rw [hroom] at h
      obtain ⟨closed, current, hr⟩ := makeRoom_ok hsplit size.isLt hw hroom
      have hsizes : regularSizes env (current ++ [item.fn]) =
          regularSizes env current ++ [size.val] := by
        rw [regularSizes_append, regularSizes_regular env hstat]
      refine ⟨closed, current ++ [item.fn], addFile_ok hsplit hr.writing ?_ ?_ h⟩
      · rw [hr.currentSize, hsizes, List.sum_append, List.sum_singleton]
      · rw [Fits, hsizes, List.sum_append, List.sum_singleton]
        rcases hr.fits with hle | hnil
        · exact .inl hle
        · rw [hnil]
          rcases Nat.lt_or_ge maxArchiveSize size.val with hlt | hge
          · exact .inr ⟨size.val, rfl, hlt⟩
          · exact .inl (by simpa using hge)
    · rw [hstat] at h
      dsimp only at h
      have hsizes : regularSizes env (current ++ [item.fn]) = regularSizes env current := by
        rw [regularSizes_append, regularSizes_other env hstat, List.append_nil]
      refine ⟨closed, current ++ [item.fn], addFile_ok hsplit ?_ ?_ ?_ h⟩
      · exact ⟨hw.count, hw.twoDigits, hw.entries, hw.fits, rfl, hw.files⟩
      · rw [hsizes, hw.size]
      · rw [Fits, hsizes]
        exact hw.fits current (by simp)
  · rw [if_neg hid] at h ⊢
    cases h
    rw [List.append_nil]
    exact ⟨closed, current, hw⟩

/-- The archives written so far, as what the whole call promises of them. -/
theorem Writing.splitInto {tarItems : List TarListStruct}
    (hw : Writing env tar fs (threadEntries tar.threadId tarItems) closed current s) :
    SplitInto env tar tarItems (closed ++ [current]) fs s.fs where
  nonempty := by simp
  twoDigits := by
    rw [List.length_append, List.length_singleton]
    exact Nat.succ_le_succ hw.twoDigits
  entries := hw.entries
  fits := hw.fits
  files i entries h := by
    rw [hw.files]
    exact putArchives_get _ _ _ _ _ h
  others p h := by
    rw [hw.files]
    exact putArchives_other _ _ _ _ h

theorem tarLoop_ok (hsplit : tar.splitArchives = true) {fs' : FileSystem (List Text)}
    (tarItems done : List TarListStruct)
    (hw : Writing env tar fs (threadEntries tar.threadId done) closed current s)
    (h : tarLoop env tar tarItems s = .ok fs') :
    ∃ archives, SplitInto env tar (done ++ tarItems) archives fs fs' := by
  induction tarItems generalizing done closed current s with
  | nil =>
    unfold tarLoop at h
    split_ifs at h
    cases h
    rw [List.append_nil]
    exact ⟨_, hw.splitInto⟩
  | cons item rest ih =>
    unfold tarLoop at h
    rcases hstep : tarStep env tar s item with e | s₁
    · rw [hstep] at h
      cases h
    rw [hstep] at h
    obtain ⟨closed, current, hw₁⟩ := tarStep_ok hsplit hw hstep
    rw [← threadEntries_concat] at hw₁
    obtain ⟨archives, hs⟩ := ih (done ++ [item]) hw₁ h
    rw [List.append_assoc] at hs
    exact ⟨archives, hs⟩

theorem writing_start (hsplit : tar.splitArchives = true) {fs' : FileSystem (List Text)}
    (h : createTar env tar (tar.actualFilename 0) fs = some fs') :
    Writing env tar fs (threadEntries tar.threadId []) [] []
      { fs := fs', archiveCount := 0, archiveCurrentSize := 0 } where
  count := rfl
  twoDigits := Nat.zero_le _
  entries := rfl
  fits a ha := by
    rw [List.mem_singleton.mp ha]
    exact .inl (Nat.zero_le _)
  size := rfl
  files := by
    rw [createTar_eq_some h, TwrpTar.actualFilename, if_pos hsplit]
    rfl

theorem tarList_ok (hsplit : tar.splitArchives = true) {tarItems : List TarListStruct}
    {fs' : FileSystem (List Text)} (h : tarList env tar tarItems fs = .ok fs') :
    ∃ archives, SplitInto env tar tarItems archives fs fs' := by
  unfold tarList at h
  rcases hopen : createTar env tar (tar.actualFilename 0) fs with _ | fs₁
  · rw [hopen] at h
    cases h
  rw [hopen] at h
  exact tarLoop_ok hsplit tarItems [] (writing_start hsplit hopen) h

/-! The guard of the two-digit index: where an archive 100 would be needed the call fails, with
archives 0 to 99 written. -/

theorem nextArchive_tooMany {fs' : FileSystem (List Text)}
    (h : nextArchive env tar s = .error (-4, fs')) : s.archiveCount + 1 > 99 ∧ fs' = s.fs := by
  unfold nextArchive at h
  split_ifs at h with hclose hcount
  · simp at h
  · simp only [Except.error.injEq, Prod.mk.injEq, true_and] at h
    exact ⟨hcount, h.symm⟩
  · split at h
    · simp at h
    · cases h

theorem addFile_error {fn : Text} {e : ℤ} {fs' : FileSystem (List Text)}
    (h : addFile env tar s fn = .error (e, fs')) : e = -1 := by
  unfold addFile at h
  dsimp only at h
  split_ifs at h
  simp only [Except.error.injEq, Prod.mk.injEq] at h
  exact h.1.symm

theorem tarStep_tooMany (hw : Writing env tar fs entries closed current s) {item : TarListStruct}
    {fs' : FileSystem (List Text)} (h : tarStep env tar s item = .error (-4, fs')) :
    item.threadId = tar.threadId ∧ s.archiveCount + 1 > 99 ∧ fs' = s.fs ∧
      ∃ size, env.lstat item.fn = .regular size ∧
        maxArchiveSize < (regularSizes env current).sum + size := by
  unfold tarStep at h
  by_cases hid : item.threadId = tar.threadId
  · rw [if_pos hid] at h
    refine ⟨hid, ?_⟩
    rcases hstat : env.lstat item.fn with size | _
    · rw [hstat] at h
      dsimp only at h
      rcases hroom : makeRoom env tar s size with e | s₁
      · rw [hroom] at h
        cases h
        unfold makeRoom at hroom
        rw [hw.size_mod size.isLt] at hroom
        split_ifs at hroom with hbig
        rw [Bool.and_eq_true, decide_eq_true_eq, hw.size] at hbig
        rcases hnext : nextArchive env tar s with e | s₁
        · rw [hnext] at hroom
          cases hroom
          obtain ⟨hcount, hfs⟩ := nextArchive_tooMany hnext
          exact ⟨hcount, hfs, size, rfl, hbig.2⟩
        · rw [hnext] at hroom
          cases hroom
      · rw [hroom] at h
        exact absurd (addFile_error h) (by decide)
    · rw [hstat] at h
      exact absurd (addFile_error h) (by decide)
  · rw [if_neg hid] at h
    cases h

theorem tarLoop_tooMany (hsplit : tar.splitArchives = true) {fs' : FileSystem (List Text)}
    (tarItems done : List TarListStruct)
    (hw : Writing env tar fs (threadEntries tar.threadId done) closed current s)
    (h : tarLoop env tar tarItems s = .error (-4, fs')) :
    ∃ before item after archives last size, tarItems = before ++ item :: after ∧
      item.threadId = tar.threadId ∧ archives.length = 99 ∧
      SplitInto env tar (done ++ before) (archives ++ [last]) fs fs' ∧
      env.lstat item.fn = .regular size ∧
      maxArchiveSize < (regularSizes env last).sum + size := by
  induction tarItems generalizing done closed current s with
  | nil =>
    unfold tarLoop at h
    split_ifs at h
    simp at h
  | cons item rest ih =>
    unfold tarLoop at h
    rcases hstep : tarStep env tar s item with e | s₁
    · rw [hstep] at h
      cases h
      obtain ⟨hid, hcount, rfl, size, hstat, hbig⟩ := tarStep_tooMany hw hstep
      rw [hw.count] at hcount
      have hlen := hw.twoDigits
      exact ⟨[], item, rest, closed, current, size, rfl, hid, by omega,
        by rw [List.append_nil]; exact hw.splitInto, hstat, hbig⟩
    rw [hstep] at h
    obtain ⟨closed, current, hw₁⟩ := tarStep_ok hsplit hw hstep
    rw [← threadEntries_concat] at hw₁
    obtain ⟨before, next, after, archives, last, size, rfl, hid, hlen, hs, hfull⟩ :=
      ih (done ++ [item]) hw₁ h
    rw [List.append_assoc] at hs
    exact ⟨item :: before, next, after, archives, last, size, rfl, hid, hlen, hs, hfull⟩

theorem tarList_tooMany (hsplit : tar.splitArchives = true) {tarItems : List TarListStruct}
    {fs' : FileSystem (List Text)} (h : tarList env tar tarItems fs = .error (-4, fs')) :
    ∃ before item after archives last size, tarItems = before ++ item :: after ∧
      item.threadId = tar.threadId ∧ archives.length = 99 ∧
      SplitInto env tar before (archives ++ [last]) fs fs' ∧
      env.lstat item.fn = .regular size ∧
      maxArchiveSize < (regularSizes env last).sum + size := by
  unfold tarList at h
  rcases hopen : createTar env tar (tar.actualFilename 0) fs with _ | fs₁
  · rw [hopen] at h
    simp at h
  rw [hopen] at h
  exact tarLoop_tooMany hsplit tarItems [] (writing_start hsplit hopen) h

theorem tarStep_other {item : TarListStruct} (hid : item.threadId = tar.threadId)
    (hstat : env.lstat item.fn = .other) :
    tarStep env tar s item = addFile env tar s item.fn := by
  rw [tarStep, if_pos hid, hstat]

theorem tarStep_regular {item : TarListStruct} {size : Fin (2 ^ 63)} {t : TarState}
    (hid : item.threadId = tar.threadId) (hstat : env.lstat item.fn = .regular size)
    (hroom : makeRoom env tar s size = .ok t) :
    tarStep env tar s item = addFile env tar t item.fn := by
  rw [tarStep, if_pos hid, hstat]
  dsimp only
  rw [hroom]

theorem tarStep_noRoom {item : TarListStruct} {size : Fin (2 ^ 63)}
    {e : ℤ × FileSystem (List Text)} (hid : item.threadId = tar.threadId)
    (hstat : env.lstat item.fn = .regular size) (hroom : makeRoom env tar s size = .error e) :
    tarStep env tar s item = .error e := by
  rw [tarStep, if_pos hid, hstat]
  dsimp only
  rw [hroom]

theorem splitCount_other {fn : Text} {n : ℕ} (h : env.lstat fn = .other) :
    splitCount env (fn :: entries) n = splitCount env entries n := by
  rw [splitCount, h]

theorem splitCount_fits {fn : Text} {size : Fin (2 ^ 63)} {n : ℕ}
    (h : env.lstat fn = .regular size) (hfits : n + size ≤ maxArchiveSize) :
    splitCount env (fn :: entries) n = splitCount env entries (n + size) := by
  rw [splitCount, h]
  dsimp only
  rw [if_pos hfits]

theorem splitCount_full {fn : Text} {size : Fin (2 ^ 63)} {n : ℕ}
    (h : env.lstat fn = .regular size) (hfull : ¬ n + size ≤ maxArchiveSize) :
    splitCount env (fn :: entries) n = splitCount env entries size + 1 := by
  rw [splitCount, h]
  dsimp only
  rw [if_neg hfull]

/-! What a call returns where the calls that it makes succeed. -/

section calls
variable (hcalls : CallsSucceed env tar fs) (hsplit : tar.splitArchives = true)
  (hw : Writing env tar fs entries closed current s)
include hcalls hsplit hw

theorem nextArchive_calls : nextArchive env tar s = if 99 < s.archiveCount + 1
    then .error (-4, s.fs)
    else .ok ⟨s.fs.write (tar.actualFilename (s.archiveCount + 1)) [], s.archiveCount + 1, 0⟩ := by
  rw [nextArchive, hcalls.closes, if_neg (by decide)]
  by_cases hcount : s.archiveCount + 1 > 99
  · rw [if_pos hcount, if_pos hcount]
  have hfresh : (tar.exclusive && pathExists s.fs (tar.actualFilename (s.archiveCount + 1))) =
      false := by
    rw [Bool.and_eq_false_iff, or_iff_not_imp_left, Bool.not_eq_false]
    intro hexclusive
    have hnone := hcalls.fresh hexclusive (s.archiveCount + 1) (by omega)
    rw [TwrpTar.actualFilename, if_pos hsplit, hw.files, pathExists, putArchives_other]
    · exact hnone
    · intro i hi heq
      rw [archiveName_index_inj, hw.count] at heq
      rw [List.length_append, List.length_singleton] at hi
      omega
  rw [if_neg hcount, if_neg hcount, createTar, hfresh, hcalls.opens]
  rfl

theorem makeRoom_calls {size : ℕ} (hsize : size < 2 ^ 63) : makeRoom env tar s size =
    if s.archiveCurrentSize + size ≤ maxArchiveSize then
      .ok { s with archiveCurrentSize := s.archiveCurrentSize + size }
    else if 99 < s.archiveCount + 1 then .error (-4, s.fs)
    else
      .ok ⟨s.fs.write (tar.actualFilename (s.archiveCount + 1)) [], s.archiveCount + 1, size⟩ := by
  rw [makeRoom, hsplit, Bool.true_and, hw.size_mod hsize, nextArchive_calls hcalls hsplit hw]
  by_cases hfits : s.archiveCurrentSize + size ≤ maxArchiveSize
  · rw [if_pos hfits, if_neg (by simpa using hfits)]
  rw [if_neg hfits, if_pos (by simpa using hfits)]
  split_ifs
  · rfl
  · dsimp only
    rw [Nat.zero_add, Nat.mod_eq_of_lt (by omega)]

omit hsplit hw in
theorem addFile_calls (fn : Text) : ∃ fs', addFile env tar s fn = .ok { s with fs := fs' } := by
  rw [addFile, hcalls.adds, if_neg (by decide)]
  exact ⟨_, rfl⟩

/-- The loop fails exactly if it would go on to an archive 100. -/
theorem tarLoop_calls (tarItems : List TarListStruct) :
    ∃ fs', tarLoop env tar tarItems s =
      if s.archiveCount + splitCount env (threadEntries tar.threadId tarItems)
        s.archiveCurrentSize ≤ 99 then .ok fs' else .error (-4, fs') := by
  induction tarItems generalizing entries closed current s with
  | nil =>
    have hle : s.archiveCount + splitCount env (threadEntries tar.threadId [])
        s.archiveCurrentSize ≤ 99 := by
      have hlen := hw.twoDigits
      have hzero : splitCount env (threadEntries tar.threadId []) s.archiveCurrentSize = 0 := by
        simp [threadEntries, splitCount]
      rw [hzero, hw.count]
      exact hlen
    refine ⟨s.fs, ?_⟩
    rw [if_pos hle, tarLoop, hcalls.closes, if_neg (by decide)]
  | cons item rest ih =>
    -- after a step that succeeds the rest decides
    have hgo : ∀ {t : TarState}, tarStep env tar s item = .ok t →
        t.archiveCount + splitCount env (threadEntries tar.threadId rest) t.archiveCurrentSize =
          s.archiveCount + splitCount env (threadEntries tar.threadId (item :: rest))
            s.archiveCurrentSize →
        ∃ fs', tarLoop env tar (item :: rest) s =
          if s.archiveCount + splitCount env (threadEntries tar.threadId (item :: rest))
            s.archiveCurrentSize ≤ 99 then .ok fs' else .error (-4, fs') := by
      intro t hstep hcount
      obtain ⟨closed, current, hw'⟩ := tarStep_ok hsplit hw hstep
      rw [tarLoop, hstep, ← hcount]
      exact ih hw'
    by_cases hid : item.threadId = tar.threadId
    · have hentries : threadEntries tar.threadId (item :: rest) =
          item.fn :: threadEntries tar.threadId rest := by
        simp [threadEntries, hid]
      cases hstat : env.lstat item.fn with
      | other =>
        obtain ⟨fs', hadd⟩ := addFile_calls (s := s) hcalls item.fn
        apply hgo ((tarStep_other hid hstat).trans hadd)
        rw [hentries, splitCount_other hstat]
      | regular size =>
        have hroom := makeRoom_calls hcalls hsplit hw size.isLt
        by_cases hfits : s.archiveCurrentSize + size ≤ maxArchiveSize
        · rw [if_pos hfits] at hroom
          obtain ⟨fs', hadd⟩ := addFile_calls
            (s := { s with archiveCurrentSize := s.archiveCurrentSize + size }) hcalls item.fn
          apply hgo ((tarStep_regular hid hstat hroom).trans hadd)
          rw [hentries, splitCount_fits hstat hfits]
        rw [if_neg hfits] at hroom
        by_cases hfull : 99 < s.archiveCount + 1
        · rw [if_pos hfull] at hroom
          refine ⟨s.fs, ?_⟩
          rw [tarLoop, tarStep_noRoom hid hstat hroom, hentries, splitCount_full hstat hfits,
            if_neg (by omega)]
        · rw [if_neg hfull] at hroom
          obtain ⟨fs', hadd⟩ := addFile_calls (s := ⟨s.fs.write
            (tar.actualFilename (s.archiveCount + 1)) [], s.archiveCount + 1, size⟩) hcalls item.fn
          apply hgo ((tarStep_regular hid hstat hroom).trans hadd)
          rw [hentries, splitCount_full hstat hfits]
          dsimp only
          omega
    · have hstep : tarStep env tar s item = .ok s := by
        rw [tarStep, if_neg hid]
      apply hgo hstep
      rw [threadEntries, threadEntries, List.filter_cons_of_neg (by simpa using hid)]

end calls

theorem tarList_calls (hcalls : CallsSucceed env tar fs) (hsplit : tar.splitArchives = true)
    (tarItems : List TarListStruct) : ∃ fs', tarList env tar tarItems fs =
      if splitCount env (threadEntries tar.threadId tarItems) 0 ≤ 99 then .ok fs'
      else .error (-4, fs') := by
  have hopen : createTar env tar (tar.actualFilename 0) fs =
      some (fs.write (tar.actualFilename 0) []) := by
    have hfresh : (tar.exclusive && pathExists fs (tar.actualFilename 0)) = false := by
      rw [Bool.and_eq_false_iff, or_iff_not_imp_left, Bool.not_eq_false]
      intro hexclusive
      rw [TwrpTar.actualFilename, if_pos hsplit]
      exact hcalls.fresh hexclusive 0 (by decide)
    rw [createTar, hfresh, hcalls.opens]
    rfl
  have hloop := tarLoop_calls hcalls hsplit (writing_start hsplit hopen) tarItems
  rw [Nat.zero_add] at hloop
  rw [tarList, hopen]
  exact hloop

end run

end BootableRecovery.Twrp
