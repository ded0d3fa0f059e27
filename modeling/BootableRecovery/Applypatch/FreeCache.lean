import BootableRecovery.Lib.Text
import Mathlib.Data.Char
import Mathlib.Data.List.Dedup
import Mathlib.Data.List.Lex

namespace BootableRecovery.Applypatch
open Lib

/-! `RemoveFilesInDirectory`: room is made by deleting files. -/

/-- A folder of `/proc`, with the files its descriptors lead to if they can be listed. -/
structure Process where
  name : Text
  fds : Option (List Text)

/-- The two paths of `Paths`, and what the file system answers. `isPid` is whether `ParseUint`
accepts the name of a folder. -/
structure CacheFiles where
  cacheTempSource : Text
  cacheLogDirectory : Text
  isDirectory : Text → Bool
  isRegular : Text → Bool
  readDirectory : Text → Option (List Text)
  processes : Option (List Process)
  isPid : Text → Bool
  unlink : Text → Bool

/-- The space checker: free bytes after some deletions, in an `int64_t`. -/
structure SpaceChecker where
  free : List Text → ℤ
  lt : ∀ deleted, free deleted < 2 ^ 63

variable (fs : CacheFiles) (space : SpaceChecker)

/-- The elements in the order of a `std::set`. -/
def setOf (files : List Text) : List Text := files.dedup.mergeSort fun a b => a ≤ b

def openLinks (processes : List Process) : List Text :=
  (processes.filter fun p => fs.isPid p.name).flatMap fun p => p.fds.getD []

def eliminateOpenFiles (dirname : Text) (files : List Text) : Option (List Text) :=
  fs.processes.map fun processes =>
    files.filter fun file => !(dirname.isPrefixOf file && (openLinks fs processes).contains file)

def joinPath (dirname name : Text) : Text := dirname ++ '/' :: name

def findExpendableFiles (dirname : Text) (nameFilter : Option (Text → Bool)) : List Text :=
  match fs.readDirectory dirname with
  | none => []
  | some names =>
    let expendable := names.filter fun name =>
      decide (joinPath dirname name ≠ fs.cacheTempSource) &&
        (nameFilter.elim true fun accepts => accepts name) && fs.isRegular (joinPath dirname name)
    let files := setOf (expendable.map (joinPath dirname))
    (eliminateOpenFiles fs dirname files).getD []

def lastLog : Text := "last_log".toList

def lastKmsg : Text := "last_kmsg".toList

/-- `sscanf` of a prefix and a `%u`. -/
def scanIndex (before logName : Text) : Option ℕ :=
  if before.isPrefixOf logName then
    (scanUnsigned 32 (logName.drop before.length)).map Prod.fst
  else none

def getLogIndex (logName : Text) : ℕ :=
  if logName = lastLog ∨ logName = lastKmsg then 0
  else ((scanIndex (lastLog ++ ['.']) logName).orElse fun _ =>
    scanIndex (lastKmsg ++ ['.']) logName).getD (2 ^ 32 - 1)

def basename (path : Text) : Text := (path.reverse.takeWhile fun c => c != '/').reverse

def logIndex (path : Text) : ℕ := getLogIndex (basename path)

/-- Older logs come first. -/
def comparator (name1 name2 : Text) : Bool :=
  if logIndex name1 = logIndex name2 then name1 ≤ name2 else logIndex name2 < logIndex name1

def logFilter (fileName : Text) : Bool :=
  lastLog.isPrefixOf fileName || lastKmsg.isPrefixOf fileName

/-- The files in the order in which they are deleted. -/
def expendableFiles (dirname : Text) : List Text :=
  if dirname = fs.cacheLogDirectory then
    (findExpendableFiles fs dirname (some logFilter)).mergeSort comparator
  else findExpendableFiles fs dirname none

/-- The loop over the files, with what has been deleted so far. -/
def removeLoop (bytesNeeded : ℕ) : List Text → List Text → Bool × List Text
  | [], deleted => (false, deleted)
  | file :: files, deleted =>
    if fs.unlink file = false then removeLoop bytesNeeded files deleted
    else
      let freeNow := space.free (deleted ++ [file])
      if freeNow = -1 then (false, deleted ++ [file])
      else if freeNow ≥ bytesNeeded then (true, deleted ++ [file])
      else removeLoop bytesNeeded files (deleted ++ [file])

/-- The result, with the files that were deleted. -/
def removeFilesInDirectory (bytesNeeded : ℕ) (dirname : Text) : Bool × List Text :=
  if bytesNeeded > 2 ^ 63 - 1 then (false, [])
  else if fs.isDirectory dirname = false then (false, [])
  else if space.free [] = -1 then (false, [])
  else if space.free [] ≥ bytesNeeded then (true, [])
  else removeLoop fs space bytesNeeded (expendableFiles fs dirname) []

/-- A regular file of the directory that is not open, is not the saved source, and in the log
directory is a log. -/
def Expendable (dirname file : Text) : Prop :=
  ∃ names name processes, fs.readDirectory dirname = some names ∧ name ∈ names ∧
    file = joinPath dirname name ∧ file ≠ fs.cacheTempSource ∧ fs.isRegular file = true ∧
    (dirname = fs.cacheLogDirectory → logFilter name = true) ∧
    fs.processes = some processes ∧ file ∉ openLinks fs processes

section order
variable {fs} {dirname file : Text}

theorem mem_setOf {files : List Text} : file ∈ setOf files ↔ file ∈ files := by
  rw [setOf, List.mem_mergeSort, List.mem_dedup]

theorem mem_eliminateOpenFiles {files : List Text} :
    file ∈ (eliminateOpenFiles fs dirname files).getD [] ↔ ∃ processes,
      fs.processes = some processes ∧ file ∈ files ∧
        ¬(dirname <+: file ∧ file ∈ openLinks fs processes) := by
  rw [eliminateOpenFiles]
  rcases fs.processes with _ | processes
  · simp
  · simp [← List.isPrefixOf_iff_prefix, ← Bool.not_eq_true, imp_iff_not_or]

theorem prefix_joinPath (dirname name : Text) : dirname <+: joinPath dirname name :=
  List.prefix_append _ _

theorem mem_findExpendableFiles {nameFilter : Option (Text → Bool)} :
    file ∈ findExpendableFiles fs dirname nameFilter ↔
      ∃ names name processes, fs.readDirectory dirname = some names ∧ name ∈ names ∧
        file = joinPath dirname name ∧ file ≠ fs.cacheTempSource ∧ fs.isRegular file = true ∧
        nameFilter.elim true (fun accepts => accepts name) = true ∧
        fs.processes = some processes ∧ file ∉ openLinks fs processes := by
  rw [findExpendableFiles]
  rcases fs.readDirectory dirname with _ | names
  · simp
  · simp only [mem_eliminateOpenFiles, mem_setOf, List.mem_map, List.mem_filter, Bool.and_eq_true,
      decide_eq_true_eq, Option.some.injEq]
    constructor
    · rintro ⟨processes, hproc, ⟨name, ⟨hname, ⟨hne, hfilter⟩, hreg⟩, rfl⟩, hopen⟩
      exact ⟨names, name, processes, rfl, hname, rfl, hne, hreg, hfilter, hproc,
        fun hlink => hopen ⟨prefix_joinPath _ _, hlink⟩⟩
    · rintro ⟨_, name, processes, rfl, hname, rfl, hne, hreg, hfilter, hproc, hlink⟩
      exact ⟨processes, hproc, ⟨name, ⟨hname, ⟨hne, hfilter⟩, hreg⟩, rfl⟩,
        fun hopen => hlink hopen.2⟩

theorem mem_expendableFiles : file ∈ expendableFiles fs dirname ↔ Expendable fs dirname file := by
  unfold expendableFiles Expendable
  split_ifs with hdir
  · rw [List.mem_mergeSort, mem_findExpendableFiles]
    simp [hdir]
  · rw [mem_findExpendableFiles]
    simp [hdir]

theorem comparator_total (a b : Text) : (comparator a b || comparator b a) = true := by
  unfold comparator
  rcases Nat.lt_trichotomy (logIndex a) (logIndex b) with h | h | h
  · simp [h, h.ne']
  · rw [if_pos h, if_pos h.symm]
    simpa using le_total a b
  · simp [h, h.ne']

theorem comparator_trans (a b c : Text) (hab : comparator a b = true)
    (hbc : comparator b c = true) : comparator a c = true := by
  unfold comparator at *
  split_ifs at hab hbc ⊢ with h1 h2 h3 h3 h2 h3 h3
  all_goals simp only [decide_eq_true_eq] at hab hbc ⊢
  · exact hab.trans hbc
  all_goals omega

/-- The logs are deleted from the highest index down. -/
theorem expendableFiles_oldestFirst (hdir : dirname = fs.cacheLogDirectory) :
    (expendableFiles fs dirname).Pairwise fun a b => logIndex b ≤ logIndex a := by
  rw [expendableFiles, if_pos hdir]
  refine (List.pairwise_mergeSort comparator_trans comparator_total _).imp fun {a b} h => ?_
  unfold comparator at h
  split_ifs at h with heq
  · exact heq.ge
  · exact (of_decide_eq_true h).le

end order

theorem scanIndex_decimal (before : Text) {n : ℕ} (hn : n < 2 ^ 32) :
    scanIndex before (before ++ decimal n) = some n := by
  have hscan := scanUnsigned_decimal 32 n [] [] (by omega) (by simp) (by simp)
  rw [List.nil_append, List.append_nil, Nat.mod_eq_of_lt hn] at hscan
  rw [scanIndex, if_pos (List.isPrefixOf_iff_prefix.mpr (List.prefix_append _ _)),
    List.drop_left, hscan]
  rfl

theorem basename_joinPath (dirname : Text) {name : Text} (h : '/' ∉ name) :
    basename (joinPath dirname name) = name := by
  have hname : ∀ c ∈ name.reverse, (c != '/') = true := fun c hc => by
    rw [bne_iff_ne]
    rintro rfl
    exact h (List.mem_reverse.mp hc)
  rw [basename, joinPath, List.reverse_append, List.reverse_cons, List.append_assoc,
    List.takeWhile_append_of_pos hname]
  simp

/-- The index of a rotated log is the number at the end of its name. -/
theorem logIndex_rotated {log : Text} (dirname : Text) (hlog : log = lastLog ∨ log = lastKmsg)
    {n : ℕ} (hn : n < 2 ^ 32) :
    logIndex (joinPath dirname (log ++ (['.'] ++ decimal n))) = n := by
  have hslash : ∀ l : Text, '/' ∉ l → '/' ∉ l ++ (['.'] ++ decimal n) := by
    intro l hl
    have hdigits : '/' ∉ decimal n := fun h => absurd (isDigit_of_mem_decimal h) (by decide)
    simp [hl, hdigits]
  have hlong : ∀ name : Text, name.length ≤ 9 → ∀ l : Text, 8 ≤ l.length →
      l ++ (['.'] ++ decimal n) ≠ name := by
    intro name hname l hl heq
    have hpos := List.length_pos_iff.mpr (decimal_ne_nil n)
    have hlen := congrArg List.length heq
    simp only [List.length_append, List.length_singleton] at hlen
    omega
  have hnot : ∀ l : Text, 8 ≤ l.length → ¬(l ++ (['.'] ++ decimal n) = lastLog ∨
      l ++ (['.'] ++ decimal n) = lastKmsg) := fun l hl =>
    not_or_intro (hlong lastLog (by decide) l hl) (hlong lastKmsg (by decide) l hl)
  rcases hlog with rfl | rfl
  · rw [logIndex, basename_joinPath _ (hslash lastLog (by decide)), getLogIndex,
      if_neg (hnot lastLog (by decide)), ← List.append_assoc, scanIndex_decimal _ hn]
    rfl
  · have hother : scanIndex (lastLog ++ ['.']) (lastKmsg ++ (['.'] ++ decimal n)) = none := rfl
    rw [logIndex, basename_joinPath _ (hslash lastKmsg (by decide)), getLogIndex,
      if_neg (hnot lastKmsg (by decide)), hother, ← List.append_assoc, scanIndex_decimal _ hn]
    rfl

section loop
variable {fs space} {bytesNeeded : ℕ} {files deleted : List Text}

/-- The loop tries the files in order, deletes those it can, and stops when there is room; without
room it stops behind the last file, or where the space cannot be asked for. -/
theorem removeLoop_spec (hroom : space.free deleted < bytesNeeded) : ∃ tried rest,
    files = tried ++ rest ∧
    ((removeLoop fs space bytesNeeded files deleted).1 = false → rest = [] ∨
      space.free (removeLoop fs space bytesNeeded files deleted).2 = -1) ∧
    (removeLoop fs space bytesNeeded files deleted).2 = deleted ++ tried.filter fs.unlink ∧
    (∀ d, d <+: tried.filter fs.unlink → d ≠ tried.filter fs.unlink →
      space.free (deleted ++ d) < bytesNeeded) ∧
    ((removeLoop fs space bytesNeeded files deleted).1 = true ↔
      bytesNeeded ≤ space.free (removeLoop fs space bytesNeeded files deleted).2) := by
  induction files generalizing deleted with
  | nil =>
    refine ⟨[], [], rfl, fun _ => Or.inl rfl, by simp [removeLoop], by simp, ?_⟩
    simpa [removeLoop] using hroom
  | cons file files ih =>
    unfold removeLoop
    by_cases hunlink : fs.unlink file = false
    · obtain ⟨tried, rest, hfiles, hall, hdel, hstop, hret⟩ := ih hroom
      rw [if_pos hunlink]
      refine ⟨file :: tried, rest, by rw [hfiles]; rfl, hall, ?_, ?_, hret⟩
      · rw [hdel, List.filter_cons_of_neg (by simp [hunlink])]
      · rwa [List.filter_cons_of_neg (by simp [hunlink])]
    rw [if_neg hunlink]
    have hone : [file].filter fs.unlink = [file] :=
      List.filter_cons_of_pos (by simpa using hunlink)
    have hproper : ∀ d, d <+: [file] → d ≠ [file] → space.free (deleted ++ d) < bytesNeeded := by
      intro d hd hne
      rcases List.prefix_cons_iff.mp hd with rfl | ⟨d', rfl, hd'⟩
      · rwa [List.append_nil]
      · exact absurd (by rw [List.prefix_nil.mp hd']) hne
    dsimp only
    split_ifs with herr hfree
    · refine ⟨[file], files, rfl, fun _ => Or.inr herr, by rw [hone],
        by rw [hone]; exact hproper, ?_⟩
      dsimp only
      rw [herr]
      simp
      omega
    · refine ⟨[file], files, rfl, nofun, by rw [hone], by rw [hone]; exact hproper, ?_⟩
      simpa using hfree
    · obtain ⟨tried, rest, hfiles, hall, hdel, hstop, hret⟩ := ih (not_le.mp hfree)
      refine ⟨file :: tried, rest, by rw [hfiles]; rfl, hall, ?_, ?_, hret⟩
      · rw [hdel, List.filter_cons_of_pos (by simpa using hunlink), List.append_assoc]
        rfl
      · rw [List.filter_cons_of_pos (by simpa using hunlink)]
        intro d hd hne
        rcases List.prefix_cons_iff.mp hd with rfl | ⟨d', rfl, hd'⟩
        · rwa [List.append_nil]
        · have := hstop d' hd' fun heq => hne (by rw [heq])
          rwa [List.append_assoc] at this

end loop

/-- What is deleted from a directory, and what the result says about it. -/
theorem removeFilesInDirectory_deletes (bytesNeeded : ℕ) {dirname : Text}
    (hdir : fs.isDirectory dirname = true) {result : Bool × List Text}
    (hresult : removeFilesInDirectory fs space bytesNeeded dirname = result) :
    (∃ tried rest, expendableFiles fs dirname = tried ++ rest ∧
      result.2 = tried.filter fs.unlink ∧
      (result.1 = false → rest = [] ∨ 2 ^ 63 ≤ bytesNeeded ∨ space.free result.2 = -1)) ∧
    (∀ deleted, deleted <+: result.2 → deleted ≠ result.2 → space.free deleted < bytesNeeded) ∧
    (result.1 = true ↔ bytesNeeded ≤ space.free result.2) := by
  have hkeep : ∀ ok : Bool, (ok = true ↔ bytesNeeded ≤ space.free []) →
      (ok = false → 2 ^ 63 ≤ bytesNeeded ∨ space.free [] = -1) → result = (ok, []) →
      (∃ tried rest, expendableFiles fs dirname = tried ++ rest ∧
        result.2 = tried.filter fs.unlink ∧
        (result.1 = false → rest = [] ∨ 2 ^ 63 ≤ bytesNeeded ∨ space.free result.2 = -1)) ∧
      (∀ deleted, deleted <+: result.2 → deleted ≠ result.2 → space.free deleted < bytesNeeded) ∧
      (result.1 = true ↔ bytesNeeded ≤ space.free result.2) := by
    rintro ok hret hwhy rfl
    exact ⟨⟨[], _, rfl, rfl, fun h => Or.inr (hwhy h)⟩,
      fun d hd hne => absurd (List.prefix_nil.mp hd) hne, hret⟩
  have hlt := space.lt []
  rw [removeFilesInDirectory] at hresult
  by_cases hbig : bytesNeeded > 2 ^ 63 - 1
  · rw [if_pos hbig] at hresult
    exact hkeep false (by simp; omega) (fun _ => Or.inl (by omega)) hresult.symm
  rw [if_neg hbig, if_neg (by simp [hdir])] at hresult
  by_cases herr : space.free [] = -1
  · rw [if_pos herr] at hresult
    exact hkeep false (by simp [herr]; omega) (fun _ => Or.inr herr) hresult.symm
  rw [if_neg herr] at hresult
  by_cases hfree : space.free [] ≥ bytesNeeded
  · rw [if_pos hfree] at hresult
    exact hkeep true (by simpa using hfree) nofun hresult.symm
  rw [if_neg hfree] at hresult
  obtain ⟨tried, rest, hfiles, hall, hdel, hstop, hret⟩ := removeLoop_spec (not_le.mp hfree)
  rw [hresult] at hall hdel hret
  rw [List.nil_append] at hdel
  refine ⟨⟨tried, rest, hfiles, hdel, fun h => (hall h).imp_right Or.inr⟩, ?_, hret⟩
  rw [hdel]
  exact hstop

/-- All that is deleted may be. -/
theorem expendable_of_tried {dirname : Text} {tried rest deleted : List Text}
    (hfiles : expendableFiles fs dirname = tried ++ rest) (hdel : deleted = tried.filter fs.unlink)
    (file : Text) (hfile : file ∈ deleted) : Expendable fs dirname file := by
  rw [hdel] at hfile
  rw [← mem_expendableFiles, hfiles]
  exact List.mem_append_left _ (List.mem_of_mem_filter hfile)

/-- The five logs of a log directory, of 4096 bytes each. -/
def fiveLogs : CacheFiles where
  cacheTempSource := "/cache/saved.file".toList
  cacheLogDirectory := "/cache/recovery".toList
  isDirectory dirname := dirname = "/cache/recovery".toList
  isRegular _ := true
  readDirectory _ := some
    (["last_log", "last_log.1", "last_kmsg.2", "last_log.5", "last_log.10"].map String.toList)
  processes := some []
  isPid _ := true
  unlink _ := true

def fourKilobytes : SpaceChecker where
  free deleted := min (4096 * deleted.length) (2 ^ 62)
  lt deleted := lt_of_le_of_lt (min_le_right _ _) (by decide)

section cache
variable {fs}

/-- What is left after some deletions. -/
def CacheFiles.without (fs : CacheFiles) (deleted : List Text) : CacheFiles :=
  { fs with isRegular := fun file => fs.isRegular file && !deleted.contains file }

def SpaceChecker.after (space : SpaceChecker) (deleted : List Text) : SpaceChecker where
  free more := space.free (deleted ++ more)
  lt more := space.lt (deleted ++ more)

/-- The loop over the directories, with what has been deleted so far. -/
def freeSpaceLoop (fs : CacheFiles) (space : Text → SpaceChecker) (bytes : ℕ) :
    List Text → List Text → Bool × List Text
  | [], deleted => (false, deleted)
  | dirname :: dirs, deleted =>
    let result := removeFilesInDirectory (fs.without deleted) ((space dirname).after deleted) bytes
      dirname
    if result.1 then (true, deleted ++ result.2)
    else freeSpaceLoop fs space bytes dirs (deleted ++ result.2)

def checkAndFreeSpaceOnCache (fs : CacheFiles) (space : Text → SpaceChecker) (bytes : ℕ) :
    Bool × List Text :=
  freeSpaceLoop fs space bytes ["/cache".toList, fs.cacheLogDirectory] []

theorem removeFilesInDirectory_not_directory {bytes : ℕ} {dirname : Text}
    (h : fs.isDirectory dirname = false) :
    removeFilesInDirectory fs space bytes dirname = (false, []) := by
  unfold removeFilesInDirectory
  split_ifs
  · rfl
  · rfl

theorem freeSpaceLoop_room (space : Text → SpaceChecker) (bytes : ℕ) (dirs deleted : List Text) :
    ∃ more, (freeSpaceLoop fs space bytes dirs deleted).2 = deleted ++ more ∧
      (∀ file ∈ more, ∃ dirname ∈ dirs, Expendable fs dirname file) ∧
      ((freeSpaceLoop fs space bytes dirs deleted).1 = true →
        ∃ dirname ∈ dirs, bytes ≤ (space dirname).free (deleted ++ more)) := by
  induction dirs generalizing deleted with
  | nil => exact ⟨[], by simp [freeSpaceLoop]⟩
  | cons dirname dirs ih =>
    unfold freeSpaceLoop
    dsimp only
    generalize hresult : removeFilesInDirectory (fs.without deleted)
      ((space dirname).after deleted) bytes dirname = result
    have hgone : ∀ file, Expendable (fs.without deleted) dirname file →
        Expendable fs dirname file := by
      rintro file ⟨names, name, processes, hnames, hname, hfile, hne, hreg, hlog, hproc, hopen⟩
      have hreg' : (fs.isRegular file && !deleted.contains file) = true := hreg
      rw [Bool.and_eq_true] at hreg'
      exact ⟨names, name, processes, hnames, hname, hfile, hne, hreg'.1, hlog, hproc, hopen⟩
    have hone : (∀ file ∈ result.2, Expendable fs dirname file) ∧
        (result.1 = true → bytes ≤ (space dirname).free (deleted ++ result.2)) := by
      by_cases hdir : (fs.without deleted).isDirectory dirname = true
      · obtain ⟨⟨tried, rest, hfiles, hdel, -⟩, -, hret⟩ :=
          removeFilesInDirectory_deletes _ _ bytes hdir hresult
        exact ⟨fun file hfile => hgone file (expendable_of_tried _ hfiles hdel file hfile), hret.mp⟩
      · rw [removeFilesInDirectory_not_directory _ (Bool.not_eq_true _ ▸ hdir)] at hresult
        rw [← hresult]
        simp
    by_cases hok : result.1 = true
    · rw [if_pos hok]
      exact ⟨result.2, rfl, fun file hfile => ⟨dirname, by simp, hone.1 file hfile⟩,
        fun _ => ⟨dirname, by simp, hone.2 hok⟩⟩
    · rw [if_neg hok]
      obtain ⟨more, hmore, hexp, hroom⟩ := ih (deleted ++ result.2)
      rw [List.append_assoc] at hmore
      refine ⟨result.2 ++ more, hmore, fun file hfile => ?_, fun h => ?_⟩
      · rcases List.mem_append.mp hfile with hfile | hfile
        · exact ⟨dirname, by simp, hone.1 file hfile⟩
        · obtain ⟨other, hmem, hother⟩ := hexp file hfile
          exact ⟨other, List.mem_cons_of_mem _ hmem, hother⟩
      · obtain ⟨other, hmem, hother⟩ := hroom h
        rw [List.append_assoc] at hother
        exact ⟨other, List.mem_cons_of_mem _ hmem, hother⟩

/-- A true result means that one of the two directories has room, and only files of theirs that may
be deleted are gone. -/
theorem checkAndFreeSpaceOnCache_room (space : Text → SpaceChecker) (bytes : ℕ) :
    let result := checkAndFreeSpaceOnCache fs space bytes
    (∀ file ∈ result.2, ∃ dirname ∈ ["/cache".toList, fs.cacheLogDirectory],
      Expendable fs dirname file) ∧
    (result.1 = true → ∃ dirname ∈ ["/cache".toList, fs.cacheLogDirectory],
      bytes ≤ (space dirname).free result.2) := by
  obtain ⟨more, hmore, hexp, hroom⟩ :=
    freeSpaceLoop_room space bytes ["/cache".toList, fs.cacheLogDirectory] []
  rw [List.nil_append] at hmore hroom
  rw [← hmore] at hexp hroom
  exact ⟨hexp, hroom⟩

end cache
end BootableRecovery.Applypatch
