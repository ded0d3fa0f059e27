import BootableRecovery.Twrp.TarList
import Mathlib.Data.List.Nodup

namespace BootableRecovery.Twrp
open Lib

/-! The reader of split archives, and that it opens what the writer's threads wrote. -/

inductive ArchiveType
  | uncompressed
  | compressed
  | encrypted
  | compressedEncrypted
  deriving DecidableEq, Repr

section reader
variable {α : Type} (fileType : Text → ArchiveType) (extract : Text → Bool) (fs : FileSystem α)
  (base : Text)

/-- The loop of `extractMulti`, with `n` archives to go: the archives it opens, in order, and
whether all of them were extracted. -/
def extractArchives (threadId : ℕ) : ℕ → ℕ → List Text × Bool
  | 0, _ => ([], true)
  | n + 1, archiveCount =>
    let name := archiveName base threadId archiveCount
    if pathExists fs name = false then ([], true)
    else if extract name = false then ([name], false)
    else
      let (opened, done) := extractArchives threadId n (archiveCount + 1)
      (name :: opened, done)

def extractMulti (threadId : ℕ) : List Text × Bool := extractArchives extract fs base threadId 100 0

/-- The loop that starts the threads, with `n` ids to go. -/
def extractThreads : ℕ → ℕ → List (List Text × Bool)
  | 0, _ => []
  | n + 1, i =>
    if pathExists fs (archiveName base i 0) = false then []
    else extractMulti extract fs base i :: extractThreads n (i + 1)

/-- The child of `extractTarFork`, outside of an adb backup: the archives opened, thread by
thread, and whether all of them were extracted. -/
def extractTarFork : List (List Text) × Bool :=
  if pathExists fs base then ([[base]], extract base)
  else
    let first := base ++ "000".toList
    if pathExists fs first = false then ([], false)
    else if fileType first = .encrypted then
      let threads := extractThreads extract fs base 9 0
      (threads.map Prod.fst, threads.all Prod.snd)
    else
      let reg := extractMulti extract fs base 0
      if reg.2 = false then ([reg.1], false)
      else
        let threads := extractThreads extract fs base 8 1
        (reg.1 :: threads.map Prod.fst, threads.all Prod.snd)

/-- The folder holds `count t` archives of thread `t`, numbered from 0, and no single archive. -/
structure HoldsArchives (count : ℕ → ℕ) : Prop where
  noSingle : pathExists fs base = false
  exists_iff : ∀ t < 10, ∀ i < 100, pathExists fs (archiveName base t i) = true ↔ i < count t
  twoDigits : ∀ t, count t ≤ 100

def threadArchives (count : ℕ → ℕ) (t : ℕ) : List Text :=
  (List.range (count t)).map (archiveName base t)

variable {extract fs base} {count : ℕ → ℕ}

theorem extractArchives_eq (h : HoldsArchives fs base count)
    (hok : ∀ p, pathExists fs p = true → extract p = true) {t : ℕ} (ht : t < 10) (n i : ℕ)
    (hi : i ≤ count t) (hn : i + n = 100) : extractArchives extract fs base t n i =
      ((List.range' i (count t - i)).map (archiveName base t), true) := by
  induction n generalizing i with
  | zero =>
    have : count t - i = 0 := by have := h.twoDigits t; omega
    rw [extractArchives, this]
    rfl
  | succ n ih =>
    have hex := h.exists_iff t ht i (by omega)
    rw [extractArchives]
    dsimp only
    rcases Nat.lt_or_ge i (count t) with hlt | hge
    · rw [hex.mpr hlt, hok _ (hex.mpr hlt), if_neg (Ne.symm Bool.false_ne_true),
        if_neg (Ne.symm Bool.false_ne_true),
        ih (i + 1) hlt (by omega), show count t - i = count t - (i + 1) + 1 by omega,
        List.range'_succ, List.map_cons]
    · rw [if_pos (by rw [← Bool.not_eq_true, hex]; omega), show count t - i = 0 by omega]
      rfl

theorem extractMulti_eq (h : HoldsArchives fs base count)
    (hok : ∀ p, pathExists fs p = true → extract p = true) {t : ℕ} (ht : t < 10) :
    extractMulti extract fs base t = (threadArchives base count t, true) := by
  rw [extractMulti, extractArchives_eq h hok ht 100 0 (Nat.zero_le _) rfl, Nat.sub_zero,
    ← List.range_eq_range', threadArchives]

/-- The threads started are those before the first that has no archive. -/
theorem extractThreads_eq (h : HoldsArchives fs base count)
    (hok : ∀ p, pathExists fs p = true → extract p = true) (n i : ℕ) (hn : i + n ≤ 10) :
    extractThreads extract fs base n i = ((List.range' i n).takeWhile fun t => 0 < count t).map
      fun t => (threadArchives base count t, true) := by
  induction n generalizing i with
  | zero => rfl
  | succ n ih =>
    have hex := h.exists_iff i (by omega) 0 (by decide)
    rw [extractThreads, List.range'_succ]
    rcases Nat.eq_zero_or_pos (count i) with hz | hpos
    · rw [if_pos (by rw [← Bool.not_eq_true, hex]; omega),
        List.takeWhile_cons_of_neg (by simp [hz])]
      rfl
    · rw [if_neg (by rw [hex.mpr hpos]; decide), extractMulti_eq h hok (by omega),
        ih (i + 1) (by omega), List.takeWhile_cons_of_pos (by simpa using hpos), List.map_cons]

/-- What the reader opens. Whether archive 000 is encrypted does not matter: its thread is read
once in either case. -/
theorem extractTarFork_eq (h : HoldsArchives fs base count)
    (hok : ∀ p, pathExists fs p = true → extract p = true) (hfirst : 0 < count 0) :
    extractTarFork fileType extract fs base =
      (((List.range 9).takeWhile fun t => 0 < count t).map (threadArchives base count), true) := by
  have hname : base ++ "000".toList = archiveName base 0 0 := rfl
  have hex := (h.exists_iff 0 (by decide) 0 (by decide)).mpr hfirst
  have hrange : List.range 9 = 0 :: List.range' 1 8 := rfl
  rw [extractTarFork, h.noSingle, if_neg Bool.false_ne_true, hname]
  dsimp only
  rw [hex, if_neg (Ne.symm Bool.false_ne_true)]
  by_cases hf : fileType (archiveName base 0 0) = .encrypted
  · rw [if_pos hf, extractThreads_eq h hok 9 0 (by decide), ← List.range_eq_range']
    simp [Function.comp_def]
  · rw [if_neg hf, extractMulti_eq h hok (by decide), extractThreads_eq h hok 8 1 (by decide),
      hrange, List.takeWhile_cons_of_pos (by simpa using hfirst)]
    simp [Function.comp_def]

theorem extractTarFork_none (h : HoldsArchives fs base count) (hfirst : count 0 = 0) :
    extractTarFork fileType extract fs base = ([], false) := by
  have hex : pathExists fs (base ++ "000".toList) = false := by
    have hex := h.exists_iff 0 (by decide) 0 (by decide)
    rw [hfirst] at hex
    rw [← Bool.not_eq_true]
    exact fun hp => absurd (hex.mp hp) (Nat.lt_irrefl 0)
  rw [extractTarFork, h.noSingle, if_neg Bool.false_ne_true]
  dsimp only
  rw [hex, if_pos rfl]

end reader

/-! ### The threads of a backup -/

/-- `sysconf` cut to the eight threads there is room for. -/
abbrev CoreCount := { n : ℕ // 0 < n ∧ n ≤ 8 }

/-- How a backup is divided: one thread a core for an encrypted one, an unencrypted thread 0
before them when only user data is encrypted, one thread otherwise. -/
inductive SplitLayout
  | encrypted (coreCount : CoreCount)
  | userdataEncrypted (coreCount : CoreCount)
  | plain

def SplitLayout.threadIds : SplitLayout → List ℕ
  | .encrypted coreCount => List.range' 0 coreCount
  | .userdataEncrypted coreCount => 0 :: List.range' 1 coreCount
  | .plain => [0]

/-- The list and the kind of archive each thread is given. -/
structure ThreadJob where
  itemList : List TarListStruct
  exclusive : Bool

variable (env : TarEnv) (base : Text) (jobs : ℕ → ThreadJob)

def threadTar (threadId : ℕ) : TwrpTar := ⟨base, threadId, true, (jobs threadId).exclusive⟩

/-- The threads of a backup, in the order of their work. -/
def createLists : List ℕ → FileSystem (List Text) → TarResult (FileSystem (List Text))
  | [], fs => .ok fs
  | t :: ts, fs =>
    match tarList env (threadTar base jobs t) (jobs t).itemList fs with
    | .error e => .error e
    | .ok fs' => createLists ts fs'

/-- No file of the folder has the base name. -/
def Fresh {α : Type} (fs : FileSystem α) (base : Text) : Prop :=
  ∀ suffix, fs (base ++ suffix) = none

/-- What a group of threads has written. -/
structure ThreadsWrote (ts : List ℕ) (archives : ℕ → List (List Text))
    (fs fs' : FileSystem (List Text)) : Prop where
  split : ∀ t ∈ ts, ∃ before after,
    SplitInto env (threadTar base jobs t) (jobs t).itemList (archives t) before after
  files : ∀ t ∈ ts, ∀ i entries, (archives t)[i]? = some entries →
    fs' (archiveName base t i) = some entries
  others : ∀ p, (∀ t ∈ ts, ∀ i < (archives t).length, p ≠ archiveName base t i) → fs' p = fs p

section writer
variable {env base jobs} {archives : ℕ → List (List Text)} {fs fs' : FileSystem (List Text)}

theorem createLists_wrote {ts : List ℕ} (hnodup : ts.Nodup) (hten : ∀ t ∈ ts, t < 10)
    (h : createLists env base jobs ts fs = .ok fs') :
    ∃ archives, ThreadsWrote env base jobs ts archives fs fs' := by
  induction ts generalizing fs with
  | nil =>
    cases h
    exact ⟨fun _ => [], by simp, by simp, fun _ _ => rfl⟩
  | cons t ts ih =>
    unfold createLists at h
    rcases hlist : tarList env (threadTar base jobs t) (jobs t).itemList fs with e | fs₁
    · rw [hlist] at h
      cases h
    rw [hlist] at h
    rw [List.nodup_cons] at hnodup
    have ht : t < 10 := hten t List.mem_cons_self
    obtain ⟨first, hfirst⟩ := tarList_ok rfl hlist
    obtain ⟨archives, hrest⟩ := ih hnodup.2 (fun u hu => hten u (List.mem_cons_of_mem _ hu)) h
    have hne : ∀ u ∈ ts, u ≠ t := fun u hu hut => hnodup.1 (hut ▸ hu)
    have hsame : Function.update archives t first t = first := Function.update_self ..
    have hupd : ∀ u ∈ ts, Function.update archives t first u = archives u := fun u hu =>
      Function.update_of_ne (hne u hu) _ _
    refine ⟨Function.update archives t first, ?_, ?_, ?_⟩
    · intro u hu
      rcases List.mem_cons.mp hu with rfl | hu
      · rw [hsame]
        exact ⟨fs, fs₁, hfirst⟩
      · rw [hupd u hu]
        exact hrest.split u hu
    · intro u hu i entries hi
      rcases List.mem_cons.mp hu with rfl | hu
      · rw [hsame] at hi
        have hlen : i < first.length := (List.getElem?_eq_some_iff.mp hi).1
        have hi' : i < 100 := lt_of_lt_of_le hlen hfirst.twoDigits
        rw [hrest.others _ ?_]
        · exact hfirst.files i entries hi
        intro v hv j hj heq
        obtain ⟨_, _, hs⟩ := hrest.split v hv
        have hj' : j < 100 := lt_of_lt_of_le hj hs.twoDigits
        rw [archiveName_inj base ht hi' (hten v (List.mem_cons_of_mem _ hv)) hj'] at heq
        exact hne v hv heq.1.symm
      · rw [hupd u hu] at hi
        exact hrest.files u hu i entries hi
    · intro p hp
      rw [hrest.others p ?_, hfirst.others p ?_]
      · intro i hi
        refine hp t List.mem_cons_self i ?_
        rwa [hsame]
      · intro u hu i hi
        refine hp u (List.mem_cons_of_mem _ hu) i ?_
        rwa [hupd u hu]

def archiveCounts (ts : List ℕ) (archives : ℕ → List (List Text)) (t : ℕ) : ℕ :=
  if t ∈ ts then (archives t).length else 0

theorem ThreadsWrote.length_le {ts : List ℕ} (h : ThreadsWrote env base jobs ts archives fs fs')
    {t : ℕ} (ht : t ∈ ts) : 0 < (archives t).length ∧ (archives t).length ≤ 100 := by
  obtain ⟨_, _, hs⟩ := h.split t ht
  exact ⟨List.length_pos_iff.mpr hs.nonempty, hs.twoDigits⟩

/-- A file with the base name is one of the archives. -/
theorem ThreadsWrote.pathExists_iff {ts : List ℕ}
    (h : ThreadsWrote env base jobs ts archives fs fs')
    (hfresh : Fresh fs base) (suffix : Text) : pathExists fs' (base ++ suffix) = true ↔
      ∃ t ∈ ts, ∃ i < (archives t).length, base ++ suffix = archiveName base t i := by
  constructor
  · intro hex
    by_contra hno
    push Not at hno
    rw [pathExists, h.others _ hno, hfresh suffix] at hex
    cases hex
  · rintro ⟨t, ht, i, hi, heq⟩
    rw [heq, pathExists, h.files t ht i _ (List.getElem?_eq_getElem hi)]
    rfl

theorem ThreadsWrote.holdsArchives {ts : List ℕ} (h : ThreadsWrote env base jobs ts archives fs fs')
    (hten : ∀ t ∈ ts, t < 10) (hfresh : Fresh fs base) :
    HoldsArchives fs' base (archiveCounts ts archives) where
  noSingle := by
    rw [← Bool.not_eq_true]
    have hiff := h.pathExists_iff hfresh []
    rw [List.append_nil] at hiff
    rw [hiff]
    rintro ⟨t, -, i, -, heq⟩
    exact archiveName_ne_base base t i heq.symm
  exists_iff t ht i hi := by
    rw [archiveName, h.pathExists_iff hfresh]
    constructor
    · rintro ⟨u, hu, j, hj, heq⟩
      have hj' : j < 100 := lt_of_lt_of_le hj (h.length_le hu).2
      obtain ⟨rfl, rfl⟩ := (archiveName_inj base ht hi (hten u hu) hj').mp heq
      rwa [archiveCounts, if_pos hu]
    · intro hlt
      have hmem : t ∈ ts := by
        by_contra hno
        rw [archiveCounts, if_neg hno] at hlt
        exact Nat.not_lt_zero _ hlt
      rw [archiveCounts, if_pos hmem] at hlt
      exact ⟨t, hmem, i, hlt, rfl⟩
  twoDigits t := by
    rw [archiveCounts]
    split_ifs with ht
    · exact (h.length_le ht).2
    · exact Nat.zero_le _

end writer

/-- Layouts use the ids from 0 without a gap, and no more than nine. -/
theorem SplitLayout.threadIds_eq (layout : SplitLayout) :
    ∃ m, 0 < m ∧ m ≤ 9 ∧ layout.threadIds = List.range m := by
  cases layout with
  | encrypted coreCount =>
    have := coreCount.2
    exact ⟨coreCount, this.1, by omega, List.range_eq_range'.symm⟩
  | userdataEncrypted coreCount =>
    have := coreCount.2
    refine ⟨coreCount + 1, by omega, by omega, ?_⟩
    rw [List.range_eq_range', List.range'_succ]
    rfl
  | plain => exact ⟨1, by decide, by decide, rfl⟩

theorem takeWhile_range {n m : ℕ} {p : ℕ → Bool} (hm : m ≤ n) (hp : ∀ t, p t = true ↔ t < m) :
    (List.range n).takeWhile p = List.range m := by
  obtain ⟨k, rfl⟩ := Nat.exists_eq_add_of_le hm
  rw [List.range_add, List.takeWhile_append_of_pos fun t ht => (hp t).mpr (List.mem_range.mp ht)]
  cases k with
  | zero => simp
  | succ k =>
    rw [List.range_succ_eq_map, List.map_cons, List.takeWhile_cons_of_neg, List.append_nil]
    rw [hp]
    omega

theorem threadArchives_nodup {count : ℕ → ℕ} (hcount : ∀ t, count t ≤ 100) (m : ℕ) (hm : m ≤ 9) :
    ((List.range m).map (threadArchives base count)).flatten.Nodup := by
  rw [List.nodup_flatten]
  constructor
  · intro l hl
    obtain ⟨t, -, rfl⟩ := List.mem_map.mp hl
    exact List.nodup_range.map fun i j h => (archiveName_index_inj base t).mp h
  · rw [List.pairwise_map]
    refine List.pairwise_lt_range.imp_of_mem fun {t u} ht hu htu => ?_
    rw [List.mem_range] at ht hu
    intro p hp hq
    obtain ⟨i, hi, rfl⟩ := List.mem_map.mp hp
    obtain ⟨j, hj, heq⟩ := List.mem_map.mp hq
    have hi' := lt_of_lt_of_le (List.mem_range.mp hi) (hcount t)
    have hj' := lt_of_lt_of_le (List.mem_range.mp hj) (hcount u)
    rw [archiveName_inj base (by omega) hj' (by omega) hi'] at heq
    exact htu.ne heq.1.symm

/-- Each call of `tarList` that succeeds divides its thread's entries into numbered archives, and
one that runs out of numbers has written archives 0 to 99, with no room in the last one for the next
file; that is how a call ends, if its calls succeed, where the loop would go on to an archive 100.
After the threads of a backup have succeeded in a folder without the base name, the reader opens
their archives, each once, and nothing else with that name is there. -/
theorem splitArchives_agree :
    (∀ (tar : TwrpTar) (tarItems : List TarListStruct) (fs : FileSystem (List Text)),
      tar.splitArchives = true →
      (∀ fs', tarList env tar tarItems fs = .ok fs' →
        ∃ archives, SplitInto env tar tarItems archives fs fs') ∧
      (∀ fs', tarList env tar tarItems fs = .error (-4, fs') →
        ∃ before item after archives last size, tarItems = before ++ item :: after ∧
          item.threadId = tar.threadId ∧ archives.length = 99 ∧
          SplitInto env tar before (archives ++ [last]) fs fs' ∧
          env.lstat item.fn = .regular size ∧
          maxArchiveSize < (regularSizes env last).sum + size) ∧
      (CallsSucceed env tar fs → ∃ fs', tarList env tar tarItems fs =
        if splitCount env (threadEntries tar.threadId tarItems) 0 ≤ 99 then .ok fs'
        else .error (-4, fs'))) ∧
    (∀ (layout : SplitLayout) (order : List ℕ) (fileType : Text → ArchiveType)
      (extract : Text → Bool) (fs fs' : FileSystem (List Text)),
      order.Perm layout.threadIds → Fresh fs base → createLists env base jobs order fs = .ok fs' →
      (∀ p, pathExists fs' p = true → extract p = true) →
      ∃ archives : ℕ → List (List Text),
        (∀ t ∈ layout.threadIds, ∃ before after,
          SplitInto env (threadTar base jobs t) (jobs t).itemList (archives t) before after) ∧
        let opened := layout.threadIds.map fun t =>
          (List.range (archives t).length).map (archiveName base t)
        extractTarFork fileType extract fs' base = (opened, true) ∧ opened.flatten.Nodup ∧
          ∀ suffix, pathExists fs' (base ++ suffix) = true ↔ base ++ suffix ∈ opened.flatten) := by
  refine ⟨fun tar tarItems fs hsplit => ⟨fun _ => tarList_ok hsplit,
    fun _ => tarList_tooMany hsplit, fun hcalls => tarList_calls hcalls hsplit tarItems⟩, ?_⟩
  intro layout order fileType extract fs fs' hperm hfresh hrun hok
  obtain ⟨m, hpos, hle, hids⟩ := layout.threadIds_eq
  rw [hids] at hperm ⊢
  have hmem : ∀ t, t ∈ order ↔ t < m := fun t => hperm.mem_iff.trans List.mem_range
  have hten : ∀ t ∈ order, t < 10 := fun t ht => by
    have := (hmem t).mp ht
    omega
  obtain ⟨archives, hw⟩ := createLists_wrote (hperm.nodup_iff.mpr List.nodup_range) hten hrun
  have hholds := hw.holdsArchives hten hfresh
  have hcount : ∀ t, t < m → archiveCounts order archives t = (archives t).length := fun t ht =>
    if_pos ((hmem t).mpr ht)
  have hstarted : ∀ t, decide (0 < archiveCounts order archives t) = true ↔ t < m := by
    intro t
    rw [decide_eq_true_iff, ← hmem t]
    constructor
    · intro h
      by_contra hno
      rw [archiveCounts, if_neg hno] at h
      exact Nat.not_lt_zero _ h
    · intro h
      rw [archiveCounts, if_pos h]
      exact (hw.length_le h).1
  have hopened : (List.range m).map (threadArchives base (archiveCounts order archives)) =
      (List.range m).map fun t => (List.range (archives t).length).map (archiveName base t) := by
    refine List.map_congr_left fun t ht => ?_
    rw [threadArchives, hcount t (List.mem_range.mp ht)]
  refine ⟨archives, fun t ht => hw.split t ((hmem t).mpr (List.mem_range.mp ht)), ?_⟩
  rw [← hopened]
  refine ⟨?_, threadArchives_nodup base hholds.twoDigits m hle, fun suffix => ?_⟩
  · rw [extractTarFork_eq fileType hholds hok (by simpa using (hstarted 0).mpr hpos),
      takeWhile_range hle hstarted]
  · rw [hw.pathExists_iff hfresh, hopened]
    simp only [hmem, List.mem_flatten, List.mem_map, List.mem_range]
    constructor
    · rintro ⟨t, ht, i, hi, heq⟩
      exact ⟨_, ⟨t, ht, rfl⟩, by simpa using ⟨i, hi, heq.symm⟩⟩
    · rintro ⟨_, ⟨t, ht, rfl⟩, hin⟩
      obtain ⟨i, hi, heq⟩ := List.mem_map.mp hin
      exact ⟨t, ht, i, List.mem_range.mp hi, heq.symm⟩

/-- Directories only, in two threads. -/
def smallEnv : TarEnv where
  lstat _ := .other
  openTar _ := true
  addFile _ _ := true
  closeTar _ := true

def smallJobs (threadId : ℕ) : ThreadJob :=
  ⟨[⟨"/data/app".toList, 0⟩, ⟨"/data/misc".toList, 1⟩], threadId = 1⟩

theorem splitArchives_agree_small : ∃ fs' opened,
    createLists smallEnv "/b/data".toList smallJobs [1, 0] (fun _ => none) = .ok fs' ∧
      extractTarFork (fun _ => .encrypted) (fun _ => true) fs' "/b/data".toList = (opened, true) ∧
      opened.length = 2 ∧ opened.flatten.Nodup := by
  obtain ⟨archives, -, hopen, hnodup, -⟩ :=
    (splitArchives_agree smallEnv "/b/data".toList smallJobs).2
      (.userdataEncrypted ⟨1, by decide, by decide⟩) [1, 0] (fun _ => .encrypted) (fun _ => true)
      (fun _ => none) _ (List.Perm.swap 0 1 []) (fun _ => rfl) rfl (fun _ _ => rfl)
  exact ⟨_, _, rfl, hopen, rfl, hnodup⟩

def tarFiles : TarResult (FileSystem (List Text)) → FileSystem (List Text)
  | .ok fs => fs
  | .error (_, fs) => fs

theorem bigSize_lt : 1610612737 < 2 ^ 63 := by decide

/-- Every file is one byte larger than an archive may be. -/
def bigEnv : TarEnv where
  lstat _ := .regular ⟨1610612737, bigSize_lt⟩
  openTar _ := true
  addFile _ _ := true
  closeTar _ := true

def bigTar : TwrpTar := ⟨"/b/data.ext4.win".toList, 0, true, false⟩

def bigItems (n : ℕ) : List TarListStruct :=
  (List.range n).map fun i => ⟨"/data/f".toList ++ decimal i, 0⟩

theorem threadEntries_bigItems (n : ℕ) : (threadEntries 0 (bigItems n)).length = n := by
  rw [threadEntries, List.length_map, List.filter_eq_self.mpr, bigItems, List.length_map,
    List.length_range]
  intro item hitem
  obtain ⟨i, -, rfl⟩ := List.mem_map.mp hitem
  exact decide_eq_true rfl

theorem length_le_one_of_fits {entries : List Text} (h : Fits bigEnv entries) :
    entries.length ≤ 1 := by
  have hsizes : regularSizes bigEnv entries = List.replicate entries.length 1610612737 := by
    rw [← List.map_const', regularSizes, ← List.filterMap_eq_map]
    rfl
  rw [Fits, hsizes] at h
  rcases h with h | ⟨size, h, -⟩
  · rw [List.sum_replicate_nat, maxArchiveSize] at h
    omega
  · have hlen := congrArg List.length h
    rw [List.length_replicate, List.length_singleton] at hlen
    exact hlen.le

theorem length_flatten_le_of_fits {archives : List (List Text)}
    (h : ∀ entries ∈ archives, Fits bigEnv entries) :
    archives.flatten.length ≤ archives.length := by
  induction archives with
  | nil => exact Nat.le_refl 0
  | cons entries archives ih =>
    have hone := length_le_one_of_fits (h entries List.mem_cons_self)
    have hrest := ih fun e he => h e (List.mem_cons_of_mem _ he)
    rw [List.flatten_cons, List.length_append, List.length_cons]
    omega

/-- A thread with 101 files that each need an archive of their own: the archives there are
numbers for do not hold them. -/
theorem not_splitInto_bigItems : ¬∃ archives, SplitInto bigEnv bigTar (bigItems 101) archives
    (fun _ => none) (tarFiles (tarList bigEnv bigTar (bigItems 101) fun _ => none)) := by
  rintro ⟨archives, hs⟩
  have hle := length_flatten_le_of_fits hs.fits
  have hentries : (threadEntries bigTar.threadId (bigItems 101)).length = 101 :=
    threadEntries_bigItems 101
  rw [hs.entries, hentries] at hle
  have := hs.twoDigits
  omega

end BootableRecovery.Twrp
