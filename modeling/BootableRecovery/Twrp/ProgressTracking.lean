import BootableRecovery.Lib.Word
import Mathlib.Data.List.Basic

namespace BootableRecovery.Twrp
open Lib

/-! `ProgressTracking`: the bytes that are shown while one partition after another is worked on. -/

/-- What `UpdateDisplayDetails` was called with and what it has to show. A call that is not forced
is dropped when it comes too early. -/
structure Display where
  force : Bool
  bytes : ℕ
  total : ℕ
  files : Option (ℕ × ℕ)
  deriving DecidableEq, Repr

structure ProgressTracking where
  totalBackupSize : ℕ
  partitionSize : ℕ := 0
  fileCount : ℕ := 0
  currentSize : ℕ := 0
  currentCount : ℕ := 0
  previousPartitionsSize : ℕ := 0
  displayFileCount : Bool := false
  displays : List Display := []

namespace ProgressTracking
variable (s : ProgressTracking)

def updateDisplayDetails (force : Bool) : ProgressTracking :=
  { s with
    displays := s.displays ++
      [{ force
         bytes := u64 (s.currentSize + s.previousPartitionsSize)
         total := s.totalBackupSize
         files := if !s.displayFileCount || s.fileCount = 0 then none
           else some (s.currentCount, s.fileCount) }] }

def setPartitionSize (partSize : ℕ) : ProgressTracking :=
  { s with
    previousPartitionsSize := u64 (s.previousPartitionsSize + s.partitionSize)
    partitionSize := partSize }.updateDisplayDetails true

def setSizeCount (partSize fCount : ℕ) : ProgressTracking :=
  { s with
    previousPartitionsSize := u64 (s.previousPartitionsSize + s.partitionSize)
    partitionSize := partSize
    fileCount := fCount
    displayFileCount := fCount ≠ 0 }.updateDisplayDetails true

/-- The calls that may come while a partition is worked on. -/
inductive Update
  | updateSize (size : ℕ)
  | updateSizeCount (size count : ℕ)
  | displayFileCount (display : Bool)
  | updateDisplayDetails (force : Bool)
  deriving DecidableEq, Repr

def update : Update → ProgressTracking
  | .updateSize size => { s with currentSize := size }.updateDisplayDetails false
  | .updateSizeCount size count =>
    { s with currentSize := size, currentCount := count }.updateDisplayDetails false
  | .displayFileCount display => { s with displayFileCount := display }.updateDisplayDetails true
  | .updateDisplayDetails force => s.updateDisplayDetails force

def Update.size : Update → Option ℕ
  | .updateSize size => some size
  | .updateSizeCount size _ => some size
  | _ => none

/-- The size in the last update that has one. -/
def lastSize : ℕ → List Update → ℕ
  | current, [] => current
  | current, u :: us => lastSize (u.size.getD current) us

/-- The work on a partition: `SetSizeCount` when there is a count of files and `SetPartitionSize`
when there is none, and then updates that end at the size. -/
structure Partition where
  partSize : ℕ
  fCount : Option ℕ
  updates : List Update
  sorted : (updates.filterMap Update.size).Pairwise (· ≤ ·)
  ends : lastSize 0 updates = partSize

def partition (p : Partition) : ProgressTracking :=
  p.updates.foldl update <|
    match p.fCount with
    | none => s.setPartitionSize p.partSize
    | some fCount => s.setSizeCount p.partSize fCount

def totalSize (partitions : List Partition) : ℕ := (partitions.map Partition.partSize).sum

/-- The displays while these partitions are worked on, with an object built with the sum of their
sizes. -/
def displaysOf (partitions : List Partition) : List Display :=
  (partitions.foldl partition { totalBackupSize := totalSize partitions }).displays

/-! ### What is to be shown -/

/-- The bytes of the current partition at each update, when there are `current` before. -/
def progressOf : ℕ → List Update → List ℕ
  | _, [] => []
  | current, u :: us => u.size.getD current :: progressOf (u.size.getD current) us

/-- The bytes of the finished partitions and of the current one, at each display. -/
def expected : ℕ → List Partition → List ℕ
  | _, [] => []
  | finished, p :: ps =>
    (0 :: progressOf 0 p.updates).map (finished + ·) ++ expected (finished + p.partSize) ps

structure ShowsProgress (partitions : List Partition) : Prop where
  bytes : (displaysOf partitions).map Display.bytes = expected 0 partitions
  monotone : ((displaysOf partitions).map Display.bytes).Pairwise (· ≤ ·)
  bounded : ∀ d ∈ displaysOf partitions, d.bytes ≤ totalSize partitions
  last : ∀ d ∈ (displaysOf partitions).getLast?, d.bytes = totalSize partitions

/-! ### What is shown -/

/-- Between the setter and the first update, the bytes of the partition before are taken for those
of the current one. -/
def shown : ℕ → ℕ → List Partition → List ℕ
  | _, _, [] => []
  | finished, stale, p :: ps =>
    (stale :: progressOf stale p.updates).map (fun c => u64 (c + finished)) ++
      shown (finished + p.partSize) (lastSize stale p.updates) ps

section calls
variable {s}

theorem update_displays (u : Update) : (s.update u).displays.map Display.bytes =
    s.displays.map Display.bytes ++
      [u64 (u.size.getD s.currentSize + s.previousPartitionsSize)] := by
  cases u <;> simp [update, updateDisplayDetails, Update.size]

@[simp] theorem update_currentSize (u : Update) :
    (s.update u).currentSize = u.size.getD s.currentSize := by
  cases u <;> rfl

@[simp] theorem update_previousPartitionsSize (u : Update) :
    (s.update u).previousPartitionsSize = s.previousPartitionsSize := by
  cases u <;> rfl

@[simp] theorem update_partitionSize (u : Update) :
    (s.update u).partitionSize = s.partitionSize := by
  cases u <;> rfl

theorem updates_displays (us : List Update) : (us.foldl update s).displays.map Display.bytes =
    s.displays.map Display.bytes ++
      (progressOf s.currentSize us).map (fun c => u64 (c + s.previousPartitionsSize)) := by
  induction us generalizing s with
  | nil => simp [progressOf]
  | cons u us ih => simp [progressOf, ih, update_displays]

theorem updates_fields (us : List Update) :
    (us.foldl update s).currentSize = lastSize s.currentSize us ∧
      (us.foldl update s).previousPartitionsSize = s.previousPartitionsSize ∧
      (us.foldl update s).partitionSize = s.partitionSize := by
  induction us generalizing s with
  | nil => simp [lastSize]
  | cons u us ih => simp [lastSize, ih]

/-- Both setters leave the bytes of the partition before. -/
theorem partition_spec {finished : ℕ} (p : Partition)
    (h : s.previousPartitionsSize + s.partitionSize = finished) (hlt : finished < 2 ^ 64) :
    (s.partition p).displays.map Display.bytes = s.displays.map Display.bytes ++
        (s.currentSize :: progressOf s.currentSize p.updates).map (fun c => u64 (c + finished)) ∧
      (s.partition p).currentSize = lastSize s.currentSize p.updates ∧
      (s.partition p).previousPartitionsSize + (s.partition p).partitionSize =
        finished + p.partSize := by
  rw [partition]
  cases p.fCount <;>
    simp [updates_displays, updates_fields, setPartitionSize, setSizeCount, updateDisplayDetails, h,
      u64_of_lt hlt]

theorem partitions_displays {finished : ℕ} (ps : List Partition)
    (h : s.previousPartitionsSize + s.partitionSize = finished)
    (hlt : finished + totalSize ps < 2 ^ 64) :
    (ps.foldl partition s).displays.map Display.bytes =
      s.displays.map Display.bytes ++ shown finished s.currentSize ps := by
  induction ps generalizing s finished with
  | nil => simp [shown]
  | cons p ps ih =>
    simp only [totalSize, List.map_cons, List.sum_cons] at hlt
    obtain ⟨hdisplays, hcurrent, hsum⟩ := partition_spec p h (by omega)
    rw [List.foldl_cons, ih hsum (by simp only [totalSize]; omega), hdisplays, hcurrent, shown,
      List.append_assoc]

end calls

theorem displaysOf_bytes {partitions : List Partition} (h : totalSize partitions < 2 ^ 64) :
    (displaysOf partitions).map Display.bytes = shown 0 0 partitions := by
  rw [displaysOf, partitions_displays partitions rfl (by simpa using h)]
  rfl

/-! ### The display against the progress -/

theorem progressOf_sorted {us : List Update} {current : ℕ}
    (hsorted : (us.filterMap Update.size).Pairwise (· ≤ ·))
    (hcurrent : ∀ size ∈ us.filterMap Update.size, current ≤ size) :
    (current :: progressOf current us).Pairwise (· ≤ ·) ∧
      ∀ c ∈ current :: progressOf current us, c ≤ lastSize current us := by
  induction us generalizing current with
  | nil => simp [progressOf, lastSize]
  | cons u us ih =>
    have hnext : current ≤ u.size.getD current := by
      cases hu : u.size with
      | none => simp
      | some size => simpa [hu] using hcurrent size
    have hrest : (u.size.getD current :: progressOf (u.size.getD current) us).Pairwise (· ≤ ·) ∧
        ∀ c ∈ u.size.getD current :: progressOf (u.size.getD current) us,
          c ≤ lastSize (u.size.getD current) us := by
      cases hu : u.size with
      | none =>
        rw [List.filterMap_cons_none hu] at hsorted hcurrent
        exact ih hsorted hcurrent
      | some size =>
        rw [List.filterMap_cons_some hu, List.pairwise_cons] at hsorted
        exact ih hsorted.2 hsorted.1
    rw [progressOf, lastSize]
    constructor
    · refine List.pairwise_cons.mpr ⟨?_, hrest.1⟩
      intro c hc
      obtain rfl | hc := List.mem_cons.mp hc
      · exact hnext
      · exact hnext.trans ((List.pairwise_cons.mp hrest.1).1 c hc)
    · intro c hc
      obtain rfl | hc := List.mem_cons.mp hc
      · exact hnext.trans (hrest.2 _ (by simp))
      · exact hrest.2 c hc

variable {finished : ℕ} {p : Partition} {ps : List Partition}

theorem Partition.progressOf_sorted (p : Partition) :
    (0 :: progressOf 0 p.updates).Pairwise (· ≤ ·) ∧
      ∀ c ∈ 0 :: progressOf 0 p.updates, c ≤ p.partSize := by
  have hprogress := @ProgressTracking.progressOf_sorted p.updates 0 p.sorted (by simp)
  rwa [p.ends] at hprogress

theorem getLast_progressOf {us : List Update} {current : ℕ} :
    (current :: progressOf current us).getLast? = some (lastSize current us) := by
  induction us generalizing current with
  | nil => rfl
  | cons u us ih => simpa [progressOf, lastSize] using ih

theorem expected_spec : (expected finished ps).Pairwise (· ≤ ·) ∧
    (∀ bytes ∈ expected finished ps, finished ≤ bytes ∧ bytes ≤ finished + totalSize ps) ∧
      ∀ bytes ∈ (expected finished ps).getLast?, bytes = finished + totalSize ps := by
  induction ps generalizing finished with
  | nil => simp [expected]
  | cons p ps ih =>
    obtain ⟨hsorted, hbounds, hlast⟩ := @ih (finished + p.partSize)
    have hp := p.progressOf_sorted
    have hsum : totalSize (p :: ps) = p.partSize + totalSize ps := by simp [totalSize]
    have hfirst : ∀ bytes ∈ (0 :: progressOf 0 p.updates).map (finished + ·),
        finished ≤ bytes ∧ bytes ≤ finished + p.partSize := by
      intro bytes hbytes
      obtain ⟨c, hc, rfl⟩ := List.mem_map.mp hbytes
      have hle := hp.2 c hc
      omega
    rw [expected, hsum]
    refine ⟨List.pairwise_append.mpr ⟨?_, hsorted, ?_⟩, ?_, ?_⟩
    · exact List.pairwise_map.mpr (hp.1.imp fun h => Nat.add_le_add_left h finished)
    · intro a ha b hb
      exact (hfirst a ha).2.trans (hbounds b hb).1
    · intro bytes hbytes
      obtain hbytes | hbytes := List.mem_append.mp hbytes
      · have hle := hfirst bytes hbytes
        omega
      · have hle := hbounds bytes hbytes
        omega
    · intro bytes hbytes
      cases ps with
      | nil =>
        rw [expected, List.append_nil, List.getLast?_map, getLast_progressOf, p.ends] at hbytes
        simp at hbytes
        simp [totalSize, hbytes]
      | cons q qs =>
        rw [List.getLast?_append_of_ne_nil _ (by simp [expected])] at hbytes
        rw [hlast bytes hbytes, Nat.add_assoc]

/-- The displays of a partition that starts from nothing are right, whatever those after it are. -/
theorem shown_cons_iff (h : finished + totalSize (p :: ps) < 2 ^ 64) :
    shown finished 0 (p :: ps) = expected finished (p :: ps) ↔
      shown (finished + p.partSize) p.partSize ps = expected (finished + p.partSize) ps := by
  have hfirst : (0 :: progressOf 0 p.updates).map (fun c => u64 (c + finished)) =
      (0 :: progressOf 0 p.updates).map (finished + ·) := by
    apply List.map_congr_left
    intro c hc
    have hle := p.progressOf_sorted.2 c hc
    simp only [totalSize, List.map_cons, List.sum_cons] at h
    rw [u64_of_lt (by omega), Nat.add_comm]
  rw [shown, expected, hfirst, p.ends, List.append_cancel_left_eq]

/-- The first display of the next partition still adds the bytes of this one. -/
theorem shown_eq_expected_iff (h : finished + totalSize ps < 2 ^ 64) :
    shown finished 0 ps = expected finished ps ↔ ∀ p ∈ ps.dropLast, p.partSize = 0 := by
  induction ps generalizing finished with
  | nil => simp [shown, expected]
  | cons p ps ih =>
    rw [shown_cons_iff h]
    cases ps with
    | nil => simp [shown, expected]
    | cons q qs =>
      have hsum : totalSize (p :: q :: qs) = p.partSize + totalSize (q :: qs) := by
        simp [totalSize]
      rw [List.dropLast_cons_of_ne_nil (by simp), List.forall_mem_cons]
      constructor
      · intro heq
        have hhead : u64 (p.partSize + (finished + p.partSize)) = finished + p.partSize + 0 :=
          (List.cons.inj heq).1
        have hzero : p.partSize = 0 := by
          unfold u64 at hhead
          omega
        rw [hzero] at heq
        exact ⟨hzero, (ih (by omega)).mp heq⟩
      · intro ⟨hzero, hrest⟩
        rw [hzero]
        exact (ih (by omega)).mpr hrest

/-- The displays follow the work just when every partition but the last is empty. -/
theorem showsProgress_iff {partitions : List Partition} (h : totalSize partitions < 2 ^ 64) :
    ShowsProgress partitions ↔ ∀ p ∈ partitions.dropLast, p.partSize = 0 := by
  rw [← @shown_eq_expected_iff 0 _ (by simpa using h), ← displaysOf_bytes h]
  constructor
  · exact ShowsProgress.bytes
  · intro hbytes
    obtain ⟨hsorted, hbounds, hlast⟩ := @expected_spec 0 partitions
    rw [← hbytes] at hsorted hbounds hlast
    refine ⟨hbytes, hsorted, ?_, ?_⟩
    · intro d hd
      simpa using (hbounds d.bytes (List.mem_map_of_mem hd)).2
    · intro d hd
      have hmem : d.bytes ∈ ((displaysOf partitions).map Display.bytes).getLast? := by
        simpa using ⟨d, hd, rfl⟩
      simpa using hlast d.bytes hmem

/-- A partition that is read in one piece. -/
def whole (size : ℕ) : Partition :=
  ⟨size, none, [.updateSize size], List.pairwise_singleton _ _, rfl⟩

theorem showsProgress_whole : totalSize [whole 0, whole 50] < 2 ^ 64 ∧
    ShowsProgress [whole 0, whole 50] := by
  have h : totalSize [whole 0, whole 50] < 2 ^ 64 := by decide
  exact ⟨h, (showsProgress_iff h).mpr (by decide)⟩

/-- The second of two partitions starts with 200 bytes of 150. -/
theorem not_showsProgress : ¬ShowsProgress [whole 100, whole 50] := by
  intro h
  have hbounded := h.bounded ⟨true, 200, 150, none⟩ (by decide)
  exact absurd hbounded (by decide)

end ProgressTracking
end BootableRecovery.Twrp
