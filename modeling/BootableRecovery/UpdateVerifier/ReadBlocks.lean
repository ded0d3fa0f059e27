import BootableRecovery.Lib.BlockBytes
import BootableRecovery.Otautil.RangeFormat
import BootableRecovery.Otautil.RangeSplit

namespace BootableRecovery.UpdateVerifier
open Lib Otautil

/-! `ReadBlocks`: the groups of a partition's ranges are read by a thread each. -/

/-- `kBlockSize` of the threads. -/
def kBlockSize : ℕ := 4096

/-- What the block device answers to the thread of a group: to `open`, to `lseek64` to an offset,
and to reading a number of bytes at an offset. -/
structure BlockDevice where
  opens : ℕ → Bool
  seeks : ℕ → ℕ → Bool
  reads : ℕ → ℕ → ℕ → Bool

/-- The offset and the length of a read. -/
abbrev Extent := ℕ × ℕ

section thread
variable (device : BlockDevice) (thread : ℕ)

/-- The loop over what remains of a range: the reads that were done, and whether all were. -/
def readRemain (pos remain : ℕ) : List Extent × Bool :=
  if _h : remain = 0 then ([], true)
  else
    let toRead := min remain (1024 * kBlockSize)
    if device.reads thread pos toRead then
      let rest := readRemain (pos + toRead) (remain - toRead)
      ((pos, toRead) :: rest.1, rest.2)
    else ([], false)
termination_by remain
decreasing_by
  unfold kBlockSize
  omega

def readRanges : List Range → List Extent × Bool
  | [] => ([], true)
  | r :: rs =>
    let pos := u64 (r.1 * kBlockSize)
    if device.seeks thread pos then
      let first := readRemain device thread pos (u64 ((r.2 - r.1) * kBlockSize))
      if first.2 then
        let rest := readRanges rs
        (first.1 ++ rest.1, rest.2)
      else (first.1, false)
    else ([], false)

/-- `thread_func` -/
def threadFunc (group : RangeSet) : List Extent × Bool :=
  if device.opens thread then readRanges device thread group.ranges else ([], false)

end thread

/-- The threads' reads, and what `ReadBlocks` returns; nothing if `Split` has no outcome. -/
def readBlocks (hardwareConcurrency : ℕ) (device : BlockDevice) (ranges : RangeSet) :
    Option (List (List Extent) × Bool) :=
  let threadNum := if hardwareConcurrency = 0 then 4 else hardwareConcurrency
  (ranges.split threadNum).map fun groups =>
    let results := groups.zipIdx.map fun group => threadFunc device group.2 group.1
    (results.map Prod.fst, results.all Prod.snd)

/-- The offsets of the bytes that were read. -/
def bytesRead (reads : List Extent) : List ℕ := reads.flatMap fun r => List.range' r.1 r.2

/-- A device on which nothing fails. -/
def BlockDevice.Answers (device : BlockDevice) : Prop :=
  ∀ thread, device.opens thread ∧ ∀ pos, device.seeks thread pos ∧
    ∀ n, device.reads thread pos n

@[simp] theorem bytesRead_cons (r : Extent) (reads : List Extent) :
    bytesRead (r :: reads) = List.range' r.1 r.2 ++ bytesRead reads := by
  simp [bytesRead]

@[simp] theorem bytesRead_append (reads more : List Extent) :
    bytesRead (reads ++ more) = bytesRead reads ++ bytesRead more := by
  simp [bytesRead]

/-- How far a thread gets with the bytes that it is to read. -/
def Covers (outcome : List Extent × Bool) (bytes : List ℕ) : Prop :=
  bytesRead outcome.1 <+: bytes ∧ (outcome.2 = true → bytesRead outcome.1 = bytes)

section covers
variable (device : BlockDevice) (thread : ℕ)

theorem covers_readRemain (pos remain : ℕ) :
    Covers (readRemain device thread pos remain) (List.range' pos remain) := by
  induction pos, remain using readRemain.induct device thread with
  | case1 pos =>
    rw [readRemain, dif_pos rfl]
    exact ⟨List.nil_prefix, fun _ => rfl⟩
  | case2 pos remain hpos toRead hread ih =>
    have hsplit : List.range' pos remain =
        List.range' pos toRead ++ List.range' (pos + toRead) (remain - toRead) := by
      rw [List.range'_append_1, Nat.add_sub_cancel' (Nat.min_le_left _ _)]
    rw [readRemain, dif_neg hpos]
    simp only
    rw [if_pos hread, hsplit]
    refine ⟨?_, fun hok => ?_⟩
    · rw [bytesRead_cons]
      exact List.prefix_append_right_inj _ |>.mpr ih.1
    · rw [bytesRead_cons, ih.2 hok]
  | case3 pos remain hpos toRead hread =>
    rw [readRemain, dif_neg hpos]
    simp only
    rw [if_neg hread]
    exact ⟨List.nil_prefix, fun h => nomatch h⟩

/-- The ends of a care map's ranges are far below what would overflow a file offset. -/
theorem covers_readRanges {rs : List Range} (hends : ∀ r ∈ rs, r.2 ≤ intMax)
    (hproper : ∀ r ∈ rs, r.1 < r.2) :
    Covers (readRanges device thread rs) (blockBytes kBlockSize (expandRanges rs)) := by
  induction rs with
  | nil => exact ⟨List.nil_prefix, fun _ => rfl⟩
  | cons r rs ih =>
    have hr := hproper r List.mem_cons_self
    have hend : r.2 ≤ 2 ^ 31 - 1 := hends r List.mem_cons_self
    have hpos : u64 (r.1 * kBlockSize) = r.1 * kBlockSize := by
      apply u64_of_lt
      unfold kBlockSize
      omega
    have hsize : u64 ((r.2 - r.1) * kBlockSize) = (r.2 - r.1) * kBlockSize := by
      apply u64_of_lt
      unfold kBlockSize
      omega
    have hfirst := covers_readRemain device thread (r.1 * kBlockSize)
      ((r.2 - r.1) * kBlockSize)
    have hrest := ih (fun q hq => hends q (List.mem_cons_of_mem r hq))
      fun q hq => hproper q (List.mem_cons_of_mem r hq)
    rw [← blockBytes_range] at hfirst
    simp only [readRanges, hpos, hsize, expandRanges_cons, blockBytes_append]
    split_ifs with hseek hdone
    · refine ⟨?_, fun hok => ?_⟩
      · rw [bytesRead_append, hfirst.2 hdone]
        exact (List.prefix_append_right_inj _).mpr hrest.1
      · rw [bytesRead_append, hfirst.2 hdone, hrest.2 hok]
    · exact ⟨hfirst.1.trans (List.prefix_append _ _), fun h => nomatch h⟩
    · exact ⟨List.nil_prefix, fun h => nomatch h⟩

theorem covers_threadFunc {group : RangeSet} (hends : ∀ r ∈ group.ranges, r.2 ≤ intMax) :
    Covers (threadFunc device thread group) (blockBytes kBlockSize group.expand) := by
  rw [threadFunc]
  split_ifs
  · exact covers_readRanges device thread hends group.proper
  · exact ⟨List.nil_prefix, fun h => nomatch h⟩

variable {device}

theorem Answers.readRemain (h : device.Answers) (pos remain : ℕ) :
    (readRemain device thread pos remain).2 = true := by
  induction pos, remain using readRemain.induct device thread with
  | case1 pos =>
    rw [UpdateVerifier.readRemain, dif_pos rfl]
  | case2 pos remain hpos toRead hread ih =>
    rw [UpdateVerifier.readRemain, dif_neg hpos]
    simp only
    rw [if_pos hread]
    exact ih
  | case3 pos remain hpos toRead hread => exact absurd (((h thread).2 pos).2 _) hread

theorem Answers.readRanges (h : device.Answers) (rs : List Range) :
    (readRanges device thread rs).2 = true := by
  induction rs with
  | nil => rfl
  | cons r rs ih =>
    simp only [UpdateVerifier.readRanges, ((h thread).2 _).1, Answers.readRemain thread h, ih,
      if_true]

theorem Answers.threadFunc (h : device.Answers) (group : RangeSet) :
    (threadFunc device thread group).2 = true := by
  rw [UpdateVerifier.threadFunc, if_pos (h thread).1]
  exact Answers.readRanges thread h _

end covers

/-- The threads together: nothing is read beyond the groups, and all of them if no thread fails. -/
theorem threads_cover (device : BlockDevice) (first : ℕ) {groups : List RangeSet}
    (hends : ∀ group ∈ groups, ∀ r ∈ group.ranges, r.2 ≤ intMax) :
    let results := (groups.zipIdx first).map fun group => threadFunc device group.2 group.1
    ((results.map Prod.fst).flatMap bytesRead).Sublist
        (blockBytes kBlockSize (groups.flatMap RangeSet.expand)) ∧
      (results.all Prod.snd = true →
        (results.map Prod.fst).flatMap bytesRead =
          blockBytes kBlockSize (groups.flatMap RangeSet.expand)) := by
  induction groups generalizing first with
  | nil => exact ⟨List.nil_sublist _, fun _ => rfl⟩
  | cons group groups ih =>
    obtain ⟨hsub, hall⟩ := ih (first + 1) fun g hg => hends g (List.mem_cons_of_mem group hg)
    obtain ⟨hhead, hwhole⟩ := covers_threadFunc device first (hends group List.mem_cons_self)
    simp only [List.zipIdx_cons, List.map_cons, List.flatMap_cons, List.all_cons,
      blockBytes_append, Bool.and_eq_true]
    exact ⟨hhead.sublist.append hsub, fun hok => by rw [hwhole hok.1, hall hok.2]⟩

/-- The groups of a set end where the set's ranges end. -/
theorem group_ends {s : RangeSet} {sets : List RangeSet}
    (hexpand : sets.flatMap RangeSet.expand = s.expand) {bound : ℕ}
    (hends : ∀ r ∈ s.ranges, r.2 ≤ bound) :
    ∀ group ∈ sets, ∀ r ∈ group.ranges, r.2 ≤ bound := by
  intro group hgroup r hr
  have hlt := group.proper r hr
  have hlast : r.2 - 1 ∈ s.expand := by
    rw [← hexpand]
    exact List.mem_flatMap.mpr ⟨group, hgroup,
      RangeSet.mem_expandRanges.mpr ⟨r, hr, by omega, by omega⟩⟩
  obtain ⟨q, hq, -, hend⟩ := RangeSet.mem_expandRanges.mp hlast
  have hbound := hends q hq
  omega

/-- `Split` gives even groups that are the set again; and however many threads there are, a care
map's blocks are read as often as they are listed, unless a read fails. -/
theorem split_readBlocks (s : RangeSet) (hs : s.ranges ≠ []) :
    (∀ groups, 1 ≤ groups → ∃ sets, s.split groups = some sets ∧ s.SplitsEvenly groups sets) ∧
    ∀ (parseUint : Text → ℕ → Option ℕ) (text : Text),
      (∀ word maximum n, parseUint word maximum = some n → n ≤ maximum) →
      RangeSet.parse parseUint text = some s →
      ∀ (hardwareConcurrency : ℕ) (device : BlockDevice), ∃ reads ok,
        readBlocks hardwareConcurrency device s = some (reads, ok) ∧
        (device.Answers → ok = true) ∧
        ∀ b i, i < kBlockSize →
          (reads.flatMap bytesRead).count (b * kBlockSize + i) ≤ s.expand.count b ∧
          (ok = true →
            (reads.flatMap bytesRead).count (b * kBlockSize + i) = s.expand.count b) := by
  refine ⟨fun groups hgroups => s.split_spec hs hgroups, ?_⟩
  intro parseUint text hmax hparse hardwareConcurrency device
  obtain ⟨sets, hsets, heven⟩ := s.split_spec hs
    (by split_ifs <;> omega : 1 ≤ if hardwareConcurrency = 0 then 4 else hardwareConcurrency)
  obtain ⟨hsub, hall⟩ := threads_cover device 0 (group_ends heven.expand
    (RangeSet.spells_ends (RangeSet.parse_eq_some.mp hparse) hmax))
  rw [heven.expand] at hsub hall
  refine ⟨_, _, by rw [readBlocks, hsets]; rfl, fun hanswers => ?_, fun b i hi =>
    ⟨?_, fun hok => ?_⟩⟩
  · rw [List.all_map, List.all_eq_true]
    exact fun group _ => Answers.threadFunc group.2 hanswers group.1
  · rw [← count_blockBytes s.expand b hi]
    exact hsub.count_le _
  · rw [hall hok, count_blockBytes s.expand b hi]

/-- Two groups of `4,0,3,5,9`, of which the first has blocks of both ranges; and two threads. -/
theorem split_readBlocks_crossing :
    ∃ s : RangeSet, s.ranges = [(0, 3), (5, 9)] ∧
      (∃ sets, s.split 2 = some sets ∧ sets.map RangeSet.ranges = [[(0, 3), (5, 6)], [(6, 9)]] ∧
        s.SplitsEvenly 2 sets) ∧
      ∀ device, ∃ reads ok, readBlocks 2 device s = some (reads, ok) ∧
        (device.Answers → ok = true) ∧
        ∀ b i, i < kBlockSize →
          (reads.flatMap bytesRead).count (b * kBlockSize + i) ≤ s.expand.count b ∧
          (ok = true →
            (reads.flatMap bytesRead).count (b * kBlockSize + i) = s.expand.count b) := by
  have hparse : (RangeSet.parse RangeSet.decimalOrHex "4,0,3,5,9".toList).map (fun s =>
      (s.ranges, (s.split 2).map fun sets => sets.map RangeSet.ranges)) =
        some ([(0, 3), (5, 9)], some [[(0, 3), (5, 6)], [(6, 9)]]) := by decide +kernel
  obtain ⟨s, hs, hpair⟩ := Option.map_eq_some_iff.mp hparse
  obtain ⟨hranges, hsplit⟩ := Prod.mk.inj hpair
  have hne : s.ranges ≠ [] := by simp [hranges]
  obtain ⟨hgroups, hreads⟩ := split_readBlocks s hne
  obtain ⟨sets, hsets, heven⟩ := hgroups 2 (by decide)
  rw [hsets, Option.map_some, Option.some.injEq] at hsplit
  exact ⟨s, hranges, ⟨sets, hsets, hsplit, heven⟩, hreads _ _ RangeSet.decimalOrHex_le hs 2⟩

end BootableRecovery.UpdateVerifier
