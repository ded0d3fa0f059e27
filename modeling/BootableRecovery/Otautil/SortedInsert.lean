import BootableRecovery.Otautil.RangeFormat
import BootableRecovery.Otautil.SortedRangeSet

namespace BootableRecovery.Otautil
open Lib

/-! `SortedRangeSet` with its fields: `Insert` counts the blocks anew. -/

namespace RangeFields

/-- The constructor of `SortedRangeSet`. -/
def sorted (pairs : List Range) : RangeFields :=
  ⟨sortRanges (ofPairs pairs).ranges, (ofPairs pairs).blocks⟩

/-- `ranges_.push_back` and the count of what was pushed. -/
def append (s : RangeFields) (r : Range) : RangeFields :=
  ⟨s.ranges ++ [r], u64 (s.blocks + (r.2 - r.1))⟩

/-- Trims overlaps: `cur` is `to_insert`. -/
def mergeLoop (s : RangeFields) (cur : Range) : List Range → RangeFields
  | [] => s.append cur
  | r :: rs =>
    if r.1 ≤ cur.2 then mergeLoop s (cur.1, max cur.2 r.2) rs else mergeLoop (s.append cur) r rs

def insert (s t : RangeFields) : RangeFields :=
  if t.ranges.length = 0 then s
  else
    match sortRanges (s.ranges ++ t.ranges) with
    | [] => clear
    | cur :: rest => mergeLoop clear cur rest

/-- The range of the blocks of `len` bytes, in the arithmetic of `size_t`. -/
def pieceRange (start len : ℕ) : Range :=
  (start / blockSize, u64 (start + len + sizeMax) / blockSize + 1)

def insertPiece (s : RangeFields) (start len : ℕ) : RangeFields :=
  s.insert (sorted [pieceRange start len])

def overlaps (s t : RangeFields) : Bool := RangeSet.rangesOverlap s.ranges t.ranges

def overlapsPiece (s : RangeFields) (start len : ℕ) : Bool :=
  s.overlaps (ofPairs [pieceRange start len])

/-- The blocks that the fields stand for. -/
def blockSet (s : RangeFields) : Finset ℕ := (expandRanges s.ranges).toFinset

/-- The fields of the sorted sets that can be made of ranges of `size_t`. -/
inductive SortedBuilt : RangeFields → Prop
  | sorted (pairs : List Range) : (∀ r ∈ pairs, r.2 < 2 ^ 64) → SortedBuilt (sorted pairs)
  | insert {s t : RangeFields} : SortedBuilt s → SortedBuilt t → SortedBuilt (s.insert t)

end RangeFields

/-- In order, with a gap between one range and the next. -/
def Gaps (rs : List Range) : Prop := rs.Pairwise fun r q => r.2 < q.1

/-- The blocks that a piece of a file touches. -/
def touched (start len : ℕ) : Finset ℕ := (Finset.Ico start (start + len)).image (· / blockSize)

theorem mem_touched {start len b : ℕ} (hlen : 1 ≤ len) :
    b ∈ touched start len ↔ start / blockSize ≤ b ∧ b ≤ (start + len - 1) / blockSize := by
  have hsize : blockSize = 4096 := rfl
  simp only [touched, Finset.mem_image, Finset.mem_Ico, hsize]
  constructor
  · rintro ⟨i, hi, rfl⟩
    omega
  · intro hb
    -- the last byte of the block, or of the piece
    exact ⟨min (b * 4096 + 4095) (start + len - 1), by omega, by omega⟩

theorem expandRanges_sortRanges_length (rs : List Range) :
    (expandRanges (sortRanges rs)).length = (expandRanges rs).length := by
  rw [expandRanges_length, expandRanges_length]
  exact ((List.perm_insertionSort rangeLE rs).map _).sum_eq

/-- The blocks of ranges with gaps, all below 2 ^ 64, are counted without an overflow. -/
theorem expandRanges_length_lt {rs : List Range} (hgaps : Gaps rs)
    (hends : ∀ r ∈ rs, r.2 < 2 ^ 64) : (expandRanges rs).length < 2 ^ 64 := by
  rw [← List.toFinset_card_of_nodup (SortedRangeSet.expandRanges_nodup hgaps)]
  have hsub : (expandRanges rs).toFinset ⊆ Finset.range (2 ^ 64 - 1) := by
    intro b hb
    obtain ⟨r, hr, -, hlt⟩ := RangeSet.mem_expandRanges.mp (List.mem_toFinset.mp hb)
    have hend := hends r hr
    rw [Finset.mem_range]
    omega
  have hcard := Finset.card_le_card hsub
  rw [Finset.card_range] at hcard
  omega

theorem mergeRanges_ends {cur : Range} {rs : List Range} {bound : ℕ} (hcur : cur.2 < bound)
    (hrs : ∀ r ∈ rs, r.2 < bound) : ∀ r ∈ mergeRanges cur rs, r.2 < bound := by
  induction rs generalizing cur with
  | nil => simpa [mergeRanges] using hcur
  | cons r rs ih =>
    have hr := hrs r List.mem_cons_self
    have hrest : ∀ q ∈ rs, q.2 < bound := fun q hq => hrs q (List.mem_cons_of_mem r hq)
    rw [mergeRanges]
    split_ifs
    · exact ih (max_lt hcur hr) hrest
    · intro q hq
      obtain rfl | hq := List.mem_cons.mp hq
      · exact hcur
      · exact ih hr hrest q hq

theorem insertRanges_ends {rs qs : List Range} {bound : ℕ} (hrs : ∀ r ∈ rs, r.2 < bound)
    (hqs : ∀ r ∈ qs, r.2 < bound) : ∀ r ∈ insertRanges rs qs, r.2 < bound := by
  have hall : ∀ r ∈ sortRanges (rs ++ qs), r.2 < bound := fun r hr =>
    (List.mem_append.mp (mem_sortRanges.mp hr)).elim (hrs r) (hqs r)
  rw [insertRanges]
  cases heq : sortRanges (rs ++ qs) with
  | nil => exact fun r hr => absurd hr List.not_mem_nil
  | cons cur rest =>
    rw [heq] at hall
    exact mergeRanges_ends (hall cur List.mem_cons_self) fun r hr =>
      hall r (List.mem_cons_of_mem cur hr)

namespace RangeFields

theorem mergeLoop_eq (s : RangeFields) (cur : Range) (rs : List Range) :
    mergeLoop s cur rs = ⟨s.ranges ++ mergeRanges cur rs,
      u64 (s.blocks + (expandRanges (mergeRanges cur rs)).length)⟩ := by
  induction rs generalizing s cur with
  | nil => simp [mergeLoop, append, mergeRanges]
  | cons r rs ih =>
    rw [mergeLoop, mergeRanges]
    split_ifs
    · exact ih s _
    · rw [ih]
      simp [append, u64, Nat.add_assoc]

/-- `Insert` of a set that is not empty: the merged ranges, and their blocks counted. -/
theorem insert_eq (s : RangeFields) {t : RangeFields} (ht : t.ranges ≠ []) :
    s.insert t = ⟨insertRanges s.ranges t.ranges,
      u64 (expandRanges (insertRanges s.ranges t.ranges)).length⟩ := by
  rw [insert, if_neg (by simpa using ht), insertRanges]
  cases sortRanges (s.ranges ++ t.ranges) with
  | nil => rfl
  | cons cur rest =>
    dsimp only
    rw [mergeLoop_eq]
    simp [clear]

theorem insert_nil (s : RangeFields) {t : RangeFields} (ht : t.ranges = []) : s.insert t = s := by
  rw [insert, if_pos (by simp [ht])]

/-- What holds of every sorted set: its ranges are those of `size_t`, sorted, and counted. -/
structure Sound (s : RangeFields) : Prop where
  proper : ∀ r ∈ s.ranges, r.1 < r.2
  ends : ∀ r ∈ s.ranges, r.2 < 2 ^ 64
  order : s.ranges.Pairwise fun r q => r.1 ≤ q.1
  counted : s.blocks = (expandRanges s.ranges).length

theorem sound_sorted {pairs : List Range} (h : ∀ r ∈ pairs, r.2 < 2 ^ 64) :
    Sound (sorted pairs) := by
  rw [sorted, RangeSet.fields_ofPairs]
  cases hpairs : RangeSet.ofPairs pairs with
  | none =>
    exact ⟨fun r hr => absurd hr List.not_mem_nil, fun r hr => absurd hr List.not_mem_nil,
      List.Pairwise.nil, rfl⟩
  | some u =>
    have hranges := RangeSet.ofPairs_eq_some.mp hpairs
    refine ⟨fun r hr => u.proper r (mem_sortRanges.mp hr), fun r hr => ?_, sortRanges_sorted _, ?_⟩
    · exact h r (hranges ▸ mem_sortRanges.mp hr)
    · exact (expandRanges_sortRanges_length u.ranges).symm

theorem Sound.gaps_insert {s t : RangeFields} (hs : Sound s) (ht : Sound t) (hne : t.ranges ≠ []) :
    Gaps (s.insert t).ranges := by
  rw [insert_eq s hne]
  exact (insertRanges_spec hs.proper ht.proper).2.1

theorem Sound.insert {s t : RangeFields} (hs : Sound s) (ht : Sound t) : Sound (s.insert t) := by
  by_cases hne : t.ranges = []
  · rwa [insert_nil s hne]
  have hgaps := hs.gaps_insert ht hne
  have hproper : ∀ r ∈ (s.insert t).ranges, r.1 < r.2 := by
    rw [insert_eq s hne]
    exact (insertRanges_spec hs.proper ht.proper).1
  have hends : ∀ r ∈ (s.insert t).ranges, r.2 < 2 ^ 64 := by
    rw [insert_eq s hne]
    exact insertRanges_ends hs.ends ht.ends
  refine ⟨hproper, hends, hgaps.imp_of_mem fun {r q} hr _ hlt => ?_, ?_⟩
  · have hr := hproper r hr
    omega
  · have hlt := expandRanges_length_lt hgaps hends
    rw [insert_eq s hne] at hlt ⊢
    exact u64_of_lt hlt

theorem SortedBuilt.sound {s : RangeFields} (h : SortedBuilt s) : Sound s := by
  induction h with
  | sorted pairs hpairs => exact sound_sorted hpairs
  | insert _ _ hs ht => exact hs.insert ht

theorem Sound.blockSet_insert {s t : RangeFields} (hs : Sound s) (ht : Sound t) :
    (s.insert t).blockSet = s.blockSet ∪ t.blockSet := by
  ext b
  rw [Finset.mem_union]
  simp only [blockSet, List.mem_toFinset]
  by_cases hne : t.ranges = []
  · simp [insert_nil s hne, hne]
  · rw [insert_eq s hne]
    exact (insertRanges_spec hs.proper ht.proper).2.2 b

theorem Sound.blocks_eq_card {s : RangeFields} (hs : Sound s) (hgaps : Gaps s.ranges) :
    s.blocks = s.blockSet.card := by
  rw [hs.counted, blockSet, List.toFinset_card_of_nodup (SortedRangeSet.expandRanges_nodup hgaps)]

theorem Sound.overlaps_iff {s t : RangeFields} (hs : Sound s) (ht : ∀ r ∈ t.ranges, r.1 < r.2) :
    s.overlaps t = true ↔ (s.blockSet ∩ t.blockSet).Nonempty := by
  rw [overlaps, RangeSet.rangesOverlap_iff hs.proper ht]
  simp [Finset.Nonempty, blockSet]

/-- For a piece that ends within `size_t`, nothing wraps. -/
theorem pieceRange_eq {start len : ℕ} (hlen : 1 ≤ len) (hend : start + len ≤ 2 ^ 64) :
    pieceRange start len = blockRange start len := by
  have hlast : u64 (start + len + sizeMax) = start + len - 1 := by
    unfold u64 sizeMax
    omega
  rw [pieceRange, hlast, blockRange]

theorem ofPairs_single {r : Range} (hr : r.1 < r.2) (hend : r.2 < sizeMax) :
    ofPairs [r] = ⟨[r], r.2 - r.1⟩ := by
  have hsum : u64 (r.2 - r.1) = r.2 - r.1 := by
    apply u64_of_lt
    unfold sizeMax at hend
    omega
  have hroom : ¬sizeMax - (r.2 - r.1) ≤ 0 := by omega
  simp [ofPairs, pushPairs, pushBack, clear, not_le.mpr hr, hsum, hroom]

section piece
variable {start len : ℕ} (hlen : 1 ≤ len) (hend : start + len ≤ 2 ^ 64)
include hlen hend

theorem ofPairs_piece : ofPairs [pieceRange start len] =
    ⟨[blockRange start len], (start + len - 1) / blockSize + 1 - start / blockSize⟩ := by
  rw [pieceRange_eq hlen hend]
  have hsize : blockSize = 4096 := rfl
  apply ofPairs_single
  · rw [blockRange, hsize]
    simp only
    omega
  · rw [blockRange, hsize, sizeMax]
    simp only
    omega

theorem sorted_piece : sorted [pieceRange start len] = ofPairs [pieceRange start len] := by
  rw [sorted, ofPairs_piece hlen hend]
  rfl

theorem sound_piece : Sound (sorted [pieceRange start len]) := by
  apply sound_sorted
  intro r hr
  have hsize : blockSize = 4096 := rfl
  rw [List.mem_singleton.mp hr, pieceRange_eq hlen hend, blockRange, hsize]
  simp only
  omega

theorem blockSet_piece : (sorted [pieceRange start len]).blockSet = touched start len := by
  ext b
  rw [mem_touched hlen, sorted_piece hlen hend, ofPairs_piece hlen hend, blockSet,
    List.mem_toFinset, RangeSet.mem_expandRanges]
  simp only [List.mem_singleton, exists_eq_left, blockRange, Nat.lt_add_one_iff]

theorem ranges_piece : (sorted [pieceRange start len]).ranges ≠ [] := by
  rw [sorted_piece hlen hend, ofPairs_piece hlen hend]
  exact List.cons_ne_nil _ _

end piece

/-- `Insert` on the blocks of sorted sets. The ranges have gaps unless nothing is inserted into a
set that has none. -/
theorem sortedRangeSet_insert {s t u : RangeFields} (hs : SortedBuilt s) (ht : SortedBuilt t)
    (hu : SortedBuilt u) :
    ((s.insert t).blockSet = s.blockSet ∪ t.blockSet ∧
      (s.insert t).ranges.Pairwise (fun r q => r.1 ≤ q.1) ∧
      (t.ranges ≠ [] ∨ Gaps s.ranges → Gaps (s.insert t).ranges ∧
        (s.insert t).blocks = (s.blockSet ∪ t.blockSet).card)) ∧
    (∀ start len, 1 ≤ len → start + len ≤ 2 ^ 64 →
      (s.insertPiece start len).blockSet = s.blockSet ∪ touched start len ∧
      Gaps (s.insertPiece start len).ranges ∧
      (s.insertPiece start len).blocks = (s.blockSet ∪ touched start len).card ∧
      (s.overlapsPiece start len = true ↔ (s.blockSet ∩ touched start len).Nonempty)) ∧
    (s.insert t).blockSet = (t.insert s).blockSet ∧
    ((s.insert t).insert u).blockSet = (s.insert (t.insert u)).blockSet ∧
    ((s.insert t).insert t).blockSet = (s.insert t).blockSet ∧
    (s.overlaps t = true ↔ (s.blockSet ∩ t.blockSet).Nonempty) := by
  have hs := hs.sound
  have ht := ht.sound
  have hu := hu.sound
  have hst := hs.insert ht
  refine ⟨⟨hs.blockSet_insert ht, hst.order, fun hcase => ?_⟩, fun start len hlen hend => ?_,
    ?_, ?_, ?_, hs.overlaps_iff ht.proper⟩
  · have hgaps : Gaps (s.insert t).ranges := by
      by_cases hne : t.ranges = []
      · rw [insert_nil s hne]
        exact hcase.resolve_left (not_not_intro hne)
      · exact hs.gaps_insert ht hne
    exact ⟨hgaps, (hst.blocks_eq_card hgaps).trans (congrArg _ (hs.blockSet_insert ht))⟩
  · have hpiece := sound_piece hlen hend
    have hset := blockSet_piece hlen hend
    have hgaps := hs.gaps_insert hpiece (ranges_piece hlen hend)
    have hunion := hs.blockSet_insert hpiece
    rw [hset] at hunion
    refine ⟨hunion, hgaps, ?_, ?_⟩
    · rw [← hunion]
      exact (hs.insert hpiece).blocks_eq_card hgaps
    · rw [← hset, overlapsPiece, ← sorted_piece hlen hend]
      exact hs.overlaps_iff hpiece.proper
  · rw [hs.blockSet_insert ht, ht.blockSet_insert hs, Finset.union_comm]
  · rw [hst.blockSet_insert hu, hs.blockSet_insert ht, hs.blockSet_insert (ht.insert hu),
      ht.blockSet_insert hu, Finset.union_assoc]
  · rw [hst.blockSet_insert ht, hs.blockSet_insert ht, Finset.union_assoc, Finset.union_self]

theorem sortedBuilt_clear : SortedBuilt clear :=
  .sorted [] fun _ hr => absurd hr List.not_mem_nil

/-- Of the ranges that are inserted one is inside a range that is there, and one touches both. -/
theorem sortedRangeSet_insert_nested :
    let s := sorted [(8, 12), (0, 4)]
    let t := sorted [(9, 10), (4, 8)]
    (s.insert t).ranges = [(0, 12)] ∧ (s.insert t).blockSet = s.blockSet ∪ t.blockSet ∧
      (Gaps (s.insert t).ranges ∧ (s.insert t).blocks = (s.blockSet ∪ t.blockSet).card) ∧
      (s.insertPiece 4095 2).blockSet = s.blockSet ∪ touched 4095 2 ∧
      (s.overlaps t = true ↔ (s.blockSet ∩ t.blockSet).Nonempty) := by
  intro s t
  obtain ⟨⟨hset, -, hgaps⟩, hpiece, -, -, -, hoverlaps⟩ := sortedRangeSet_insert
    (.sorted [(8, 12), (0, 4)] (by decide)) (.sorted [(9, 10), (4, 8)] (by decide))
    sortedBuilt_clear
  exact ⟨by decide, hset, hgaps (.inl (by decide)),
    (hpiece 4095 2 (by decide) (by decide)).1, hoverlaps⟩

/-- `{1, 2}, {2, 3}` is sorted, and stays as it is when nothing is inserted; and of two bytes of
which the second is beyond the addresses, neither block is inserted. -/
theorem not_insertKeepsGaps :
    (¬∀ s t, SortedBuilt s → SortedBuilt t → Gaps (s.insert t).ranges) ∧
    ¬∀ s start len, SortedBuilt s → start < 2 ^ 64 → len < 2 ^ 64 → 1 ≤ len →
      (s.insertPiece start len).blockSet = s.blockSet ∪ touched start len := by
  constructor
  · intro hall
    have hgaps := hall _ _ (.sorted [(1, 2), (2, 3)] (by decide)) sortedBuilt_clear
    have hkept : ((sorted [(1, 2), (2, 3)]).insert clear).ranges = [(1, 2), (2, 3)] := by decide
    rw [hkept] at hgaps
    exact absurd hgaps (by unfold Gaps; decide)
  · intro hall
    have hset := hall _ (2 ^ 64 - 1) 2 sortedBuilt_clear (by decide) (by decide) (by decide)
    have hnone : (clear.insertPiece (2 ^ 64 - 1) 2).ranges = [] := by decide
    have hmem : (2 ^ 64 - 1) / blockSize ∈ touched (2 ^ 64 - 1) 2 :=
      (mem_touched (by decide)).mpr (by decide)
    have hin := Finset.mem_union_right clear.blockSet hmem
    rw [← hset, blockSet, hnone] at hin
    simp at hin

end RangeFields

namespace SortedRangeSet

/-- The fields of a set with gaps. -/
def fields (s : SortedRangeSet) : RangeFields := ⟨s.ranges, s.blocks⟩

theorem fields_insert {s t : SortedRangeSet} (hs : ∀ r ∈ s.ranges, r.2 < 2 ^ 64)
    (ht : ∀ r ∈ t.ranges, r.2 < 2 ^ 64) : s.fields.insert t.fields = (s.insert t).fields := by
  by_cases hne : t.ranges = []
  · rw [RangeFields.insert_nil _ hne, insert, if_pos hne]
  · rw [RangeFields.insert_eq _ hne, insert, if_neg hne]
    have hlt := expandRanges_length_lt (insertRanges_spec s.proper t.proper).2.1
      (insertRanges_ends hs ht)
    exact RangeFields.ext rfl (u64_of_lt hlt)

theorem fields_single {start len : ℕ} (hlen : 1 ≤ len) (hend : start + len ≤ 2 ^ 64) :
    RangeFields.sorted [RangeFields.pieceRange start len] =
      (single (blockRange start len)).fields := by
  have hlt : (blockRange start len).1 < (blockRange start len).2 := by
    have hsize : blockSize = 4096 := rfl
    rw [blockRange, hsize]
    simp only
    omega
  rw [RangeFields.sorted_piece hlen hend, RangeFields.ofPairs_piece hlen hend, single, dif_pos hlt]
  refine RangeFields.ext rfl ?_
  simp [fields, blocks, expand, blockRange]

/-- On pieces of files the sets with gaps do what the fields do. -/
theorem fields_insertPiece {s : SortedRangeSet} {start len : ℕ}
    (hs : ∀ r ∈ s.ranges, r.2 < 2 ^ 64) (hlen : 1 ≤ len) (hend : start + len ≤ 2 ^ 64) :
    s.fields.insertPiece start len = (s.insertPiece start len).fields := by
  have hpiece := (RangeFields.sound_piece hlen hend).ends
  rw [fields_single hlen hend] at hpiece
  rw [RangeFields.insertPiece, fields_single hlen hend, fields_insert hs hpiece]
  rfl

end SortedRangeSet
end BootableRecovery.Otautil
