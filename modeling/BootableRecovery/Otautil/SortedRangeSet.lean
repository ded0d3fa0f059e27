import BootableRecovery.Otautil.RangeSet
import Mathlib.Data.List.Sort
import Mathlib.Order.Interval.Finset.Nat

namespace BootableRecovery.Otautil

/-! `SortedRangeSet`: which blocks of a file are used, and where they are once the used blocks are
put one behind the other. -/

/-- `kBlockSize` -/
def blockSize : ℕ := 4096

/-- The order of `std::pair`. -/
def rangeLE (r q : Range) : Prop := r.1 < q.1 ∨ r.1 = q.1 ∧ r.2 ≤ q.2

instance : DecidableRel rangeLE := fun _ _ => inferInstanceAs (Decidable (_ ∨ _))

/-- Ranges in their order, with a gap between one and the next. -/
@[ext] structure SortedRangeSet where
  ranges : List Range
  proper : ∀ r ∈ ranges, r.1 < r.2
  apart : ranges.Pairwise fun r q => r.2 < q.1

/-- Trims overlaps: `cur` is the range that is going to be inserted. -/
def mergeRanges : Range → List Range → List Range
  | cur, [] => [cur]
  | cur, r :: rs =>
    if r.1 ≤ cur.2 then mergeRanges (cur.1, max cur.2 r.2) rs else cur :: mergeRanges r rs

def sortRanges (rs : List Range) : List Range := rs.insertionSort rangeLE

/-- The blocks that a piece of a file lies in. -/
def blockRange (start len : ℕ) : Range := (start / blockSize, (start + len - 1) / blockSize + 1)

theorem mem_sortRanges {rs : List Range} {r : Range} : r ∈ sortRanges rs ↔ r ∈ rs :=
  (List.perm_insertionSort rangeLE rs).mem_iff

theorem sortRanges_sorted (rs : List Range) :
    (sortRanges rs).Pairwise fun r q => r.1 ≤ q.1 := by
  have htotal : Std.Total rangeLE := ⟨fun r q => by unfold rangeLE; omega⟩
  have htrans : IsTrans Range rangeLE := ⟨fun r q p => by unfold rangeLE; omega⟩
  refine (List.pairwise_insertionSort rangeLE rs).imp fun {r q} h => ?_
  rcases h with h | h
  · exact h.le
  · exact h.1.le

section merge

theorem mem_expandRanges_cons {r : Range} {rs : List Range} {b : ℕ} :
    b ∈ expandRanges (r :: rs) ↔ (r.1 ≤ b ∧ b < r.2) ∨ b ∈ expandRanges rs := by
  rw [RangeSet.mem_expandRanges, RangeSet.mem_expandRanges, List.exists_mem_cons_iff]

/-- What is merged starts where `cur` starts, and keeps the gaps. -/
theorem mergeRanges_spec {cur : Range} {rs : List Range} (hcur : cur.1 < cur.2)
    (hproper : ∀ r ∈ rs, r.1 < r.2) (hsorted : (cur :: rs).Pairwise fun r q => r.1 ≤ q.1) :
    (∀ r ∈ mergeRanges cur rs, r.1 < r.2 ∧ cur.1 ≤ r.1) ∧
      ((mergeRanges cur rs).Pairwise fun r q => r.2 < q.1) ∧
      ∀ b, b ∈ expandRanges (mergeRanges cur rs) ↔ b ∈ expandRanges (cur :: rs) := by
  induction rs generalizing cur with
  | nil =>
    refine ⟨fun r hr => ?_, List.pairwise_singleton _ _, fun b => Iff.rfl⟩
    rw [List.mem_singleton.mp hr]
    exact ⟨hcur, le_rfl⟩
  | cons r rs ih =>
    obtain ⟨hfirst, hrest⟩ := List.pairwise_cons.mp hsorted
    have hle := hfirst r List.mem_cons_self
    have hr := hproper r List.mem_cons_self
    have hproper' : ∀ q ∈ rs, q.1 < q.2 := fun q hq => hproper q (List.mem_cons_of_mem r hq)
    rw [mergeRanges]
    by_cases hmerge : r.1 ≤ cur.2
    · rw [if_pos hmerge]
      have hgrown : ((cur.1, max cur.2 r.2) : Range).1 < ((cur.1, max cur.2 r.2) : Range).2 :=
        hcur.trans_le (le_max_left _ _)
      obtain ⟨hall, hapart, hmem⟩ := ih hgrown hproper' (List.pairwise_cons.mpr
        ⟨fun q hq => hfirst q (List.mem_cons_of_mem r hq), (List.pairwise_cons.mp hrest).2⟩)
      refine ⟨hall, hapart, fun b => (hmem b).trans ?_⟩
      rw [mem_expandRanges_cons, mem_expandRanges_cons, mem_expandRanges_cons, ← or_assoc]
      exact or_congr_left (by omega)
    · rw [if_neg hmerge]
      obtain ⟨hall, hapart, hmem⟩ := ih hr hproper' hrest
      refine ⟨fun q hq => ?_, List.pairwise_cons.mpr ⟨fun q hq => ?_, hapart⟩, fun b => ?_⟩
      · rcases List.mem_cons.mp hq with rfl | hq
        · exact ⟨hcur, le_rfl⟩
        · exact ⟨(hall q hq).1, hle.trans (hall q hq).2⟩
      · have hstart := (hall q hq).2
        omega
      · exact mem_expandRanges_cons.trans
          ((or_congr_right (hmem b)).trans mem_expandRanges_cons.symm)

/-- `Insert` of ranges into ranges. -/
def insertRanges (rs qs : List Range) : List Range :=
  match sortRanges (rs ++ qs) with
  | [] => []
  | cur :: rest => mergeRanges cur rest

theorem insertRanges_spec {rs qs : List Range} (hrs : ∀ r ∈ rs, r.1 < r.2)
    (hqs : ∀ r ∈ qs, r.1 < r.2) :
    (∀ r ∈ insertRanges rs qs, r.1 < r.2) ∧
      ((insertRanges rs qs).Pairwise fun r q => r.2 < q.1) ∧
      ∀ b, b ∈ expandRanges (insertRanges rs qs) ↔ b ∈ expandRanges rs ∨ b ∈ expandRanges qs := by
  have hsorted := sortRanges_sorted (rs ++ qs)
  have hproper : ∀ r ∈ sortRanges (rs ++ qs), r.1 < r.2 := fun r hr =>
    (List.mem_append.mp (mem_sortRanges.mp hr)).elim (hrs r) (hqs r)
  have hmem : ∀ b, b ∈ expandRanges (sortRanges (rs ++ qs)) ↔
      b ∈ expandRanges rs ∨ b ∈ expandRanges qs := by
    intro b
    rw [← List.mem_append, ← expandRanges_append, RangeSet.mem_expandRanges,
      RangeSet.mem_expandRanges]
    simp only [mem_sortRanges]
  rw [insertRanges]
  cases hcase : sortRanges (rs ++ qs) with
  | nil =>
    rw [hcase] at hmem
    exact ⟨fun r hr => absurd hr List.not_mem_nil, List.Pairwise.nil, hmem⟩
  | cons cur rest =>
    rw [hcase] at hsorted hproper hmem
    obtain ⟨hall, hapart, hexpand⟩ := mergeRanges_spec (hproper cur List.mem_cons_self)
      (fun r hr => hproper r (List.mem_cons_of_mem cur hr)) hsorted
    exact ⟨fun r hr => (hall r hr).1, hapart, fun b => (hexpand b).trans (hmem b)⟩

end merge

namespace SortedRangeSet

theorem proper_nil : ∀ r ∈ ([] : List Range), r.1 < r.2 := by
  intro r hr
  exact absurd hr List.not_mem_nil

def empty : SortedRangeSet := ⟨[], proper_nil, List.Pairwise.nil⟩

/-- The set that the constructor makes of one range: nothing of a range that is empty. -/
def single (r : Range) : SortedRangeSet :=
  if h : r.1 < r.2 then
    ⟨[r], fun _ hq => List.mem_singleton.mp hq ▸ h, List.pairwise_singleton _ _⟩
  else empty

def expand (s : SortedRangeSet) : List ℕ := expandRanges s.ranges

def blocks (s : SortedRangeSet) : ℕ := s.expand.length

def insert (s t : SortedRangeSet) : SortedRangeSet :=
  if t.ranges = [] then s
  else
    ⟨insertRanges s.ranges t.ranges, (insertRanges_spec s.proper t.proper).1,
      (insertRanges_spec s.proper t.proper).2.1⟩

def insertPiece (s : SortedRangeSet) (start len : ℕ) : SortedRangeSet :=
  s.insert (single (blockRange start len))

def overlaps (s t : SortedRangeSet) : Bool := RangeSet.rangesOverlap s.ranges t.ranges

def overlapsPiece (s : SortedRangeSet) (start len : ℕ) : Bool :=
  s.overlaps (single (blockRange start len))

/-- The loop of `GetOffsetInRangeSet`; a block outside of the ranges is the failing `CHECK`. -/
def offsetFrom (offset : ℕ) : List Range → ℕ → Option ℕ
  | [], _ => none
  | r :: rs, newStart =>
    let block := offset / blockSize
    if block ≥ r.2 then offsetFrom offset rs (newStart + (r.2 - r.1))
    else if block ≥ r.1 then some ((newStart + (block - r.1)) * blockSize + offset % blockSize)
    else none

def getOffsetInRangeSet (s : SortedRangeSet) (offset : ℕ) : Option ℕ :=
  offsetFrom offset s.ranges 0

theorem mem_insert {s t : SortedRangeSet} {b : ℕ} :
    b ∈ (s.insert t).expand ↔ b ∈ s.expand ∨ b ∈ t.expand := by
  rw [insert]
  by_cases hnil : t.ranges = []
  · rw [if_pos hnil]
    have hnone : b ∉ t.expand := by
      rw [expand, hnil]
      exact List.not_mem_nil
    exact (or_iff_left hnone).symm
  · rw [if_neg hnil]
    exact (insertRanges_spec s.proper t.proper).2.2 b

theorem mem_single {r : Range} {b : ℕ} : b ∈ (single r).expand ↔ r.1 ≤ b ∧ b < r.2 := by
  rw [single]
  by_cases h : r.1 < r.2
  · rw [dif_pos h]
    exact mem_expandRanges_cons.trans (or_iff_left List.not_mem_nil)
  · rw [dif_neg h]
    refine ⟨fun hb => absurd hb List.not_mem_nil, fun hb => ?_⟩
    omega

/-- The blocks of a piece of a file. -/
theorem mem_blockRange {start len b : ℕ} : b ∈ (single (blockRange start len)).expand ↔
    start / blockSize ≤ b ∧ b ≤ (start + len - 1) / blockSize :=
  mem_single.trans (and_congr_right fun _ => Nat.lt_succ_iff)

theorem mem_insertPiece {s : SortedRangeSet} {start len b : ℕ} :
    b ∈ (s.insertPiece start len).expand ↔
      b ∈ s.expand ∨ start / blockSize ≤ b ∧ b ≤ (start + len - 1) / blockSize := by
  rw [insertPiece, mem_insert, mem_blockRange]

theorem overlaps_iff (s t : SortedRangeSet) :
    s.overlaps t = true ↔ ∃ b, b ∈ s.expand ∧ b ∈ t.expand :=
  RangeSet.rangesOverlap_iff s.proper t.proper

theorem blocks_empty : empty.blocks = 0 := rfl

theorem expandRanges_nodup {rs : List Range} (h : rs.Pairwise fun r q => r.2 < q.1) :
    (expandRanges rs).Nodup := by
  refine List.nodup_flatMap.mpr ⟨fun r _ => List.nodup_range', h.imp fun {r q} hlt b hb hb' => ?_⟩
  rw [List.mem_range'_1] at hb hb'
  omega

theorem blocks_eq_card (s : SortedRangeSet) : s.blocks = s.expand.toFinset.card :=
  (List.toFinset_card_of_nodup (expandRanges_nodup s.apart)).symm

theorem toFinset_insertPiece (s : SortedRangeSet) (start len : ℕ) :
    (s.insertPiece start len).expand.toFinset =
      s.expand.toFinset ∪ Finset.Icc (start / blockSize) ((start + len - 1) / blockSize) := by
  ext b
  rw [Finset.mem_union, Finset.mem_Icc, List.mem_toFinset, List.mem_toFinset, mem_insertPiece]

theorem blocks_le_insertPiece (s : SortedRangeSet) (start len : ℕ) :
    s.blocks ≤ (s.insertPiece start len).blocks := by
  rw [blocks_eq_card, blocks_eq_card, toFinset_insertPiece]
  exact Finset.card_le_card Finset.subset_union_left

/-- The number of blocks that a piece of a file lies in. -/
theorem card_touched (start : ℕ) {len : ℕ} (hlen : 0 < len) :
    (Finset.Icc (start / blockSize) ((start + len - 1) / blockSize)).card =
      (len + blockSize - 1) / blockSize +
        if blockSize ≤ start % blockSize + (len - 1) % blockSize then 1 else 0 := by
  have hsize : blockSize = 4096 := rfl
  rw [Nat.card_Icc, hsize]
  split_ifs <;> omega

theorem overlapsPiece_eq_false_iff {s : SortedRangeSet} {start len : ℕ} :
    s.overlapsPiece start len = false ↔ Disjoint s.expand.toFinset
      (Finset.Icc (start / blockSize) ((start + len - 1) / blockSize)) := by
  rw [Bool.eq_false_iff, Ne, overlapsPiece, overlaps_iff, Finset.disjoint_left, not_exists]
  refine forall_congr' fun b => ?_
  rw [List.mem_toFinset, mem_blockRange, Finset.mem_Icc, not_and]

theorem blocks_insertPiece_of_free {s : SortedRangeSet} {start len : ℕ} (hlen : 0 < len)
    (h : s.overlapsPiece start len = false) :
    (s.insertPiece start len).blocks = s.blocks + ((len + blockSize - 1) / blockSize +
      if blockSize ≤ start % blockSize + (len - 1) % blockSize then 1 else 0) := by
  rw [blocks_eq_card, blocks_eq_card, toFinset_insertPiece,
    Finset.card_union_of_disjoint (overlapsPiece_eq_false_iff.mp h), card_touched start hlen]

theorem blocks_insertPiece_of_overlaps {s : SortedRangeSet} {start len : ℕ} (hlen : 0 < len)
    (h : s.overlapsPiece start len ≠ false) :
    (s.insertPiece start len).blocks ≤ s.blocks + (len + blockSize - 1) / blockSize := by
  rw [Ne, overlapsPiece_eq_false_iff, Finset.disjoint_iff_inter_eq_empty,
    ← Finset.card_eq_zero] at h
  have hcard := Finset.card_union_add_card_inter s.expand.toFinset
    (Finset.Icc (start / blockSize) ((start + len - 1) / blockSize))
  rw [card_touched start hlen] at hcard
  rw [blocks_eq_card, blocks_eq_card, toFinset_insertPiece]
  split_ifs at hcard <;> omega

end SortedRangeSet

section content

/-- The bytes of a file that the ranges hold, in range order. -/
def contentOf (file : List UInt8) (rs : List Range) : List UInt8 :=
  rs.flatMap fun r =>
    (file.drop (r.1 * blockSize)).take (min file.length (r.2 * blockSize) - r.1 * blockSize)

variable {file : List UInt8} {rs : List Range} {start len : ℕ}

theorem block_lt_of_piece (hlen : 0 < len) {b : ℕ} (hb : b ≤ (start + len - 1) / blockSize) :
    b * blockSize < start + len := by
  have hle := (Nat.le_div_iff_mul_le (by decide : 0 < blockSize)).mp hb
  omega

/-- A range that a piece starts in holds all of it, if there is a gap behind the range. -/
theorem piece_inside {r : Range} (hlen : 0 < len) (hgap : ∀ q ∈ rs, r.2 < q.1)
    (hblocks : ∀ b, start / blockSize ≤ b → b ≤ (start + len - 1) / blockSize →
      b ∈ expandRanges (r :: rs)) (hlt : start / blockSize < r.2) :
    r.1 ≤ start / blockSize ∧ start + len ≤ r.2 * blockSize := by
  have hrest : ∀ {b}, b ≤ r.2 → b ∉ expandRanges rs := by
    intro b hb hmem
    obtain ⟨q, hq, hqb, -⟩ := RangeSet.mem_expandRanges.mp hmem
    have := hgap q hq
    omega
  constructor
  · have hfirst := hblocks _ le_rfl (Nat.div_le_div_right (by omega))
    rcases mem_expandRanges_cons.mp hfirst with h | h
    · exact h.1
    · exact absurd h (hrest hlt.le)
  · by_contra hover
    have hlast : r.2 ≤ (start + len - 1) / blockSize :=
      (Nat.le_div_iff_mul_le (by decide)).mpr (by omega)
    rcases mem_expandRanges_cons.mp (hblocks r.2 hlt.le hlast) with h | h
    · exact absurd h.2 (lt_irrefl _)
    · exact hrest le_rfl h

/-- A piece whose blocks are all in ranges with gaps between them lies in one of the ranges, and
`GetOffsetInRangeSet` is where it is in their content. -/
theorem offsetFrom_spec (newStart : ℕ) (hlen : 0 < len) (hfile : start + len ≤ file.length)
    (hproper : ∀ r ∈ rs, r.1 < r.2) (hapart : rs.Pairwise fun r q => r.2 < q.1)
    (hblocks : ∀ b, start / blockSize ≤ b → b ≤ (start + len - 1) / blockSize →
      b ∈ expandRanges rs) :
    ∃ p, SortedRangeSet.offsetFrom start rs newStart = some (newStart * blockSize + p) ∧
      ((contentOf file rs).drop p).take len = (file.drop start).take len := by
  induction rs generalizing newStart with
  | nil =>
    have hb := hblocks _ le_rfl (Nat.div_le_div_right (by omega))
    exact absurd hb List.not_mem_nil
  | cons r rs ih =>
    obtain ⟨hgap, hapart'⟩ := List.pairwise_cons.mp hapart
    have hr := hproper r List.mem_cons_self
    have hstart := Nat.div_add_mod start blockSize
    rw [SortedRangeSet.offsetFrom, contentOf, List.flatMap_cons, ← contentOf]
    by_cases hskip : start / blockSize ≥ r.2
    · rw [if_pos hskip]
      have hbehind : r.2 * blockSize ≤ start := (Nat.le_div_iff_mul_le (by decide)).mp hskip
      have hwidth : (r.2 - r.1) * blockSize = r.2 * blockSize - r.1 * blockSize := Nat.sub_mul ..
      have hle : r.1 * blockSize ≤ r.2 * blockSize := Nat.mul_le_mul_right _ hr.le
      obtain ⟨p, hp, hcontent⟩ := ih (newStart + (r.2 - r.1))
        (fun q hq => hproper q (List.mem_cons_of_mem r hq)) hapart' fun b hb hb' => by
          refine (mem_expandRanges_cons.mp (hblocks b hb hb')).resolve_left fun h => ?_
          omega
      refine ⟨(r.2 - r.1) * blockSize + p, ?_, ?_⟩
      · rw [hp, Nat.add_mul, Nat.add_assoc]
      · have hhead : ((file.drop (r.1 * blockSize)).take (min file.length (r.2 * blockSize) -
            r.1 * blockSize)).length = (r.2 - r.1) * blockSize := by
          rw [List.length_take, List.length_drop]
          omega
        rw [← hcontent, ← hhead, List.drop_append, List.drop_eq_nil_of_le (Nat.le_add_right _ _),
          List.nil_append, Nat.add_sub_cancel_left]
    · obtain ⟨hfrom, hto⟩ := piece_inside hlen hgap hblocks (not_le.mp hskip)
      rw [if_neg hskip, if_pos hfrom]
      have hle : r.1 * blockSize ≤ start / blockSize * blockSize := Nat.mul_le_mul_right _ hfrom
      have hcomm := Nat.mul_comm blockSize (start / blockSize)
      have hoffset : (start / blockSize - r.1) * blockSize + start % blockSize =
          start - r.1 * blockSize := by
        rw [Nat.sub_mul]
        omega
      refine ⟨start - r.1 * blockSize, ?_, ?_⟩
      · rw [Nat.add_mul, Nat.add_assoc, hoffset]
      · have hback : r.1 * blockSize + (start - r.1 * blockSize) = start := by omega
        rw [List.drop_append_of_le_length, List.take_append_of_le_length, List.drop_take,
          List.drop_drop, List.take_take, hback, Nat.min_eq_left (by omega)]
        · rw [List.length_drop, List.length_take, List.length_drop]
          omega
        · rw [List.length_take, List.length_drop]
          omega

theorem SortedRangeSet.getOffsetInRangeSet_spec (s : SortedRangeSet) (hlen : 0 < len)
    (hfile : start + len ≤ file.length)
    (hblocks : ∀ b, start / blockSize ≤ b → b ≤ (start + len - 1) / blockSize → b ∈ s.expand) :
    ∃ p, s.getOffsetInRangeSet start = some p ∧
      ((contentOf file s.ranges).drop p).take len = (file.drop start).take len := by
  obtain ⟨p, hp, hcontent⟩ := offsetFrom_spec 0 hlen hfile s.proper s.apart hblocks
  rw [Nat.zero_mul, Nat.zero_add] at hp
  exact ⟨p, hp, hcontent⟩

/-- Ranges that start in the file have content. -/
theorem contentOf_ne_nil {r : Range} (hr : r ∈ rs) (hlt : r.1 < r.2)
    (hfile : r.1 * blockSize < file.length) : contentOf file rs ≠ [] := by
  have hle : r.1 * blockSize < r.2 * blockSize := Nat.mul_lt_mul_of_pos_right hlt (by decide)
  intro hnil
  have hpiece := congrArg List.length (List.flatMap_eq_nil_iff.mp hnil r hr)
  rw [List.length_take, List.length_drop, List.length_nil] at hpiece
  omega

end content
end BootableRecovery.Otautil
