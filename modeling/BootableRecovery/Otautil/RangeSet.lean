import BootableRecovery.Lib.Blocks

namespace BootableRecovery.Otautil
open Lib

/-- A half-open interval of blocks. -/
abbrev Range := ℕ × ℕ

def sizeMax : ℕ := 2 ^ 64 - 1

/-- The blocks of a list of ranges, in range order. -/
def expandRanges (rs : List Range) : List ℕ := rs.flatMap fun r => List.range' r.1 (r.2 - r.1)

@[simp] theorem expandRanges_nil : expandRanges [] = [] := rfl

@[simp] theorem expandRanges_cons (r : Range) (rs : List Range) :
    expandRanges (r :: rs) = List.range' r.1 (r.2 - r.1) ++ expandRanges rs := by
  simp [expandRanges]

@[simp] theorem expandRanges_append (rs rs' : List Range) :
    expandRanges (rs ++ rs') = expandRanges rs ++ expandRanges rs' := by
  simp [expandRanges]

/-- `ranges_`; `blocks_` is the length of the expansion and never reaches `SIZE_MAX`. -/
@[ext] structure RangeSet where
  ranges : List Range
  proper : ∀ r ∈ ranges, r.1 < r.2
  bounded : (expandRanges ranges).length < sizeMax

namespace RangeSet

def empty : RangeSet := ⟨[], by simp, by decide⟩

def expand (s : RangeSet) : List ℕ := expandRanges s.ranges

def blocks (s : RangeSet) : ℕ := s.expand.length

@[simp] theorem expand_length (s : RangeSet) : s.expand.length = s.blocks := rfl

@[simp] theorem empty_expand : empty.expand = [] := rfl

@[simp] theorem empty_blocks : empty.blocks = 0 := rfl

theorem ranges_ne_nil_of_blocks (s : RangeSet) (h : 0 < s.blocks) : s.ranges ≠ [] := by
  intro he
  simp [blocks, expand, he] at h

theorem blocks_pos_of_ranges (s : RangeSet) (h : s.ranges ≠ []) : 0 < s.blocks := by
  obtain ⟨r, rs, hr⟩ := List.exists_cons_of_ne_nil h
  have hlt : r.1 < r.2 := s.proper r (by simp [hr])
  simp only [blocks, expand, hr, expandRanges_cons, List.length_append, List.length_range']
  omega

def pushBack (s : RangeSet) (r : Range) : Option RangeSet :=
  if h : r.1 < r.2 then
    if hb : s.blocks + (r.2 - r.1) < sizeMax then
      some ⟨s.ranges ++ [r], by
        intro q hq
        rcases List.mem_append.mp hq with hq | hq
        · exact s.proper q hq
        · rwa [List.mem_singleton.mp hq],
        by simpa [blocks, expand] using hb⟩
    else none
  else none

theorem pushBack_of_lt (s : RangeSet) (r : Range) (h : r.1 < r.2)
    (hb : s.blocks + (r.2 - r.1) < sizeMax) :
    ∃ t, s.pushBack r = some t ∧ t.ranges = s.ranges ++ [r] := by
  simp [pushBack, h, hb]

theorem pushBack_expand {s t : RangeSet} {r : Range} (h : s.pushBack r = some t) :
    t.expand = s.expand ++ List.range' r.1 (r.2 - r.1) := by
  unfold pushBack at h
  split_ifs at h
  cases h
  simp [expand]

/-- `GetBlockNumber`; running past the last range is the failing `CHECK`. -/
def blockNumberIn : List Range → ℕ → Option ℕ
  | [], _ => none
  | (b, e) :: rs, i => if i < e - b then some (b + i) else blockNumberIn rs (i - (e - b))

def getBlockNumber (s : RangeSet) (idx : ℕ) : Option ℕ :=
  if idx < s.blocks then blockNumberIn s.ranges idx else none

theorem blockNumberIn_eq (rs : List Range) (i : ℕ) :
    blockNumberIn rs i = (expandRanges rs)[i]? := by
  induction rs generalizing i with
  | nil => rfl
  | cons r rs ih =>
    obtain ⟨b, e⟩ := r
    by_cases hi : i < e - b
    · simp [blockNumberIn, hi, List.getElem?_append]
    · simp [blockNumberIn, hi, ih, List.getElem?_append]

theorem getBlockNumber_eq (s : RangeSet) (idx : ℕ) : s.getBlockNumber idx = s.expand[idx]? := by
  by_cases h : idx < s.blocks
  · simp [getBlockNumber, h, blockNumberIn_eq, expand]
  · rw [getBlockNumber, if_neg h, List.getElem?_eq_none (by simpa using h)]

theorem getLast?_ranges_of_expand (s : RangeSet) {b : ℕ} (h : s.expand.getLast? = some b) :
    ∃ r, s.ranges.getLast? = some r ∧ r.2 = b + 1 := by
  rcases List.eq_nil_or_concat s.ranges with hs | ⟨rs, r, hs⟩
  · simp [expand, hs] at h
  · rw [List.concat_eq_append] at hs
    have hr : r.1 < r.2 := s.proper r (by simp [hs])
    refine ⟨r, by simp [hs], ?_⟩
    have hpos : r.2 - r.1 = (r.2 - r.1 - 1) + 1 := by omega
    rw [expand, hs, expandRanges_append, expandRanges_cons, expandRanges_nil, List.append_nil,
      hpos, List.range'_concat, ← List.append_assoc, List.getLast?_concat] at h
    simp only [Nat.one_mul, Option.some.injEq] at h
    omega

theorem mem_expandRanges {rs : List Range} {b : ℕ} :
    b ∈ expandRanges rs ↔ ∃ r ∈ rs, r.1 ≤ b ∧ b < r.2 := by
  simp only [expandRanges, List.mem_flatMap, List.mem_range'_1]
  constructor
  · rintro ⟨r, hr, h1, h2⟩
    exact ⟨r, hr, h1, by omega⟩
  · rintro ⟨r, hr, h1, h2⟩
    exact ⟨r, hr, h1, by omega⟩

/-- The loops of `Overlaps`, which compare every range of one set with every range of the other. -/
def rangesOverlap (rs os : List Range) : Bool :=
  rs.any fun r => os.any fun o => !(decide (o.1 ≥ r.2) || decide (r.1 ≥ o.2))

def overlaps (s other : RangeSet) : Bool := rangesOverlap s.ranges other.ranges

theorem rangesOverlap_iff {rs os : List Range} (hrs : ∀ r ∈ rs, r.1 < r.2)
    (hos : ∀ r ∈ os, r.1 < r.2) :
    rangesOverlap rs os = true ↔ ∃ b, b ∈ expandRanges rs ∧ b ∈ expandRanges os := by
  simp only [rangesOverlap, List.any_eq_true, Bool.not_eq_true', Bool.or_eq_false_iff,
    decide_eq_false_iff_not, not_le, ge_iff_le, mem_expandRanges]
  constructor
  · rintro ⟨r, hr, o, ho, h1, h2⟩
    have hr' := hrs r hr
    have ho' := hos o ho
    exact ⟨max r.1 o.1, ⟨r, hr, by omega, by omega⟩, ⟨o, ho, by omega, by omega⟩⟩
  · rintro ⟨b, ⟨r, hr, h1, h2⟩, ⟨o, ho, h3, h4⟩⟩
    exact ⟨r, hr, o, ho, by omega, by omega⟩

theorem overlaps_iff (s other : RangeSet) :
    s.overlaps other = true ↔ ∃ b, b ∈ s.expand ∧ b ∈ other.expand :=
  rangesOverlap_iff s.proper other.proper

/-- The loop of `GetSubRanges`: `cur` blocks were passed, `acc` is the result so far. -/
def subRangesFrom (start stop : ℕ) : List Range → ℕ → RangeSet → Option RangeSet
  | [], _, _ => none
  | (b, e) :: rs, cur, acc =>
    let n := e - b
    if cur + n ≤ start then subRangesFrom start stop rs (cur + n) acc
    else
      let b' := if cur < start then b + (start - cur) else b
      if cur + n ≥ stop then acc.pushBack (b', e - (cur + n - stop))
      else
        match acc.pushBack (b', e) with
        | none => none
        | some acc' => subRangesFrom start stop rs (cur + n) acc'

def getSubRanges (s : RangeSet) (start num : ℕ) : Option RangeSet :=
  let stop := u64 (start + num)
  if start > stop ∨ stop > s.blocks then none
  else if num = 0 then some empty
  else subRangesFrom start stop s.ranges 0 empty

theorem range'_drop_take (b n k m : ℕ) (h : k + m ≤ n) :
    ((List.range' b n).drop k).take m = List.range' (b + k) m := by
  have hw := take_drop_eq_window (List.range' b n) 0 k m (by simpa using h)
  rw [hw, window]
  apply List.ext_getElem?
  intro i
  by_cases hi : i < m
  · have : k + i < n := by omega
    simp [hi, this, Nat.add_assoc]
  · rw [List.getElem?_eq_none (by simpa using hi), List.getElem?_eq_none (by simpa using hi)]

/-- Each pass of the loop keeps the part of a range that lies in `[start, stop)`. -/
theorem subRangesFrom_spec (start stop : ℕ) (rs : List Range) (cur : ℕ) (acc : RangeSet)
    (hp : ∀ r ∈ rs, r.1 < r.2) (hs : start < stop) (hc : cur < stop)
    (he : stop ≤ cur + (expandRanges rs).length)
    (hb : acc.blocks + (stop - max start cur) < sizeMax) :
    ∃ t, subRangesFrom start stop rs cur acc = some t ∧
      t.expand = acc.expand ++
        ((expandRanges rs).drop (start - cur)).take (stop - max start cur) := by
  induction rs generalizing cur acc with
  | nil => simp at he; omega
  | cons r rs ih =>
    obtain ⟨b, e⟩ := r
    have hbe : b < e := hp (b, e) (by simp)
    have hp' : ∀ r ∈ rs, r.1 < r.2 := fun q hq => hp q (List.mem_cons_of_mem _ hq)
    simp only [expandRanges_cons, List.length_append, List.length_range'] at he
    simp only [subRangesFrom, expandRanges_cons]
    by_cases hskip : cur + (e - b) ≤ start
    · -- the range ends before the first wanted block
      obtain ⟨t, ht, hx⟩ := ih (cur + (e - b)) acc hp' (by omega) (by omega) (by omega)
      refine ⟨t, by rw [if_pos hskip]; exact ht, ?_⟩
      have hnil : (List.range' b (e - b)).drop (start - cur) = [] :=
        List.drop_eq_nil_of_le (by rw [List.length_range']; omega)
      rw [hx, List.drop_append, hnil, List.nil_append, List.length_range',
        show start - cur - (e - b) = start - (cur + (e - b)) by omega,
        show max start (cur + (e - b)) = max start cur by omega]
    · rw [if_neg hskip]
      have hb' : (if cur < start then b + (start - cur) else b) = b + (start - cur) := by
        split_ifs <;> omega
      rw [hb']
      by_cases hlast : cur + (e - b) ≥ stop
      · -- the last wanted block is in this range
        rw [if_pos hlast]
        obtain ⟨t, ht, hr⟩ := pushBack_of_lt acc (b + (start - cur), e - (cur + (e - b) - stop))
          (by simp only; omega) (by simp only; omega)
        refine ⟨t, ht, ?_⟩
        rw [pushBack_expand ht, List.drop_append_of_le_length (by simp; omega),
          List.take_append_of_le_length (by simp; omega), range'_drop_take _ _ _ _ (by omega)]
        congr 2
        simp only
        omega
      · rw [if_neg hlast]
        obtain ⟨acc', ha, hr⟩ := pushBack_of_lt acc (b + (start - cur), e)
          (by simp only; omega) (by simp only; omega)
        have hx' := pushBack_expand ha
        have hl' : acc'.blocks = acc.blocks + (e - (b + (start - cur))) := by
          rw [blocks, hx']; simp
        obtain ⟨t, ht, hx⟩ := ih (cur + (e - b)) acc' hp' (by omega) (by omega) (by omega)
        refine ⟨t, by rw [ha]; exact ht, ?_⟩
        have hk : start - cur ≤ e - b := by omega
        have hkeep : ((List.range' b (e - b) ++ expandRanges rs).drop (start - cur)).take
            (stop - max start cur) = List.range' (b + (start - cur)) (e - (b + (start - cur))) ++
              (expandRanges rs).take (stop - max start (cur + (e - b))) := by
          rw [List.drop_append_of_le_length (by simpa using hk), List.take_append,
            List.drop_range', List.length_range',
            List.take_of_length_le (by rw [List.length_range']; omega), Nat.mul_one,
            show e - (b + (start - cur)) = e - b - (start - cur) by omega,
            show stop - max start cur - (e - b - (start - cur)) =
              stop - max start (cur + (e - b)) by omega]
        rw [hx, hx', hkeep, List.append_assoc, show start - (cur + (e - b)) = 0 by omega,
          List.drop_zero]

/-- The sub range set is the slice of the expansion, whatever the ranges look like. -/
theorem getSubRanges_spec (s : RangeSet) (start num : ℕ) (h : start + num ≤ s.blocks) :
    ∃ t, s.getSubRanges start num = some t ∧ t.expand = (s.expand.drop start).take num := by
  have hs : s.blocks < sizeMax := s.bounded
  have hm : u64 (start + num) = start + num := by
    apply u64_of_lt
    rw [sizeMax] at hs
    omega
  rw [getSubRanges, hm, if_neg (by omega)]
  by_cases hn : num = 0
  · exact ⟨empty, by rw [if_pos hn], by simp [hn]⟩
  · rw [if_neg hn]
    obtain ⟨t, ht, hx⟩ := subRangesFrom_spec start (start + num) s.ranges 0 empty s.proper
      (by omega) (by omega) (by simpa [blocks, expand] using h) (by simp [blocks]; omega)
    refine ⟨t, ht, ?_⟩
    rw [hx, empty_expand, List.nil_append, Nat.sub_zero, Nat.max_zero,
      show start + num - start = num by omega]
    rfl

/-- For all arguments of 64 bits: no outcome if the end wraps or is past the blocks, and otherwise
the blocks from `start` on. -/
theorem getSubRanges_slice (s : RangeSet) (start num : Fin (2 ^ 64)) :
    (s.getSubRanges start num = none ↔
      2 ^ 64 ≤ start.val + num.val ∨ s.blocks < start.val + num.val) ∧
    ∀ t, s.getSubRanges start num = some t →
      t.expand = (s.expand.drop start).take num ∧ t.blocks = num ∧
      ∀ i < num.val, t.getBlockNumber i = s.getBlockNumber (start + i) := by
  by_cases hin : start.val + num.val ≤ s.blocks
  · obtain ⟨t, ht, hexpand⟩ := getSubRanges_spec s start num hin
    have hlt : s.blocks < 2 ^ 64 - 1 := s.bounded
    rw [ht]
    refine ⟨⟨fun hnone => absurd hnone (Option.some_ne_none t), fun hout => ?_⟩, fun u hu => ?_⟩
    · omega
    · cases hu
      refine ⟨hexpand, ?_, fun i hi => ?_⟩
      · rw [blocks, hexpand, List.length_take, List.length_drop, expand_length]
        omega
      · rw [getBlockNumber_eq, getBlockNumber_eq, hexpand, List.getElem?_take_of_lt hi,
          List.getElem?_drop]
  · -- either the sum is past the blocks, or it wraps and lies below `start`
    have hnone : s.getSubRanges start num = none := by
      apply if_pos
      have hstart := start.isLt
      have hnum := num.isLt
      unfold u64
      omega
    rw [hnone]
    refine ⟨⟨fun _ => Or.inr (not_le.mp hin), fun _ => rfl⟩, fun u hu => ?_⟩
    cases hu

end RangeSet
end BootableRecovery.Otautil
