import BootableRecovery.Otautil.RangeText

namespace BootableRecovery.Otautil

namespace RangeSet

/-- How many blocks each group gets; the first few may get one more. -/
def blocksPerGroup (blocks groups : ℕ) : List ℕ :=
  List.replicate (blocks % groups) (blocks / groups + 1) ++
    List.replicate (groups - blocks % groups) (blocks / groups)

/-- Fills one group: `range` is what is left of the current range, and `rest` are the ranges from
the iterator on. Moving the iterator past the end has no outcome. -/
def fillGroup (needed : ℕ) (range : Range) (rest : List Range) (buffer : RangeSet) :
    Option (RangeSet × Range × List Range) :=
  if needed = 0 then some (buffer, range, rest)
  else if range.2 - range.1 > needed then
    -- the current range is split, and the iterator stays where it is
    some ((buffer.pushBack (range.1, range.1 + needed)).getD buffer,
      (range.1 + needed, range.2), rest)
  else
    match rest with
    | [] => none
    | _ :: rest => fillGroup (needed - (range.2 - range.1)) (rest.headD range) rest
        ((buffer.pushBack range).getD buffer)
termination_by structural rest

def splitLoop : List ℕ → Range → List Range → Option (List RangeSet)
  | [], _, _ => some []
  | needed :: quotas, range, rest =>
    match fillGroup needed range rest empty with
    | none => none
    | some (buffer, range, rest) => (splitLoop quotas range rest).map (buffer :: ·)

/-- `Split` -/
def split (s : RangeSet) (groups : ℕ) : Option (List RangeSet) :=
  if s.ranges = [] ∨ groups = 0 then some []
  else
    let groups := if s.blocks < groups then s.blocks else groups
    splitLoop (blocksPerGroup s.blocks groups) (s.ranges.headD (0, 0)) s.ranges

section split

/-- The ranges that no group has taken yet. -/
def unread (range : Range) (rest : List Range) : List Range :=
  match rest with
  | [] => []
  | _ :: rest => range :: rest

theorem unread_headD (range : Range) (rest : List Range) :
    unread (rest.headD range) rest = rest := by
  cases rest with
  | nil => rfl
  | cons r rest => rfl

theorem expand_pushBack_getD (s : RangeSet) {r : Range} (hr : r.1 < r.2)
    (hb : s.blocks + (r.2 - r.1) < sizeMax) :
    ((s.pushBack r).getD s).expand = s.expand ++ List.range' r.1 (r.2 - r.1) := by
  obtain ⟨t, ht, -⟩ := pushBack_of_lt s r hr hb
  rw [ht, Option.getD_some, pushBack_expand ht]

/-- A group takes the next blocks, and what it leaves starts with the block after them. -/
theorem fillGroup_spec (needed : ℕ) (buffer : RangeSet) {range : Range} {rest : List Range}
    (hproper : ∀ r ∈ unread range rest, r.1 < r.2)
    (hneeded : needed ≤ (expandRanges (unread range rest)).length)
    (hb : buffer.blocks + needed < sizeMax) :
    ∃ t range' rest', fillGroup needed range rest buffer = some (t, range', rest') ∧
      t.expand = buffer.expand ++ (expandRanges (unread range rest)).take needed ∧
      expandRanges (unread range' rest') = (expandRanges (unread range rest)).drop needed ∧
      ∀ r ∈ unread range' rest', r.1 < r.2 := by
  induction rest generalizing needed range buffer with
  | nil =>
    have hzero : needed = 0 := Nat.le_zero.mp hneeded
    rw [fillGroup.eq_def, if_pos hzero]
    exact ⟨buffer, range, [], rfl, by simp [hzero], by simp [hzero], hproper⟩
  | cons r rest ih =>
    have hrange : range.1 < range.2 := hproper range List.mem_cons_self
    have htail : ∀ q ∈ rest, q.1 < q.2 := fun q hq => hproper q (List.mem_cons_of_mem _ hq)
    have hunread : expandRanges (unread range (r :: rest)) =
        List.range' range.1 (range.2 - range.1) ++ expandRanges rest := expandRanges_cons _ _
    rw [hunread, List.length_append, List.length_range'] at hneeded
    rw [hunread, fillGroup.eq_def]
    by_cases hzero : needed = 0
    · rw [if_pos hzero]
      exact ⟨buffer, range, r :: rest, rfl, by simp [hzero], by simp [hzero, hunread], hproper⟩
    rw [if_neg hzero]
    by_cases hpart : range.2 - range.1 > needed
    · -- the group ends inside the current range
      rw [if_pos hpart]
      have hpush := expand_pushBack_getD buffer (r := (range.1, range.1 + needed))
        (by simp only; omega) (by simp only; omega)
      refine ⟨_, _, _, rfl, ?_, ?_, ?_⟩
      · rw [hpush, List.take_append_of_le_length (by simp; omega),
          List.take_range'_of_length_ge (by omega), Nat.add_sub_cancel_left]
      · have hdrop : (List.range' range.1 (range.2 - range.1)).drop needed =
            List.range' (range.1 + needed) (range.2 - (range.1 + needed)) := by
          rw [List.drop_range', Nat.mul_one, Nat.sub_sub]
        rw [List.drop_append_of_le_length (by simp; omega), hdrop]
        exact expandRanges_cons _ _
      · intro q hq
        rcases List.mem_cons.mp hq with rfl | hq
        · simp only
          omega
        · exact htail q hq
    · rw [if_neg hpart]
      have hpush := expand_pushBack_getD buffer hrange (by omega)
      have hblocks : ((buffer.pushBack range).getD buffer).blocks =
          buffer.blocks + (range.2 - range.1) := by
        rw [blocks, hpush, List.length_append, List.length_range', expand_length]
      rw [← unread_headD range rest] at htail hneeded
      obtain ⟨t, range', rest', heq, hexpand, hleft, hproper'⟩ :=
        ih (needed - (range.2 - range.1)) ((buffer.pushBack range).getD buffer) htail
          (by omega) (by omega)
      rw [unread_headD] at hexpand hleft
      refine ⟨t, range', rest', heq, ?_, ?_, hproper'⟩
      · rw [hexpand, hpush, List.append_assoc, List.take_append, List.length_range',
          List.take_range'_of_length_le (by omega)]
      · have hnone : (List.range' range.1 (range.2 - range.1)).drop needed = [] :=
          List.drop_eq_nil_of_le (by rw [List.length_range']; omega)
        rw [hleft, List.drop_append, hnone, List.length_range', List.nil_append]

/-- Groups as large as the quotas cut the blocks that are left, in order. -/
theorem splitLoop_spec (quotas : List ℕ) {range : Range} {rest : List Range}
    (hproper : ∀ r ∈ unread range rest, r.1 < r.2)
    (hsum : quotas.sum = (expandRanges (unread range rest)).length)
    (hb : quotas.sum < sizeMax) :
    ∃ sets, splitLoop quotas range rest = some sets ∧ sets.map blocks = quotas ∧
      sets.flatMap expand = expandRanges (unread range rest) := by
  induction quotas generalizing range rest with
  | nil =>
    refine ⟨[], rfl, rfl, ?_⟩
    rw [List.sum_nil] at hsum
    rw [List.flatMap_nil, List.eq_nil_of_length_eq_zero hsum.symm]
  | cons needed quotas ih =>
    rw [List.sum_cons] at hsum hb
    obtain ⟨t, range', rest', heq, hexpand, hleft, hproper'⟩ := fillGroup_spec needed empty
      hproper (by omega) (by rw [empty_blocks]; omega)
    rw [empty_expand, List.nil_append] at hexpand
    obtain ⟨sets, hsets, hblocks, hflat⟩ := ih hproper'
      (by rw [hleft, List.length_drop]; omega) (by omega)
    refine ⟨t :: sets, ?_, ?_, ?_⟩
    · rw [splitLoop, heq]
      simp [hsets]
    · rw [List.map_cons, hblocks, blocks, hexpand, List.length_take, Nat.min_eq_left (by omega)]
    · rw [List.flatMap_cons, hexpand, hflat, hleft, List.take_append_drop]

theorem blocksPerGroup_sum (blocks : ℕ) {groups : ℕ} (h : 0 < groups) :
    (blocksPerGroup blocks groups).sum = blocks := by
  have hlt := Nat.mod_lt blocks h
  have hdiv := Nat.div_add_mod blocks groups
  have hsplit : groups * (blocks / groups) = blocks % groups * (blocks / groups) +
      (groups - blocks % groups) * (blocks / groups) := by
    rw [← Nat.add_mul, Nat.add_sub_cancel' hlt.le]
  simp only [blocksPerGroup, List.sum_append, List.sum_replicate_nat, Nat.mul_succ]
  omega

theorem blocksPerGroup_length (blocks : ℕ) {groups : ℕ} (h : 0 < groups) :
    (blocksPerGroup blocks groups).length = groups := by
  have hlt := Nat.mod_lt blocks h
  simp only [blocksPerGroup, List.length_append, List.length_replicate]
  omega

/-- No group is smaller than a later one, or larger by more than one block. -/
theorem blocksPerGroup_even (blocks groups : ℕ) :
    (blocksPerGroup blocks groups).Pairwise fun a b => b ≤ a ∧ a ≤ b + 1 := by
  refine List.pairwise_append.mpr ⟨?_, ?_, fun a ha b hb => ?_⟩
  · exact List.pairwise_replicate.mpr (Or.inr ⟨le_rfl, Nat.le_succ _⟩)
  · exact List.pairwise_replicate.mpr (Or.inr ⟨le_rfl, Nat.le_succ _⟩)
  · rw [List.eq_of_mem_replicate ha, List.eq_of_mem_replicate hb]
    omega

theorem blocksPerGroup_pos {blocks groups : ℕ} (h : 0 < groups) (hle : groups ≤ blocks) :
    ∀ n ∈ blocksPerGroup blocks groups, 0 < n := by
  have hmean : 0 < blocks / groups := Nat.div_pos hle h
  intro n hn
  rcases List.mem_append.mp hn with hn | hn
  · rw [List.eq_of_mem_replicate hn]
    omega
  · rwa [List.eq_of_mem_replicate hn]

/-- A division into groups: how many, how large, and that in order they are the whole set. -/
structure SplitsEvenly (s : RangeSet) (groups : ℕ) (sets : List RangeSet) : Prop where
  count : sets.length = min groups s.blocks
  nonempty : ∀ t ∈ sets, t.ranges ≠ []
  even : (sets.map blocks).Pairwise fun a b => b ≤ a ∧ a ≤ b + 1
  expand : sets.flatMap expand = s.expand

theorem split_spec (s : RangeSet) {groups : ℕ} (hs : s.ranges ≠ []) (hg : 1 ≤ groups) :
    ∃ sets, s.split groups = some sets ∧ s.SplitsEvenly groups sets := by
  have hblocks := s.blocks_pos_of_ranges hs
  rw [split, if_neg (by simp [hs]; omega)]
  obtain ⟨count, hcount⟩ : ∃ count, count = min groups s.blocks := ⟨_, rfl⟩
  have hmin : (if s.blocks < groups then s.blocks else groups) = count := by
    rw [hcount]
    split_ifs <;> omega
  simp only [hmin]
  have hpos : 0 < count := hcount ▸ lt_min hg hblocks
  have hle : count ≤ s.blocks := hcount ▸ min_le_right _ _
  have hunread : unread (s.ranges.headD (0, 0)) s.ranges = s.ranges := unread_headD _ _
  have hsum := blocksPerGroup_sum s.blocks hpos
  obtain ⟨sets, hsets, hquotas, hflat⟩ := splitLoop_spec
    (blocksPerGroup s.blocks count) (hunread.symm ▸ s.proper) (by rw [hunread, hsum]; rfl)
    (by rw [hsum]; exact s.bounded)
  refine ⟨sets, hsets, ⟨?_, fun t ht => ?_, ?_, ?_⟩⟩
  · rw [← hcount, ← blocksPerGroup_length s.blocks hpos, ← hquotas, List.length_map]
  · apply t.ranges_ne_nil_of_blocks
    apply blocksPerGroup_pos hpos hle
    rw [← hquotas]
    exact List.mem_map_of_mem ht
  · rw [hquotas]
    exact blocksPerGroup_even _ _
  · rw [hflat, hunread]
    rfl

example : ((ofPairs [(0, 3), (5, 16)]).bind (split · 4)).map (List.map ranges) =
    some [[(0, 3), (5, 6)], [(6, 10)], [(10, 13)], [(13, 16)]] := by decide

end split

end RangeSet
end BootableRecovery.Otautil
