import BootableRecovery.Applypatch.SplitValid
import Mathlib.Logic.Relation

namespace BootableRecovery.Applypatch
open Lib Otautil

/-! How many blocks of the source file a split source covers. -/

/-- Every split source, but for a last one that has the central directory, covers no more blocks
than the limit. -/
def SplitLimited (src : ZipModeImage) (out : SplitImages) : Prop :=
  ∀ directory ∈ src.chunks.getLast?, ∀ (i : ℕ) (r : SortedRangeSet), out.ranges[i]? = some r →
    (i + 1 = out.ranges.length → r.overlapsPiece directory.start directory.rawDataLen = false) →
      r.blocks ≤ src.limit / blockSize

/-- A piece lies across one block boundary more than its length needs, shares no block with the
ranges, and is as long as there is room for. -/
def Overfills (limit : ℕ) (ranges : SortedRangeSet) (offset length : ℕ) : Prop :=
  blockSize ≤ offset % blockSize + (length - 1) % blockSize ∧
    ranges.overlapsPiece offset length = false ∧
      ranges.blocks + (length + blockSize - 1) / blockSize = limit / blockSize

/-- The passes of the loop that take the target chunk into the group. -/
inductive Takes (tgt src : ZipModeImage) : ℕ × SplitState → ℕ × SplitState → Prop
  | pass {i : ℕ} {s t : SplitState} {c : ImageChunk} (hc : tgt.chunks[i]? = some c)
    (hstep : splitStep tgt src s c = some (t, false)) : Takes tgt src (i, s) (i + 1, t)

/-- The passes that close the group, for want of room. -/
inductive Closes (tgt src : ZipModeImage) : ℕ × SplitState → ℕ × SplitState → Prop
  | pass {i : ℕ} {s t : SplitState} {c : ImageChunk} (hi : i ≠ 0) (hc : tgt.chunks[i]? = some c)
    (hstep : splitStep tgt src s c = some (t, true)) : Closes tgt src (i, s) (i, t)

/-- From one pass of the loop to a later one. -/
def Passes (tgt src : ZipModeImage) : ℕ × SplitState → ℕ × SplitState → Prop :=
  Relation.ReflTransGen fun p q => Takes tgt src p q ∨ Closes tgt src p q

/-- The source piece that the next target chunk finds overfills the group. -/
def OverfillsNext (tgt src : ZipModeImage) (p : ℕ × SplitState) : Prop :=
  ∃ c d offset length, tgt.chunks[p.1]? = some c ∧
    findChunkByName src.chunks c.entryName true = some d ∧
      removeUsedBlocks d.start d.rawDataLen p.2.usedRanges = some (offset, length) ∧
        Overfills tgt.limit p.2.srcRanges offset length

/-- Some pass since the group was begun has overfilled it. -/
def Overfilled (tgt src : ZipModeImage) (start p : ℕ × SplitState) : Prop :=
  ∃ o q, Passes tgt src start o ∧ OverfillsNext tgt src o ∧ Takes tgt src o q ∧
    Relation.ReflTransGen (Takes tgt src) q p

/-- No group is overfilled of those that are closed with target chunks across a block boundary. -/
def NeverOverfilled (tgt src : ZipModeImage) : Prop :=
  ∀ directory ∈ src.chunks.getLast?, ∀ p q,
    Overfilled tgt src (0, SplitState.start directory) p → Closes tgt src p q →
      alignChunks p.2.tgtChunks = []

section passes
variable {tgt src : ZipModeImage} {s t : SplitState} {c : ImageChunk} {p q : ℕ × SplitState}
  {limit offset length : ℕ} {ranges : SortedRangeSet}

/-- Where there is room for the length of a piece, there is room for its blocks if and only if the
piece does not overfill. -/
theorem overfills_iff (hlen : 0 < length) (hlimit : limit % blockSize = 0)
    (hroom : ranges.blocks * blockSize + length ≤ limit) :
    limit / blockSize < (ranges.insertPiece offset length).blocks ↔
      Overfills limit ranges offset length := by
  have hsize : blockSize = 4096 := rfl
  have hneed : ranges.blocks + (length + blockSize - 1) / blockSize ≤ limit / blockSize := by
    rw [hsize] at hlimit hroom ⊢
    omega
  rw [Overfills]
  by_cases hfree : ranges.overlapsPiece offset length = false
  · rw [SortedRangeSet.blocks_insertPiece_of_free hlen hfree]
    split_ifs with hacross
    · constructor
      · exact fun hlt => ⟨hacross, hfree, by omega⟩
      · rintro ⟨-, -, hfull⟩
        omega
    · exact ⟨fun hlt => by omega, fun h => absurd h.1 hacross⟩
  · have hle := SortedRangeSet.blocks_insertPiece_of_overlaps hlen hfree
    exact ⟨fun hlt => by omega, fun h => absurd h.2.1 hfree⟩

/-- There is room for the length of a piece that overfills. -/
theorem Overfills.room (h : Overfills limit ranges offset length) :
    ranges.blocks * blockSize + length ≤ limit := by
  have hsize : blockSize = 4096 := rfl
  obtain ⟨-, -, hfull⟩ := h
  rw [hsize] at hfull ⊢
  omega

/-- A pass that takes the target chunk leaves the images alone, and adds a source piece to the
ranges at most. -/
theorem splitStep_takes (h : splitStep tgt src s c = some (t, false)) :
    t.ranges = s.ranges ∧ (t.srcRanges = s.srcRanges ∨ ∃ d offset length,
      findChunkByName src.chunks c.entryName true = some d ∧
        removeUsedBlocks d.start d.rawDataLen s.usedRanges = some (offset, length) ∧ 0 < length ∧
          s.srcRanges.blocks * blockSize + length ≤ tgt.limit ∧
            t.srcRanges = s.srcRanges.insertPiece offset length) := by
  rw [splitStep] at h
  cases hfound : findChunkByName src.chunks c.entryName true with
  | none =>
    rw [hfound] at h
    obtain ⟨rfl, -⟩ := Prod.mk.inj (Option.some.inj h)
    exact ⟨rfl, .inl rfl⟩
  | some d =>
    rw [hfound] at h
    dsimp only at h
    rw [Option.ite_none_right_eq_some] at h
    obtain ⟨⟨hdlen, -⟩, h⟩ := h
    cases hremove : removeUsedBlocks d.start d.rawDataLen s.usedRanges with
    | none =>
      rw [hremove] at h
      obtain ⟨rfl, -⟩ := Prod.mk.inj (Option.some.inj h)
      exact ⟨rfl, .inl rfl⟩
    | some piece =>
      obtain ⟨offset, length⟩ := piece
      have hpos := (removeUsedBlocks_spec hdlen hremove).1
      rw [hremove] at h
      dsimp only at h
      by_cases hroom : s.srcRanges.blocks * blockSize + length ≤ tgt.limit
      · rw [if_pos hroom] at h
        have hpiece : t.ranges = s.ranges ∧
            t.srcRanges = s.srcRanges.insertPiece offset length := by
          split_ifs at h
          · obtain ⟨rfl, -⟩ := Prod.mk.inj (Option.some.inj h)
            exact ⟨rfl, rfl⟩
          · obtain ⟨rfl, -⟩ := Prod.mk.inj (Option.some.inj h)
            exact ⟨rfl, rfl⟩
        exact ⟨hpiece.1, .inr ⟨d, offset, length, rfl, hremove, hpos, hroom, hpiece.2⟩⟩
      · rw [if_neg hroom] at h
        obtain ⟨added, -, hadded⟩ := Option.map_eq_some_iff.mp h
        exact absurd (Prod.mk.inj hadded).2.symm Bool.false_ne_true

/-- A pass that closes the group adds its images. -/
theorem splitStep_closes (h : splitStep tgt src s c = some (t, true)) :
    ∃ added, addSplitImage tgt src s.srcRanges s.tgtChunks s.srcChunks = some added ∧
      t = s.flush added := by
  rw [splitStep] at h
  cases hfound : findChunkByName src.chunks c.entryName true with
  | none =>
    rw [hfound] at h
    exact absurd (Prod.mk.inj (Option.some.inj h)).2 Bool.false_ne_true
  | some d =>
    rw [hfound] at h
    dsimp only at h
    rw [Option.ite_none_right_eq_some] at h
    cases hremove : removeUsedBlocks d.start d.rawDataLen s.usedRanges with
    | none =>
      rw [hremove] at h
      exact absurd (Prod.mk.inj (Option.some.inj h.2)).2 Bool.false_ne_true
    | some piece =>
      rw [hremove] at h
      dsimp only at h
      obtain ⟨-, h⟩ := h
      split_ifs at h
      · exact absurd (Prod.mk.inj (Option.some.inj h)).2 Bool.false_ne_true
      · exact absurd (Prod.mk.inj (Option.some.inj h)).2 Bool.false_ne_true
      · obtain ⟨added, hadd, hadded⟩ := Option.map_eq_some_iff.mp h
        exact ⟨added, hadd, (Prod.mk.inj hadded).1.symm⟩

/-- The images of a group are added if and only if its target chunks go across a block boundary. -/
theorem addSplitImage_eq_none_iff {tgtChunks srcChunks : List ImageChunk}
    {added : Option (ZipModeImage × ZipModeImage)}
    (h : addSplitImage tgt src ranges tgtChunks srcChunks = some added) :
    added = none ↔ alignChunks tgtChunks = [] := by
  rw [addSplitImage, Option.ite_none_left_eq_some] at h
  obtain ⟨-, h⟩ := h
  dsimp only at h
  by_cases hnil : alignChunks tgtChunks = []
  · rw [if_pos hnil] at h
    exact iff_of_true (Option.some.inj h).symm hnil
  · rw [if_neg hnil, Option.ite_none_left_eq_some] at h
    refine iff_of_false ?_ hnil
    rw [← Option.some.inj h.2]
    exact Option.some_ne_none _

theorem Takes.ranges_eq (h : Takes tgt src p q) : q.2.ranges = p.2.ranges := by
  obtain ⟨-, hstep⟩ := h
  exact (splitStep_takes hstep).1

theorem Takes.blocks_le (h : Takes tgt src p q) :
    p.2.srcRanges.blocks ≤ q.2.srcRanges.blocks := by
  obtain ⟨-, hstep⟩ := h
  rcases (splitStep_takes hstep).2 with hsame | ⟨d, offset, length, -, -, -, -, hpiece⟩
  · exact (congrArg SortedRangeSet.blocks hsame).ge
  · exact (SortedRangeSet.blocks_le_insertPiece _ offset length).trans_eq
      (congrArg SortedRangeSet.blocks hpiece).symm

/-- Only a pass that overfills brings a group beyond the limit. -/
theorem Takes.overfills (h : Takes tgt src p q) (hlimit : tgt.limit % blockSize = 0)
    (hle : p.2.srcRanges.blocks ≤ tgt.limit / blockSize)
    (hlt : tgt.limit / blockSize < q.2.srcRanges.blocks) : OverfillsNext tgt src p := by
  obtain ⟨hc, hstep⟩ := h
  rcases (splitStep_takes hstep).2 with hsame |
    ⟨d, offset, length, hfound, hremove, hpos, hroom, hpiece⟩
  · dsimp only at hlt
    rw [hsame] at hlt
    exact absurd hlt hle.not_gt
  · dsimp only at hlt
    rw [hpiece] at hlt
    exact ⟨_, d, offset, length, hc, hfound, hremove, (overfills_iff hpos hlimit hroom).mp hlt⟩

/-- A group that is overfilled is beyond the limit. -/
theorem OverfillsNext.blocks_lt (h : OverfillsNext tgt src p) (hstep : Takes tgt src p q)
    (hlimit : tgt.limit % blockSize = 0) : tgt.limit / blockSize < q.2.srcRanges.blocks := by
  obtain ⟨c, d, offset, length, hc, hfound, hremove, hover⟩ := h
  obtain ⟨hc', hstep⟩ := hstep
  obtain rfl := Option.some.inj (hc.symm.trans hc')
  rw [splitStep, hfound] at hstep
  dsimp only at hstep
  rw [Option.ite_none_right_eq_some] at hstep
  obtain ⟨⟨hdlen, -⟩, hstep⟩ := hstep
  have hpos := (removeUsedBlocks_spec hdlen hremove).1
  have hlt := (overfills_iff hpos hlimit hover.room).mpr hover
  rw [hremove] at hstep
  dsimp only at hstep
  rw [if_pos hover.room] at hstep
  split_ifs at hstep
  · obtain ⟨rfl, -⟩ := Prod.mk.inj (Option.some.inj hstep)
    exact hlt
  · obtain ⟨rfl, -⟩ := Prod.mk.inj (Option.some.inj hstep)
    exact hlt

theorem Overfilled.blocks_lt {start : ℕ × SplitState} (h : Overfilled tgt src start p)
    (hlimit : tgt.limit % blockSize = 0) : tgt.limit / blockSize < p.2.srcRanges.blocks := by
  obtain ⟨o, q, -, hover, hstep, hrest⟩ := h
  have hlt := hover.blocks_lt hstep hlimit
  induction hrest with
  | refl => exact hlt
  | tail _ hnext ih => exact ih.trans_le hnext.blocks_le

/-- What a closing pass does to the ranges of the images. -/
theorem Closes.spec (h : Closes tgt src p q) : q.2.srcRanges = .empty ∧
    (alignChunks p.2.tgtChunks = [] ∧ q.2.ranges = p.2.ranges ∨
      alignChunks p.2.tgtChunks ≠ [] ∧ q.2.ranges = p.2.ranges ++ [p.2.srcRanges]) := by
  obtain ⟨-, -, hstep⟩ := h
  obtain ⟨added, hadd, rfl⟩ := splitStep_closes hstep
  have hnone := addSplitImage_eq_none_iff hadd
  cases added with
  | none => exact ⟨rfl, .inl ⟨hnone.mp rfl, rfl⟩⟩
  | some images => exact ⟨rfl, .inr ⟨fun hnil => Option.some_ne_none _ (hnone.mpr hnil), rfl⟩⟩

theorem Passes.ranges_subset (h : Passes tgt src p q) : p.2.ranges ⊆ q.2.ranges := by
  induction h with
  | refl => exact List.Subset.refl _
  | tail _ hstep ih =>
    rcases hstep with htakes | hcloses
    · rw [htakes.ranges_eq]
      exact ih
    · rcases hcloses.spec.2 with ⟨-, hranges⟩ | ⟨-, hranges⟩
      · rw [hranges]
        exact ih
      · rw [hranges]
        exact List.subset_append_of_subset_left _ ih

/-- Up to any pass, the images are within the limit, and so is the group unless it is overfilled. -/
theorem Passes.limited {directory : ImageChunk}
    (h : Passes tgt src (0, SplitState.start directory) p) (hlimit : tgt.limit % blockSize = 0)
    (hdirectory : directory ∈ src.chunks.getLast?) (hnever : NeverOverfilled tgt src) :
    (∀ r ∈ p.2.ranges, r.blocks ≤ tgt.limit / blockSize) ∧
      (p.2.srcRanges.blocks ≤ tgt.limit / blockSize ∨
        Overfilled tgt src (0, SplitState.start directory) p) := by
  induction h with
  | refl => exact ⟨fun r hr => absurd hr List.not_mem_nil, .inl (Nat.zero_le _)⟩
  | @tail p q hpasses hstep ih =>
    obtain ⟨himages, hgroup⟩ := ih
    rcases hstep with htakes | hcloses
    · rw [htakes.ranges_eq]
      refine ⟨himages, ?_⟩
      rcases hgroup with hle | ⟨o, o', ho, hover, hfirst, hrest⟩
      · refine (Nat.lt_or_ge (tgt.limit / blockSize)
          q.2.srcRanges.blocks).symm.imp_right fun hlt => ?_
        exact ⟨p, q, hpasses, htakes.overfills hlimit hle hlt, htakes, .refl⟩
      · exact .inr ⟨o, o', ho, hover, hfirst, hrest.tail htakes⟩
    · obtain ⟨hempty, hranges⟩ := hcloses.spec
      refine ⟨?_, .inl ?_⟩
      · rcases hranges with ⟨-, hranges⟩ | ⟨hne, hranges⟩
        · rw [hranges]
          exact himages
        · rw [hranges]
          intro r hr
          rcases List.mem_append.mp hr with hr | hr
          · exact himages r hr
          · rw [List.mem_singleton.mp hr]
            exact hgroup.resolve_right fun hover =>
              hne (hnever directory hdirectory p q hover hcloses)
      · rw [hempty]
        exact Nat.zero_le _

/-- A loop that comes to its end goes through passes. -/
theorem passes_of_splitLoop {fuel i : ℕ} (h : splitLoop tgt src fuel i s = some t) :
    ∃ j, Passes tgt src (i, s) (j, t) := by
  induction fuel generalizing i s with
  | zero => cases h
  | succ fuel ih =>
    rw [splitLoop] at h
    cases hc : tgt.chunks[i]? with
    | none =>
      rw [hc] at h
      obtain rfl := Option.some.inj h
      exact ⟨i, .refl⟩
    | some c =>
      rw [hc] at h
      dsimp only at h
      cases hstep : splitStep tgt src s c with
      | none =>
        rw [hstep] at h
        cases h
      | some next =>
        obtain ⟨u, again⟩ := next
        rw [hstep] at h
        cases again with
        | true =>
          dsimp only at h
          rw [Option.ite_none_left_eq_some] at h
          obtain ⟨j, hj⟩ := ih h.2
          exact ⟨j, hj.head (.inr (.pass h.1 hc hstep))⟩
        | false =>
          obtain ⟨j, hj⟩ := ih h
          exact ⟨j, hj.head (.inl (.pass hc hstep))⟩

/-- The loop from a later pass on comes to the same end. -/
theorem Passes.splitLoop {fuel : ℕ} (h : Passes tgt src p q)
    (hloop : Applypatch.splitLoop tgt src fuel p.1 p.2 = some t) :
    ∃ fuel, Applypatch.splitLoop tgt src fuel q.1 q.2 = some t := by
  induction h with
  | refl => exact ⟨fuel, hloop⟩
  | tail _ hstep ih =>
    obtain ⟨fuel, hfuel⟩ := ih
    cases fuel with
    | zero => cases hfuel
    | succ fuel =>
      rcases hstep with ⟨hc, hstep⟩ | ⟨hi, hc, hstep⟩
      · exact ⟨fuel, (splitLoop_step hc hstep).symm.trans hfuel⟩
      · exact ⟨fuel, (splitLoop_again hi hc hstep).symm.trans hfuel⟩

theorem splitLoop_unique {fuel fuel' i : ℕ} {t' : SplitState}
    (h : splitLoop tgt src fuel i s = some t) (h' : splitLoop tgt src fuel' i s = some t') :
    t = t' := by
  induction fuel generalizing fuel' i s with
  | zero => cases h
  | succ fuel ih =>
    cases fuel' with
    | zero => cases h'
    | succ fuel' =>
      rw [splitLoop] at h h'
      cases hc : tgt.chunks[i]? with
      | none =>
        rw [hc] at h h'
        exact Option.some.inj (h.symm.trans h')
      | some c =>
        rw [hc] at h h'
        dsimp only at h h'
        cases hstep : splitStep tgt src s c with
        | none =>
          rw [hstep] at h
          cases h
        | some next =>
          obtain ⟨u, again⟩ := next
          rw [hstep] at h h'
          cases again with
          | true =>
            dsimp only at h h'
            rw [Option.ite_none_left_eq_some] at h h'
            exact ih h.2 h'.2
          | false => exact ih h h'

end passes
section claim
variable {tgt src : ZipModeImage} {entries : List ImageChunk} {directory : ImageChunk}
  {out : SplitImages} {fuel : ℕ} {s : SplitState}

/-- The images of a split are those of the loop, and a last one with the central directory. -/
theorem ranges_of_split (hlast : src.chunks.getLast? = some directory)
    (hlen : 0 < directory.rawDataLen)
    (h : splitZipModeImageWithLimit fuel tgt src = some out) :
    ∃ s, splitLoop tgt src fuel 0 (SplitState.start directory) = some s ∧
      (out.ranges = s.ranges ∨ ∃ r : SortedRangeSet, out.ranges = s.ranges ++ [r] ∧
        r.overlapsPiece directory.start directory.rawDataLen ≠ false) := by
  rw [splitZipModeImageWithLimit, Option.ite_none_left_eq_some, hlast] at h
  obtain ⟨-, h⟩ := h
  dsimp only at h
  rw [Option.ite_none_left_eq_some] at h
  obtain ⟨-, h⟩ := h
  cases hloop : splitLoop tgt src fuel 0 (SplitState.start directory) with
  | none =>
    rw [hloop] at h
    cases h
  | some s =>
    rw [hloop] at h
    dsimp only at h
    cases hfinish : s.finish tgt src directory with
    | none =>
      rw [hfinish] at h
      cases h
    | some last =>
      rw [hfinish] at h
      dsimp only at h
      obtain ⟨-, h⟩ := Option.ite_none_right_eq_some.mp h
      obtain rfl := Option.some.inj h
      refine ⟨s, rfl, ?_⟩
      rw [SplitState.finish] at hfinish
      have hblock : directory.start / blockSize ≤ (directory.start + directory.rawDataLen - 1) /
          blockSize := Nat.div_le_div_right (by omega)
      split at hfinish
      · cases hfinish
      · obtain rfl := Option.some.inj hfinish
        exact .inl rfl
      · obtain rfl := Option.some.inj hfinish
        refine .inr ⟨_, rfl, ?_⟩
        rw [Ne, Bool.not_eq_false, SortedRangeSet.overlapsPiece, SortedRangeSet.overlaps_iff]
        exact ⟨_, SortedRangeSet.mem_insertPiece.mpr (.inr ⟨le_rfl, hblock⟩),
          SortedRangeSet.mem_blockRange.mpr ⟨le_rfl, hblock⟩⟩

/-- The images of the loop do not have the central directory. -/
theorem SplitInv.free_ranges {first pos : ℕ} {pieces : List SplitPiece}
    (h : SplitInv tgt src directory first pos s pieces) :
    ∀ r ∈ s.ranges, r.overlapsPiece directory.start directory.rawDataLen = false := by
  intro r hr
  have hplaced : s.ranges = pieces.map fun p => p.ranges := h.placed.ranges
  rw [hplaced] at hr
  obtain ⟨p, hp, rfl⟩ := List.mem_map.mp hr
  rw [Bool.eq_false_iff]
  intro hoverlap
  obtain ⟨b, hb, hbd⟩ := (SortedRangeSet.overlaps_iff _ _).mp hoverlap
  exact h.free p hp b hb hbd

/-- The limited images of a split are those of the loop. -/
theorem splitLimited_iff_ranges (hlast : src.chunks.getLast? = some directory)
    (hfree : ∀ r ∈ s.ranges, r.overlapsPiece directory.start directory.rawDataLen = false)
    (hout : out.ranges = s.ranges ∨ ∃ r : SortedRangeSet, out.ranges = s.ranges ++ [r] ∧
      r.overlapsPiece directory.start directory.rawDataLen ≠ false) :
    SplitLimited src out ↔ ∀ r ∈ s.ranges, r.blocks ≤ src.limit / blockSize := by
  rw [SplitLimited, hlast]
  constructor
  · intro h r hr
    obtain ⟨i, hi, rfl⟩ := List.mem_iff_getElem.mp hr
    have hget : out.ranges[i]? = some s.ranges[i] := by
      rcases hout with hout | ⟨last, hout, -⟩
      · rw [hout, List.getElem?_eq_getElem hi]
      · rw [hout, List.getElem?_append_left hi, List.getElem?_eq_getElem hi]
    exact h directory rfl i _ hget fun _ => hfree _ hr
  · intro h d hd i r hr hlastOne
    obtain rfl := Option.some.inj hd
    rcases hout with hout | ⟨last, hout, hover⟩
    · rw [hout] at hr
      exact h r (List.mem_of_getElem? hr)
    · rw [hout] at hr hlastOne
      rcases Nat.lt_or_ge i s.ranges.length with hlt | hge
      · rw [List.getElem?_append_left hlt] at hr
        exact h r (List.mem_of_getElem? hr)
      · have hone : i - s.ranges.length = 0 := by
          have hbound := (List.getElem?_eq_some_iff.mp hr).1
          rw [List.length_append, List.length_singleton] at hbound
          omega
        rw [List.getElem?_append_right hge, hone] at hr
        obtain rfl := Option.some.inj hr
        rw [List.length_append, List.length_singleton] at hlastOne
        exact absurd (hlastOne (by omega)) hover

/-- The images of a loop are limited if and only if no group that it closes is overfilled. -/
theorem ranges_limited_iff (hlast : src.chunks.getLast? = some directory)
    (hlimit : tgt.limit % blockSize = 0)
    (hloop : splitLoop tgt src fuel 0 (SplitState.start directory) = some s) :
    (∀ r ∈ s.ranges, r.blocks ≤ tgt.limit / blockSize) ↔ NeverOverfilled tgt src := by
  constructor
  · intro h d hd p q hover hcloses
    obtain rfl : directory = d := Option.some.inj (hlast.symm.trans hd)
    rcases hcloses.spec.2 with ⟨hnil, -⟩ | ⟨-, hranges⟩
    · exact hnil
    · have hlt := hover.blocks_lt hlimit
      obtain ⟨o, o', hpasses, -, hfirst, hrest⟩ := hover
      have hgroup : Passes tgt src o' p := Relation.ReflTransGen.mono (fun _ _ => .inl) _ _ hrest
      have hq : Passes tgt src (0, SplitState.start directory) q :=
        ((hpasses.tail (.inl hfirst)).trans hgroup).tail (.inr hcloses)
      obtain ⟨fuel', hfuel⟩ := hq.splitLoop hloop
      obtain ⟨j, hend⟩ := passes_of_splitLoop hfuel
      have hmem : p.2.srcRanges ∈ s.ranges := by
        refine hend.ranges_subset ?_
        rw [hranges]
        exact List.mem_append_right _ List.mem_cons_self
      exact absurd hlt (h _ hmem).not_gt
  · intro hnever
    obtain ⟨j, hpasses⟩ := passes_of_splitLoop hloop
    exact (hpasses.limited hlimit hlast hnever).1

/-- A split of images as they are made of zip files. -/
theorem splitLimited_iff (hchunks : src.chunks = entries ++ [directory])
    (hlayout : SourceLayout src.limit src.fileContent.length entries directory)
    (hsame : tgt.limit = src.limit) (hlimit : src.limit % blockSize = 0)
    (hpos : 0 < tgt.fileContent.length)
    (hcontiguous : Contiguous 0 tgt.fileContent.length tgt.chunks)
    (hsplit : splitZipModeImageWithLimit fuel tgt src = some out) :
    SplitLimited src out ↔ NeverOverfilled tgt src := by
  have hlast : src.chunks.getLast? = some directory := by rw [hchunks, List.getLast?_concat]
  have hsrc : ∀ d ∈ src.chunks,
      0 < d.rawDataLen ∧ d.start + d.rawDataLen ≤ src.fileContent.length := by
    rw [hchunks]
    intro d hd
    rcases List.mem_append.mp hd with hd | hd
    · exact ⟨(hlayout.entry d hd).1, (hlayout.entry d hd).2.2⟩
    · rw [List.mem_singleton.mp hd]
      exact ⟨hlayout.pos, hlayout.stop.le⟩
  have hne : tgt.chunks ≠ [] := by
    intro hnil
    rw [hnil] at hcontiguous
    exact absurd hcontiguous hpos.ne
  have hempty : (SplitState.start directory).srcRanges.blocks = 0 := SortedRangeSet.blocks_empty
  obtain ⟨s, hloop, hout⟩ := ranges_of_split hlast hlayout.pos hsplit
  obtain ⟨s', first, pieces, hloop', -, hinv⟩ := (splitInv_start tgt src directory).loop
    (fun hblocks => absurd hempty hblocks.ne') (fun _ => hempty) List.drop_zero hcontiguous
    (.inl hne) (Nat.lt_succ_self _) hsrc (findsWithin_of_split hsplit)
  obtain rfl := splitLoop_unique hloop hloop'
  rw [splitLimited_iff_ranges hlast hinv.free_ranges hout, ← hsame]
  exact ranges_limited_iff hlast (hsame ▸ hlimit) hloop

end claim
/-- The split sources of two zip files are within the limit, but for the last one, if and only if
no group of chunks that is closed with images is overfilled by its last source piece. -/
theorem split_limited_iff (zip : ZipArchive) (hzip : zip.WellFormed) (zlib : Zlib)
    (blocksLimit : ℕ) (hlimit : 1 ≤ blocksLimit) (tgtFile srcFile : Bytes)
    (tgt src tgtImage srcImage : ZipModeImage) (fuel : ℕ) (out : SplitImages)
    (htgt : ZipModeImage.initializeZip zip false (blocksLimit * blockSize) tgtFile = some tgt)
    (hsrc : ZipModeImage.initializeZip zip true (blocksLimit * blockSize) srcFile = some src)
    (himages : (tgtImage, srcImage) = (tgt, src) ∨
      (tgtImage, srcImage) = checkAndProcessChunks zlib tgt src)
    (hsplit : splitZipModeImageWithLimit fuel tgtImage srcImage = some out) :
    SplitLimited srcImage out ↔ NeverOverfilled tgtImage srcImage := by
  obtain ⟨entries, directory, hchunks, hlayout, hsame, hvalue, hpos, hcontiguous⟩ :=
    zipImages_layout hzip hlimit htgt hsrc himages
  have hmod : srcImage.limit % blockSize = 0 := by
    rw [hvalue]
    exact Nat.mul_mod_left blocksLimit blockSize
  exact splitLimited_iff hchunks hlayout hsame hmod hpos hcontiguous hsplit

/-- Every pair of zip files is split into sources within the limit. -/
def LimitsEverySplit (zip : ZipArchive) (zlib : Zlib) : Prop :=
  ∀ (blocksLimit : ℕ) (tgtFile srcFile : Bytes) (tgt src tgtImage srcImage : ZipModeImage)
    (fuel : ℕ) (out : SplitImages), 1 ≤ blocksLimit →
    ZipModeImage.initializeZip zip false (blocksLimit * blockSize) tgtFile = some tgt →
      ZipModeImage.initializeZip zip true (blocksLimit * blockSize) srcFile = some src →
        (tgtImage, srcImage) = checkAndProcessChunks zlib tgt src →
          splitZipModeImageWithLimit fuel tgtImage srcImage = some out → SplitLimited srcImage out

/-! ### The split of a small file -/

section step
variable {tgt src : ZipModeImage} {s s' : SplitState} {c d : ImageChunk} {i fuel offset length : ℕ}

theorem splitStep_unmatched (h : findChunkByName src.chunks c.entryName true = none) :
    splitStep tgt src s c = some (s.pushPlain c, false) := by
  rw [splitStep, h]

theorem splitStep_used (h : findChunkByName src.chunks c.entryName true = some d)
    (hfits : 0 < d.rawDataLen ∧ d.rawDataLen ≤ tgt.limit)
    (hused : removeUsedBlocks d.start d.rawDataLen s.usedRanges = none) :
    splitStep tgt src s c = some (s.pushPlain c, false) := by
  rw [splitStep, h]
  dsimp only
  rw [if_pos hfits, hused]

theorem splitStep_normal (h : findChunkByName src.chunks c.entryName true = some d)
    (hfits : 0 < d.rawDataLen ∧ d.rawDataLen ≤ tgt.limit)
    (hunused : removeUsedBlocks d.start d.rawDataLen s.usedRanges = some (offset, length))
    (hroom : s.srcRanges.blocks * blockSize + length ≤ tgt.limit) (htype : d.type ≠ .deflate) :
    splitStep tgt src s c = some
      ({ s with srcRanges := s.srcRanges.insertPiece offset length }.pushPlain c, false) := by
  rw [splitStep, h]
  dsimp only
  rw [if_pos hfits, hunused]
  dsimp only
  rw [if_pos hroom, if_neg fun hdeflate => htype hdeflate.1]

theorem splitStep_full (h : findChunkByName src.chunks c.entryName true = some d)
    (hfits : 0 < d.rawDataLen ∧ d.rawDataLen ≤ tgt.limit)
    (hunused : removeUsedBlocks d.start d.rawDataLen s.usedRanges = some (offset, length))
    (hroom : ¬s.srcRanges.blocks * blockSize + length ≤ tgt.limit)
    {images : ZipModeImage × ZipModeImage}
    (hadd : addSplitImage tgt src s.srcRanges s.tgtChunks s.srcChunks = some (some images)) :
    splitStep tgt src s c = some (s.flush (some images), true) := by
  rw [splitStep, h]
  dsimp only
  rw [if_pos hfits, hunused]
  dsimp only
  rw [if_neg hroom, hadd, Option.map_some]

theorem SplitState.finish_eq {directory : ImageChunk} {images : ZipModeImage × ZipModeImage}
    (h : addSplitImage tgt src (s.srcRanges.insertPiece directory.start directory.rawDataLen)
      s.tgtChunks s.srcChunks = some (some images)) :
    s.finish tgt src directory = some
      ⟨s.tgtImages ++ [images.1], s.srcImages ++ [images.2],
        s.ranges ++ [s.srcRanges.insertPiece directory.start directory.rawDataLen]⟩ := by
  rw [SplitState.finish, h]

theorem splitZip_eq {directory : ImageChunk} {out : SplitImages} (hlimit : tgt.limit = src.limit)
    (hdirectory : src.chunks.getLast? = some directory) (htype : directory.type = .normal)
    (hloop : splitLoop tgt src fuel 0 (.start directory) = some s)
    (hfinish : s.finish tgt src directory = some out)
    (hvalid : validateSplitImages out tgt.fileContent.length = true) :
    splitZipModeImageWithLimit fuel tgt src = some out := by
  rw [splitZipModeImageWithLimit, if_neg (not_not.mpr hlimit), hdirectory]
  dsimp only
  rw [if_neg (not_not.mpr htype), hloop]
  dsimp only
  rw [hfinish]
  exact if_pos hvalid

end step

/-- A group of chunks that is not all in one block makes a pair of images. -/
theorem addSplitImage_eq {tgt src : ZipModeImage} {ranges : SortedRangeSet} {r : Range}
    {tgtChunks srcChunks aligned : List ImageChunk} (htgt : tgtChunks ≠ [])
    (haligned : alignChunks tgtChunks = aligned) (hne : aligned ≠ []) (hr : r ∈ ranges.ranges)
    (hlt : r.1 < r.2) (hinside : r.1 * blockSize < src.fileContent.length) :
    addSplitImage tgt src ranges tgtChunks srcChunks = some (some
      ({ isSource := false, limit := 0, fileContent := [],
         chunks := mergeAdjacentNormalChunks (alignEnd tgt.fileContent.length aligned) },
       { isSource := true, limit := 0, fileContent := contentOf src.fileContent ranges.ranges,
         chunks := srcChunks })) := by
  rw [addSplitImage, if_neg htgt, haligned, if_neg hne]
  exact if_neg (contentOf_ne_nil hr hlt hinside)

/-- A stored entry of a zip file, with its CRC-32. -/
structure StoredEntry where
  name : Bytes
  data : Bytes
  crc : Bytes

def bytesOf (n : ℕ) : ℕ → Bytes
  | 0 => []
  | width + 1 => UInt8.ofNat n :: bytesOf (n / 256) width

/-- What a local header and a record of the central directory have in common. -/
def StoredEntry.fields (e : StoredEntry) : Bytes :=
  [10, 0, 0, 0, 0, 0, 0, 0, 0, 0] ++ e.crc ++ bytesOf e.data.length 4 ++ bytesOf e.data.length 4 ++
    bytesOf e.name.length 2 ++ [0, 0]

def StoredEntry.local (e : StoredEntry) : Bytes :=
  [0x50, 0x4b, 3, 4] ++ (e.fields ++ (e.name ++ e.data))

/-- The records of the central directory for entries from `offset` on. -/
def centralRecords : ℕ → List StoredEntry → Bytes
  | _, [] => []
  | offset, e :: es =>
    [0x50, 0x4b, 1, 2, 10, 0] ++ e.fields ++ List.replicate 10 0 ++ bytesOf offset 4 ++ e.name ++
      centralRecords (offset + e.local.length) es

/-- The entries, the central directory and its end record. -/
def storedZipOf (es : List StoredEntry) : Bytes :=
  let entries := es.flatMap StoredEntry.local
  let directory := centralRecords 0 es
  entries ++ (directory ++ [0x50, 0x4b, 5, 6, 0, 0, 0, 0] ++ bytesOf es.length 2 ++
    bytesOf es.length 2 ++ bytesOf directory.length 4 ++ bytesOf entries.length 4 ++ [0, 0])

theorem bytesOf_length (n width : ℕ) : (bytesOf n width).length = width := by
  induction width generalizing n with
  | zero => rfl
  | succ width ih => rw [bytesOf, List.length_cons, ih]

theorem local_length {e : StoredEntry} (hcrc : e.crc.length = 4) :
    e.local.length = 30 + e.name.length + e.data.length := by
  simp only [StoredEntry.local, StoredEntry.fields, List.length_append, List.length_cons,
    List.length_nil, bytesOf_length, hcrc]
  omega

theorem centralRecords_length {es : List StoredEntry} (hcrc : ∀ e ∈ es, e.crc.length = 4)
    (offset : ℕ) : (centralRecords offset es).length =
      (es.map fun e => 46 + e.name.length).sum := by
  induction es generalizing offset with
  | nil => rfl
  | cons e es ih =>
    rw [List.forall_mem_cons] at hcrc
    simp only [centralRecords, StoredEntry.fields, List.length_append, List.length_cons,
      List.length_nil, List.length_replicate, bytesOf_length, hcrc.1, ih hcrc.2, List.map_cons,
      List.sum_cons]

theorem entries_length {es : List StoredEntry} (hcrc : ∀ e ∈ es, e.crc.length = 4) :
    (es.flatMap StoredEntry.local).length =
      (es.map fun e => 30 + e.name.length + e.data.length).sum := by
  induction es with
  | nil => rfl
  | cons e es ih =>
    rw [List.forall_mem_cons] at hcrc
    rw [List.flatMap_cons, List.length_append, ih hcrc.2, local_length hcrc.1, List.map_cons,
      List.sum_cons]

theorem storedZipOf_length {es : List StoredEntry} (hcrc : ∀ e ∈ es, e.crc.length = 4) :
    (storedZipOf es).length = (es.map fun e => 30 + e.name.length + e.data.length).sum +
      (es.map fun e => 46 + e.name.length).sum + 22 := by
  simp only [storedZipOf, List.length_append, entries_length hcrc, centralRecords_length hcrc,
    bytesOf_length, List.length_cons, List.length_nil]
  omega

theorem storedZipOf_size {es : List StoredEntry} (h : (storedZipOf es).length < 2 ^ 31) :
    getZipFileSize (storedZipOf es) = some (storedZipOf es).length := by
  have hsignature : field [0x50, 0x4b, 5, 6] 0 4 = 0x06054b50 := by decide
  have hzero : field [0, 0] 0 2 = 0 := by decide
  unfold storedZipOf at h ⊢
  simp only [List.append_assoc] at h ⊢
  rw [← List.append_assoc] at h ⊢
  refine getZipFileSize_endRecord ?_ hsignature hzero hzero ?_
  · simp only [List.length_append, bytesOf_length, List.length_cons, List.length_nil]
  · rw [List.length_append] at h
    exact (Nat.le_add_right _ _).trans_lt h

/-- The first entry is a block long, but starts behind its header. -/
def unalignedZip : Bytes :=
  storedZipOf [⟨[0x61], List.replicate 4096 0, [0x11, 0, 0x1c, 0xc7]⟩,
    ⟨[0x62], [0x78], [0x83, 0x16, 0xdc, 0x8c]⟩,
    ⟨[0x63], List.replicate 4096 0, [0x11, 0, 0x1c, 0xc7]⟩]

def unalignedArchive : ZipArchive where
  entries archive :=
    if archive.length = 8449 then
      some [⟨['a'], false, 31, 4096, some (List.replicate 4096 0)⟩,
        ⟨['b'], false, 4158, 1, some [0x78]⟩,
        ⟨['c'], false, 4190, 4096, some (List.replicate 4096 0)⟩]
    else none

theorem unalignedArchive_wellFormed : unalignedArchive.WellFormed := by
  have hcases : ∀ {archive es}, unalignedArchive.entries archive = some es →
      archive.length = 8449 ∧ (∀ e ∈ es, e.offset + e.compressedLength < 8449) ∧
        es.Pairwise fun e d => e.offset + e.compressedLength < d.offset ∨
          d.offset + d.compressedLength < e.offset := by
    intro archive es h
    rw [unalignedArchive] at h
    dsimp only at h
    rw [Option.ite_none_right_eq_some] at h
    obtain ⟨hlen, h⟩ := h
    rw [← Option.some.inj h]
    exact ⟨hlen, by decide, by decide⟩
  refine ⟨fun h e he => ?_, fun h => (hcases h).2.2⟩
  obtain ⟨hlen, hinside, -⟩ := hcases h
  exact (hinside e he).trans_eq hlen.symm

/-- There is nothing deflated in the file. -/
def noZlib : Zlib := ⟨fun _ _ => none⟩

theorem unalignedZip_length : unalignedZip.length = 8449 := by
  rw [unalignedZip, storedZipOf_length (by decide)]
  simp only [List.map_cons, List.map_nil, List.length_replicate, List.sum_cons, List.sum_nil,
    List.length_cons, List.length_nil]
  rfl

theorem unalignedZip_image (isSource : Bool) {chunks : List ImageChunk}
    (hchunks : ZipModeImage.initializeChunks isSource (1 * blockSize) unalignedZip
      [⟨['a'], false, 31, 4096, some (List.replicate 4096 0)⟩,
        ⟨['b'], false, 4158, 1, some [0x78]⟩,
        ⟨['c'], false, 4190, 4096, some (List.replicate 4096 0)⟩] = some chunks) :
    ZipModeImage.initializeZip unalignedArchive isSource (1 * blockSize) unalignedZip =
      some ⟨isSource, 1 * blockSize, unalignedZip, chunks⟩ := by
  have hsize : getZipFileSize unalignedZip = some unalignedZip.length := by
    apply storedZipOf_size
    change unalignedZip.length < 2 ^ 31
    rw [unalignedZip_length]
    decide
  refine initializeZip_eq hsize ?_ hchunks
  rw [unalignedArchive]
  dsimp only
  rw [if_pos unalignedZip_length]

/-- The chunks of the file as a source. -/
def unalignedEntries : List ImageChunk :=
  [.ofRange .normal 31 4096 ['a'], .ofRange .normal 4158 1 ['b'], .ofRange .normal 4190 4096 ['c'],
    .plain 8286 163]

/-- The chunks of the file as a target. -/
def unalignedChunks : List ImageChunk :=
  [.plain 0 31, .ofRange .normal 31 4096 ['a'], .plain 4127 31, .ofRange .normal 4158 1 ['b'],
    .plain 4159 31, .ofRange .normal 4190 4096 ['c'], .plain 8286 163]

/-- The state where the second entry does not fit any more. -/
def unalignedGroup : SplitState where
  usedRanges := SortedRangeSet.empty.insertPiece 8286 163
  srcRanges := SortedRangeSet.empty.insertPiece 31 4096
  srcChunks := []
  tgtChunks := [.plain 0 31, .plain 31 4096, .plain 4127 31]
  tgtImages := []
  srcImages := []
  ranges := []

/-- The state behind the last chunk. -/
def unalignedRest (images : ZipModeImage × ZipModeImage) : SplitState where
  usedRanges := unalignedGroup.usedRanges.insert unalignedGroup.srcRanges
  srcRanges := .empty
  srcChunks := []
  tgtChunks := [.plain 4158 1, .plain 4159 31, .plain 4190 4096, .plain 8286 163]
  tgtImages := [images.1]
  srcImages := [images.2]
  ranges := [unalignedGroup.srcRanges]

/-- With any content of this length, the file is split in two. -/
theorem split_unaligned_of_length {file : Bytes} (hfile : file.length = 8449) :
    (splitZipModeImageWithLimit 20 ⟨false, 1 * blockSize, file, unalignedChunks⟩
      ⟨true, 1 * blockSize, file, unalignedEntries⟩).map
        (fun out => out.ranges.map SortedRangeSet.blocks) = some [2, 1] := by
  generalize htgt : ZipModeImage.mk false (1 * blockSize) file unalignedChunks = tgt
  generalize hsrc : ZipModeImage.mk true (1 * blockSize) file unalignedEntries = src
  have htgtLimit : tgt.limit = 1 * blockSize := by rw [← htgt]
  have htgtChunks : tgt.chunks = unalignedChunks := by rw [← htgt]
  have hsrcChunks : src.chunks = unalignedEntries := by rw [← hsrc]
  have htgtLength : tgt.fileContent.length = 8449 := by rw [← htgt, hfile]
  have hsrcLength : src.fileContent.length = 8449 := by rw [← hsrc, hfile]
  have hnone : ∀ c : ImageChunk, c.entryName = [] →
      findChunkByName src.chunks c.entryName true = none := fun c hc => by
    rw [findChunkByName, if_pos hc]
  have hchunk : ∀ i : ℕ, tgt.chunks[i]? = unalignedChunks[i]? := fun i => by rw [htgtChunks]
  have hsecond : findChunkByName src.chunks ['b'] true = some (.ofRange .normal 4158 1 ['b']) := by
    rw [hsrcChunks]
    rfl
  have hthird : findChunkByName src.chunks ['c'] true =
      some (.ofRange .normal 4190 4096 ['c']) := by
    rw [hsrcChunks]
    rfl
  have hfits : ∀ n ≤ 4096, n ≤ tgt.limit := fun n hn => by rwa [htgtLimit]
  have hgroup : splitLoop tgt src 20 0 (.start (.plain 8286 163)) =
      splitLoop tgt src 17 3 unalignedGroup := by
    have hfirst : findChunkByName src.chunks ['a'] true =
        some (.ofRange .normal 31 4096 ['a']) := by
      rw [hsrcChunks]
      rfl
    rw [splitLoop_step (hchunk 0) (splitStep_unmatched (hnone _ rfl)),
      splitLoop_step (hchunk 1) (@splitStep_normal tgt src _ _ _ 31 4096 hfirst
        ⟨by decide, hfits _ le_rfl⟩ (by decide +kernel) (hfits _ (by decide +kernel)) (by decide)),
      splitLoop_step (hchunk 2) (splitStep_unmatched (hnone _ rfl))]
    rfl
  obtain ⟨first, hfirst, hfirstChunks⟩ : ∃ images, addSplitImage tgt src unalignedGroup.srcRanges
      unalignedGroup.tgtChunks unalignedGroup.srcChunks = some (some images) ∧
        images.1.chunks = [.plain 0 8192] := by
    refine ⟨_, @addSplitImage_eq tgt src unalignedGroup.srcRanges (0, 2) _ _ _ (by decide) rfl
      (by decide +kernel) (by decide +kernel) (by decide) (by rw [hsrcLength]; decide), ?_⟩
    dsimp only
    rw [htgtLength]
    decide +kernel
  have hused : removeUsedBlocks 4158 1
      (unalignedGroup.usedRanges.insert unalignedGroup.srcRanges) = none := by decide +kernel
  have hused' : removeUsedBlocks 4190 4096
      (unalignedGroup.usedRanges.insert unalignedGroup.srcRanges) = none := by decide +kernel
  have hrest : splitLoop tgt src 17 3 unalignedGroup = some (unalignedRest first) := by
    rw [splitLoop_again (by decide) (hchunk 3)
        (splitStep_full hsecond ⟨by decide, hfits _ (by decide)⟩
          (by decide +kernel : _ = some (4158, 1)) (by rw [htgtLimit]; decide +kernel) hfirst),
      splitLoop_step (hchunk 3) (@splitStep_used tgt src (unalignedGroup.flush (some first)) _ _
        hsecond ⟨by decide, hfits _ (by decide)⟩ hused),
      splitLoop_step (hchunk 4) (splitStep_unmatched (hnone _ rfl)),
      splitLoop_step (hchunk 5) (@splitStep_used tgt src
        (((unalignedGroup.flush (some first)).pushPlain (.ofRange .normal 4158 1 ['b'])).pushPlain
          (.plain 4159 31)) _ _ hthird ⟨by decide, hfits _ le_rfl⟩ hused'),
      splitLoop_step (hchunk 6) (splitStep_unmatched (hnone _ rfl)), splitLoop, hchunk 7]
    rfl
  obtain ⟨last, hlast, hlastChunks⟩ : ∃ images, addSplitImage tgt src
      (SortedRangeSet.empty.insertPiece 8286 163)
      [.plain 4158 1, .plain 4159 31, .plain 4190 4096, .plain 8286 163] [] =
        some (some images) ∧ images.1.chunks = [.plain 8192 257] := by
    refine ⟨_, @addSplitImage_eq tgt src (SortedRangeSet.empty.insertPiece 8286 163) (2, 3) _ _ _
      (by decide) rfl (by decide +kernel) (by decide +kernel) (by decide)
      (by rw [hsrcLength]; decide), ?_⟩
    dsimp only
    rw [htgtLength]
    decide +kernel
  have hvalid : validateSplitImages ⟨[first.1, last.1], [first.2, last.2],
      [unalignedGroup.srcRanges, SortedRangeSet.empty.insertPiece 8286 163]⟩ 8449 = true := by
    simp only [validateSplitImages, targetsEnd, hfirstChunks, hlastChunks, List.length_cons,
      List.length_nil]
    decide +kernel
  have hdirectory : src.chunks.getLast? = some (.plain 8286 163) := by
    rw [hsrcChunks]
    rfl
  have hlimit : tgt.limit = src.limit := by rw [htgtLimit, ← hsrc]
  have hfinish : (unalignedRest first).finish tgt src (.plain 8286 163) = some
      ⟨[first.1, last.1], [first.2, last.2],
        [unalignedGroup.srcRanges, SortedRangeSet.empty.insertPiece 8286 163]⟩ :=
    SplitState.finish_eq hlast
  rw [← htgtLength] at hvalid
  have hsplit := splitZip_eq hlimit hdirectory rfl (hgroup.trans hrest) hfinish hvalid
  have hblocks : [unalignedGroup.srcRanges, SortedRangeSet.empty.insertPiece 8286 163].map
      SortedRangeSet.blocks = [2, 1] := by decide +kernel
  rw [hsplit, Option.map_some, hblocks]

theorem unalignedZip_images :
    ZipModeImage.initializeZip unalignedArchive false (1 * blockSize) unalignedZip =
        some ⟨false, 1 * blockSize, unalignedZip, unalignedChunks⟩ ∧
      ZipModeImage.initializeZip unalignedArchive true (1 * blockSize) unalignedZip =
        some ⟨true, 1 * blockSize, unalignedZip, unalignedEntries⟩ := by
  constructor
  · apply unalignedZip_image
    rw [ZipModeImage.initializeChunks, if_neg Bool.false_ne_true, unalignedZip_length]
    rfl
  · apply unalignedZip_image
    rw [ZipModeImage.initializeChunks, if_pos rfl, sourceChunks, unalignedZip_length]
    rfl

/-- The first split source has a block more than the limit of one. -/
theorem split_unalignedZip : ∃ tgt src out,
    ZipModeImage.initializeZip unalignedArchive false (1 * blockSize) unalignedZip = some tgt ∧
      ZipModeImage.initializeZip unalignedArchive true (1 * blockSize) unalignedZip = some src ∧
        splitZipModeImageWithLimit 20 (checkAndProcessChunks noZlib tgt src).1
            (checkAndProcessChunks noZlib tgt src).2 = some out ∧
          out.ranges.map SortedRangeSet.blocks = [2, 1] := by
  obtain ⟨out, hout, hblocks⟩ := Option.map_eq_some_iff.mp
    (split_unaligned_of_length unalignedZip_length)
  exact ⟨_, _, out, unalignedZip_images.1, unalignedZip_images.2, hout, hblocks⟩

/-- A file split against itself: its first entry is a block long, and touches two blocks. -/
theorem not_limitsEverySplit :
    unalignedArchive.WellFormed ∧ ¬LimitsEverySplit unalignedArchive noZlib := by
  refine ⟨unalignedArchive_wellFormed, fun h => ?_⟩
  obtain ⟨tgt, src, out, htgt, hsrc, hout, hblocks⟩ := split_unalignedZip
  obtain ⟨entries, directory, hchunks, -, -, hvalue, -⟩ :=
    zipImages_layout unalignedArchive_wellFormed le_rfl htgt hsrc
      (.inr (Prod.mk.eta (p := checkAndProcessChunks noZlib tgt src)))
  have hlen : out.ranges.length = 2 := by
    rw [← List.length_map SortedRangeSet.blocks, hblocks]
    rfl
  have hfirst : (out.ranges[0]?).map SortedRangeSet.blocks = some 2 := by
    rw [← List.getElem?_map, hblocks]
    rfl
  obtain ⟨r, hr, hr2⟩ := Option.map_eq_some_iff.mp hfirst
  have hlast : (checkAndProcessChunks noZlib tgt src).2.chunks.getLast? = some directory := by
    rw [hchunks, List.getLast?_concat]
  have hlimited : SplitLimited (checkAndProcessChunks noZlib tgt src).2 out :=
    h 1 unalignedZip unalignedZip tgt src _ _ 20 out le_rfl htgt hsrc rfl hout
  have hle := hlimited directory hlast 0 r hr fun hone => by omega
  rw [hr2, hvalue] at hle
  exact absurd hle (by decide)

/-- The same split. -/
theorem split_limited_unalignedZip : ∃ tgt src out,
    splitZipModeImageWithLimit 20 (checkAndProcessChunks noZlib tgt src).1
        (checkAndProcessChunks noZlib tgt src).2 = some out ∧
      (SplitLimited (checkAndProcessChunks noZlib tgt src).2 out ↔
        NeverOverfilled (checkAndProcessChunks noZlib tgt src).1
          (checkAndProcessChunks noZlib tgt src).2) := by
  obtain ⟨tgt, src, out, htgt, hsrc, hout, -⟩ := split_unalignedZip
  exact ⟨tgt, src, out, hout,
    split_limited_iff unalignedArchive unalignedArchive_wellFormed noZlib 1
    le_rfl unalignedZip unalignedZip tgt src _ _ 20 out htgt hsrc (.inr rfl) hout⟩

end BootableRecovery.Applypatch
