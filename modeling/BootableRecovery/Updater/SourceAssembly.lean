import BootableRecovery.Updater.BlockImg
import Mathlib.Data.List.Perm.Subperm

namespace BootableRecovery.Updater
open Lib Otautil

/-! The source buffer: what `MoveRange` leaves in it, with `ReadAll` and `LoadSourceBlocks`. -/

/-- The bytes of the ranges. -/
def pieces (bs : ℕ) (rs : List Range) : List (ℕ × ℕ) :=
  rs.map fun r => (r.1 * bs, (r.2 - r.1) * bs)

def blockAt (bs : ℕ) (buffer : Bytes) (b : ℕ) : Bytes := slice buffer (b * bs) bs

/-- The ranges lie one behind the other in a buffer of `n` blocks. -/
structure Located (locs : RangeSet) (n : ℕ) : Prop where
  sorted : locs.ranges.Pairwise fun r s => r.2 ≤ s.1
  inside : ∀ b ∈ locs.expand, b < n

section moveRange
variable {source : Option Bytes} {dest : Bytes} {bs n : ℕ}

theorem packedLength_pieces (bs : ℕ) (rs : List Range) :
    packedLength (pieces bs rs) = (expandRanges rs).length * bs := by
  induction rs with
  | nil => exact (Nat.zero_mul _).symm
  | cons r rs ih =>
    rw [expandRanges_cons, List.length_append, List.length_range', Nat.add_mul, ← ih]
    rfl

theorem pieces_flatMap (bs : ℕ) (buffer : Bytes) (rs : List Range) :
    (pieces bs rs).flatMap (fun p => slice buffer p.1 p.2) =
      (expandRanges rs).flatMap (blockAt bs buffer) := by
  induction rs with
  | nil => rfl
  | cons r rs ih =>
    rw [expandRanges_cons, List.flatMap_append, ← ih]
    exact congrArg (· ++ _) (slice_blocks buffer bs r.1 (r.2 - r.1))

theorem range_le_of_inside {locs : RangeSet} (hin : ∀ b ∈ locs.expand, b < n) :
    ∀ r ∈ locs.ranges, r.2 ≤ n := by
  intro r hr
  have hlt := locs.proper r hr
  have hlast : r.2 - 1 ∈ locs.expand :=
    RangeSet.mem_expandRanges.mpr ⟨r, hr, by omega, by omega⟩
  have := hin _ hlast
  omega

theorem Located.ascending {locs : RangeSet} (h : Located locs n) (hn : n * bs ≤ dest.length) :
    Ascending (pieces bs locs.ranges) dest.length := by
  have hend : ∀ r ∈ locs.ranges, r.1 * bs + (r.2 - r.1) * bs = r.2 * bs := fun r hr => by
    have := locs.proper r hr
    rw [← Nat.add_mul, Nat.add_sub_cancel' (by omega)]
  constructor
  · intro p hp
    obtain ⟨r, hr, rfl⟩ := List.mem_map.mp hp
    exact (hend r hr).trans_le
      ((Nat.mul_le_mul_right bs (range_le_of_inside h.inside r hr)).trans hn)
  · rw [pieces, List.pairwise_map]
    refine h.sorted.imp_of_mem fun {r s} hr _ hle => ?_
    exact (hend r hr).trans_le (Nat.mul_le_mul_right bs hle)

/-- What the loop has done when the ranges `rs` are behind it. -/
theorem foldr_moveStep {rs : List Range} (hfit : ∀ p ∈ pieces bs rs, p.1 + p.2 ≤ dest.length)
    (start : ℕ)
    (hsource : (start + (expandRanges rs).length) * bs ≤ (source.getD dest).length) :
    rs.foldr (moveStep source bs) (some (dest, start + (expandRanges rs).length)) =
      some (unpack source dest (pieces bs rs) (start * bs), start) := by
  induction rs generalizing start with
  | nil => rfl
  | cons r rs ih =>
    have htail : ∀ p ∈ pieces bs rs, p.1 + p.2 ≤ dest.length :=
      fun p hp => hfit p (List.mem_cons_of_mem _ hp)
    have hr : r.1 * bs + (r.2 - r.1) * bs ≤ dest.length := hfit (r.1 * bs, _) List.mem_cons_self
    have htotal : start + (expandRanges (r :: rs)).length =
        start + (r.2 - r.1) + (expandRanges rs).length := by
      rw [expandRanges_cons, List.length_append, List.length_range', Nat.add_assoc]
    rw [htotal] at hsource
    have hdest : (source.getD (unpack source dest (pieces bs rs)
        ((start + (r.2 - r.1)) * bs))).length = (source.getD dest).length := by
      cases source with
      | some source => rfl
      | none => exact unpack_length htail
    have hpacked : start * bs + (r.2 - r.1) * bs ≤ (source.getD dest).length := by
      rw [← Nat.add_mul]
      exact (Nat.mul_le_mul_right bs (Nat.le_add_right _ _)).trans hsource
    have hnext : start * bs + (r.2 - r.1) * bs = (start + (r.2 - r.1)) * bs := by rw [Nat.add_mul]
    rw [List.foldr_cons, htotal, ih htail (start + (r.2 - r.1)) hsource, moveStep,
      Nat.add_sub_cancel, memmove, if_pos]
    · rw [← hnext]
      rfl
    · rw [hdest, unpack_length htail]
      exact ⟨hpacked, hr⟩

/-- `MoveRange` puts the packed data to their places. -/
theorem moveRange_eq {locs : RangeSet} (h : Located locs n) (hn : n * bs ≤ dest.length)
    (hsource : locs.blocks * bs ≤ (source.getD dest).length) :
    moveRange dest locs source bs = some (unpack source dest (pieces bs locs.ranges) 0) := by
  have hfold := foldr_moveStep (h.ascending hn).inside 0
    ((congrArg (· * bs) (Nat.zero_add _)).trans_le hsource)
  rw [Nat.zero_add, Nat.zero_mul] at hfold
  rw [moveRange, RangeSet.blocks, RangeSet.expand, hfold]
  rfl

/-- What lies in the buffer after `MoveRange`. -/
structure Moved (source : Option Bytes) (dest : Bytes) (locs : RangeSet) (bs : ℕ)
    (result : Bytes) : Prop where
  length : result.length = dest.length
  places : ∀ i b, locs.getBlockNumber i = some b →
    blockAt bs result b = blockAt bs (source.getD dest) i
  others : ∀ b, b ∉ locs.expand → blockAt bs result b = blockAt bs dest b

theorem moveRange_moved {locs : RangeSet} (h : Located locs n) (hn : n * bs ≤ dest.length)
    (hsource : locs.blocks * bs ≤ (source.getD dest).length) :
    ∃ result, moveRange dest locs source bs = some result ∧ Moved source dest locs bs result := by
  have hasc := h.ascending hn
  have htotal : packedLength (pieces bs locs.ranges) = locs.blocks * bs :=
    packedLength_pieces bs locs.ranges
  refine ⟨_, moveRange_eq h hn hsource, unpack_length hasc.inside, fun i b hi => ?_,
    fun b hb => ?_⟩
  · have hplaces := unpack_places hasc (fun _ _ => Nat.zero_le _)
      (((Nat.zero_add _).trans htotal).trans_le hsource)
    rw [htotal, pieces_flatMap] at hplaces
    rw [RangeSet.getBlockNumber_eq] at hi
    have hlt : i < locs.blocks := (List.getElem?_eq_some_iff.mp hi).1
    have hlen : ∀ c ∈ expandRanges locs.ranges,
        (blockAt bs (unpack source dest (pieces bs locs.ranges) 0) c).length = bs := fun c hc => by
      have hc := Nat.mul_le_mul_right bs (Nat.succ_le_of_lt (h.inside c hc))
      rw [Nat.succ_mul] at hc
      exact slice_length ((hc.trans hn).trans_eq (unpack_length hasc.inside).symm)
    have hwhole : i * bs + bs ≤ locs.blocks * bs := by
      rw [← Nat.succ_mul]
      exact Nat.mul_le_mul_right bs hlt
    rw [← slice_flatMap hlen hi, hplaces]
    refine slice_congr fun k hle hk => ?_
    rw [slice_getElem?, if_pos (by omega), Nat.zero_add]
  · refine slice_congr fun k hle hk => unpack_getElem? hasc.inside k fun p hp => ?_
    obtain ⟨r, hr, rfl⟩ := List.mem_map.mp hp
    have hlt := locs.proper r hr
    have hout : b < r.1 ∨ r.2 ≤ b := by
      by_contra hmid
      exact hb (RangeSet.mem_expandRanges.mpr ⟨r, hr, by omega, by omega⟩)
    have hend : r.1 * bs + (r.2 - r.1) * bs = r.2 * bs := by
      rw [← Nat.add_mul, Nat.add_sub_cancel' (by omega)]
    rcases hout with hout | hout
    · have := Nat.mul_le_mul_right bs (Nat.succ_le_of_lt hout)
      rw [Nat.succ_mul] at this
      exact .inl (by omega)
    · have := Nat.mul_le_mul_right bs hout
      exact .inr (by dsimp only; omega)

theorem expandRanges_sorted {rs : List Range} (hproper : ∀ r ∈ rs, r.1 < r.2)
    (hsorted : rs.Pairwise fun r s => r.2 ≤ s.1) : (expandRanges rs).Pairwise (· < ·) := by
  induction rs with
  | nil => exact List.Pairwise.nil
  | cons r rs ih =>
    obtain ⟨hfirst, hrest⟩ := List.pairwise_cons.mp hsorted
    rw [expandRanges_cons, List.pairwise_append]
    refine ⟨List.pairwise_lt_range', ih (fun s hs => hproper s (List.mem_cons_of_mem _ hs)) hrest,
      fun a ha b hb => ?_⟩
    obtain ⟨s, hs, hle, -⟩ := RangeSet.mem_expandRanges.mp hb
    have hlt := (List.mem_range'_1.mp ha).2
    have hr := hproper r List.mem_cons_self
    have := hfirst s hs
    omega

theorem length_le_of_sorted {l : List ℕ} (h : l.Pairwise (· < ·)) (hin : ∀ b ∈ l, b < n) :
    l.length ≤ n := by
  have hnodup : l.Nodup := h.imp fun hlt => hlt.ne
  have hsub : l ⊆ List.range n := fun b hb => List.mem_range.mpr (hin b hb)
  have hle := (List.Nodup.subperm hnodup hsub).length_le
  rwa [List.length_range] at hle

theorem Located.blocks_le {locs : RangeSet} (h : Located locs n) : locs.blocks ≤ n :=
  length_le_of_sorted (expandRanges_sorted locs.proper h.sorted) h.inside

/-- In one buffer, what is not moved yet is still where it was read to. -/
theorem moveStep_unmoved {locs : RangeSet} {packed : Bytes} (h : Located locs n)
    (hn : n * bs ≤ packed.length) {front back : List Range} (hsplit : locs.ranges = front ++ back) :
    ∃ dest, back.foldr (moveStep none bs) (some (packed, locs.blocks)) =
        some (dest, (expandRanges front).length) ∧
      slice dest 0 ((expandRanges front).length * bs) =
        slice packed 0 ((expandRanges front).length * bs) := by
  have hasc := h.ascending hn
  have htotal : locs.blocks = (expandRanges front).length + (expandRanges back).length := by
    rw [RangeSet.blocks, RangeSet.expand, hsplit, expandRanges_append, List.length_append]
  have hback : ∀ p ∈ pieces bs back, p.1 + p.2 ≤ packed.length := fun p hp =>
    hasc.inside p (by rw [hsplit, pieces, List.map_append]; exact List.mem_append_right _ hp)
  have hpacked : ((expandRanges front).length + (expandRanges back).length) * bs ≤
      packed.length := by
    rw [← htotal]
    exact (Nat.mul_le_mul_right bs h.blocks_le).trans hn
  have hsorted := h.sorted
  rw [hsplit, List.pairwise_append] at hsorted
  have hproper : ∀ r ∈ front, r.1 < r.2 := fun r hr =>
    locs.proper r (by rw [hsplit]; exact List.mem_append_left _ hr)
  refine ⟨_, (congrArg (fun total => back.foldr (moveStep none bs) (some (packed, total)))
    htotal).trans (foldr_moveStep hback _ hpacked), ?_⟩
  refine slice_congr fun i _ hlt => unpack_getElem? hback i fun p hp => .inl ?_
  obtain ⟨r, hr, rfl⟩ := List.mem_map.mp hp
  have hahead : (expandRanges front).length ≤ r.1 := by
    refine length_le_of_sorted (expandRanges_sorted hproper hsorted.1) fun b hb => ?_
    obtain ⟨s, hs, -, hlt⟩ := RangeSet.mem_expandRanges.mp hb
    have := hsorted.2.2 s hs r hr
    omega
  have := Nat.mul_le_mul_right bs hahead
  dsimp only
  omega

theorem moveRange_take {locs : RangeSet} {data : Bytes} (h : Located locs n)
    (hn : n * bs ≤ dest.length) (hdata : locs.blocks * bs ≤ data.length) :
    moveRange dest locs (some (data.take (locs.blocks * bs))) bs =
      moveRange dest locs (some data) bs := by
  have htotal : packedLength (pieces bs locs.ranges) = locs.blocks * bs :=
    packedLength_pieces bs locs.ranges
  have htake : locs.blocks * bs ≤ ((some (data.take (locs.blocks * bs))).getD dest).length :=
    (List.length_take_of_le hdata).ge
  have hall : locs.blocks * bs ≤ ((some data).getD dest).length := hdata
  rw [moveRange_eq h hn htake, moveRange_eq h hn hall]
  refine congrArg some (unpack_source_congr fun i _ hlt => ?_)
  rw [htotal] at hlt
  rw [List.getElem?_take, if_pos (by omega)]

end moveRange

section readBlocks
variable {host : Host} {m : Moment}

def Host.content (host : Host) (m : Moment) (b : ℕ) : Bytes := (host.block m b).getD []

theorem readRange_eq {b n : ℕ} {data : Bytes} (h : host.readRange m b n = some data) :
    (∀ c ∈ List.range' b n, host.block m c = some (host.content m c)) ∧
      data = (List.range' b n).flatMap (host.content m) := by
  induction n generalizing b data with
  | zero =>
    cases h
    exact ⟨nofun, rfl⟩
  | succ n ih =>
    rw [Host.readRange] at h
    split at h
    case h_2 => cases h
    case h_1 first rest hfirst hrest =>
      cases h
      obtain ⟨hblocks, rfl⟩ := ih hrest
      have hcontent : host.content m b = first := by rw [Host.content, hfirst, Option.getD_some]
      rw [List.range'_succ, List.flatMap_cons, hcontent]
      refine ⟨fun c hc => ?_, rfl⟩
      rcases List.mem_cons.mp hc with rfl | hc
      · rw [hfirst, hcontent]
      · exact hblocks c hc

theorem content_length {b : ℕ} (h : host.block m b = some (host.content m b)) :
    (host.content m b).length = blockSize := host.block_length m b _ h

/-- A range that can be read is stored as a whole. -/
theorem bytesStored_eq {b n : ℕ} {data : Bytes} (h : host.readRange m b n = some data) :
    host.bytesStored m b n = n * blockSize := by
  induction n generalizing b data with
  | zero => exact (Nat.zero_mul _).symm
  | succ n ih =>
    rw [Host.readRange] at h
    split at h
    case h_2 => cases h
    case h_1 first rest hfirst hrest =>
      rw [Host.bytesStored, hfirst]
      dsimp only
      rw [ih hrest, host.block_length m b first hfirst, Nat.succ_mul, Nat.add_comm]

theorem readRanges_eq {rs : List Range} {p : ℕ} {buffer packed : Bytes} (hp : p ≤ buffer.length)
    (h : host.readRanges m rs p buffer = .ok (true, packed)) :
    p + (expandRanges rs).length * blockSize ≤ buffer.length ∧
      (∀ b ∈ expandRanges rs, host.block m b = some (host.content m b)) ∧
      packed = splice buffer p ((expandRanges rs).flatMap (host.content m)) := by
  induction rs generalizing p buffer with
  | nil =>
    cases h
    exact ⟨by rwa [expandRanges_nil, List.length_nil, Nat.zero_mul], nofun, (splice_nil _ _).symm⟩
  | cons r rs ih =>
    rw [Host.readRanges] at h
    split_ifs at h with hseek hfit
    · cases h
    split at h
    case h_1 => cases h
    case h_2 data hdata =>
      rw [bytesStored_eq hdata] at hfit
      obtain ⟨hblocks, rfl⟩ := readRange_eq hdata
      have hlen : ((List.range' r.1 (r.2 - r.1)).flatMap (host.content m)).length =
          (r.2 - r.1) * blockSize := by
        rw [flatMap_length_uniform fun b hb => content_length (hblocks b hb), List.length_range']
      have hsplice : (splice buffer p
          ((List.range' r.1 (r.2 - r.1)).flatMap (host.content m))).length = buffer.length :=
        splice_length (by omega)
      obtain ⟨hrest, hmem, rfl⟩ := ih (by omega) h
      rw [hsplice] at hrest
      refine ⟨?_, fun b hb => ?_, ?_⟩
      · rw [expandRanges_cons, List.length_append, List.length_range', Nat.add_mul]
        omega
      · rw [expandRanges_cons] at hb
        exact (List.mem_append.mp hb).elim (hblocks b) (hmem b)
      · rw [expandRanges_cons, List.flatMap_append, ← hlen, splice_splice hp]

/-- `ReadBlocks` puts the blocks of the source to the front of the buffer. -/
theorem readBlocks_eq {src : RangeSet} {buffer packed : Bytes}
    (h : host.readBlocks m src buffer = .ok (true, packed)) :
    packed.length = buffer.length ∧ src.blocks * blockSize ≤ buffer.length ∧
      ∀ i b, src.getBlockNumber i = some b → host.block m b =
        some (blockAt blockSize packed i) := by
  obtain ⟨hfit, hblocks, rfl⟩ := readRanges_eq (Nat.zero_le _) h
  have hcontent : ∀ b ∈ expandRanges src.ranges, (host.content m b).length = blockSize :=
    fun b hb => content_length (hblocks b hb)
  have hlen := flatMap_length_uniform hcontent
  have hbound : src.blocks * blockSize ≤ buffer.length := (Nat.zero_add _).symm.trans_le hfit
  refine ⟨splice_length (by rw [hlen]; exact hfit), hbound, fun i b hi => ?_⟩
  have hlt : i < src.blocks := by
    rw [RangeSet.getBlockNumber_eq] at hi
    exact (List.getElem?_eq_some_iff.mp hi).1
  rw [RangeSet.getBlockNumber_eq] at hi
  have hwhole : i * blockSize + blockSize ≤ src.blocks * blockSize := by
    rw [← Nat.succ_mul]
    exact Nat.mul_le_mul_right _ hlt
  rw [hblocks b (List.mem_of_getElem? hi), ← slice_flatMap hcontent hi]
  refine congrArg some (slice_congr fun k hle hk => ?_)
  have hk' : k < ((expandRanges src.ranges).flatMap (host.content m)).length := by
    rw [hlen]
    exact hk.trans_le hwhole
  rw [splice_getElem? (Nat.zero_le _), if_neg (Nat.not_lt_zero _), if_pos (by omega),
    Nat.sub_zero]

end readBlocks

/-- The places of the source blocks and of the stashes are apart, in a buffer of `n` blocks. -/
structure Assembles (source : SourceInfo) (n : ℕ) : Prop where
  location : Located source.location n
  stashes : ∀ s ∈ source.stashes, Located s.ranges n
  apart : (source.location :: source.stashes.map StashInfo.ranges).Pairwise fun a b =>
    List.Disjoint a.expand b.expand

/-- What `LoadStash` gives for a stash, which `stash_reader` reads as well. -/
inductive StashRead (host : Host) (stashReader : Text → Bytes → ℤ × Bytes) (s : StashInfo) :
    Option Bytes → Prop
  | loaded (data : Bytes) (hload : host.loadStash .source s.id false [] = .ok (true, data, []))
      (hlen : s.ranges.blocks * blockSize ≤ data.length)
      (hread : stashReader s.id (List.replicate (u64 (s.ranges.blocks * blockSize)) 0) =
        (0, data.take (s.ranges.blocks * blockSize))) : StashRead host stashReader s (some data)
  | missing (buffer : Bytes) (deleted : List Effect)
      (hload : host.loadStash .source s.id false [] = .ok (false, buffer, deleted))
      (hread : (stashReader s.id
        (List.replicate (u64 (s.ranges.blocks * blockSize)) 0)).1 ≠ 0) :
      StashRead host stashReader s none

section stashes
variable {host : Host} {stashReader : Text → Bytes → ℤ × Bytes}
  {contents : StashInfo → Option Bytes} {stashes : List StashInfo} {buffer result : Bytes} {n : ℕ}

/-- What the stashes leave in the buffer. -/
structure StashesPlaced (contents : StashInfo → Option Bytes) (stashes : List StashInfo)
    (buffer result : Bytes) : Prop where
  length : result.length = buffer.length
  places : ∀ s ∈ stashes, ∀ data, contents s = some data → ∀ i b,
    s.ranges.getBlockNumber i = some b → blockAt blockSize result b = blockAt blockSize data i
  others : ∀ b, (∀ s ∈ stashes, b ∉ s.ranges.expand) →
    blockAt blockSize result b = blockAt blockSize buffer b

/-- The stashes as `ReadAll` reads them. -/
def ReadsStashes (stashReader : Text → Bytes → ℤ × Bytes) (contents : StashInfo → Option Bytes)
    (stashes : List StashInfo) (buffer result : Bytes) : Prop :=
  if ∀ s ∈ stashes, contents s ≠ none then
    SourceInfo.readStashes blockSize stashReader stashes buffer = some (true, result)
  else ∃ part, SourceInfo.readStashes blockSize stashReader stashes buffer = some (false, part)

theorem exists_stashesPlaced (hreads : ∀ s ∈ stashes, StashRead host stashReader s (contents s))
    (hlocated : ∀ s ∈ stashes, Located s.ranges n) (hn : n * blockSize ≤ buffer.length)
    (happ : stashes.Pairwise fun s t => List.Disjoint s.ranges.expand t.ranges.expand) :
    ∃ result, StashesPlaced contents stashes buffer result ∧
      ReadsStashes stashReader contents stashes buffer result ∧
      ∀ parseUint words, Command.parseStashes parseUint words = .ok stashes →
        loadStashes parseUint host words buffer = .ok result := by
  induction stashes generalizing buffer with
  | nil =>
    refine ⟨buffer, ⟨rfl, nofun, fun _ _ => rfl⟩, ?_, fun parseUint words hwords => ?_⟩
    · rw [ReadsStashes, if_pos nofun]
      rfl
    · cases words with
      | nil => rfl
      | cons word words =>
        obtain ⟨_, _, _, _, -, -, -, hcons⟩ := parseStashes_cons hwords
        cases hcons
  | cons s stashes ih =>
    obtain ⟨hfirst, hrest⟩ := List.pairwise_cons.mp happ
    have hreads' : ∀ t ∈ stashes, StashRead host stashReader t (contents t) :=
      fun t ht => hreads t (List.mem_cons_of_mem _ ht)
    have hlocated' : ∀ t ∈ stashes, Located t.ranges n :=
      fun t ht => hlocated t (List.mem_cons_of_mem _ ht)
    have hs := hlocated s List.mem_cons_self
    generalize hcontent : contents s = content
    have hread := hreads s List.mem_cons_self
    rw [hcontent] at hread
    cases hread with
    | loaded data hload hlen hreader =>
      obtain ⟨moved, hmove, hmoved⟩ : ∃ moved, moveRange buffer s.ranges (some data) blockSize =
          some moved ∧ Moved (some data) buffer s.ranges blockSize moved :=
        moveRange_moved hs hn hlen
      obtain ⟨result, hplaced, hall, hwords⟩ :=
        ih hreads' hlocated' (hmoved.length ▸ hn) hrest
      refine ⟨result, ⟨hplaced.length.trans hmoved.length, fun t ht data' hdata' i b hi => ?_,
        fun b hb => ?_⟩, ?_, fun parseUint words hparse => ?_⟩
      · rcases List.mem_cons.mp ht with rfl | ht
        · rw [hcontent] at hdata'
          cases hdata'
          have hmem : b ∈ t.ranges.expand := by
            rw [RangeSet.getBlockNumber_eq] at hi
            exact List.mem_of_getElem? hi
          rw [hplaced.others b fun u hu hb => hfirst u hu hmem hb, hmoved.places i b hi]
          rfl
        · exact hplaced.places t ht data' hdata' i b hi
      · rw [hplaced.others b fun t ht => hb t (List.mem_cons_of_mem _ ht),
          hmoved.others b (hb s List.mem_cons_self)]
      · have hstep : SourceInfo.readStashes blockSize stashReader (s :: stashes) buffer =
            SourceInfo.readStashes blockSize stashReader stashes moved := by
          rw [SourceInfo.readStashes, hreader]
          dsimp only
          rw [if_neg (not_not.mpr rfl), moveRange_take hs hn hlen, hmove]
        have hsome :
            (∀ t ∈ s :: stashes, contents t ≠ none) ↔ ∀ t ∈ stashes, contents t ≠ none := by
          rw [List.forall_mem_cons, hcontent]
          exact and_iff_right (Option.some_ne_none _)
        rw [ReadsStashes, hstep]
        simp only [hsome]
        exact hall
      · cases words with
        | nil => cases hparse
        | cons word words =>
          obtain ⟨id, location, locs, rest, hsplit, hlocs, hrest, hcons⟩ := parseStashes_cons hparse
          obtain ⟨rfl, rfl⟩ := List.cons.inj hcons
          rw [loadStashes, hsplit]
          dsimp only
          rw [hload]
          dsimp only
          rw [hlocs]
          dsimp only
          rw [hmove]
          exact hwords parseUint words hrest
    | missing part deleted hload hreader =>
      obtain ⟨result, hplaced, -, hwords⟩ := ih hreads' hlocated' hn hrest
      refine ⟨result, ⟨hplaced.length, fun t ht data hdata i b hi => ?_, fun b hb => ?_⟩, ?_,
        fun parseUint words hparse => ?_⟩
      · rcases List.mem_cons.mp ht with rfl | ht
        · rw [hcontent] at hdata
          cases hdata
        · exact hplaced.places t ht data hdata i b hi
      · exact hplaced.others b fun t ht => hb t (List.mem_cons_of_mem _ ht)
      · rw [ReadsStashes, if_neg fun h => h s List.mem_cons_self hcontent, SourceInfo.readStashes]
        exact ⟨buffer, if_pos hreader⟩
      · cases words with
        | nil => cases hparse
        | cons word words =>
          obtain ⟨id, location, locs, rest, hsplit, hlocs, hrest, hcons⟩ := parseStashes_cons hparse
          obtain ⟨rfl, rfl⟩ := List.cons.inj hcons
          rw [loadStashes, hsplit]
          dsimp only
          rw [hload]
          exact hwords parseUint words hrest

end stashes

section assembly
variable {host : Host} {source : SourceInfo} {start packed : Bytes} {n : ℕ}

/-- The source blocks as they are when the stashes come. -/
def movedSource (source : SourceInfo) (packed : Bytes) : Option Bytes :=
  if source.ranges.ranges ≠ [] ∧ source.location.ranges ≠ [] then
    moveRange packed source.location none blockSize
  else some packed

theorem exists_movedSource (happ : Assembles source n) (hn : n * blockSize ≤ packed.length) :
    ∃ moved, movedSource source packed = some moved ∧ moved.length = packed.length ∧
      (source.ranges.ranges ≠ [] → ∀ i b, source.location.getBlockNumber i = some b →
        blockAt blockSize moved b = blockAt blockSize packed i) ∧
      (source.location.ranges = [] → moved = packed) := by
  rw [movedSource]
  split_ifs with hboth
  · have hfit := Nat.mul_le_mul_right blockSize happ.location.blocks_le
    obtain ⟨moved, hmove, hmoved⟩ : ∃ moved, moveRange packed source.location none blockSize =
        some moved ∧ Moved none packed source.location blockSize moved :=
      moveRange_moved happ.location hn (hfit.trans hn)
    exact ⟨moved, hmove, hmoved.length, fun _ => hmoved.places, fun hnil => absurd hnil hboth.2⟩
  · refine ⟨packed, rfl, rfl, fun hranges i b hi => ?_, fun _ => rfl⟩
    have hnil : source.location.ranges = [] := by
      by_contra hne
      exact hboth ⟨hranges, hne⟩
    rw [RangeSet.getBlockNumber_eq, RangeSet.expand, hnil] at hi
    cases hi

theorem readBlocks_of_empty {src : RangeSet} (h : src.ranges = [])
    (hread : host.readBlocks .source src start = .ok (true, packed)) : packed = start := by
  rw [Host.readBlocks, h] at hread
  cases hread
  rfl

theorem allocate_length {size : ℕ} {buffer : Bytes}
    (h : host.allocate size buffer = .ok start) : size ≤ start.length := by
  rw [Host.allocate] at h
  split_ifs at h with hfit
  · cases h
    exact hfit
  · cases h
    rw [List.length_append, List.length_replicate]
    omega

theorem readAll_eq {moved : Bytes} {blockReader : RangeSet → Bytes → ℤ × Bytes}
    {stashReader : Text → Bytes → ℤ × Bytes}
    (hsize : u64 (source.blocks * blockSize) ≤ start.length)
    (hread : host.readBlocks .source source.ranges start = .ok (true, packed))
    (hreader : blockReader source.ranges start = (0, packed))
    (hmoved : movedSource source packed = some moved) :
    source.readAll start blockSize blockReader stashReader =
      SourceInfo.readStashes blockSize stashReader source.stashes moved := by
  rw [SourceInfo.readAll, if_neg (not_lt.mpr hsize)]
  by_cases hranges : source.ranges.ranges = []
  · rw [if_neg (not_not.mpr hranges)]
    rw [movedSource, if_neg fun h => h.1 hranges, readBlocks_of_empty hranges hread] at hmoved
    cases hmoved
    rfl
  rw [if_pos hranges, hreader]
  dsimp only
  rw [if_neg (not_not.mpr rfl)]
  by_cases hlocation : source.location.ranges = []
  · rw [if_neg (not_not.mpr hlocation)]
    rw [movedSource, if_neg fun h => h.2 hlocation] at hmoved
    cases hmoved
    rfl
  · rw [if_pos hlocation]
    rw [movedSource, if_pos ⟨hranges, hlocation⟩] at hmoved
    rw [hmoved]

theorem loadSourceBlocks_eq {parseUint : Text → ℕ → Option ℕ} {hash token src : Text}
    {words : List Text} {tgt : RangeSet} {buffer moved result : Bytes}
    (halloc : host.allocate (u64 (source.blocks * blockSize)) buffer = .ok start)
    (hread : host.readBlocks .source source.ranges start = .ok (true, packed))
    (hmoved : movedSource source packed = some moved)
    (htoken : parseUint token Command.sizeT = some source.blocks)
    (hparsed : ParsedSource parseUint hash src words source)
    (hstashes : ∀ words, Command.parseStashes parseUint words = .ok source.stashes →
      loadStashes parseUint host words moved = .ok result) :
    loadSourceBlocks parseUint host token src words tgt buffer =
      .ok (source.blocks, source.ranges.overlaps tgt, result) := by
  rw [loadSourceBlocks, htoken]
  dsimp only
  rw [halloc]
  dsimp only
  cases hparsed with
  | stashes hwords =>
    have hpacked := readBlocks_of_empty rfl hread
    cases hmoved
    rw [if_pos rfl, ← hpacked, hstashes _ hwords]
    rfl
  | ranges hdash hsrc =>
    rw [movedSource, if_neg fun h => h.2 rfl] at hmoved
    cases hmoved
    have hresult := hstashes [] rfl
    cases hresult
    rw [if_neg hdash, hsrc]
    dsimp only
    rw [hread]
  | both hdash hsrc hlocs hwords =>
    rw [movedSource, if_pos ⟨RangeSet.parse_ranges_ne_nil hsrc,
      RangeSet.parse_ranges_ne_nil hlocs⟩] at hmoved
    rw [if_neg hdash, hsrc]
    dsimp only
    rw [hread]
    dsimp only
    rw [hlocs]
    dsimp only
    rw [hmoved]
    dsimp only
    rw [hstashes _ hwords]
    rfl

/-- `ReadAll` and `LoadSourceBlocks` assemble the same source, each block at its place, and no block
is overwritten before it is moved. -/
theorem source_assembled (host : Host) (source : SourceInfo) (n : ℕ) (buffer start packed : Bytes)
    (blockReader : RangeSet → Bytes → ℤ × Bytes) (stashReader : Text → Bytes → ℤ × Bytes)
    (contents : StashInfo → Option Bytes)
    (halloc : host.allocate (u64 (source.blocks * blockSize)) buffer = .ok start)
    (hn : n * blockSize ≤ start.length) (happ : Assembles source n)
    (hread : host.readBlocks .source source.ranges start = .ok (true, packed))
    (hreader : blockReader source.ranges start = (0, packed))
    (hstashes : ∀ s ∈ source.stashes, StashRead host stashReader s (contents s)) :
    ∃ result,
      (if ∀ s ∈ source.stashes, contents s ≠ none then
        source.readAll start blockSize blockReader stashReader = some (true, result)
      else ∃ part, source.readAll start blockSize blockReader stashReader = some (false, part)) ∧
      (∀ parseUint tgt token src words tgtHash srcHash target,
        Command.parseTargetInfoAndSourceInfo parseUint (tgt :: token :: src :: words)
            tgtHash srcHash = .ok (target, source) →
          loadSourceBlocks parseUint host token src words target.ranges buffer =
            .ok (source.blocks, source.ranges.overlaps target.ranges, result)) ∧
      (∀ i b place, source.ranges.getBlockNumber i = some b →
        source.location.getBlockNumber i = some place →
          host.block .source b = some (blockAt blockSize result place)) ∧
      (source.location.ranges = [] → source.stashes = [] →
        ∀ i b, source.ranges.getBlockNumber i = some b →
          host.block .source b = some (blockAt blockSize result i)) ∧
      (∀ s ∈ source.stashes, ∀ data, contents s = some data →
        ∀ i place, s.ranges.getBlockNumber i = some place →
          blockAt blockSize result place = blockAt blockSize data i) ∧
      ∀ front back, source.location.ranges = front ++ back →
        ∃ dest, back.foldr (moveStep none blockSize) (some (packed, source.location.blocks)) =
            some (dest, (expandRanges front).length) ∧
          slice dest 0 ((expandRanges front).length * blockSize) =
            slice packed 0 ((expandRanges front).length * blockSize) := by
  obtain ⟨hlen, -, hblocks⟩ := readBlocks_eq hread
  have hpacked : n * blockSize ≤ packed.length := hn.trans_eq hlen.symm
  obtain ⟨moved, hmoved, hmovedLen, hplaces, hkept⟩ := exists_movedSource happ hpacked
  obtain ⟨hlocation, hpairs⟩ := List.pairwise_cons.mp happ.apart
  have hmovedFit : n * blockSize ≤ moved.length := hpacked.trans_eq hmovedLen.symm
  have hapart :
      source.stashes.Pairwise fun s t => List.Disjoint s.ranges.expand t.ranges.expand := by
    rwa [List.pairwise_map] at hpairs
  have hsize := allocate_length halloc
  obtain ⟨result, hplaced, hall, hwords⟩ :=
    exists_stashesPlaced hstashes happ.stashes hmovedFit hapart
  refine ⟨result, ?_, ?_, ?_, ?_, hplaced.places, ?_⟩
  · rw [readAll_eq hsize hread hreader hmoved]
    exact hall
  · intro parseUint tgt token src words tgtHash srcHash target hparse
    obtain ⟨_, _, _, _, _, htokens, -, -, htoken, hparsed⟩ :=
      parseTargetInfoAndSourceInfo_eq_ok hparse
    cases htokens
    exact loadSourceBlocks_eq halloc hread hmoved htoken hparsed (hwords parseUint)
  · intro i b place hb hplace
    have hranges : source.ranges.ranges ≠ [] := by
      intro hnil
      rw [RangeSet.getBlockNumber_eq, RangeSet.expand, hnil] at hb
      cases hb
    have hmem : place ∈ source.location.expand := by
      rw [RangeSet.getBlockNumber_eq] at hplace
      exact List.mem_of_getElem? hplace
    rw [hblocks i b hb, hplaced.others place fun s hs hin =>
      hlocation s.ranges (List.mem_map_of_mem hs) hmem hin, hplaces hranges i place hplace]
  · intro hnone hnil i b hb
    have hothers := hplaced.others i (by rw [hnil]; exact nofun)
    rw [hblocks i b hb, hothers, hkept hnone]
  · intro front back hsplit
    exact moveStep_unmoved happ.location hpacked hsplit

end assembly

section fixed

/-- A host with one stash, whose blocks hold their own numbers. -/
def numberedHost : Host where
  canwrite := true
  createdstash := false
  isRetry := false
  isBlockDevice := true
  block _ b := some (List.replicate blockSize (UInt8.ofNat b))
  block_length := fun _ b data hdata => by
    cases hdata
    exact List.length_replicate
  seeks _ _ := true
  partRead _ _ := 0
  sha1 _ := List.replicate 40 '0'
  sha1_digest _ := by
    refine ⟨List.length_replicate, fun c hc => ?_⟩
    rw [List.eq_of_mem_replicate hc]
    decide
  stashMap _ := none
  stashFile _ _ := .file (List.replicate blockSize 7) true
  allocates _ := true
  freeSpace _ := true
  succeeds _ := true
  rootHash _ _ := none

/-- Block 5 goes to the second place, and the stash to the first one. -/
def swappedSource : SourceInfo where
  hash := []
  ranges := ⟨[(5, 6)], by decide, by decide⟩
  location := ⟨[(1, 2)], by decide, by decide⟩
  stashes := [⟨['s'], ⟨[(0, 1)], by decide, by decide⟩⟩]

theorem swapped_assembles : Assembles swappedSource 2 := by
  refine ⟨⟨by decide, by decide⟩, fun s hs => ?_, List.pairwise_pair.mpr fun b hb hb' => ?_⟩
  · rw [List.mem_singleton.mp hs]
    exact ⟨by decide, by decide⟩
  · have heq := (List.mem_singleton.mp hb).symm.trans (List.mem_singleton.mp hb')
    cases heq

theorem swapped_assembled :
    ∃ blockReader stashReader result,
      swappedSource.readAll (List.replicate (2 * blockSize) 0) blockSize blockReader stashReader =
          some (true, result) ∧
        numberedHost.block .source 5 = some (blockAt blockSize result 1) ∧
        blockAt blockSize result 0 = List.replicate blockSize 7 := by
  have hbuffer : (List.replicate (2 * blockSize) (0 : UInt8)).length = 2 * blockSize :=
    List.length_replicate
  have hstash : ((splice (List.replicate blockSize 0) 0
      (List.replicate blockSize (7 : UInt8))) : Bytes) = List.replicate blockSize 7 := by
    rw [splice, List.length_replicate, Nat.zero_add, List.drop_replicate, Nat.sub_self]
    exact List.append_nil _
  have hempty : ∀ size, 0 < size →
      numberedHost.allocate size [] = .ok (List.replicate size 0) := fun size hsize =>
    if_neg (not_le.mpr hsize)
  have halloc : numberedHost.allocate (u64 (swappedSource.blocks * blockSize)) [] =
      .ok (List.replicate (2 * blockSize) 0) := by
    rw [show u64 (swappedSource.blocks * blockSize) = 2 * blockSize by decide]
    exact hempty _ (by decide)
  have hload :
      numberedHost.loadStash .source ['s'] false [] = .ok (true, List.replicate blockSize 7, []) :=
    calc numberedHost.loadStash .source ['s'] false []
        = (numberedHost.allocate (List.replicate blockSize (7 : UInt8)).length []).bind
            fun buffer => .ok (true, splice buffer 0 (List.replicate blockSize 7), []) := rfl
      _ = .ok (true, splice (List.replicate blockSize 0) 0 (List.replicate blockSize 7), []) := by
          rw [List.length_replicate, hempty blockSize (by decide)]
          rfl
      _ = .ok (true, List.replicate blockSize 7, []) := by rw [hstash]
  have hfit : ¬(List.replicate (2 * blockSize) (0 : UInt8)).length < 0 + (6 - 5) * blockSize := by
    rw [hbuffer]
    decide
  have hread :
      numberedHost.readBlocks .source swappedSource.ranges (List.replicate (2 * blockSize) 0) =
      .ok (true,
        splice (List.replicate (2 * blockSize) 0) 0 (numberedHost.content .source 5 ++ [])) := by
    have hseek : ¬numberedHost.seeks .source 5 = false := Bool.false_ne_true.symm
    have hrange : numberedHost.readRange .source 5 (6 - 5) =
        some (numberedHost.content .source 5 ++ []) := rfl
    change numberedHost.readRanges .source [(5, 6)] 0 _ = _
    rw [Host.readRanges, if_neg hseek, bytesStored_eq hrange, if_neg hfit, hrange]
    rfl
  obtain ⟨result, hall, -, hplaces, -, hstashes, -⟩ := source_assembled numberedHost swappedSource 2
    [] (List.replicate (2 * blockSize) 0) _ (fun _ _ => (0, _))
    (fun _ _ => (0, (List.replicate blockSize 7).take (1 * blockSize)))
    (fun _ => some (List.replicate blockSize 7)) halloc hbuffer.ge swapped_assembles hread rfl
    fun s hs => by
      rw [List.mem_singleton.mp hs]
      exact .loaded _ hload (by rw [List.length_replicate]; decide) rfl
  rw [if_pos fun s _ => Option.some_ne_none _] at hall
  refine ⟨_, _, result, hall, hplaces 0 5 1 (by decide) (by decide), ?_⟩
  rw [hstashes ⟨['s'], ⟨[(0, 1)], by decide, by decide⟩⟩ (List.mem_singleton.mpr rfl) _ rfl 0 0
    (by decide), blockAt, slice, Nat.zero_mul, List.drop_zero, List.take_of_length_le]
  exact List.length_replicate.le

end fixed

end BootableRecovery.Updater
