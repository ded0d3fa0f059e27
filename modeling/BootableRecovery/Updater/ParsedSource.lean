import BootableRecovery.Updater.SourceBounds
import Mathlib.Algebra.Order.BigOperators.Group.List
import Mathlib.Data.List.Nodup

namespace BootableRecovery.Updater
open Lib Otautil

/-! The source of a parsed command: which of the numbers fit together that `Parse` has read. -/

/-- How `DumpBuffer` ends early. -/
inductive DumpStop
  | checkFailed
  | outOfBounds
  deriving DecidableEq, Repr

def StashInfo.blocks (s : StashInfo) : ℕ := s.ranges.blocks

def CommandInfo.source : CommandInfo → Option SourceInfo
  | .move _ source => some source
  | .diff _ _ source => some source
  | _ => none

/-- The number of words of a line in front of its target ranges. -/
def CommandInfo.wordsBefore : CommandInfo → ℕ
  | .move _ _ => 2
  | _ => 5

namespace SourceInfo
variable (s : SourceInfo)

/-- Without a location the source blocks are at the front of the buffer. -/
def bufferLocation : RangeSet :=
  if s.location.ranges ≠ [] then s.location
  else (RangeSet.empty.pushBack (0, s.ranges.blocks)).getD .empty

/-- One pass of the loop of `DumpBuffer`: the number of the block, and what is hashed. -/
def dumpBlock (buffer : Bytes) (blockSize i : ℕ) : Except DumpStop (ℕ × Bytes) :=
  match s.ranges.getBlockNumber i with
  | none => .error .checkFailed
  | some blockNum =>
    match s.bufferLocation.getBlockNumber i with
    | none => .error .checkFailed
    | some bufferIndex =>
      if buffer.length < u64 ((bufferIndex + 1) * blockSize) then .error .checkFailed
      else if buffer.length < u64 (bufferIndex * blockSize) + blockSize then .error .outOfBounds
      else .ok (blockNum, slice buffer (u64 (bufferIndex * blockSize)) blockSize)

def dumpBlocks (buffer : Bytes) (blockSize : ℕ) : List ℕ → Except DumpStop (List (ℕ × Bytes))
  | [] => .ok []
  | i :: is =>
    match s.dumpBlock buffer blockSize i with
    | .error stop => .error stop
    | .ok line => (dumpBlocks buffer blockSize is).map fun lines => line :: lines

/-- `DumpBuffer` -/
def dumpBuffer (buffer : Bytes) (blockSize : ℕ) : Except DumpStop (List (ℕ × Bytes)) :=
  s.dumpBlocks buffer blockSize (List.range s.ranges.blocks)

/-- Where the source blocks and the blocks of the stashes go to. -/
def places : List ℕ := s.bufferLocation.expand ++ s.stashes.flatMap fun t => t.ranges.expand

structure WellFormed : Prop where
  count : s.blocks = s.ranges.blocks + (s.stashes.map StashInfo.blocks).sum
  location : s.location.ranges ≠ [] → s.location.blocks = s.ranges.blocks
  stashes : ∀ t ∈ s.stashes, t.ranges.expand.length = t.blocks
  inside : ∀ b ∈ s.places, b < s.blocks
  disjoint : s.places.Nodup
  cover : ∀ b < s.blocks, b ∈ s.places

/-- With a buffer of as many blocks as the source has, and readers that keep the sizes of their
buffers, no access leaves a buffer. -/
def StaysInside : Prop :=
  ∀ (bs : ℕ) (buffer : Bytes) (blockReader : RangeSet → Bytes → ℤ × Bytes)
    (stashReader : Text → Bytes → ℤ × Bytes),
    buffer.length < 2 ^ 64 → buffer.length = s.blocks * bs →
    (∀ set b, (blockReader set b).2.length = b.length) →
    (∀ id b, (stashReader id b).2.length = b.length) →
      s.readAll buffer bs blockReader stashReader ≠ none ∧
      ∃ lines, s.dumpBuffer buffer bs = .ok lines

section wellFormed
variable {s}

theorem bufferLocation_expand (s : SourceInfo) : s.bufferLocation.expand =
    if s.location.ranges ≠ [] then s.location.expand else List.range s.ranges.blocks := by
  unfold SourceInfo.bufferLocation
  split_ifs with hloc
  · rfl
  · rcases Nat.eq_zero_or_pos s.ranges.blocks with hzero | hpos
    · simp [RangeSet.pushBack, hzero]
    · obtain ⟨t, ht, -⟩ := RangeSet.empty.pushBack_of_lt (0, s.ranges.blocks) hpos (by
        rw [RangeSet.empty_blocks, Nat.zero_add]
        exact s.ranges.bounded)
      rw [ht, Option.getD_some, RangeSet.pushBack_expand ht, RangeSet.empty_expand,
        List.nil_append, List.range_eq_range']
      rfl

theorem bufferLocation_blocks (hlocation : s.location.ranges ≠ [] →
    s.location.blocks = s.ranges.blocks) : s.bufferLocation.blocks = s.ranges.blocks := by
  rw [RangeSet.blocks, bufferLocation_expand]
  split_ifs with hloc
  · exact hlocation hloc
  · exact List.length_range

theorem foldl_blocks_le (stashes : List StashInfo) (n : ℕ) :
    stashes.foldl (fun n t => u64 (n + t.ranges.blocks)) n ≤
      n + (stashes.map StashInfo.blocks).sum := by
  induction stashes generalizing n with
  | nil => exact le_rfl
  | cons t stashes ih =>
    rw [List.foldl_cons, List.map_cons, List.sum_cons, ← Nat.add_assoc]
    exact (ih _).trans (Nat.add_le_add_right (Nat.mod_le _ _) _)

theorem places_length (s : SourceInfo) :
    s.places.length = s.bufferLocation.blocks + (s.stashes.map StashInfo.blocks).sum := by
  rw [SourceInfo.places, List.length_append, List.length_flatMap]
  rfl

/-- Where the places are inside and none is used twice the sum of the blocks cannot wrap, so that
the places are as many as the blocks and none is left out. -/
theorem wellFormed_of_nodup (hlocation : s.location.ranges ≠ [] →
    s.location.blocks = s.ranges.blocks) (hinside : ∀ b ∈ s.places, b < s.blocks)
    (hnodup : s.places.Nodup) : s.WellFormed := by
  have hsubperm : s.places.Subperm (List.range s.blocks) :=
    hnodup.subperm fun b hb => List.mem_range.mpr (hinside b hb)
  have htotal : s.places.length = s.ranges.blocks + (s.stashes.map StashInfo.blocks).sum := by
    rw [places_length, bufferLocation_blocks hlocation]
  have hle : s.blocks ≤ s.places.length :=
    (foldl_blocks_le s.stashes s.ranges.blocks).trans_eq htotal.symm
  have hcount : s.places.length = s.blocks :=
    (hsubperm.length_le.trans_eq List.length_range).antisymm hle
  have hperm := hsubperm.perm_of_length_le (by simp [hcount])
  constructor
  · rw [← hcount, htotal]
  · exact hlocation
  · exact fun t _ => rfl
  · exact hinside
  · exact hnodup
  · exact fun b hb => hperm.mem_iff.mpr (List.mem_range.mpr hb)

/-- All the places of a set are in the buffer. -/
theorem placesInside_of_lt {locs : RangeSet} {bs n size source : ℕ} (hin : ∀ b ∈ locs.expand, b < n)
    (hsize : n * bs ≤ size) (hsource : locs.blocks * bs ≤ source) :
    PlacesInside bs locs size source :=
  ⟨fun r hr => (Nat.mul_le_mul_right bs (range_le_of_inside hin r hr)).trans hsize, hsource⟩

theorem exists_moveRange_inside {locs : RangeSet} {bs : ℕ} (source : Option Bytes) (dest : Bytes)
    (h : PlacesInside bs locs dest.length (source.getD dest).length) :
    ∃ result, moveRange dest locs source bs = some result ∧ result.length = dest.length := by
  obtain ⟨result, hresult⟩ := Option.ne_none_iff_exists'.mp
    ((moveRange_inside_iff bs source dest locs).mpr h)
  exact ⟨result, hresult, (moveRange_inside hresult).1⟩

/-- The loop over the stashes stays inside if all the places do. -/
theorem readStashes_inside {stashes : List StashInfo} {bs n : ℕ} {buffer : Bytes}
    {stashReader : Text → Bytes → ℤ × Bytes}
    (hreader : ∀ id b, (stashReader id b).2.length = b.length)
    (hin : ∀ t ∈ stashes, ∀ b ∈ t.ranges.expand, b < n)
    (hblocks : ∀ t ∈ stashes, t.ranges.blocks ≤ n) (hsmall : buffer.length < 2 ^ 64)
    (hlen : buffer.length = n * bs) : readStashes bs stashReader stashes buffer ≠ none := by
  induction stashes generalizing buffer with
  | nil => exact fun h => by cases h
  | cons t stashes ih =>
    have htotal : t.ranges.blocks * bs ≤ buffer.length :=
      (Nat.mul_le_mul_right bs (hblocks t List.mem_cons_self)).trans_eq hlen.symm
    have hread := hreader t.id (List.replicate (u64 (t.ranges.blocks * bs)) 0)
    rw [List.length_replicate, u64_of_lt (htotal.trans_lt hsmall)] at hread
    rw [readStashes]
    generalize hanswer : stashReader t.id (List.replicate (u64 (t.ranges.blocks * bs)) 0) = answer
    rw [u64_of_lt (htotal.trans_lt hsmall)] at hanswer
    rw [hanswer] at hread
    dsimp only
    split_ifs with hret
    · exact fun h => by cases h
    · obtain ⟨result, hmove, hresult⟩ := exists_moveRange_inside (some answer.2) buffer
        (placesInside_of_lt (hin t List.mem_cons_self) hlen.ge hread.ge)
      rw [hmove]
      exact ih (fun u hu => hin u (List.mem_cons_of_mem _ hu))
        (fun u hu => hblocks u (List.mem_cons_of_mem _ hu)) (hresult ▸ hsmall) (hresult.trans hlen)

theorem WellFormed.mem_location (h : s.WellFormed) : ∀ b ∈ s.bufferLocation.expand, b < s.blocks :=
  fun b hb => h.inside b (List.mem_append_left _ hb)

theorem WellFormed.mem_stash (h : s.WellFormed) :
    ∀ t ∈ s.stashes, ∀ b ∈ t.ranges.expand, b < s.blocks :=
  fun t ht b hb => h.inside b (List.mem_append_right _ (List.mem_flatMap.mpr ⟨t, ht, hb⟩))

theorem WellFormed.blocks_le (h : s.WellFormed) :
    s.ranges.blocks ≤ s.blocks ∧ ∀ t ∈ s.stashes, t.ranges.blocks ≤ s.blocks := by
  refine ⟨by rw [h.count]; exact Nat.le_add_right _ _, fun t ht => ?_⟩
  have hle := List.single_le_sum (fun _ _ => Nat.zero_le _) _
    (List.mem_map_of_mem (f := StashInfo.blocks) ht)
  have hblocks : t.blocks = t.ranges.blocks := rfl
  have hcount := h.count
  omega

theorem WellFormed.readAll_inside (h : s.WellFormed) {bs : ℕ} {buffer : Bytes}
    {blockReader : RangeSet → Bytes → ℤ × Bytes} {stashReader : Text → Bytes → ℤ × Bytes}
    (hsmall : buffer.length < 2 ^ 64) (hlen : buffer.length = s.blocks * bs)
    (hblock : ∀ set b, (blockReader set b).2.length = b.length)
    (hstash : ∀ id b, (stashReader id b).2.length = b.length) :
    s.readAll buffer bs blockReader stashReader ≠ none := by
  have hstashes : ∀ filled : Bytes, filled.length = buffer.length →
      readStashes bs stashReader s.stashes filled ≠ none := by
    intro filled hfilled
    exact readStashes_inside hstash h.mem_stash h.blocks_le.2 (hfilled ▸ hsmall)
      (hfilled.trans hlen)
  have hread := hblock s.ranges buffer
  unfold readAll
  generalize blockReader s.ranges buffer = answer at hread ⊢
  dsimp only
  split_ifs with hshort hranges hret hloc
  · exact fun h => by cases h
  · exact fun h => by cases h
  · have hin : ∀ b ∈ s.location.expand, b < s.blocks := by
      have hmem := h.mem_location
      rwa [bufferLocation_expand, if_pos hloc] at hmem
    have htotal : s.location.blocks * bs ≤ answer.2.length := by
      rw [h.location hloc, hread, hlen]
      exact Nat.mul_le_mul_right bs h.blocks_le.1
    obtain ⟨result, hmove, hresult⟩ := exists_moveRange_inside none answer.2
      (placesInside_of_lt hin (hlen.ge.trans_eq hread.symm) htotal)
    rw [hmove]
    exact hstashes result (hresult.trans hread)
  · exact hstashes answer.2 hread
  · exact hstashes buffer rfl

theorem WellFormed.dumpBuffer_inside (h : s.WellFormed) {bs : ℕ} {buffer : Bytes}
    (hsmall : buffer.length < 2 ^ 64) (hlen : buffer.length = s.blocks * bs) :
    ∃ lines, s.dumpBuffer buffer bs = .ok lines := by
  have hone : ∀ i < s.ranges.blocks, ∃ line, s.dumpBlock buffer bs i = .ok line := by
    intro i hi
    have hi' : i < s.bufferLocation.expand.length := by
      rw [RangeSet.expand_length, bufferLocation_blocks h.location]
      exact hi
    have hin := h.mem_location _ (List.getElem_mem hi')
    have hend : (s.bufferLocation.expand[i] + 1) * bs ≤ buffer.length :=
      (Nat.mul_le_mul_right bs hin).trans_eq hlen.symm
    have hnext : s.bufferLocation.expand[i] * bs + bs ≤ buffer.length := by
      rwa [Nat.succ_mul] at hend
    rw [dumpBlock, RangeSet.getBlockNumber_eq, RangeSet.getBlockNumber_eq,
      List.getElem?_eq_getElem (show i < s.ranges.expand.length from hi),
      List.getElem?_eq_getElem hi']
    dsimp only
    rw [u64_of_lt (hend.trans_lt hsmall), if_neg (not_lt.mpr hend), u64_of_lt (by omega),
      if_neg (not_lt.mpr hnext)]
    exact ⟨_, rfl⟩
  have hall : ∀ is : List ℕ, (∀ i ∈ is, i < s.ranges.blocks) →
      ∃ lines, s.dumpBlocks buffer bs is = .ok lines := by
    intro is
    induction is with
    | nil => exact fun _ => ⟨[], rfl⟩
    | cons i is ih =>
      intro hmem
      obtain ⟨line, hline⟩ := hone i (hmem i List.mem_cons_self)
      obtain ⟨lines, hlines⟩ := ih fun j hj => hmem j (List.mem_cons_of_mem _ hj)
      rw [dumpBlocks, hline, hlines]
      exact ⟨line :: lines, rfl⟩
  exact hall _ fun i hi => List.mem_range.mp hi

theorem WellFormed.staysInside (h : s.WellFormed) : s.StaysInside :=
  fun _ _ _ _ hsmall hlen hblock hstash =>
    ⟨h.readAll_inside hsmall hlen hblock hstash, h.dumpBuffer_inside hsmall hlen⟩

end wellFormed

end SourceInfo

section line
variable (parseUint : Text → ℕ → Option ℕ)

/-- The ranges that a word names, if it can be parsed. -/
def wordRanges (word : Text) : List Range :=
  ((RangeSet.parse parseUint word).map RangeSet.ranges).getD []

def stashRanges (word : Text) : List Range :=
  match word.splitOn ':' with
  | [_, location] => wordRanges parseUint location
  | _ => []

/-- The ranges of the buffer that the words behind `src_block_count` fill. -/
def placeRanges (src : Text) (words : List Text) : List Range :=
  if src = ['-'] then words.flatMap (stashRanges parseUint)
  else
    match words with
    | [] => [(0, (expandRanges (wordRanges parseUint src)).length)]
    | location :: words => wordRanges parseUint location ++ words.flatMap (stashRanges parseUint)

/-- The location has as many blocks as the source ranges, each place ends at or below
`src_block_count`, and no two places overlap. -/
structure LineFits (token src : Text) (words : List Text) : Prop where
  location : src ≠ ['-'] → ∀ location rest, words = location :: rest →
    (expandRanges (wordRanges parseUint location)).length =
      (expandRanges (wordRanges parseUint src)).length
  inside : ∀ count, parseUint token Command.sizeT = some count →
    ∀ r ∈ placeRanges parseUint src words, r.2 ≤ count
  apart : (placeRanges parseUint src words).Pairwise fun r o =>
    RangeSet.rangesOverlap [r] [o] = false

end line

section places

theorem expand_lt_iff {rs : List Range} {n : ℕ} (hproper : ∀ r ∈ rs, r.1 < r.2) :
    (∀ b ∈ expandRanges rs, b < n) ↔ ∀ r ∈ rs, r.2 ≤ n := by
  constructor
  · intro h r hr
    have hlt := hproper r hr
    have hlast := h (r.2 - 1) (RangeSet.mem_expandRanges.mpr ⟨r, hr, by omega, by omega⟩)
    omega
  · intro h b hb
    obtain ⟨r, hr, -, hlt⟩ := RangeSet.mem_expandRanges.mp hb
    exact hlt.trans_le (h r hr)

/-- No block occurs twice exactly if no two ranges overlap. -/
theorem expand_nodup_iff {rs : List Range} (hproper : ∀ r ∈ rs, r.1 < r.2) :
    (expandRanges rs).Nodup ↔ rs.Pairwise fun r o => RangeSet.rangesOverlap [r] [o] = false := by
  rw [expandRanges, List.nodup_flatMap, and_iff_right fun r _ => List.nodup_range']
  apply List.Pairwise.iff_of_mem
  intro r o hr ho
  have hoverlap := @RangeSet.rangesOverlap_iff [r] [o]
    (fun q hq => hproper q (List.mem_singleton.mp hq ▸ hr))
    (fun q hq => hproper q (List.mem_singleton.mp hq ▸ ho))
  rw [← Bool.not_eq_true, hoverlap]
  simp [expandRanges, Function.onFun, List.Disjoint]

end places

section parsed
variable {parseUint : Text → ℕ → Option ℕ}

theorem parseStashes_ranges {words : List Text} {stashes : List StashInfo}
    (h : Command.parseStashes parseUint words = .ok stashes) :
    words.flatMap (stashRanges parseUint) = stashes.flatMap fun t => t.ranges.ranges := by
  induction words generalizing stashes with
  | nil =>
    cases h
    rfl
  | cons word words ih =>
    obtain ⟨id, location, locs, rest, hsplit, hlocs, hrest, rfl⟩ := parseStashes_cons h
    rw [List.flatMap_cons, List.flatMap_cons, ih hrest, stashRanges, hsplit]
    dsimp only
    rw [wordRanges, hlocs]
    rfl

theorem flatMap_expand (stashes : List StashInfo) :
    (stashes.flatMap fun t => t.ranges.expand) =
      expandRanges (stashes.flatMap fun t => t.ranges.ranges) := by
  rw [expandRanges, List.flatMap_assoc]
  rfl

namespace ParsedSource
variable {hash src : Text} {words : List Text} {s : SourceInfo}

/-- The places of the parsed source are those that its words name. -/
theorem places_eq (h : ParsedSource parseUint hash src words s) :
    s.places = expandRanges (placeRanges parseUint src words) := by
  rw [SourceInfo.places, SourceInfo.bufferLocation_expand, flatMap_expand]
  unfold placeRanges
  cases h with
  | stashes hwords =>
    rw [if_pos rfl, parseStashes_ranges hwords]
    rfl
  | ranges hdash hsrc =>
    rw [if_neg hdash, wordRanges, hsrc]
    simp [RangeSet.empty, RangeSet.blocks, RangeSet.expand, List.range_eq_range']
  | both hdash hsrc hlocs hwords =>
    rw [if_neg hdash]
    dsimp only
    rw [wordRanges, hlocs, parseStashes_ranges hwords, expandRanges_append]
    exact congrArg (· ++ _) (if_pos (RangeSet.parse_ranges_ne_nil hlocs))

theorem proper (h : ParsedSource parseUint hash src words s) :
    ∀ r ∈ placeRanges parseUint src words, r.1 < r.2 := by
  intro r hr
  unfold placeRanges at hr
  have hstashes : ∀ stashes : List StashInfo, r ∈ (stashes.flatMap fun t => t.ranges.ranges) →
      r.1 < r.2 := by
    intro stashes hmem
    obtain ⟨t, -, ht⟩ := List.mem_flatMap.mp hmem
    exact t.ranges.proper r ht
  cases h with
  | stashes hwords =>
    rw [if_pos rfl, parseStashes_ranges hwords] at hr
    exact hstashes _ hr
  | @ranges _ ranges hdash hsrc =>
    rw [if_neg hdash, wordRanges, hsrc] at hr
    rw [List.mem_singleton.mp hr]
    exact ranges.blocks_pos_of_ranges (RangeSet.parse_ranges_ne_nil hsrc)
  | @both _ _ _ _ locs _ hdash hsrc hlocs hwords =>
    rw [if_neg hdash] at hr
    dsimp only at hr
    rw [wordRanges, hlocs, parseStashes_ranges hwords] at hr
    exact (List.mem_append.mp hr).elim (locs.proper r) (hstashes _)

theorem location_iff (h : ParsedSource parseUint hash src words s) :
    (s.location.ranges ≠ [] → s.location.blocks = s.ranges.blocks) ↔
      (src ≠ ['-'] → ∀ location rest, words = location :: rest →
        (expandRanges (wordRanges parseUint location)).length =
          (expandRanges (wordRanges parseUint src)).length) := by
  cases h with
  | stashes hwords => exact iff_of_true (fun h => absurd rfl h) fun h => absurd rfl h
  | ranges hdash hsrc => exact iff_of_true (fun h => absurd rfl h) nofun
  | both hdash hsrc hlocs hwords =>
    have hne := RangeSet.parse_ranges_ne_nil hlocs
    simp [hdash, hne, wordRanges, hsrc, hlocs, RangeSet.blocks, RangeSet.expand]

theorem wellFormed_iff {token : Text} (h : ParsedSource parseUint hash src words s)
    (htoken : parseUint token Command.sizeT = some s.blocks) :
    s.WellFormed ↔ LineFits parseUint token src words := by
  have hinside : (∀ b ∈ s.places, b < s.blocks) ↔
      ∀ r ∈ placeRanges parseUint src words, r.2 ≤ s.blocks := by
    rw [h.places_eq, expand_lt_iff h.proper]
  have hapart := expand_nodup_iff h.proper
  rw [← h.places_eq] at hapart
  constructor
  · intro hwell
    refine ⟨h.location_iff.mp hwell.location, fun count hcount => ?_, hapart.mp hwell.disjoint⟩
    obtain rfl := Option.some_inj.mp (htoken.symm.trans hcount)
    exact hinside.mp hwell.inside
  · intro hfits
    exact SourceInfo.wellFormed_of_nodup (h.location_iff.mpr hfits.location)
      (hinside.mpr (hfits.inside s.blocks htoken)) (hapart.mpr hfits.apart)

end ParsedSource

/-- Which commands have a source, and what stands in front of its tokens. -/
theorem parseInfo_source {op : CommandType} {line : Text} {args : List Text} {info : CommandInfo}
    {source : SourceInfo} (h : Command.parseInfo parseUint op line args = .ok info)
    (hsource : info.source = some source) :
    ∃ front tokens tgtHash srcHash target, args = front ++ tokens ∧
      front.length + 1 = info.wordsBefore ∧
      Command.parseTargetInfoAndSourceInfo parseUint tokens tgtHash srcHash =
        .ok (target, source) := by
  have hdiff : Command.parseDiff parseUint args = .ok info →
      ∃ front tokens tgtHash srcHash target, args = front ++ tokens ∧
        front.length + 1 = info.wordsBefore ∧
        Command.parseTargetInfoAndSourceInfo parseUint tokens tgtHash srcHash =
          .ok (target, source) := by
    intro hparse
    obtain ⟨offset, length, srcHash, dstHash, tokens, patch, target, source', rfl, -, -, htokens,
      rfl⟩ := parseDiff_eq_ok hparse
    obtain rfl := Option.some_inj.mp hsource
    exact ⟨[offset, length, srcHash, dstHash], tokens, dstHash, srcHash, target, rfl, rfl,
      htokens⟩
  have htarget : Command.parseTarget parseUint args ≠ .ok info := by
    intro hparse
    obtain ⟨_, _, -, -, rfl⟩ := parseTarget_eq_ok hparse
    cases hsource
  cases op with
  | bsdiff => exact hdiff h
  | imgdiff => exact hdiff h
  | erase => exact absurd h htarget
  | new => exact absurd h htarget
  | zero => exact absurd h htarget
  | abort =>
    rw [Command.parseInfo] at h
    split_ifs at h
    cases h
    cases hsource
  | free =>
    unfold Command.parseInfo at h
    dsimp only at h
    split at h
    · cases h
      cases hsource
    · cases h
  | stash =>
    unfold Command.parseInfo at h
    dsimp only at h
    split at h
    · split at h
      · cases h
      · cases h
        cases hsource
    · cases h
  | computeHashTree =>
    unfold Command.parseInfo at h
    dsimp only at h
    split at h
    case h_2 => cases h
    case h_1 hashTree sourceText hashAlgorithm saltHex rootHash =>
      split at h
      case h_1 => cases h
      case h_2 hashTreeRanges _ =>
        by_cases hcontiguous : hashTreeRanges.ranges.length ≠ 1
        · rw [if_pos hcontiguous] at h
          cases h
        rw [if_neg hcontiguous] at h
        split at h
        case h_1 => cases h
        case h_2 sourceRanges _ =>
          by_cases hempty : hashAlgorithm = [] ∨ saltHex = [] ∨ rootHash = []
          · rw [if_pos hempty] at h
            cases h
          rw [if_neg hempty] at h
          cases h
          cases hsource
  | move =>
    unfold Command.parseInfo at h
    dsimp only at h
    split at h
    · cases h
    case h_2 hash tokens =>
      split at h
      · cases h
      case h_2 target source' htokens =>
        cases h
        obtain rfl := Option.some_inj.mp hsource
        exact ⟨[hash], tokens, hash, hash, target, rfl, rfl, htokens⟩

theorem parse_source {abortAllowed : Bool} {line : Text} {index : ℕ} {command : Command}
    {source : SourceInfo} (h : Command.parse parseUint abortAllowed line index = .ok command)
    (hsource : command.info.source = some source) :
    ∃ front tgt token src words, line.splitOn ' ' = front ++ tgt :: token :: src :: words ∧
      front.length = command.info.wordsBefore ∧
      parseUint token Command.sizeT = some source.blocks ∧
      ParsedSource parseUint source.hash src words source := by
  unfold Command.parse at h
  dsimp only at h
  split at h
  case h_1 => cases h
  case h_2 op hop =>
    obtain ⟨type, args, hwords⟩ : ∃ type args, line.splitOn ' ' = type :: args :=
      List.exists_cons_of_ne_nil (List.splitOn_ne_nil ' ' line)
    rw [hwords, List.tail_cons] at h
    cases hinfo : Command.parseInfo parseUint op line args with
    | error err =>
      rw [hinfo] at h
      cases h
    | ok info =>
      rw [hinfo] at h
      cases h
      obtain ⟨front, tokens, tgtHash, srcHash, target, rfl, hfront, hparse⟩ :=
        parseInfo_source hinfo hsource
      obtain ⟨tgt, token, src, words, -, rfl, -, -, htoken, hparsed⟩ :=
        parseTargetInfoAndSourceInfo_eq_ok hparse
      have hhash := hparsed.hash_eq
      subst hhash
      exact ⟨type :: front, tgt, token, src, words, hwords, hfront, htoken, hparsed⟩

end parsed

/-- A command with a source is parsed as its words say, its number of blocks is the one they give,
and it is well formed exactly if the words fit together; then `ReadAll` and `DumpBuffer` stay
inside. -/
theorem parsed_wellFormed_iff (parseUint : Text → ℕ → Option ℕ) (abortAllowed : Bool) (line : Text)
    (index : ℕ) (command : Command) (source : SourceInfo)
    (h : Command.parse parseUint abortAllowed line index = .ok command)
    (hsource : command.info.source = some source) :
    ∃ front tgt token src words, line.splitOn ' ' = front ++ tgt :: token :: src :: words ∧
      front.length = command.info.wordsBefore ∧
      parseUint token Command.sizeT = some source.blocks ∧
      ParsedSource parseUint source.hash src words source ∧
      (source.WellFormed ∧ source.StaysInside ↔ LineFits parseUint token src words) := by
  obtain ⟨front, tgt, token, src, words, hline, hfront, htoken, hparsed⟩ := parse_source h hsource
  refine ⟨front, tgt, token, src, words, hline, hfront, htoken, hparsed, ?_⟩
  have hwell := hparsed.wellFormed_iff htoken
  constructor
  · exact fun h => hwell.mp h.1
  · exact fun hfits => ⟨hwell.mpr hfits, (hwell.mpr hfits).staysInside⟩

section fixed

/-- The range lists of a source, if a line has one. -/
def sourceRanges (line : Text) : Option (List Range × List Range × List (List Range)) :=
  (Command.parse decimalUint false line 0).toOption.bind fun command =>
    command.info.source.map fun s =>
      (s.ranges.ranges, s.location.ranges, s.stashes.map fun t => t.ranges.ranges)

theorem exists_of_sourceRanges (line : Text) (ranges location : List Range)
    (stashes : List (List Range)) (h : sourceRanges line = some (ranges, location, stashes)) :
    ∃ command source, Command.parse decimalUint false line 0 = .ok command ∧
      command.info.source = some source ∧
      source.places = (if location ≠ [] then expandRanges location
        else List.range (expandRanges ranges).length) ++ stashes.flatMap expandRanges ∧
      source.blocks =
        stashes.foldl (fun n rs => u64 (n + (expandRanges rs).length))
        (expandRanges ranges).length := by
  obtain ⟨command, hcommand, hmap⟩ := Option.bind_eq_some_iff.mp h
  obtain ⟨source, hsource, heq⟩ := Option.map_eq_some_iff.mp hmap
  obtain ⟨hranges, hrest⟩ := Prod.mk.inj heq
  obtain ⟨hlocation, hstashes⟩ := Prod.mk.inj hrest
  have hparse : Command.parse decimalUint false line 0 = .ok command := by
    cases hresult : Command.parse decimalUint false line 0 with
    | error err =>
      rw [hresult] at hcommand
      cases hcommand
    | ok command' =>
      rw [hresult] at hcommand
      exact congrArg Except.ok (Option.some_inj.mp hcommand)
  refine ⟨command, source, hparse, hsource, ?_, ?_⟩
  · rw [SourceInfo.places, SourceInfo.bufferLocation_expand, ← hranges, ← hlocation, ← hstashes,
      List.flatMap_map]
    rfl
  · rw [SourceInfo.blocks, ← hranges, ← hstashes, List.foldl_map]
    rfl

def swappedLine : Text := "move h 2,0,2 2 2,5,6 2,1,2 s:2,0,1".toList

theorem wordsBefore_cases (info : CommandInfo) : info.wordsBefore = 2 ∨ info.wordsBefore = 5 := by
  cases info <;> simp [CommandInfo.wordsBefore]

theorem swappedLine_wellFormed : ∃ command source,
    Command.parse decimalUint false swappedLine 0 = .ok command ∧
      command.info.source = some source ∧ source.WellFormed ∧ source.StaysInside := by
  obtain ⟨command, source, hparse, hsource, -⟩ :=
    exists_of_sourceRanges swappedLine [(5, 6)] [(1, 2)] [[(0, 1)]] (by decide +kernel)
  refine ⟨command, source, hparse, hsource, ?_⟩
  obtain ⟨front, tgt, token, src, words, hline, hfront, -, -, hiff⟩ :=
    parsed_wellFormed_iff decimalUint false swappedLine 0 command source hparse hsource
  have hsplit : swappedLine.splitOn ' ' = ["move".toList, "h".toList] ++ ["2,0,2".toList,
      "2".toList, "2,5,6".toList, "2,1,2".toList, "s:2,0,1".toList] := by
    decide +kernel
  have hwords := hsplit.symm.trans hline
  have hlen := congrArg List.length hwords
  simp only [List.length_append, List.length_cons, List.length_nil] at hlen
  have htwo : ["move".toList, "h".toList].length = front.length := by
    rcases wordsBefore_cases command.info with hbefore | hbefore
    · exact (hfront.trans hbefore).symm
    · omega
  obtain ⟨-, hrest⟩ := List.append_inj hwords htwo
  simp only [List.cons.injEq] at hrest
  obtain ⟨-, htoken, hsrc, hplaces⟩ := hrest
  rw [hiff, ← htoken, ← hsrc, ← hplaces]
  have hranges : placeRanges decimalUint "2,5,6".toList ["2,1,2".toList, "s:2,0,1".toList] =
      [(1, 2), (0, 1)] := by
    decide +kernel
  have hcount : decimalUint "2".toList Command.sizeT = some 2 := by decide +kernel
  constructor
  · intro _ location rest heq
    obtain ⟨rfl, -⟩ := List.cons.inj heq
    decide +kernel
  · intro count h
    obtain rfl := Option.some_inj.mp (hcount.symm.trans h)
    rw [hranges]
    decide
  · rw [hranges]
    decide

def AlwaysWellFormed : Prop :=
  ∀ (parseUint : Text → ℕ → Option ℕ) (abortAllowed : Bool) (line : Text) (index : ℕ)
    (command : Command) (source : SourceInfo),
    Command.parse parseUint abortAllowed line index = .ok command →
      command.info.source = some source → source.WellFormed ∧ source.StaysInside

/-- The stash goes to block 7 of a buffer of two blocks. -/
def outsideLine : Text := "move h 2,0,2 2 2,5,6 2,0,1 s:2,7,8".toList

theorem not_alwaysWellFormed : ¬AlwaysWellFormed := by
  intro h
  obtain ⟨command, source, hparse, hsource, hplaces, hblocks⟩ :=
    exists_of_sourceRanges outsideLine [(5, 6)] [(0, 1)] [[(7, 8)]] (by decide +kernel)
  have hinside := (h decimalUint false outsideLine 0 command source hparse hsource).1.inside
  rw [hplaces, hblocks] at hinside
  exact absurd (hinside 7 (by decide)) (by decide)

end fixed

end BootableRecovery.Updater
