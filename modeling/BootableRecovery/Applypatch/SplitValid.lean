import BootableRecovery.Applypatch.SplitImages

namespace BootableRecovery.Applypatch
open Lib Otautil

/-! The split images of two zip files are valid. -/

section images
variable {first pos size : ℕ} {cs : List ImageChunk}

/-- Either the chunks end in the block they start in, or they are aligned. -/
theorem alignChunks_spec (h : Contiguous first pos cs) :
    pos ≤ alignUp first ∧ alignChunks cs = [] ∨
      alignUp first < pos ∧ Contiguous (alignUp first) pos (alignChunks cs) ∧
        ∀ c ∈ alignChunks cs, c ∈ cs ∨ c.type = .normal := by
  induction cs generalizing first with
  | nil =>
    obtain rfl : first = pos := h
    exact .inl ⟨le_alignUp first, rfl⟩
  | cons c cs ih =>
    obtain ⟨hstart, hlen, hrest⟩ := h
    rw [alignChunks]
    cases hhead : alignHead c.start c.rawDataLen with
    | none =>
      have hle := alignHead_eq_none.mp hhead
      rw [hstart] at hle
      have hsame := alignUp_inside (Nat.le_add_right first c.rawDataLen) hle
      have hnext := ih hrest
      rw [hsame] at hnext
      refine hnext.imp_right fun ⟨hlt, hcontiguous, hmem⟩ => ⟨hlt, hcontiguous, fun d hd => ?_⟩
      exact (hmem d hd).imp_left (List.mem_cons_of_mem c)
    | some head =>
      obtain ⟨s, l⟩ := head
      obtain ⟨hlt, rfl, hend⟩ := alignHead_eq_some.mp hhead
      rw [hstart] at hlt hend ⊢
      have hle := hrest.le
      refine .inr ⟨by omega, ⟨rfl, ?_, ?_⟩, fun d hd => ?_⟩
      · change 0 < l
        omega
      · change Contiguous (alignUp first + l) pos cs
        rw [hend]
        exact hrest
      · rcases List.mem_cons.mp hd with rfl | hd
        · exact .inr rfl
        · exact .inl (List.mem_cons_of_mem c hd)

theorem Contiguous.getLast {c : ImageChunk} (h : Contiguous first pos cs)
    (hlast : cs.getLast? = some c) : c.start + c.rawDataLen = pos := by
  obtain ⟨init, rfl⟩ := List.getLast?_eq_some_iff.mp hlast
  obtain ⟨m, -, hstart, -, hend⟩ := contiguous_append.mp h
  rw [hstart]
  exact hend

theorem alignEnd_spec (h : Contiguous first pos cs) (hlt : first < pos) (hpos : pos ≤ size) :
    Contiguous first (min size (alignUp pos)) (alignEnd size cs) ∧
      ∀ c ∈ alignEnd size cs, c ∈ cs ∨ c.type = .normal := by
  rw [alignEnd]
  cases hlast : cs.getLast? with
  | none =>
    rw [List.getLast?_eq_none_iff.mp hlast] at h
    exact absurd h hlt.ne
  | some c =>
    have hend := h.getLast hlast
    dsimp only
    rw [hend]
    by_cases htail : pos % blockSize ≠ 0 ∧ pos < size
    · rw [if_pos htail]
      have hmod := Nat.mod_lt pos (by decide : 0 < blockSize)
      refine ⟨contiguous_append.mpr ⟨pos, h, rfl, lt_min (by omega) (by omega), ?_⟩, fun d hd => ?_⟩
      · exact alignUp_tail htail.1 hpos
      · rcases List.mem_append.mp hd with hd | hd
        · exact .inl hd
        · rw [List.mem_singleton.mp hd]
          exact .inr rfl
    · rw [if_neg htail]
      have hstop : min size (alignUp pos) = pos := by
        by_cases hmod : pos % blockSize = 0
        · rw [alignUp_of_mod hmod, Nat.min_eq_right hpos]
        · have hsize : size = pos := by omega
          rw [hsize, Nat.min_eq_left (le_alignUp pos)]
      rw [hstop]
      exact ⟨h, fun d hd => .inl hd⟩

/-- `AddSplitImageFromChunkList` on a group of chunks of the target. -/
theorem addSplitImage_spec (tgt src : ZipModeImage) {ranges : SortedRangeSet}
    (srcChunks : List ImageChunk) (h : Contiguous first pos cs) (hne : cs ≠ [])
    (hpos : pos ≤ tgt.fileContent.length)
    (hcontent : contentOf src.fileContent ranges.ranges ≠ []) :
    pos ≤ alignUp first ∧ addSplitImage tgt src ranges cs srcChunks = some none ∨
      alignUp first < pos ∧ ∃ chunks, addSplitImage tgt src ranges cs srcChunks = some (some
          ({ isSource := false, limit := 0, fileContent := [], chunks := chunks },
           { isSource := true, limit := 0
             fileContent := contentOf src.fileContent ranges.ranges, chunks := srcChunks })) ∧
        Contiguous (alignUp first) (min tgt.fileContent.length (alignUp pos)) chunks ∧
          ∀ c ∈ chunks, c.type = .deflate → c ∈ cs := by
  rw [addSplitImage, if_neg hne]
  rcases alignChunks_spec h with ⟨hle, hnil⟩ | ⟨hlt, hcontiguous, hmem⟩
  · dsimp only
    rw [if_pos hnil]
    exact .inl ⟨hle, rfl⟩
  · have haligned : alignChunks cs ≠ [] := by
      intro hnil
      rw [hnil] at hcontiguous
      exact absurd hcontiguous hlt.ne
    obtain ⟨hend, hmemEnd⟩ := alignEnd_spec hcontiguous hlt hpos
    dsimp only
    rw [if_neg haligned, if_neg hcontent]
    refine .inr ⟨hlt, _, rfl, hend.merge, fun c hc htype => ?_⟩
    have hother : c.type ≠ .normal := by
      rw [htype]
      exact ChunkType.noConfusion
    have hc := (mem_mergeAdjacentNormalChunks hc).resolve_right hother
    exact (hmem c ((hmemEnd c hc).resolve_right hother)).resolve_right hother

end images
/-- A target piece, its source and the ranges of the source. -/
structure SplitPiece where
  tgtImage : ZipModeImage
  srcImage : ZipModeImage
  ranges : SortedRangeSet

/-- The pieces that are made so far. -/
structure Placed (src : ZipModeImage) (upTo : ℕ) (out : SplitImages) (pieces : List SplitPiece) :
    Prop where
  tgtImages : out.tgtImages = pieces.map fun p => p.tgtImage
  srcImages : out.srcImages = pieces.map fun p => p.srcImage
  ranges : out.ranges = pieces.map fun p => p.ranges
  contiguous : Contiguous 0 upTo (pieces.flatMap fun p => p.tgtImage.chunks)
  valid : ∀ p ∈ pieces, PieceValid src p.tgtImage p.srcImage p.ranges
  exclusive : pieces.Pairwise fun p q => ∀ b ∈ p.ranges.expand, b ∉ q.ranges.expand

section placed
variable {src : ZipModeImage} {upTo next : ℕ} {out : SplitImages} {pieces : List SplitPiece}
  {p : SplitPiece}

theorem Placed.push (h : Placed src upTo out pieces)
    (hchunks : Contiguous upTo next p.tgtImage.chunks)
    (hvalid : PieceValid src p.tgtImage p.srcImage p.ranges)
    (hexclusive : ∀ q ∈ pieces, ∀ b ∈ q.ranges.expand, b ∉ p.ranges.expand) :
    Placed src next { tgtImages := out.tgtImages ++ [p.tgtImage]
                      srcImages := out.srcImages ++ [p.srcImage]
                      ranges := out.ranges ++ [p.ranges] } (pieces ++ [p]) := by
  refine ⟨?_, ?_, ?_, ?_, fun q hq => ?_, ?_⟩
  · rw [h.tgtImages, List.map_append, List.map_singleton]
  · rw [h.srcImages, List.map_append, List.map_singleton]
  · rw [h.ranges, List.map_append, List.map_singleton]
  · rw [List.flatMap_append, List.flatMap_singleton]
    exact contiguous_append.mpr ⟨upTo, h.contiguous, hchunks⟩
  · rcases List.mem_append.mp hq with hq | hq
    · exact h.valid q hq
    · rw [List.mem_singleton.mp hq]
      exact hvalid
  · refine List.pairwise_append.mpr ⟨h.exclusive, List.pairwise_singleton _ _, fun q hq r hr => ?_⟩
    rw [List.mem_singleton.mp hr]
    exact hexclusive q hq

theorem chunksEnd_contiguous {a b : ℕ} {cs : List ImageChunk} (h : Contiguous a b cs) :
    chunksEnd a cs = some b := by
  induction cs generalizing a with
  | nil => exact congrArg some h
  | cons c cs ih =>
    rw [chunksEnd, if_pos h.1.symm]
    exact ih h.2.2

theorem targetsEnd_contiguous {a b : ℕ} {ts : List ZipModeImage}
    (h : Contiguous a b (ts.flatMap fun t => t.chunks))
    (haligned : ∀ t ∈ ts, ∃ c, t.chunks.head? = some c ∧ c.start % blockSize = 0) :
    targetsEnd a ts = some b := by
  induction ts generalizing a with
  | nil => exact congrArg some h
  | cons t ts ih =>
    rw [List.flatMap_cons] at h
    obtain ⟨m, hfirst, hrest⟩ := contiguous_append.mp h
    obtain ⟨c, hhead, hmod⟩ := haligned t List.mem_cons_self
    have hstart : c.start = a := by
      obtain ⟨cs, hcs⟩ := List.head?_eq_some_iff.mp hhead
      rw [hcs] at hfirst
      exact hfirst.1
    rw [targetsEnd, if_pos, chunksEnd_contiguous hfirst, Option.bind_some]
    · exact ih hrest fun s hs => haligned s (List.mem_cons_of_mem t hs)
    · rw [hhead, ← hstart]
      exact ⟨rfl, hmod⟩

theorem rangesExclusive_of_pairwise {used : SortedRangeSet} {rs : List SortedRangeSet}
    (h : rs.Pairwise fun r q => ∀ b ∈ r.expand, b ∉ q.expand)
    (hused : ∀ r ∈ rs, ∀ b ∈ used.expand, b ∉ r.expand) : rangesExclusive used rs = true := by
  induction rs generalizing used with
  | nil => rfl
  | cons r rs ih =>
    obtain ⟨hfirst, hrest⟩ := List.pairwise_cons.mp h
    have hfree : used.overlaps r = false := by
      rw [Bool.eq_false_iff]
      intro hoverlap
      obtain ⟨b, hb, hbr⟩ := (SortedRangeSet.overlaps_iff used r).mp hoverlap
      exact hused r List.mem_cons_self b hb hbr
    rw [rangesExclusive, hfree, Bool.not_false, Bool.true_and]
    refine ih hrest fun q hq b hb => ?_
    rcases SortedRangeSet.mem_insert.mp hb with hb | hb
    · exact hused q (List.mem_cons_of_mem r hq) b hb
    · exact hfirst q hq b hb

/-- Pieces up to the end of the target are what the split images are to be. -/
theorem Placed.splitValid {tgt : ZipModeImage} (h : Placed src tgt.fileContent.length out pieces) :
    SplitValid tgt src out := by
  have haligned : ∀ t ∈ out.tgtImages, ∃ c, t.chunks.head? = some c ∧ c.start % blockSize = 0 := by
    rw [h.tgtImages]
    intro t ht
    obtain ⟨p, hp, rfl⟩ := List.mem_map.mp ht
    exact (h.valid p hp).aligned
  have hcontiguous : Contiguous 0 tgt.fileContent.length
      (out.tgtImages.flatMap fun t => t.chunks) := by
    rw [h.tgtImages, List.flatMap_map]
    exact h.contiguous
  have hexclusive : out.ranges.Pairwise fun r q => ∀ b ∈ r.expand, b ∉ q.expand := by
    rw [h.ranges]
    exact List.pairwise_map.mpr h.exclusive
  refine ⟨?_, hcontiguous, ?_, hexclusive, fun i t s r ht hs hr => ?_⟩
  · rw [validateSplitImages, targetsEnd_contiguous hcontiguous haligned,
      rangesExclusive_of_pairwise hexclusive fun _ _ b hb => absurd hb List.not_mem_nil,
      h.tgtImages, h.srcImages, h.ranges, List.length_map, List.length_map, List.length_map]
    simp
  · rw [← List.flatMap_assoc, hcontiguous.rawData le_rfl, Nat.sub_zero, List.drop_zero,
      List.take_length]
  · rw [h.tgtImages, List.getElem?_map] at ht
    rw [h.srcImages, List.getElem?_map] at hs
    rw [h.ranges, List.getElem?_map] at hr
    obtain ⟨p, hp, rfl⟩ := Option.map_eq_some_iff.mp ht
    rw [hp, Option.map_some, Option.some.injEq] at hs hr
    rw [← hs, ← hr]
    exact h.valid p (List.mem_of_getElem? hp)

end placed
/-- The blocks of the central directory. -/
def reserved (directory : ImageChunk) : SortedRangeSet :=
  SortedRangeSet.single (blockRange directory.start directory.rawDataLen)

/-- A group of target chunks, with the deflated source chunks that it has found. -/
structure Grouped (src : ZipModeImage) (ranges : SortedRangeSet)
    (tgtChunks srcChunks : List ImageChunk) : Prop where
  matched : ∀ c ∈ tgtChunks, c.type = .deflate →
    c.entryName ≠ [] ∧ ∃ d ∈ srcChunks, d.isNamed c.entryName false = true
  source : ∀ d ∈ srcChunks, d ∈ src.chunks ∧ ∀ b, d.start / blockSize ≤ b →
    b ≤ (d.start + d.rawDataLen - 1) / blockSize → b ∈ ranges.expand
  inside : ∀ b ∈ ranges.expand, b * blockSize < src.fileContent.length

/-- What the loop keeps: the pieces cover the target up to the block boundary behind `first`, the
group goes on from `first` to `pos`, and no block of the source is used twice. -/
structure SplitInv (tgt src : ZipModeImage) (directory : ImageChunk) (first pos : ℕ)
    (s : SplitState) (pieces : List SplitPiece) : Prop where
  placed : Placed src (min tgt.fileContent.length (alignUp first))
    { tgtImages := s.tgtImages, srcImages := s.srcImages, ranges := s.ranges } pieces
  group : Contiguous first pos s.tgtChunks
  grouped : Grouped src s.srcRanges s.tgtChunks s.srcChunks
  unused : ∀ b ∈ s.srcRanges.expand, b ∉ s.usedRanges.expand
  used : ∀ p ∈ pieces, ∀ b ∈ p.ranges.expand, b ∈ s.usedRanges.expand
  taken : ∀ b ∈ (reserved directory).expand, b ∈ s.usedRanges.expand
  free : ∀ p ∈ pieces, ∀ b ∈ p.ranges.expand, b ∉ (reserved directory).expand

section group
variable {tgt src : ZipModeImage} {directory c : ImageChunk} {first pos : ℕ} {s : SplitState}
  {pieces : List SplitPiece} {ranges : SortedRangeSet} {tgtChunks srcChunks : List ImageChunk}

theorem Grouped.plain (h : Grouped src ranges tgtChunks srcChunks) (start len : ℕ) :
    Grouped src ranges (tgtChunks ++ [ImageChunk.plain start len]) srcChunks := by
  refine ⟨fun d hd htype => ?_, h.source, h.inside⟩
  rcases List.mem_append.mp hd with hd | hd
  · exact h.matched d hd htype
  · rw [List.mem_singleton.mp hd] at htype
    cases htype

/-- A piece of a source chunk takes its blocks into the ranges. -/
theorem Grouped.insertPiece (h : Grouped src ranges tgtChunks srcChunks) {offset length : ℕ}
    (hlen : 0 < length) (hstop : offset + length ≤ src.fileContent.length) :
    Grouped src (ranges.insertPiece offset length) tgtChunks srcChunks := by
  refine ⟨h.matched, fun d hd => ?_, fun b hb => ?_⟩
  · obtain ⟨hmem, hblocks⟩ := h.source d hd
    exact ⟨hmem, fun b hb hb' => SortedRangeSet.mem_insertPiece.mpr (.inl (hblocks b hb hb'))⟩
  · rcases SortedRangeSet.mem_insertPiece.mp hb with hb | ⟨-, hb⟩
    · exact h.inside b hb
    · exact (block_lt_of_piece hlen hb).trans_le hstop

/-- A whole source chunk goes with its target chunk. -/
theorem Grouped.matchedPair (h : Grouped src ranges tgtChunks srcChunks) {d : ImageChunk}
    (hfound : findChunkByName src.chunks c.entryName true = some d) (htype : d.type = .deflate)
    (hblocks : ∀ b, d.start / blockSize ≤ b → b ≤ (d.start + d.rawDataLen - 1) / blockSize →
      b ∈ ranges.expand) :
    Grouped src ranges (tgtChunks ++ [c]) (srcChunks ++ [d]) := by
  rw [findChunkByName, Option.ite_none_left_eq_some] at hfound
  obtain ⟨hname, hfound⟩ := hfound
  have hnamed := List.find?_some hfound
  refine ⟨fun e he hdeflate => ?_, fun e he => ?_, h.inside⟩
  · rcases List.mem_append.mp he with he | he
    · obtain ⟨hne, f, hf, hfnamed⟩ := h.matched e he hdeflate
      exact ⟨hne, f, List.mem_append_left _ hf, hfnamed⟩
    · rw [List.mem_singleton.mp he]
      refine ⟨hname, d, List.mem_append_right _ List.mem_cons_self, ?_⟩
      rw [ImageChunk.isNamed, Bool.and_eq_true] at hnamed ⊢
      exact ⟨by rw [htype]; rfl, hnamed.2⟩
  · rcases List.mem_append.mp he with he | he
    · exact h.source e he
    · rw [List.mem_singleton.mp he]
      exact ⟨List.mem_of_find?_eq_some hfound, hblocks⟩

theorem Grouped.contentOf_ne_nil (h : Grouped src ranges tgtChunks srcChunks) {b : ℕ}
    (hb : b ∈ ranges.expand) : contentOf src.fileContent ranges.ranges ≠ [] := by
  obtain ⟨r, hr, hrb, -⟩ := RangeSet.mem_expandRanges.mp hb
  have hstart : r.1 * blockSize ≤ b * blockSize := Nat.mul_le_mul_right _ hrb
  exact Otautil.contentOf_ne_nil hr (ranges.proper r hr) (hstart.trans_lt (h.inside b hb))

/-- The images of a group are a valid piece. -/
theorem Grouped.pieceValid (h : Grouped src ranges tgtChunks srcChunks)
    (hsrc : ∀ d ∈ src.chunks, 0 < d.rawDataLen ∧ d.start + d.rawDataLen ≤ src.fileContent.length)
    {chunks : List ImageChunk} (hdeflate : ∀ c ∈ chunks, c.type = .deflate → c ∈ tgtChunks)
    (haligned : ∃ c, chunks.head? = some c ∧ c.start % blockSize = 0) :
    PieceValid src { isSource := false, limit := 0, fileContent := [], chunks := chunks }
      { isSource := true, limit := 0, fileContent := contentOf src.fileContent ranges.ranges
        chunks := srcChunks } ranges := by
  refine ⟨haligned, rfl, fun c hc htype => ?_, fun d hd => ?_⟩
  · obtain ⟨hname, d, hd, hnamed⟩ := h.matched c (hdeflate c hc htype) htype
    rw [findChunkByName, if_neg hname]
    exact Option.isSome_iff_exists.mp (List.find?_isSome.mpr ⟨d, hd, hnamed⟩)
  · obtain ⟨hmem, hblocks⟩ := h.source d hd
    obtain ⟨hlen, hstop⟩ := hsrc d hmem
    exact ⟨hmem, ranges.getOffsetInRangeSet_spec hlen hstop hblocks⟩

/-- The images of the group, if any, bring the pieces up to the block boundary behind `pos`. -/
theorem SplitInv.addSplitImage (h : SplitInv tgt src directory first pos s pieces)
    (hgrouped : Grouped src ranges s.tgtChunks s.srcChunks) (hne : s.tgtChunks ≠ [])
    {b : ℕ} (hb : b ∈ ranges.expand) (hpos : pos ≤ tgt.fileContent.length)
    (hsrc : ∀ d ∈ src.chunks, 0 < d.rawDataLen ∧ d.start + d.rawDataLen ≤ src.fileContent.length)
    (hexclusive : ∀ p ∈ pieces, ∀ b ∈ p.ranges.expand, b ∉ ranges.expand) :
    addSplitImage tgt src ranges s.tgtChunks s.srcChunks = some none ∧
        Placed src (min tgt.fileContent.length (alignUp pos))
          { tgtImages := s.tgtImages, srcImages := s.srcImages, ranges := s.ranges } pieces ∨
      ∃ t i, addSplitImage tgt src ranges s.tgtChunks s.srcChunks = some (some (t, i)) ∧
        Placed src (min tgt.fileContent.length (alignUp pos))
          { tgtImages := s.tgtImages ++ [t], srcImages := s.srcImages ++ [i]
            ranges := s.ranges ++ [ranges] } (pieces ++ [⟨t, i, ranges⟩]) := by
  have hcontent := hgrouped.contentOf_ne_nil hb
  rcases addSplitImage_spec tgt src s.srcChunks h.group hne hpos hcontent with
    ⟨hle, hadd⟩ | ⟨hlt, chunks, hadd, hchunks, hdeflate⟩
  · have hplaced := h.placed
    rw [← alignUp_inside h.group.le hle] at hplaced
    exact .inl ⟨hadd, hplaced⟩
  · have hstop : alignUp first < min tgt.fileContent.length (alignUp pos) :=
      lt_min (hlt.trans_le hpos) (hlt.trans_le (le_alignUp pos))
    have haligned : ∃ c, chunks.head? = some c ∧ c.start % blockSize = 0 := by
      cases chunks with
      | nil => exact absurd hchunks hstop.ne
      | cons c cs =>
        refine ⟨c, rfl, ?_⟩
        rw [hchunks.1]
        exact alignUp_mod first
    have hplaced := h.placed
    rw [Nat.min_eq_right (hlt.le.trans hpos)] at hplaced
    refine .inr ⟨_, _, hadd, ?_⟩
    exact hplaced.push (p := ⟨_, _, ranges⟩) hchunks (hgrouped.pieceValid hsrc hdeflate haligned)
      hexclusive

theorem SplitInv.pushPlain (h : SplitInv tgt src directory first pos s pieces)
    (hstart : c.start = pos) (hlen : 0 < c.rawDataLen) :
    SplitInv tgt src directory first (pos + c.rawDataLen) (s.pushPlain c) pieces := by
  refine ⟨h.placed, ?_, h.grouped.plain _ _, h.unused, h.used, h.taken, h.free⟩
  exact contiguous_append.mpr ⟨pos, h.group, hstart, hlen, rfl⟩

/-- A flush leaves an empty group behind `pos`. -/
theorem SplitInv.flush (h : SplitInv tgt src directory first pos s pieces) (hne : s.tgtChunks ≠ [])
    (hpos : pos ≤ tgt.fileContent.length) (hblocks : 0 < s.srcRanges.blocks)
    (hsrc : ∀ d ∈ src.chunks, 0 < d.rawDataLen ∧ d.start + d.rawDataLen ≤ src.fileContent.length) :
    ∃ added pieces', Applypatch.addSplitImage tgt src s.srcRanges s.tgtChunks s.srcChunks =
        some added ∧ SplitInv tgt src directory pos pos (s.flush added) pieces' := by
  obtain ⟨b, hb⟩ := List.exists_mem_of_length_pos hblocks
  have hempty : Grouped src .empty [] [] :=
    ⟨fun c hc => absurd hc List.not_mem_nil, fun d hd => absurd hd List.not_mem_nil,
      fun b hb => absurd hb List.not_mem_nil⟩
  rcases h.addSplitImage h.grouped hne hb hpos hsrc fun p hp b hb hbs =>
      h.unused b hbs (h.used p hp b hb) with ⟨hadd, hplaced⟩ | ⟨t, i, hadd, hplaced⟩
  · exact ⟨_, pieces, hadd, hplaced, rfl, hempty, fun b hb => absurd hb List.not_mem_nil, h.used,
      h.taken, h.free⟩
  · refine ⟨_, _, hadd, hplaced, rfl, hempty, fun b hb => absurd hb List.not_mem_nil,
      fun p hp b hb => ?_, fun b hb => ?_, fun p hp b hb => ?_⟩
    · rcases List.mem_append.mp hp with hp | hp
      · exact SortedRangeSet.mem_insert.mpr (.inl (h.used p hp b hb))
      · rw [List.mem_singleton.mp hp] at hb
        exact SortedRangeSet.mem_insert.mpr (.inr hb)
    · exact SortedRangeSet.mem_insert.mpr (.inl (h.taken b hb))
    · rcases List.mem_append.mp hp with hp | hp
      · exact h.free p hp b hb
      · rw [List.mem_singleton.mp hp] at hb
        exact fun hd => h.unused b hb (h.taken b hd)

/-- The source chunks that the target chunk `c` may find are within the limit. -/
def FindsWithin (tgt src : ZipModeImage) (c : ImageChunk) : Prop :=
  ∀ d, findChunkByName src.chunks c.entryName true = some d → d.rawDataLen ≤ tgt.limit

/-- A pass takes the target chunk into the group, or flushes a group that is not empty. -/
theorem SplitInv.step (h : SplitInv tgt src directory first pos s pieces)
    (hgroup : 0 < s.srcRanges.blocks → s.tgtChunks ≠ []) (hstart : c.start = pos)
    (hlen : 0 < c.rawDataLen) (hstop : pos + c.rawDataLen ≤ tgt.fileContent.length)
    (hsrc : ∀ d ∈ src.chunks, 0 < d.rawDataLen ∧ d.start + d.rawDataLen ≤ src.fileContent.length)
    (hfinds : FindsWithin tgt src c) :
    (∃ t, splitStep tgt src s c = some (t, false) ∧ t.tgtChunks ≠ [] ∧
        SplitInv tgt src directory first (pos + c.rawDataLen) t pieces) ∨
      0 < s.srcRanges.blocks ∧ ∃ t pieces', splitStep tgt src s c = some (t, true) ∧
        t.srcRanges = .empty ∧ SplitInv tgt src directory pos pos t pieces' := by
  have hplain := h.pushPlain hstart hlen
  have hpushed : ∀ (cs : List ImageChunk) (d : ImageChunk), cs ++ [d] ≠ [] := fun cs d =>
    List.append_ne_nil_of_right_ne_nil cs (List.cons_ne_nil d [])
  rw [splitStep]
  cases hfound : findChunkByName src.chunks c.entryName true with
  | none => exact .inl ⟨_, rfl, hpushed _ _, hplain⟩
  | some d =>
    have hmem : d ∈ src.chunks := by
      rw [findChunkByName, Option.ite_none_left_eq_some] at hfound
      exact List.mem_of_find?_eq_some hfound.2
    obtain ⟨hdlen, hdstop⟩ := hsrc d hmem
    dsimp only
    rw [if_pos ⟨hdlen, hfinds d hfound⟩]
    cases hremove : removeUsedBlocks d.start d.rawDataLen s.usedRanges with
    | none => exact .inl ⟨_, rfl, hpushed _ _, hplain⟩
    | some piece =>
      obtain ⟨offset, length⟩ := piece
      obtain ⟨hpos, hfrom, hto, hfree⟩ := removeUsedBlocks_spec hdlen hremove
      dsimp only
      by_cases hroom : s.srcRanges.blocks * blockSize + length ≤ tgt.limit
      · rw [if_pos hroom]
        have hgrouped := h.grouped.insertPiece hpos (hto.trans hdstop)
        have hunused : ∀ b ∈ (s.srcRanges.insertPiece offset length).expand,
            b ∉ s.usedRanges.expand := by
          intro b hb hused
          rcases SortedRangeSet.mem_insertPiece.mp hb with hb | hb
          · exact h.unused b hb hused
          · have hoverlap := (SortedRangeSet.overlaps_iff _ _).mpr
              ⟨b, hused, SortedRangeSet.mem_blockRange.mpr hb⟩
            exact absurd (hfree.symm.trans hoverlap) Bool.false_ne_true
        by_cases hwhole : d.type = .deflate ∧ length = d.rawDataLen
        · rw [if_pos hwhole]
          obtain ⟨htype, rfl⟩ := hwhole
          obtain rfl : offset = d.start := by omega
          refine .inl ⟨_, rfl, hpushed _ _, h.placed, ?_, ?_, hunused, h.used, h.taken, h.free⟩
          · exact contiguous_append.mpr ⟨pos, h.group, hstart, hlen, rfl⟩
          · exact hgrouped.matchedPair hfound htype fun b hb hb' =>
              SortedRangeSet.mem_insertPiece.mpr (.inr ⟨hb, hb'⟩)
        · rw [if_neg hwhole]
          have hinserted : SplitInv tgt src directory first pos
              { s with srcRanges := s.srcRanges.insertPiece offset length } pieces :=
            ⟨h.placed, h.group, hgrouped, hunused, h.used, h.taken, h.free⟩
          exact .inl ⟨_, rfl, hpushed _ _, hinserted.pushPlain hstart hlen⟩
      · rw [if_neg hroom]
        have hfinds' := hfinds d hfound
        have hblocks : 0 < s.srcRanges.blocks := by
          rcases Nat.eq_zero_or_pos s.srcRanges.blocks with hzero | hblocks
          · rw [hzero] at hroom
            omega
          · exact hblocks
        obtain ⟨added, pieces', hadd, hflush⟩ :=
          h.flush (hgroup hblocks) (by omega) hblocks hsrc
        rw [hadd, Option.map_some]
        refine .inr ⟨hblocks, _, pieces', rfl, ?_, hflush⟩
        cases added <;> rfl

theorem splitLoop_step {fuel i : ℕ} {t : SplitState} (hc : tgt.chunks[i]? = some c)
    (hstep : splitStep tgt src s c = some (t, false)) :
    splitLoop tgt src (fuel + 1) i s = splitLoop tgt src fuel (i + 1) t := by
  rw [splitLoop, hc]
  dsimp only
  rw [hstep]

theorem splitLoop_again {fuel i : ℕ} {t : SplitState} (hi : i ≠ 0)
    (hc : tgt.chunks[i]? = some c) (hstep : splitStep tgt src s c = some (t, true)) :
    splitLoop tgt src (fuel + 1) i s = splitLoop tgt src fuel i t := by
  rw [splitLoop, hc]
  dsimp only
  rw [hstep]
  dsimp only
  rw [if_neg hi]

/-- The loop comes to the end of the target: it handles no chunk more than twice. -/
theorem SplitInv.loop {rest : List ImageChunk} {i fuel : ℕ}
    (h : SplitInv tgt src directory first pos s pieces)
    (hgroup : 0 < s.srcRanges.blocks → s.tgtChunks ≠ []) (hi : i = 0 → s.srcRanges.blocks = 0)
    (hdrop : tgt.chunks.drop i = rest) (hrest : Contiguous pos tgt.fileContent.length rest)
    (hne : rest ≠ [] ∨ s.tgtChunks ≠ []) (hfuel : 2 * rest.length < fuel)
    (hsrc : ∀ d ∈ src.chunks, 0 < d.rawDataLen ∧ d.start + d.rawDataLen ≤ src.fileContent.length)
    (hfinds : ∀ c ∈ rest, FindsWithin tgt src c) :
    ∃ t first' pieces', splitLoop tgt src fuel i s = some t ∧ t.tgtChunks ≠ [] ∧
      SplitInv tgt src directory first' tgt.fileContent.length t pieces' := by
  induction rest generalizing first pos s pieces i fuel with
  | nil =>
    obtain ⟨fuel, rfl⟩ := Nat.exists_eq_add_of_lt hfuel
    obtain rfl : pos = tgt.fileContent.length := hrest
    have hnone : tgt.chunks[i]? = none := List.getElem?_eq_none (List.drop_eq_nil_iff.mp hdrop)
    refine ⟨s, first, pieces, ?_, hne.resolve_left (fun hnil => hnil rfl), h⟩
    rw [splitLoop, hnone]
  | cons c rest ih =>
    have hc : tgt.chunks[i]? = some c := by
      have hzero := congrArg (fun l : List ImageChunk => l[0]?) hdrop
      rwa [List.getElem?_drop, Nat.add_zero, List.getElem?_cons_zero] at hzero
    have hdrop' : tgt.chunks.drop (i + 1) = rest := by
      rw [← List.drop_drop, hdrop, List.drop_succ_cons, List.drop_zero]
    obtain ⟨hstart, hlen, hcontiguous⟩ := hrest
    have hstop := hcontiguous.le
    have hfind := hfinds c List.mem_cons_self
    have hfinds' : ∀ d ∈ rest, FindsWithin tgt src d := fun d hd =>
      hfinds d (List.mem_cons_of_mem c hd)
    rw [List.length_cons] at hfuel
    obtain ⟨fuel, rfl⟩ : ∃ n, fuel = n + 1 + 1 := ⟨fuel - 2, by omega⟩
    rcases h.step hgroup hstart hlen hstop hsrc hfind with
      ⟨t, hstep, htne, hnext⟩ | ⟨hblocks, t, pieces', hstep, hempty, hnext⟩
    · rw [splitLoop_step hc hstep]
      exact ih hnext (fun _ => htne) (fun hzero => absurd hzero (Nat.succ_ne_zero i)) hdrop'
        hcontiguous (.inr htne) (by omega) hfinds'
    · have hblocks' : t.srcRanges.blocks = 0 := by
        rw [hempty]
        exact SortedRangeSet.blocks_empty
      rw [splitLoop_again (fun hzero => hblocks.ne' (hi hzero)) hc hstep]
      rcases hnext.step (fun hpos => absurd hblocks' hpos.ne') hstart hlen hstop hsrc hfind with
        ⟨u, hstep', hune, hlast⟩ | ⟨hpos, -⟩
      · rw [splitLoop_step hc hstep']
        exact ih hlast (fun _ => hune) (fun hzero => absurd hzero (Nat.succ_ne_zero i)) hdrop'
          hcontiguous (.inr hune) (by omega) hfinds'
      · exact absurd hblocks' hpos.ne'

/-- A loop that comes to its end has found source chunks within the limit only. -/
theorem findsWithin_of_splitLoop {fuel i : ℕ} {t : SplitState}
    (h : splitLoop tgt src fuel i s = some t) :
    ∀ c ∈ tgt.chunks.drop i, FindsWithin tgt src c := by
  induction fuel generalizing i s with
  | zero => cases h
  | succ fuel ih =>
    rw [splitLoop] at h
    cases hc : tgt.chunks[i]? with
    | none =>
      rw [List.drop_eq_nil_of_le (List.getElem?_eq_none_iff.mp hc)]
      exact fun c hc => absurd hc List.not_mem_nil
    | some c =>
      rw [hc] at h
      dsimp only at h
      have hdrop : tgt.chunks.drop i = c :: tgt.chunks.drop (i + 1) := by
        obtain ⟨hlt, rfl⟩ := List.getElem?_eq_some_iff.mp hc
        exact List.drop_eq_getElem_cons hlt
      cases hstep : splitStep tgt src s c with
      | none =>
        rw [hstep] at h
        cases h
      | some next =>
        obtain ⟨u, again⟩ := next
        rw [hstep] at h
        cases again with
        | true =>
          dsimp only at h
          rw [Option.ite_none_left_eq_some] at h
          exact ih h.2
        | false =>
          rw [hdrop]
          intro d hd
          rcases List.mem_cons.mp hd with rfl | hd
          · intro e he
            by_contra hlarge
            rw [splitStep, he] at hstep
            dsimp only at hstep
            rw [if_neg fun hle => hlarge hle.2] at hstep
            cases hstep
          · exact ih h d hd

end group
section claim
variable {tgt src : ZipModeImage} {entries : List ImageChunk} {directory : ImageChunk}

theorem splitInv_start (tgt src : ZipModeImage) (directory : ImageChunk) :
    SplitInv tgt src directory 0 0 (SplitState.start directory) [] := by
  have hstart : alignUp 0 = 0 := alignUp_of_mod (Nat.zero_mod _)
  refine ⟨⟨rfl, rfl, rfl, ?_, fun p hp => absurd hp List.not_mem_nil, List.Pairwise.nil⟩, rfl,
    ⟨fun c hc => absurd hc List.not_mem_nil, fun d hd => absurd hd List.not_mem_nil,
      fun b hb => absurd hb List.not_mem_nil⟩, fun b hb => absurd hb List.not_mem_nil,
    fun p hp => absurd hp List.not_mem_nil, fun b hb => ?_,
    fun p hp => absurd hp List.not_mem_nil⟩
  · rw [hstart, Nat.min_zero]
    exact rfl
  · exact SortedRangeSet.mem_insertPiece.mpr (.inr (SortedRangeSet.mem_blockRange.mp hb))

/-- The last images take the central directory, which no image before them has. -/
theorem SplitInv.finish {first : ℕ} {s : SplitState} {pieces : List SplitPiece}
    (h : SplitInv tgt src directory first tgt.fileContent.length s pieces) (hne : s.tgtChunks ≠ [])
    (hsrc : ∀ d ∈ src.chunks, 0 < d.rawDataLen ∧ d.start + d.rawDataLen ≤ src.fileContent.length)
    (hdirectory : directory ∈ src.chunks) :
    ∃ out, s.finish tgt src directory = some out ∧ SplitValid tgt src out := by
  obtain ⟨hlen, hstop⟩ := hsrc directory hdirectory
  have hend : min tgt.fileContent.length (alignUp tgt.fileContent.length) =
      tgt.fileContent.length := Nat.min_eq_left (le_alignUp _)
  have hblock : directory.start / blockSize ∈
      (s.srcRanges.insertPiece directory.start directory.rawDataLen).expand :=
    SortedRangeSet.mem_insertPiece.mpr (.inr ⟨le_rfl, Nat.div_le_div_right (by omega)⟩)
  rw [SplitState.finish]
  rcases h.addSplitImage (h.grouped.insertPiece hlen hstop) hne hblock le_rfl hsrc
    fun p hp b hb hbr => by
      rcases SortedRangeSet.mem_insertPiece.mp hbr with hbr | hbr
      · exact h.unused b hbr (h.used p hp b hb)
      · exact h.free p hp b hb (SortedRangeSet.mem_blockRange.mpr hbr) with
    ⟨hadd, hplaced⟩ | ⟨t, i, hadd, hplaced⟩
  · rw [hend] at hplaced
    rw [hadd]
    exact ⟨_, rfl, hplaced.splitValid⟩
  · rw [hend] at hplaced
    rw [hadd]
    exact ⟨_, rfl, hplaced.splitValid⟩

/-- With source chunks within the limit only, the split gives valid images. -/
theorem split_of_findsWithin (hchunks : src.chunks = entries ++ [directory])
    (hlayout : SourceLayout src.limit src.fileContent.length entries directory)
    (hlimit : tgt.limit = src.limit) (hpos : 0 < tgt.fileContent.length)
    (hcontiguous : Contiguous 0 tgt.fileContent.length tgt.chunks)
    (hfinds : ∀ c ∈ tgt.chunks, FindsWithin tgt src c) :
    ∃ fuel out, splitZipModeImageWithLimit fuel tgt src = some out ∧ SplitValid tgt src out := by
  have hsrc : ∀ d ∈ src.chunks,
      0 < d.rawDataLen ∧ d.start + d.rawDataLen ≤ src.fileContent.length := by
    rw [hchunks]
    intro d hd
    rcases List.mem_append.mp hd with hd | hd
    · exact ⟨(hlayout.entry d hd).1, (hlayout.entry d hd).2.2⟩
    · rw [List.mem_singleton.mp hd]
      exact ⟨hlayout.pos, hlayout.stop.le⟩
  have hdirectory : directory ∈ src.chunks := by
    rw [hchunks]
    exact List.mem_append_right _ List.mem_cons_self
  have hlast : src.chunks.getLast? = some directory := by rw [hchunks, List.getLast?_concat]
  have hne : tgt.chunks ≠ [] := by
    intro hnil
    rw [hnil] at hcontiguous
    exact absurd hcontiguous hpos.ne
  have hempty : (SplitState.start directory).srcRanges.blocks = 0 := SortedRangeSet.blocks_empty
  have hfuel : 2 * tgt.chunks.length < 2 * tgt.chunks.length + 1 := Nat.lt_succ_self _
  obtain ⟨s, first, pieces, hloop, hsne, hinv⟩ := (splitInv_start tgt src directory).loop
    (fun hblocks => absurd hempty hblocks.ne') (fun _ => hempty) List.drop_zero hcontiguous
    (.inl hne) hfuel hsrc hfinds
  obtain ⟨out, hfinish, hvalid⟩ := hinv.finish hsne hsrc hdirectory
  refine ⟨2 * tgt.chunks.length + 1, out, ?_, hvalid⟩
  rw [splitZipModeImageWithLimit, if_neg (not_not.mpr hlimit), hlast]
  dsimp only
  rw [if_neg (not_not.mpr hlayout.type), hloop]
  dsimp only
  rw [hfinish]
  dsimp only
  rw [if_pos hvalid.validated]

theorem findsWithin_of_split {fuel : ℕ} {out : SplitImages}
    (h : splitZipModeImageWithLimit fuel tgt src = some out) :
    ∀ c ∈ tgt.chunks, FindsWithin tgt src c := by
  rw [splitZipModeImageWithLimit, Option.ite_none_left_eq_some] at h
  obtain ⟨-, h⟩ := h
  cases hlast : src.chunks.getLast? with
  | none =>
    rw [hlast] at h
    cases h
  | some directory =>
    rw [hlast] at h
    dsimp only at h
    rw [Option.ite_none_left_eq_some] at h
    cases hloop : splitLoop tgt src fuel 0 (SplitState.start directory) with
    | none =>
      rw [hloop] at h
      cases h.2
    | some s =>
      have hfinds := findsWithin_of_splitLoop hloop
      rwa [List.drop_zero] at hfinds

/-- The name of the first piece of an entry without a name, under which also the nameless chunk of
the central directory is found. -/
def firstPiece : Text := ['-', '0']

/-- No target chunk finds a central directory that is larger than the limit. -/
def DirectoryFits (tgt src : ZipModeImage) : Prop :=
  (∃ c ∈ tgt.chunks, c.entryName = firstPiece) →
    (∃ d ∈ src.chunks.dropLast, d.isNamed firstPiece true = true) ∨
      ∀ d ∈ src.chunks.getLast?, d.rawDataLen ≤ src.limit

/-- The nameless chunk is found under one name only. -/
theorem SourceLayout.isNamed_iff {limit size : ℕ}
    (h : SourceLayout limit size entries directory) {name : Text} (hname : name ≠ []) :
    directory.isNamed name true = true ↔ name = firstPiece := by
  rw [ImageChunk.isNamed, h.name, Bool.or_true, Bool.true_and, Bool.or_eq_true, Bool.or_eq_true,
    decide_eq_true_eq, decide_eq_true_eq, decide_eq_true_eq, List.nil_append]
  constructor
  · rintro ((hnil | hfirst) | hlong)
    · exact absurd hnil.symm hname
    · exact hfirst
    · exact absurd hlong (List.append_ne_nil_of_left_ne_nil hname _).symm
  · exact fun hfirst => .inl (.inr hfirst)

theorem directoryFits_iff (hchunks : src.chunks = entries ++ [directory])
    (hlayout : SourceLayout src.limit src.fileContent.length entries directory)
    (hlimit : tgt.limit = src.limit) :
    DirectoryFits tgt src ↔ ∀ c ∈ tgt.chunks, FindsWithin tgt src c := by
  have hlast : src.chunks.getLast? = some directory := by rw [hchunks, List.getLast?_concat]
  have hinit : src.chunks.dropLast = entries := by rw [hchunks, List.dropLast_concat]
  have hfirst : firstPiece ≠ [] := List.cons_ne_nil _ _
  rw [DirectoryFits, hlast, hinit]
  constructor
  · intro h c hc d hfound
    rw [findChunkByName, Option.ite_none_left_eq_some, hchunks, List.find?_append] at hfound
    obtain ⟨hname, hfound⟩ := hfound
    rw [hlimit]
    cases hentry : entries.find? fun c' => c'.isNamed c.entryName true with
    | some e =>
      rw [hentry, Option.some_or] at hfound
      rw [← Option.some.inj hfound]
      exact (hlayout.entry e (List.mem_of_find?_eq_some hentry)).2.1
    | none =>
      rw [hentry, Option.none_or] at hfound
      have hd := List.mem_singleton.mp (List.mem_of_find?_eq_some hfound)
      have hnamed := List.find?_some hfound
      rw [hd] at hnamed ⊢
      have hfirstName := (hlayout.isNamed_iff hname).mp hnamed
      rcases h ⟨c, hc, hfirstName⟩ with ⟨e, he, henamed⟩ | hfits
      · rw [List.find?_eq_none, hfirstName] at hentry
        exact absurd henamed (hentry e he)
      · exact hfits directory rfl
  · rintro h ⟨c, hc, hname⟩
    by_cases hentry : ∃ e ∈ entries, e.isNamed firstPiece true = true
    · exact .inl hentry
    · refine .inr fun d hd => ?_
      have hnone : entries.find? (fun c' => c'.isNamed firstPiece true) = none := by
        rw [List.find?_eq_none]
        exact fun e he henamed => hentry ⟨e, he, henamed⟩
      have hfound : findChunkByName src.chunks c.entryName true = some directory := by
        rw [findChunkByName, hname, if_neg hfirst, hchunks, List.find?_append, hnone,
          Option.none_or, List.find?_cons_of_pos]
        exact (hlayout.isNamed_iff hfirst).mpr rfl
      rw [← Option.some.inj hd, ← hlimit]
      exact h c hc directory hfound

/-- The images of two zip files, as they are read or once their chunks are compared. -/
theorem zipImages_layout {zip : ZipArchive} (hzip : zip.WellFormed) {zlib : Zlib} {blocksLimit : ℕ}
    (hlimit : 1 ≤ blocksLimit) {tgtFile srcFile : Bytes} {tgt src tgtImage srcImage : ZipModeImage}
    (htgt : ZipModeImage.initializeZip zip false (blocksLimit * blockSize) tgtFile = some tgt)
    (hsrc : ZipModeImage.initializeZip zip true (blocksLimit * blockSize) srcFile = some src)
    (himages : (tgtImage, srcImage) = (tgt, src) ∨
      (tgtImage, srcImage) = checkAndProcessChunks zlib tgt src) :
    ∃ entries directory, srcImage.chunks = entries ++ [directory] ∧
      SourceLayout srcImage.limit srcImage.fileContent.length entries directory ∧
        tgtImage.limit = srcImage.limit ∧ srcImage.limit = blocksLimit * blockSize ∧
          0 < tgtImage.fileContent.length ∧
            Contiguous 0 tgtImage.fileContent.length tgtImage.chunks := by
  have hpos : 0 < blocksLimit * blockSize := Nat.mul_pos hlimit (by decide)
  obtain ⟨htgtFile, htgtLimit, htgtPos, hcontiguous⟩ := initialize_target hzip htgt
  obtain ⟨hsrcFile, hsrcLimit, entries, directory, hchunks, hlayout⟩ :=
    initialize_source hzip hpos hsrc
  rw [← hsrcLimit, ← hsrcFile] at hlayout
  rw [← htgtFile] at htgtPos hcontiguous
  have hsame : tgt.limit = src.limit := htgtLimit.trans hsrcLimit.symm
  rcases himages with himages | himages
  · obtain ⟨rfl, rfl⟩ := Prod.mk.inj himages
    exact ⟨entries, directory, hchunks, hlayout, hsame, hsrcLimit, htgtPos, hcontiguous⟩
  · have hnolimit : tgt.limit ≠ 0 := by
      rw [htgtLimit]
      exact hpos.ne'
    obtain ⟨processed, hprocessed, hlayout'⟩ := hlayout.processChunks hchunks zlib
      tgt.fileContent src.fileContent tgt.chunks
    have himages' : tgtImage = { tgt with
          chunks := if tgt.limit = 0 then
              mergeAdjacentNormalChunks
                (processChunks zlib tgt.fileContent src.fileContent tgt.chunks src.chunks).1
            else (processChunks zlib tgt.fileContent src.fileContent tgt.chunks src.chunks).1 } ∧
        srcImage = { src with
          chunks := (processChunks zlib tgt.fileContent src.fileContent tgt.chunks
            src.chunks).2 } := Prod.mk.inj himages
    rw [if_neg hnolimit] at himages'
    obtain ⟨rfl, rfl⟩ := himages'
    exact ⟨processed, directory, hprocessed, hlayout', hsame, hsrcLimit, htgtPos,
      processChunks_contiguous hcontiguous _⟩

end claim
/-- Every pair of zip files that is accepted is split. -/
def SplitsEveryPair (zip : ZipArchive) : Prop :=
  ∀ (blocksLimit : ℕ) (tgtFile srcFile : Bytes) (tgt src : ZipModeImage), 1 ≤ blocksLimit →
    ZipModeImage.initializeZip zip false (blocksLimit * blockSize) tgtFile = some tgt →
      ZipModeImage.initializeZip zip true (blocksLimit * blockSize) srcFile = some src →
        ∃ fuel out, splitZipModeImageWithLimit fuel tgt src = some out ∧ SplitValid tgt src out

/-- An end record at the very end of the file is found at once. -/
theorem getZipFileSize_endRecord {body record : Bytes} (hrecord : record.length = 22)
    (hsignature : field record 0 4 = 0x06054b50) (hdisk : field record 4 2 = 0)
    (hcomment : field record 20 2 = 0) (hbody : body.length < 2 ^ 31) :
    getZipFileSize (body ++ record) = some (body ++ record).length := by
  have hlength : (body ++ record).length = body.length + 22 := by rw [List.length_append, hrecord]
  have hfield : ∀ start len, field (body ++ record) (body.length + start) len =
      field record start len := by
    intro start len
    rw [field, field, List.drop_append, Nat.add_sub_cancel_left,
      List.drop_eq_nil_of_le (Nat.le_add_right _ _), List.nil_append]
  have hfound : findEocd (body ++ record) body.length = some body.length := by
    have hhere := hfield 0 4
    rw [Nat.add_zero, hsignature] at hhere
    cases hn : body.length with
    | zero => rw [hn] at hhere; exact if_pos hhere
    | succ n => rw [hn] at hhere; exact if_pos hhere
  have hmod : body.length % 2 ^ 32 = body.length := Nat.mod_eq_of_lt (by omega)
  rw [getZipFileSize, hlength, if_neg (by omega), Nat.add_sub_cancel]
  dsimp only
  rw [hmod, if_neg (by omega), hfound]
  dsimp only
  rw [hfield 20 2, hfield 4 2, hdisk, hcomment, if_pos ⟨rfl, by omega⟩]

theorem initializeZip_eq {file : Bytes} (hsize : getZipFileSize file = some file.length)
    {zip : ZipArchive} {es : List ZipEntry} (hentries : zip.entries file = some es)
    {isSource : Bool} {limit : ℕ} {chunks : List ImageChunk}
    (hchunks : ZipModeImage.initializeChunks isSource limit file es = some chunks) :
    ZipModeImage.initializeZip zip isSource limit file = some ⟨isSource, limit, file, chunks⟩ := by
  rw [ZipModeImage.initializeZip, hsize]
  simp only [Option.bind_eq_bind, Option.bind_some, List.take_length, hentries, hchunks]

/-- A zip file with one stored entry of one byte, and a comment in the central directory. -/
def storedZip (name comment : Bytes) : Bytes :=
  let u16 (n : ℕ) : Bytes := [UInt8.ofNat n, UInt8.ofNat (n / 256)]
  let crcAndSizes : Bytes := [0x83, 0x16, 0xdc, 0x8c, 1, 0, 0, 0, 1, 0, 0, 0]
  let header : Bytes := [0x50, 0x4b, 3, 4, 10, 0, 0, 0, 0, 0, 0, 0, 0, 0] ++ crcAndSizes ++
    u16 name.length ++ u16 0 ++ name
  let directory : Bytes :=
    [0x50, 0x4b, 1, 2, 10, 0, 10, 0, 0, 0, 0, 0, 0, 0, 0, 0] ++ crcAndSizes ++
    u16 name.length ++ u16 0 ++ u16 comment.length ++ List.replicate 12 0 ++ name ++ comment
  header ++ [0x78] ++ directory ++ [0x50, 0x4b, 5, 6, 0, 0, 0, 0, 1, 0, 1, 0] ++
    u16 directory.length ++ [0, 0] ++ u16 (header.length + 1) ++ [0, 0] ++ u16 0

def pieceZip : Bytes := storedZip [0x2d, 0x30] []

def commentZip : Bytes := storedZip [0x61] (List.replicate 4096 0x20)

/-- The entries of the two files, which differ in length. -/
def exampleArchive : ZipArchive where
  entries archive :=
    if archive.length = pieceZip.length then some [⟨firstPiece, false, 32, 1, some [0x78]⟩]
    else if archive.length = commentZip.length then some [⟨['a'], false, 31, 1, some [0x78]⟩]
    else none

theorem storedZip_length (name comment : Bytes) :
    (storedZip name comment).length = 99 + 2 * name.length + comment.length := by
  simp only [storedZip, List.length_append, List.length_cons, List.length_nil,
    List.length_replicate]
  omega

theorem commentZip_length : commentZip.length = 4197 := by
  rw [commentZip, storedZip_length, List.length_replicate]
  rfl

theorem getZipFileSize_directory {body : Bytes} (a₀ a₁ b₀ b₁ : UInt8)
    (hbody : body.length < 2 ^ 31) :
    getZipFileSize (body ++ [0x50, 0x4b, 5, 6, 0, 0, 0, 0, 1, 0, 1, 0] ++ [a₀, a₁] ++ [0, 0] ++
        [b₀, b₁] ++ [0, 0] ++ [0, 0]) =
      some (body ++ [0x50, 0x4b, 5, 6, 0, 0, 0, 0, 1, 0, 1, 0] ++ [a₀, a₁] ++ [0, 0] ++
        [b₀, b₁] ++ [0, 0] ++ [0, 0]).length := by
  rw [List.append_assoc, List.append_assoc, List.append_assoc, List.append_assoc,
    List.append_assoc]
  have hsignature : field [0x50, 0x4b, 5, 6] 0 4 = 0x06054b50 := by decide
  have hzero : field [0, 0] 0 2 = 0 := by decide
  exact getZipFileSize_endRecord rfl hsignature hzero hzero hbody

theorem storedZip_size {name comment : Bytes}
    (h : 99 + 2 * name.length + comment.length < 2 ^ 31) :
    getZipFileSize (storedZip name comment) = some (storedZip name comment).length := by
  refine getZipFileSize_directory _ _ _ _ ?_
  simp only [List.length_append, List.length_cons, List.length_nil, List.length_replicate]
  omega

theorem exampleArchive_wellFormed : exampleArchive.WellFormed := by
  have hcases : ∀ {archive es}, exampleArchive.entries archive = some es →
      ∃ e, es = [e] ∧ e.offset + e.compressedLength < archive.length := by
    intro archive es h
    rw [exampleArchive] at h
    dsimp only at h
    split_ifs at h with hpiece hcomment
    · rw [hpiece]
      exact ⟨_, (Option.some.inj h).symm, by decide⟩
    · rw [hcomment, commentZip_length]
      exact ⟨_, (Option.some.inj h).symm, by decide⟩
  constructor
  · intro archive es h e he
    obtain ⟨d, rfl, hinside⟩ := hcases h
    rw [List.mem_singleton.mp he]
    exact hinside
  · intro archive es h
    obtain ⟨d, rfl, -⟩ := hcases h
    exact List.pairwise_singleton _ _

theorem commentZip_size : getZipFileSize commentZip = some commentZip.length := by
  apply storedZip_size
  rw [List.length_replicate]
  decide

theorem commentZip_source : ZipModeImage.initializeZip exampleArchive true (1 * blockSize)
    commentZip = some ⟨true, 1 * blockSize, commentZip,
      [ImageChunk.ofRange .normal 31 1 ['a'], ImageChunk.plain 32 4165]⟩ := by
  have hentries : exampleArchive.entries commentZip =
      some [⟨['a'], false, 31, 1, some [0x78]⟩] := by
    have hpiece : commentZip.length ≠ pieceZip.length := by
      rw [commentZip_length, pieceZip, storedZip_length]
      decide
    rw [exampleArchive]
    dsimp only
    rw [if_neg hpiece, if_pos rfl]
  refine initializeZip_eq commentZip_size hentries ?_
  rw [ZipModeImage.initializeChunks, if_pos rfl, sourceChunks, commentZip_length]
  rfl

end BootableRecovery.Applypatch
