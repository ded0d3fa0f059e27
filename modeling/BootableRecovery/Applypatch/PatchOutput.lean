import BootableRecovery.Applypatch.PatchChunk

namespace BootableRecovery.Applypatch
open Lib

/-! What `ApplyImagePatch` hands to the sink, with the libraries that imgdiff has used. -/

section output
variable (c : Codec) (old patch : Bytes) (bonusData : Option Bytes) (i pos : ℕ)

/-- The source of the deflate chunk at `pos`. -/
def expandedSource : Bytes :=
  let expandedLen := field patch (pos + 28) 8
  if expandedLen = 0 then []
  else
    let source := range old (field patch (pos + 4) 8) (u32 (field patch (pos + 12) 8))
    withBonus ((c.inflater.call source 0 (u32 expandedLen)).2.take (u32 expandedLen))
      (bonusOf bonusData i) expandedLen

def deflateParamsAt : DeflateParams where
  level := field patch (pos + 44) 4
  method := field patch (pos + 48) 4
  windowBits := field patch (pos + 52) 4
  memLevel := field patch (pos + 56) 4
  strategy := field patch (pos + 60) 4

/-- The deflation of what `bspatch` streams, which ends with the expected length. -/
def streamed : Option Bytes :=
  (c.bspatch (expandedSource c old patch bonusData i pos)
    (patch.drop (field patch (pos + 20) 8))).bind fun data =>
      if data.length = field patch (pos + 36) 8 then c.deflate (deflateParamsAt patch pos) data
      else none

/-- The answers of the libraries for the chunk at `pos`; there is memory for it, and the sink takes
everything. -/
def Codec.answers : PatchLib where
  allocates _ _ := true
  inflateInit _ := true
  inflate _ input availOut := c.inflater.call input 0 availOut
  deflateInit _ := true
  bspatch _ src rest := (c.bspatch src rest).isSome
  deflateEnds _ := (streamed c old patch bonusData i pos).isSome
  sink _ data := data.length

/-- What the sink gets of a chunk that is followed by the next one. -/
def emitted : Bytes :=
  if field patch pos 4 = chunkNormal then
    (c.bspatch (range old (field patch (pos + 4) 8) (field patch (pos + 12) 8))
      (patch.drop (field patch (pos + 20) 8))).getD []
  else if field patch pos 4 = chunkRaw then
    range patch (pos + 8) (signExtend (field patch (pos + 4) 4))
  else (streamed c old patch bonusData i pos).getD []

/-- The chunks from `i` on, and the output of those that come to their end. -/
def streamChunks : ℕ → ℕ → ℕ → ChunkResult × Bytes
  | 0, _, _ => (.returned 0, [])
  | n + 1, i, pos =>
    match applyChunk (c.answers old patch bonusData i pos) old patch i bonusData pos with
    | .next pos' => (streamChunks n (i + 1) pos').map id (emitted c old patch bonusData i pos ++ ·)
    | result => (result, [])

def streamImagePatch : ChunkResult × Bytes :=
  if patch.length < 12 then (.returned (-1), [])
  else if patch.take 8 ≠ imgdiff2 then (.returned (-1), [])
  else streamChunks c old patch bonusData (chunkCount patch) 0 12

end output

/-- A patch chunk from which the target data `out` come back, as the chunk `i`. -/
inductive Restores (c : Codec) (old : Bytes) (bonusData : Option Bytes) (i : ℕ) (out : Bytes)
    (p : PatchChunk) : Prop
  | raw (htype : p.type = .raw) (hdata : p.data = out) (hlen : out.length < 2 ^ 31)
  | normal (htype : p.type = .normal) (hsource : p.sourceStart + p.sourceLen ≤ old.length)
      (hpatch : ∀ rest, c.bspatch (range old p.sourceStart p.sourceLen) (p.data ++ rest) = some out)
  | deflate (taken : ℕ) (expanded data : Bytes) (htype : p.type = .deflate)
      (hsource : p.sourceStart + p.sourceLen ≤ old.length) (hlen : p.sourceLen < 2 ^ 32)
      (hinflate : c.inflater.inflate (range old p.sourceStart p.sourceLen) = .ended taken expanded)
      (hexpanded : p.sourceUncompressedLen = (expanded ++ bonusOf bonusData i).length)
      (hroom : p.sourceUncompressedLen < 2 ^ 32)
      (hpatch : ∀ rest, c.bspatch (expanded ++ bonusOf bonusData i) (p.data ++ rest) =
        some data)
      (htarget : p.targetUncompressedLen = data.length) (hne : data ≠ [])
      (hsmall : data.length < 2 ^ 64) (hlevel : p.targetCompressLevel < 2 ^ 32)
      (hdeflate : c.deflate (imageParams p.targetCompressLevel) data = some out)

/-- A deflate chunk whose source range is no deflated data. -/
structure Breaks (c : Codec) (old : Bytes) (p : PatchChunk) : Prop where
  type : p.type = .deflate
  source : p.sourceStart + p.sourceLen ≤ old.length
  len : p.sourceLen < 2 ^ 32
  inflate : ∃ out, c.inflater.inflate (range old p.sourceStart p.sourceLen) = .failed out
  expanded : p.sourceUncompressedLen ≠ 0
  room : p.sourceUncompressedLen < 2 ^ 32
  target : p.targetUncompressedLen < 2 ^ 64
  level : p.targetCompressLevel < 2 ^ 32

/-! ### One chunk -/

section chunk
variable {c : Codec} {old patch rest tail out : Bytes} {bonusData : Option Bytes}
  {i pos len n offset : ℕ} {p : PatchChunk}

theorem field_of_drop (hdrop : patch.drop pos = littleEndianBytes len n ++ rest)
    (h : n < 256 ^ len) : field patch pos len = n := by
  rw [field, hdrop, List.take_left' (littleEndianBytes_length len n), littleEndian_bytes,
    Nat.mod_eq_of_lt h]

theorem drop_behind {bytes : Bytes} (hdrop : patch.drop pos = bytes ++ rest)
    (hlen : bytes.length = len) : patch.drop (pos + len) = rest := by
  rw [← List.drop_drop, hdrop, List.drop_left' hlen]

theorem add_le_of_drop {bytes : Bytes} (hdrop : patch.drop pos = bytes ++ rest)
    (hpos : pos ≤ patch.length) : pos + bytes.length ≤ patch.length := by
  have hlen := congrArg List.length hdrop
  rw [List.length_drop, List.length_append] at hlen
  omega

theorem drop_field {m : ℕ} (hdrop : patch.drop pos = littleEndianBytes len n ++ rest)
    (hlen : len = m) : patch.drop (pos + m) = rest :=
  drop_behind hdrop ((littleEndianBytes_length len n).trans hlen)

/-- A normal chunk is patched from its source range. -/
theorem applyChunk_normal (hpatch : patch.length < 2 ^ 63) (hold : old.length < 2 ^ 63)
    (hpos : pos ≤ patch.length) (htype : p.type = .normal)
    (hdrop : patch.drop pos = p.writeHeader offset ++ rest)
    (hsource : p.sourceStart + p.sourceLen ≤ old.length) (hoffset : offset ≤ patch.length)
    (hpayload : patch.drop offset = p.data ++ tail)
    (hbspatch : c.bspatch (range old p.sourceStart p.sourceLen) (p.data ++ tail) = some out) :
    applyChunk (c.answers old patch bonusData i pos) old patch i bonusData pos =
        .next (pos + p.headerSize) ∧
      emitted c old patch bonusData i pos = out := by
  have hend := add_le_of_drop hdrop hpos
  rw [PatchChunk.writeHeader_length] at hend
  rw [PatchChunk.headerSize, htype] at hend ⊢
  rw [PatchChunk.writeHeader, htype] at hdrop
  dsimp only at hend hdrop ⊢
  simp only [List.append_assoc] at hdrop
  have hstart := drop_field hdrop rfl
  have hlen := drop_field hstart rfl
  have hoff := drop_field hlen rfl
  have h0 : field patch pos 4 = chunkNormal := field_of_drop hdrop (by decide)
  have h1 : field patch (pos + 4) 8 = p.sourceStart := field_of_drop hstart (by omega)
  have h2 : field patch (pos + 4 + 8) 8 = p.sourceLen := field_of_drop hlen (by omega)
  have h3 : field patch (pos + 4 + 8 + 8) 8 = offset := field_of_drop hoff (by omega)
  have hsum := u64_of_lt (hsource.trans_lt (hold.trans (by decide)))
  constructor
  · rw [applyChunk_eq hpatch (by omega), if_pos h0, applyNormal_eq hpatch (by omega), h1, h2, h3,
      hsum, if_neg (not_lt.mpr hsource), if_neg fun hall => not_inside hsource hall.2,
      applyBSDiffPatch, if_pos hoffset, hpayload]
    change (if (c.bspatch _ _).isSome = true then _ else _) = _
    rw [hbspatch]
    exact if_pos rfl
  · rw [emitted, if_pos h0, h1, show pos + 12 = pos + 4 + 8 from rfl,
      show pos + 20 = pos + 4 + 8 + 8 from rfl, h2, h3, hpayload, hbspatch, Option.getD_some]

/-- A raw chunk is its data. -/
theorem applyChunk_raw (hpatch : patch.length < 2 ^ 63) (hpos : pos ≤ patch.length)
    (htype : p.type = .raw) (hdrop : patch.drop pos = p.writeHeader offset ++ rest)
    (hsmall : p.data.length < 2 ^ 31) :
    applyChunk (c.answers old patch bonusData i pos) old patch i bonusData pos =
        .next (pos + p.headerSize) ∧
      emitted c old patch bonusData i pos = p.data := by
  have hend := add_le_of_drop hdrop hpos
  rw [PatchChunk.writeHeader_length] at hend
  rw [PatchChunk.headerSize, htype] at hend ⊢
  rw [PatchChunk.writeHeader, htype] at hdrop
  dsimp only at hend hdrop ⊢
  simp only [List.append_assoc] at hdrop
  have hlen := drop_field hdrop rfl
  have hdata := drop_field hlen rfl
  have h0 : field patch pos 4 = chunkRaw := field_of_drop hdrop (by decide)
  have h1 : field patch (pos + 4) 4 = p.data.length := field_of_drop hlen (by omega)
  have hsign : signExtend p.data.length = p.data.length := if_pos hsmall
  have hrange : range patch (pos + 4 + 4) p.data.length = p.data := by
    rw [range, hdata, List.take_left]
  have hsink : (c.answers old patch bonusData i pos).sink i p.data = p.data.length := rfl
  constructor
  · rw [applyChunk_eq hpatch (by omega), if_neg (by rw [h0]; decide), if_pos h0,
      applyRaw_eq hpatch (by omega), h1, hsign, u64_of_lt (by omega),
      if_neg (not_lt.mpr (by omega)), if_neg (not_inside (by omega)), hrange, hsink,
      if_neg (not_not.mpr rfl)]
    exact congrArg ChunkResult.next (by omega)
  · rw [emitted, if_neg (by rw [h0]; decide), if_pos h0, h1, hsign]
    exact hrange

/-- One call of `inflate` suffices when there is room for the output. -/
theorem call_whole {input expanded : Bytes} {taken availOut : ℕ}
    (heager : c.inflater.eager input = true)
    (hinflate : c.inflater.inflate input = .ended taken expanded)
    (hroom : expanded.length ≤ availOut) :
    c.inflater.call input 0 availOut = (inflateEnd, expanded) := by
  have hleft : expanded.length < availOut ∨
      expanded.length = availOut ∧ c.inflater.eager input = true :=
    hroom.lt_or_eq.imp_right fun heq => ⟨heq, heager⟩
  rw [Inflater.call, hinflate]
  exact if_pos hleft

theorem withBonus_whole (expanded bonus : Bytes) :
    withBonus expanded bonus (expanded ++ bonus).length = expanded ++ bonus := by
  rw [withBonus, List.length_append, Nat.add_sub_cancel_left, Nat.add_sub_cancel]
  by_cases h : bonus = []
  · rw [if_pos h, h]
    rfl
  · rw [if_neg h, List.take_left]

/-- The fields of a deflate chunk, at `pos` of a patch. -/
structure DeflateAt (patch : Bytes) (pos offset : ℕ) (p : PatchChunk) : Prop where
  type : field patch pos 4 = chunkDeflate
  sourceStart : field patch (pos + 4) 8 = p.sourceStart
  sourceLen : field patch (pos + 12) 8 = p.sourceLen
  offset : field patch (pos + 20) 8 = offset
  expandedLen : field patch (pos + 28) 8 = p.sourceUncompressedLen
  targetLen : field patch (pos + 36) 8 = p.targetUncompressedLen
  params : deflateParamsAt patch pos = imageParams p.targetCompressLevel

theorem deflateAt_of_drop (htype : p.type = .deflate)
    (hdrop : patch.drop pos = p.writeHeader offset ++ rest) (hstart : p.sourceStart < 2 ^ 63)
    (hlen : p.sourceLen < 2 ^ 32) (hoffset : offset < 2 ^ 63)
    (hexpanded : p.sourceUncompressedLen < 2 ^ 32) (htarget : p.targetUncompressedLen < 2 ^ 64)
    (hlevel : p.targetCompressLevel < 2 ^ 32) : DeflateAt patch pos offset p := by
  rw [PatchChunk.writeHeader, htype] at hdrop
  simp only [List.append_assoc] at hdrop
  have h4 := drop_field hdrop rfl
  have h12 := drop_field h4 rfl
  have h20 := drop_field h12 rfl
  have h28 := drop_field h20 rfl
  have h36 := drop_field h28 rfl
  have h44 := drop_field h36 rfl
  have h48 := drop_field h44 rfl
  have h52 := drop_field h48 rfl
  have h56 := drop_field h52 rfl
  have h60 := drop_field h56 rfl
  have f44 : field patch (pos + 44) 4 = p.targetCompressLevel := field_of_drop h44 (by omega)
  have f48 : field patch (pos + 48) 4 = 8 := field_of_drop h48 (by decide)
  have f52 : field patch (pos + 52) 4 = 2 ^ 32 - 15 := field_of_drop h52 (by decide)
  have f56 : field patch (pos + 56) 4 = 8 := field_of_drop h56 (by decide)
  have f60 : field patch (pos + 60) 4 = 0 := field_of_drop h60 (by decide)
  exact {
    type := field_of_drop hdrop (by decide)
    sourceStart := field_of_drop h4 (by omega)
    sourceLen := field_of_drop h12 (by omega)
    offset := field_of_drop h20 (by omega)
    expandedLen := field_of_drop h28 (by omega)
    targetLen := field_of_drop h36 (by omega)
    params := by
      rw [deflateParamsAt, f44, f48, f52, f56, f60]
      rfl }

section deflate
variable {taken : ℕ} {expanded data : Bytes} (hat : DeflateAt patch pos offset p)
  (heager : ∀ input, c.inflater.eager input = true) (hlen : p.sourceLen < 2 ^ 32)
  (hinflate : c.inflater.inflate (range old p.sourceStart p.sourceLen) = .ended taken expanded)
  (hexpanded : p.sourceUncompressedLen = (expanded ++ bonusOf bonusData i).length)
  (hroom : p.sourceUncompressedLen < 2 ^ 32)
include hat heager hlen hinflate hexpanded hroom

omit hat hlen hroom in
theorem inflate_source :
    c.inflater.call (range old p.sourceStart p.sourceLen) 0 p.sourceUncompressedLen =
        (inflateEnd, expanded) ∧
      expanded.take p.sourceUncompressedLen = expanded := by
  have hle : expanded.length ≤ p.sourceUncompressedLen := by
    rw [hexpanded, List.length_append]
    exact Nat.le_add_right _ _
  exact ⟨call_whole (heager _) hinflate hle, List.take_of_length_le hle⟩

theorem expandedSource_eq :
    expandedSource c old patch bonusData i pos = expanded ++ bonusOf bonusData i := by
  obtain ⟨hcall, htake⟩ := inflate_source heager hinflate hexpanded
  rw [expandedSource, hat.expandedLen, hat.sourceStart, hat.sourceLen, u32_of_lt hlen,
    u32_of_lt hroom]
  by_cases hzero : p.sourceUncompressedLen = 0
  · rw [if_pos hzero]
    exact (List.length_eq_zero_iff.mp (hexpanded.symm.trans hzero)).symm
  · rw [if_neg hzero]
    dsimp only
    rw [hcall, htake, hexpanded, withBonus_whole]

theorem applyExpanded_source (hsource : p.sourceStart + p.sourceLen ≤ old.length) :
    applyExpanded (c.answers old patch bonusData i pos) old patch i bonusData (pos + 4) =
      applyStreamOutput (c.answers old patch bonusData i pos) patch i
        (expanded ++ bonusOf bonusData i) offset (pos + 4) (pos + 64) := by
  obtain ⟨hcall, htake⟩ := inflate_source heager hinflate hexpanded
  have hinflated : (c.answers old patch bonusData i pos).inflate i
      (range old p.sourceStart p.sourceLen) p.sourceUncompressedLen = (inflateEnd, expanded) :=
    hcall
  have hinit : ¬(c.answers old patch bonusData i pos).inflateInit i = false := Bool.noConfusion
  have halloc :
      ¬(c.answers old patch bonusData i pos).allocates i p.sourceUncompressedLen = false :=
    Bool.noConfusion
  have hle : p.sourceUncompressedLen - expanded.length = (bonusOf bonusData i).length := by
    rw [hexpanded, List.length_append, Nat.add_sub_cancel_left]
  have hbonus : ¬p.sourceUncompressedLen < (bonusOf bonusData i).length := by omega
  generalize c.answers old patch bonusData i pos = lib at hinflated hinit halloc ⊢
  cases lib
  rw [applyExpanded]
  dsimp only
  rw [show pos + 4 + 24 = pos + 28 from rfl, show pos + 4 + 16 = pos + 20 from rfl,
    show pos + 4 + 8 = pos + 12 from rfl, hat.expandedLen, hat.sourceStart, hat.sourceLen,
    hat.offset, u32_of_lt hlen, u32_of_lt hroom]
  by_cases hzero : p.sourceUncompressedLen = 0
  · rw [if_pos hzero, List.length_eq_zero_iff.mp (hexpanded.symm.trans hzero)]
  · rw [if_neg hzero, if_neg halloc, if_neg hinit, if_neg (not_inside hsource)]
    dsimp only at hinflated
    rw [hinflated]
    dsimp only
    rw [if_neg (not_not.mpr rfl), htake, hle, if_neg (not_not.mpr rfl), if_neg hbonus, hexpanded,
      withBonus_whole]

/-- A deflate chunk is patched from the inflation of its source range. -/
theorem applyChunk_deflate (hpatch : patch.length < 2 ^ 63) (hold : old.length < 2 ^ 63)
    (hend : pos + 64 ≤ patch.length) (hsource : p.sourceStart + p.sourceLen ≤ old.length)
    (hoffset : offset ≤ patch.length) (hpayload : patch.drop offset = p.data ++ tail)
    (hbspatch : c.bspatch (expanded ++ bonusOf bonusData i) (p.data ++ tail) = some data)
    (htarget : p.targetUncompressedLen = data.length) (hne : data ≠ [])
    (hdeflate : c.deflate (imageParams p.targetCompressLevel) data = some out) :
    applyChunk (c.answers old patch bonusData i pos) old patch i bonusData pos = .next (pos + 64) ∧
      emitted c old patch bonusData i pos = out := by
  have hsum := u64_of_lt (hsource.trans_lt (hold.trans (by decide)))
  have hnormal : field patch pos 4 ≠ chunkNormal := by
    rw [hat.type]
    decide
  have hraw : field patch pos 4 ≠ chunkRaw := by
    rw [hat.type]
    decide
  have hstream : streamed c old patch bonusData i pos = some out := by
    rw [streamed, expandedSource_eq hat heager hlen hinflate hexpanded hroom, hat.offset, hpayload,
      hbspatch, Option.bind_some, hat.targetLen, if_pos htarget.symm, hat.params, hdeflate]
  have hends : (c.answers old patch bonusData i pos).deflateEnds i = true := by
    change (streamed c old patch bonusData i pos).isSome = true
    rw [hstream]
    rfl
  have hpatches : (c.answers old patch bonusData i pos).bspatch i (expanded ++ bonusOf bonusData i)
      (p.data ++ tail) = true := by
    change (c.bspatch _ _).isSome = true
    rw [hbspatch]
    rfl
  have hpositive : p.targetUncompressedLen ≠ 0 := by
    rw [htarget]
    exact fun hzero => hne (List.length_eq_zero_iff.mp hzero)
  constructor
  · rw [applyChunk_eq hpatch (by omega), if_neg hnormal, if_neg hraw, if_pos hat.type,
      applyDeflate_eq hpatch (by omega), hat.sourceStart, show pos + 4 + 8 = pos + 12 from rfl,
      hat.sourceLen, hsum, if_neg (not_lt.mpr hsource),
      applyExpanded_source hat heager hlen hinflate hexpanded hroom hsource, applyStreamOutput]
    rw [show pos + 4 + 32 = pos + 36 from rfl, hat.targetLen, if_neg hpositive]
    refine (if_neg Bool.noConfusion).trans ?_
    rw [applyBSDiffPatch, if_pos hoffset, hpayload, if_pos hpatches, if_pos hends]
  · rw [emitted, if_neg hnormal, if_neg hraw, hstream, Option.getD_some]

end deflate

theorem call_failed {input written : Bytes} (availOut : ℕ)
    (hinflate : c.inflater.inflate input = .failed written) :
    (c.inflater.call input 0 availOut).1 ≠ inflateEnd := by
  have herror : zDataError ≠ inflateEnd := by decide
  have hfull : zBufError ≠ inflateEnd := by decide
  have hmore : zOk ≠ inflateEnd := by decide
  rw [Inflater.call, hinflate]
  split_ifs
  · exact herror
  · exact hfull
  · exact hmore

/-- The decoder stops at a chunk whose source does not inflate. -/
theorem Breaks.applyChunk (h : Breaks c old p) (hpatch : patch.length < 2 ^ 63)
    (hold : old.length < 2 ^ 63) (hpos : pos ≤ patch.length)
    (hoffset : offset ≤ patch.length) (hdrop : patch.drop pos = p.writeHeader offset ++ rest) :
    applyChunk (c.answers old patch bonusData i pos) old patch i bonusData pos =
      .returned (-1) := by
  have hend := add_le_of_drop hdrop hpos
  rw [PatchChunk.writeHeader_length, PatchChunk.headerSize, h.type] at hend
  dsimp only at hend
  have hsource := h.source
  have hat := deflateAt_of_drop h.type hdrop (by omega) h.len (by omega) h.room h.target h.level
  obtain ⟨written, hinflate⟩ := h.inflate
  have hret : ((c.answers old patch bonusData i pos).inflate i
      (range old p.sourceStart p.sourceLen) p.sourceUncompressedLen).1 ≠ inflateEnd :=
    call_failed p.sourceUncompressedLen hinflate
  have hinit : ¬(c.answers old patch bonusData i pos).inflateInit i = false := Bool.noConfusion
  have halloc :
      ¬(c.answers old patch bonusData i pos).allocates i p.sourceUncompressedLen = false :=
    Bool.noConfusion
  generalize c.answers old patch bonusData i pos = lib at hret hinit halloc ⊢
  cases lib
  rw [applyChunk_eq hpatch (by omega), if_neg (by rw [hat.type]; decide),
    if_neg (by rw [hat.type]; decide), if_pos hat.type, applyDeflate_eq hpatch (by omega),
    hat.sourceStart, show pos + 4 + 8 = pos + 12 from rfl, hat.sourceLen,
    u64_of_lt (by omega), if_neg (not_lt.mpr hsource), applyExpanded]
  dsimp only
  rw [show pos + 4 + 24 = pos + 28 from rfl, show pos + 4 + 8 = pos + 12 from rfl, hat.expandedLen,
    hat.sourceStart, hat.sourceLen, u32_of_lt h.len, u32_of_lt h.room, if_neg h.expanded,
    if_neg halloc, if_neg hinit, if_neg (not_inside hsource)]
  exact if_pos hret

/-- The chunk whose header stands at `pos`, with its patch at `offset`, gives the data of the target
and leads to the next header. -/
theorem Restores.applyChunk (heager : ∀ input, c.inflater.eager input = true)
    (hpatch : patch.length < 2 ^ 63) (hold : old.length < 2 ^ 63) (hpos : pos ≤ patch.length)
    (hoffset : offset ≤ patch.length) (h : Restores c old bonusData i out p)
    (hdrop : patch.drop pos = p.writeHeader offset ++ rest)
    (hpayload : patch.drop offset = p.payload ++ tail) :
    applyChunk (c.answers old patch bonusData i pos) old patch i bonusData pos =
        .next (pos + p.headerSize) ∧
      emitted c old patch bonusData i pos = out := by
  cases h with
  | raw htype hdata hlen =>
    rw [← hdata] at hlen ⊢
    exact applyChunk_raw hpatch hpos htype hdrop hlen
  | normal htype hsource hbspatch =>
    rw [PatchChunk.payload, htype] at hpayload
    exact applyChunk_normal hpatch hold hpos htype hdrop hsource hoffset hpayload (hbspatch tail)
  | deflate taken expanded data htype hsource hlen hinflate hexpanded hroom hbspatch htarget hne
      hsmall hlevel hdeflate =>
    have hend := add_le_of_drop hdrop hpos
    rw [PatchChunk.writeHeader_length, PatchChunk.headerSize, htype] at hend
    rw [PatchChunk.payload, htype] at hpayload
    rw [PatchChunk.headerSize, htype]
    have hat := deflateAt_of_drop htype hdrop (by omega) hlen (by omega) hroom (htarget ▸ hsmall)
      hlevel
    exact applyChunk_deflate hat heager hlen hinflate hexpanded hroom hpatch hold hend hsource
      hoffset hpayload (hbspatch tail) htarget hne hdeflate

end chunk

/-- A relation of pieces of the target and patch chunks, from the chunk `i` on. -/
def Chunkwise (R : ℕ → Bytes → PatchChunk → Prop) : ℕ → List Bytes → List PatchChunk → Prop
  | _, [], [] => True
  | i, out :: outs, p :: ps => R i out p ∧ Chunkwise R (i + 1) outs ps
  | _, _, _ => False

section run
variable {c : Codec} {old patch rest tail : Bytes} {bonusData : Option Bytes} {i pos offset : ℕ}
  {outs : List Bytes} {ps : List PatchChunk}

theorem streamChunks_restores (heager : ∀ input, c.inflater.eager input = true)
    (hpatch : patch.length < 2 ^ 63) (hold : old.length < 2 ^ 63) (hpos : pos ≤ patch.length)
    (hoffset : offset ≤ patch.length) (h : Chunkwise (Restores c old bonusData) i outs ps)
    (hdrop : patch.drop pos = PatchChunk.writeHeaders ps offset ++ rest)
    (hpayload : patch.drop offset = ps.flatMap PatchChunk.payload ++ tail) :
    streamChunks c old patch bonusData ps.length i pos = (.returned 0, outs.flatten) := by
  induction ps generalizing i pos offset outs with
  | nil =>
    cases outs with
    | nil => rfl
    | cons => exact h.elim
  | cons p ps ih =>
    cases outs with
    | nil => exact h.elim
    | cons out outs =>
      obtain ⟨hfirst, hrest⟩ := h
      rw [PatchChunk.writeHeaders, List.append_assoc] at hdrop
      rw [List.flatMap_cons, List.append_assoc] at hpayload
      obtain ⟨hnext, hout⟩ := hfirst.applyChunk heager hpatch hold hpos hoffset hdrop hpayload
      have hlen := PatchChunk.writeHeader_length p offset
      have hbehind := ih (hlen ▸ add_le_of_drop hdrop hpos) (add_le_of_drop hpayload hoffset) hrest
        (drop_behind hdrop hlen) (drop_behind hpayload rfl)
      rw [List.length_cons, streamChunks, hnext]
      dsimp only
      rw [hbehind, hout]
      rfl

/-- A chunk that breaks ends the run. -/
theorem streamChunks_breaks (heager : ∀ input, c.inflater.eager input = true)
    (hpatch : patch.length < 2 ^ 63) (hold : old.length < 2 ^ 63) (hpos : pos ≤ patch.length)
    (hoffset : offset ≤ patch.length)
    (h : Chunkwise (fun i out p => Restores c old bonusData i out p ∨ Breaks c old p) i outs ps)
    (hdrop : patch.drop pos = PatchChunk.writeHeaders ps offset ++ rest)
    (hpayload : patch.drop offset = ps.flatMap PatchChunk.payload ++ tail)
    (hbreaks : ∃ p ∈ ps, Breaks c old p) :
    (streamChunks c old patch bonusData ps.length i pos).1 = .returned (-1) := by
  induction ps generalizing i pos offset outs with
  | nil =>
    obtain ⟨p, hp, -⟩ := hbreaks
    exact absurd hp List.not_mem_nil
  | cons p ps ih =>
    cases outs with
    | nil => exact h.elim
    | cons out outs =>
      obtain ⟨hfirst, hrest⟩ := h
      rw [PatchChunk.writeHeaders, List.append_assoc] at hdrop
      rw [List.flatMap_cons, List.append_assoc] at hpayload
      rw [List.length_cons, streamChunks]
      by_cases hp : Breaks c old p
      · rw [hp.applyChunk hpatch hold hpos hoffset hdrop]
      · obtain ⟨hnext, -⟩ := (hfirst.resolve_right hp).applyChunk heager hpatch hold hpos hoffset
          hdrop hpayload
        have hlen := PatchChunk.writeHeader_length p offset
        obtain ⟨q, hq, hbreak⟩ := hbreaks
        have hmem : q ∈ ps := (List.mem_cons.mp hq).resolve_left fun heq => hp (heq ▸ hbreak)
        rw [hnext]
        exact ih (hlen ▸ add_le_of_drop hdrop hpos) (add_le_of_drop hpayload hoffset) hrest
          (drop_behind hdrop hlen) (drop_behind hpayload rfl) ⟨q, hmem, hbreak⟩

/-- `ApplyImagePatch` comes to the headers that have been written. -/
theorem streamImagePatch_headers (c : Codec) (old : Bytes) (bonusData : Option Bytes)
    (hcount : ps.length < 2 ^ 31) :
    streamImagePatch c old (PatchChunk.writePatchData ps) bonusData =
        streamChunks c old (PatchChunk.writePatchData ps) bonusData ps.length 0 12 ∧
      ∃ offset, 12 ≤ (PatchChunk.writePatchData ps).length ∧
        offset ≤ (PatchChunk.writePatchData ps).length ∧
        (PatchChunk.writePatchData ps).drop 12 =
          PatchChunk.writeHeaders ps offset ++ ps.flatMap PatchChunk.payload ∧
        (PatchChunk.writePatchData ps).drop offset = ps.flatMap PatchChunk.payload := by
  have hstart : PatchChunk.writePatchData ps = imgdiff2 ++ (littleEndianBytes 4 ps.length ++
      (PatchChunk.writeHeaders ps (12 + (ps.map PatchChunk.headerSize).sum) ++
        ps.flatMap PatchChunk.payload)) := by
    rw [PatchChunk.writePatchData, List.append_assoc, List.append_assoc]
  generalize hoffset : 12 + (ps.map PatchChunk.headerSize).sum = offset at hstart
  have hmagic : (PatchChunk.writePatchData ps).drop 8 = _ := hstart ▸ List.drop_left' rfl
  have hheaders := drop_field hmagic (m := 4) rfl
  have hpayload := drop_behind hheaders (PatchChunk.writeHeaders_length ps offset)
  have hfield : field (PatchChunk.writePatchData ps) 8 4 = ps.length :=
    field_of_drop hmagic (by omega)
  have htake : (PatchChunk.writePatchData ps).take 8 = imgdiff2 := hstart ▸ List.take_left' rfl
  have htotal : 12 ≤ (PatchChunk.writePatchData ps).length ∧
      offset ≤ (PatchChunk.writePatchData ps).length := by
    have hlen := congrArg List.length hstart
    simp only [List.length_append, littleEndianBytes_length, PatchChunk.writeHeaders_length] at hlen
    rw [show imgdiff2.length = 8 from rfl] at hlen
    omega
  rw [show 8 + 4 + (ps.map PatchChunk.headerSize).sum = offset from hoffset] at hpayload
  refine ⟨?_, offset, htotal.1, htotal.2, hheaders, hpayload⟩
  rw [streamImagePatch, if_neg (not_lt.mpr htotal.1), if_neg (not_not.mpr htake), chunkCount,
    hfield, if_pos hcount]

/-- `ApplyImagePatch` gives what the chunks of a patch restore. -/
theorem streamImagePatch_writePatchData (heager : ∀ input, c.inflater.eager input = true)
    (hpatch : (PatchChunk.writePatchData ps).length < 2 ^ 63) (hold : old.length < 2 ^ 63)
    (hcount : ps.length < 2 ^ 31) (h : Chunkwise (Restores c old bonusData) 0 outs ps) :
    streamImagePatch c old (PatchChunk.writePatchData ps) bonusData =
      (.returned 0, outs.flatten) := by
  obtain ⟨hstream, offset, hstart, hoffset, hheaders, hpayload⟩ := streamImagePatch_headers
    c old bonusData hcount
  rw [hstream]
  exact streamChunks_restores heager hpatch hold hstart hoffset h hheaders
    (hpayload.trans (List.append_nil _).symm)

theorem streamImagePatch_breaks (heager : ∀ input, c.inflater.eager input = true)
    (hpatch : (PatchChunk.writePatchData ps).length < 2 ^ 63) (hold : old.length < 2 ^ 63)
    (hcount : ps.length < 2 ^ 31)
    (h : Chunkwise (fun i out p => Restores c old bonusData i out p ∨ Breaks c old p) 0 outs ps)
    (hbreaks : ∃ p ∈ ps, Breaks c old p) :
    (streamImagePatch c old (PatchChunk.writePatchData ps) bonusData).1 = .returned (-1) := by
  obtain ⟨hstream, offset, hstart, hoffset, hheaders, hpayload⟩ := streamImagePatch_headers
    c old bonusData hcount
  rw [hstream]
  exact streamChunks_breaks heager hpatch hold hstart hoffset h hheaders
    (hpayload.trans (List.append_nil _).symm) hbreaks

end run

end BootableRecovery.Applypatch
