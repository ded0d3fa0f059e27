import BootableRecovery.Lib.Word
import BootableRecovery.Applypatch.ZipModeImage

namespace BootableRecovery.Applypatch
open Lib

/-! `ApplyImagePatch`, with every range that it reads or hands on. -/

/-- The libraries and the sink, as they answer for chunk `i`. -/
structure PatchLib where
  /-- Whether the vector for the expanded source can be allocated. -/
  allocates : ℕ → ℕ → Bool
  inflateInit : ℕ → Bool
  /-- `inflate` of some input into a buffer. -/
  inflate : ℕ → Bytes → ℕ → ℤ × Bytes
  deflateInit : ℕ → Bool
  /-- Whether `bspatch` of a source with a patch returns 0. -/
  bspatch : ℕ → Bytes → Bytes → Bool
  /-- Whether the deflation has come to its end, with the expected length. -/
  deflateEnds : ℕ → Bool
  sink : ℕ → Bytes → ℕ

inductive ChunkResult
  | next (pos : ℕ)
  | returned (code : ℤ)
  | aborted -- a `CHECK` fails, or an exception is not caught
  | outOfBounds
  deriving DecidableEq, Repr

def chunkNormal : ℕ := 0

def chunkDeflate : ℕ := 2

def chunkRaw : ℕ := 3

/-- A signed 32-bit field as `size_t` -/
def signExtend (v : ℕ) : ℕ := if v < 2 ^ 31 then v else v + (2 ^ 64 - 2 ^ 32)

/-- A range inside of a buffer. -/
def inside (buffer : Bytes) (start len : ℕ) : Bool := start + len ≤ buffer.length

def range (buffer : Bytes) (start len : ℕ) : Bytes := (buffer.drop start).take len

def inflateEnd : ℤ := 1

section chunks
variable (lib : PatchLib) (old patch : Bytes) (i : ℕ)

/-- `ApplyBSDiffPatch`, on a source that is there; `resume` is what follows when it returns 0. -/
def applyBSDiffPatch (src : Bytes) (patchOffset : ℕ) (resume : ChunkResult) : ChunkResult :=
  if patchOffset ≤ patch.length then
    if lib.bspatch i src (patch.drop patchOffset) then resume else .returned (-1)
  else .aborted

def applyNormal (pos : ℕ) : ChunkResult :=
  let header := pos
  let pos := u64 (pos + 24)
  if patch.length < pos then .returned (-1)
  else if inside patch header 24 = false then .outOfBounds
  else
    let srcStart := field patch header 8
    let srcLen := field patch (header + 8) 8
    let patchOffset := field patch (header + 16) 8
    if old.length < u64 (srcStart + srcLen) then .returned (-1)
    else if patchOffset ≤ patch.length ∧ inside old srcStart srcLen = false then .outOfBounds
    else applyBSDiffPatch lib patch i (range old srcStart srcLen) patchOffset (.next pos)

def applyRaw (pos : ℕ) : ChunkResult :=
  let header := pos
  let pos := u64 (pos + 4)
  if patch.length < pos then .returned (-1)
  else if inside patch header 4 = false then .outOfBounds
  else
    let dataLen := signExtend (field patch header 4)
    if patch.length < u64 (pos + dataLen) then .returned (-1)
    else if inside patch pos dataLen = false then .outOfBounds
    else if lib.sink i (range patch pos dataLen) ≠ dataLen then .returned (-1)
    else .next (u64 (pos + dataLen))

/-- `ApplyBSDiffPatchAndStreamOutput`, and what follows. -/
def applyStreamOutput (src : Bytes) (patchOffset header pos : ℕ) : ChunkResult :=
  let expectedTargetLength := field patch (header + 32) 8
  if expectedTargetLength = 0 then .aborted
  else if lib.deflateInit i = false then .returned (-1)
  else
    applyBSDiffPatch lib patch i src patchOffset
      (if lib.deflateEnds i then .next pos else .returned (-1))

/-- The expanded source, with the bonus data behind what `inflate` has written. -/
def withBonus (out bonus : Bytes) (expandedLen : ℕ) : Bytes :=
  if bonus = [] then out ++ List.replicate (expandedLen - out.length) 0
  else
    (out ++ List.replicate (expandedLen - out.length) 0).take (expandedLen - bonus.length) ++ bonus

def applyDeflate (bonusData : Option Bytes) (pos : ℕ) : ChunkResult :=
  let header := pos
  let pos := u64 (pos + 60)
  if patch.length < pos then .returned (-1)
  else if inside patch header 60 = false then .outOfBounds
  else
    let srcStart := field patch header 8
    let srcLen := field patch (header + 8) 8
    let patchOffset := field patch (header + 16) 8
    let expandedLen := field patch (header + 24) 8
    if old.length < u64 (srcStart + srcLen) then .returned (-1)
    else
      let bonus := if i = 1 then bonusData.getD [] else []
      if expandedLen = 0 then applyStreamOutput lib patch i [] patchOffset header pos
      else if lib.allocates i expandedLen = false then .aborted
      else if lib.inflateInit i = false then .returned (-1)
      else if inside old srcStart (u32 srcLen) = false then .outOfBounds -- `avail_in` is a `uInt`
      else
        let (ret, written) := lib.inflate i (range old srcStart (u32 srcLen)) (u32 expandedLen)
        let out := written.take (u32 expandedLen)
        if ret ≠ inflateEnd then .returned (-1)
        else if u32 expandedLen - out.length ≠ bonus.length then .returned (-1)
        else if expandedLen < bonus.length then .outOfBounds
        else applyStreamOutput lib patch i (withBonus out bonus expandedLen) patchOffset header pos

/-- One pass of the loop over the chunks. -/
def applyChunk (bonusData : Option Bytes) (pos : ℕ) : ChunkResult :=
  if patch.length < u64 (pos + 4) then .returned (-1)
  else if inside patch pos 4 = false then .outOfBounds
  else
    let type := field patch pos 4
    let pos := u64 (pos + 4)
    if type = chunkNormal then applyNormal lib old patch i pos
    else if type = chunkRaw then applyRaw lib patch i pos
    else if type = chunkDeflate then applyDeflate lib old patch i bonusData pos
    else .returned (-1)

/-- The chunks from `i` on. -/
def applyChunks (bonusData : Option Bytes) : ℕ → ℕ → ℕ → ChunkResult
  | 0, _, _ => .returned 0
  | n + 1, i, pos =>
    match applyChunk lib old patch i bonusData pos with
    | .next pos => applyChunks bonusData n (i + 1) pos
    | result => result

def imgdiff2 : Bytes := [0x49, 0x4d, 0x47, 0x44, 0x49, 0x46, 0x46, 0x32]

/-- A negative number of chunks is none. -/
def chunkCount : ℕ := if field patch 8 4 < 2 ^ 31 then field patch 8 4 else 0

def applyImagePatch (bonusData : Option Bytes) : ChunkResult :=
  if patch.length < 12 then .returned (-1)
  else if patch.take 8 ≠ imgdiff2 then .returned (-1)
  else applyChunks lib old patch bonusData (chunkCount patch) 0 12

end chunks

section fits
variable (old patch : Bytes) (bonusData : Option Bytes)

def bonusOf (i : ℕ) : Bytes := if i = 1 then bonusData.getD [] else []

/-- The source range of the chunk header at `p`. -/
def SourceFits (p : ℕ) : Prop := field patch p 8 + field patch (p + 8) 8 ≤ old.length

/-- The offsets and lengths of the chunk at `pos` fit. -/
structure ChunkFits (pos : ℕ) : Prop where
  record : pos + 4 ≤ patch.length
  normal : field patch pos 4 = chunkNormal → pos + 28 ≤ patch.length ∧
    SourceFits old patch (pos + 4) ∧ field patch (pos + 20) 8 ≤ patch.length
  raw : field patch pos 4 = chunkRaw → field patch (pos + 4) 4 < 2 ^ 31 ∧
    pos + 8 + field patch (pos + 4) 4 ≤ patch.length
  deflate : field patch pos 4 = chunkDeflate → pos + 64 ≤ patch.length ∧
    SourceFits old patch (pos + 4) ∧ field patch (pos + 20) 8 ≤ patch.length

/-- The tests that the code makes of them, in `size_t`. -/
def ChunkAccepted (pos : ℕ) : Prop :=
  pos + 4 ≤ patch.length ∧
    (field patch pos 4 = chunkNormal ∧ pos + 28 ≤ patch.length ∧
        u64 (field patch (pos + 4) 8 + field patch (pos + 12) 8) ≤ old.length ∨
      field patch pos 4 = chunkRaw ∧ pos + 8 ≤ patch.length ∧
        u64 (pos + 8 + signExtend (field patch (pos + 4) 4)) ≤ patch.length ∨
      field patch pos 4 = chunkDeflate ∧ pos + 64 ≤ patch.length ∧
        u64 (field patch (pos + 4) 8 + field patch (pos + 12) 8) ≤ old.length)

/-- The target length of a deflate chunk is not 0, and its source has room for the bonus data. -/
def ChunkPasses (i pos : ℕ) : Prop :=
  field patch pos 4 = chunkDeflate → field patch (pos + 36) 8 ≠ 0 ∧
    (field patch (pos + 28) 8 = 0 ∨
      (bonusOf bonusData i).length ≤ u32 (field patch (pos + 28) 8))

def nextChunk (pos : ℕ) : ℕ :=
  if field patch pos 4 = chunkNormal then pos + 28
  else if field patch pos 4 = chunkRaw then pos + 8 + field patch (pos + 4) 4
  else pos + 64

/-- Each chunk that the loop comes to fits, if the code accepts it. -/
def FieldsFit : ℕ → ℕ → ℕ → Prop
  | 0, _, _ => True
  | n + 1, i, pos => ChunkAccepted old patch pos → ChunkFits old patch pos ∧
    (ChunkPasses patch bonusData i pos → FieldsFit n (i + 1) (nextChunk patch pos))

/-- Every read of the chunks from `i` on is in bounds, and a chunk that does not fit makes it return
-1. -/
def ChunksSound (lib : PatchLib) : ℕ → ℕ → ℕ → Prop
  | 0, _, _ => True
  | n + 1, i, pos =>
    applyChunk lib old patch i bonusData pos ≠ .outOfBounds ∧
    (¬ChunkFits old patch pos → applyChunk lib old patch i bonusData pos = .returned (-1)) ∧
    ∀ pos', applyChunk lib old patch i bonusData pos = .next pos' → ChunksSound lib n (i + 1) pos'

end fits

section steps
variable {lib : PatchLib} {old patch : Bytes} {bonusData : Option Bytes} {i pos : ℕ}

theorem inside_iff {buffer : Bytes} {start len : ℕ} :
    inside buffer start len = true ↔ start + len ≤ buffer.length := decide_eq_true_iff

theorem inside_eq_false {buffer : Bytes} {start len : ℕ} :
    inside buffer start len = false ↔ buffer.length < start + len := by
  rw [inside, decide_eq_false_iff_not, not_le]

theorem not_inside {buffer : Bytes} {start len : ℕ} (h : start + len ≤ buffer.length) :
    ¬inside buffer start len = false := by
  rw [inside_iff.mpr h]
  exact Bool.noConfusion

theorem applyChunk_eq (hpatch : patch.length < 2 ^ 63) (hrecord : pos + 4 ≤ patch.length) :
    applyChunk lib old patch i bonusData pos =
      if field patch pos 4 = chunkNormal then applyNormal lib old patch i (pos + 4)
      else if field patch pos 4 = chunkRaw then applyRaw lib patch i (pos + 4)
      else if field patch pos 4 = chunkDeflate then
        applyDeflate lib old patch i bonusData (pos + 4)
      else .returned (-1) := by
  have hsum : u64 (pos + 4) = pos + 4 := u64_of_lt (by omega)
  rw [applyChunk, hsum, if_neg (not_lt.mpr hrecord), if_neg (not_inside hrecord)]

theorem applyNormal_eq (hpatch : patch.length < 2 ^ 63) (hheader : pos + 24 ≤ patch.length) :
    applyNormal lib old patch i pos =
      if old.length < u64 (field patch pos 8 + field patch (pos + 8) 8) then .returned (-1)
      else if field patch (pos + 16) 8 ≤ patch.length ∧
          inside old (field patch pos 8) (field patch (pos + 8) 8) = false then .outOfBounds
      else
        applyBSDiffPatch lib patch i (range old (field patch pos 8) (field patch (pos + 8) 8))
          (field patch (pos + 16) 8) (.next (pos + 24)) := by
  have hsum : u64 (pos + 24) = pos + 24 := u64_of_lt (by omega)
  rw [applyNormal, hsum]
  exact (if_neg (not_lt.mpr hheader)).trans (if_neg (not_inside hheader))

theorem applyRaw_eq (hpatch : patch.length < 2 ^ 63) (hheader : pos + 4 ≤ patch.length) :
    applyRaw lib patch i pos =
      if patch.length < u64 (pos + 4 + signExtend (field patch pos 4)) then .returned (-1)
      else if inside patch (pos + 4) (signExtend (field patch pos 4)) = false then .outOfBounds
      else if lib.sink i (range patch (pos + 4) (signExtend (field patch pos 4))) ≠
          signExtend (field patch pos 4) then .returned (-1)
      else .next (u64 (pos + 4 + signExtend (field patch pos 4))) := by
  have hsum : u64 (pos + 4) = pos + 4 := u64_of_lt (by omega)
  rw [applyRaw, hsum]
  exact (if_neg (not_lt.mpr hheader)).trans (if_neg (not_inside hheader))

/-- The expansion of the source of a deflate chunk, and what follows. -/
def applyExpanded (lib : PatchLib) (old patch : Bytes) (i : ℕ) (bonusData : Option Bytes)
    (pos : ℕ) : ChunkResult :=
  let expandedLen := field patch (pos + 24) 8
  let patchOffset := field patch (pos + 16) 8
  let bonus := bonusOf bonusData i
  if expandedLen = 0 then applyStreamOutput lib patch i [] patchOffset pos (pos + 60)
  else if lib.allocates i expandedLen = false then .aborted
  else if lib.inflateInit i = false then .returned (-1)
  else if inside old (field patch pos 8) (u32 (field patch (pos + 8) 8)) = false then .outOfBounds
  else
    let (ret, written) := lib.inflate i
      (range old (field patch pos 8) (u32 (field patch (pos + 8) 8))) (u32 expandedLen)
    let out := written.take (u32 expandedLen)
    if ret ≠ inflateEnd then .returned (-1)
    else if u32 expandedLen - out.length ≠ bonus.length then .returned (-1)
    else if expandedLen < bonus.length then .outOfBounds
    else applyStreamOutput lib patch i (withBonus out bonus expandedLen) patchOffset pos (pos + 60)

theorem applyDeflate_eq (hpatch : patch.length < 2 ^ 63) (hheader : pos + 60 ≤ patch.length) :
    applyDeflate lib old patch i bonusData pos =
      if old.length < u64 (field patch pos 8 + field patch (pos + 8) 8) then .returned (-1)
      else applyExpanded lib old patch i bonusData pos := by
  have hsum : u64 (pos + 60) = pos + 60 := u64_of_lt (by omega)
  rw [applyDeflate, hsum]
  exact (if_neg (not_lt.mpr hheader)).trans (if_neg (not_inside hheader))

/-- What the code does not accept it refuses. -/
theorem applyChunk_refused (hpatch : patch.length < 2 ^ 63) (hpos : pos ≤ patch.length)
    (h : ¬ChunkAccepted old patch pos) :
    applyChunk lib old patch i bonusData pos = .returned (-1) := by
  by_cases hrecord : pos + 4 ≤ patch.length
  · rw [applyChunk_eq hpatch hrecord]
    by_cases hnormal : field patch pos 4 = chunkNormal
    · rw [if_pos hnormal]
      by_cases hheader : pos + 4 + 24 ≤ patch.length
      · rw [applyNormal_eq hpatch hheader, if_pos]
        by_contra hsource
        exact h ⟨hrecord, .inl ⟨hnormal, hheader, not_lt.mp hsource⟩⟩
      · rw [applyNormal, u64_of_lt (by omega)]
        exact if_pos (not_le.mp hheader)
    rw [if_neg hnormal]
    by_cases hraw : field patch pos 4 = chunkRaw
    · rw [if_pos hraw]
      by_cases hheader : pos + 4 + 4 ≤ patch.length
      · rw [applyRaw_eq hpatch hheader, if_pos]
        by_contra hdata
        exact h ⟨hrecord, .inr (.inl ⟨hraw, hheader, not_lt.mp hdata⟩)⟩
      · rw [applyRaw, u64_of_lt (by omega)]
        exact if_pos (not_le.mp hheader)
    rw [if_neg hraw]
    by_cases hdeflate : field patch pos 4 = chunkDeflate
    · rw [if_pos hdeflate]
      by_cases hheader : pos + 4 + 60 ≤ patch.length
      · rw [applyDeflate_eq hpatch hheader, if_pos]
        by_contra hsource
        exact h ⟨hrecord, .inr (.inr ⟨hdeflate, hheader, not_lt.mp hsource⟩)⟩
      · rw [applyDeflate, u64_of_lt (by omega)]
        exact if_pos (not_le.mp hheader)
    rw [if_neg hdeflate]
  · rw [applyChunk, u64_of_lt (by omega)]
    exact if_pos (not_le.mp hrecord)

/-- A result that is in bounds, and goes on at `pos` only if `P` holds. -/
def GoesOn (r : ChunkResult) (pos : ℕ) (P : Prop) : Prop :=
  r ≠ .outOfBounds ∧ ∀ pos', r = .next pos' → pos' = pos ∧ P

theorem goesOn_returned (code : ℤ) (pos : ℕ) (P : Prop) : GoesOn (.returned code) pos P :=
  ⟨nofun, nofun⟩

theorem goesOn_aborted (pos : ℕ) (P : Prop) : GoesOn .aborted pos P := ⟨nofun, nofun⟩

theorem goesOn_next {P : Prop} (pos : ℕ) (h : P) : GoesOn (.next pos) pos P :=
  ⟨nofun, fun _ heq => ⟨(ChunkResult.next.inj heq).symm, h⟩⟩

theorem goesOn_applyBSDiffPatch {src : Bytes} {patchOffset : ℕ} {resume : ChunkResult} {P : Prop}
    (h : GoesOn resume pos P) :
    GoesOn (applyBSDiffPatch lib patch i src patchOffset resume) pos P := by
  rw [applyBSDiffPatch]
  split_ifs
  · exact h
  · exact goesOn_returned _ _ _
  · exact goesOn_aborted _ _

theorem goesOn_applyStreamOutput {src : Bytes} {patchOffset header : ℕ} {P : Prop}
    (h : field patch (header + 32) 8 ≠ 0 → P) :
    GoesOn (applyStreamOutput lib patch i src patchOffset header pos) pos P := by
  rw [applyStreamOutput]
  by_cases htarget : field patch (header + 32) 8 = 0
  · rw [if_pos htarget]
    exact goesOn_aborted _ _
  · rw [if_neg htarget]
    split_ifs
    · exact goesOn_returned _ _ _
    · exact goesOn_applyBSDiffPatch (goesOn_next _ (h htarget))
    · exact goesOn_applyBSDiffPatch (goesOn_returned _ _ _)

theorem goesOn_applyExpanded
    (hsource : field patch pos 8 + field patch (pos + 8) 8 ≤ old.length) :
    GoesOn (applyExpanded lib old patch i bonusData pos) (pos + 60)
      (field patch (pos + 32) 8 ≠ 0 ∧ (field patch (pos + 24) 8 = 0 ∨
        (bonusOf bonusData i).length ≤ u32 (field patch (pos + 24) 8))) := by
  have hrange : field patch pos 8 + u32 (field patch (pos + 8) 8) ≤ old.length :=
    (Nat.add_le_add_left (u32_le _) _).trans hsource
  rw [applyExpanded]
  by_cases hempty : field patch (pos + 24) 8 = 0
  · rw [if_pos hempty]
    exact goesOn_applyStreamOutput fun htarget => ⟨htarget, .inl hempty⟩
  rw [if_neg hempty, if_neg (not_inside hrange)]
  generalize lib.inflate i (range old (field patch pos 8) (u32 (field patch (pos + 8) 8)))
    (u32 (field patch (pos + 24) 8)) = inflated
  obtain ⟨ret, written⟩ := inflated
  dsimp only
  have hle : (written.take (u32 (field patch (pos + 24) 8))).length ≤
      u32 (field patch (pos + 24) 8) := List.length_take_le _ _
  split_ifs with halloc hinit hret hshort hlong
  · exact goesOn_aborted _ _
  · exact goesOn_returned _ _ _
  · exact goesOn_returned _ _ _
  · exact goesOn_returned _ _ _
  · have hu32 := u32_le (field patch (pos + 24) 8)
    omega
  · exact goesOn_applyStreamOutput fun htarget => ⟨htarget, .inr (by omega)⟩

/-- A chunk that fits is read in bounds. -/
theorem applyChunk_fits (hpatch : patch.length < 2 ^ 63) (hfits : ChunkFits old patch pos) :
    GoesOn (applyChunk lib old patch i bonusData pos) (nextChunk patch pos)
      (ChunkPasses patch bonusData i pos) := by
  rw [applyChunk_eq hpatch hfits.record, nextChunk]
  by_cases hnormal : field patch pos 4 = chunkNormal
  · obtain ⟨hheader, hsource, -⟩ := hfits.normal hnormal
    rw [if_pos hnormal, if_pos hnormal, applyNormal_eq hpatch hheader]
    have hall : ¬(field patch (pos + 4 + 16) 8 ≤ patch.length ∧
        inside old (field patch (pos + 4) 8) (field patch (pos + 4 + 8) 8) = false) :=
      fun hout => not_inside hsource hout.2
    rw [if_neg hall]
    split_ifs
    · exact goesOn_returned _ _ _
    · refine goesOn_applyBSDiffPatch (goesOn_next _ fun hdeflate => ?_)
      rw [hnormal] at hdeflate
      cases hdeflate
  rw [if_neg hnormal, if_neg hnormal]
  by_cases hraw : field patch pos 4 = chunkRaw
  · obtain ⟨hsign, hdata⟩ := hfits.raw hraw
    have hlen : signExtend (field patch (pos + 4) 4) = field patch (pos + 4) 4 := if_pos hsign
    rw [if_pos hraw, if_pos hraw, applyRaw_eq hpatch (by omega), hlen,
      if_neg (not_inside hdata), u64_of_lt (by omega)]
    split_ifs
    · exact goesOn_returned _ _ _
    · exact goesOn_returned _ _ _
    · refine goesOn_next _ fun hdeflate => ?_
      rw [hraw] at hdeflate
      cases hdeflate
  rw [if_neg hraw, if_neg hraw]
  by_cases hdeflate : field patch pos 4 = chunkDeflate
  · obtain ⟨hheader, hsource, -⟩ := hfits.deflate hdeflate
    rw [if_pos hdeflate, applyDeflate_eq hpatch hheader]
    split_ifs
    · exact goesOn_returned _ _ _
    · obtain ⟨hin, hnext⟩ := goesOn_applyExpanded hsource
      exact ⟨hin, fun pos' heq => ⟨(hnext pos' heq).1, fun _ => (hnext pos' heq).2⟩⟩
  · rw [if_neg hdeflate]
    exact goesOn_returned _ _ _

end steps

/-- Libraries with which everything works, but for the memory of chunk `k`. -/
def willingLib (bonusData : Option Bytes) (k : ℕ) : PatchLib where
  allocates i _ := i ≠ k
  inflateInit _ := true
  inflate i _ availOut :=
    (inflateEnd, List.replicate (availOut - (bonusOf bonusData i).length) 0)
  deflateInit _ := true
  bspatch _ _ _ := true
  deflateEnds _ := true
  sink _ data := data.length

section willing
variable {old patch : Bytes} {bonusData : Option Bytes} {i k pos : ℕ}

theorem willing_applyBSDiffPatch (src : Bytes) (patchOffset : ℕ) (resume : ChunkResult) :
    applyBSDiffPatch (willingLib bonusData k) patch i src patchOffset resume =
      if patchOffset ≤ patch.length then resume else .aborted := rfl

theorem willing_applyStreamOutput (src : Bytes) (patchOffset header : ℕ) :
    applyStreamOutput (willingLib bonusData k) patch i src patchOffset header pos =
      if field patch (header + 32) 8 = 0 then .aborted
      else if patchOffset ≤ patch.length then .next pos else .aborted := rfl

/-- A chunk that fits and passes is followed by the next one. -/
theorem willing_passes (hpatch : patch.length < 2 ^ 63) (hold : old.length < 2 ^ 64)
    (hfits : ChunkFits old patch pos) (haccept : ChunkAccepted old patch pos)
    (hpass : ChunkPasses patch bonusData i pos) (hk : i ≠ k) :
    applyChunk (willingLib bonusData k) old patch i bonusData pos =
      .next (nextChunk patch pos) := by
  rw [applyChunk_eq hpatch hfits.record, nextChunk]
  by_cases hnormal : field patch pos 4 = chunkNormal
  · obtain ⟨hheader, hsource, hoffset⟩ := hfits.normal hnormal
    have hsum := u64_of_lt (hsource.trans_lt hold)
    rw [if_pos hnormal, if_pos hnormal, applyNormal_eq hpatch hheader, hsum,
      if_neg (not_lt.mpr hsource), if_neg fun hall => not_inside hsource hall.2,
      willing_applyBSDiffPatch, if_pos hoffset]
  rw [if_neg hnormal, if_neg hnormal]
  by_cases hraw : field patch pos 4 = chunkRaw
  · obtain ⟨hsign, hdata⟩ := hfits.raw hraw
    have hlen : signExtend (field patch (pos + 4) 4) = field patch (pos + 4) 4 := if_pos hsign
    have hsink : (willingLib bonusData k).sink i (range patch (pos + 4 + 4)
        (field patch (pos + 4) 4)) = field patch (pos + 4) 4 := by
      change ((patch.drop (pos + 4 + 4)).take (field patch (pos + 4) 4)).length = _
      rw [List.length_take, List.length_drop]
      omega
    rw [if_pos hraw, if_pos hraw, applyRaw_eq hpatch (by omega), hlen,
      if_neg (not_inside hdata), u64_of_lt (by omega), if_neg (not_lt.mpr hdata), hsink,
      if_neg (not_not.mpr rfl)]
  rw [if_neg hraw, if_neg hraw]
  have hdeflate : field patch pos 4 = chunkDeflate := by
    rcases haccept.2 with ⟨htype, -⟩ | ⟨htype, -⟩ | ⟨htype, -⟩
    · exact absurd htype hnormal
    · exact absurd htype hraw
    · exact htype
  obtain ⟨hheader, hsource, hoffset⟩ := hfits.deflate hdeflate
  obtain ⟨htarget, hbonus⟩ := hpass hdeflate
  have hsum := u64_of_lt (hsource.trans_lt hold)
  rw [if_pos hdeflate, applyDeflate_eq hpatch hheader, hsum, if_neg (not_lt.mpr hsource),
    applyExpanded]
  by_cases hempty : field patch (pos + 4 + 24) 8 = 0
  · rw [if_pos hempty, willing_applyStreamOutput, if_neg htarget, if_pos hoffset]
  have hroom : (bonusOf bonusData i).length ≤ u32 (field patch (pos + 4 + 24) 8) :=
    hbonus.resolve_left hempty
  have halloc : ¬(willingLib bonusData k).allocates i (field patch (pos + 4 + 24) 8) = false := by
    change ¬decide (i ≠ k) = false
    rw [decide_eq_true hk]
    exact Bool.noConfusion
  have hinit : ¬(willingLib bonusData k).inflateInit i = false := Bool.noConfusion
  have hrange : field patch (pos + 4) 8 + u32 (field patch (pos + 4 + 8) 8) ≤ old.length :=
    (Nat.add_le_add_left (u32_le _) _).trans hsource
  have hu32 := u32_le (field patch (pos + 4 + 24) 8)
  rw [if_neg hempty, if_neg halloc, if_neg hinit, if_neg (not_inside hrange)]
  have hshort : u32 (field patch (pos + 4 + 24) 8) - ((List.replicate
      (u32 (field patch (pos + 4 + 24) 8) - (bonusOf bonusData i).length) (0 : UInt8)).take
        (u32 (field patch (pos + 4 + 24) 8))).length = (bonusOf bonusData i).length := by
    rw [List.length_take, List.length_replicate]
    omega
  change (if inflateEnd ≠ inflateEnd then _ else if u32 (field patch (pos + 4 + 24) 8) -
    ((List.replicate (u32 (field patch (pos + 4 + 24) 8) - (bonusOf bonusData i).length) 0).take
      (u32 (field patch (pos + 4 + 24) 8))).length ≠ (bonusOf bonusData i).length then _ else _) = _
  rw [if_neg (not_not.mpr rfl), if_neg (not_not.mpr hshort), if_neg (by omega),
    willing_applyStreamOutput, if_neg htarget, if_pos hoffset]

/-- A chunk that is accepted, but does not fit, is not refused. -/
theorem willing_misfit (hpatch : patch.length < 2 ^ 63) (haccept : ChunkAccepted old patch pos)
    (hmisfit : ¬ChunkFits old patch pos) :
    applyChunk (willingLib bonusData i) old patch i bonusData pos ≠ .returned (-1) := by
  obtain ⟨hrecord, htypes⟩ := haccept
  rw [applyChunk_eq hpatch hrecord]
  rcases htypes with ⟨htype, hheader, hsum⟩ | ⟨htype, hheader, hsum⟩ | ⟨htype, hheader, hsum⟩
  · have hbad : ¬(SourceFits old patch (pos + 4) ∧ field patch (pos + 20) 8 ≤ patch.length) := by
      refine fun hall => hmisfit ⟨hrecord, fun _ => ⟨hheader, hall⟩, fun h => ?_, fun h => ?_⟩
      · rw [htype] at h
        cases h
      · rw [htype] at h
        cases h
    rw [if_pos htype, applyNormal_eq hpatch hheader, if_neg (not_lt.mpr hsum)]
    split_ifs with hout
    · exact nofun
    · rw [willing_applyBSDiffPatch]
      split_ifs with hoffset
      · exact nofun
      · exact nofun
  · have hsign : ¬field patch (pos + 4) 4 < 2 ^ 31 := by
      intro hsmall
      have hlen : signExtend (field patch (pos + 4) 4) = field patch (pos + 4) 4 := if_pos hsmall
      rw [hlen, u64_of_lt (by omega)] at hsum
      refine hmisfit ⟨hrecord, fun h => ?_, fun _ => ⟨hsmall, hsum⟩, fun h => ?_⟩
      · rw [htype] at h
        cases h
      · rw [htype] at h
        cases h
    have hlen : signExtend (field patch (pos + 4) 4) =
        field patch (pos + 4) 4 + (2 ^ 64 - 2 ^ 32) := if_neg hsign
    have hout : inside patch (pos + 4 + 4) (signExtend (field patch (pos + 4) 4)) = false := by
      have hwrap : 2 ^ 63 ≤ 2 ^ 64 - 2 ^ 32 := by decide
      rw [inside_eq_false, hlen]
      exact hpatch.trans_le (hwrap.trans ((Nat.le_add_left _ _).trans (Nat.le_add_left _ _)))
    rw [if_neg (by rw [htype]; decide), if_pos htype, applyRaw_eq hpatch hheader,
      if_neg (not_lt.mpr hsum), if_pos hout]
    exact nofun
  · have hdeflate : applyExpanded (willingLib bonusData i) old patch i bonusData (pos + 4) ≠
        .returned (-1) := by
      rw [applyExpanded]
      by_cases hempty : field patch (pos + 4 + 24) 8 = 0
      · rw [if_pos hempty, willing_applyStreamOutput]
        split_ifs
        · exact nofun
        · exact nofun
        · exact nofun
      · have halloc : (willingLib bonusData i).allocates i (field patch (pos + 4 + 24) 8) = false :=
          decide_eq_false (not_not.mpr rfl)
        rw [if_neg hempty, if_pos halloc]
        exact nofun
    rw [if_neg (by rw [htype]; decide), if_neg (by rw [htype]; decide), if_pos htype,
      applyDeflate_eq hpatch hheader, if_neg (not_lt.mpr hsum)]
    exact hdeflate

theorem nextChunk_le (hfits : ChunkFits old patch pos) (haccept : ChunkAccepted old patch pos) :
    nextChunk patch pos ≤ patch.length := by
  rw [nextChunk]
  rcases haccept.2 with ⟨htype, -⟩ | ⟨htype, -⟩ | ⟨htype, -⟩
  · rw [if_pos htype]
    exact (hfits.normal htype).1
  · rw [if_neg (by rw [htype]; decide), if_pos htype]
    exact (hfits.raw htype).2
  · rw [if_neg (by rw [htype]; decide), if_neg (by rw [htype]; decide)]
    exact (hfits.deflate htype).1

/-- Where a chunk does not fit, some library shows it. -/
theorem exists_not_sound (hpatch : patch.length < 2 ^ 63) (hold : old.length < 2 ^ 64) (n i pos : ℕ)
    (hpos : pos ≤ patch.length) (h : ¬FieldsFit old patch bonusData n i pos) :
    ∃ k, i ≤ k ∧ ¬ChunksSound old patch bonusData (willingLib bonusData k) n i pos := by
  induction n generalizing i pos with
  | zero => exact absurd trivial h
  | succ n ih =>
    rw [FieldsFit, not_forall] at h
    obtain ⟨haccept, h⟩ := h
    by_cases hfits : ChunkFits old patch pos
    · obtain ⟨hpass, hrest⟩ := Classical.not_imp.mp fun hrest => h ⟨hfits, hrest⟩
      obtain ⟨k, hk, hsound⟩ := ih (i + 1) (nextChunk patch pos) (nextChunk_le hfits haccept) hrest
      refine ⟨k, by omega, fun hall => hsound (hall.2.2 _ ?_)⟩
      exact willing_passes hpatch hold hfits haccept hpass (by omega)
    · exact ⟨i, le_rfl, fun hall => willing_misfit hpatch haccept hfits (hall.2.1 hfits)⟩

theorem chunksSound_of_fieldsFit {lib : PatchLib} (hpatch : patch.length < 2 ^ 63) (n i pos : ℕ)
    (hpos : pos ≤ patch.length) (h : FieldsFit old patch bonusData n i pos) :
    ChunksSound old patch bonusData lib n i pos := by
  induction n generalizing i pos with
  | zero => trivial
  | succ n ih =>
    by_cases haccept : ChunkAccepted old patch pos
    · obtain ⟨hfits, hrest⟩ := h haccept
      obtain ⟨hin, hnext⟩ : GoesOn (applyChunk lib old patch i bonusData pos)
        (nextChunk patch pos) (ChunkPasses patch bonusData i pos) := applyChunk_fits hpatch hfits
      refine ⟨hin, fun hmisfit => absurd hfits hmisfit, fun pos' heq => ?_⟩
      obtain ⟨rfl, hpass⟩ := hnext pos' heq
      exact ih _ _ (nextChunk_le hfits haccept) (hrest hpass)
    · have hrefused : applyChunk lib old patch i bonusData pos = .returned (-1) :=
        applyChunk_refused hpatch hpos haccept
      refine ⟨?_, fun _ => hrefused, fun pos' heq => ?_⟩
      · rw [hrefused]
        exact nofun
      · rw [hrefused] at heq
        cases heq

/-- A run whose chunks are sound reads in bounds. -/
theorem ChunksSound.ne_outOfBounds {lib : PatchLib} {n i pos : ℕ}
    (h : ChunksSound old patch bonusData lib n i pos) :
    applyChunks lib old patch bonusData n i pos ≠ .outOfBounds := by
  induction n generalizing i pos with
  | zero => exact nofun
  | succ n ih =>
    obtain ⟨hin, -, hnext⟩ := h
    rw [applyChunks]
    split
    case h_1 pos' heq => exact ih (hnext pos' heq)
    case h_2 => exact hin

end willing

/-- With any libraries, `ApplyImagePatch` reads in bounds, and returns -1 at the first chunk whose
offsets and lengths do not fit. -/
def PatchSound (old patch : Bytes) (bonusData : Option Bytes) : Prop :=
  ∀ lib, applyImagePatch lib old patch bonusData ≠ .outOfBounds ∧
    if 12 ≤ patch.length ∧ patch.take 8 = imgdiff2 then
      ChunksSound old patch bonusData lib (chunkCount patch) 0 12
    else applyImagePatch lib old patch bonusData = .returned (-1)

theorem applyImagePatch_sound_iff (old patch : Bytes) (bonusData : Option Bytes)
    (hpatch : patch.length < 2 ^ 63) (hold : old.length < 2 ^ 64) :
    PatchSound old patch bonusData ↔
      (12 ≤ patch.length → patch.take 8 = imgdiff2 →
        FieldsFit old patch bonusData (chunkCount patch) 0 12) := by
  by_cases hlen : 12 ≤ patch.length
  swap
  · have hshort : ∀ lib, applyImagePatch lib old patch bonusData = .returned (-1) :=
      fun lib => if_pos (not_le.mp hlen)
    refine iff_of_true (fun lib => ⟨?_, ?_⟩) fun h => absurd h hlen
    · rw [hshort]
      exact nofun
    · rw [if_neg fun h => hlen h.1]
      exact hshort lib
  by_cases hmagic : patch.take 8 = imgdiff2
  swap
  · have hcorrupt : ∀ lib, applyImagePatch lib old patch bonusData = .returned (-1) :=
      fun lib => (if_neg (not_lt.mpr hlen)).trans (if_pos hmagic)
    refine iff_of_true (fun lib => ⟨?_, ?_⟩) fun _ h => absurd h hmagic
    · rw [hcorrupt]
      exact nofun
    · rw [if_neg fun h => hmagic h.2]
      exact hcorrupt lib
  have hrun : ∀ lib, applyImagePatch lib old patch bonusData =
      applyChunks lib old patch bonusData (chunkCount patch) 0 12 :=
    fun lib => (if_neg (not_lt.mpr hlen)).trans (if_neg (not_not.mpr hmagic))
  constructor
  · intro hsound _ _
    by_contra hmisfit
    obtain ⟨k, -, hk⟩ := exists_not_sound hpatch hold (chunkCount patch) 0 12 hlen hmisfit
    have hall := (hsound (willingLib bonusData k)).2
    rw [if_pos ⟨hlen, hmagic⟩] at hall
    exact hk hall
  · intro hfit lib
    have hall : ChunksSound old patch bonusData lib (chunkCount patch) 0 12 :=
      chunksSound_of_fieldsFit hpatch _ _ _ hlen (hfit hlen hmagic)
    rw [if_pos ⟨hlen, hmagic⟩, hrun]
    exact ⟨hall.ne_outOfBounds, hall⟩

section runs

def patchHeader : Bytes := imgdiff2 ++ [1, 0, 0, 0]

/-- A normal chunk for the first byte of the source. -/
def fittingPatch : Bytes := patchHeader ++ [0, 0, 0, 0] ++ List.replicate 8 0 ++
  [1, 0, 0, 0, 0, 0, 0, 0] ++ [40, 0, 0, 0, 0, 0, 0, 0]

theorem fitting_sound : PatchSound [0x61] fittingPatch none := by
  refine (applyImagePatch_sound_iff [0x61] fittingPatch none (by decide) (by decide)).mpr ?_
  intro _ _ _
  refine ⟨⟨by decide, fun _ => ⟨by decide, ?_, by decide⟩, fun h => ?_, fun h => ?_⟩, fun _ => ?_⟩
  · change field fittingPatch 16 8 + field fittingPatch 24 8 ≤ 1
    decide
  · exact absurd h (by decide)
  · exact absurd h (by decide)
  · exact trivial

/-- Its source starts eight bytes before the buffer. -/
def wrappingPatch : Bytes := patchHeader ++ [0, 0, 0, 0] ++ [0xf8] ++ List.replicate 7 0xff ++
  [8, 0, 0, 0, 0, 0, 0, 0] ++ [40, 0, 0, 0, 0, 0, 0, 0]

/-- The source range of the chunk comes to 0 in `size_t`, and is handed to `bspatch`. -/
theorem not_patchSound : ¬∀ old patch bonusData, PatchSound old patch bonusData := by
  intro h
  have hin := (h [0x61] wrappingPatch none (willingLib none 0)).1
  exact hin (by decide)

end runs

end BootableRecovery.Applypatch
