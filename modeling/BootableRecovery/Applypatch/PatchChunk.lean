import BootableRecovery.Applypatch.ImageModeImage
import BootableRecovery.Applypatch.ImagePatch

namespace BootableRecovery.Applypatch
open Lib

/-! `PatchChunk`: what imgdiff writes for each chunk of the target. -/

/-- The parameters of `deflateInit2`, as 32-bit fields. -/
structure DeflateParams where
  level : ℕ
  method : ℕ
  windowBits : ℕ
  memLevel : ℕ
  strategy : ℕ
  deriving DecidableEq

/-- Those of `ImageChunk`. -/
def imageParams (level : ℕ) : DeflateParams := ⟨level, 8, 2 ^ 32 - 15, 8, 0⟩

/-- `bsdiff` and zlib: the patch of a source and a target, what `bspatch` makes of a source and all
that stands from the patch on, and the deflation of a whole buffer. -/
structure Codec where
  bsdiff : Bytes → Bytes → Option Bytes
  bspatch : Bytes → Bytes → Option Bytes
  inflater : Inflater
  deflate : DeflateParams → Bytes → Option Bytes

def Codec.zlib (c : Codec) : Zlib := ⟨fun level => c.deflate (imageParams level)⟩

/-- `bspatch` inverts `bsdiff`, whose patches have a header of 32 bytes; `inflate` reports the end
with the last of the output; and less than 32 bytes stand for no data. -/
structure Codec.Lawful (c : Codec) : Prop where
  inflater : c.inflater.Lawful
  eager : ∀ input, c.inflater.eager input = true
  patches : ∀ {src tgt data}, c.bsdiff src tgt = some data →
    32 ≤ data.length ∧ ∀ rest, c.bspatch src (data ++ rest) = some tgt
  nothing : ∀ {params out}, c.deflate params [] = some out → out.length < 32

def ImageChunk.dataLengthForPatch (c : ImageChunk) : ℕ :=
  match c.type with
  | .deflate => c.uncompressedData.length
  | _ => c.rawDataLen

structure PatchChunk where
  type : ChunkType
  sourceStart : ℕ
  sourceLen : ℕ
  sourceUncompressedLen : ℕ
  targetUncompressedLen : ℕ
  targetCompressLevel : ℕ
  data : Bytes
  deriving DecidableEq, Repr

/-- The low bytes of a number, the lowest first. -/
def littleEndianBytes : ℕ → ℕ → Bytes
  | 0, _ => []
  | len + 1, n => UInt8.ofNat (n % 256) :: littleEndianBytes len (n / 256)

namespace PatchChunk

/-- The first constructor. -/
def ofChunks (tgt src : ImageChunk) (data : Bytes) : PatchChunk where
  type := tgt.type
  sourceStart := src.start
  sourceLen := src.rawDataLen
  sourceUncompressedLen := src.dataLengthForPatch
  targetUncompressedLen := tgt.dataLengthForPatch
  targetCompressLevel := tgt.compressLevel
  data := data

/-- The second one, of a `CHUNK_RAW` patch. -/
def ofTarget (tgtFile : Bytes) (tgt : ImageChunk) : PatchChunk where
  type := .raw
  sourceStart := 0
  sourceLen := 0
  sourceUncompressedLen := 0
  targetUncompressedLen := tgt.dataLengthForPatch
  targetCompressLevel := tgt.compressLevel
  data := tgt.rawData tgtFile

def rawDataIsSmaller (tgt : ImageChunk) (patchSize : ℕ) : Bool :=
  tgt.rawDataLen < patchSize || (tgt.type = .normal && tgt.rawDataLen ≤ 160)

variable (p : PatchChunk)

def headerSize : ℕ :=
  match p.type with
  | .normal => 28
  | .deflate => 64
  | .raw => 8 + p.data.length

/-- The header, with the offset of the patch. -/
def writeHeader (offset : ℕ) : Bytes :=
  match p.type with
  | .normal => littleEndianBytes 4 chunkNormal ++ littleEndianBytes 8 p.sourceStart ++
      littleEndianBytes 8 p.sourceLen ++ littleEndianBytes 8 offset
  | .deflate => littleEndianBytes 4 chunkDeflate ++ littleEndianBytes 8 p.sourceStart ++
      littleEndianBytes 8 p.sourceLen ++ littleEndianBytes 8 offset ++
      littleEndianBytes 8 p.sourceUncompressedLen ++ littleEndianBytes 8 p.targetUncompressedLen ++
      littleEndianBytes 4 p.targetCompressLevel ++
      littleEndianBytes 4 (imageParams p.targetCompressLevel).method ++
      littleEndianBytes 4 (imageParams p.targetCompressLevel).windowBits ++
      littleEndianBytes 4 (imageParams p.targetCompressLevel).memLevel ++
      littleEndianBytes 4 (imageParams p.targetCompressLevel).strategy
  | .raw => littleEndianBytes 4 chunkRaw ++ littleEndianBytes 4 p.data.length ++ p.data

/-- What stands behind the headers. -/
def payload : Bytes :=
  match p.type with
  | .raw => []
  | _ => p.data

/-- The headers of some chunks; a raw chunk takes no room behind them. -/
def writeHeaders : List PatchChunk → ℕ → Bytes
  | [], _ => []
  | p :: ps, offset => p.writeHeader offset ++ writeHeaders ps (offset + p.payload.length)

/-- `WritePatchDataToFd` -/
def writePatchData (ps : List PatchChunk) : Bytes :=
  imgdiff2 ++ littleEndianBytes 4 ps.length ++
    writeHeaders ps (12 + (ps.map headerSize).sum) ++ ps.flatMap payload

end PatchChunk

/-- The patch for a chunk of the target, which is its data where these are not longer. -/
def makePatchChunk (c : Codec) (tgtFile srcFile : Bytes) (tgt src : ImageChunk) :
    Option PatchChunk :=
  if PatchChunk.rawDataIsSmaller tgt 0 then some (.ofTarget tgtFile tgt)
  else
    (c.bsdiff (src.dataForPatch srcFile) (tgt.dataForPatch tgtFile)).map fun data =>
      if PatchChunk.rawDataIsSmaller tgt data.length then .ofTarget tgtFile tgt
      else .ofChunks tgt src data

@[simp] theorem littleEndianBytes_length (len n : ℕ) : (littleEndianBytes len n).length = len := by
  induction len generalizing n with
  | zero => rfl
  | succ len ih => rw [littleEndianBytes, List.length_cons, ih]

theorem littleEndian_bytes (len n : ℕ) :
    littleEndian (littleEndianBytes len n) = n % 256 ^ len := by
  induction len generalizing n with
  | zero => rw [littleEndianBytes, littleEndian, pow_zero, Nat.mod_one]
  | succ len ih =>
    rw [littleEndianBytes, littleEndian, ih, UInt8.toNat_ofNat_of_lt' (Nat.mod_lt _ (by decide)),
      pow_succ', Nat.mod_mul]

theorem PatchChunk.writeHeader_length (p : PatchChunk) (offset : ℕ) :
    (p.writeHeader offset).length = p.headerSize := by
  rw [writeHeader, headerSize]
  cases p.type with
  | normal => simp
  | deflate => simp
  | raw =>
    simp only [List.length_append, littleEndianBytes_length]

theorem PatchChunk.writeHeaders_length (ps : List PatchChunk) (offset : ℕ) :
    (writeHeaders ps offset).length = (ps.map headerSize).sum := by
  induction ps generalizing offset with
  | nil => rfl
  | cons p ps ih => rw [writeHeaders, List.length_append, ih, writeHeader_length, List.map_cons,
      List.sum_cons]

end BootableRecovery.Applypatch
