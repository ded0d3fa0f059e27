import BootableRecovery.Lib.Frame

namespace BootableRecovery.Adbbu

/-! The 512-byte structures of the adb stream. -/

abbrev Bytes := List UInt8

def maxAdbRead : ℕ := 512

def dataMaxChunkSize : ℕ := 1048576

/-- zlib's `crc32`, whose calls on one buffer after another are one call on both, and the string
of an MD5 digest. -/
structure Checksums where
  crc32 : Bytes → UInt32
  md5 : Bytes → Bytes

def zeros (n : ℕ) : Bytes := List.replicate n 0

def chars (s : String) : Bytes := s.toList.map fun c => UInt8.ofNat c.toNat

/-- `strncpy` into a field of `n` bytes. -/
def charField (n : ℕ) (s : Bytes) : Bytes := s.take n ++ zeros (n - s.length)

/-- An integer field of `n` bytes, the low one first. -/
def wordField : ℕ → ℕ → Bytes
  | 0, _ => []
  | n + 1, v => UInt8.ofNat v :: wordField n (v / 256)

def readWord : Bytes → ℕ
  | [] => 0
  | b :: bs => b.toNat + 256 * readWord bs

def TWRP : Bytes := chars "TWRP"
def TWSTREAMHDR : Bytes := chars "twstreamheader"
def TWFN : Bytes := chars "twfilename"
def TWIMG : Bytes := chars "twimage"
def TWEOF : Bytes := chars "tweof"
def MD5TRAILER : Bytes := chars "md5trailer"
def TWDATA : Bytes := chars "twdatablock"
def TWMD5 : Bytes := chars "twverifymd5"
def TWENDADB : Bytes := chars "twendadb"
def TWERROR : Bytes := chars "twerror"

/-- `get_type`, which keeps inside of the field. -/
def getType (block : Bytes) : Bytes := ((block.drop 8).take 15).takeWhile fun b => b != 0

/-- The magic value and the type. -/
def startOf (type : Bytes) : Bytes := charField 8 TWRP ++ charField 16 type

variable (sums : Checksums)

/-- A structure with its crc, which is taken while the field is zero. -/
def withCrc (before after : Bytes) : Bytes :=
  before ++ wordField 4 (sums.crc32 (before ++ zeros 4 ++ after)).toNat ++ after

/-- The check that `restore` makes of a crc at `offset`. -/
def crcMatches (offset : ℕ) (block : Bytes) : Bool :=
  readWord ((block.drop offset).take 4) =
    (sums.crc32 (block.take offset ++ zeros 4 ++ block.drop (offset + 4))).toNat

/-- An `AdbBackupControlType` -/
def controlBlock (type : Bytes) : Bytes := withCrc sums (startOf type) (zeros 484)

/-- An `AdbBackupStreamHeader`, version 3 -/
def streamHeader (partitionCount : ℕ) : Bytes :=
  withCrc sums (startOf TWSTREAMHDR ++ wordField 8 partitionCount ++ wordField 8 3) (zeros 468)

inductive FileType
  | tar
  | image
  deriving DecidableEq, Repr

/-- A file that TWRP backs up: the fields of its `twfilehdr`, and what goes through the data fifo.
An image leaves `compressed` as it finds it. -/
structure AdbFile where
  fileType : FileType
  name : Bytes
  size : ℕ
  compressed : ℕ
  payload : Bytes
  deriving DecidableEq, Repr

def FileType.type : FileType → Bytes
  | .tar => TWFN
  | .image => TWIMG

def AdbFile.header (f : AdbFile) : Bytes :=
  withCrc sums (startOf f.fileType.type ++ wordField 8 f.size ++ wordField 8 f.compressed)
    (charField 468 f.name)

/-- `Write_TWDATA` -/
def dataHeader : Bytes := controlBlock sums TWDATA

/-- The size and the compression that a `twfilehdr` holds. -/
def headerSize (block : Bytes) : ℕ := readWord ((block.drop 24).take 8)

def headerCompressed (block : Bytes) : Bool := readWord ((block.drop 32).take 8) = 1

/-- An `AdbBackupFileTrailer` with the crc, and with an identity that depends on the header. -/
def md5Trailer (size : ℕ) (digested : Bytes) : Bytes :=
  let fields := charField 40 (sums.md5 digested) ++ zeros 440
  let crc := wordField 4 (sums.crc32 (startOf MD5TRAILER ++ zeros 8 ++ fields)).toNat
  let ident := sums.crc32 (startOf MD5TRAILER ++ crc ++ zeros 4 ++ fields ++ wordField 8 size)
  startOf MD5TRAILER ++ crc ++ wordField 4 ident.toNat ++ fields

/-- The data that fits into a chunk with its header. -/
def chunkData : ℕ := dataMaxChunkSize - maxAdbRead

def framedPayload (payload : Bytes) : Bytes := Lib.framed (dataHeader sums) chunkData payload

/-- The zeros that fill the last chunk of `n` bytes. -/
def paddingBytes (fileBytes : ℕ) : ℕ :=
  if fileBytes % dataMaxChunkSize ≠ 0 then
    (fileBytes / dataMaxChunkSize + 1) * dataMaxChunkSize - fileBytes
  else 0

theorem wordField_length (n v : ℕ) : (wordField n v).length = n := by
  induction n generalizing v with
  | zero => rfl
  | succ n ih => rw [wordField, List.length_cons, ih]

theorem readWord_wordField (n v : ℕ) : readWord (wordField n v) = v % 256 ^ n := by
  induction n generalizing v with
  | zero => rw [Nat.pow_zero, Nat.mod_one]; rfl
  | succ n ih =>
    have hbyte : (UInt8.ofNat v).toNat = v % 256 := UInt8.toNat_ofNat'
    rw [wordField, readWord, ih, hbyte, Nat.pow_succ', Nat.mod_mul]

theorem charField_length (n : ℕ) (s : Bytes) : (charField n s).length = n := by
  rw [charField, List.length_append, List.length_take, zeros, List.length_replicate]
  omega

theorem startOf_length (type : Bytes) : (startOf type).length = 24 := by
  rw [startOf, List.length_append, charField_length, charField_length]

theorem withCrc_length (before after : Bytes) :
    (withCrc sums before after).length = before.length + 4 + after.length := by
  rw [withCrc, List.length_append, List.length_append, wordField_length]

theorem controlBlock_length (type : Bytes) : (controlBlock sums type).length = maxAdbRead := by
  rw [controlBlock, withCrc_length, startOf_length, zeros, List.length_replicate]
  rfl

theorem header_length (f : AdbFile) : (f.header sums).length = maxAdbRead := by
  rw [AdbFile.header, withCrc_length, List.length_append, List.length_append, startOf_length,
    wordField_length, wordField_length, charField_length]
  rfl

theorem md5Trailer_length (size : ℕ) (digested : Bytes) :
    (md5Trailer sums size digested).length = maxAdbRead := by
  simp only [md5Trailer, List.length_append, startOf_length, wordField_length, charField_length,
    zeros, List.length_replicate]
  rfl

/-- The type of a block that starts as the structures of the stream do. -/
theorem getType_startOf {type : Bytes} (hlen : type.length < 15) (hzero : 0 ∉ type)
    (rest : Bytes) : getType (startOf type ++ rest) = type := by
  have hstart : (startOf type ++ rest).drop 8 = charField 16 type ++ rest := by
    rw [startOf, List.append_assoc]
    exact List.drop_left' (charField_length 8 TWRP)
  have hfield : charField 16 type = type ++ 0 :: zeros (15 - type.length) := by
    rw [charField, List.take_of_length_le (by omega), zeros, zeros,
      show 16 - type.length = 15 - type.length + 1 by omega, List.replicate_succ]
  rw [getType, hstart, hfield, List.append_assoc, List.take_append,
    List.take_of_length_le (by omega),
    List.cons_append, show 15 - type.length = (14 - type.length) + 1 by omega, List.take_succ_cons,
    List.takeWhile_append_of_pos, List.takeWhile_cons_of_neg (by simp), List.append_nil]
  intro b hb
  exact bne_iff_ne.mpr fun heq => hzero (heq ▸ hb)

theorem crcMatches_withCrc (before after : Bytes) :
    crcMatches sums before.length (withCrc sums before after) = true := by
  have hword := wordField_length 4 (sums.crc32 (before ++ zeros 4 ++ after)).toNat
  rw [crcMatches, decide_eq_true_eq, withCrc, List.append_assoc, List.drop_left,
    List.take_left' hword, readWord_wordField, List.take_left, ← List.drop_drop, List.drop_left,
    List.drop_left' hword]
  exact Nat.mod_eq_of_lt (UInt32.toNat_lt _)

theorem md5Trailer_md5 (size : ℕ) (digested : Bytes) :
    ((md5Trailer sums size digested).drop 32).take 40 = charField 40 (sums.md5 digested) := by
  have hdrop : ∀ (crc ident : ℕ) (rest : Bytes), (startOf MD5TRAILER ++ (wordField 4 crc ++
      (wordField 4 ident ++ rest))).drop 32 = rest := by
    intro crc ident rest
    rw [← List.append_assoc, ← List.append_assoc]
    refine List.drop_left' ?_
    rw [List.length_append, List.length_append, startOf_length, wordField_length, wordField_length]
  simp only [md5Trailer]
  rw [List.append_assoc, List.append_assoc, hdrop]
  exact List.take_left' (charField_length 40 _)

end BootableRecovery.Adbbu
