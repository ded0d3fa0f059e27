import BootableRecovery.Lib.Places

namespace BootableRecovery.Libtar

/-! The header block of a file: the numbers in its fields, and its checksum. -/

open Lib

abbrev Bytes := List UInt8

/-! ### Numbers -/

def octDigit (d : ℕ) : UInt8 := UInt8.ofNat (48 + d)

/-- `sprintf` with `%0*llo`. -/
def printOct (width n : ℕ) : Bytes :=
  List.replicate (width - (Nat.toDigits 8 n).length) 48 ++
    (Nat.toDigits 8 n).map fun c => UInt8.ofNat c.toNat

def unsigned (num : Int64) : ℕ := num.toUInt64.toNat

/-- The last digits and the NUL. -/
def intToOct (num : Int64) (octlen : ℕ) : Bytes :=
  let tmp := printOct octlen (unsigned num)
  (tmp ++ [0]).drop (tmp.length - octlen + 1)

def isOct (c : UInt8) : Bool := 48 ≤ c && c ≤ 55

def skipBlanks (s : Bytes) : Bytes := s.dropWhile fun c => c = 32 || 9 ≤ c && c ≤ 13

/-- `sscanf` with `%llo`: blanks, a sign and octal digits. A number that is too large becomes the
largest one, and a negative one is taken modulo 2 to the 64. -/
def scanOct (s : Bytes) : Option ℕ :=
  let s := skipBlanks s
  let negative : Bool := s.head? = some 45
  let s := if negative || s.head? = some 43 then s.tail else s
  let digits := s.takeWhile isOct
  if digits = [] then none
  else
    let value := min (readPlaces 8 (digits.map fun c => c.toNat - 48)) (2 ^ 64 - 1)
    some (if negative then (2 ^ 64 - value) % 2 ^ 64 else value)

/-- The text is not limited to the field that it starts in. -/
def octToInt (oct : Bytes) : Int64 :=
  match scanOct oct with
  | some value => (UInt64.ofNat value).toInt64
  | none => 0

def octToIntEx (oct : Bytes) (octlen : ℕ) : Int64 :=
  match oct with
  | [] => octToInt oct
  | first :: rest =>
    if first &&& 0x80 ≠ 0 then
      let tmp := ((first &&& 0x7f) :: rest).take octlen
      (UInt64.ofNat (readPlaces 256 ((tmp.drop (octlen - 8)).map UInt8.toNat))).toInt64
    else octToInt oct

/-- The eight bytes, the lowest last, with what is left of the number in front. -/
def binaryBytes (num : Int64) (octlen : ℕ) : Bytes :=
  List.replicate (octlen - 8) (if num < 0 then 0xff else 0) ++
    (places 256 8 (unsigned num)).map UInt8.ofNat

def intToOctEx (num : Int64) (octlen : ℕ) : Bytes :=
  if num < 0 ∨ 2 ^ ((octlen - 1) * 3) ≤ num.toInt then
    match binaryBytes num octlen with
    | [] => []
    | first :: rest => (first ||| 0x80) :: rest
  else intToOct num octlen

/-! ### The block -/

/-- The members of `struct tar_header` that are in the block. -/
inductive Field
  | name
  | mode
  | uid
  | gid
  | size
  | mtime
  | chksum
  | typeflag
  | linkname
  | magic
  | version
  | uname
  | gname
  | devmajor
  | devminor
  | pathPrefix
  | padding
  deriving DecidableEq, Repr

namespace Field

def offset : Field → ℕ
  | name => 0
  | mode => 100
  | uid => 108
  | gid => 116
  | size => 124
  | mtime => 136
  | chksum => 148
  | typeflag => 156
  | linkname => 157
  | magic => 257
  | version => 263
  | uname => 265
  | gname => 297
  | devmajor => 329
  | devminor => 337
  | pathPrefix => 345
  | padding => 500

def length : Field → ℕ
  | name | linkname => 100
  | mode | uid | gid | chksum | devmajor | devminor => 8
  | size | mtime | padding => 12
  | typeflag => 1
  | magic => 6
  | version => 2
  | uname | gname => 32
  | pathPrefix => 155

theorem fits (f : Field) : f.offset + f.length ≤ 512 := by cases f <;> decide

end Field

structure HeaderBlock where
  bytes : Bytes
  size : bytes.length = 512
  deriving DecidableEq

namespace HeaderBlock

/-- `memset` of the whole header. -/
def zero : HeaderBlock := ⟨List.replicate 512 0, List.length_replicate⟩

/-- The bytes of a string are copied to the start of a member. -/
def put (b : HeaderBlock) (f : Field) (value : Bytes) : HeaderBlock where
  bytes := b.bytes.take f.offset ++ (value.take f.length ++
    b.bytes.drop (f.offset + (value.take f.length).length))
  size := by
    have hsize := b.size
    have hfits := f.fits
    simp only [List.length_append, List.length_take, List.length_drop]
    omega

/-- What a pointer to a member points to. -/
def text (b : HeaderBlock) (f : Field) : Bytes := b.bytes.drop f.offset

/-- The bytes of a member. -/
def field (b : HeaderBlock) (f : Field) : Bytes := (b.text f).take f.length

/-- The value of a byte as `unsigned char` and as `signed char`. -/
def unsignedChar (x : UInt8) : ℤ := x.toNat

def signedChar (x : UInt8) : ℤ := if 128 ≤ x.toNat then (x.toNat : ℤ) - 256 else x.toNat

/-- The sum of all bytes, with blanks for those of the checksum. -/
def crcCalc (char : UInt8 → ℤ) (b : HeaderBlock) : ℤ :=
  (b.bytes.map char).sum + ((b.field .chksum).map fun x => 32 - char x).sum

def thCrcCalc (b : HeaderBlock) : ℤ := crcCalc unsignedChar b

def thSignedCrcCalc (b : HeaderBlock) : ℤ := crcCalc signedChar b

def thGetCrc (b : HeaderBlock) : Int64 := octToInt (b.text .chksum)

def thCrcOk (b : HeaderBlock) : Bool :=
  (thGetCrc b).toInt = thCrcCalc b || (thGetCrc b).toInt = thSignedCrcCalc b

def thSetSize (b : HeaderBlock) (size : Int64) : HeaderBlock := b.put .size (intToOctEx size 12)

def thGetSize (b : HeaderBlock) : Int64 := octToIntEx (b.text .size) 12

def thSetMtime (b : HeaderBlock) (mtime : Int64) : HeaderBlock :=
  b.put .mtime (intToOctEx mtime 12)

def thGetMtime (b : HeaderBlock) : Int64 := octToIntEx (b.text .mtime) 12

/-- The version of GNU is a blank, and its magic ends in one. -/
def thFinish (gnu : Bool) (b : HeaderBlock) : HeaderBlock :=
  let b :=
    if gnu then (b.put .magic [117, 115, 116, 97, 114, 32]).put .version [32, 0]
    else (b.put .version [48, 48]).put .magic [117, 115, 116, 97, 114, 0]
  b.put .chksum (intToOct (Int64.ofInt (thCrcCalc b)) 8)

/-! ### The members that come from `stat` -/

/-- `S_IFMT`. -/
def format (mode : UInt32) : UInt32 := mode &&& 0o170000

def sIsReg (mode : UInt32) : Bool := format mode = 0o100000
def sIsLnk (mode : UInt32) : Bool := format mode = 0o120000
def sIsDir (mode : UInt32) : Bool := format mode = 0o040000
def sIsChr (mode : UInt32) : Bool := format mode = 0o020000
def sIsBlk (mode : UInt32) : Bool := format mode = 0o060000
def sIsFifo (mode : UInt32) : Bool := format mode = 0o010000
def sIsSock (mode : UInt32) : Bool := format mode = 0o140000

/-- The members of `struct stat` that are stored. The kernel has modes of 16 bits, and each one
has a type. -/
structure Stat where
  mode : UInt16
  uid : UInt32
  gid : UInt32
  major : UInt32
  minor : UInt32
  size : Int64
  mtime : Int64
  known : [sIsReg, sIsLnk, sIsDir, sIsChr, sIsBlk, sIsFifo, sIsSock].any (· mode.toUInt32) = true
  deriving DecidableEq, Repr

def regType : UInt8 := 48
def lnkType : UInt8 := 49
def symType : UInt8 := 50
def chrType : UInt8 := 51
def blkType : UInt8 := 52
def dirType : UInt8 := 53
def fifoType : UInt8 := 54
def contType : UInt8 := 55

/-- A mode of no type leaves the flag as it is. -/
def thSetType (b : HeaderBlock) (mode : UInt32) : HeaderBlock :=
  if sIsLnk mode then b.put .typeflag [symType]
  else if sIsReg mode then b.put .typeflag [regType]
  else if sIsDir mode then b.put .typeflag [dirType]
  else if sIsChr mode then b.put .typeflag [chrType]
  else if sIsBlk mode then b.put .typeflag [blkType]
  else if sIsFifo mode || sIsSock mode then b.put .typeflag [fifoType]
  else b

def thSetDevice (b : HeaderBlock) (major minor : UInt32) : HeaderBlock :=
  (b.put .devmajor (intToOct major.toUInt64.toInt64 8)).put .devminor
    (intToOct minor.toUInt64.toInt64 8)

/-- A string of the C library in a buffer. -/
def cText (s : Bytes) : Bytes := s.takeWhile (· ≠ 0)

/-- `getpwuid` and `getpwnam`, or `getgrgid` and `getgrnam`. The names fit into their fields. -/
structure Accounts where
  nameOf : UInt32 → Option Bytes
  idOf : Bytes → Option UInt32
  idOf_nameOf : ∀ {id name}, nameOf id = some name → idOf name = some id
  name_length : ∀ {id name}, nameOf id = some name → name.length < 32
  name_text : ∀ {id name}, nameOf id = some name → 0 ∉ name
  idOf_nil : idOf [] = none

/-- `th_set_user` and `th_set_group`: the name of the account if it has one, and its number. -/
def setAccount (b : HeaderBlock) (accounts : Accounts) (nameField idField : Field) (id : UInt32) :
    HeaderBlock :=
  let b := match accounts.nameOf id with
    | some name => b.put nameField (name.take 31 ++ [0])
    | none => b
  b.put idField (intToOct id.toUInt64.toInt64 8)

def thSetUser (b : HeaderBlock) (users : Accounts) (uid : UInt32) : HeaderBlock :=
  b.setAccount users .uname .uid uid

def thSetGroup (b : HeaderBlock) (groups : Accounts) (gid : UInt32) : HeaderBlock :=
  b.setAccount groups .gname .gid gid

/-- A socket is stored as a FIFO. -/
def storedMode (fmode : UInt32) : UInt32 :=
  if sIsSock fmode then (fmode &&& ~~~0o140000) ||| 0o010000 else fmode

def thSetMode (b : HeaderBlock) (fmode : UInt32) : HeaderBlock :=
  b.put .mode (intToOct (storedMode fmode).toUInt64.toInt64 8)

def thSetFromStat (users groups : Accounts) (b : HeaderBlock) (s : Stat) : HeaderBlock :=
  let mode := s.mode.toUInt32
  let b := b.thSetType mode
  let b := if sIsChr mode || sIsBlk mode then b.thSetDevice s.major s.minor else b
  let b := ((b.thSetUser users s.uid).thSetGroup groups s.gid).thSetMode mode
  (b.thSetMtime s.mtime).thSetSize (if sIsReg mode then s.size else 0)

/-! ### Reading the members -/

/-- `th_get_uid` and `th_get_gid`: an account of this name, or else the number. -/
def getAccount (b : HeaderBlock) (accounts : Accounts) (nameField idField : Field) : UInt32 :=
  match accounts.idOf (cText (b.text nameField)) with
  | some id => id
  | none => (octToInt (b.text idField)).toUInt64.toUInt32

def thGetUid (b : HeaderBlock) (users : Accounts) : UInt32 := b.getAccount users .uname .uid

def thGetGid (b : HeaderBlock) (groups : Accounts) : UInt32 := b.getAccount groups .gname .gid

def modeNumber (b : HeaderBlock) : UInt32 := (octToInt (b.text .mode)).toUInt64.toUInt32

def typeflag (b : HeaderBlock) : UInt8 := (b.text .typeflag).headD 0

/-- A name of at most 100 bytes ends in a slash. -/
def endsInSlash (b : HeaderBlock) : Bool := (cText (b.field .name)).getLast? = some 47

def thIsReg (b : HeaderBlock) : Bool :=
  b.typeflag = regType || b.typeflag = 0 || b.typeflag = contType ||
    sIsReg b.modeNumber && b.typeflag ≠ lnkType

def thIsLnk (b : HeaderBlock) : Bool := b.typeflag = lnkType
def thIsSym (b : HeaderBlock) : Bool := b.typeflag = symType || sIsLnk b.modeNumber
def thIsChr (b : HeaderBlock) : Bool := b.typeflag = chrType || sIsChr b.modeNumber
def thIsBlk (b : HeaderBlock) : Bool := b.typeflag = blkType || sIsBlk b.modeNumber
def thIsFifo (b : HeaderBlock) : Bool := b.typeflag = fifoType || sIsFifo b.modeNumber

def thIsDir (b : HeaderBlock) : Bool :=
  b.typeflag = dirType || sIsDir b.modeNumber || b.typeflag = 0 && b.endsInSlash

def thGetDevmajor (b : HeaderBlock) : Int64 := octToInt (b.text .devmajor)

def thGetDevminor (b : HeaderBlock) : Int64 := octToInt (b.text .devminor)

/-- The type comes from the flag if the number has none. -/
def thGetMode (b : HeaderBlock) : UInt32 :=
  let mode := b.modeNumber
  if format mode ≠ 0 then mode
  else if b.typeflag = symType then mode ||| 0o120000
  else if b.typeflag = chrType then mode ||| 0o020000
  else if b.typeflag = blkType then mode ||| 0o060000
  else if b.typeflag = dirType then mode ||| 0o040000
  else if b.typeflag = fifoType then mode ||| 0o010000
  else if b.typeflag = 0 && b.endsInSlash then mode ||| 0o040000
  else mode ||| 0o100000

end HeaderBlock

end BootableRecovery.Libtar
