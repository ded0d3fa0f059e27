import BootableRecovery.Lib.Search
import BootableRecovery.Lib.Text

namespace BootableRecovery.Libtar

/-! The `x` headers of `th_write` and `th_read`: attributes of a file as records in blocks. -/

open Lib

def tBlockSize : ℕ := 512

inductive ExtTag
  | selinux
  | fscrypt
  | capabilities
  | userDefault
  | userCache
  | userCodeCache
  deriving DecidableEq, Repr

def ExtTag.text : ExtTag → Text
  | selinux => "RHT.security.selinux=".toList
  | fscrypt => "TWRP.security.fscrypt=".toList
  | capabilities => "SCHILY.xattr.security.capability=".toList
  | userDefault => "ANDROID.user.default".toList
  | userCache => "ANDROID.user.inode_cache".toList
  | userCodeCache => "ANDROID.user.inode_code_cache".toList

/-- `struct fscrypt_policy_v1` or `struct fscrypt_policy_v2`, as the build has it. -/
inductive PolicyVersion
  | v1
  | v2
  deriving DecidableEq, Repr

def PolicyVersion.size : PolicyVersion → ℕ
  | v1 => 12
  | v2 => 24

/-- The size of `struct vfs_cap_data`. -/
def capDataSize : ℕ := 20

/-- The members of `th_buf` that the extended headers carry. -/
structure Attributes where
  selinuxContext : Option Text
  fep : Option Text
  capData : Option Text
  hasUserDefault : Bool
  hasUserCache : Bool
  hasUserCodeCache : Bool
  deriving DecidableEq, Repr

def Attributes.cleared : Attributes := ⟨.none, .none, .none, false, false, false⟩

/-- The header block of a file: the members that matter here and all the others. -/
structure ThBuf (α : Type) where
  typeflag : Char
  size : ℕ
  fields : α
  deriving DecidableEq, Repr

/-- `th_finish` and `th_read_internal` for one block. -/
structure HeaderCodec (α : Type) where
  finish : ThBuf α → Text
  readInternal : Text → Option (ThBuf α)
  readInternal_finish : ∀ h, readInternal (finish h) = some h

/-! ### Writing -/

/-- The size of a record, its own digits among it. -/
def recordSize (tag : ExtTag) (value : Text) : ℕ :=
  let sz := tag.text.length + value.length + 3 + 1
  if 100 ≤ sz then sz + 1 else sz

def recordText (tag : ExtTag) (value : Text) : Text :=
  decimal (recordSize tag value) ++ ' ' :: (tag.text ++ value ++ ['\n'])

/-- What is written, `buf` up to `ptr`, and `total_sz`. -/
structure ExtBuf where
  blocks : List Text
  buf : Text
  totalSz : ℕ

section write
variable {α : Type} (codec : HeaderCodec α) (h : ThBuf α)

/-- The block that `buf` is. -/
def paddedBlock (buf : Text) : Text := buf ++ List.replicate (tBlockSize - buf.length) '\x00'

def thWriteExtended (s : ExtBuf) : Option (List Text) :=
  if tBlockSize ≤ s.totalSz then .none
  else some (s.blocks ++
    [codec.finish { h with typeflag := 'x', size := s.totalSz }, paddedBlock s.buf])

/-- A record behind those in the buffer, or first in the next block. -/
def putRecord (tag : ExtTag) (value : Option Text) (s : ExtBuf) : Option ExtBuf :=
  match value with
  | .none => some s
  | some value =>
    let sz := recordSize tag value
    if tBlockSize ≤ s.totalSz + sz then
      (thWriteExtended codec h s).map fun blocks => ⟨blocks, recordText tag value, sz⟩
    else some ⟨s.blocks, s.buf ++ recordText tag value, s.totalSz + sz⟩

/-- The context is put into the empty buffer whatever its size. -/
def putContext : Option Text → ExtBuf
  | .none => ⟨[], [], 0⟩
  | some context => ⟨[], recordText .selinux context, recordSize .selinux context⟩

def flag (b : Bool) : Option Text := if b then some [] else .none

def thWrite (a : Attributes) : Option (List Text) := do
  let s := putContext a.selinuxContext
  let s ← putRecord codec h .fscrypt (a.fep.map ('0' :: ·)) s
  let s ← putRecord codec h .capabilities a.capData s
  let s ← putRecord codec h .userDefault (flag a.hasUserDefault) s
  let s ← putRecord codec h .userCache (flag a.hasUserCache) s
  let s ← putRecord codec h .userCodeCache (flag a.hasUserCodeCache) s
  let blocks ← if 0 < s.totalSz then thWriteExtended codec h s else some s.blocks
  some (blocks ++ [codec.finish h])

end write

/-! ### Reading -/

section read
variable (version : PolicyVersion) (allocated : Text)

/-- Where a value starts that has at least one byte before the end of the string. -/
def valueStart (tag : ExtTag) (text : Text) : Option ℕ :=
  (searchFirst tag.text text).bind fun start =>
    if start + tag.text.length < text.length then some (start + tag.text.length) else .none

/-- The attributes of a block; `allocated` is what `malloc` returns for the policy. -/
def readBlock (block : Text) (a : Attributes) : Attributes :=
  let buf := block.set (tBlockSize - 1) '\x00'
  let text := cString buf
  { capData :=
      match valueStart .capabilities text with
      | some start => some ((buf.drop start).take capDataSize)
      | .none => a.capData
    selinuxContext :=
      match valueStart .selinux text with
      | some start =>
        if '\n' ∈ text.drop start then some ((text.drop start).takeWhile (· ≠ '\n'))
        else a.selinuxContext
      | .none => a.selinuxContext
    hasUserDefault := (searchFirst (ExtTag.text .userDefault) text).isSome || a.hasUserDefault
    hasUserCache := (searchFirst (ExtTag.text .userCache) text).isSome || a.hasUserCache
    hasUserCodeCache :=
      (searchFirst (ExtTag.text .userCodeCache) text).isSome || a.hasUserCodeCache
    fep :=
      match valueStart .fscrypt text with
      | some start =>
        if (text.drop start).head? = some '0' then
          some ((buf.drop (start + 1)).take version.size)
        else some allocated
      | .none => a.fep }

variable {α : Type} (codec : HeaderCodec α)

def isExtended (h : ThBuf α) : Bool := h.typeflag = 'x' || h.typeflag = 'p'

/-- The loop over the extended headers. A size that is not supported skips no block. -/
def readExtended : ThBuf α → Attributes → List Text → Option (ThBuf α × Attributes × List Text)
  | h, a, [] => if isExtended h then .none else some (h, a, [])
  | h, a, block :: rest =>
    if isExtended h then
      if tBlockSize ≤ h.size then
        (codec.readInternal block).bind fun next => readExtended next a rest
      else
        match rest with
        | [] => .none
        | header :: rest =>
          (codec.readInternal header).bind fun next =>
            readExtended next (readBlock version allocated block a) rest
    else some (h, a, block :: rest)

/-- `th_read` of a file without GNU long names. -/
def thRead : List Text → Option (ThBuf α × Attributes × List Text)
  | [] => .none
  | block :: rest =>
    (codec.readInternal block).bind fun h => readExtended version allocated codec h .cleared rest

end read

end BootableRecovery.Libtar
