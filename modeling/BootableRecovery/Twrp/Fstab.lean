import BootableRecovery.Lib.OrderedMap
import BootableRecovery.Twrp.RunBackup

namespace BootableRecovery.Twrp
open Lib

/-! `Process_Fstab`: the table that the lines of the fstab and of `/etc/twrp.flags` build. -/

def maxFstabLineLength : ℕ := 2048

/-- A line and its newline fit into the buffer of `fgets`. -/
def LineFits (line : Text) : Prop :=
  line.length + 1 < maxFstabLineLength ∧ '\n' ∉ line ∧ '\x00' ∉ line

/-- The lines of a file, and what stands after the last newline. -/
structure FstabText where
  lines : List Text
  rest : Text
  fits : (∀ line ∈ lines, LineFits line) ∧ LineFits rest

/-- What the calls of `fgets` return. -/
def FstabText.reads (file : FstabText) : List Text :=
  file.lines.map (fun line => line ++ ['\n']) ++ if file.rest = [] then [] else [file.rest]

/-- `fgets`, into a buffer that keeps what it held behind the line. -/
def fgetsInto (buffer line : Text) : Text := line ++ '\x00' :: buffer.drop (line.length + 1)

/-- The newline that a last line lacks is written over the end of the text. -/
def appendNewline (buffer line : Text) : Text :=
  if line.getLast? = some '\n' then buffer
  else line ++ '\n' :: buffer.drop (line.length + 1)

def clearedBuffer : Text := List.replicate maxFstabLineLength '\x00'

/-! ### A line -/

/-- A line cut at its blanks, but for those between quotes. -/
def cutItems : Bool → Text → Text → List Text
  | _, item, [] => [item.reverse]
  | skip, item, c :: rest =>
    let skip := if c = '"' then !skip else skip
    if !skip && c.toNat ≤ 32 then item.reverse :: cutItems skip [] rest
    else cutItems skip (c :: item) rest

def lineItems (line : Text) : List Text := (cutItems false [] line).filter fun item => item ≠ []

structure FstabLine where
  version2 : Bool
  mountPoint : Text
  fileSystem : Text
  blockDevice : Text
  fsFlags : Option Text
  deriving DecidableEq, Repr

/-- The items of a line; none where it is too short or a comment. -/
def parseFstabLine (fstabLine : Text) : Option FstabLine :=
  let items := lineItems fstabLine
  if fstabLine.length < 10 then none
  else if fstabLine.head? = some '#' then none
  else if "/dev/".toList.isPrefixOf fstabLine || "/devices/".toList.isPrefixOf fstabLine ||
      fstabLine.head? ≠ some '/' then
    some
      { version2 := true
        mountPoint := items[1]?.getD []
        fileSystem := items[2]?.getD []
        blockDevice := items[0]?.getD []
        fsFlags := items[3]? }
  else
    some
      { version2 := false
        mountPoint := items[0]?.getD []
        fileSystem := items[1]?.getD []
        blockDevice := items[2]?.getD []
        fsFlags := none }

/-! ### The table -/

/-- What the buffer holds at first, what the flags of a line set, and what the device shows of
the partition. -/
structure FstabEnv where
  withoutPersist : Bool
  stack : Text
  twFlags : FstabLine → TwFlags
  device : FstabLine → DeviceState

/-- A partition, the line it was made from, and the key of that line in `twrp.flags`. `additional`
are the lines that left their file system flags in it. -/
structure FstabPartition where
  partition : TWPartition
  line : FstabLine
  flagsKey : Option Text
  additional : List FstabLine

structure FstabTable where
  partitions : List FstabPartition
  autoIndex : ℕ

variable (env : FstabEnv)

/-- No partition has a symlink yet, and the flags that make one logical come last. -/
def processEntry (line : FstabLine) (autoIndex : ℕ) : Option TWPartition :=
  processFstabLine ⟨line.mountPoint, line.fileSystem, false, env.twFlags line⟩ autoIndex
    { env.device line with symlinkMountPoint := [] }

def FstabTable.find (t : FstabTable) (path : Text) : Option ℕ :=
  findPartitionByPath env.withoutPersist (t.partitions.map FstabPartition.partition) path

/-- `Save_FS_Flags` -/
def FstabPartition.save (p : FstabPartition) (line : FstabLine) : FstabPartition :=
  { p with additional := p.additional ++ [line] }

/-- The partition that a line of the second version is an additional entry of. -/
def FstabTable.additionalEntry (t : FstabTable) (line : FstabLine) : Option ℕ :=
  if line.version2 && line.fsFlags.isSome then t.find env line.mountPoint else none

def FstabTable.processLine (t : FstabTable) (flagsKey : Option Text) (line : FstabLine) :
    FstabTable :=
  match t.additionalEntry env line with
  | some i => { t with partitions := t.partitions.modify i fun p => p.save line }
  | none =>
    match processEntry env line t.autoIndex with
    | none => t
    | some p =>
      { partitions := t.partitions ++ [⟨p, line, flagsKey, []⟩]
        autoIndex := if line.mountPoint = "auto".toList then t.autoIndex + 1 else t.autoIndex }

/-! ### The two files -/

/-- The first item of a line of `twrp.flags`: its blanks end it, but not the newline that a last
line lacks. -/
def flagsMountPoint (line fstabLine : Text) : Text :=
  if line.any fun c => c.toNat ≤ 32 then line.takeWhile fun c => 32 < c.toNat else fstabLine

/-- The lines of `twrp.flags`, a later one over an earlier one with its mount point. -/
def readTwrpFlags : Text → List Text → OrderedMap Text Text → OrderedMap Text Text × Text
  | buffer, [], flags => (flags, buffer)
  | buffer, line :: rest, flags =>
    let fstabLine := cString (appendNewline (fgetsInto buffer line) line)
    readTwrpFlags clearedBuffer rest (flags.insert (flagsMountPoint line fstabLine) fstabLine)

/-- Swap and comments are left out; the buffer is not cleared then. -/
def readFstab : Text → List Text → List Text
  | _, [] => []
  | buffer, line :: rest =>
    let buffer := fgetsInto buffer line
    if strstr line "swap".toList then readFstab buffer rest
    else if line.head? = some '#' then readFstab buffer rest
    else cString (appendNewline buffer line) :: readFstab clearedBuffer rest

/-- The entries of the map of `twrp.flags`. -/
def flagsEntries (twrpFlags : FstabText) : List (Text × Text) :=
  (readTwrpFlags env.stack twrpFlags.reads OrderedMap.empty).1.entries

/-- The lines of the fstab that are processed. -/
def fstabLines (fstab twrpFlags : FstabText) : List FstabLine :=
  (readFstab (readTwrpFlags env.stack twrpFlags.reads OrderedMap.empty).2 fstab.reads).filterMap
    parseFstabLine

def FstabTable.addFlagsEntry (t : FstabTable) (e : Text × Text) : FstabTable :=
  match t.find env e.1 with
  | some _ => t
  | none =>
    match parseFstabLine e.2 with
    | none => t
    | some line => t.processLine env (some e.1) line

def processFstab (fstab twrpFlags : FstabText) : FstabTable :=
  (flagsEntries env twrpFlags).foldl (FstabTable.addFlagsEntry env)
    ((fstabLines env fstab twrpFlags).foldl (fun t line => t.processLine env none line) ⟨[], 0⟩)

/-! ### What the merge is to do -/

def FstabLine.isAuto (line : FstabLine) : Bool := line.mountPoint = "auto".toList

/-- The checks that `Process_Fstab_Line` makes. -/
def FstabLine.valid (line : FstabLine) : Bool :=
  line.isAuto || isFileSystem line.fileSystem || isImage line.fileSystem

/-- The names of the system are one mount point. -/
def canonicalMountPoint (mountPoint : Text) : Text :=
  if mountPoint = "/".toList ∨ mountPoint = "/system".toList ∨ mountPoint = "/system_root".toList
  then androidRootPath else mountPoint

/-- Two lines with one mount point. -/
def FstabLine.SameMountPoint (line other : FstabLine) : Prop :=
  line.isAuto = false ∧ other.isAuto = false ∧
    canonicalMountPoint line.mountPoint = canonicalMountPoint other.mountPoint

/-- The lines of a file, each as it stands there. -/
def FstabText.fstabLines (file : FstabText) : List FstabLine :=
  (file.lines ++ [file.rest]).filterMap fun line => parseFstabLine (line ++ ['\n'])

/-- The lines that stand in the two files and pass the checks. -/
def validLines (fstab twrpFlags : FstabText) : List FstabLine :=
  (fstab.fstabLines ++ twrpFlags.fstabLines).filter FstabLine.valid

def DistinctDevices (fstab twrpFlags : FstabText) : Prop :=
  (fstab.fstabLines ++ twrpFlags.fstabLines).Pairwise fun line other =>
    line.blockDevice ≠ other.blockDevice

/-- The merge by mount points: no two partitions are at one, only lines that name it are folded
into its partition, a line of `twrp.flags` makes the partition that the fstab lacks, and no line
is lost. -/
structure MergedByMountPoint (fstab twrpFlags : FstabText) (t : FstabTable) : Prop where
  distinct : t.partitions.Pairwise fun p q => p.line.isAuto = false → q.line.isAuto = false →
    canonicalMountPoint p.partition.mountPoint ≠ canonicalMountPoint q.partition.mountPoint
  folds : ∀ p ∈ t.partitions, ∀ line ∈ p.additional, line.SameMountPoint p.line
  flags : ∀ e ∈ flagsEntries env twrpFlags, ∀ line, parseFstabLine e.2 = some line →
    line.valid → ((∃ p ∈ t.partitions, p.flagsKey = some e.1) ↔
      ¬∃ p ∈ t.partitions, p.flagsKey = none ∧ line.SameMountPoint p.line)
  kept : ∀ line ∈ validLines fstab twrpFlags, line.isAuto = false →
    ∃ p ∈ t.partitions, line.SameMountPoint p.line
  autos : (t.partitions.countP fun p => p.line.isAuto) =
    (validLines fstab twrpFlags).countP FstabLine.isAuto

end BootableRecovery.Twrp
