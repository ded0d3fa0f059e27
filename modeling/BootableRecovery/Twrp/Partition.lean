import BootableRecovery.Lib.Text

namespace BootableRecovery.Twrp
open Lib

/-! The partition table: what `Process_Fstab_Line` names a partition, and how it is looked up. -/

structure TWPartition where
  mountPoint : Text
  symlinkMountPoint : Text
  backupPath : Text
  backupName : Text
  backupFileName : Text
  currentFileSystem : Text
  canBeBackedUp : Bool
  canBeAdvBackedUp : Bool
  isPresent : Bool
  mountReadOnly : Bool
  isSubPartition : Bool
  hasSubPartition : Bool
  subPartitionOf : Text
  deriving DecidableEq, Repr

abbrev Partitions := List TWPartition

def androidRootPath : Text := "/system_root".toList

/-- `Get_Root_Path`: the first component, with a leading slash. -/
def getRootPath (path : Text) : Text :=
  let localPath := if path.head? = some '/' then path else '/' :: path
  localPath.take 2 ++ (localPath.drop 2).takeWhile fun c => c != '/'

def TWPartition.mountedAt (p : TWPartition) (path : Text) : Bool :=
  p.mountPoint = path || (p.symlinkMountPoint ≠ [] && p.symlinkMountPoint = path)

variable (withoutPersist : Bool)

/-- `Find_Partition_By_Path`; `withoutPersist` is the build flag of devices without `/persist`. -/
def findPartitionByPath (partitions : Partitions) (path : Text) : Option ℕ :=
  let localPath := getRootPath path
  if withoutPersist && localPath = "/persist".toList then none
  else
    let localPath := if localPath = "/system".toList then androidRootPath else localPath
    partitions.findIdx? fun p => p.mountedAt localPath

/-- The entries of a list in which every path ends in a semicolon. -/
def listPaths (list : Text) : List Text := (list.splitOn ';').dropLast

/-- `Backup_Name.Current_File_System.win` -/
def TWPartition.archiveFileName (p : TWPartition) : Text :=
  p.backupName ++ '.' :: (p.currentFileSystem ++ ".win".toList)

/-- The partitions `it` such that `it->SubPartition_Of` is the mount point of a parent. -/
def subPartitions (partitions : Partitions) (parent : TWPartition) : List ℕ :=
  (List.range partitions.length).filter fun j =>
    match partitions[j]? with
    | none => false
    | some p => p.isSubPartition && p.subPartitionOf = parent.mountPoint

/-! ### The names of a line of the fstab -/

/-- The flags of a line that the model uses. -/
structure TwFlags where
  backup : Option Bool
  advBackup : Option Bool
  subPartitionOf : Option Text

structure FstabEntry where
  mountPoint : Text
  fileSystem : Text
  isSuper : Bool
  flags : TwFlags

/-- What the device shows of the partition when the table has been set up. -/
structure DeviceState where
  isPresent : Bool
  mountReadOnly : Bool
  currentFileSystem : Text
  symlinkMountPoint : Text

def isFileSystem (fileSystem : Text) : Bool :=
  fileSystem ∈ ["ext2".toList, "ext3".toList, "ext4".toList, "vfat".toList, "ntfs".toList,
    "yaffs2".toList, "exfat".toList, "f2fs".toList, "erofs".toList, "squashfs".toList,
    "auto".toList]

def isImage (fileSystem : Text) : Bool :=
  fileSystem ∈ ["emmc".toList, "mtd".toList, "bml".toList]

def TWPartition.applyFlags (p : TWPartition) (flags : TwFlags) : TWPartition :=
  { p with
    canBeBackedUp := flags.backup.getD p.canBeBackedUp
    canBeAdvBackedUp := flags.advBackup.getD p.canBeAdvBackedUp
    isSubPartition := p.isSubPartition || flags.subPartitionOf.isSome
    subPartitionOf := flags.subPartitionOf.getD p.subPartitionOf }

/-- The part of `Process_Fstab_Line` that names a file system partition. -/
def nameFileSystem (p : TWPartition) (isSuper : Bool) : TWPartition :=
  let p := { p with backupName := p.mountPoint.tail }
  if p.mountPoint = "/".toList ∨ p.mountPoint = "/system".toList ∨
      p.mountPoint = "/system_root".toList then
    { p with
      mountPoint := androidRootPath
      backupPath := androidRootPath
      backupName := "system".toList
      canBeBackedUp := false }
  else if p.mountPoint = "/system_ext".toList then
    { p with backupName := "System_EXT".toList, canBeBackedUp := !isSuper }
  else if p.mountPoint = "/product".toList then
    { p with backupName := "Product".toList, canBeBackedUp := !isSuper }
  else if p.mountPoint = "/odm".toList then
    { p with backupName := "ODM".toList, canBeBackedUp := !isSuper }
  else if p.mountPoint = "/data".toList then { p with canBeBackedUp := true }
  else if p.mountPoint = "/cache".toList then { p with canBeBackedUp := true }
  else if p.mountPoint = "/datadata".toList then
    { p with isSubPartition := true, subPartitionOf := "/data".toList, canBeBackedUp := true }
  else if p.mountPoint = "/sd-ext".toList then { p with canBeBackedUp := true }
  else if p.mountPoint = "/boot".toList then { p with canBeBackedUp := true }
  else p

/-- The part that names an image partition. -/
def nameImage (p : TWPartition) : TWPartition :=
  let p := { p with backupName := p.mountPoint.tail }
  if p.mountPoint = "/boot".toList ∨ p.mountPoint = "/system_image".toList ∨
      p.mountPoint = "/vendor_image".toList then
    { p with canBeBackedUp := true }
  else p

def processFstabLine (entry : FstabEntry) (autoIndex : ℕ) (device : DeviceState) :
    Option TWPartition :=
  let p : TWPartition :=
    { mountPoint := entry.mountPoint
      symlinkMountPoint := device.symlinkMountPoint
      backupPath := entry.mountPoint
      backupName := []
      backupFileName := []
      currentFileSystem := device.currentFileSystem
      canBeBackedUp := false
      canBeAdvBackedUp := false
      isPresent := device.isPresent
      mountReadOnly := device.mountReadOnly
      isSubPartition := false
      hasSubPartition := false
      subPartitionOf := [] }
  if entry.mountPoint = "auto".toList then
    let mountPoint := "/auto".toList ++ decimal autoIndex
    some ({ p with
      mountPoint := mountPoint
      backupPath := mountPoint
      backupName := mountPoint.tail }.applyFlags entry.flags)
  else if isFileSystem entry.fileSystem then
    some ((nameFileSystem p entry.isSuper).applyFlags entry.flags)
  else if isImage entry.fileSystem then some ((nameImage p).applyFlags entry.flags)
  else none

/-- `Write_Fstab` marks the partitions that have sub-partitions. -/
def markParents (partitions : Partitions) : Partitions :=
  partitions.zipIdx.map fun (p, i) =>
    { p with
      hasSubPartition := p.hasSubPartition || partitions.any fun sub =>
        sub.isSubPartition &&
          findPartitionByPath withoutPersist partitions sub.subPartitionOf = some i }

end BootableRecovery.Twrp
