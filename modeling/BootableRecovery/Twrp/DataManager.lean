import BootableRecovery.Twrp.InfoManager
import BootableRecovery.Twrp.Partition

namespace BootableRecovery.Twrp
open Lib
open Adbbu (Bytes chars)

/-! `DataManager`: the constant, the persistent and the other settings, in the order in which they
are searched. What GUI objects do when they are told of a change is left out. -/

/-- A name that stands for a system property. -/
def isProperty (name : Bytes) : Bool := name.length > 9 && name.take 9 = chars "property."

/-- `GetValue` strips one percent sign at each end. -/
def stripPercent (name : Bytes) : Bytes :=
  if name.length > 2 && name.head? = some 37 && name.getLast? = some 37 then name.tail.dropLast
  else name

inductive StoreKind
  | const
  | persist
  | data
  deriving DecidableEq, Repr

/-- One `SetValue` of `SetDefaultValues`. -/
structure Default where
  store : StoreKind
  name : Bytes
  value : Bytes
  deriving DecidableEq, Repr

/-- What `SetBackupFolder` and `LoadValues` use of a storage partition. -/
structure StoragePartition where
  storagePath : Bytes
  storageName : Bytes
  symlinkMountPoint : Bytes
  free : ℕ
  hasDataMedia : Bool
  mounts : Bool
  deriving DecidableEq, Repr

/-- What one call finds: the defaults of the build, the files, partitions and properties, and the
clock and the sensors behind the magic values, which read a setting of their own. -/
structure Device where
  withoutPersist : Bool
  deviceId : Bytes
  defaults : List Default
  files : FileSystem Bytes
  stale : Bytes
  findPartition : Bytes → Option StoragePartition
  defaultStorage : Option StoragePartition
  propertyGet : Bytes → Bytes
  propertySet : Bytes → Bytes → ℤ
  time : Option Bytes → Bytes
  cpuTemp : Option Bytes → Option Bytes
  battery : Bytes
  batteryCharge : Bytes
  charging : Option Bool
  defaults_plain : ∀ d ∈ defaults, d.store = .const → isProperty d.name = false

structure Stores where
  mInitialized : Bool
  mBackingFile : Text
  loaded : Bool
  mPersist : InfoManager
  mData : InfoManager
  mConst : InfoManager

def persistSettingsFile : Text := "/persist/.foxs".toList

/-- `FILE_VERSION` -/
def settingsVersion : Int32 := 0x00010010

def Stores.initial : Stores :=
  ⟨false, [], false, .fresh [] 0 false, .fresh [] 0 false, .fresh [] 0 false⟩

/-- The three stores in the order of `GetValue`. -/
def storedValue (s : Stores) (name : Bytes) : Option Bytes :=
  ((s.mConst.getValue name).or (s.mPersist.getValue name)).or (s.mData.getValue name)

/-- `GetStrValue` of a name that is neither magic nor a property. -/
def storedString (s : Stores) (name : Bytes) : Bytes := (storedValue s name).getD []

def applyDefault (s : Stores) (d : Default) : Stores :=
  match d.store with
  | .const => { s with mConst := (s.mConst.setValue d.name d.value).1 }
  | .persist => { s with mPersist := (s.mPersist.setValue d.name d.value).1 }
  | .data => { s with mData := (s.mData.setValue d.name d.value).1 }

def lockConst (s : Stores) : Stores := { s with mConst := { s.mConst with isConst := true } }

section Calls
variable (dev : Device) (s : Stores)

/-- The constant store is locked before it is filled: what it has once, it keeps. -/
def setDefaultValues : Stores :=
  let s := lockConst s
  let s := applyDefault s ⟨.const, chars "device_id", dev.deviceId⟩
  dev.defaults.foldl applyDefault { s with mInitialized := true }

def initialized : Stores := if s.mInitialized then s else setDefaultValues dev s

/-- `SetValue` without the backup folder, which depends on one name only. -/
def storeValue (name value : Bytes) (persist : Bool) : Stores × ℤ :=
  if isProperty name then (s, dev.propertySet (name.drop 9) value)
  else if !nameAllowed name then (s, -1)
  else if (s.mConst.getValue name).isSome then (s, -1)
  else if persist then ({ s with mPersist := (s.mPersist.setValue name value).1 }, 0)
  else if (s.mPersist.getValue name).isSome then
    ({ s with mPersist := (s.mPersist.setValue name value).1 }, 0)
  else ({ s with mData := (s.mData.setValue name value).1 }, 0)

def storagePathName : Bytes := chars "tw_storage_path"
def backupsFolderName : Bytes := chars "tw_backups_folder"
def displayName : Bytes := chars "tw_storage_display_name"
def freeSizeName : Bytes := chars "tw_storage_free_size"
def zipLocationName : Bytes := chars "tw_zip_location"

/-- The settings that follow the storage path. -/
def derivedNames : List Bytes := [backupsFolderName, displayName, freeSizeName, zipLocationName]

def asText (b : Bytes) : Text := b.map fun c => Char.ofNat c.toNat

/-- `SetBackupFolder`. None of the names that it sets is the storage path, so it is not called
again. -/
def setBackupFolder : Stores :=
  let str := storedString s storagePathName
  let partition := dev.findPartition str
  let folder := str ++ chars "/Fox/BACKUPS/" ++ storedString s (chars "device_id")
  let s := (storeValue dev s backupsFolderName folder false).1
  match partition with
  | none => s
  | some p =>
    let s := (storeValue dev s displayName p.storageName false).1
    let freeSpace := (decimal (p.free / 1024 / 1024)).map fun c => UInt8.ofNat c.toNat
    let s := (storeValue dev s freeSizeName freeSpace false).1
    let zipPath := storedString s zipLocationName
    let storagePath :=
      if p.hasDataMedia && p.symlinkMountPoint ≠ [] then p.symlinkMountPoint else p.storagePath
    if zipPath.length < storagePath.length ∨ getRootPath (asText zipPath) ≠ asText storagePath then
      (storeValue dev s zipLocationName storagePath false).1
    else s

def setValue (name value : Bytes) (persist : Bool) : Stores × ℤ :=
  let r := storeValue dev (initialized dev s) name value persist
  if r.2 = 0 ∧ name = storagePathName then (setBackupFolder dev r.1, 0) else r

/-- Reading the state of the battery sets whether it is charging. -/
def setCharging : Stores :=
  match dev.charging with
  | none => s
  | some true => (setValue dev s (chars "charging_now") (chars "1") false).1
  | some false => (setValue dev s (chars "charging_now") (chars "0") false).1

/-- The names of `GetMagicValue`. -/
def magicNames : List Bytes :=
  [chars "tw_time", chars "tw_cpu_temp", chars "tw_battery", chars "tw_battery_charge"]

def getMagicValue (name : Bytes) : Stores × Option Bytes :=
  if name = chars "tw_time" then
    (s, some (dev.time (storedValue s (chars "tw_military_time"))))
  else if name = chars "tw_cpu_temp" then
    (s, dev.cpuTemp (storedValue s (chars "tw_no_cpu_temp")))
  else if name = chars "tw_battery" ∨ name = chars "tw_battery_charge" then
    (setCharging dev s,
      some (if name = chars "tw_battery_charge" then dev.batteryCharge else dev.battery))
  else (s, none)

def getValue (varName : Bytes) : Stores × Option Bytes :=
  let s := initialized dev s
  let name := stripPercent varName
  let magic := getMagicValue dev s name
  if magic.2.isSome then magic
  else if isProperty name then (magic.1, some (dev.propertyGet (name.drop 9)))
  else (magic.1, storedValue magic.1 name)

/-- The settings file is read over the persistent store. -/
def readSettings (file : Text) : Stores :=
  let mPersist := { s.mPersist with file := file, fileVersion := settingsVersion }
  { s with mPersist := (mPersist.loadValues dev.stale dev.files).1 }

def loadSettings (filename : Text) : Stores :=
  let s := { initialized dev s with mBackingFile := filename }
  let s := readSettings dev s filename
  let current := storedString s storagePathName
  match (dev.findPartition current).or dev.defaultStorage with
  | none => setBackupFolder dev s
  | some p =>
    if current ≠ p.storagePath ∧ p.mounts = true then
      (setValue dev s storagePathName p.storagePath false).1
    else setBackupFolder dev s

def loadPersistValues : Stores × ℤ :=
  if dev.withoutPersist then (s, -1)
  else if s.loaded ∨ s.mBackingFile ≠ [] ∨ !pathExists dev.files persistSettingsFile then (s, -1)
  else ({ readSettings dev (initialized dev s) persistSettingsFile with loaded := true }, 0)

end Calls

inductive DataCall
  | setValue (name value : Bytes) (persist : Bool)
  | getValue (name : Bytes)
  | loadValues (filename : Text)
  | loadPersistValues
  | setDefaultValues
  deriving DecidableEq

def dataStep (s : Stores) (call : Device × DataCall) : Stores :=
  match call.2 with
  | .setValue name value persist => (setValue call.1 s name value persist).1
  | .getValue name => (getValue call.1 s name).1
  | .loadValues filename => loadSettings call.1 s filename
  | .loadPersistValues => (loadPersistValues call.1 s).1
  | .setDefaultValues => setDefaultValues call.1 s

def dataRun (s : Stores) (calls : List (Device × DataCall)) : Stores := calls.foldl dataStep s

end BootableRecovery.Twrp
