import BootableRecovery.Twrp.ArchiveNames
import BootableRecovery.Lib.Cursor

namespace BootableRecovery.Twrp.HotPlug
open Lib

/-! Devices that are plugged in and out: the wildcard entries of the fstab, the partitions that
are made for what they match, and the events of the kernel. -/

structure Partition where
  mountPoint : Text
  sysfsEntry : Text
  primaryBlockDevice : Text
  alternateBlockDevice : Text
  actualBlockDevice : Text
  decryptedBlockDevice : Text
  wildcardBlockDevice : Bool
  isAdoptedStorage : Bool
  isDecrypted : Bool
  slotSelect : Bool
  isPresent : Bool
  isSubPartition : Bool
  hasSubPartition : Bool
  subPartitionOf : Text
  isStorage : Bool
  canBeMounted : Bool
  removable : Bool
  canBeWiped : Bool
  wipeAvailableInGUI : Bool
  storageName : Text
  displayName : Text
  deriving DecidableEq

/-- `/dev/` -/
def devDir : Text := ['/', 'd', 'e', 'v', '/']

/-- `/devices/` -/
def devicesDir : Text := ['/', 'd', 'e', 'v', 'i', 'c', 'e', 's', '/']

/-- `struct dirent`: a name, and whether it is a block device. -/
structure Entry where
  name : Text
  blk : Bool

/-- The files at the time of an event. A directory has no name twice, and the kernel gives plain
names to block devices; there are none in `/devices/`, which is the sysfs. -/
structure Files where
  opendir : Text → Option (List Entry)
  pathExists : Text → Bool
  activeSlotSuffix : Text
  nodup : ∀ path entries, opendir path = some entries → (entries.map (·.name)).Nodup
  plain : ∀ path entries entry, opendir path = some entries → entry ∈ entries → entry.blk →
    ∀ c ∈ entry.name, 32 < c.toNat ∧ c.toNat ≠ 34 ∧ c ≠ '*' ∧ c ≠ '/'
  sysfs : ∀ path entries entry, devicesDir <+: path → opendir path = some entries →
    entry ∈ entries → entry.blk = false

/-- `Get_Path`, with the slash at the end. -/
def getPath (path : Text) : Text :=
  if '/' ∈ path then (path.reverse.dropWhile fun c => c != '/').reverse else path

/-- What is before the asterisk of a pattern. -/
def beforeWildcard (pattern : Text) : Text := pattern.takeWhile fun c => c != '*'

/-- `Find_Partition_By_Block_Device` -/
def findPartitionByBlockDevice (partitions : List Partition) (blockDevice : Text) :
    Option Partition :=
  partitions.find? fun p => p.primaryBlockDevice = blockDevice ||
    (p.actualBlockDevice ≠ [] && p.actualBlockDevice = blockDevice)

/-- The partitions, with the one that a method is called for. -/
structure Focus where
  before : List Partition
  this : Partition
  after : List Partition

def Focus.partitions (f : Focus) : List Partition := f.before ++ f.this :: f.after

variable (files : Files)

/-- `Find_Actual_Block_Device` of a partition that is no wildcard entry. -/
def locate (p : Partition) : Partition :=
  let slotDevice := p.primaryBlockDevice ++ files.activeSlotSuffix
  let alternate (p : Partition) : Partition :=
    if p.alternateBlockDevice ≠ [] ∧ files.pathExists p.alternateBlockDevice then
      { p with actualBlockDevice := p.alternateBlockDevice, isPresent := true }
    else { p with isPresent := false }
  if p.isDecrypted ∧ p.decryptedBlockDevice ≠ [] then
    let p := { p with actualBlockDevice := p.decryptedBlockDevice }
    if files.pathExists p.decryptedBlockDevice then { p with isPresent := true }
    else alternate p
  else if p.slotSelect ∧ files.pathExists slotDevice then
    { p with actualBlockDevice := slotDevice, isPresent := true }
  else if files.pathExists p.primaryBlockDevice then
    { p with actualBlockDevice := p.primaryBlockDevice, isPresent := true }
  else alternate p

/-- The mount point that `Process_Fstab_Line` reads of the line that is made for a device. The
line of another path has the older format, where the mount point comes first. -/
def newMountPoint (entry : Partition) (item : Text) (index : ℕ) : Text :=
  if devDir <+: item ∨ devicesDir <+: item ∨ item.head? ≠ some '/' then
    entry.mountPoint ++ '-' :: decimal index
  else item

/-- The partition that is made for a device. -/
def newPartition (entry : Partition) (item : Text) (index : ℕ) : Partition :=
  let display := entry.storageName ++ ' ' :: decimal index
  locate files
    { mountPoint := newMountPoint entry item index
      sysfsEntry := []
      primaryBlockDevice := item
      alternateBlockDevice := []
      actualBlockDevice := []
      decryptedBlockDevice := []
      wildcardBlockDevice := false
      isAdoptedStorage := false
      isDecrypted := false
      slotSelect := false
      isPresent := false
      isSubPartition := true
      hasSubPartition := false
      subPartitionOf := entry.mountPoint
      isStorage := entry.isStorage
      canBeMounted := true
      removable := true
      canBeWiped := entry.canBeWiped
      wipeAvailableInGUI := entry.wipeAvailableInGUI
      storageName := display
      displayName := display }

/-- An entry of the directory is a block device whose name goes on after `dev`. -/
def Wanted (dev : Text) (entry : Entry) : Prop :=
  entry.blk ∧ dev.length < entry.name.length ∧ dev <+: entry.name

instance (dev : Text) (entry : Entry) : Decidable (Wanted dev entry) :=
  inferInstanceAs (Decidable (_ ∧ _ ∧ _))

/-- The loop of `Find_Wildcard_Block_Devices` over a directory. -/
def scanEntries (path dev : Text) : List Entry → ℕ → Focus → ℕ × Focus
  | [], mountPointIndex, f => (mountPointIndex, f)
  | entry :: entries, mountPointIndex, f =>
    -- the path ends with a slash already
    let item := path ++ '/' :: entry.name
    if ¬Wanted dev entry then scanEntries path dev entries mountPointIndex f
    else if (findPartitionByBlockDevice f.partitions item).isSome then
      scanEntries path dev entries mountPointIndex f
    else
      let part := newPartition files f.this item (mountPointIndex + 1)
      scanEntries path dev entries (mountPointIndex + 1)
        { f with this := { f.this with hasSubPartition := true }, after := f.after ++ [part] }

/-- `Find_Wildcard_Block_Devices` -/
def findWildcardBlockDevices (device : Text) (f : Focus) : Bool × Focus :=
  match files.opendir (getPath device) with
  | none => (false, f)
  | some entries =>
    let r := scanEntries files (getPath device) (beforeWildcard (getFilename device)) entries 0 f
    (0 < r.1, r.2)

/-- A wildcard entry while its devices are looked for. -/
def searching (p : Partition) : Partition :=
  { p with isPresent := false, actualBlockDevice := [], canBeMounted := false }

/-- `Find_Actual_Block_Device` -/
def findActualBlockDevice (f : Focus) : Focus :=
  let p := f.this
  if p.sysfsEntry ≠ [] ∧ p.primaryBlockDevice = [] ∧ p.decryptedBlockDevice = [] then
    { f with this := { p with isPresent := false } }
  else if p.wildcardBlockDevice ∧ ¬p.isAdoptedStorage then
    let r := findWildcardBlockDevices files p.primaryBlockDevice { f with this := searching p }
    if r.1 then r.2
    else
      let dev := beforeWildcard p.primaryBlockDevice
      if files.pathExists dev then
        { r.2 with this :=
          { r.2.this with isPresent := true, canBeMounted := true, actualBlockDevice := dev } }
      else r.2
  else { f with this := locate files p }

structure UeventBlockData where
  action : String
  sysfsPath : Text
  blockDevice : Text

/-- The entry is for the device of an event. -/
def Matches (p : Partition) (data : UeventBlockData) : Prop :=
  p.sysfsEntry ≠ [] ∧ beforeWildcard p.sysfsEntry <+: data.sysfsPath

instance (p : Partition) (data : UeventBlockData) : Decidable (Matches p data) :=
  inferInstanceAs (Decidable (_ ∧ _))

/-- `Remove_Uevent_Devices` -/
def removeUeventDevices (mountPoint : Text) (partitions : List Partition) : List Partition :=
  partitions.filter fun p => ¬(p.isSubPartition ∧ p.subPartitionOf = mountPoint)

/-- What an `add` event writes into its entry. -/
def plug (data : UeventBlockData) (p : Partition) : Partition :=
  let device := "/dev/block/".toList ++ data.blockDevice
  { p with primaryBlockDevice := device, alternateBlockDevice := device, isPresent := true }

/-- What a `remove` event writes into its entry. -/
def unplug (p : Partition) : Partition :=
  { p with isPresent := false, primaryBlockDevice := [], actualBlockDevice := [] }

/-- The loop of `Handle_Uevent`. There is no adopted storage: `Decrypt_Adopted` returns false. -/
def handleUevent (data : UeventBlockData) : List Partition → List Partition → List Partition
  | before, [] => before
  | before, p :: after =>
    if Matches p data ∧ data.action = "add" then
      (findActualBlockDevice files ⟨before, plug data p, after⟩).partitions
    else if Matches p data ∧ data.action = "remove" then
      removeUeventDevices p.mountPoint (before ++ unplug p :: after)
    else handleUevent data (before ++ [p]) after

/-- What happens to the partitions: an event of the kernel, or `Find_Actual_Block_Device` is
called for one of them. -/
inductive Event
  | uevent (data : UeventBlockData) (files : Files)
  | find (index : ℕ) (files : Files)

def step (partitions : List Partition) : Event → Option (List Partition)
  | .uevent data files => some (handleUevent files data [] partitions)
  | .find index files =>
    match partitions.drop index with
    | [] => none
    | p :: after =>
      some (findActualBlockDevice files ⟨partitions.take index, p, after⟩).partitions

/-! ### What a search adds -/

/-- A partition is found by this block device. -/
def Has (p : Partition) (blockDevice : Text) : Prop :=
  p.primaryBlockDevice = blockDevice ∨ p.actualBlockDevice ≠ [] ∧ p.actualBlockDevice = blockDevice

instance (p : Partition) (blockDevice : Text) : Decidable (Has p blockDevice) :=
  inferInstanceAs (Decidable (_ ∨ _))

theorem findPartitionByBlockDevice_isSome {partitions : List Partition} {blockDevice : Text} :
    (findPartitionByBlockDevice partitions blockDevice).isSome ↔
      ∃ p ∈ partitions, Has p blockDevice := by
  simp [findPartitionByBlockDevice, Has]

/-- The path of a device, as a scan writes it. -/
def itemOf (path name : Text) : Text := path ++ '/' :: name

/-- The names in a directory that a scan makes partitions for. -/
def newNames (path dev : Text) (partitions : List Partition) (entries : List Entry) : List Text :=
  (entries.filter fun entry => Wanted dev entry ∧
    ∀ p ∈ partitions, ¬Has p (itemOf path entry.name)).map (·.name)

/-- The partitions for the names, numbered from `n + 1`. -/
def newPartitions (entry : Partition) (path : Text) (n : ℕ) (names : List Text) :
    List Partition :=
  names.mapIdx fun i name => newPartition files entry (itemOf path name) (n + i + 1)

section new
variable (entry : Partition) (item : Text) (index : ℕ)

/-- `Find_Actual_Block_Device` of a new partition finds its device, or nothing. -/
theorem newPartition_spec :
    (newPartition files entry item index).mountPoint = newMountPoint entry item index ∧
    (newPartition files entry item index).sysfsEntry = [] ∧
    (newPartition files entry item index).primaryBlockDevice = item ∧
    (newPartition files entry item index).actualBlockDevice =
      (if files.pathExists item then item else []) ∧
    (newPartition files entry item index).isSubPartition = true ∧
    (newPartition files entry item index).subPartitionOf = entry.mountPoint := by
  by_cases h : files.pathExists item <;> simp [newPartition, locate, h]

@[simp] theorem newPartition_mountPoint : (newPartition files entry item index).mountPoint =
    newMountPoint entry item index := (newPartition_spec files entry item index).1

@[simp] theorem newPartition_primary :
    (newPartition files entry item index).primaryBlockDevice = item :=
  (newPartition_spec files entry item index).2.2.1

@[simp] theorem newPartition_actual : (newPartition files entry item index).actualBlockDevice =
    if files.pathExists item then item else [] :=
  (newPartition_spec files entry item index).2.2.2.1

theorem has_newPartition {blockDevice : Text} (h : Has (newPartition files entry item index)
    blockDevice) : blockDevice = item := by
  rcases h with h | ⟨hne, h⟩
  · simpa using h.symm
  · rw [newPartition_actual] at h hne
    split_ifs at h hne
    · exact h.symm
    · exact absurd rfl hne

end new

theorem itemOf_injective (path : Text) : Function.Injective (itemOf path) := by
  intro name name' h
  simpa [itemOf] using h

variable {files}

theorem newNames_append {path dev : Text} {partitions : List Partition} {entries : List Entry}
    {entry : Partition} {name : Text} {index : ℕ} (h : name ∉ entries.map (·.name)) :
    newNames path dev (partitions ++ [newPartition files entry (itemOf path name) index]) entries =
      newNames path dev partitions entries := by
  apply congrArg (List.map Entry.name)
  apply List.filter_congr
  intro e he
  have hnew : ¬Has (newPartition files entry (itemOf path name) index) (itemOf path e.name) := by
    intro hhas
    have hname := itemOf_injective path (has_newPartition files entry _ index hhas)
    exact h (hname ▸ List.mem_map_of_mem he)
  simp [or_imp, forall_and, hnew]

theorem newNames_congr {path dev : Text} {partitions partitions' : List Partition}
    {entries : List Entry} (h : ∀ blockDevice, (∀ p ∈ partitions, ¬Has p blockDevice) ↔
      ∀ p ∈ partitions', ¬Has p blockDevice) :
    newNames path dev partitions entries = newNames path dev partitions' entries := by
  simp only [newNames, h]

theorem newPartitions_cons (entry : Partition) (path : Text) (n : ℕ) (name : Text)
    (names : List Text) : newPartitions files entry path n (name :: names) =
      newPartition files entry (itemOf path name) (n + 1) ::
        newPartitions files entry path (n + 1) names := by
  simp [newPartitions, List.mapIdx_cons, Nat.add_assoc, Nat.add_comm 1]

/-- A partition with the mark that it has sub-partitions. -/
def Partition.marked (p : Partition) (names : List Text) : Partition :=
  if names = [] then p else { p with hasSubPartition := true }

/-- A scan adds the partitions for the new names to the end of the table. -/
theorem scanEntries_eq {path dev : Text} {entries : List Entry}
    (hnodup : (entries.map (·.name)).Nodup) (n : ℕ) (f : Focus) :
    scanEntries files path dev entries n f =
      (n + (newNames path dev f.partitions entries).length,
        ⟨f.before, f.this.marked (newNames path dev f.partitions entries), f.after ++
          newPartitions files f.this path n (newNames path dev f.partitions entries)⟩) := by
  induction entries generalizing n f with
  | nil => simp [scanEntries, newNames, Partition.marked, newPartitions]
  | cons entry entries ih =>
    rw [List.map_cons, List.nodup_cons] at hnodup
    have ih := ih hnodup.2
    simp only [scanEntries]
    by_cases hwanted : Wanted dev entry
    · by_cases hknown : ∃ p ∈ f.partitions, Has p (itemOf path entry.name)
      · have hnames : newNames path dev f.partitions (entry :: entries) =
            newNames path dev f.partitions entries := by
          simp only [newNames]
          rw [List.filter_cons_of_neg (by simpa using fun _ => hknown)]
        have hsome := findPartitionByBlockDevice_isSome.mpr hknown
        rw [itemOf] at hsome
        simp only [hwanted, hsome, hnames, not_true_eq_false, if_false, if_true, ih]
      · have hnames : newNames path dev f.partitions (entry :: entries) =
            entry.name :: newNames path dev f.partitions entries := by
          simp only [newNames]
          rw [List.filter_cons_of_pos (by simpa [hwanted] using hknown), List.map_cons]
        have hnone := mt findPartitionByBlockDevice_isSome.mp hknown
        rw [itemOf] at hnone
        have hrest : newNames path dev (Focus.partitions ⟨f.before,
            { f.this with hasSubPartition := true },
            f.after ++ [newPartition files f.this (itemOf path entry.name) (n + 1)]⟩) entries =
            newNames path dev f.partitions entries := by
          rw [← @newNames_append files path dev f.partitions entries f.this entry.name (n + 1)
            hnodup.1]
          apply newNames_congr
          intro blockDevice
          simp only [Focus.partitions, List.append_assoc, List.cons_append, List.forall_mem_append,
            List.forall_mem_cons]
          exact Iff.rfl
        rw [itemOf] at hrest
        simp only [hwanted, hnone, hnames, not_true_eq_false, if_false, ih, hrest,
          newPartitions_cons, List.length_cons, Bool.false_eq_true]
        simp [Partition.marked, itemOf, Nat.add_assoc, Nat.add_comm 1]
        rfl
    · have hnames : newNames path dev f.partitions (entry :: entries) =
          newNames path dev f.partitions entries := by
        simp only [newNames]
        rw [List.filter_cons_of_neg (by simp [hwanted])]
      simp only [hwanted, hnames, not_false_eq_true, if_true, ih]

variable (files) in
/-- The names of the devices of a pattern that have no partition yet. -/
def wildcardNames (device : Text) (partitions : List Partition) : List Text :=
  match files.opendir (getPath device) with
  | none => []
  | some entries =>
    newNames (getPath device) (beforeWildcard (getFilename device)) partitions entries

theorem findWildcardBlockDevices_eq (device : Text) (f : Focus) :
    findWildcardBlockDevices files device f =
      (decide (wildcardNames files device f.partitions ≠ []),
        ⟨f.before, f.this.marked (wildcardNames files device f.partitions), f.after ++
          newPartitions files f.this (getPath device) 0
            (wildcardNames files device f.partitions)⟩) := by
  rw [findWildcardBlockDevices, wildcardNames]
  rcases hopen : files.opendir (getPath device) with - | entries
  · simp [Partition.marked, newPartitions]
  · simp [scanEntries_eq (files.nodup _ _ hopen), List.length_pos_iff]

/-! ### What `Find_Actual_Block_Device` does to the table -/

/-- The directory is searched for the devices of a wildcard entry. -/
def Scans (p : Partition) : Prop :=
  ¬(p.sysfsEntry ≠ [] ∧ p.primaryBlockDevice = [] ∧ p.decryptedBlockDevice = []) ∧
    p.wildcardBlockDevice ∧ ¬p.isAdoptedStorage

instance (p : Partition) : Decidable (Scans p) := inferInstanceAs (Decidable (_ ∧ _ ∧ _))

variable (files) in
/-- The names of the devices that get partitions. -/
def foundNames (f : Focus) : List Text :=
  if Scans f.this then
    wildcardNames files f.this.primaryBlockDevice (f.before ++ searching f.this :: f.after)
  else []

variable (files) in
/-- The partitions that are added to the table. -/
def found (f : Focus) : List Partition :=
  newPartitions files f.this (getPath f.this.primaryBlockDevice) 0 (foundNames files f)

variable (files) in
/-- What becomes of the partition itself. -/
def settled (f : Focus) : Partition :=
  let dev := beforeWildcard f.this.primaryBlockDevice
  if Scans f.this then
    if foundNames files f ≠ [] then { searching f.this with hasSubPartition := true }
    else if files.pathExists dev then
      { searching f.this with
        isPresent := true, canBeMounted := true, actualBlockDevice := dev }
    else searching f.this
  else if f.this.sysfsEntry ≠ [] ∧ f.this.primaryBlockDevice = [] ∧
      f.this.decryptedBlockDevice = [] then { f.this with isPresent := false }
  else locate files f.this

theorem findActualBlockDevice_eq (f : Focus) : findActualBlockDevice files f =
    ⟨f.before, settled files f, f.after ++ found files f⟩ := by
  by_cases hsysfs : f.this.sysfsEntry ≠ [] ∧ f.this.primaryBlockDevice = [] ∧
      f.this.decryptedBlockDevice = []
  · have hscans : ¬Scans f.this := fun h => h.1 hsysfs
    simp [findActualBlockDevice, settled, found, foundNames, newPartitions, hsysfs, hscans]
  · by_cases hwildcard : f.this.wildcardBlockDevice ∧ ¬f.this.isAdoptedStorage
    · have hscans : Scans f.this := ⟨hsysfs, hwildcard⟩
      simp only [findActualBlockDevice, if_neg hsysfs, if_pos hwildcard, settled, found, foundNames,
        if_pos hscans, findWildcardBlockDevices_eq, Focus.partitions]
      by_cases hnames : wildcardNames files f.this.primaryBlockDevice
          (f.before ++ searching f.this :: f.after) = []
      · simp only [hnames, Partition.marked, newPartitions]
        simp
        split_ifs <;> rfl
      · simp [hnames, Partition.marked]
        rfl
    · have hscans : ¬Scans f.this := fun h => hwildcard h.2
      simp only [findActualBlockDevice, if_neg hsysfs, if_neg hwildcard, settled, found, foundNames,
        if_neg hscans, newPartitions, List.mapIdx_nil, List.append_nil]

end BootableRecovery.Twrp.HotPlug
