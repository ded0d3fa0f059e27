import BootableRecovery.Twrp.HotPlug

namespace BootableRecovery.Twrp.HotPlug
open Lib

/-! Which runs of events keep the partitions apart from one another. -/

/-- The file that a path leads to, up to repeated slashes. -/
def devicePath (path : Text) : Bool × List Text := (path.head? = some '/', pathComponents path)

/-- The block devices of a partition. -/
def blockDevices (p : Partition) : List (Bool × List Text) :=
  ([p.primaryBlockDevice, p.actualBlockDevice].filter (· ≠ [])).map devicePath

/-- Two partitions have different mount points, and no block device in common. -/
def Apart (p q : Partition) : Prop :=
  p.mountPoint ≠ q.mountPoint ∧ (blockDevices p).Disjoint (blockDevices q)

def Distinct (partitions : List Partition) : Prop := partitions.Pairwise Apart

/-- The path matches a pattern. -/
def MatchesPattern (pattern path : Text) : Prop :=
  ∃ name, path = itemOf (getPath pattern) name ∧ beforeWildcard (getFilename pattern) <+: name

/-- The partition has been made for a device of an entry. -/
def BelongsTo (entry p : Partition) : Prop :=
  p.isSubPartition ∧ p.subPartitionOf = entry.mountPoint ∧ entry.wildcardBlockDevice ∧
    MatchesPattern entry.primaryBlockDevice p.primaryBlockDevice

/-- A partition that no event is for and that is counted to an entry. -/
def CountsTo (entry p : Partition) : Prop :=
  p.isSubPartition ∧ p.sysfsEntry = [] ∧ p.subPartitionOf = entry.mountPoint

/-- What no event but a removal changes: the mount point, what the partition is counted to and,
of a partition that no event is for, the primary block device. -/
def identity (p : Partition) : Text × Bool × Text × Text :=
  (p.mountPoint, p.isSubPartition, p.subPartitionOf,
    if p.sysfsEntry = [] then p.primaryBlockDevice else [])

/-- After a step the partitions are apart from one another, those that have been added belong to
an entry, and all others stay, but for those of the entries that a removal is for. -/
structure Sound (partitions after : List Partition) (event : Event) : Prop where
  distinct : Distinct after
  added : ∀ p ∈ after.drop partitions.length, ∃ entry ∈ after, BelongsTo entry p
  kept : (∀ data files, event = .uevent data files → data.action ≠ "remove") →
    (after.take partitions.length).map identity = partitions.map identity
  removed : ∀ data files, event = .uevent data files → data.action = "remove" →
    ∀ entry ∈ partitions, Matches entry data → ∀ p ∈ after, ¬CountsTo entry p
  others : ∀ data files, event = .uevent data files → data.action = "remove" →
    ∀ p ∈ partitions, p.sysfsEntry = [] →
      (∀ entry ∈ partitions, Matches entry data → ¬CountsTo entry p) → p ∈ after

/-- Looking for the block device of a partition gives it no device of another one, and makes no
partition for a device of another one, or at a mount point of another one. -/
structure ClearFind (files : Files) (f : Focus) : Prop where
  own : ∀ p ∈ f.before ++ f.after, (blockDevices p).Disjoint (blockDevices (settled files f))
  devices : ∀ p ∈ f.before ++ settled files f :: f.after, ∀ name ∈ foundNames files f,
    devicePath (itemOf (getPath f.this.primaryBlockDevice) name) ∉ blockDevices p
  mountPoints : ∀ p ∈ f.partitions, ∀ i name, (foundNames files f)[i]? = some name →
    p.mountPoint ≠
      newMountPoint f.this (itemOf (getPath f.this.primaryBlockDevice) name) (i + 1)

/-- The first entry that an event is for. -/
def firstMatch (data : UeventBlockData) : List Partition → List Partition → Option Focus
  | _, [] => none
  | before, p :: after =>
    if Matches p data then some ⟨before, p, after⟩ else firstMatch data (before ++ [p]) after

/-- The condition on a step: it looks for block devices that no other partition has, under mount
points that no other partition has, and a removal is for one entry only. -/
def Clear (partitions : List Partition) : Event → Prop
  | .find index files => ∀ p after, partitions.drop index = p :: after →
    ClearFind files ⟨partitions.take index, p, after⟩
  | .uevent data files => ∀ f, firstMatch data [] partitions = some f →
    if data.action = "add" then ClearFind files { f with this := plug data f.this }
    else data.action = "remove" → ∀ entry ∈ f.after, Matches entry data →
      ∀ p ∈ partitions, ¬CountsTo entry p

variable {files : Files}

theorem mem_blockDevices {p : Partition} {device : Bool × List Text} :
    device ∈ blockDevices p ↔
      p.primaryBlockDevice ≠ [] ∧ device = devicePath p.primaryBlockDevice ∨
      p.actualBlockDevice ≠ [] ∧ device = devicePath p.actualBlockDevice := by
  simp only [blockDevices, List.mem_map, List.mem_filter, List.mem_cons, List.not_mem_nil, or_false,
    decide_eq_true_eq]
  constructor
  · rintro ⟨path, ⟨rfl | rfl, hne⟩, rfl⟩
    · exact .inl ⟨hne, rfl⟩
    · exact .inr ⟨hne, rfl⟩
  · rintro (⟨hne, rfl⟩ | ⟨hne, rfl⟩)
    · exact ⟨_, ⟨.inl rfl, hne⟩, rfl⟩
    · exact ⟨_, ⟨.inr rfl, hne⟩, rfl⟩

theorem Apart.symm {p q : Partition} (h : Apart p q) : Apart q p :=
  ⟨h.1.symm, fun _ hq hp => h.2 hp hq⟩

theorem blockDevices_newPartition (entry : Partition) (path name : Text) (index : ℕ) :
    ∀ device, device ∈ blockDevices (newPartition files entry (itemOf path name) index) ↔
      device = devicePath (itemOf path name) := by
  intro device
  have hitem : itemOf path name ≠ [] := by simp [itemOf]
  rw [mem_blockDevices, newPartition_primary, newPartition_actual]
  by_cases hexists : files.pathExists (itemOf path name) <;> simp [hitem, hexists]

theorem devicePath_itemOf {path name name' : Text} (hname : name ≠ [] ∧ '/' ∉ name)
    (hname' : name' ≠ [] ∧ '/' ∉ name')
    (h : devicePath (itemOf path name) = devicePath (itemOf path name')) : name = name' := by
  have hcomponents := congrArg Prod.snd h
  simpa [devicePath, itemOf, pathComponents_append_slash, pathComponents_name hname,
    pathComponents_name hname'] using hcomponents

/-! ### The names of a scan -/

theorem mem_wildcardNames {device name : Text} {partitions : List Partition}
    (h : name ∈ wildcardNames files device partitions) :
    (name ≠ [] ∧ '/' ∉ name) ∧ beforeWildcard (getFilename device) <+: name := by
  unfold wildcardNames at h
  rcases hopen : files.opendir (getPath device) with - | entries
  · simp [hopen] at h
  · simp only [hopen, newNames, List.mem_map, List.mem_filter, decide_eq_true_eq] at h
    obtain ⟨entry, ⟨hentry, ⟨hblk, hlength, hpre⟩, -⟩, rfl⟩ := h
    have hplain := files.plain _ _ entry hopen hentry hblk
    exact ⟨⟨List.ne_nil_of_length_pos (by omega), fun hslash => (hplain _ hslash).2.2.2 rfl⟩, hpre⟩

theorem wildcardNames_nodup (device : Text) (partitions : List Partition) :
    (wildcardNames files device partitions).Nodup := by
  unfold wildcardNames
  rcases hopen : files.opendir (getPath device) with - | entries
  · exact List.nodup_nil
  · exact (files.nodup _ _ hopen).sublist (List.filter_sublist.map _)

theorem foundNames_nodup (f : Focus) : (foundNames files f).Nodup := by
  unfold foundNames
  split_ifs
  · exact wildcardNames_nodup _ _
  · exact List.nodup_nil

theorem mem_foundNames {f : Focus} {name : Text} (h : name ∈ foundNames files f) :
    Scans f.this ∧ (name ≠ [] ∧ '/' ∉ name) ∧
      beforeWildcard (getFilename f.this.primaryBlockDevice) <+: name := by
  unfold foundNames at h
  split_ifs at h with hscans
  · exact ⟨hscans, mem_wildcardNames h⟩
  · simp at h

/-! ### The partitions that a scan adds -/

/-- A text without two slashes in a row that a path in a directory begins with is in the path of
the directory. -/
theorem prefix_itemOf {path name pre : Text} (hpath : path.getLast? = some '/')
    (hpre : ¬['/', '/'] <:+: pre) : pre <+: itemOf path name ↔ pre <+: path := by
  constructor
  · intro h
    rcases List.prefix_or_prefix_of_prefix h (List.prefix_append path _) with hshort | ⟨t, rfl⟩
    · exact hshort
    · rw [itemOf, List.prefix_append_right_inj] at h
      obtain ⟨start, rfl⟩ := List.getLast?_eq_some_iff.mp hpath
      cases t with
      | nil => simp
      | cons c t =>
        obtain ⟨rest, hrest⟩ := h
        simp only [List.cons_append, List.cons.injEq] at hrest
        rw [hrest.1] at hpre
        exact absurd ⟨start, t, by simp⟩ hpre
  · exact fun h => h.trans (List.prefix_append _ _)

theorem getPath_last (device : Text) :
    (getPath device).getLast? = some '/' ∨ '/' ∉ getPath device := by
  unfold getPath
  split_ifs with h
  · left
    rw [List.getLast?_reverse]
    have hne : device.reverse.dropWhile (fun c => c != '/') ≠ [] := by
      simp [List.dropWhile_eq_nil_iff, h]
    rw [List.head?_eq_some_head hne]
    have hhead := List.head_dropWhile_not (fun c : Char => c != '/') hne
    simpa using hhead
  · exact .inr h

/-- The lines for the devices in one directory have one format. -/
theorem newMountPoint_eq (device : Text) : ∃ numbered : Bool, ∀ (entry : Partition) (name : Text)
    (index : ℕ), '/' ∉ name → newMountPoint entry (itemOf (getPath device) name) index =
      if numbered then entry.mountPoint ++ '-' :: decimal index
      else itemOf (getPath device) name := by
  have hdev : ¬['/', '/'] <:+: devDir := by decide
  have hdevices : ¬['/', '/'] <:+: devicesDir := by decide
  rcases getPath_last device with hlast | hslash
  · refine ⟨devDir <+: getPath device ∨ devicesDir <+: getPath device ∨
      (getPath device).head? ≠ some '/', fun entry name index _ => ?_⟩
    have hhead : (itemOf (getPath device) name).head? = (getPath device).head? := by
      rw [itemOf, List.head?_append]
      rcases hpath : getPath device with - | ⟨c, path⟩
      · simp [hpath] at hlast
      · rfl
    simp only [newMountPoint, prefix_itemOf hlast hdev, prefix_itemOf hlast hdevices, hhead,
      decide_eq_true_eq]
  · refine ⟨getPath device ≠ [], fun entry name index hname => ?_⟩
    rcases hpath : getPath device with - | ⟨c, path⟩
    · have hrest : ∀ rest, '/' ∈ rest → ¬ '/' :: rest <+: '/' :: name :=
        fun rest hrest h => hname ((List.cons_prefix_cons.mp h).2.subset hrest)
      have hnone : ¬(devDir <+: itemOf [] name ∨ devicesDir <+: itemOf [] name ∨
          (itemOf [] name).head? ≠ some '/') := by
        rintro (h | h | h)
        · exact hrest _ (by simp) h
        · exact hrest _ (by simp) h
        · exact h rfl
      simp [newMountPoint, if_neg hnone]
    · have hc : c ≠ '/' := fun h => hslash (by simp [hpath, h])
      simp [newMountPoint, itemOf, hc]

theorem mem_found {f : Focus} {p : Partition} : p ∈ found files f ↔
    ∃ i name, (foundNames files f)[i]? = some name ∧
      p = newPartition files f.this (itemOf (getPath f.this.primaryBlockDevice) name) (i + 1) := by
  simp only [found, newPartitions, List.mem_mapIdx, Nat.zero_add]
  constructor
  · rintro ⟨i, hi, rfl⟩
    exact ⟨i, _, List.getElem?_eq_getElem hi, rfl⟩
  · rintro ⟨i, name, hname, rfl⟩
    obtain ⟨hi, rfl⟩ := List.getElem?_eq_some_iff.mp hname
    exact ⟨i, hi, rfl⟩

/-- The partitions that one scan adds are apart from one another. -/
theorem found_distinct (f : Focus) : Distinct (found files f) := by
  rw [Distinct, List.pairwise_iff_getElem]
  intro i j hi hj hij
  have hlength : (found files f).length = (foundNames files f).length := by
    simp [found, newPartitions]
  have hmem : ∀ k (hk : k < (foundNames files f).length),
      (foundNames files f)[k] ≠ [] ∧ '/' ∉ (foundNames files f)[k] :=
    fun k hk => (mem_foundNames (List.getElem_mem hk)).2.1
  have hne : (foundNames files f)[i] ≠ (foundNames files f)[j] := fun h =>
    hij.ne ((foundNames_nodup f).getElem_inj_iff.mp h)
  obtain ⟨numbered, hnumbered⟩ := newMountPoint_eq f.this.primaryBlockDevice
  simp only [found, newPartitions, List.getElem_mapIdx, Nat.zero_add]
  constructor
  · rw [newPartition_mountPoint, newPartition_mountPoint, hnumbered _ _ _ (hmem i _).2,
      hnumbered _ _ _ (hmem j _).2]
    cases numbered with
    | true => simp [decimal_injective.eq_iff, hij.ne]
    | false => simpa [(itemOf_injective _).eq_iff] using hne
  · intro device hdevice hdevice'
    rw [blockDevices_newPartition] at hdevice hdevice'
    exact hne (devicePath_itemOf (hmem i _) (hmem j _) (hdevice.symm.trans hdevice'))

/-! ### One step -/

/-- Looking for block devices leaves the identity of a partition. -/
theorem settled_spec (f : Focus) :
    (settled files f).mountPoint = f.this.mountPoint ∧
    (settled files f).sysfsEntry = f.this.sysfsEntry ∧
    (settled files f).primaryBlockDevice = f.this.primaryBlockDevice ∧
    (settled files f).wildcardBlockDevice = f.this.wildcardBlockDevice ∧
    identity (settled files f) = identity f.this := by
  unfold settled locate searching identity
  simp only
  split_ifs <;> simp_all

theorem apart_settled (f : Focus) {entry : Partition} (h : entry.mountPoint = f.this.mountPoint)
    {p : Partition} (hp : Apart p entry) : Apart p (settled files f) ↔
      (blockDevices p).Disjoint (blockDevices (settled files f)) := by
  simp [Apart, (settled_spec f).1, ← h, hp.1]

theorem apart_found {f : Focus} {p : Partition} : (∀ q ∈ found files f, Apart p q) ↔
    (∀ name ∈ foundNames files f,
      devicePath (itemOf (getPath f.this.primaryBlockDevice) name) ∉ blockDevices p) ∧
    ∀ i name, (foundNames files f)[i]? = some name → p.mountPoint ≠
      newMountPoint f.this (itemOf (getPath f.this.primaryBlockDevice) name) (i + 1) := by
  constructor
  · intro h
    refine ⟨fun name hname hdevice => ?_, fun i name hname hmount => ?_⟩
    · obtain ⟨i, hi⟩ := List.mem_iff_getElem?.mp hname
      have hapart := h _ (mem_found.mpr ⟨i, name, hi, rfl⟩)
      exact hapart.2 hdevice ((blockDevices_newPartition _ _ _ _ _).mpr rfl)
    · have hapart := h _ (mem_found.mpr ⟨i, name, hname, rfl⟩)
      exact hapart.1 (by simpa using hmount)
  · intro ⟨hdevices, hmounts⟩ q hq
    obtain ⟨i, name, hname, rfl⟩ := mem_found.mp hq
    refine ⟨by simpa using hmounts i name hname, fun device hp hnew => ?_⟩
    rw [blockDevices_newPartition] at hnew
    exact hdevices name (List.mem_of_getElem? hname) (hnew ▸ hp)

theorem mem_middle {p q : Partition} {before after : List Partition} :
    p ∈ before ++ q :: after ↔ p = q ∨ p ∈ before ++ after :=
  List.perm_middle.mem_iff.trans List.mem_cons

/-- Looking for block devices keeps the partitions apart exactly under the condition. -/
theorem distinct_find_iff {f : Focus} {entry : Partition}
    (hmount : entry.mountPoint = f.this.mountPoint)
    (h : Distinct (f.before ++ entry :: f.after)) :
    Distinct (findActualBlockDevice files f).partitions ↔ ClearFind files f := by
  have hswap : ∀ {p q}, Apart p q → Apart q p := fun h => h.symm
  have hall := (List.pairwise_middle hswap).mp h
  rw [List.pairwise_cons] at hall
  have hthis : (settled files f).mountPoint = f.this.mountPoint := (settled_spec f).1
  have hown : ∀ p ∈ f.before ++ f.after, (Apart (settled files f) p ↔
      (blockDevices p).Disjoint (blockDevices (settled files f))) := fun p hp =>
    ⟨fun h => h.symm.2, fun hdisjoint =>
      ((apart_settled f hmount (hall.1 p hp).symm).mpr hdisjoint).symm⟩
  rw [findActualBlockDevice_eq, Focus.partitions, Distinct, List.pairwise_middle hswap,
    List.pairwise_cons, ← List.append_assoc, List.pairwise_append]
  constructor
  · intro hdistinct
    obtain ⟨hsettled, -, -, hfound⟩ := hdistinct
    have hnew : ∀ p ∈ f.before ++ settled files f :: f.after, ∀ q ∈ found files f, Apart p q := by
      intro p hp q hq
      rcases mem_middle.mp hp with rfl | hp
      · exact hsettled q (List.mem_append_right _ hq)
      · exact hfound p hp q hq
    refine
      { own := fun p hp => (hown p hp).mp (hsettled p (List.mem_append_left _ hp))
        devices := fun p hp => (apart_found.mp (hnew p hp)).1
        mountPoints := fun p hp => ?_ }
    rcases mem_middle.mp hp with rfl | hp
    · rw [← hthis]
      exact (apart_found.mp (hnew _ (mem_middle.mpr (.inl rfl)))).2
    · exact (apart_found.mp (hnew p (mem_middle.mpr (.inr hp)))).2
  · intro hclear
    have hnew : ∀ p ∈ f.before ++ settled files f :: f.after, ∀ q ∈ found files f, Apart p q := by
      intro p hp
      refine apart_found.mpr ⟨hclear.devices p hp, ?_⟩
      rcases mem_middle.mp hp with rfl | hp
      · rw [hthis]
        exact hclear.mountPoints _ (mem_middle.mpr (.inl rfl))
      · exact hclear.mountPoints p (mem_middle.mpr (.inr hp))
    refine ⟨fun p hp => ?_, hall.2, found_distinct f, fun p hp q hq => ?_⟩
    · rcases List.mem_append.mp hp with hp | hp
      · exact (hown p hp).mpr (hclear.own p hp)
      · exact hnew _ (mem_middle.mpr (.inl rfl)) p hp
    · exact hnew p (mem_middle.mpr (.inr hp)) q hq

/-- What looking for block devices changes and adds. -/
theorem find_kept (f : Focus) {entry : Partition} (h : identity entry = identity f.this) :
    ((findActualBlockDevice files f).partitions.take (f.before ++ entry :: f.after).length).map
      identity = (f.before ++ entry :: f.after).map identity ∧
    ∀ p ∈ (findActualBlockDevice files f).partitions.drop (f.before ++ entry :: f.after).length,
      ∃ entry ∈ (findActualBlockDevice files f).partitions, BelongsTo entry p := by
  have hafter : (findActualBlockDevice files f).partitions =
      (f.before ++ settled files f :: f.after) ++ found files f := by
    simp [findActualBlockDevice_eq, Focus.partitions]
  have hlength : (f.before ++ settled files f :: f.after).length =
      (f.before ++ entry :: f.after).length := by simp
  obtain ⟨hmount, -, hprimary, hwildcard, hidentity⟩ := @settled_spec files f
  rw [hafter, List.take_left' hlength, List.drop_left' hlength]
  constructor
  · simp [hidentity, h]
  · intro p hp
    obtain ⟨i, name, hname, rfl⟩ := mem_found.mp hp
    obtain ⟨hscans, -, hpre⟩ := mem_foundNames (List.mem_of_getElem? hname)
    have hnew := newPartition_spec files f.this
      (itemOf (getPath f.this.primaryBlockDevice) name) (i + 1)
    refine ⟨settled files f, by simp, hnew.2.2.2.2.1, ?_, ?_, name, ?_, ?_⟩
    · rw [hnew.2.2.2.2.2, hmount]
    · rw [hwildcard]
      exact hscans.2.1
    · rw [hnew.2.2.1, hprimary]
    · rw [hprimary]
      exact hpre

variable {data : UeventBlockData}

theorem firstMatch_some {before rest : List Partition} {f : Focus}
    (h : firstMatch data before rest = some f) : f.partitions = before ++ rest ∧
      Matches f.this data ∧ ∀ p ∈ f.before, p ∈ before ∨ ¬Matches p data := by
  induction rest generalizing before with
  | nil => simp [firstMatch] at h
  | cons p rest ih =>
    rw [firstMatch] at h
    split_ifs at h with hp
    · cases h
      exact ⟨rfl, hp, fun q hq => .inl hq⟩
    · obtain ⟨hpartitions, hthis, hbefore⟩ := ih h
      refine ⟨by simpa using hpartitions, hthis, fun q hq => ?_⟩
      rcases hbefore q hq with hq | hq
      · rcases List.mem_append.mp hq with hq | hq
        · exact .inl hq
        · exact .inr (List.mem_singleton.mp hq ▸ hp)
      · exact .inr hq

theorem firstMatch_none {before rest : List Partition} (h : firstMatch data before rest = none) :
    ∀ p ∈ rest, ¬Matches p data := by
  induction rest generalizing before with
  | nil => simp
  | cons p rest ih =>
    rw [firstMatch] at h
    split_ifs at h with hp
    exact List.forall_mem_cons.mpr ⟨hp, ih h⟩

theorem handleUevent_none {before rest : List Partition}
    (h : firstMatch data before rest = none) :
    handleUevent files data before rest = before ++ rest := by
  induction rest generalizing before with
  | nil => simp [handleUevent]
  | cons p rest ih =>
    rw [firstMatch] at h
    split_ifs at h with hp
    simpa [handleUevent, hp] using ih h

theorem handleUevent_other {before rest : List Partition} (hadd : data.action ≠ "add")
    (hremove : data.action ≠ "remove") :
    handleUevent files data before rest = before ++ rest := by
  induction rest generalizing before with
  | nil => simp [handleUevent]
  | cons p rest ih =>
    have hrest := @ih (before ++ [p])
    simpa [handleUevent, hadd, hremove] using hrest

theorem handleUevent_some {before rest : List Partition} {f : Focus}
    (h : firstMatch data before rest = some f) : handleUevent files data before rest =
      if data.action = "add" then
        (findActualBlockDevice files { f with this := plug data f.this }).partitions
      else if data.action = "remove" then
        removeUeventDevices f.this.mountPoint (f.before ++ unplug f.this :: f.after)
      else before ++ rest := by
  by_cases hother : data.action ≠ "add" ∧ data.action ≠ "remove"
  · rw [handleUevent_other hother.1 hother.2, if_neg hother.1, if_neg hother.2]
  · induction rest generalizing before with
    | nil => simp [firstMatch] at h
    | cons p rest ih =>
      rw [firstMatch] at h
      split_ifs at h with hp
      · cases h
        simp only [handleUevent, hp, true_and]
        split_ifs
        · rfl
        · rfl
        · exact absurd ⟨‹_›, ‹_›⟩ hother
      · have hrest := ih h
        simp only [handleUevent, hp, false_and, if_false, hrest, List.append_assoc,
          List.singleton_append]

theorem distinct_unplug {f : Focus} (h : Distinct f.partitions) :
    Distinct (f.before ++ unplug f.this :: f.after) := by
  have hswap : ∀ {p q}, Apart p q → Apart q p := fun h => h.symm
  have hall := (List.pairwise_middle hswap).mp h
  rw [List.pairwise_cons] at hall
  refine (List.pairwise_middle hswap).mpr (List.pairwise_cons.mpr ⟨fun p hp => ?_, hall.2⟩)
  refine ⟨(hall.1 p hp).1, fun device hdevice => ?_⟩
  simp [mem_blockDevices, unplug] at hdevice

/-- A removal is sound exactly if it is for one entry with partitions. -/
theorem sound_remove_iff {partitions : List Partition} {f : Focus} (h : Distinct partitions)
    (hf : firstMatch data [] partitions = some f) (haction : data.action = "remove") :
    Sound partitions (removeUeventDevices f.this.mountPoint
      (f.before ++ unplug f.this :: f.after)) (.uevent data files) ↔
      ∀ entry ∈ f.after, Matches entry data → ∀ p ∈ partitions, ¬CountsTo entry p := by
  obtain ⟨rfl, hthis, hbefore⟩ := firstMatch_some hf
  have hswap : ∀ {p q}, Apart p q → Apart q p := fun h => h.symm
  have hall := (List.pairwise_cons.mp ((List.pairwise_middle hswap).mp h)).1
  have hmem : ∀ p, p.sysfsEntry = [] → p ∈ f.partitions → p ∈ f.before ++ f.after := by
    intro p hsysfs hp
    rcases mem_middle.mp hp with rfl | hp
    · exact absurd hsysfs hthis.1
    · exact hp
  constructor
  · intro hsound entry hentry hmatches p hp hcounts
    have hother := hmem p hcounts.2.1 hp
    have hmount : f.this.mountPoint ≠ p.subPartitionOf := by
      rw [hcounts.2.2]
      exact (hall entry (List.mem_append_right _ hentry)).1
    refine hsound.removed data files rfl haction entry ?_ hmatches p ?_ hcounts
    · exact mem_middle.mpr (.inr (List.mem_append_right _ hentry))
    · exact List.mem_filter.mpr ⟨mem_middle.mpr (.inr hother), by simp [hmount.symm]⟩
  · intro hclear
    refine
      { distinct := (distinct_unplug h).sublist List.filter_sublist
        added := fun p hp => ?_
        kept := fun hevent => absurd haction (hevent data files rfl)
        removed := fun data' files' hevent _ entry hentry hmatches p hp hcounts => ?_
        others := fun data' files' hevent _ p hp hsysfs hcounts => ?_ }
    · have hlength : (removeUeventDevices f.this.mountPoint
          (f.before ++ unplug f.this :: f.after)).length ≤ f.partitions.length :=
        (List.length_filter_le _ _).trans (by simp [Focus.partitions])
      rw [List.drop_eq_nil_of_le hlength] at hp
      simp at hp
    · cases hevent
      obtain ⟨hp, hkept⟩ := List.mem_filter.mp hp
      have hother : p ∈ f.before ++ f.after := by
        rcases mem_middle.mp hp with rfl | hp
        · exact absurd hcounts.2.1 hthis.1
        · exact hp
      rcases mem_middle.mp hentry with rfl | hentry
      · simp [hcounts.1, hcounts.2.2] at hkept
      · rcases List.mem_append.mp hentry with hentry | hentry
        · exact (hbefore entry hentry).elim (by simp) fun hnot => hnot hmatches
        · exact hclear entry hentry hmatches p (mem_middle.mpr (.inr hother)) hcounts
    · cases hevent
      have hnot := hcounts f.this (mem_middle.mpr (.inl rfl)) hthis
      refine List.mem_filter.mpr ⟨mem_middle.mpr (.inr (hmem p hsysfs hp)), ?_⟩
      simp only [CountsTo, hsysfs, true_and] at hnot
      rw [decide_eq_true_eq]
      exact hnot

/-- The property of a step, whatever it leads to. -/
def SoundStep (partitions : List Partition) (event : Event) : Prop :=
  ∀ after, step partitions event = some after → Sound partitions after event

theorem sound_of_eq {partitions : List Partition} (h : Distinct partitions)
    (hnone : ∀ entry ∈ partitions, data.action = "remove" → ¬Matches entry data) :
    Sound partitions partitions (.uevent data files) where
  distinct := h
  added := by simp
  kept _ := by simp
  removed data' files' hevent haction entry hentry hmatches := by
    cases hevent
    exact absurd hmatches (hnone entry hentry haction)
  others _ _ _ _ p hp _ _ := hp

theorem sound_find_iff {f : Focus} {entry : Partition} {event : Event}
    (hidentity : identity entry = identity f.this)
    (hevent : ∀ data files, event = .uevent data files → data.action ≠ "remove")
    (h : Distinct (f.before ++ entry :: f.after)) :
    Sound (f.before ++ entry :: f.after) (findActualBlockDevice files f).partitions event ↔
      ClearFind files f := by
  have hmount : entry.mountPoint = f.this.mountPoint := congrArg Prod.fst hidentity
  rw [← distinct_find_iff hmount h]
  constructor
  · exact fun hsound => hsound.distinct
  · intro hdistinct
    obtain ⟨hkept, hadded⟩ := @find_kept files f _ hidentity
    exact
      { distinct := hdistinct
        added := hadded
        kept := fun _ => hkept
        removed := fun data files h haction => absurd haction (hevent data files h)
        others := fun data files h haction => absurd haction (hevent data files h) }

theorem soundStep_iff (partitions : List Partition) (event : Event) (h : Distinct partitions) :
    SoundStep partitions event ↔ Clear partitions event := by
  cases event with
  | find index files =>
    rcases hdrop : partitions.drop index with - | ⟨p, after⟩
    · simp [SoundStep, step, Clear, hdrop]
    · have hsplit : partitions = partitions.take index ++ p :: after := by
        rw [← hdrop, List.take_append_drop]
      have hfind := @sound_find_iff files ⟨partitions.take index, p, after⟩ p
        (.find index files) rfl (by simp) (hsplit ▸ h)
      rw [← hsplit] at hfind
      simp only [SoundStep, step, Clear, hdrop, Option.some.injEq, forall_eq', List.cons.injEq,
        and_imp]
      rw [hfind]
      constructor
      · rintro hclear _ _ rfl rfl
        exact hclear
      · exact fun hclear => hclear p after rfl rfl
  | uevent data files =>
    simp only [SoundStep, step, Clear, Option.some.injEq, forall_eq']
    rcases hf : firstMatch data [] partitions with - | f
    · have hnone := firstMatch_none hf
      rw [handleUevent_none hf]
      simpa using sound_of_eq h fun entry hentry _ => hnone entry hentry
    · rw [handleUevent_some hf]
      obtain ⟨hpartitions, hthis, -⟩ := firstMatch_some hf
      rw [List.nil_append] at hpartitions
      simp only [Option.some.injEq, forall_eq']
      by_cases hadd : data.action = "add"
      · rw [if_pos hadd, if_pos hadd]
        subst hpartitions
        apply sound_find_iff (f := { f with this := plug data f.this })
        · simp [identity, plug, hthis.1]
        · rintro data' files' hevent
          cases hevent
          simp [hadd]
        · exact h
      · rw [if_neg hadd, if_neg hadd]
        by_cases hremove : data.action = "remove"
        · rw [if_pos hremove, sound_remove_iff h hf hremove]
          exact ⟨fun hclear _ => hclear, fun hclear => hclear hremove⟩
        · rw [if_neg hremove]
          simpa [hremove] using sound_of_eq h fun entry _ hremove' => absurd hremove' hremove

/-- The partitions of a run stay apart, and each step does what it should, if and only if the
partitions of the fstab are apart and every step meets the condition. -/
theorem run_sound_iff (partitions : List Partition) (events : List Event) :
    (Distinct partitions ∧ EachStep step SoundStep partitions events) ↔
      Distinct partitions ∧ EachStep step Clear partitions events := by
  apply and_congr_right
  intro h
  exact eachStep_iff soundStep_iff (fun _ _ after _ hsound hstep => (hsound after hstep).distinct)
    h events

/-! ### Two disks -/

def sda : Text := ['s', 'd', 'a']

def sdb : Text := ['s', 'd', 'b']

def blockEntries : List Entry :=
  [⟨sda, true⟩, ⟨sda ++ ['1'], true⟩, ⟨sdb, true⟩, ⟨sdb ++ ['1'], true⟩]

/-- Two disks with a partition each. -/
def twoDisks : Files where
  opendir path :=
    if path = devDir ++ ['b', 'l', 'o', 'c', 'k', '/'] then some blockEntries else none
  pathExists _ := true
  activeSlotSuffix := []
  nodup path entries h := by
    split_ifs at h
    cases h
    decide
  plain path entries entry h hentry _ := by
    split_ifs at h
    cases h
    have hall : (blockEntries.all fun entry => entry.name.all fun c =>
        decide (32 < c.toNat) && c.toNat != 34 && c != '*' && c != '/') = true := rfl
    have hentry := List.all_eq_true.mp hall entry hentry
    intro c hc
    have hc := List.all_eq_true.mp hentry c hc
    simpa [and_assoc] using hc
  sysfs path entries entry hpath h := by
    split_ifs at h with hblock
    rw [hblock] at hpath
    exact absurd hpath (by decide)

/-- The entry `/devices/usb*` for `/usb-otg`. -/
def usbOtg : Partition where
  mountPoint := "/usb-otg".toList
  sysfsEntry := devicesDir ++ ['u', 's', 'b', '*']
  primaryBlockDevice := []
  alternateBlockDevice := []
  actualBlockDevice := []
  decryptedBlockDevice := []
  wildcardBlockDevice := true
  isAdoptedStorage := false
  isDecrypted := false
  slotSelect := false
  isPresent := false
  isSubPartition := false
  hasSubPartition := false
  subPartitionOf := []
  isStorage := true
  canBeMounted := false
  removable := true
  canBeWiped := true
  wipeAvailableInGUI := true
  storageName := "usb-otg".toList
  displayName := "usb-otg".toList

def usbAdd (name : Text) : Event :=
  .uevent ⟨"add", devicesDir ++ ['u', 's', 'b', '1'], name⟩ twoDisks

/-- The second disk gets a mount point of the first one. -/
theorem not_sound_twoDisks : ¬EachStep step SoundStep [usbOtg] [usbAdd sda, usbAdd sdb] := by
  intro h
  have hsound := (h.2 _ rfl).1 _ rfl
  have hmounts := hsound.distinct.map Partition.mountPoint (S := (· ≠ ·)) fun _ _ h => h.1
  revert hmounts
  decide

end BootableRecovery.Twrp.HotPlug
