import BootableRecovery.Twrp.DataManager

namespace BootableRecovery.Twrp
open Lib
open Adbbu (Bytes chars)

/-! The laws of the settings: constants stay, and what is set is what is read. -/

variable {dev dev' : Device} {s s' : Stores} {k v name value : Bytes} {persist : Bool}

/-- What holds of the stores between calls. -/
structure ValidStores (s : Stores) : Prop where
  persistOpen : s.mPersist.isConst = false
  dataOpen : s.mData.isConst = false
  locked : s.mConst.mValues.entries = [] ∨ s.mConst.isConst = true ∧ s.mInitialized = true
  plain : ∀ e ∈ s.mConst.mValues.entries, isProperty e.1 = false

/-- A call from `s` to `s'` leaves the stores in order, and every constant as it was. -/
structure Keeps (s s' : Stores) : Prop where
  valid : ValidStores s'
  const : ∀ k v, s.mConst.getValue k = some v → s'.mConst.getValue k = some v

theorem Keeps.refl (h : ValidStores s) : Keeps s s := ⟨h, fun _ _ hk => hk⟩

theorem Keeps.trans {s'' : Stores} (h : Keeps s s') (h' : Keeps s' s'') : Keeps s s'' :=
  ⟨h'.valid, fun k v hk => h'.const k v (h.const k v hk)⟩

theorem validStores_initial : ValidStores Stores.initial :=
  ⟨rfl, rfl, Or.inl rfl, fun _ he => absurd he List.not_mem_nil⟩

/-- What storing a value can do. -/
theorem storeValue_cases (dev : Device) (s : Stores) (name value : Bytes) (persist : Bool) :
    (storeValue dev s name value persist).1 = s ∨
      (storeValue dev s name value persist).1 =
        { s with mPersist := (s.mPersist.setValue name value).1 } ∨
      (storeValue dev s name value persist).1 =
        { s with mData := (s.mData.setValue name value).1 } := by
  unfold storeValue
  split_ifs
  · exact Or.inl rfl
  · exact Or.inl rfl
  · exact Or.inl rfl
  · exact Or.inr (Or.inl rfl)
  · exact Or.inr (Or.inl rfl)
  · exact Or.inr (Or.inr rfl)

theorem storeValue_const (dev : Device) (s : Stores) (name value : Bytes) (persist : Bool) :
    (storeValue dev s name value persist).1.mConst = s.mConst ∧
      (storeValue dev s name value persist).1.mInitialized = s.mInitialized := by
  obtain h | h | h := storeValue_cases dev s name value persist <;> rw [h] <;> exact ⟨rfl, rfl⟩

theorem keeps_storeValue (h : ValidStores s) : Keeps s (storeValue dev s name value persist).1 := by
  obtain hcase | hcase | hcase := storeValue_cases dev s name value persist <;> rw [hcase]
  · exact Keeps.refl h
  · exact ⟨⟨(s.mPersist.setValue_isConst name value).trans h.persistOpen, h.dataOpen, h.locked,
      h.plain⟩, fun _ _ hk => hk⟩
  · exact ⟨⟨h.persistOpen, (s.mData.setValue_isConst name value).trans h.dataOpen, h.locked,
      h.plain⟩, fun _ _ hk => hk⟩

/-- The backup folder is set by storing values under the derived names. -/
theorem setBackupFolder_induction {P : Stores → Prop}
    (hstep : ∀ s name value, name ∈ derivedNames → P s → P (storeValue dev s name value false).1)
    (h : P s) : P (setBackupFolder dev s) := by
  have hfolder := hstep s backupsFolderName (storedString s storagePathName ++
    chars "/Fox/BACKUPS/" ++ storedString s (chars "device_id")) (by simp [derivedNames]) h
  unfold setBackupFolder
  dsimp only
  cases dev.findPartition (storedString s storagePathName) with
  | none => exact hfolder
  | some p =>
    have hname := hstep _ displayName p.storageName (by simp [derivedNames]) hfolder
    have hsize := hstep _ freeSizeName
      ((decimal (p.free / 1024 / 1024)).map fun c => UInt8.ofNat c.toNat)
      (by simp [derivedNames]) hname
    dsimp only
    split_ifs
    · exact hstep _ zipLocationName _ (by simp [derivedNames]) hsize
    · exact hsize
    · exact hstep _ zipLocationName _ (by simp [derivedNames]) hsize
    · exact hsize

theorem keeps_setBackupFolder (h : ValidStores s) : Keeps s (setBackupFolder dev s) :=
  setBackupFolder_induction (P := Keeps s)
    (fun _ _ _ _ hkeeps => hkeeps.trans (keeps_storeValue hkeeps.valid)) (Keeps.refl h)

theorem setValue_cases (dev : Device) (s : Stores) (name value : Bytes) (persist : Bool) :
    (setValue dev s name value persist).1 =
        setBackupFolder dev (storeValue dev (initialized dev s) name value persist).1 ∧
        name = storagePathName ∨
      (setValue dev s name value persist).1 =
        (storeValue dev (initialized dev s) name value persist).1 := by
  unfold setValue
  dsimp only
  split_ifs with hname
  · exact Or.inl ⟨rfl, hname.2⟩
  · exact Or.inr rfl

/-- Defaults go into stores whose constants are locked. -/
structure DefaultsReady (s : Stores) : Prop where
  persistOpen : s.mPersist.isConst = false
  dataOpen : s.mData.isConst = false
  locked : s.mConst.isConst = true
  plain : ∀ e ∈ s.mConst.mValues.entries, isProperty e.1 = false

theorem defaultsReady_applyDefault (h : DefaultsReady s) (d : Default)
    (hplain : d.store = .const → isProperty d.name = false) :
    DefaultsReady (applyDefault s d) ∧
      (∀ k v, s.mConst.getValue k = some v → (applyDefault s d).mConst.getValue k = some v) ∧
      (applyDefault s d).mInitialized = s.mInitialized := by
  unfold applyDefault
  cases hstore : d.store with
  | const =>
    refine ⟨⟨h.persistOpen, h.dataOpen, (s.mConst.setValue_isConst d.name d.value).trans h.locked,
      ?_⟩, fun k v hk => s.mConst.find?_setValue_const h.locked hk d.name d.value, rfl⟩
    intro e he
    change e ∈ (s.mConst.setValue d.name d.value).1.mValues.entries at he
    obtain hcase | hcase := s.mConst.setValue_cases d.name d.value <;> rw [hcase] at he
    · exact h.plain e he
    · obtain heq | he := mem_insertEntry he
      · rw [heq]
        exact hplain hstore
      · exact h.plain e he
  | persist =>
    exact ⟨⟨(s.mPersist.setValue_isConst d.name d.value).trans h.persistOpen, h.dataOpen, h.locked,
      h.plain⟩, fun _ _ hk => hk, rfl⟩
  | data =>
    exact ⟨⟨h.persistOpen, (s.mData.setValue_isConst d.name d.value).trans h.dataOpen, h.locked,
      h.plain⟩, fun _ _ hk => hk, rfl⟩

theorem defaultsReady_foldl {ds : List Default} (h : DefaultsReady s)
    (hplain : ∀ d ∈ ds, d.store = .const → isProperty d.name = false) :
    DefaultsReady (ds.foldl applyDefault s) ∧
      (∀ k v, s.mConst.getValue k = some v →
        (ds.foldl applyDefault s).mConst.getValue k = some v) ∧
      (ds.foldl applyDefault s).mInitialized = s.mInitialized := by
  induction ds generalizing s with
  | nil => exact ⟨h, fun _ _ hk => hk, rfl⟩
  | cons d ds ih =>
    obtain ⟨hready, hconst, hinit⟩ := defaultsReady_applyDefault h d (hplain d List.mem_cons_self)
    obtain ⟨hready', hconst', hinit'⟩ := ih hready fun d' hd' =>
      hplain d' (List.mem_cons_of_mem d hd')
    exact ⟨hready', fun k v hk => hconst' k v (hconst k v hk), hinit'.trans hinit⟩

theorem isProperty_deviceId : isProperty (chars "device_id") = false := by decide

theorem keeps_setDefaultValues (h : ValidStores s) :
    Keeps s (setDefaultValues dev s) ∧ (setDefaultValues dev s).mInitialized = true := by
  have hlocked : DefaultsReady (lockConst s) := ⟨h.persistOpen, h.dataOpen, rfl, h.plain⟩
  obtain ⟨hready, hconst, -⟩ := defaultsReady_applyDefault hlocked
    ⟨.const, chars "device_id", dev.deviceId⟩ fun _ => isProperty_deviceId
  have hready' : DefaultsReady { applyDefault (lockConst s)
      ⟨.const, chars "device_id", dev.deviceId⟩ with mInitialized := true } :=
    ⟨hready.persistOpen, hready.dataOpen, hready.locked, hready.plain⟩
  obtain ⟨hall, hconst', hinit⟩ := defaultsReady_foldl hready' dev.defaults_plain
  exact ⟨⟨⟨hall.persistOpen, hall.dataOpen, Or.inr ⟨hall.locked, hinit⟩, hall.plain⟩,
    fun k v hk => hconst' k v (hconst k v hk)⟩, hinit⟩

theorem keeps_initialized (h : ValidStores s) :
    Keeps s (initialized dev s) ∧ (initialized dev s).mInitialized = true := by
  unfold initialized
  split_ifs with hinit
  · exact ⟨Keeps.refl h, hinit⟩
  · exact keeps_setDefaultValues h

theorem keeps_setValue (h : ValidStores s) : Keeps s (setValue dev s name value persist).1 := by
  have hinit : Keeps s (initialized dev s) := (keeps_initialized h).1
  have hstore : Keeps s (storeValue dev (initialized dev s) name value persist).1 :=
    hinit.trans (keeps_storeValue hinit.valid)
  obtain ⟨hcase, -⟩ | hcase := setValue_cases dev s name value persist <;> rw [hcase]
  · exact hstore.trans (keeps_setBackupFolder hstore.valid)
  · exact hstore

theorem keeps_setCharging (h : ValidStores s) : Keeps s (setCharging dev s) := by
  unfold setCharging
  cases dev.charging with
  | none => exact Keeps.refl h
  | some charging => cases charging <;> exact keeps_setValue h

theorem getMagicValue_cases (dev : Device) (s : Stores) (name : Bytes) :
    (getMagicValue dev s name).1 = s ∨ (getMagicValue dev s name).1 = setCharging dev s := by
  unfold getMagicValue
  by_cases htime : name = chars "tw_time"
  · exact Or.inl (by rw [if_pos htime])
  by_cases hcpu : name = chars "tw_cpu_temp"
  · exact Or.inl (by rw [if_neg htime, if_pos hcpu])
  by_cases hbattery : name = chars "tw_battery" ∨ name = chars "tw_battery_charge"
  · exact Or.inr (by rw [if_neg htime, if_neg hcpu, if_pos hbattery])
  · exact Or.inl (by rw [if_neg htime, if_neg hcpu, if_neg hbattery])

theorem keeps_getMagicValue (h : ValidStores s) : Keeps s (getMagicValue dev s name).1 := by
  obtain hcase | hcase := getMagicValue_cases dev s name <;> rw [hcase]
  · exact Keeps.refl h
  · exact keeps_setCharging h

theorem getValue_fst (dev : Device) (s : Stores) (name : Bytes) :
    (getValue dev s name).1 = (getMagicValue dev (initialized dev s) (stripPercent name)).1 := by
  unfold getValue
  dsimp only
  split_ifs <;> rfl

theorem keeps_getValue (h : ValidStores s) : Keeps s (getValue dev s name).1 := by
  have hinit : Keeps s (initialized dev s) := (keeps_initialized h).1
  rw [getValue_fst]
  exact hinit.trans (keeps_getMagicValue hinit.valid)

theorem loadValues_isConst (m : InfoManager) (stale : Bytes) (fs : FileSystem Bytes) :
    (m.loadValues stale fs).1.isConst = m.isConst := by
  unfold InfoManager.loadValues
  cases fs m.file with
  | none => rfl
  | some content =>
    dsimp only
    split_ifs <;> rfl

theorem keeps_readSettings (dev : Device) (h : ValidStores s) (file : Text) :
    Keeps s (readSettings dev s file) :=
  ⟨⟨(loadValues_isConst _ _ _).trans h.persistOpen, h.dataOpen, h.locked, h.plain⟩,
    fun _ _ hk => hk⟩

theorem keeps_loadSettings (h : ValidStores s) (filename : Text) :
    Keeps s (loadSettings dev s filename) := by
  have hinit : Keeps s (initialized dev s) := (keeps_initialized h).1
  have hbacking : Keeps s { initialized dev s with mBackingFile := filename } :=
    ⟨⟨hinit.valid.persistOpen, hinit.valid.dataOpen, hinit.valid.locked, hinit.valid.plain⟩,
      hinit.const⟩
  have hread := hbacking.trans (keeps_readSettings dev hbacking.valid filename)
  unfold loadSettings
  dsimp only
  split
  · exact hread.trans (keeps_setBackupFolder hread.valid)
  · split_ifs
    · exact hread.trans (keeps_setValue hread.valid)
    · exact hread.trans (keeps_setBackupFolder hread.valid)

theorem keeps_loadPersistValues (h : ValidStores s) : Keeps s (loadPersistValues dev s).1 := by
  have hinit : Keeps s (initialized dev s) := (keeps_initialized h).1
  have hread := hinit.trans (keeps_readSettings dev hinit.valid persistSettingsFile)
  unfold loadPersistValues
  split_ifs
  · exact Keeps.refl h
  · exact Keeps.refl h
  · exact ⟨⟨hread.valid.persistOpen, hread.valid.dataOpen, hread.valid.locked, hread.valid.plain⟩,
      hread.const⟩

theorem keeps_dataStep (h : ValidStores s) (call : Device × DataCall) :
    Keeps s (dataStep s call) := by
  unfold dataStep
  cases call.2 with
  | setValue name value persist => exact keeps_setValue h
  | getValue name => exact keeps_getValue h
  | loadValues filename => exact keeps_loadSettings h filename
  | loadPersistValues => exact keeps_loadPersistValues h
  | setDefaultValues => exact (keeps_setDefaultValues h).1

theorem keeps_dataRun (h : ValidStores s) (calls : List (Device × DataCall)) :
    Keeps s (dataRun s calls) := by
  induction calls generalizing s with
  | nil => exact Keeps.refl h
  | cons call calls ih => exact (keeps_dataStep h call).trans (ih (keeps_dataStep h call).valid)

theorem storedValue_storeValue_of_ne (h : k ≠ name) :
    storedValue (storeValue dev s name value persist).1 k = storedValue s k := by
  obtain hcase | hcase | hcase := storeValue_cases dev s name value persist <;> rw [hcase]
  · have hfind := s.mPersist.find?_setValue_of_ne h value
    rw [storedValue, storedValue, InfoManager.getValue, InfoManager.getValue, InfoManager.getValue,
      hfind]
    rfl
  · have hfind := s.mData.find?_setValue_of_ne h value
    rw [storedValue, storedValue, InfoManager.getValue, InfoManager.getValue, InfoManager.getValue,
      hfind]
    rfl

theorem refused_ne_zero : (-1 : ℤ) ≠ 0 := by decide

/-- A value that is stored is found: no constant is in front of it, and one that goes to the other
settings is not in the persistent ones. -/
theorem storedValue_storeValue_self (h : ValidStores s) (hplain : isProperty name = false)
    (hret : (storeValue dev s name value persist).2 = 0) :
    storedValue (storeValue dev s name value persist).1 name = some value := by
  unfold storeValue at hret ⊢
  rw [if_neg (by simp [hplain])] at hret ⊢
  by_cases hname : nameAllowed name = true
  · rw [if_neg (by simp [hname])] at hret ⊢
    by_cases hconst : (s.mConst.getValue name).isSome = true
    · rw [if_pos hconst] at hret
      exact absurd hret refused_ne_zero
    have hnone : s.mConst.mValues.find? name = none :=
      Option.not_isSome_iff_eq_none.mp hconst
    have hpersist := s.mPersist.find?_setValue_self hname h.persistOpen value
    have hdata := s.mData.find?_setValue_self hname h.dataOpen value
    rw [if_neg hconst]
    split_ifs with hkeep hfound
    · simp only [storedValue, InfoManager.getValue, hnone, hpersist, Option.none_or, Option.some_or]
    · simp only [storedValue, InfoManager.getValue, hnone, hpersist, Option.none_or, Option.some_or]
    · have habsent : s.mPersist.mValues.find? name = none :=
        Option.not_isSome_iff_eq_none.mp hfound
      simp only [storedValue, InfoManager.getValue, hnone, habsent, hdata, Option.none_or]
  · rw [if_pos (by simp [hname])] at hret
    exact absurd hret refused_ne_zero

theorem storedValue_setBackupFolder (h : k ∉ derivedNames) :
    storedValue (setBackupFolder dev s) k = storedValue s k := by
  apply setBackupFolder_induction (P := fun s' => storedValue s' k = storedValue s k)
  · intro s' name value hname hs'
    have hne : k ≠ name := fun heq => h (heq ▸ hname)
    rw [storedValue_storeValue_of_ne hne, hs']
  · rfl

theorem storagePathName_not_derived : storagePathName ∉ derivedNames := by decide

theorem setBackupFolder_mInitialized (dev : Device) (s : Stores) :
    (setBackupFolder dev s).mInitialized = s.mInitialized := by
  apply setBackupFolder_induction (P := fun s' => s'.mInitialized = s.mInitialized)
  · intro s' name value _ hs'
    rw [(storeValue_const dev s' name value false).2, hs']
  · rfl

theorem setValue_mInitialized (h : ValidStores s) :
    (setValue dev s name value persist).1.mInitialized = true := by
  have hinit : (initialized dev s).mInitialized = true := (keeps_initialized h).2
  have hstore := (storeValue_const dev (initialized dev s) name value persist).2.trans hinit
  obtain ⟨hcase, -⟩ | hcase := setValue_cases dev s name value persist <;> rw [hcase]
  · exact (setBackupFolder_mInitialized dev _).trans hstore
  · exact hstore

theorem setValue_stored (hret : (setValue dev s name value persist).2 = 0) :
    (storeValue dev (initialized dev s) name value persist).2 = 0 := by
  unfold setValue at hret
  dsimp only at hret
  split_ifs at hret with hname
  · exact hname.1
  · exact hret

/-- Names that are neither magic nor properties, with or without percent signs. -/
def PlainKey (name : Bytes) : Prop :=
  stripPercent name ∉ magicNames ∧ isProperty (stripPercent name) = false

theorem getValue_plain (h : PlainKey name) :
    (getValue dev s name).2 = storedValue (initialized dev s) (stripPercent name) := by
  have hmagic : getMagicValue dev (initialized dev s) (stripPercent name) =
      (initialized dev s, none) := by
    simp only [PlainKey, magicNames, List.mem_cons, List.not_mem_nil, or_false, not_or] at h
    obtain ⟨⟨htime, hcpu, hbattery, hcharge⟩, -⟩ := h
    rw [getMagicValue, if_neg htime, if_neg hcpu, if_neg (not_or.mpr ⟨hbattery, hcharge⟩)]
  unfold getValue
  dsimp only
  rw [hmagic, if_neg (by simp), if_neg (by simp [h.2])]

theorem getValue_afterSet (hs : ValidStores s) (h : PlainKey k) :
    (getValue dev' (setValue dev s name value persist).1 k).2 =
      storedValue (setValue dev s name value persist).1 (stripPercent k) := by
  rw [getValue_plain h, initialized, if_pos (setValue_mInitialized hs)]

/-- What `SetValue` does to what is stored. -/
theorem storedValue_setValue_self (hs : ValidStores s) (hplain : isProperty name = false)
    (hret : (setValue dev s name value persist).2 = 0) :
    storedValue (setValue dev s name value persist).1 name = some value := by
  have hstored := storedValue_storeValue_self (keeps_initialized hs).1.valid hplain
    (setValue_stored hret)
  obtain ⟨hcase, hname⟩ | hcase := setValue_cases dev s name value persist <;> rw [hcase]
  · rw [storedValue_setBackupFolder (hname ▸ storagePathName_not_derived), hstored]
  · exact hstored

theorem storedValue_setValue_of_ne (h : k ≠ name)
    (hderived : name = storagePathName → k ∉ derivedNames) :
    storedValue (setValue dev s name value persist).1 k = storedValue (initialized dev s) k := by
  obtain ⟨hcase, hname⟩ | hcase := setValue_cases dev s name value persist <;> rw [hcase]
  · rw [storedValue_setBackupFolder (hderived hname), storedValue_storeValue_of_ne h]
  · exact storedValue_storeValue_of_ne h

/-- A constant cannot be set. -/
theorem setValue_const (hs : ValidStores s) (h : s.mConst.getValue k = some v) :
    setValue dev s k value persist = (s, -1) := by
  have hmem : (k, v) ∈ s.mConst.mValues.entries := s.mConst.mValues.mem_entries_iff.mpr h
  obtain ⟨-, hinit⟩ := hs.locked.resolve_left fun hnil => by
    rw [hnil] at hmem
    exact List.not_mem_nil hmem
  have hplain := hs.plain _ hmem
  have hstore : storeValue dev s k value persist = (s, -1) := by
    unfold storeValue
    rw [if_neg (by simp [hplain]), h, Option.isSome_some, if_pos rfl, ite_self]
  unfold setValue
  dsimp only
  rw [initialized, if_pos hinit, hstore, if_neg (fun hand => refused_ne_zero hand.1)]

/-- The laws, for every name that `GetValue` takes. -/
def StoreLaws : Prop :=
  (∀ (calls : List (Device × DataCall)) (k v : Bytes),
    (dataRun Stores.initial calls).mConst.getValue k = some v →
      (∀ calls', (dataRun (dataRun Stores.initial calls) calls').mConst.getValue k = some v) ∧
        ∀ dev value persist, setValue dev (dataRun Stores.initial calls) k value persist =
          (dataRun Stores.initial calls, -1)) ∧
  ∀ (calls : List (Device × DataCall)) (dev dev' : Device) (k v : Bytes) (persist : Bool),
    PlainKey k → (setValue dev (dataRun Stores.initial calls) k v persist).2 = 0 →
      (getValue dev' (setValue dev (dataRun Stores.initial calls) k v persist).1 k).2 = some v ∧
        ∀ k', PlainKey k' → stripPercent k' ≠ stripPercent k →
          (getValue dev' (setValue dev (dataRun Stores.initial calls) k v persist).1 k').2 =
            (getValue dev (dataRun Stores.initial calls) k').2

/-- The laws for names without percent signs around them. The storage path brings the settings that
are derived from it along. -/
theorem dataManager_storeLaws :
    (∀ (calls : List (Device × DataCall)) (k v : Bytes),
      (dataRun Stores.initial calls).mConst.getValue k = some v →
        (∀ calls', (dataRun (dataRun Stores.initial calls) calls').mConst.getValue k = some v) ∧
          ∀ dev value persist, setValue dev (dataRun Stores.initial calls) k value persist =
            (dataRun Stores.initial calls, -1)) ∧
    ∀ (calls : List (Device × DataCall)) (dev dev' : Device) (k v : Bytes) (persist : Bool),
      PlainKey k → stripPercent k = k →
        (setValue dev (dataRun Stores.initial calls) k v persist).2 = 0 →
          (∀ k', stripPercent k' = k →
            (getValue dev' (setValue dev (dataRun Stores.initial calls) k v persist).1 k').2 =
              some v) ∧
          ∀ k', PlainKey k' → stripPercent k' ≠ k →
            (k = storagePathName → stripPercent k' ∉ derivedNames) →
              (getValue dev' (setValue dev (dataRun Stores.initial calls) k v persist).1 k').2 =
                (getValue dev (dataRun Stores.initial calls) k').2 := by
  have hvalid : ∀ calls, ValidStores (dataRun Stores.initial calls) := fun calls =>
    (keeps_dataRun validStores_initial calls).valid
  constructor
  · intro calls k v hk
    exact ⟨fun calls' => (keeps_dataRun (hvalid calls) calls').const k v hk,
      fun _ _ _ => setValue_const (hvalid calls) hk⟩
  · intro calls dev dev' k v persist hplain hstrip hret
    constructor
    · intro k' hk'
      have hplain' : PlainKey k' := by
        rw [PlainKey, hk']
        rw [PlainKey, hstrip] at hplain
        exact hplain
      rw [getValue_afterSet (hvalid calls) hplain', hk']
      exact storedValue_setValue_self (hvalid calls) (hstrip ▸ hplain.2) hret
    · intro k' hplain' hne hderived
      rw [getValue_afterSet (hvalid calls) hplain', getValue_plain hplain']
      exact storedValue_setValue_of_ne hne hderived

/-- A device without partitions and defaults. -/
def bareDevice : Device where
  withoutPersist := false
  deviceId := chars "id"
  defaults := []
  files := fun _ => none
  stale := []
  findPartition := fun _ => none
  defaultStorage := none
  propertyGet := fun _ => []
  propertySet := fun _ _ => 0
  time := fun _ => []
  cpuTemp := fun _ => none
  battery := []
  batteryCharge := []
  charging := none
  defaults_plain := fun _ hd => absurd hd List.not_mem_nil

theorem dataManager_storeLaws_language :
    (getValue bareDevice (setValue bareDevice Stores.initial (chars "tw_language") (chars "en")
      true).1 (chars "%tw_language%")).2 = some (chars "en") :=
  (dataManager_storeLaws.2 [] bareDevice bareDevice (chars "tw_language") (chars "en") true
    ⟨by decide, by decide⟩ (by decide) (by decide)).1 (chars "%tw_language%") (by decide)

/-- Setting the storage path sets the folder of the backups. -/
theorem not_storeLaws : ¬StoreLaws := by
  intro hall
  have hkeep := (hall.2 [] bareDevice bareDevice storagePathName (chars "/x") false
    ⟨by decide, by decide⟩ (by decide)).2 backupsFolderName ⟨by decide, by decide⟩ (by decide)
  have hset : (getValue bareDevice (setValue bareDevice Stores.initial storagePathName
      (chars "/x") false).1 backupsFolderName).2.isSome = true := by decide
  have hbefore : (getValue bareDevice Stores.initial backupsFolderName).2.isSome = false := by
    decide
  change (getValue bareDevice (setValue bareDevice Stores.initial storagePathName
    (chars "/x") false).1 backupsFolderName).2 =
      (getValue bareDevice Stores.initial backupsFolderName).2 at hkeep
  rw [hkeep, hbefore] at hset
  exact Bool.false_ne_true hset

end BootableRecovery.Twrp
