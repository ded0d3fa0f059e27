import BootableRecovery.Twrp.InfoManager

namespace BootableRecovery.Twrp
open Lib
open Adbbu (Bytes wordField readWord wordField_length readWord_wordField)

/-! What `LoadValues` reads of a file that `SaveValues` wrote. -/

/-- A record that fits into the array of the loader. -/
def recordFits (e : Bytes × Bytes) : Bool := e.1.length < 511 && e.2.length < 511

theorem cBytes_length_le (b : Bytes) : (cBytes b).length ≤ b.length :=
  (List.takeWhile_sublist _).length_le

theorem cBytes_terminated {s : Bytes} (h : (0 : UInt8) ∉ s) (rest : Bytes) :
    cBytes (s ++ 0 :: rest) = s := by
  rw [cBytes, List.takeWhile_append_of_pos, List.takeWhile_cons_of_neg (by simp), List.append_nil]
  intro b hb
  exact bne_iff_ne.mpr fun heq => h (heq ▸ hb)

theorem writeString_length (s : Bytes) : (writeString s).length = 2 + storedLength s := by
  have hmod : (s.length % 65536 + 1) % 65536 ≤ s.length + 1 :=
    (Nat.mod_le _ _).trans (Nat.succ_le_succ (Nat.mod_le _ _))
  rw [writeString, List.length_append, wordField_length, List.length_take, List.length_append,
    List.length_singleton]
  unfold storedLength
  omega

theorem readWord_storedLength (s : Bytes) :
    readWord (wordField 2 (storedLength s)) = storedLength s := by
  rw [readWord_wordField]
  exact Nat.mod_eq_of_lt (Nat.mod_lt _ (by decide))

/-- A string with room for its terminator is read back, whatever the array held. -/
theorem readString_writeString {s : Bytes} (hzero : (0 : UInt8) ∉ s) (hlen : s.length < 511)
    (array rest : Bytes) :
    ∃ array', readString array (writeString s ++ rest) = some (s, array', rest) := by
  have hstored : storedLength s = s.length + 1 := by
    unfold storedLength
    omega
  have hdata : (s ++ [0]).take (s.length + 1) = s ++ [0] :=
    List.take_of_length_le (by rw [List.length_append]; rfl)
  have hlength : (s ++ [(0 : UInt8)]).length = s.length + 1 := by rw [List.length_append]; rfl
  have htake : (writeString s ++ rest).take 2 = wordField 2 (storedLength s) := by
    rw [writeString, List.append_assoc]
    exact List.take_left' (wordField_length 2 _)
  have hdrop : (writeString s ++ rest).drop 2 = s ++ [0] ++ rest := by
    rw [writeString, List.append_assoc, List.drop_left' (wordField_length 2 _), hstored, hdata]
  have henough : ¬(writeString s ++ rest).length < 2 := by
    rw [List.length_append, writeString_length]
    omega
  unfold readString
  dsimp only
  rw [if_neg henough, htake, readWord_storedLength, hstored, if_neg (by omega), hdrop,
    List.take_left' hlength, if_neg (not_not_intro hlength), List.drop_left' hlength]
  refine ⟨(s ++ [0] ++ array.drop (s.length + 1)).set (s.length + 1 + 1) 0, ?_⟩
  have hname : cBytes ((s ++ [0] ++ array.drop (s.length + 1)).set (s.length + 1 + 1) 0) = s := by
    rw [List.set_append_right _ _ (by omega), List.append_assoc, List.singleton_append,
      cBytes_terminated hzero]
  rw [hname]

/-- The loader stops at a string of 511 or 512 bytes. -/
theorem readString_tooLong {s : Bytes} (hlo : 511 ≤ s.length) (hhi : s.length ≤ 512)
    (array rest : Bytes) : readString array (writeString s ++ rest) = none := by
  have hstored : storedLength s = s.length + 1 := by
    unfold storedLength
    omega
  have htake : (writeString s ++ rest).take 2 = wordField 2 (storedLength s) := by
    rw [writeString, List.append_assoc]
    exact List.take_left' (wordField_length 2 _)
  unfold readString
  dsimp only
  rw [htake, readWord_storedLength, hstored, if_pos (by omega : 512 ≤ s.length + 1), ite_self]

theorem readString_nil (array : Bytes) : readString array [] = none := if_pos (by decide)

/-- No string that is read is longer than what the terminator leaves of the array. -/
theorem readString_length_le {array input s array' rest : Bytes}
    (h : readString array input = some (s, array', rest)) : s.length ≤ 512 := by
  unfold readString at h
  dsimp only at h
  split_ifs at h with hlen hlong hshort
  simp only [Option.some.injEq, Prod.mk.injEq] at h
  rw [← h.1]
  generalize hn : readWord (input.take 2) = n at *
  generalize (List.take n (input.drop 2) ++ array.drop n) = buffer
  by_cases hb : n + 1 < buffer.length
  · rw [List.set_eq_take_append_cons_drop, if_pos hb, cBytes, List.takeWhile_append]
    split_ifs
    · rw [List.takeWhile_cons_of_neg (by simp), List.append_nil, List.length_take]
      omega
    · exact (List.takeWhile_sublist _).length_le.trans (by rw [List.length_take]; omega)
  · exact (cBytes_length_le _).trans (by rw [List.length_set]; omega)

theorem loadRecords_none {array input : Bytes} {values : OrderedMap Bytes Bytes}
    (h : readString array input = none) : loadRecords array input values = values := by
  unfold loadRecords
  split
  · rfl
  · rename_i heq
    rw [h] at heq
    exact absurd heq (Option.some_ne_none _).symm

theorem loadRecords_name {array array' input rest name : Bytes} {values : OrderedMap Bytes Bytes}
    (h : readString array input = some (name, array', rest))
    (h' : readString array' rest = none) : loadRecords array input values = values := by
  unfold loadRecords
  split
  · rfl
  · rename_i heq
    rw [h, Option.some.injEq, Prod.mk.injEq, Prod.mk.injEq] at heq
    obtain ⟨rfl, rfl, rfl⟩ := heq
    split
    · rfl
    · rename_i heq
      rw [h'] at heq
      exact absurd heq (Option.some_ne_none _).symm

theorem loadRecords_step {array array' array'' input input' rest name value : Bytes}
    {values : OrderedMap Bytes Bytes}
    (h : readString array input = some (name, array', input'))
    (h' : readString array' input' = some (value, array'', rest)) :
    loadRecords array input values = loadRecords array'' rest (values.insert name value) := by
  rw [loadRecords]
  split
  · rename_i heq
    rw [h] at heq
    exact absurd heq (Option.some_ne_none _)
  · rename_i heq
    rw [h, Option.some.injEq, Prod.mk.injEq, Prod.mk.injEq] at heq
    obtain ⟨rfl, rfl, rfl⟩ := heq
    split
    · rename_i heq
      rw [h'] at heq
      exact absurd heq (Option.some_ne_none _)
    · rename_i heq
      rw [h', Option.some.injEq, Prod.mk.injEq, Prod.mk.injEq] at heq
      obtain ⟨rfl, rfl, rfl⟩ := heq
      rfl

/-- Records whose strings have at most 512 bytes are loaded up to the first one that does not
fit. -/
theorem loadRecords_records (array : Bytes) (values : OrderedMap Bytes Bytes)
    (es : List (Bytes × Bytes)) (hzero : ∀ e ∈ es, (0 : UInt8) ∉ e.1 ∧ (0 : UInt8) ∉ e.2)
    (hlen : ∀ e ∈ es, e.1.length ≤ 512 ∧ e.2.length ≤ 512) :
    loadRecords array (es.flatMap writeRecord) values =
      (es.takeWhile recordFits).foldl (fun m e => m.insert e.1 e.2) values := by
  induction es generalizing array values with
  | nil => exact loadRecords_none (readString_nil array)
  | cons e es ih =>
    obtain ⟨hname, hvalue⟩ := hlen e List.mem_cons_self
    obtain ⟨hzname, hzvalue⟩ := hzero e List.mem_cons_self
    rw [List.flatMap_cons, writeRecord, List.append_assoc]
    by_cases hn : e.1.length < 511
    · obtain ⟨array', hread⟩ := readString_writeString hzname hn array
        (writeString e.2 ++ es.flatMap writeRecord)
      by_cases hv : e.2.length < 511
      · obtain ⟨array'', hread'⟩ := readString_writeString hzvalue hv array'
          (es.flatMap writeRecord)
        rw [loadRecords_step hread hread', ih _ _ (fun d hd => hzero d (List.mem_cons_of_mem e hd))
          (fun d hd => hlen d (List.mem_cons_of_mem e hd)),
          List.takeWhile_cons_of_pos (by simp [recordFits, hn, hv]), List.foldl_cons]
      · rw [loadRecords_name hread (readString_tooLong (by omega) hvalue _ _),
          List.takeWhile_cons_of_neg (by simp [recordFits, hv]), List.foldl_nil]
    · rw [loadRecords_none (readString_tooLong (by omega) hname _ _),
        List.takeWhile_cons_of_neg (by simp [recordFits, hn]), List.foldl_nil]

/-- Whatever the file holds, what is loaded is short. -/
theorem mem_loadRecords {array input : Bytes} {values : OrderedMap Bytes Bytes}
    {e : Bytes × Bytes} (h : e ∈ (loadRecords array input values).entries) :
    e ∈ values.entries ∨ e.1.length ≤ 512 ∧ e.2.length ≤ 512 := by
  fun_induction loadRecords array input values with
  | case1 => exact Or.inl h
  | case2 => exact Or.inl h
  | case3 array input values name array' input' hname value array'' rest hvalue ih =>
    obtain hmem | hle := ih h
    · obtain heq | hmem := mem_insertEntry hmem
      · rw [heq]
        exact Or.inr ⟨readString_length_le hname, readString_length_le hvalue⟩
      · exact Or.inl hmem
    · exact Or.inr hle

namespace InfoManager

/-- Saving succeeds, and a manager without settings loads the same map. -/
def RoundTrips (m : InfoManager) (writable : Text → Bool) (fs : FileSystem Bytes)
    (stale : Bytes) : Prop :=
  let saved := m.saveValues writable fs
  let loaded := (fresh m.file m.fileVersion m.isConst).loadValues stale saved.1
  saved.2 = 0 ∧ loaded.2 = 0 ∧ loaded.1.mValues = m.mValues

variable {m : InfoManager} {writable : Text → Bool}

theorem saveValues_open (hfile : m.file ≠ []) (hopen : writable m.file = true)
    (fs : FileSystem Bytes) :
    m.saveValues writable fs = (fs.write m.file m.savedContent, 0) := by
  rw [saveValues, if_neg hfile, if_neg (by simp [hopen])]

/-- A file of the version that is asked for is loaded behind its version. -/
theorem loadValues_versioned (stale : Bytes) {fs : FileSystem Bytes} {records : Bytes}
    (h : fs m.file = some (m.versionField ++ records)) :
    m.loadValues stale fs = ({ m with mValues := loadRecords stale records m.mValues }, 0) := by
  rw [loadValues, h]
  dsimp only
  rw [versionField]
  by_cases hversion : m.fileVersion = 0
  · rw [if_pos hversion, if_pos hversion, List.nil_append]
  · have hfield := wordField_length 4 m.fileVersion.toUInt32.toNat
    have hword : readWord (wordField 4 m.fileVersion.toUInt32.toNat) =
        m.fileVersion.toUInt32.toNat := by
      rw [readWord_wordField]
      exact Nat.mod_eq_of_lt (UInt32.toNat_lt _)
    rw [if_neg hversion, if_neg hversion, List.take_left' hfield, List.drop_left' hfield, hword,
      if_neg (by rw [List.length_append]; omega), if_neg (not_not_intro rfl)]

theorem roundTrips_loadRecords (hfile : m.file ≠ []) (hopen : writable m.file = true)
    (fs : FileSystem Bytes) (stale : Bytes) :
    m.RoundTrips writable fs stale ↔
      loadRecords stale (m.mValues.entries.flatMap writeRecord) OrderedMap.empty = m.mValues := by
  unfold RoundTrips
  dsimp only
  rw [saveValues_open hfile hopen,
    loadValues_versioned (m := fresh m.file m.fileVersion m.isConst) stale
      (FileSystem.write_self fs m.file m.savedContent)]
  exact ⟨fun h => h.2.2, fun h => ⟨rfl, rfl, h⟩⟩

/-- Settings without NULs survive when, and only when, every one of them fits. -/
theorem roundTrips_iff_fits (hfile : m.file ≠ []) (hopen : writable m.file = true)
    (hzero : ∀ e ∈ m.mValues.entries, (0 : UInt8) ∉ e.1 ∧ (0 : UInt8) ∉ e.2)
    (fs : FileSystem Bytes) (stale : Bytes) :
    m.RoundTrips writable fs stale ↔
      ∀ e ∈ m.mValues.entries, e.1.length ≤ 510 ∧ e.2.length ≤ 510 := by
  have hfits : ∀ e : Bytes × Bytes,
      recordFits e = true ↔ e.1.length ≤ 510 ∧ e.2.length ≤ 510 := by
    intro e
    rw [recordFits, Bool.and_eq_true, decide_eq_true_eq, decide_eq_true_eq]
    omega
  rw [roundTrips_loadRecords hfile hopen]
  constructor
  · intro hload
    have hlen : ∀ e ∈ m.mValues.entries, e.1.length ≤ 512 ∧ e.2.length ≤ 512 := by
      intro e he
      rw [← hload] at he
      exact (mem_loadRecords he).resolve_left List.not_mem_nil
    have hsorted : (m.mValues.entries.takeWhile recordFits).Pairwise fun a b => a.1 < b.1 :=
      m.mValues.sorted.sublist (List.takeWhile_sublist _)
    rw [loadRecords_records stale _ _ hzero hlen] at hload
    have hentries := OrderedMap.ofEntries_entries hsorted
    rw [OrderedMap.ofEntries, hload] at hentries
    intro e he
    rw [← hfits]
    rw [hentries] at he
    exact List.mem_takeWhile_imp he
  · intro hshort
    have hlen : ∀ e ∈ m.mValues.entries, e.1.length ≤ 512 ∧ e.2.length ≤ 512 := by
      intro e he
      have := hshort e he
      omega
    have hall : m.mValues.entries.takeWhile recordFits = m.mValues.entries :=
      List.takeWhile_eq_self_iff.mpr fun e he => (hfits e).mpr (hshort e he)
    rw [loadRecords_records stale _ _ hzero hlen, hall]
    exact OrderedMap.ext_entries (OrderedMap.ofEntries_entries m.mValues.sorted)

/-- Settings of any length, once set, survive being saved and loaded. -/
def SettingsRoundTrip : Prop :=
  ∀ (file : Text) (version : Int32) (isConst : Bool) (calls : List (Bytes × Bytes))
    (writable : Text → Bool) (fs : FileSystem Bytes) (stale : Bytes),
    file ≠ [] → writable file = true → (∀ c ∈ calls, (0 : UInt8) ∉ c.1 ∧ (0 : UInt8) ∉ c.2) →
      ((fresh file version isConst).setValues calls).RoundTrips writable fs stale

theorem setValues_zero {file : Text} {version : Int32} {isConst : Bool}
    {calls : List (Bytes × Bytes)} (hcalls : ∀ c ∈ calls, (0 : UInt8) ∉ c.1 ∧ (0 : UInt8) ∉ c.2) :
    ∀ e ∈ ((fresh file version isConst).setValues calls).mValues.entries,
      (0 : UInt8) ∉ e.1 ∧ (0 : UInt8) ∉ e.2 := by
  intro e he
  obtain hnil | hmem := mem_setValues _ he
  · exact absurd hnil List.not_mem_nil
  · exact hcalls e hmem

theorem settings_roundTrip_iff (file : Text) (version : Int32) (isConst : Bool)
    (calls : List (Bytes × Bytes)) (writable : Text → Bool) (fs : FileSystem Bytes)
    (stale : Bytes) (hfile : file ≠ []) (hopen : writable file = true)
    (hcalls : ∀ c ∈ calls, (0 : UInt8) ∉ c.1 ∧ (0 : UInt8) ∉ c.2) :
    ((fresh file version isConst).setValues calls).RoundTrips writable fs stale ↔
      ∀ e ∈ ((fresh file version isConst).setValues calls).mValues.entries,
        e.1.length ≤ 510 ∧ e.2.length ≤ 510 := by
  have hname : ((fresh file version isConst).setValues calls).file = file :=
    setValues_file (fresh file version isConst) calls
  apply roundTrips_iff_fits
  · rw [hname]
    exact hfile
  · rw [hname]
    exact hopen
  · exact setValues_zero hcalls

theorem settings_roundTrip_short :
    ((fresh ['f'] 1 false).setValues [([97], [98]), ([99], [])]).RoundTrips (fun _ => true)
      (fun _ => none) [] :=
  (settings_roundTrip_iff ['f'] 1 false [([97], [98]), ([99], [])] (fun _ => true) (fun _ => none)
    [] (by decide) rfl (by decide)).mpr (by decide)

/-- A value of 511 bytes is saved with a length that the loader does not take. -/
theorem not_settingsRoundTrip : ¬SettingsRoundTrip := by
  intro hall
  have hzero : ∀ c ∈ [(([97] : Bytes), List.replicate 511 (97 : UInt8))],
      (0 : UInt8) ∉ c.1 ∧ (0 : UInt8) ∉ c.2 := by
    intro c hc
    rw [List.mem_singleton.mp hc]
    exact ⟨by decide, fun hmem => absurd (List.eq_of_mem_replicate hmem) (by decide)⟩
  have hround := hall ['f'] 1 false [([97], List.replicate 511 97)] (fun _ => true)
    (fun _ => none) [] (by decide) rfl hzero
  have hfits := (roundTrips_iff_fits (by decide) rfl (setValues_zero hzero) _ _).mp hround
    ([97], List.replicate 511 97) List.mem_cons_self
  rw [List.length_replicate] at hfits
  omega

end InfoManager

end BootableRecovery.Twrp
