import BootableRecovery.Twrp.SettingsRoundTrip

namespace BootableRecovery.Twrp
open Lib
open Adbbu (Bytes wordField readWord wordField_length readWord_wordField)

/-! The loader on files of any content: its accesses to `array`, and what each pair that it stores
depends on. -/

/-- `char array[513]` -/
def arraySize : ℕ := 513

/-- Bytes written at `i`. There is no result where they do not fit. -/
def store (array : Bytes) (i : ℕ) (bytes : Bytes) : Option Bytes :=
  if i + bytes.length ≤ array.length then
    some (array.take i ++ bytes ++ array.drop (i + bytes.length))
  else none

/-- The string at the start of a buffer, if it ends in there. -/
def cStringIn (array : Bytes) : Option Bytes :=
  if array.contains 0 then some (cBytes array) else none

/-- `readString` with its accesses checked. A read that comes short has still written. -/
def readStringIn (array input : Bytes) : Option (Option (Bytes × Bytes × Bytes)) :=
  if input.length < 2 then some none
  else
    let length := readWord (input.take 2)
    if 512 ≤ length then some none
    else
      let data := (input.drop 2).take length
      (store array 0 data).bind fun array =>
        if data.length ≠ length then some none
        else
          (store array (length + 1) [0]).bind fun array =>
            (cStringIn array).map fun s => some (s, array, (input.drop 2).drop length)

theorem readStringIn_rest_lt {array input s array' rest : Bytes}
    (h : readStringIn array input = some (some (s, array', rest))) :
    rest.length < input.length := by
  unfold readStringIn at h
  dsimp only at h
  split_ifs at h with hlen hlong hshort
  · cases h
  · cases h
  · obtain ⟨array₁, -, h⟩ := Option.bind_eq_some_iff.mp h
    cases h
  · obtain ⟨array₁, -, h⟩ := Option.bind_eq_some_iff.mp h
    obtain ⟨array₂, -, h⟩ := Option.bind_eq_some_iff.mp h
    obtain ⟨s', -, h⟩ := Option.map_eq_some_iff.mp h
    simp only [Option.some.injEq, Prod.mk.injEq] at h
    rw [← h.2.2, List.length_drop, List.length_drop]
    omega

/-- `loadRecords` with its accesses checked. -/
def loadRecordsIn (array input : Bytes) (values : OrderedMap Bytes Bytes) :
    Option (OrderedMap Bytes Bytes) :=
  match _h : readStringIn array input with
  | none => none
  | some none => some values
  | some (some (name, array, input')) =>
    match _h' : readStringIn array input' with
    | none => none
    | some none => some values
    | some (some (value, array, rest)) => loadRecordsIn array rest (values.insert name value)
termination_by input.length
decreasing_by exact (readStringIn_rest_lt _h').trans (readStringIn_rest_lt _h)

/-! ### Accesses -/

section
variable {array input : Bytes}

theorem store_eq {i : ℕ} {bytes : Bytes} (h : i + bytes.length ≤ array.length) :
    store array i bytes = some (array.take i ++ bytes ++ array.drop (i + bytes.length)) :=
  if_pos h

theorem store_zero {i : ℕ} (h : i < array.length) : store array i [0] = some (array.set i 0) := by
  rw [store_eq (by rw [List.length_singleton]; omega), List.set_eq_take_append_cons_drop, if_pos h,
    List.append_assoc]
  rfl

theorem cStringIn_set {i : ℕ} (h : i < array.length) :
    cStringIn (array.set i 0) = some (cBytes (array.set i 0)) := by
  rw [cStringIn, if_pos]
  rw [List.contains_iff_mem]
  exact List.mem_set h 0

theorem readString_array_length {s array' rest : Bytes} (hsize : array.length = arraySize)
    (h : readString array input = some (s, array', rest)) : array'.length = arraySize := by
  unfold readString at h
  dsimp only at h
  split_ifs at h with hlen hlong hshort
  simp only [Option.some.injEq, Prod.mk.injEq] at h
  rw [← h.2.1, List.length_set, List.length_append, List.length_drop, not_not.mp hshort, hsize]
  unfold arraySize
  omega

/-- A string is shorter than 512 bytes, so the byte behind the next one is still in the array. -/
theorem readStringIn_eq (hsize : array.length = arraySize) :
    readStringIn array input = some (readString array input) := by
  unfold readStringIn readString
  dsimp only
  split_ifs with hlen hlong hshort
  · rfl
  · rfl
  · rw [store_eq, Option.bind_some]
    rw [hsize, List.length_take]
    unfold arraySize
    omega
  · have hdata := not_not.mp hshort
    rw [store_eq, Option.bind_some, List.take_zero, List.nil_append, Nat.zero_add, hdata]
    · have hfilled : (List.take (readWord (input.take 2)) (input.drop 2) ++
          array.drop (readWord (input.take 2))).length = arraySize := by
        rw [List.length_append, List.length_drop, hdata, hsize]
        unfold arraySize
        omega
      have hin : readWord (input.take 2) + 1 < arraySize := by
        unfold arraySize
        omega
      rw [store_zero (hfilled ▸ hin), Option.bind_some, cStringIn_set (hfilled ▸ hin),
        Option.map_some]
    · rw [hdata, hsize]
      unfold arraySize
      omega

/-- No access leaves the array, whatever the file holds. -/
theorem loadRecordsIn_eq (hsize : array.length = arraySize) (values : OrderedMap Bytes Bytes) :
    loadRecordsIn array input values = some (loadRecords array input values) := by
  fun_induction loadRecords array input values with
  | case1 array input values hname =>
    rw [loadRecordsIn]
    split
    · rename_i heq
      rw [readStringIn_eq hsize] at heq
      cases heq
    · rfl
    · rename_i heq
      rw [readStringIn_eq hsize, hname] at heq
      cases heq
  | case2 array input values name array' input' hname hvalue =>
    have hsize' := readString_array_length hsize hname
    rw [loadRecordsIn]
    split
    · rename_i heq
      rw [readStringIn_eq hsize] at heq
      cases heq
    · rfl
    · rename_i heq
      rw [readStringIn_eq hsize, hname] at heq
      cases heq
      split
      · rename_i heq
        rw [readStringIn_eq hsize'] at heq
        cases heq
      · rfl
      · rename_i heq
        rw [readStringIn_eq hsize', hvalue] at heq
        cases heq
  | case3 array input values name array' input' hname value array'' rest hvalue ih =>
    have hsize' := readString_array_length hsize hname
    rw [loadRecordsIn]
    split
    · rename_i heq
      rw [readStringIn_eq hsize] at heq
      cases heq
    · rename_i heq
      rw [readStringIn_eq hsize, hname] at heq
      cases heq
    · rename_i heq
      rw [readStringIn_eq hsize, hname] at heq
      cases heq
      split
      · rename_i heq
        rw [readStringIn_eq hsize'] at heq
        cases heq
      · rename_i heq
        rw [readStringIn_eq hsize', hvalue] at heq
        cases heq
      · rename_i heq
        rw [readStringIn_eq hsize', hvalue] at heq
        cases heq
        exact ih (readString_array_length hsize' hvalue)

end

/-! ### Records -/

/-- The bytes of a string in the file, and what is behind it. -/
def fieldOf (input : Bytes) : Option (Bytes × Bytes) :=
  if input.length < 2 then none
  else
    let length := readWord (input.take 2)
    let data := (input.drop 2).take length
    if 512 ≤ length then none
    else if data.length ≠ length then none
    else some (data, (input.drop 2).drop length)

/-- What a string leaves in the array. -/
def fill (array data : Bytes) : Bytes :=
  (data ++ array.drop data.length).set (data.length + 1) 0

theorem fieldOf_length {input data rest : Bytes} (h : fieldOf input = some (data, rest)) :
    data.length < 512 ∧ rest.length < input.length := by
  unfold fieldOf at h
  dsimp only at h
  split_ifs at h with hlen hlong hshort
  simp only [Option.some.injEq, Prod.mk.injEq] at h
  rw [← h.1, not_not.mp hshort, ← h.2, List.length_drop, List.length_drop]
  omega

theorem readString_eq (array input : Bytes) : readString array input =
    (fieldOf input).map fun e => (cBytes (fill array e.1), fill array e.1, e.2) := by
  unfold readString fieldOf
  dsimp only
  split_ifs with hlen hlong hshort
  · rfl
  · rfl
  · rfl
  · rw [Option.map_some, fill, not_not.mp hshort]

/-- The records of a file: a name and a value each, as the file has them. -/
def recordsOf (input : Bytes) : List (Bytes × Bytes) :=
  match _h : fieldOf input with
  | none => []
  | some (name, input') =>
    match _h' : fieldOf input' with
    | none => []
    | some (value, rest) => (name, value) :: recordsOf rest
termination_by input.length
decreasing_by exact (fieldOf_length _h').2.trans (fieldOf_length _h).2

/-- What the loader stores for each record, from what the array holds before the first one. -/
def storedPairs : Bytes → List (Bytes × Bytes) → List (Bytes × Bytes)
  | _, [] => []
  | array, (name, value) :: records =>
    (cBytes (fill array name), cBytes (fill (fill array name) value)) ::
      storedPairs (fill (fill array name) value) records

theorem recordsOf_cons {input input' rest name value : Bytes}
    (h : fieldOf input = some (name, input')) (h' : fieldOf input' = some (value, rest)) :
    recordsOf input = (name, value) :: recordsOf rest := by
  rw [recordsOf]
  split
  · rename_i heq
    rw [h] at heq
    cases heq
  · rename_i heq
    rw [h] at heq
    cases heq
    split
    · rename_i heq
      rw [h'] at heq
      cases heq
    · rename_i heq
      rw [h'] at heq
      cases heq
      rfl

theorem recordsOf_nil {input : Bytes}
    (h : ∀ name input', fieldOf input = some (name, input') → fieldOf input' = none) :
    recordsOf input = [] := by
  rw [recordsOf]
  split
  · rfl
  · rename_i name input' heq
    split
    · rfl
    · rename_i heq'
      rw [h _ _ heq] at heq'
      cases heq'

/-- The loader puts one pair after another into the map. -/
theorem loadRecords_eq (array input : Bytes) (values : OrderedMap Bytes Bytes) :
    loadRecords array input values =
      (storedPairs array (recordsOf input)).foldl (fun m e => m.insert e.1 e.2) values := by
  fun_induction loadRecords array input values with
  | case1 array input values hname =>
    rw [readString_eq, Option.map_eq_none_iff] at hname
    rw [recordsOf_nil fun name input' h => by rw [hname] at h; cases h]
    rfl
  | case2 array input values name array' input' hname hvalue =>
    rw [readString_eq] at hname
    obtain ⟨⟨data, rest⟩, hfield, heq⟩ := Option.map_eq_some_iff.mp hname
    cases heq
    rw [readString_eq, Option.map_eq_none_iff] at hvalue
    rw [recordsOf_nil fun name input' h => by rw [hfield] at h; cases h; exact hvalue]
    rfl
  | case3 array input values name array' input' hname value array'' rest hvalue ih =>
    rw [readString_eq] at hname
    obtain ⟨⟨data, middle⟩, hfield, heq⟩ := Option.map_eq_some_iff.mp hname
    cases heq
    rw [readString_eq] at hvalue
    obtain ⟨⟨data', middle'⟩, hfield', heq⟩ := Option.map_eq_some_iff.mp hvalue
    cases heq
    rw [ih, recordsOf_cons hfield hfield']
    rfl

/-- The bytes of a record. -/
structure SettingsRecord where
  name : Bytes
  value : Bytes
  name_lt : name.length < 512
  value_lt : value.length < 512

def fieldBytes (data : Bytes) : Bytes := wordField 2 data.length ++ data

theorem fieldOf_fieldBytes {data : Bytes} (h : data.length < 512) (rest : Bytes) :
    fieldOf (fieldBytes data ++ rest) = some (data, rest) := by
  have htake : (fieldBytes data ++ rest).take 2 = wordField 2 data.length := by
    rw [fieldBytes, List.append_assoc]
    exact List.take_left' (wordField_length 2 _)
  have hdrop : (fieldBytes data ++ rest).drop 2 = data ++ rest := by
    rw [fieldBytes, List.append_assoc]
    exact List.drop_left' (wordField_length 2 _)
  have hword : readWord (wordField 2 data.length) = data.length := by
    rw [readWord_wordField]
    exact Nat.mod_eq_of_lt (by omega)
  have hlen : ¬(fieldBytes data ++ rest).length < 2 := by
    rw [List.length_append, fieldBytes, List.length_append, wordField_length]
    omega
  unfold fieldOf
  dsimp only
  rw [if_neg hlen, htake, hword, hdrop, List.take_left, List.drop_left, if_neg (by omega),
    if_neg (not_not_intro rfl)]

namespace SettingsRecord

variable (r : SettingsRecord)

/-- The record as a file of its own. -/
def bytes : Bytes := fieldBytes r.name ++ fieldBytes r.value

theorem recordsOf_bytes : recordsOf r.bytes = [(r.name, r.value)] := by
  have hvalue := fieldOf_fieldBytes r.value_lt []
  rw [List.append_nil] at hvalue
  rw [bytes, recordsOf_cons (fieldOf_fieldBytes r.name_lt _) hvalue, recordsOf_nil]
  intro name input' h
  cases h

/-- The bytes behind the two strings, where the loader leaves `array` as it is, do not count: each
string has a NUL of its own, or ends where the one before it or its terminator still stands. -/
def Determined : Prop :=
  0 ∈ r.name ∧ (0 ∈ r.value ∨ r.value.length < r.name.length ∨
    r.value.length = r.name.length + 1)

end SettingsRecord

theorem fill_length {array data : Bytes} (hsize : array.length = arraySize)
    (h : data.length < 512) : (fill array data).length = arraySize := by
  rw [fill, List.length_set, List.length_append, List.length_drop, hsize]
  unfold arraySize
  omega

/-- The byte behind a string is the one that the array held. -/
theorem fill_eq {array data : Bytes} (hsize : array.length = arraySize) (h : data.length < 512) :
    fill array data =
      data ++ array.getD data.length 0 :: 0 :: array.drop (data.length + 2) := by
  have hlt : data.length + 1 < array.length := by
    rw [hsize]
    unfold arraySize
    omega
  have hdrop : array.drop data.length =
      array.getD data.length 0 :: array[data.length + 1] :: array.drop (data.length + 2) := by
    rw [List.drop_eq_getElem_cons (by omega), List.drop_eq_getElem_cons hlt,
      List.getD_eq_getElem _ _ (by omega)]
  rw [fill, hdrop, List.set_append_right _ _ (Nat.le_succ _), Nat.succ_sub (le_refl _),
    Nat.sub_self]
  rfl

theorem cBytes_append_of_mem {s : Bytes} (h : 0 ∈ s) (rest : Bytes) :
    cBytes (s ++ rest) = cBytes s := by
  rw [cBytes, List.takeWhile_append, if_neg]
  · rfl
  · intro hlen
    have hself := (List.takeWhile_sublist fun b : UInt8 => b != 0).eq_of_length hlen
    rw [← hself] at h
    exact absurd (List.mem_takeWhile_imp h) (by decide)

theorem cBytes_append_of_not_mem {s : Bytes} (h : 0 ∉ s) (rest : Bytes) :
    cBytes (s ++ rest) = s ++ cBytes rest := by
  refine List.takeWhile_append_of_pos fun b hb => bne_iff_ne.mpr ?_
  rintro rfl
  exact h hb

/-- Which string a field becomes depends on one byte of the array at most. -/
theorem cBytes_fill {array data : Bytes} (hsize : array.length = arraySize)
    (h : data.length < 512) :
    cBytes (fill array data) = cBytes (data ++ [array.getD data.length 0]) := by
  rw [fill_eq hsize h]
  by_cases hzero : (0 : UInt8) ∈ data
  · rw [cBytes_append_of_mem hzero, cBytes_append_of_mem hzero]
  · rw [cBytes_append_of_not_mem hzero, cBytes_append_of_not_mem hzero]
    generalize array.getD data.length 0 = b
    by_cases hb : b = 0
    · rw [hb]
      rfl
    · simp [cBytes, hb]

section
variable {array array' : Bytes} {r : SettingsRecord}

/-- What is behind a string in the array once another one has been read before it. -/
theorem getD_fill {data : Bytes} (hsize : array.length = arraySize) (h : data.length < 512)
    (i : ℕ) : (fill array data).getD i 0 =
      if i < data.length then data.getD i 0
      else if i = data.length + 1 then 0 else array.getD i 0 := by
  have hlt : data.length + 1 < array.length := by
    rw [hsize]
    unfold arraySize
    omega
  rw [fill]
  split_ifs with hi hnul
  · rw [List.getD_eq_getElem?_getD, List.getElem?_set_ne (by omega), List.getElem?_append_left hi,
      ← List.getD_eq_getElem?_getD]
  · subst hnul
    rw [List.getD_eq_getElem?_getD, List.getElem?_set_self, Option.getD_some]
    rw [List.length_append, List.length_drop]
    omega
  · rw [List.getD_eq_getElem?_getD, List.getElem?_set_ne (by omega),
      List.getElem?_append_right (by omega), List.getElem?_drop, List.getD_eq_getElem?_getD,
      Nat.add_sub_cancel' (by omega)]

/-- The pair that is stored for a record. -/
def storedPair (array : Bytes) (e : Bytes × Bytes) : Bytes × Bytes :=
  (cBytes (fill array e.1), cBytes (fill (fill array e.1) e.2))

theorem SettingsRecord.Determined.storedPair_eq (h : r.Determined)
    (hsize : array.length = arraySize) (hsize' : array'.length = arraySize) :
    storedPair array (r.name, r.value) = storedPair array' (r.name, r.value) := by
  obtain ⟨hname, hvalue⟩ := h
  rw [storedPair, storedPair, cBytes_fill hsize r.name_lt, cBytes_fill hsize' r.name_lt,
    cBytes_append_of_mem hname, cBytes_append_of_mem hname,
    cBytes_fill (fill_length hsize r.name_lt) r.value_lt,
    cBytes_fill (fill_length hsize' r.name_lt) r.value_lt, getD_fill hsize r.name_lt,
    getD_fill hsize' r.name_lt]
  obtain hzero | hlt | hnext := hvalue
  · rw [cBytes_append_of_mem hzero, cBytes_append_of_mem hzero]
  · rw [if_pos hlt, if_pos hlt]
  · rw [if_neg (by omega), if_pos hnext, if_neg (by omega), if_pos hnext]

theorem storedPairs_getElem? {records : List (Bytes × Bytes)} (hsize : array.length = arraySize)
    (hshort : ∀ e ∈ records, e.1.length < 512 ∧ e.2.length < 512) {i : ℕ} {e : Bytes × Bytes}
    (he : records[i]? = some e) : ∃ array', array'.length = arraySize ∧
      (storedPairs array records)[i]? = some (storedPair array' e) := by
  induction records generalizing array i with
  | nil => cases he
  | cons d records ih =>
    obtain ⟨name, value⟩ := d
    obtain ⟨hname, hvalue⟩ := hshort _ List.mem_cons_self
    cases i with
    | zero =>
      cases he
      exact ⟨array, hsize, rfl⟩
    | succ i =>
      exact ih (fill_length (fill_length hsize hname) hvalue)
        (fun d hd => hshort d (List.mem_cons_of_mem _ hd)) he

theorem mem_recordsOf {input : Bytes} {e : Bytes × Bytes} (h : e ∈ recordsOf input) :
    e.1.length < 512 ∧ e.2.length < 512 := by
  fun_induction recordsOf input with
  | case1 => exact absurd h List.not_mem_nil
  | case2 => exact absurd h List.not_mem_nil
  | case3 input name input' hname value rest hvalue ih =>
    obtain rfl | h := List.mem_cons.mp h
    · exact ⟨(fieldOf_length hname).1, (fieldOf_length hvalue).1⟩
    · exact ih h

end

namespace InfoManager

variable (m : InfoManager)

/-- The records of a file, behind a version that is the manager's. -/
def recordBytes (content : Bytes) : Bytes :=
  if m.fileVersion = 0 then content
  else if content.length < 4 then []
  else if readWord (content.take 4) ≠ m.fileVersion.toUInt32.toNat then []
  else content.drop 4

/-- The pairs that `LoadValues` puts into the map, one after another. -/
def loadedPairs (stale content : Bytes) : List (Bytes × Bytes) :=
  storedPairs stale (recordsOf (m.recordBytes content))

/-- Two files with the record at the same place give the same pair for it. -/
def LoadsAlike (r : SettingsRecord) : Prop :=
  ∀ (m : InfoManager) (stale stale' content content' : Bytes) (i : ℕ),
    stale.length = arraySize → stale'.length = arraySize →
    (recordsOf (m.recordBytes content))[i]? = some (r.name, r.value) →
    (recordsOf (m.recordBytes content'))[i]? = some (r.name, r.value) →
    (m.loadedPairs stale content)[i]? = (m.loadedPairs stale' content')[i]?

/-- Loading ends, and stays inside of the array. -/
def LoadsInside : Prop :=
  ∀ (m : InfoManager) (stale content : Bytes), stale.length = arraySize →
    loadRecordsIn stale (m.recordBytes content) m.mValues =
      some ((m.loadedPairs stale content).foldl (fun m e => m.insert e.1 e.2) m.mValues)

theorem loadsInside : LoadsInside := by
  intro m stale content hsize
  rw [loadRecordsIn_eq hsize, loadRecords_eq]
  rfl

theorem LoadsAlike.of_determined {r : SettingsRecord} (h : r.Determined) : LoadsAlike r := by
  intro m stale stale' content content' i hsize hsize' hr hr'
  obtain ⟨array, harray, hpair⟩ := storedPairs_getElem? hsize (fun e => mem_recordsOf) hr
  obtain ⟨array', harray', hpair'⟩ := storedPairs_getElem? hsize' (fun e => mem_recordsOf) hr'
  rw [loadedPairs, loadedPairs, hpair, hpair', h.storedPair_eq harray harray']

/-- A manager without a version, and the record as its file. -/
theorem LoadsAlike.storedPair_eq {r : SettingsRecord} (h : LoadsAlike r) {stale stale' : Bytes}
    (hsize : stale.length = arraySize) (hsize' : stale'.length = arraySize) :
    storedPair stale (r.name, r.value) = storedPair stale' (r.name, r.value) := by
  have hrecords : recordsOf ((fresh [] 0 false).recordBytes r.bytes) = [(r.name, r.value)] := by
    rw [recordBytes, if_pos (show (fresh [] 0 false).fileVersion = 0 from rfl), r.recordsOf_bytes]
  have hpairs := h (fresh [] 0 false) stale stale' r.bytes r.bytes 0 hsize hsize'
    (by rw [hrecords]; rfl) (by rw [hrecords]; rfl)
  rw [loadedPairs, loadedPairs, hrecords] at hpairs
  exact Option.some.inj hpairs

/-- An array of zeros and one of ones show the difference. -/
theorem LoadsAlike.determined {r : SettingsRecord} (h : LoadsAlike r) : r.Determined := by
  have hzeros : (List.replicate arraySize (0 : UInt8)).length = arraySize := List.length_replicate
  have hones : (List.replicate arraySize (1 : UInt8)).length = arraySize := List.length_replicate
  have hbyte :
      ∀ {i : ℕ} {b : UInt8}, i < arraySize → (List.replicate arraySize b).getD i 0 = b := by
    intro i b hi
    rw [List.getD_eq_getElem _ _ (by rwa [List.length_replicate]), List.getElem_replicate]
  have hpair := h.storedPair_eq hzeros hones
  obtain ⟨hname, hvalue⟩ := Prod.mk.inj hpair
  dsimp only at hname hvalue
  have hlt := r.name_lt
  have hlt' := r.value_lt
  constructor
  · by_contra hzero
    rw [cBytes_fill hzeros hlt, cBytes_fill hones hlt, cBytes_append_of_not_mem hzero,
      cBytes_append_of_not_mem hzero, hbyte (by unfold arraySize; omega),
      hbyte (by unfold arraySize; omega)] at hname
    exact absurd (List.append_cancel_left hname) (by decide)
  · by_contra hother
    rw [not_or, not_or] at hother
    obtain ⟨hzero, hle, hne⟩ := hother
    rw [cBytes_fill (fill_length hzeros hlt) hlt', cBytes_fill (fill_length hones hlt) hlt',
      cBytes_append_of_not_mem hzero, cBytes_append_of_not_mem hzero, getD_fill hzeros hlt,
      getD_fill hones hlt, if_neg hle, if_neg hne, if_neg hle, if_neg hne,
      hbyte (by unfold arraySize; omega), hbyte (by unfold arraySize; omega)] at hvalue
    exact absurd (List.append_cancel_left hvalue) (by decide)

/-- Loading ends inside of its array for every file, and what it stores for a record depends on
the record alone when, and only when, the record says where its strings end. -/
theorem loadValues_records_iff (r : SettingsRecord) :
    LoadsInside ∧ (LoadsAlike r ↔ r.Determined) :=
  ⟨loadsInside, LoadsAlike.determined, LoadsAlike.of_determined⟩

/-- The name `a` with the value `b`, both without a NUL. -/
def bareRecord : SettingsRecord := ⟨[97], [98], by decide, by decide⟩

theorem not_loadsAlike : ¬(LoadsInside ∧ ∀ r : SettingsRecord, LoadsAlike r) := by
  rintro ⟨-, hall⟩
  have hzeros : (List.replicate arraySize (0 : UInt8)).length = arraySize := List.length_replicate
  have hones : (List.replicate arraySize (1 : UInt8)).length = arraySize := List.length_replicate
  have hpair := (hall bareRecord).storedPair_eq hzeros hones
  revert hpair
  decide +kernel

end InfoManager

end BootableRecovery.Twrp
