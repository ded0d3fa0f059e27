import BootableRecovery.Adbbu.AdbStream
import BootableRecovery.Lib.OrderedMap
import BootableRecovery.Twrp.Files

namespace BootableRecovery.Twrp
open Lib
open Adbbu (Bytes wordField readWord wordField_length readWord_wordField)

/-! `InfoManager`: settings in a map, and the file they are saved to. -/

structure InfoManager where
  file : Text
  mValues : OrderedMap Bytes Bytes
  fileVersion : Int32
  isConst : Bool

/-- Names that `SetValue` takes. -/
def nameAllowed : Bytes → Bool
  | [] => false
  | c :: _ => !(48 ≤ c && c ≤ 57)

/-- What a C string function sees of a buffer. -/
def cBytes (buffer : Bytes) : Bytes := buffer.takeWhile fun b => b != 0

/-- A length with its terminator, as an `unsigned short`. -/
def storedLength (s : Bytes) : ℕ := (s.length % 65536 + 1) % 65536

def writeString (s : Bytes) : Bytes :=
  wordField 2 (storedLength s) ++ (s ++ [0]).take (storedLength s)

def writeRecord (e : Bytes × Bytes) : Bytes := writeString e.1 ++ writeString e.2

/-- One length, that many bytes into `array`, and a terminator behind the byte that follows them.
The string, the array and what is left of the file. -/
def readString (array input : Bytes) : Option (Bytes × Bytes × Bytes) :=
  if input.length < 2 then none
  else
    let length := readWord (input.take 2)
    let data := (input.drop 2).take length
    if 512 ≤ length then none
    else if data.length ≠ length then none
    else
      let array := (data ++ array.drop length).set (length + 1) 0
      some (cBytes array, array, (input.drop 2).drop length)

theorem readString_rest_lt {array input s array' rest : Bytes}
    (h : readString array input = some (s, array', rest)) : rest.length < input.length := by
  unfold readString at h
  dsimp only at h
  split_ifs at h with hlen
  simp only [Option.some.injEq, Prod.mk.injEq] at h
  rw [← h.2.2, List.length_drop, List.length_drop]
  omega

/-- The loop of `LoadValues`, which ends where a record cannot be read. -/
def loadRecords (array input : Bytes) (values : OrderedMap Bytes Bytes) :
    OrderedMap Bytes Bytes :=
  match _h : readString array input with
  | none => values
  | some (name, array, input') =>
    match _h' : readString array input' with
    | none => values
    | some (value, array, rest) => loadRecords array rest (values.insert name value)
termination_by input.length
decreasing_by exact (readString_rest_lt _h').trans (readString_rest_lt _h)

namespace InfoManager

variable (m : InfoManager)

def fresh (file : Text) (version : Int32) (isConst : Bool) : InfoManager :=
  ⟨file, OrderedMap.empty, version, isConst⟩

def getValue (name : Bytes) : Option Bytes := m.mValues.find? name

def setValue (name value : Bytes) : InfoManager × ℤ :=
  if !nameAllowed name then (m, -1)
  else if m.mValues.find? name = none then
    ({ m with mValues := m.mValues.insert name value }, 0)
  else if !m.isConst then ({ m with mValues := m.mValues.insert name value }, 0)
  else (m, 0)

def versionField : Bytes :=
  if m.fileVersion = 0 then [] else wordField 4 m.fileVersion.toUInt32.toNat

def savedContent : Bytes := m.versionField ++ m.mValues.entries.flatMap writeRecord

/-- `writable` holds of the paths that can be opened for writing. -/
def saveValues (writable : Text → Bool) (fs : FileSystem Bytes) : FileSystem Bytes × ℤ :=
  if m.file = [] then (fs, -1)
  else if !writable m.file then (fs, -1)
  else (fs.write m.file m.savedContent, 0)

/-- `stale` is what the array holds before it is first read into. -/
def loadValues (stale : Bytes) (fs : FileSystem Bytes) : InfoManager × ℤ :=
  match fs m.file with
  | none => (m, -1)
  | some content =>
    if m.fileVersion = 0 then
      ({ m with mValues := loadRecords stale content m.mValues }, 0)
    else if content.length < 4 then (m, 0)
    else if readWord (content.take 4) ≠ m.fileVersion.toUInt32.toNat then (m, 0)
    else ({ m with mValues := loadRecords stale (content.drop 4) m.mValues }, 0)

/-- The manager after a sequence of calls to `SetValue`. -/
def setValues (calls : List (Bytes × Bytes)) : InfoManager :=
  calls.foldl (fun m c => (m.setValue c.1 c.2).1) m

/-- What one call can do to the map. -/
theorem setValue_cases (name value : Bytes) :
    (m.setValue name value).1 = m ∨
      (m.setValue name value).1 = { m with mValues := m.mValues.insert name value } := by
  unfold setValue
  split_ifs
  · exact Or.inl rfl
  · exact Or.inr rfl
  · exact Or.inr rfl
  · exact Or.inl rfl

theorem setValue_file (name value : Bytes) : (m.setValue name value).1.file = m.file := by
  obtain h | h := m.setValue_cases name value <;> rw [h]

theorem setValue_isConst (name value : Bytes) :
    (m.setValue name value).1.isConst = m.isConst := by
  obtain h | h := m.setValue_cases name value <;> rw [h]

theorem find?_setValue_of_ne {name k : Bytes} (h : k ≠ name) (value : Bytes) :
    (m.setValue name value).1.mValues.find? k = m.mValues.find? k := by
  obtain hcase | hcase := m.setValue_cases name value <;> rw [hcase]
  exact m.mValues.find?_insert_of_ne h value

theorem find?_setValue_self {name : Bytes} (hname : nameAllowed name = true)
    (hopen : m.isConst = false) (value : Bytes) :
    (m.setValue name value).1.mValues.find? name = some value := by
  rw [setValue, if_neg (by simp [hname])]
  split_ifs with hfind hconst
  · exact m.mValues.find?_insert_self name value
  · exact m.mValues.find?_insert_self name value
  · exact absurd (by simp [hopen]) hconst

/-- A constant manager keeps what it has. -/
theorem find?_setValue_const {k v : Bytes} (hconst : m.isConst = true)
    (h : m.mValues.find? k = some v) (name value : Bytes) :
    (m.setValue name value).1.mValues.find? k = some v := by
  by_cases hk : k = name
  · have hsame : (m.setValue name value).1 = m := by
      rw [setValue]
      split_ifs with hname hfind hopen
      · rfl
      · rw [← hk, h] at hfind
        exact absurd hfind (Option.some_ne_none v)
      · rw [hconst] at hopen
        exact absurd hopen (by decide)
      · rfl
    rw [hsame, h]
  · rw [m.find?_setValue_of_ne hk, h]

theorem setValues_file (calls : List (Bytes × Bytes)) : (m.setValues calls).file = m.file := by
  induction calls generalizing m with
  | nil => rfl
  | cons c calls ih => exact (ih _).trans (m.setValue_file c.1 c.2)

/-- Every entry comes from the start or from a call. -/
theorem mem_setValues {calls : List (Bytes × Bytes)} {e : Bytes × Bytes}
    (h : e ∈ (m.setValues calls).mValues.entries) : e ∈ m.mValues.entries ∨ e ∈ calls := by
  induction calls generalizing m with
  | nil => exact Or.inl h
  | cons c calls ih =>
    obtain hm | hc := ih _ h
    · change e ∈ (m.setValue c.1 c.2).1.mValues.entries at hm
      obtain hcase | hcase := m.setValue_cases c.1 c.2 <;> rw [hcase] at hm
      · exact Or.inl hm
      · obtain heq | hm := mem_insertEntry hm
        · exact Or.inr (heq ▸ List.mem_cons_self)
        · exact Or.inl hm
    · exact Or.inr (List.mem_cons_of_mem c hc)

end InfoManager

end BootableRecovery.Twrp
