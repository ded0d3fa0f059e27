import Mathlib

namespace BootableRecovery.Lib

/-! `std::map`: entries in the order of their keys, one for each key. -/

instance linearOrderUInt8 : LinearOrder UInt8 where
  le_refl _ := UInt8.le_refl _
  le_trans _ _ _ := UInt8.le_trans
  le_antisymm _ _ := UInt8.le_antisymm
  le_total := UInt8.le_total
  lt_iff_le_not_ge a b := by
    rw [UInt8.lt_iff_toNat_lt, UInt8.le_iff_toNat_le, UInt8.le_iff_toNat_le]
    omega
  toDecidableLE := inferInstance

instance linearOrderUInt32 : LinearOrder UInt32 where
  le_refl _ := UInt32.le_refl _
  le_trans _ _ _ := UInt32.le_trans
  le_antisymm _ _ := UInt32.le_antisymm
  le_total := UInt32.le_total
  lt_iff_le_not_ge a b := by
    rw [UInt32.lt_iff_toNat_lt, UInt32.le_iff_toNat_le, UInt32.le_iff_toNat_le]
    omega
  toDecidableLE := inferInstance

instance linearOrderInt32 : LinearOrder Int32 where
  le_refl _ := Int32.le_refl _
  le_trans _ _ _ := Int32.le_trans
  le_antisymm _ _ := Int32.le_antisymm
  le_total := Int32.le_total
  lt_iff_le_not_ge a b := by
    rw [Int32.lt_iff_toInt_lt, Int32.le_iff_toInt_le, Int32.le_iff_toInt_le]
    omega
  toDecidableLE := inferInstance

variable {κ ν : Type} [LinearOrder κ]

structure OrderedMap (κ ν : Type) [LinearOrder κ] where
  entries : List (κ × ν)
  sorted : entries.Pairwise fun a b => a.1 < b.1

def findEntry (k : κ) : List (κ × ν) → Option ν
  | [] => none
  | e :: rest => if e.1 = k then some e.2 else findEntry k rest

/-- One pass: before the first greater key, or over the entry of the key. -/
def insertEntry (k : κ) (v : ν) : List (κ × ν) → List (κ × ν)
  | [] => [(k, v)]
  | e :: rest =>
    if k < e.1 then (k, v) :: e :: rest
    else if k = e.1 then (k, v) :: rest
    else e :: insertEntry k v rest

theorem mem_insertEntry {k : κ} {v : ν} {e : κ × ν} {l : List (κ × ν)}
    (h : e ∈ insertEntry k v l) : e = (k, v) ∨ e ∈ l := by
  induction l with
  | nil => exact Or.inl (List.mem_singleton.mp h)
  | cons d l ih =>
    rw [insertEntry] at h
    grind

theorem insertEntry_sorted (k : κ) (v : ν) {l : List (κ × ν)}
    (h : l.Pairwise fun a b => a.1 < b.1) :
    (insertEntry k v l).Pairwise fun a b => a.1 < b.1 := by
  induction l with
  | nil => exact List.pairwise_singleton _ _
  | cons d l ih =>
    have hd := List.pairwise_cons.mp h
    rw [insertEntry]
    by_cases hlt : k < d.1
    · rw [if_pos hlt]
      refine List.pairwise_cons.mpr ⟨?_, h⟩
      intro e he
      obtain rfl | he := List.mem_cons.mp he
      · exact hlt
      · exact hlt.trans (hd.1 e he)
    rw [if_neg hlt]
    by_cases heq : k = d.1
    · rw [if_pos heq, heq]
      exact List.pairwise_cons.mpr hd
    · rw [if_neg heq]
      refine List.pairwise_cons.mpr ⟨?_, ih hd.2⟩
      intro e he
      obtain rfl | he := mem_insertEntry he
      · exact lt_of_le_of_ne (not_lt.mp hlt) (Ne.symm heq)
      · exact hd.1 e he

theorem findEntry_insertEntry_self (k : κ) (v : ν) (l : List (κ × ν)) :
    findEntry k (insertEntry k v l) = some v := by
  induction l with
  | nil => exact if_pos rfl
  | cons d l ih =>
    rw [insertEntry]
    by_cases hlt : k < d.1
    · rw [if_pos hlt]
      exact if_pos rfl
    rw [if_neg hlt]
    by_cases heq : k = d.1
    · rw [if_pos heq]
      exact if_pos rfl
    · rw [if_neg heq, findEntry, if_neg (Ne.symm heq), ih]

theorem findEntry_insertEntry_of_ne {k k' : κ} (h : k' ≠ k) (v : ν) (l : List (κ × ν)) :
    findEntry k' (insertEntry k v l) = findEntry k' l := by
  induction l with
  | nil => exact if_neg (Ne.symm h)
  | cons d l ih =>
    rw [insertEntry]
    by_cases hlt : k < d.1
    · rw [if_pos hlt, findEntry, if_neg (Ne.symm h)]
    rw [if_neg hlt]
    by_cases heq : k = d.1
    · rw [if_pos heq, findEntry, findEntry, if_neg (Ne.symm h), if_neg (heq ▸ Ne.symm h)]
    · rw [if_neg heq, findEntry, findEntry, ih]

theorem mem_of_findEntry {k : κ} {v : ν} {l : List (κ × ν)} (h : findEntry k l = some v) :
    (k, v) ∈ l := by
  induction l with
  | nil => exact absurd h (Option.some_ne_none v).symm
  | cons d l ih =>
    rw [findEntry] at h
    by_cases hk : d.1 = k
    · rw [if_pos hk, Option.some.injEq] at h
      rw [← hk, ← h]
      exact List.mem_cons_self
    · rw [if_neg hk] at h
      exact List.mem_cons_of_mem _ (ih h)

theorem findEntry_of_mem {k : κ} {v : ν} {l : List (κ × ν)}
    (hl : l.Pairwise fun a b => a.1 < b.1) (h : (k, v) ∈ l) : findEntry k l = some v := by
  induction l with
  | nil => exact absurd h List.not_mem_nil
  | cons d l ih =>
    have hd := List.pairwise_cons.mp hl
    rw [findEntry]
    obtain rfl | h := List.mem_cons.mp h
    · exact if_pos rfl
    · rw [if_neg (ne_of_lt (hd.1 _ h)), ih hd.2 h]

/-- A sorted list is what inserting its entries in any earlier map ends with, at its end. -/
theorem insertEntry_append {k : κ} {v : ν} {l : List (κ × ν)} (h : ∀ e ∈ l, e.1 < k) :
    insertEntry k v l = l ++ [(k, v)] := by
  induction l with
  | nil => rfl
  | cons d l ih =>
    have hd := h d List.mem_cons_self
    rw [insertEntry, if_neg (lt_asymm hd), if_neg (ne_of_gt hd),
      ih fun e he => h e (List.mem_cons_of_mem _ he), List.cons_append]

theorem findEntry_filter_self (k : κ) (l : List (κ × ν)) :
    findEntry k (l.filter fun e => e.1 ≠ k) = none := by
  induction l with
  | nil => rfl
  | cons d l ih =>
    rw [List.filter_cons]
    split_ifs with hk
    · rw [findEntry, if_neg (of_decide_eq_true hk), ih]
    · exact ih

theorem findEntry_filter_of_ne {k k' : κ} (h : k' ≠ k) (l : List (κ × ν)) :
    findEntry k' (l.filter fun e => e.1 ≠ k) = findEntry k' l := by
  induction l with
  | nil => rfl
  | cons d l ih =>
    rw [List.filter_cons, findEntry]
    split_ifs with hk hk' hk'
    · rw [findEntry, if_pos hk']
    · rw [findEntry, if_neg hk', ih]
    · exact absurd (decide_eq_true (hk' ▸ h)) hk
    · exact ih

namespace OrderedMap

variable (m : OrderedMap κ ν)

def empty : OrderedMap κ ν := ⟨[], List.Pairwise.nil⟩

def find? (k : κ) : Option ν := findEntry k m.entries

def insert (k : κ) (v : ν) : OrderedMap κ ν :=
  ⟨insertEntry k v m.entries, insertEntry_sorted k v m.sorted⟩

def erase (k : κ) : OrderedMap κ ν := ⟨m.entries.filter fun e => e.1 ≠ k, m.sorted.filter _⟩

def ofEntries (es : List (κ × ν)) : OrderedMap κ ν :=
  es.foldl (fun m e => m.insert e.1 e.2) empty

@[simp] theorem find?_empty (k : κ) : (empty : OrderedMap κ ν).find? k = none := rfl

@[simp] theorem find?_insert_self (k : κ) (v : ν) : (m.insert k v).find? k = some v :=
  findEntry_insertEntry_self k v m.entries

theorem find?_insert_of_ne {k k' : κ} (h : k' ≠ k) (v : ν) :
    (m.insert k v).find? k' = m.find? k' :=
  findEntry_insertEntry_of_ne h v m.entries

theorem find?_insert (k k' : κ) (v : ν) :
    (m.insert k v).find? k' = if k' = k then some v else m.find? k' := by
  split_ifs with h
  · rw [h, find?_insert_self]
  · exact find?_insert_of_ne m h v

@[simp] theorem find?_erase_self (k : κ) : (m.erase k).find? k = none :=
  findEntry_filter_self k m.entries

theorem find?_erase_of_ne {k k' : κ} (h : k' ≠ k) : (m.erase k).find? k' = m.find? k' :=
  findEntry_filter_of_ne h m.entries

theorem find?_erase (k k' : κ) :
    (m.erase k).find? k' = if k' = k then none else m.find? k' := by
  split_ifs with h
  · rw [h, find?_erase_self]
  · exact find?_erase_of_ne m h

theorem mem_entries_iff {k : κ} {v : ν} : (k, v) ∈ m.entries ↔ m.find? k = some v :=
  ⟨findEntry_of_mem m.sorted, mem_of_findEntry⟩

theorem ext_entries {m n : OrderedMap κ ν} (h : m.entries = n.entries) : m = n := by
  cases m
  cases n
  congr

/-- Inserting sorted entries one after another gives the map of these entries. -/
theorem ofEntries_entries {es : List (κ × ν)} (h : es.Pairwise fun a b => a.1 < b.1) :
    (ofEntries es).entries = es := by
  induction es using List.reverseRecOn with
  | nil => rfl
  | append_singleton es e ih =>
    have hes := List.pairwise_append.mp h
    rw [ofEntries, List.foldl_append]
    change insertEntry e.1 e.2 (ofEntries es).entries = es ++ [e]
    rw [ih hes.1, insertEntry_append]
    intro d hd
    exact hes.2.2 d hd e (List.mem_singleton_self e)

end OrderedMap

end BootableRecovery.Lib
