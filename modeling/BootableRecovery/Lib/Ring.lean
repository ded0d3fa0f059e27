import Mathlib.Algebra.Group.Fin.Basic
import Mathlib.Data.List.Basic
import Mathlib.Tactic.Ring

namespace BootableRecovery.Lib

/-! A queue in a ring of `n` slots, one of which is always free: filled at `tail`, emptied at
`head`. -/

variable {n : ℕ} [NeZero n] {α : Type*}

/-- The number of slots in use. -/
def used (head tail : Fin n) : ℕ := (tail - head).val

omit [NeZero n] in
theorem used_lt (head tail : Fin n) : used head tail < n := (tail - head).isLt

theorem used_eq_zero {head tail : Fin n} : used head tail = 0 ↔ head = tail := by
  rw [used, Fin.val_eq_zero_iff, sub_eq_zero, eq_comm]

theorem used_self (head : Fin n) : used head head = 0 := used_eq_zero.mpr rfl

/-- The tail is `used` slots past the head. -/
theorem head_add_used (head tail : Fin n) : head + Fin.ofNat n (used head tail) = tail := by
  rw [used, Fin.ofNat_val_eq_self, add_sub_cancel]

theorem used_head_add (head : Fin n) {k : ℕ} (h : k < n) :
    used head (head + Fin.ofNat n k) = k := by
  rw [used, add_sub_cancel_left, Fin.val_ofNat, Nat.mod_eq_of_lt h]

theorem ofNat_succ (k : ℕ) : Fin.ofNat n (k + 1) = Fin.ofNat n k + 1 := by
  ext
  simp [Fin.val_add]

theorem used_push {head tail : Fin n} (h : tail + 1 ≠ head) :
    used head (tail + 1) = used head tail + 1 := by
  have hlt : used head tail + 1 < n := by
    by_contra hge
    have hn : used head tail + 1 = n := by have := used_lt head tail; omega
    apply h
    rw [← head_add_used head tail, add_assoc, ← ofNat_succ, hn]
    simp [Fin.ofNat]
  rw [← used_head_add head hlt, ofNat_succ, ← add_assoc, head_add_used]

theorem used_pop {head tail : Fin n} (h : head ≠ tail) :
    used head tail = used (head + 1) tail + 1 := by
  obtain ⟨k, hk⟩ := Nat.exists_eq_succ_of_ne_zero fun h0 => h (used_eq_zero.mp h0)
  have hlt := used_lt head tail
  have htail : tail = head + 1 + Fin.ofNat n k := by
    rw [← head_add_used head tail, hk, Nat.succ_eq_add_one, ofNat_succ, add_right_comm, add_assoc]
  have : used (head + 1) tail = k := by
    rw [htail]
    exact used_head_add _ (by omega)
  omega

/-- What is queued, the oldest first. -/
def contents (slots : Fin n → α) (head tail : Fin n) : List α :=
  (List.range (used head tail)).map fun i => slots (head + Fin.ofNat n i)

@[simp] theorem contents_length (slots : Fin n → α) (head tail : Fin n) :
    (contents slots head tail).length = used head tail := by
  simp [contents]

theorem contents_self (slots : Fin n → α) (head : Fin n) : contents slots head head = [] := by
  rw [contents, used_self]
  rfl

theorem contents_pop (slots : Fin n → α) {head tail : Fin n} (h : head ≠ tail) :
    contents slots head tail = slots head :: contents slots (head + 1) tail := by
  rw [contents, used_pop h, List.range_succ_eq_map, List.map_cons, List.map_map, contents]
  congr 1
  · congr 1
    ext
    simp
  · apply List.map_congr_left
    intro i _
    simp only [Function.comp, Nat.succ_eq_add_one, ofNat_succ, add_assoc, add_comm (1 : Fin n)]

theorem contents_push (slots : Fin n → α) {head tail : Fin n} (a : α) (h : tail + 1 ≠ head) :
    contents (Function.update slots tail a) head (tail + 1) = contents slots head tail ++ [a] := by
  rw [contents, used_push h, List.range_succ, List.map_append, List.map_singleton, head_add_used,
    Function.update_self, contents]
  congr 1
  apply List.map_congr_left
  intro i hi
  have hi := List.mem_range.mp hi
  have hlt := used_lt head tail
  apply Function.update_of_ne
  intro he
  have := used_head_add head (show i < n by omega)
  rw [he] at this
  omega

end BootableRecovery.Lib
