import Mathlib.Data.Nat.Notation
import Mathlib.Tactic.Common

namespace BootableRecovery.Lib

/-! Objects behind pointers. An address is never used again after its object is deleted. -/

structure Heap (α : Type) where
  cells : ℕ → Option α
  next : ℕ
  fresh : ∀ a, next ≤ a → cells a = none

namespace Heap

variable {α : Type} (heap : Heap α) (a b : ℕ) (x : α)

def empty : Heap α := ⟨fun _ => none, 0, fun _ _ => rfl⟩

/-- The object at an address, none behind a dangling pointer. -/
def read : Option α := heap.cells a

theorem read_next : heap.read heap.next = none := heap.fresh _ (Nat.le_refl _)

/-- `new` gives the address `next`. -/
def alloc : Heap α where
  cells := fun b => if b = heap.next then some x else heap.cells b
  next := heap.next + 1
  fresh := by
    intro b hb
    rw [if_neg (by omega)]
    exact heap.fresh b (by omega)

/-- Assigns to the object at an address, if there is one. -/
def write : Heap α where
  cells := fun b => if b = a then (heap.cells a).map fun _ => x else heap.cells b
  next := heap.next
  fresh := by
    intro b hb
    split_ifs with h
    · rw [← h, heap.fresh b hb]
      rfl
    · exact heap.fresh b hb

def free : Heap α where
  cells := fun b => if b = a then none else heap.cells b
  next := heap.next
  fresh := by
    intro b hb
    split_ifs
    · rfl
    · exact heap.fresh b hb

variable {heap a b x}

theorem ne_next_of_read {y : α} (h : heap.read a = some y) : a ≠ heap.next := by
  rintro rfl
  rw [read_next] at h
  cases h

@[simp] theorem read_empty : (empty : Heap α).read a = none := rfl

@[simp] theorem read_alloc_next : (heap.alloc x).read heap.next = some x := if_pos rfl

theorem read_alloc_of_ne (h : a ≠ heap.next) : (heap.alloc x).read a = heap.read a := if_neg h

theorem read_alloc_of_read {y : α} (h : heap.read a = some y) :
    (heap.alloc x).read a = some y := by
  rw [read_alloc_of_ne (ne_next_of_read h), h]

@[simp] theorem next_alloc : (heap.alloc x).next = heap.next + 1 := rfl

theorem read_write_self {y : α} (h : heap.read a = some y) :
    (heap.write a x).read a = some x := by
  rw [read] at h
  rw [read, write]
  dsimp only
  rw [if_pos rfl, h]
  rfl

theorem read_write_of_ne (h : b ≠ a) : (heap.write a x).read b = heap.read b := if_neg h

/-- An assignment does not bring an object back. -/
theorem read_write_of_dead (h : heap.read b = none) : (heap.write a x).read b = none := by
  by_cases hba : b = a
  · subst hba
    rw [read] at h
    rw [read, write]
    dsimp only
    rw [if_pos rfl, h]
    rfl
  · rw [read_write_of_ne hba, h]

@[simp] theorem next_write : (heap.write a x).next = heap.next := rfl

@[simp] theorem read_free_self : (heap.free a).read a = none := if_pos rfl

theorem read_free_of_ne (h : b ≠ a) : (heap.free a).read b = heap.read b := if_neg h

@[simp] theorem next_free : (heap.free a).next = heap.next := rfl

end Heap

end BootableRecovery.Lib
