import Mathlib.Data.List.Basic

namespace BootableRecovery.Lib

/-! A text with a cursor in it, the edits at the cursor, and the operations of `std::string`
that carry them out; and the runs of a step function whose steps keep an invariant exactly
when they meet a condition. -/

section cursor
variable {α : Type*}

/-- `text.insert(pos, 1, c)`, which throws beyond the end. -/
def insertAt (text : List α) (pos : ℕ) (c : α) : Option (List α) :=
  if pos ≤ text.length then some (text.take pos ++ c :: text.drop pos) else none

/-- `text.erase(pos, count)`, which throws beyond the end. -/
def eraseAt (text : List α) (pos count : ℕ) : Option (List α) :=
  if pos ≤ text.length then some (text.take pos ++ text.drop (pos + count)) else none

/-- What is before the cursor and what is after it. -/
@[ext] structure Zipper (α : Type*) where
  before : List α
  after : List α

namespace Zipper
variable (z : Zipper α) (c : α)

def text : List α := z.before ++ z.after

def insert : Zipper α := ⟨z.before ++ [c], z.after⟩

def backspace : Zipper α := ⟨z.before.dropLast, z.after⟩

def clearBefore : Zipper α := ⟨[], z.after⟩

@[simp] theorem text_mk (before after : List α) : text ⟨before, after⟩ = before ++ after := rfl

@[simp] theorem text_insert : (z.insert c).text = z.before ++ c :: z.after := by
  simp [insert, text]

@[simp] theorem text_backspace : z.backspace.text = z.before.dropLast ++ z.after := rfl

@[simp] theorem text_clearBefore : z.clearBefore.text = z.after := rfl

theorem insertAt_text : insertAt z.text z.before.length c = some (z.insert c).text := by
  simp [insertAt, insert, text]

theorem eraseAt_text (h : z.before ≠ []) :
    eraseAt z.text (z.before.length - 1) 1 = some z.backspace.text := by
  have hpos : 0 < z.before.length := List.length_pos_iff.mpr h
  have hone : z.before.length - 1 + 1 = z.before.length := Nat.sub_add_cancel hpos
  rw [eraseAt, if_pos (by simp [text]; omega), hone, text, text_backspace, List.dropLast_eq_take]
  simp [List.take_append]

theorem eraseAt_before : eraseAt z.text 0 z.before.length = some z.clearBefore.text := by
  simp [eraseAt, clearBefore, text]

end Zipper
end cursor

section runs
variable {S E : Type*} {step : S → E → Option S} {Good Keeps : S → E → Prop} {Inv : S → Prop}

/-- `P` holds of every step of a run. -/
def EachStep (step : S → E → Option S) (P : S → E → Prop) : S → List E → Prop
  | _, [] => True
  | s, e :: es => P s e ∧ ∀ s', step s e = some s' → EachStep step P s' es

theorem eachStep_iff (hiff : ∀ s e, Inv s → (Good s e ↔ Keeps s e))
    (hinv : ∀ s e s', Inv s → Good s e → step s e = some s' → Inv s') {s : S} (hs : Inv s)
    (events : List E) : EachStep step Good s events ↔ EachStep step Keeps s events := by
  induction events generalizing s with
  | nil => exact Iff.rfl
  | cons e es ih =>
    rw [EachStep, EachStep, hiff s e hs]
    apply and_congr_right
    intro hkeeps
    have hgood := (hiff s e hs).mpr hkeeps
    exact forall_congr' fun s' => imp_congr_right fun hstep => ih (hinv s e s' hs hgood hstep)

end runs
end BootableRecovery.Lib
