import Mathlib.Data.Int.Basic
import Mathlib.Tactic.Ring

namespace BootableRecovery.Lib

/-! Arithmetic in machine words that is compared with the integers. -/

/-- A computation: its value, none after a division by zero, and whether every value in it is the
one that the integers give. -/
@[ext] structure Arith (α : Type) where
  value : Option α
  exact : Bool
  deriving DecidableEq, Repr

namespace Arith

instance : Monad Arith where
  pure a := ⟨some a, true⟩
  bind m f :=
    match m.value with
    | none => ⟨none, m.exact⟩
    | some a => ⟨(f a).value, m.exact && (f a).exact⟩

/-- An unsigned word. -/
def word (bits : ℕ) (n : ℤ) : Arith ℤ := ⟨some (n % 2 ^ bits), 0 ≤ n ∧ n < 2 ^ bits⟩

/-- A signed word. -/
def int (bits : ℕ) (n : ℤ) : Arith ℤ :=
  ⟨some (Int.bmod n (2 ^ bits)), -2 ^ (bits - 1) ≤ n ∧ n < 2 ^ (bits - 1)⟩

/-- A quotient, which is cut towards zero. -/
def quotient (a b : ℤ) : Arith ℤ := ⟨if b = 0 then none else some (a.tdiv b), true⟩

variable {α β : Type} {m : Arith α} {f : α → Arith β} {a : α} {b : β} {n x y : ℤ} {bits : ℕ}

theorem eq_pure_iff : m = pure a ↔ m.value = some a ∧ m.exact = true := by
  constructor
  · intro h
    rw [h]
    exact ⟨rfl, rfl⟩
  · intro h
    exact Arith.ext h.1 h.2

theorem pure_inj {c : α} : (pure a : Arith α) = pure c ↔ a = c := by
  rw [eq_pure_iff]
  constructor
  · intro h
    exact Option.some.inj h.1
  · intro h
    exact ⟨congrArg some h, rfl⟩

@[simp] theorem pure_bind : pure a >>= f = f a := Arith.ext rfl (Bool.true_and _)

theorem word_bind_value {f : ℤ → Arith α} : (word bits n >>= f).value = (f (n % 2 ^ bits)).value :=
  rfl

/-- A computation is exact when each of its steps is. -/
theorem bind_eq_pure_iff : m >>= f = pure b ↔ ∃ a, m = pure a ∧ f a = pure b := by
  have hbind : m >>= f = match m.value with
    | none => ⟨none, m.exact⟩
    | some a => ⟨(f a).value, m.exact && (f a).exact⟩ := rfl
  rw [hbind]
  cases hm : m.value with
  | none => simp [eq_pure_iff, hm]
  | some a =>
    simp only [eq_pure_iff, hm, Bool.and_eq_true, Option.some.injEq]
    constructor
    · intro h
      exact ⟨a, ⟨rfl, h.2.1⟩, h.1, h.2.2⟩
    · intro ⟨c, hc, hf⟩
      rw [← hc.1] at hf
      exact ⟨hf.1, hc.2, hf.2⟩

theorem word_eq_pure_iff : word bits n = pure x ↔ (0 ≤ n ∧ n < 2 ^ bits) ∧ x = n := by
  simp only [eq_pure_iff, word, Option.some.injEq, decide_eq_true_eq]
  constructor
  · intro ⟨hx, hn⟩
    exact ⟨hn, by rw [← hx, Int.emod_eq_of_lt hn.1 hn.2]⟩
  · intro ⟨hn, hx⟩
    exact ⟨by rw [hx, Int.emod_eq_of_lt hn.1 hn.2], hn⟩

theorem int_eq_pure_iff (hbits : 0 < bits) :
    int bits n = pure x ↔ (-2 ^ (bits - 1) ≤ n ∧ n < 2 ^ (bits - 1)) ∧ x = n := by
  have hpow : (2 : ℤ) ^ bits = 2 * 2 ^ (bits - 1) := by
    rw [← pow_succ', Nat.sub_add_cancel hbits]
  have hbmod : -2 ^ (bits - 1) ≤ n ∧ n < 2 ^ (bits - 1) → Int.bmod n (2 ^ bits) = n := by
    intro hn
    apply Int.bmod_eq_of_le <;> push_cast <;> omega
  simp only [eq_pure_iff, int, Option.some.injEq, decide_eq_true_eq]
  constructor
  · intro ⟨hx, hn⟩
    exact ⟨hn, by rw [← hx, hbmod hn]⟩
  · intro ⟨hn, hx⟩
    exact ⟨by rw [hx, hbmod hn], hn⟩

theorem quotient_eq_pure_iff : quotient x y = pure n ↔ y ≠ 0 ∧ n = x.tdiv y := by
  rw [eq_pure_iff, quotient]
  by_cases hy : y = 0 <;> simp [hy, eq_comm]

/-- No division by zero, and every value exact. -/
theorem exists_eq_pure_iff : (∃ a, m = pure a) ↔ m.value ≠ none ∧ m.exact = true := by
  simp only [eq_pure_iff, exists_and_right, ← Option.ne_none_iff_exists', ne_eq]

end Arith
end BootableRecovery.Lib
