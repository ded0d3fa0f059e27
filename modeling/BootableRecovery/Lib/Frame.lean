import Mathlib.Data.List.Induction
import Mathlib.Tactic.Ring

namespace BootableRecovery.Lib

variable {α : Type*}

/-! A stream with a header in front of every `n` items. -/

/-- The items from position `k` on. -/
def framedFrom (header : List α) (n : ℕ) : ℕ → List α → List α
  | _, [] => []
  | k, a :: l => (if k % n = 0 then header else []) ++ a :: framedFrom header n (k + 1) l

def framed (header : List α) (n : ℕ) (l : List α) : List α := framedFrom header n 0 l

variable {header : List α} {n k : ℕ}

theorem framedFrom_append (k : ℕ) (l m : List α) : framedFrom header n k (l ++ m) =
    framedFrom header n k l ++ framedFrom header n (k + l.length) m := by
  induction l generalizing k with
  | nil => rfl
  | cons a l ih =>
    rw [List.cons_append, framedFrom, ih, framedFrom, List.append_assoc, List.cons_append,
      List.length_cons, Nat.add_right_comm, Nat.add_assoc]

/-- Inside of a frame there is no header. -/
theorem framedFrom_inside (l : List α) (hk : k % n ≠ 0) (hfit : k % n + l.length ≤ n) :
    framedFrom header n k l = l := by
  induction l generalizing k with
  | nil => rfl
  | cons a l ih =>
    rw [framedFrom, if_neg hk, List.nil_append]
    rw [List.length_cons] at hfit
    rcases l with _ | ⟨b, l⟩
    · rfl
    · rw [List.length_cons] at hfit
      have hmod : (k + 1) % n = k % n + 1 := by
        rw [Nat.add_mod, Nat.mod_eq_of_lt (by omega : 1 < n), Nat.mod_eq_of_lt (by omega)]
      rw [ih (by omega) (by rw [List.length_cons]; omega)]

theorem framedFrom_fit {l : List α} (hl : l ≠ []) (hfit : k % n + l.length ≤ n) :
    framedFrom header n k l = (if k % n = 0 then header else []) ++ l := by
  by_cases hk : k % n = 0
  · obtain ⟨a, l, rfl⟩ := List.exists_cons_of_ne_nil hl
    rw [List.length_cons] at hfit
    rw [framedFrom, if_pos hk]
    rcases l with _ | ⟨b, l⟩
    · rfl
    · rw [List.length_cons] at hfit
      have hmod : (k + 1) % n = 1 := by
        rw [Nat.add_mod, hk, Nat.mod_eq_of_lt (by omega : 1 < n), Nat.zero_add,
          Nat.mod_eq_of_lt (by omega)]
      rw [framedFrom_inside _ (by omega) (by rw [List.length_cons]; omega)]
  · rw [if_neg hk, List.nil_append, framedFrom_inside l hk hfit]

/-- The next items of a stream: they open a frame if the last one is full. -/
theorem framed_append_fit (l : List α) {m : List α} (hm : m ≠ [])
    (hfit : l.length % n + m.length ≤ n) :
    framed header n (l ++ m) =
      framed header n l ++ ((if l.length % n = 0 then header else []) ++ m) := by
  rw [framed, framedFrom_append, Nat.zero_add, framedFrom_fit hm hfit, framed]

theorem framedFrom_shift (hk : k % n = 0) (l : List α) :
    framedFrom header n k l = framed header n l := by
  have hshift : ∀ (i j : ℕ) (l : List α), i % n = j % n →
      framedFrom header n i l = framedFrom header n j l := by
    intro i j l hij
    induction l generalizing i j with
    | nil => rfl
    | cons a l ih =>
      rw [framedFrom, framedFrom, hij, ih (i + 1) (j + 1) (by rw [Nat.add_mod, hij, ← Nat.add_mod])]
  exact hshift k 0 l (by rw [hk, Nat.zero_mod])

/-- A full frame and what comes after it. -/
theorem framed_append_full {l : List α} (hn : 0 < n) (hl : l.length = n) (m : List α) :
    framed header n (l ++ m) = header ++ l ++ framed header n m := by
  rw [framed, framedFrom_append, framedFrom_fit (List.ne_nil_of_length_pos (by omega))
    (by rw [Nat.zero_mod]; omega), if_pos (Nat.zero_mod n), Nat.zero_add,
    framedFrom_shift (by rw [hl, Nat.mod_self])]

/-- The headers of a stream of `m` items. -/
def frameCount (n m : ℕ) : ℕ := (m + n - 1) / n

theorem frameCount_succ (hn : 0 < n) (m : ℕ) :
    frameCount n (m + 1) = frameCount n m + if m % n = 0 then 1 else 0 := by
  obtain ⟨q, r, hr, rfl⟩ : ∃ q r, r < n ∧ m = r + n * q :=
    ⟨m / n, m % n, Nat.mod_lt m hn, (Nat.mod_add_div m n).symm⟩
  have hstep : frameCount n (r + n * q + 1) = q + 1 := by
    rw [frameCount, show r + n * q + 1 + n - 1 = r + n * (q + 1) by rw [Nat.mul_succ]; omega,
      Nat.add_mul_div_left _ _ hn, Nat.div_eq_of_lt hr, Nat.zero_add]
  rw [hstep, Nat.add_mul_mod_self_left, Nat.mod_eq_of_lt hr]
  rcases Nat.eq_zero_or_pos r with rfl | hpos
  · rw [if_pos rfl, frameCount, show 0 + n * q + n - 1 = n - 1 + n * q by omega,
      Nat.add_mul_div_left _ _ hn, Nat.div_eq_of_lt (by omega), Nat.zero_add]
  · rw [if_neg (by omega), frameCount,
      show r + n * q + n - 1 = r - 1 + n * (q + 1) by rw [Nat.mul_succ]; omega,
      Nat.add_mul_div_left _ _ hn, Nat.div_eq_of_lt (by omega), Nat.zero_add, Nat.add_zero]

theorem framed_length (hn : 0 < n) (l : List α) :
    (framed header n l).length = l.length + header.length * frameCount n l.length := by
  induction l using List.reverseRecOn with
  | nil =>
    rw [frameCount, List.length_nil, Nat.zero_add, Nat.div_eq_of_lt (by omega)]
    rfl
  | append_singleton l a ih =>
    rw [framed, framedFrom_append, List.length_append, ← framed, ih, Nat.zero_add, framedFrom,
      framedFrom, List.length_append, List.length_append, List.length_singleton,
      frameCount_succ hn, Nat.mul_add]
    split_ifs
    · rw [Nat.mul_one]
      omega
    · simp
      omega

end BootableRecovery.Lib
