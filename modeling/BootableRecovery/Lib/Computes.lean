import Mathlib.Order.Lattice
import Mathlib.Tactic.Common
import Mathlib.Tactic.TypeStar

namespace BootableRecovery.Lib

/-! Code that may go on for ever is a function of a limit on its passes and calls, which gives
nothing where the limit is too low. What such code computes is a result, or nothing at all. -/

universe u

variable {α β : Type u}

/-- Every limit that is high enough gives this result. -/
def Returns (x : ℕ → Option α) (a : α) : Prop := ∃ m, ∀ n, m ≤ n → x n = some a

/-- The code computes `o`: it returns that result, or it never returns. -/
structure Computes (x : ℕ → Option α) (o : Option α) : Prop where
  result : ∀ n a, x n = some a → o = some a
  returns : ∀ a, o = some a → Returns x a

variable {x : ℕ → Option α} {o : Option α}

theorem Computes.returns_iff (h : Computes x o) {a : α} : Returns x a ↔ o = some a := by
  constructor
  · intro ⟨m, hm⟩
    exact h.result m a (hm m le_rfl)
  · exact h.returns a

theorem computes_const (o : Option α) : Computes (fun _ => o) o where
  result _ _ h := h
  returns _ h := ⟨0, fun _ _ => h⟩

/-- Steps that run one after the other. -/
theorem Computes.bind {f : α → ℕ → Option β} {g : α → Option β} (h : Computes x o)
    (hf : ∀ a, o = some a → Computes (f a) (g a)) :
    Computes (fun n => x n >>= fun a => f a n) (o >>= g) where
  result n b hb := by
    obtain ⟨a, ha, hb⟩ := Option.bind_eq_some_iff.mp hb
    have ho := h.result n a ha
    simpa [ho] using (hf a ho).result n b hb
  returns b hb := by
    obtain ⟨a, ha, hb⟩ := Option.bind_eq_some_iff.mp hb
    obtain ⟨m, hm⟩ := h.returns a ha
    obtain ⟨m', hm'⟩ := (hf a ha).returns b hb
    refine ⟨max m m', fun n hn => ?_⟩
    simp [hm n (le_trans (le_max_left m m') hn), hm' n (le_trans (le_max_right m m') hn)]

theorem Computes.bind_some {f : α → ℕ → Option β} {a : α} {o' : Option β}
    (h : Computes x (some a)) (hf : Computes (f a) o') :
    Computes (fun n => x n >>= fun a => f a n) o' := by
  apply h.bind (g := fun _ => o')
  intro b hb
  rw [← Option.some.inj hb]
  exact hf

theorem Computes.bind_none {f : α → ℕ → Option β} (h : Computes x none) :
    Computes (fun n => x n >>= fun a => f a n) none := by
  apply h.bind (g := fun _ => none)
  intro a ha
  cases ha

/-- A pass or a call uses up one unit of the limit. -/
theorem Computes.succ (h : Computes (fun n => x (n + 1)) o) (h0 : x 0 = none) : Computes x o where
  result n a ha := by
    cases n with
    | zero => simp [h0] at ha
    | succ n => exact h.result n a ha
  returns a ha := by
    obtain ⟨m, hm⟩ := h.returns a ha
    refine ⟨m + 1, fun n hn => ?_⟩
    obtain ⟨k, rfl⟩ : ∃ k, n = k + 1 := ⟨n - 1, by omega⟩
    exact hm k (by omega)

/-- A pass that leaves everything as it was is made for ever. -/
theorem computes_none_of_stays (h0 : x 0 = none) (h : ∀ n, x (n + 1) = x n) :
    Computes x none where
  result n a ha := by
    have hnone : x n = none := by
      induction n with
      | zero => exact h0
      | succ n ih => exact (h n).trans (ih ((h n).symm.trans ha))
    simp [hnone] at ha
  returns a ha := by simp at ha

theorem not_returns (h : Computes x none) (a : α) : ¬Returns x a := by
  simp [h.returns_iff]

end BootableRecovery.Lib
