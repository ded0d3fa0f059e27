import BootableRecovery.Lib.Word
import Mathlib.Data.List.Basic
import Mathlib.Data.List.GetD
import Mathlib.Data.List.Range
import Mathlib.Tactic.Ring

namespace BootableRecovery.Lib

variable {α : Type*}

/-- The `n` values of `f` from position `s` on. -/
def window (f : ℕ → α) (s n : ℕ) : List α := (List.range' s n).map f

@[simp] theorem window_length (f : ℕ → α) (s n : ℕ) : (window f s n).length = n := by
  simp [window]

@[simp] theorem window_zero (f : ℕ → α) (s : ℕ) : window f s 0 = [] := rfl

theorem window_succ (f : ℕ → α) (s n : ℕ) :
    window f s (n + 1) = f s :: window f (s + 1) n := by
  simp [window, List.range'_succ]

theorem window_getElem? (f : ℕ → α) (s n i : ℕ) (hi : i < n) :
    (window f s n)[i]? = some (f (s + i)) := by
  simp [window, hi]

theorem window_append (f : ℕ → α) (s m n : ℕ) :
    window f s m ++ window f (s + m) n = window f s (m + n) := by
  simp only [window, ← List.map_append, List.range'_append_1]

theorem window_drop (f : ℕ → α) (s n k : ℕ) :
    (window f s n).drop k = window f (s + k) (n - k) := by
  simp [window, ← List.map_drop, List.drop_range']

theorem window_take (f : ℕ → α) (s n k : ℕ) :
    (window f s n).take k = window f s (min k n) := by
  apply List.ext_getElem?
  intro i
  by_cases hi : i < min k n
  · rw [window_getElem? _ _ _ _ hi, List.getElem?_take_of_lt (by omega),
      window_getElem? _ _ _ _ (by omega)]
  · rw [List.getElem?_eq_none (by simp; omega), List.getElem?_eq_none (by simp; omega)]

theorem window_congr {f g : ℕ → α} {s n : ℕ} (h : ∀ i, s ≤ i → i < s + n → f i = g i) :
    window f s n = window g s n := by
  apply List.map_congr_left
  intro i hi
  simp only [List.mem_range'_1] at hi
  exact h i hi.1 hi.2

theorem window_eq_iff {f g : ℕ → α} {s t n : ℕ} :
    window f s n = window g t n ↔ ∀ i < n, f (s + i) = g (t + i) := by
  constructor
  · intro h i hi
    have he := congrArg (fun l => l[i]?) h
    simpa [window_getElem? _ _ _ _ hi] using he
  · intro h
    apply List.ext_getElem?
    intro i
    by_cases hi : i < n
    · simp [window_getElem? _ _ _ _ hi, h i hi]
    · rw [List.getElem?_eq_none (by simpa using hi), List.getElem?_eq_none (by simpa using hi)]

theorem window_const (a : α) (s n : ℕ) : window (fun _ => a) s n = List.replicate n a := by
  simp [window]

theorem take_drop_eq_window (l : List α) (d : α) (s n : ℕ) (h : s + n ≤ l.length) :
    (l.drop s).take n = window (fun i => l.getD i d) s n := by
  apply List.ext_getElem?
  intro i
  by_cases hi : i < n
  · have hl : s + i < l.length := by omega
    rw [window_getElem? _ _ _ _ hi, List.getElem?_take_of_lt hi, List.getElem?_drop,
      List.getElem?_eq_getElem hl, List.getD_eq_getElem _ _ hl]
  · rw [List.getElem?_eq_none (by simp; omega), List.getElem?_eq_none (by simpa using hi)]

end BootableRecovery.Lib
