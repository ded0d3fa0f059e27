import Mathlib.Data.List.Basic
import Mathlib.Tactic.Ring

namespace BootableRecovery.Lib

/-! Numbers in a fixed number of places, the highest place first. -/

def places (b : ℕ) : ℕ → ℕ → List ℕ
  | 0, _ => []
  | k + 1, n => places b k (n / b) ++ [n % b]

def readPlaces (b : ℕ) (ds : List ℕ) : ℕ := ds.foldl (fun n d => n * b + d) 0

section places
variable {b k n : ℕ}

@[simp] theorem places_zero_places (b n : ℕ) : places b 0 n = [] := rfl

theorem places_succ (b k n : ℕ) : places b (k + 1) n = places b k (n / b) ++ [n % b] := rfl

@[simp] theorem places_length (b k n : ℕ) : (places b k n).length = k := by
  induction k generalizing n with
  | zero => simp
  | succ k ih => simp [places_succ, ih]

theorem lt_of_mem_places (hb : 0 < b) : ∀ d ∈ places b k n, d < b := by
  induction k generalizing n with
  | zero => simp
  | succ k ih =>
    intro d hd
    rw [places_succ, List.mem_append, List.mem_singleton] at hd
    rcases hd with hd | rfl
    · exact ih d hd
    · exact Nat.mod_lt n hb

theorem places_zero (b k : ℕ) : places b k 0 = List.replicate k 0 := by
  induction k with
  | zero => simp
  | succ k ih => rw [places_succ, Nat.zero_div, Nat.zero_mod, ih, List.replicate_succ']

theorem readPlaces_append (b : ℕ) (ds : List ℕ) (d : ℕ) :
    readPlaces b (ds ++ [d]) = readPlaces b ds * b + d := by
  rw [readPlaces, List.foldl_append]
  rfl

theorem readPlaces_places (b k n : ℕ) : readPlaces b (places b k n) = n % b ^ k := by
  induction k generalizing n with
  | zero => simp [readPlaces, Nat.mod_one]
  | succ k ih =>
    rw [places_succ, readPlaces_append, ih, Nat.pow_succ', Nat.mod_mul, Nat.add_comm, Nat.mul_comm]

end places

end BootableRecovery.Lib
