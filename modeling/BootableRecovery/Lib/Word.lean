import Mathlib.Tactic.Ring

namespace BootableRecovery.Lib

/-! Values cast to, or computed in, unsigned words. -/

def u32 (n : ℕ) : ℕ := n % 2 ^ 32

def u64 (n : ℕ) : ℕ := n % 2 ^ 64

theorem u32_of_lt {n : ℕ} (h : n < 2 ^ 32) : u32 n = n := Nat.mod_eq_of_lt h

theorem u64_of_lt {n : ℕ} (h : n < 2 ^ 64) : u64 n = n := Nat.mod_eq_of_lt h

theorem u64_lt (n : ℕ) : u64 n < 2 ^ 64 := Nat.mod_lt _ (by decide)

theorem u32_le (n : ℕ) : u32 n ≤ n := Nat.mod_le _ _

/-- A 32-bit product only depends on the low words of its factors. -/
theorem u32_mul_u32 (a b : ℕ) : u32 (u32 a * b) = u32 (a * b) := Nat.mod_mul_mod a b _

/-- Subtracting in 32 bits undoes an addition. -/
theorem u32_add_sub {a b : ℕ} (h : a < 2 ^ 32) : u32 (b + a + 2 ^ 32 - u32 b) = a := by
  unfold u32
  omega

theorem u32_succ (n : ℕ) : u32 (u32 n + 1) = u32 (n + 1) := by
  unfold u32
  omega

end BootableRecovery.Lib
