import Mathlib.Algebra.Order.Floor.Ring
import Mathlib.Data.Int.Log
import Mathlib.Data.Rat.Floor
import Mathlib.Tactic.FieldSimp
import Mathlib.Tactic.Linarith
import Mathlib.Tactic.Positivity

namespace BootableRecovery.Lib

/-! Rounding of rationals to binary floating point with a given number of digits, to nearest and
ties to even, for results that neither overflow nor underflow. -/

def roundHalfEven (q : ℚ) : ℤ :=
  if q - ⌊q⌋ < 1 / 2 then ⌊q⌋
  else if 1 / 2 < q - ⌊q⌋ then ⌊q⌋ + 1
  else if ⌊q⌋ % 2 = 0 then ⌊q⌋
  else ⌊q⌋ + 1

/-- The distance of the numbers with `p` digits around `q`. -/
def ulp (p : ℕ) (q : ℚ) : ℚ := 2 ^ (Int.log 2 q + 1 - p)

def roundMagnitude (p : ℕ) (q : ℚ) : ℚ := roundHalfEven (q / ulp p q) * ulp p q

def roundTo (p : ℕ) (q : ℚ) : ℚ := if 0 ≤ q then roundMagnitude p q else -roundMagnitude p (-q)

/-- The conversion to an integer cuts the fraction off. -/
def truncate (q : ℚ) : ℤ := if 0 ≤ q then ⌊q⌋ else ⌈q⌉

section halfEven
variable {q q' : ℚ}

theorem roundHalfEven_mem (q : ℚ) : roundHalfEven q = ⌊q⌋ ∨ roundHalfEven q = ⌊q⌋ + 1 := by
  unfold roundHalfEven
  split_ifs
  · exact Or.inl rfl
  · exact Or.inr rfl
  · exact Or.inl rfl
  · exact Or.inr rfl

theorem roundHalfEven_mono (h : q ≤ q') : roundHalfEven q ≤ roundHalfEven q' := by
  have hfloor : ⌊q⌋ ≤ ⌊q'⌋ := Int.floor_mono h
  rcases hfloor.lt_or_eq with hlt | heq
  · have hq := roundHalfEven_mem q
    have hq' := roundHalfEven_mem q'
    omega
  · -- between the same two integers the fractions decide
    unfold roundHalfEven
    rw [← heq]
    split_ifs
    all_goals first
      | omega
      | (exfalso; linarith)

theorem roundHalfEven_intCast (n : ℤ) : roundHalfEven n = n := by
  simp [roundHalfEven]

end halfEven

section magnitude
variable {p : ℕ} {q q' : ℚ}

theorem ulp_pos (p : ℕ) (q : ℚ) : 0 < ulp p q := zpow_pos (by norm_num) _

theorem roundMagnitude_zero (p : ℕ) : roundMagnitude p 0 = 0 := by
  have h := roundHalfEven_intCast 0
  rw [Int.cast_zero] at h
  rw [roundMagnitude, zero_div, h, Int.cast_zero, zero_mul]

/-- A multiple of the distance below is a bound for what is rounded. -/
theorem le_roundMagnitude {n : ℤ} (h : n * ulp p q ≤ q) : n * ulp p q ≤ roundMagnitude p q := by
  have hq : (n : ℚ) ≤ q / ulp p q := (le_div_iff₀ (ulp_pos p q)).mpr h
  have hround := roundHalfEven_mono hq
  rw [roundHalfEven_intCast] at hround
  apply mul_le_mul_of_nonneg_right _ (ulp_pos p q).le
  exact_mod_cast hround

theorem roundMagnitude_le {n : ℤ} (h : q ≤ n * ulp p q) : roundMagnitude p q ≤ n * ulp p q := by
  have hq : q / ulp p q ≤ n := (div_le_iff₀ (ulp_pos p q)).mpr h
  have hround := roundHalfEven_mono hq
  rw [roundHalfEven_intCast] at hround
  apply mul_le_mul_of_nonneg_right _ (ulp_pos p q).le
  exact_mod_cast hround

theorem roundMagnitude_nonneg (h : 0 ≤ q) : 0 ≤ roundMagnitude p q := by
  have hround := @le_roundMagnitude p q 0 (by simpa using h)
  simpa using hround

theorem pow_mul_ulp {k : ℕ} : ((2 ^ k : ℤ) : ℚ) * ulp p q = 2 ^ (Int.log 2 q + 1 - p + k) := by
  rw [ulp, Int.cast_pow, Int.cast_ofNat, ← zpow_natCast, ← zpow_add₀ (by norm_num), add_comm]

/-- What is rounded stays between the two powers of two around it. -/
theorem roundMagnitude_bounds (hp : 0 < p) (h : 0 < q) :
    (2 : ℚ) ^ Int.log 2 q ≤ roundMagnitude p q ∧
      roundMagnitude p q ≤ (2 : ℚ) ^ (Int.log 2 q + 1) := by
  have hlow : ((2 ^ (p - 1) : ℤ) : ℚ) * ulp p q = 2 ^ Int.log 2 q := by
    rw [pow_mul_ulp]
    congr 1
    omega
  have hhigh : ((2 ^ p : ℤ) : ℚ) * ulp p q = 2 ^ (Int.log 2 q + 1) := by
    rw [pow_mul_ulp]
    congr 1
    omega
  have hle : (2 : ℚ) ^ Int.log 2 q ≤ q := by exact_mod_cast Int.zpow_log_le_self one_lt_two h
  have hlt : q < (2 : ℚ) ^ (Int.log 2 q + 1) := by
    exact_mod_cast Int.lt_zpow_succ_log_self one_lt_two q
  rw [← hlow, ← hhigh] at *
  exact ⟨le_roundMagnitude hle, roundMagnitude_le hlt.le⟩

theorem roundMagnitude_mono (hp : 0 < p) (hq : 0 ≤ q) (h : q ≤ q') :
    roundMagnitude p q ≤ roundMagnitude p q' := by
  rcases hq.eq_or_lt with rfl | hpos
  · rw [roundMagnitude_zero]
    exact roundMagnitude_nonneg h
  have hlog : Int.log 2 q ≤ Int.log 2 q' := Int.log_mono_right hpos h
  rcases hlog.lt_or_eq with hlt | heq
  · calc roundMagnitude p q ≤ 2 ^ (Int.log 2 q + 1) := (roundMagnitude_bounds hp hpos).2
      _ ≤ 2 ^ Int.log 2 q' := zpow_le_zpow_right₀ (by norm_num) hlt
      _ ≤ roundMagnitude p q' := (roundMagnitude_bounds hp (hpos.trans_le h)).1
  · have hulp : ulp p q = ulp p q' := by rw [ulp, ulp, heq]
    rw [roundMagnitude, roundMagnitude, hulp]
    apply mul_le_mul_of_nonneg_right _ (ulp_pos p q').le
    exact_mod_cast roundHalfEven_mono (div_le_div_of_nonneg_right h (ulp_pos p q').le)

/-- A multiple of the distance is its own rounding. -/
theorem roundMagnitude_exact {n : ℤ} (h : q = n * ulp p q) : roundMagnitude p q = q := by
  have hq : q / ulp p q = n := (div_eq_iff (ulp_pos p q).ne').mpr h
  rw [roundMagnitude, hq, roundHalfEven_intCast, ← h]

theorem roundMagnitude_natCast {n : ℕ} (h : n < 2 ^ p) : roundMagnitude p n = n := by
  rcases Nat.eq_zero_or_pos n with rfl | hpos
  · rw [Nat.cast_zero, roundMagnitude_zero]
  have hlog : Nat.log 2 n + 1 ≤ p := Nat.log_lt_of_lt_pow hpos.ne' h
  apply @roundMagnitude_exact p n (n * 2 ^ (p - (Nat.log 2 n + 1)) : ℕ)
  have hulp : ulp p (n : ℚ) * 2 ^ (p - (Nat.log 2 n + 1)) = 1 := by
    rw [ulp, Int.log_natCast, ← zpow_natCast, ← zpow_add₀ (by norm_num)]
    have hzero : (Nat.log 2 n : ℤ) + 1 - p + (p - (Nat.log 2 n + 1) : ℕ) = 0 := by omega
    rw [hzero, zpow_zero]
  calc (n : ℚ) = n * (ulp p (n : ℚ) * 2 ^ (p - (Nat.log 2 n + 1))) := by rw [hulp, mul_one]
    _ = _ := by
      push_cast
      ring

end magnitude

section roundTo
variable {p : ℕ} {q q' : ℚ}

theorem roundTo_mono (hp : 0 < p) (h : q ≤ q') : roundTo p q ≤ roundTo p q' := by
  unfold roundTo
  split_ifs with hq hq' hq'
  · exact roundMagnitude_mono hp hq h
  · exact absurd (hq.trans h) hq'
  · have hneg := @roundMagnitude_nonneg p (-q) (by linarith)
    have hpos := @roundMagnitude_nonneg p q' hq'
    linarith
  · have hmono := @roundMagnitude_mono p (-q') (-q) hp (by linarith) (by linarith)
    linarith

theorem roundTo_natCast {n : ℕ} (h : n < 2 ^ p) : roundTo p n = n := by
  rw [roundTo, if_pos (Nat.cast_nonneg n), roundMagnitude_natCast h]

/-- Integers with few digits are exact. -/
theorem roundTo_intCast {n : ℤ} (h : |n| < 2 ^ p) : roundTo p n = n := by
  rcases abs_cases n with ⟨habs, hn⟩ | ⟨habs, hn⟩
  · obtain ⟨m, rfl⟩ := Int.eq_ofNat_of_zero_le hn
    rw [habs] at h
    exact_mod_cast @roundTo_natCast p m (by exact_mod_cast h)
  · obtain ⟨m, hm⟩ := Int.eq_ofNat_of_zero_le (neg_nonneg.mpr hn.le)
    rw [habs, hm] at h
    have hround := @roundMagnitude_natCast p m (by exact_mod_cast h)
    have hcast : -(n : ℚ) = m := by exact_mod_cast hm
    rw [roundTo, if_neg (by exact_mod_cast not_le.mpr hn), hcast, hround, ← hcast, neg_neg]

theorem roundTo_nonneg (h : 0 ≤ q) : 0 ≤ roundTo p q := by
  rw [roundTo, if_pos h]
  exact roundMagnitude_nonneg h

theorem truncate_mono (h : q ≤ q') : truncate q ≤ truncate q' := by
  unfold truncate
  split_ifs with hq hq' hq'
  · exact Int.floor_mono h
  · exact absurd (hq.trans h) hq'
  · have hneg : ⌈q⌉ ≤ 0 := Int.ceil_le.mpr (by push_cast; linarith)
    exact hneg.trans (Int.floor_nonneg.mpr hq')
  · exact Int.ceil_mono h

theorem truncate_intCast (n : ℤ) : truncate n = n := by
  unfold truncate
  split_ifs
  · exact Int.floor_intCast n
  · exact Int.ceil_intCast n

end roundTo

end BootableRecovery.Lib
