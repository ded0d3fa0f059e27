import BootableRecovery.Lib.Window

namespace BootableRecovery.Lib

variable {α β : Type*}

/-! Lists cut into pieces of one length. -/

section Uniform
variable {g : β → List α} {n : ℕ} {l : List β}

theorem flatMap_length_uniform (h : ∀ b ∈ l, (g b).length = n) :
    (l.flatMap g).length = l.length * n := by
  induction l with
  | nil => simp
  | cons b l ih =>
    rw [List.flatMap_cons, List.length_append, h b (by simp),
      ih fun c hc => h c (List.mem_cons_of_mem _ hc), List.length_cons]
    ring

theorem flatMap_drop_uniform (h : ∀ b ∈ l, (g b).length = n) (k : ℕ) :
    (l.flatMap g).drop (k * n) = (l.drop k).flatMap g := by
  induction l generalizing k with
  | nil => simp
  | cons b l ih =>
    cases k with
    | zero => simp
    | succ k =>
      have hb : (g b).length = n := h b (by simp)
      rw [List.flatMap_cons, List.drop_append, hb, List.drop_succ_cons,
        List.drop_eq_nil_of_le (by rw [hb, Nat.succ_mul]; omega), List.nil_append,
        show (k + 1) * n - n = k * n by rw [Nat.succ_mul]; omega]
      exact ih (fun c hc => h c (List.mem_cons_of_mem _ hc)) k

end Uniform

/-- A window of whole blocks is the blocks one after the other. -/
theorem window_blocks (f : ℕ → α) (n s k : ℕ) :
    window f (s * n) (k * n) = (List.range' s k).flatMap fun b => window f (b * n) n := by
  induction k generalizing s with
  | zero => simp
  | succ k ih =>
    rw [List.range'_succ, List.flatMap_cons, ← ih (s + 1),
      show (k + 1) * n = n + k * n by ring, show (s + 1) * n = s * n + n by ring, window_append]

/-- Less than two blocks past the start of its block, a position is in that block or the next. -/
theorem block_of_position {off p bs : ℕ} (hpos : 0 < bs) (hle : off ≤ p) :
    (off % bs + (p - off) < bs → p / bs = off / bs ∧ p % bs = off % bs + (p - off)) ∧
    (bs ≤ off % bs + (p - off) → off % bs + (p - off) < 2 * bs →
      p / bs = off / bs + 1 ∧ p % bs = off % bs + (p - off) - bs) := by
  have hdm := Nat.div_add_mod off bs
  refine ⟨fun h => ?_, fun h h' => ?_⟩
  · have he : p = off % bs + (p - off) + off / bs * bs := by
      rw [Nat.mul_comm]
      omega
    have hdiv := Nat.add_mul_div_right (off % bs + (p - off)) (off / bs) hpos
    have hmod := Nat.add_mul_mod_self_right (off % bs + (p - off)) (off / bs) bs
    rw [← he, Nat.div_eq_of_lt h, Nat.zero_add] at hdiv
    rw [← he, Nat.mod_eq_of_lt h] at hmod
    exact ⟨hdiv, hmod⟩
  · have he : p = off % bs + (p - off) - bs + (off / bs + 1) * bs := by
      rw [Nat.add_mul, Nat.one_mul, Nat.mul_comm (off / bs)]
      omega
    have hlt : off % bs + (p - off) - bs < bs := by omega
    have hdiv := Nat.add_mul_div_right (off % bs + (p - off) - bs) (off / bs + 1) hpos
    have hmod := Nat.add_mul_mod_self_right (off % bs + (p - off) - bs) (off / bs + 1) bs
    rw [← he, Nat.div_eq_of_lt hlt, Nat.zero_add] at hdiv
    rw [← he, Nat.mod_eq_of_lt hlt] at hmod
    exact ⟨hdiv, hmod⟩

end BootableRecovery.Lib
