import Mathlib.Data.List.Nodup

namespace BootableRecovery.Lib

/-! Blocks of a fixed size, as the offsets of their bytes. -/

/-- The offsets of the bytes of blocks, block by block. -/
def blockBytes (size : ℕ) (blocks : List ℕ) : List ℕ :=
  blocks.flatMap fun b => List.range' (b * size) size

variable (size : ℕ)

@[simp] theorem blockBytes_nil : blockBytes size [] = [] := rfl

@[simp] theorem blockBytes_cons (b : ℕ) (blocks : List ℕ) :
    blockBytes size (b :: blocks) = List.range' (b * size) size ++ blockBytes size blocks := by
  simp [blockBytes]

@[simp] theorem blockBytes_append (blocks more : List ℕ) :
    blockBytes size (blocks ++ more) = blockBytes size blocks ++ blockBytes size more := by
  simp [blockBytes]

@[simp] theorem blockBytes_length (blocks : List ℕ) :
    (blockBytes size blocks).length = blocks.length * size := by
  simp [blockBytes, List.length_flatMap]

/-- Consecutive blocks are consecutive bytes. -/
theorem blockBytes_range (first count : ℕ) :
    blockBytes size (List.range' first count) = List.range' (first * size) (count * size) := by
  induction count generalizing first with
  | zero => simp
  | succ count ih =>
    rw [List.range'_succ, blockBytes_cons, ih, Nat.succ_mul, Nat.succ_mul count,
      Nat.add_comm (count * _), ← List.range'_append_1]

variable {size}

theorem mem_blockBytes {blocks : List ℕ} {b i : ℕ} (hi : i < size) :
    b * size + i ∈ blockBytes size blocks ↔ b ∈ blocks := by
  have hdiv : ∀ {c}, c * size ≤ b * size + i → b * size + i < c * size + size → c = b := by
    intro c hle hlt
    have hcb : c < b + 1 := by
      apply Nat.lt_of_mul_lt_mul_right (a := size)
      rw [Nat.succ_mul]
      omega
    have hbc : b < c + 1 := by
      apply Nat.lt_of_mul_lt_mul_right (a := size)
      rw [Nat.succ_mul]
      omega
    omega
  simp only [blockBytes, List.mem_flatMap, List.mem_range'_1]
  constructor
  · rintro ⟨c, hc, hle, hlt⟩
    exact hdiv hle hlt ▸ hc
  · intro hb
    exact ⟨b, hb, by omega, by omega⟩

/-- A byte of a block is as often among the bytes as the block is among the blocks. -/
theorem count_blockBytes (blocks : List ℕ) (b : ℕ) {i : ℕ} (hi : i < size) :
    (blockBytes size blocks).count (b * size + i) = blocks.count b := by
  induction blocks with
  | nil => rfl
  | cons c blocks ih =>
    have hmem : b * size + i ∈ List.range' (c * size) size ↔ b = c := by
      have hone : b * size + i ∈ blockBytes size [c] ↔ b ∈ [c] := mem_blockBytes hi
      simpa using hone
    have hblock : (List.range' (c * size) size).count (b * size + i) =
        if c == b then 1 else 0 := by
      rw [List.Nodup.count List.nodup_range']
      exact if_congr (hmem.trans (eq_comm.trans beq_iff_eq.symm)) rfl rfl
    rw [blockBytes_cons, List.count_append, hblock, ih, List.count_cons, Nat.add_comm]

theorem nodup_blockBytes {blocks : List ℕ} (h : blocks.Nodup) : (blockBytes size blocks).Nodup := by
  obtain rfl | hsize := Nat.eq_zero_or_pos size
  · have hnil : blockBytes 0 blocks = [] := by simp [blockBytes]
    rw [hnil]
    exact List.nodup_nil
  · rw [List.nodup_iff_count_le_one] at h ⊢
    intro p
    have hp := count_blockBytes blocks (p / size) (Nat.mod_lt p hsize)
    rw [Nat.div_add_mod'] at hp
    rw [hp]
    exact h _

end BootableRecovery.Lib
