import Mathlib.Data.List.TakeWhile
import Mathlib.Tactic.Ring

namespace BootableRecovery.Lib

/-! The C library's text functions: `isspace`, splitting and trimming, and the unsigned
conversions of `printf` and `sscanf`. -/

abbrev Text := List Char

def isSpace (c : Char) : Bool :=
  c = ' ' || c = '\t' || c = '\n' || c = '\x0b' || c = '\x0c' || c = '\r'

def trimRight (s : Text) : Text := (s.reverse.dropWhile isSpace).reverse

def trim (s : Text) : Text := trimRight (s.dropWhile isSpace)

/-- What a C string function sees of a buffer. -/
def cString (s : Text) : Text := s.takeWhile fun c => c != '\x00'

/-- `%u` of `printf`. -/
def decimal (n : ℕ) : Text := Nat.toDigits 10 n

/-- `%0wi` of `printf`. -/
def padded (w n : ℕ) : Text := List.replicate (w - (decimal n).length) '0' ++ decimal n

/-- What `stream >> string` reads of a stream. -/
def readToken (s : Text) : Text := (s.dropWhile isSpace).takeWhile fun c => !isSpace c

/-- `%u` of `sscanf` into an object of `bits` bits: blanks, a sign, digits. A value beyond
64 bits saturates, as `strtoumax` does, before it is cut to the object. -/
def scanUnsigned (bits : ℕ) (s : Text) : Option (ℕ × Text) :=
  let t := s.dropWhile isSpace
  let neg := t.head? = some '-'
  let u := if t.head? = some '-' ∨ t.head? = some '+' then t.tail else t
  let digits := u.takeWhile Char.isDigit
  if digits = [] then none
  else
    let v := Nat.ofDigitChars 10 digits 0
    let w := if 2 ^ 64 ≤ v then 2 ^ 64 - 1 else if neg then (2 ^ 64 - v) % 2 ^ 64 else v
    some (w % 2 ^ bits, u.dropWhile Char.isDigit)

theorem decimal_ne_nil (n : ℕ) : decimal n ≠ [] := Nat.toDigits_ne_nil

theorem isDigit_of_mem_decimal {n : ℕ} {c : Char} (h : c ∈ decimal n) : c.isDigit = true :=
  Nat.isDigit_of_mem_toDigits (by decide) (by decide) h

theorem ofDigitChars_replicate (k : ℕ) (s : Text) :
    Nat.ofDigitChars 10 (List.replicate k '0' ++ s) 0 = Nat.ofDigitChars 10 s 0 := by
  induction k with
  | zero => rfl
  | succ k ih => rw [List.replicate_succ, List.cons_append, Nat.ofDigitChars_cons, ← ih]; rfl

theorem padded_injective (w : ℕ) : Function.Injective (padded w) := by
  intro m n h
  have hval : ∀ k, Nat.ofDigitChars 10 (padded w k) 0 = k := fun k => by
    rw [padded, ofDigitChars_replicate]
    exact Nat.ofDigitChars_toDigits (by decide) (by decide)
  rw [← hval m, h, hval n]

theorem decimal_injective : Function.Injective decimal := by
  intro m n h
  apply padded_injective 0
  simpa [padded] using h

theorem isDigit_of_mem_padded {w n : ℕ} {c : Char} (h : c ∈ padded w n) : c.isDigit = true := by
  rcases List.mem_append.mp h with h | h
  · rw [List.eq_of_mem_replicate h]
    rfl
  · exact isDigit_of_mem_decimal h

/-- One digit, then the last digit: the way `printf` writes a number. -/
theorem decimal_step {n : ℕ} (h : 10 ≤ n) :
    decimal n = decimal (n / 10) ++ [Nat.digitChar (n % 10)] := by
  rw [decimal, Nat.toDigits_eq_if (by decide), if_neg (by omega), decimal]

theorem decimal_digit {n : ℕ} (h : n < 10) : decimal n = [Nat.digitChar n] :=
  Nat.toDigits_of_lt_base h

theorem padded_two {n : ℕ} (h : n < 100) :
    padded 2 n = [Nat.digitChar (n / 10), Nat.digitChar (n % 10)] := by
  rcases Nat.lt_or_ge n 10 with h' | h'
  · rw [padded, decimal_digit h', Nat.div_eq_of_lt h', Nat.mod_eq_of_lt h']
    rfl
  · rw [padded, decimal_step h', decimal_digit (by omega : n / 10 < 10)]
    rfl

theorem padded_three {n : ℕ} (h : n < 1000) :
    padded 3 n = Nat.digitChar (n / 100) :: padded 2 (n % 100) := by
  rw [padded_two (Nat.mod_lt _ (by decide))]
  have hmod : n % 100 % 10 = n % 10 := Nat.mod_mod_of_dvd n (by decide)
  rcases Nat.lt_or_ge n 10 with h₁ | h₁
  · rw [padded, decimal_digit h₁, Nat.div_eq_of_lt (by omega : n < 100),
      Nat.mod_eq_of_lt (by omega : n < 100), Nat.div_eq_of_lt h₁, Nat.mod_eq_of_lt h₁]
    rfl
  rcases Nat.lt_or_ge n 100 with h₂ | h₂
  · rw [padded, decimal_step h₁, decimal_digit (by omega : n / 10 < 10), Nat.div_eq_of_lt h₂,
      Nat.mod_eq_of_lt h₂]
    rfl
  · rw [padded, decimal_step h₁, decimal_step (by omega : 10 ≤ n / 10),
      decimal_digit (by omega : n / 10 / 10 < 10), Nat.div_div_eq_div_mul, hmod,
      show n % 100 / 10 = n / 10 % 10 by omega]
    rfl

/-- A thread digit and a two-digit index read as one three-digit number. -/
theorem decimal_append_padded {t i : ℕ} (ht : t < 10) (hi : i < 100) :
    decimal t ++ padded 2 i = padded 3 (100 * t + i) := by
  rw [padded_three (by omega), decimal_digit ht, show (100 * t + i) / 100 = t by omega,
    show (100 * t + i) % 100 = i by omega]
  rfl

theorem isSpace_of_isDigit {c : Char} (h : c.isDigit = true) : isSpace c = false := by
  simp only [isSpace, Bool.or_eq_false_iff, decide_eq_false_iff_not]
  refine ⟨⟨⟨⟨⟨?_, ?_⟩, ?_⟩, ?_⟩, ?_⟩, ?_⟩ <;> rintro rfl <;> exact absurd h (by decide)

theorem newline_not_mem_decimal (n : ℕ) : '\n' ∉ decimal n := fun h =>
  absurd (isDigit_of_mem_decimal h) (by decide)

theorem decimal_takeWhile (n : ℕ) (rest : Text) (h : ∀ c, rest.head? = some c → c.isDigit = false) :
    (decimal n ++ rest).takeWhile Char.isDigit = decimal n ∧
      (decimal n ++ rest).dropWhile Char.isDigit = rest := by
  have hd : ∀ c ∈ decimal n, c.isDigit = true := fun c hc => isDigit_of_mem_decimal hc
  rw [List.takeWhile_append_of_pos hd, List.dropWhile_append_of_pos hd]
  cases rest with
  | nil => simp
  | cons c rest => simp [h c rfl]

/-- Scanning a printed number, after any blanks, gives the number back, cut to the object. -/
theorem scanUnsigned_decimal (bits n : ℕ) (blanks rest : Text) (hn : n < 2 ^ 64)
    (hblank : ∀ c ∈ blanks, isSpace c = true)
    (hrest : ∀ c, rest.head? = some c → c.isDigit = false) :
    scanUnsigned bits (blanks ++ (decimal n ++ rest)) = some (n % 2 ^ bits, rest) := by
  obtain ⟨d, ds, hd⟩ := List.exists_cons_of_ne_nil (decimal_ne_nil n)
  have hdig : d.isDigit = true := isDigit_of_mem_decimal (n := n) (by simp [hd])
  have hdrop : (blanks ++ (decimal n ++ rest)).dropWhile isSpace = decimal n ++ rest := by
    rw [List.dropWhile_append_of_pos hblank, hd, List.cons_append,
      List.dropWhile_cons_of_neg (by simp [isSpace_of_isDigit hdig])]
  have hhead : (decimal n ++ rest).head? = some d := by simp [hd]
  have hminus : d ≠ '-' := by rintro rfl; exact absurd hdig (by decide)
  have hplus : d ≠ '+' := by rintro rfl; exact absurd hdig (by decide)
  obtain ⟨htake, hrest'⟩ := decimal_takeWhile n rest hrest
  have hval : Nat.ofDigitChars 10 (decimal n) 0 = n :=
    Nat.ofDigitChars_toDigits (by decide) (by decide)
  simp only [scanUnsigned, hdrop, hhead, Option.some.injEq, hminus, hplus, or_self, if_false,
    htake, hrest', decimal_ne_nil, hval, not_le.mpr hn]

theorem scanUnsigned_lt {bits v : ℕ} {s rest : Text} (h : scanUnsigned bits s = some (v, rest)) :
    v < 2 ^ bits := by
  unfold scanUnsigned at h
  dsimp only at h
  generalize (if (s.dropWhile isSpace).head? = some '-' ∨ (s.dropWhile isSpace).head? = some '+'
    then (s.dropWhile isSpace).tail else s.dropWhile isSpace) = u at h
  by_cases hd : u.takeWhile Char.isDigit = []
  · simp [hd] at h
  · rw [if_neg hd, Option.some.injEq, Prod.mk.injEq] at h
    rw [← h.1]
    exact Nat.mod_lt _ (Nat.two_pow_pos bits)

theorem trimRight_append_of_space (s blanks : Text) (h : ∀ c ∈ blanks, isSpace c = true) :
    trimRight (s ++ blanks) = trimRight s := by
  rw [trimRight, List.reverse_append, List.dropWhile_append_of_pos (by simpa using h), trimRight]

theorem trimRight_append_of_not_space (s t : Text) (h : ¬∀ c ∈ t, isSpace c = true) :
    trimRight (s ++ t) = s ++ trimRight t ∧ trimRight t ≠ [] := by
  have hne : t.reverse.dropWhile isSpace ≠ [] := by
    rw [Ne, List.dropWhile_eq_nil_iff]
    simpa using h
  constructor
  · rw [trimRight, List.reverse_append, List.dropWhile_append, if_neg (by simpa using hne),
      List.reverse_append, List.reverse_reverse, trimRight]
  · simpa [trimRight] using hne

theorem cString_of_no_nul {s : Text} (h : '\x00' ∉ s) : cString s = s := by
  rw [cString, List.takeWhile_eq_self_iff]
  intro c hc
  simp only [bne_iff_ne]
  rintro rfl
  exact h hc

/-- Lines that end in newlines split into these lines and what follows them. -/
theorem splitOn_lines (lines : List Text) (rest : Text) (h : ∀ l ∈ lines, '\n' ∉ l) :
    (lines.flatMap (fun l => l ++ ['\n']) ++ rest).splitOn '\n' = lines ++ rest.splitOn '\n' := by
  induction lines with
  | nil => rfl
  | cons l lines ih =>
    rw [List.flatMap_cons, List.append_assoc, List.append_assoc, List.singleton_append,
      List.splitOn_append_cons_self_of_not_mem (h l List.mem_cons_self),
      ih fun q hq => h q (List.mem_cons_of_mem _ hq), List.cons_append]

theorem not_mem_of_mem_splitOn {s piece : Text} {c : Char} (h : piece ∈ s.splitOn c) :
    c ∉ piece := by
  induction s generalizing piece with
  | nil =>
    rw [List.splitOn_nil, List.mem_singleton] at h
    rw [h]
    exact List.not_mem_nil
  | cons x s ih =>
    rw [List.splitOn_cons_eq_if_modifyHead] at h
    split_ifs at h with hx
    · obtain rfl | h := List.mem_cons.mp h
      · exact List.not_mem_nil
      · exact ih h
    · obtain ⟨first, rest, hsplit⟩ := List.exists_cons_of_ne_nil (List.splitOn_ne_nil c s)
      rw [hsplit] at h ih
      rw [List.modifyHead_cons] at h
      obtain rfl | h := List.mem_cons.mp h
      · rw [List.mem_cons, not_or]
        exact ⟨fun heq => hx (beq_iff_eq.mpr heq.symm), ih List.mem_cons_self⟩
      · exact ih (List.mem_cons_of_mem _ h)

/-- The pieces of a text, each with one separator, are one character longer than the text. -/
theorem sum_splitOn_length (s : Text) (c : Char) :
    ((s.splitOn c).map fun piece => piece.length + 1).sum = s.length + 1 := by
  induction s with
  | nil => rfl
  | cons x s ih =>
    obtain ⟨first, rest, hsplit⟩ := List.exists_cons_of_ne_nil (List.splitOn_ne_nil c s)
    rw [List.splitOn_cons_eq_if_modifyHead]
    rw [hsplit, List.map_cons, List.sum_cons] at ih
    split_ifs with hx
    · rw [hsplit, List.map_cons, List.map_cons, List.sum_cons, List.sum_cons, ih,
        List.length_cons, List.length_nil]
      omega
    · rw [hsplit, List.modifyHead_cons, List.map_cons, List.sum_cons, List.length_cons,
        List.length_cons]
      omega

theorem mem_of_mem_splitOn {s piece : Text} {a c : Char} (h : piece ∈ s.splitOn c)
    (ha : a ∈ piece) : a ∈ s := by
  induction s generalizing piece with
  | nil =>
    rw [List.splitOn_nil, List.mem_singleton] at h
    exact absurd (h ▸ ha) List.not_mem_nil
  | cons x s ih =>
    rw [List.splitOn_cons_eq_if_modifyHead] at h
    split_ifs at h with hx
    · obtain rfl | h := List.mem_cons.mp h
      · exact absurd ha List.not_mem_nil
      · exact List.mem_cons_of_mem x (ih h ha)
    · obtain ⟨first, rest, hsplit⟩ := List.exists_cons_of_ne_nil (List.splitOn_ne_nil c s)
      rw [hsplit] at h ih
      rw [List.modifyHead_cons] at h
      obtain rfl | h := List.mem_cons.mp h
      · obtain rfl | ha := List.mem_cons.mp ha
        · exact List.mem_cons_self
        · exact List.mem_cons_of_mem x (ih List.mem_cons_self ha)
      · exact List.mem_cons_of_mem x (ih (List.mem_cons_of_mem _ h) ha)

/-- Every other character of a text is in one of its pieces. -/
theorem exists_mem_splitOn {s : Text} {a c : Char} (ha : a ∈ s) (hac : a ≠ c) :
    ∃ piece ∈ s.splitOn c, a ∈ piece := by
  induction s with
  | nil => exact absurd ha List.not_mem_nil
  | cons x s ih =>
    rw [List.splitOn_cons_eq_if_modifyHead]
    obtain ⟨first, rest, hsplit⟩ := List.exists_cons_of_ne_nil (List.splitOn_ne_nil c s)
    obtain rfl | ha := List.mem_cons.mp ha
    · rw [if_neg fun h => hac (beq_iff_eq.mp h), hsplit, List.modifyHead_cons]
      exact ⟨_, List.mem_cons_self, List.mem_cons_self⟩
    · obtain ⟨piece, hpiece, hmem⟩ := ih ha
      split_ifs
      · exact ⟨piece, List.mem_cons_of_mem _ hpiece, hmem⟩
      · rw [hsplit] at hpiece ⊢
        rw [List.modifyHead_cons]
        obtain rfl | hpiece := List.mem_cons.mp hpiece
        · exact ⟨_, List.mem_cons_self, List.mem_cons_of_mem x hmem⟩
        · exact ⟨piece, List.mem_cons_of_mem _ hpiece, hmem⟩

theorem not_isSpace_of_mem_readToken {s : Text} {c : Char} (h : c ∈ readToken s) :
    isSpace c = false := by
  simpa using List.mem_takeWhile_imp h

/-- A text that ends in a non-blank has nothing to trim. -/
theorem trimRight_concat (s : Text) (c : Char) (h : isSpace c = false) :
    trimRight (s ++ [c]) = s ++ [c] := by
  simp [trimRight, h]

end BootableRecovery.Lib
