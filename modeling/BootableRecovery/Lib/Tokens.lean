import BootableRecovery.Lib.Text

namespace BootableRecovery.Lib

/-! The tokens that `strtok_r` finds, a list of tokens written with a separator, and the first
parts of texts that `strncmp` compares. -/

/-- All tokens of a text, for one delimiter. -/
def strtok (delim : Char) (s : Text) : List Text := (s.splitOn delim).filter (· ≠ [])

variable {delim : Char} {s token : Text} {tokens : List Text}

theorem ne_nil_of_mem_strtok (h : token ∈ strtok delim s) : token ≠ [] := by
  simpa using (List.mem_filter.mp h).2

theorem not_mem_of_mem_strtok (h : token ∈ strtok delim s) : delim ∉ token :=
  not_mem_of_mem_splitOn (List.mem_filter.mp h).1

/-- Tokens that are written with a separator between them are read back. -/
theorem strtok_intercalate (h : ∀ token ∈ tokens, token ≠ [] ∧ delim ∉ token) :
    strtok delim ([delim].intercalate tokens) = tokens := by
  cases tokens with
  | nil => rfl
  | cons first rest =>
    rw [strtok, List.splitOn_intercalate delim (fun token ht => (h token ht).2) (by simp),
      List.filter_eq_self]
    intro token ht
    simpa using (h token ht).1

theorem not_mem_intercalate {c : Char} (hc : c ≠ delim) (h : ∀ token ∈ tokens, c ∉ token) :
    c ∉ [delim].intercalate tokens := by
  induction tokens with
  | nil => simp
  | cons first rest ih =>
    cases rest with
    | nil => simpa using h first
    | cons second rest =>
      have hrest := ih fun token ht => h token (List.mem_cons_of_mem _ ht)
      rw [List.intercalate_cons_cons]
      simp_all

theorem intercalate_concat (tokens : List Text) (token : Text) :
    [delim].intercalate (tokens ++ [token]) =
      (if tokens = [] then [] else [delim].intercalate tokens ++ [delim]) ++ token := by
  induction tokens with
  | nil => simp
  | cons first rest ih =>
    cases rest with
    | nil => simp
    | cons second rest =>
      rw [List.cons_append, List.cons_append, List.intercalate_cons_cons, ← List.cons_append, ih]
      simp

theorem intercalate_eq_nil (h : ∀ token ∈ tokens, token ≠ []) :
    [delim].intercalate tokens = [] ↔ tokens = [] := by
  cases tokens with
  | nil => simp
  | cons first rest =>
    cases rest with
    | nil => simpa using h first
    | cons second rest => simp

/-- `strncmp(a, b, n) == 0`, for texts without a NUL. -/
def strncmp (a b : Text) (n : ℕ) : Bool := a.take n = b.take n

theorem strncmp_iff {a b : Text} {n : ℕ} (hn : n ≤ a.length) :
    strncmp a b n ↔ a.take n <+: b := by
  rw [strncmp, decide_eq_true_eq, List.prefix_iff_eq_take, List.length_take_of_le hn]

theorem strncmp_length {a b : Text} : strncmp a b b.length ↔ b <+: a := by
  rw [strncmp, decide_eq_true_eq, List.take_length, List.prefix_iff_eq_take, eq_comm]

end BootableRecovery.Lib
