import Mathlib.Data.List.TakeWhile
import Mathlib.Data.List.MinMax

namespace BootableRecovery.Lib

/-! Scanners: of the rules that match, the one with the longest match is taken, and the first one of
those. -/

/-- Patterns of texts; only classes are repeated. -/
inductive Pattern (α : Type)
  | text (w : List α)
  | one (p : α → Bool)
  | many (p : α → Bool)
  | seq (a b : Pattern α)
  | opt (a : Pattern α)

namespace Pattern
variable {α ρ : Type}

def plus (p : α → Bool) : Pattern α := seq (one p) (many p)

/-- The pattern matches the empty text. -/
def nullable : Pattern α → Bool
  | text w => w.isEmpty
  | one _ => false
  | many _ => true
  | seq a b => a.nullable && b.nullable
  | opt _ => true

variable [DecidableEq α]

/-- The lengths of the prefixes that match. -/
def lengths : Pattern α → List α → List ℕ
  | text w, s => if w <+: s then [w.length] else []
  | one _, [] => []
  | one p, c :: _ => if p c then [1] else []
  | many p, s => List.range ((s.takeWhile p).length + 1)
  | seq a b, s => (a.lengths s).flatMap fun m => (b.lengths (s.drop m)).map (m + ·)
  | opt a, s => 0 :: a.lengths s

def longest (r : Pattern α) (s : List α) : Option ℕ := (r.lengths s).max?

/-- The action of the rule to take, with the length of its match. -/
def scan : List (Pattern α × ρ) → List α → Option (ρ × ℕ)
  | [], _ => none
  | (r, action) :: rules, s =>
    match r.longest s, scan rules s with
    | none, best => best
    | some n, none => some (action, n)
    | some n, some (action', m) => if m ≤ n then some (action, n) else some (action', m)

section
variable {r a b : Pattern α} {p : α → Bool} {s w : List α} {n : ℕ}

theorem lengths_text : (text w).lengths s = if w <+: s then [w.length] else [] := rfl

theorem lengths_one_nil : (one p).lengths [] = [] := rfl

theorem lengths_one_cons (c : α) : (one p).lengths (c :: s) = if p c then [1] else [] := rfl

theorem lengths_many :
    (many p).lengths s = List.range ((s.takeWhile p).length + 1) := rfl

theorem lengths_seq : (seq a b).lengths s =
    (a.lengths s).flatMap fun m => (b.lengths (s.drop m)).map (m + ·) := rfl

theorem mem_lengths_text : n ∈ (text w).lengths s ↔ w <+: s ∧ n = w.length := by
  rw [lengths_text]
  split_ifs with h <;> simp [h]

theorem mem_lengths_one : n ∈ (one p).lengths s ↔ n = 1 ∧ ∃ c rest, s = c :: rest ∧ p c = true := by
  cases s with
  | nil => simp [lengths_one_nil]
  | cons c rest =>
    rw [lengths_one_cons]
    split_ifs with h <;> simp [h]

theorem mem_lengths_many : n ∈ (many p).lengths s ↔ n ≤ (s.takeWhile p).length := by
  rw [lengths_many, List.mem_range, Nat.lt_succ_iff]

theorem mem_lengths_seq :
    n ∈ (seq a b).lengths s ↔ ∃ m ∈ a.lengths s, ∃ k ∈ b.lengths (s.drop m), n = m + k := by
  simp only [lengths_seq, List.mem_flatMap, List.mem_map, eq_comm]

theorem le_of_mem_lengths (h : n ∈ r.lengths s) : n ≤ s.length := by
  induction r generalizing s n with
  | text w =>
    obtain ⟨hpre, rfl⟩ := mem_lengths_text.mp h
    exact hpre.length_le
  | one p =>
    obtain ⟨rfl, c, rest, rfl, -⟩ := mem_lengths_one.mp h
    simp
  | many p => exact (mem_lengths_many.mp h).trans (List.takeWhile_prefix p).length_le
  | seq a b iha ihb =>
    obtain ⟨m, hm, k, hk, rfl⟩ := mem_lengths_seq.mp h
    have hm' := iha hm
    have hk' := ihb hk
    rw [List.length_drop] at hk'
    omega
  | opt a ih =>
    rcases List.mem_cons.mp h with rfl | h
    · exact Nat.zero_le _
    · exact ih h

theorem pos_of_mem_lengths (hr : r.nullable = false) (h : n ∈ r.lengths s) : 0 < n := by
  induction r generalizing s n with
  | text w =>
    obtain ⟨-, rfl⟩ := mem_lengths_text.mp h
    exact List.length_pos_iff.mpr fun hw => by simp [nullable, hw] at hr
  | one p =>
    obtain ⟨rfl, -⟩ := mem_lengths_one.mp h
    exact Nat.one_pos
  | many p => cases hr
  | seq a b iha ihb =>
    obtain ⟨m, hm, k, hk, rfl⟩ := mem_lengths_seq.mp h
    rcases Bool.and_eq_false_iff.mp hr with ha | hb
    · have := iha ha hm
      omega
    · have := ihb hb hk
      omega
  | opt a => cases hr

theorem mem_of_longest (h : r.longest s = some n) : n ∈ r.lengths s := List.max?_mem h

theorem longest_eq_none (h : r.longest s = none) : r.lengths s = [] := List.max?_eq_none_iff.mp h

end

section
variable {rules : List (Pattern α × ρ)} {s : List α} {action : ρ} {n : ℕ}

theorem scan_nil : scan ([] : List (Pattern α × ρ)) s = none := rfl

theorem scan_cons (r : Pattern α) : scan ((r, action) :: rules) s =
    match r.longest s, scan rules s with
    | none, best => best
    | some n, none => some (action, n)
    | some n, some (action', m) => if m ≤ n then some (action, n) else some (action', m) := rfl

theorem scan_mem (h : scan rules s = some (action, n)) :
    ∃ r, (r, action) ∈ rules ∧ n ∈ r.lengths s := by
  induction rules with
  | nil => simp [scan_nil] at h
  | cons rule rules ih =>
    obtain ⟨r, action'⟩ := rule
    have hlater : scan rules s = some (action, n) →
        ∃ r', (r', action) ∈ (r, action') :: rules ∧ n ∈ r'.lengths s := fun h => by
      obtain ⟨r', hr', hn⟩ := ih h
      exact ⟨r', List.mem_cons_of_mem _ hr', hn⟩
    rw [scan_cons] at h
    cases hr : r.longest s with
    | none =>
      simp only [hr] at h
      exact hlater h
    | some m =>
      have hhead : some (action', m) = some (action, n) →
          ∃ r', (r', action) ∈ (r, action') :: rules ∧ n ∈ r'.lengths s := fun h => by
        obtain ⟨rfl, rfl⟩ := Prod.mk.inj (Option.some.inj h)
        exact ⟨r, List.mem_cons_self, mem_of_longest hr⟩
      cases hrest : scan rules s with
      | none =>
        simp only [hr, hrest] at h
        exact hhead h
      | some best =>
        simp only [hr, hrest] at h
        split_ifs at h with hle
        · exact hhead h
        · exact hlater (hrest.trans h)

/-- Some rule is taken when one matches. -/
theorem scan_ne_none {r : Pattern α} (hr : (r, action) ∈ rules) (hn : n ∈ r.lengths s) :
    scan rules s ≠ none := by
  induction rules with
  | nil => cases hr
  | cons rule rules ih =>
    obtain ⟨r', action'⟩ := rule
    rw [scan_cons]
    rcases List.mem_cons.mp hr with hhead | hr
    · cases hhead
      cases hlongest : r.longest s with
      | none => simp [longest_eq_none hlongest] at hn
      | some m =>
        cases scan rules s with
        | none => simp
        | some best =>
          dsimp only
          split_ifs <;> simp
    · cases hrest : scan rules s with
      | none => exact absurd hrest (ih hr)
      | some best =>
        cases r'.longest s with
        | none => simp
        | some m =>
          dsimp only
          split_ifs <;> simp

end
end Pattern
end BootableRecovery.Lib
