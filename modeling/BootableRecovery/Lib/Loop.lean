import Mathlib.Data.Nat.Notation
import Mathlib.Tactic.Common
import Mathlib.Tactic.TypeStar

namespace BootableRecovery.Lib

variable {σ ρ : Type*}

/-! Loops that may go on for ever: a pass ends with a new state or with the loop's result. -/

/-- The loop, with a limit on its passes. -/
def loop (body : σ → σ ⊕ ρ) : ℕ → σ → Option ρ
  | 0, _ => none
  | n + 1, s =>
    match body s with
    | .inl s' => loop body n s'
    | .inr r => some r

/-- The loop ends with this result. -/
inductive Ends (body : σ → σ ⊕ ρ) : σ → ρ → Prop
  | stop {s : σ} {r : ρ} : body s = .inr r → Ends body s r
  | pass {s s' : σ} {r : ρ} : body s = .inl s' → Ends body s' r → Ends body s r

variable {body : σ → σ ⊕ ρ} {s s' : σ} {r r' : ρ}

theorem ends_iff_loop : Ends body s r ↔ ∃ n, loop body n s = some r := by
  constructor
  · intro h
    induction h with
    | stop hs => exact ⟨1, by simp [loop, hs]⟩
    | pass hs _ ih =>
      obtain ⟨n, hn⟩ := ih
      exact ⟨n + 1, by simp [loop, hs, hn]⟩
  · intro ⟨n, hn⟩
    induction n generalizing s with
    | zero => simp [loop] at hn
    | succ n ih =>
      rcases hs : body s with s' | r'
      · simp only [loop, hs] at hn
        exact .pass hs (ih hn)
      · simp only [loop, hs, Option.some.injEq] at hn
        exact hn ▸ .stop hs

theorem loop_mono {n m : ℕ} (h : loop body n s = some r) (hnm : n ≤ m) :
    loop body m s = some r := by
  induction n generalizing m s with
  | zero => simp [loop] at h
  | succ n ih =>
    obtain ⟨m, rfl⟩ : ∃ k, m = k + 1 := ⟨m - 1, by omega⟩
    rcases hs : body s with s' | r'
    · simp only [loop, hs] at h ⊢
      exact ih h (by omega)
    · simpa only [loop, hs] using h

theorem ends_of_stop (h : body s = .inr r) : Ends body s r' ↔ r' = r := by
  constructor
  · intro hr
    cases hr with
    | stop hs => exact Sum.inr.inj (hs.symm.trans h)
    | pass hs _ => cases hs.symm.trans h
  · intro hr
    exact hr ▸ .stop h

theorem ends_of_pass (h : body s = .inl s') : Ends body s r ↔ Ends body s' r := by
  constructor
  · intro hr
    cases hr with
    | stop hs => cases hs.symm.trans h
    | pass hs hr' => exact Sum.inl.inj (hs.symm.trans h) ▸ hr'
  · exact .pass h

theorem Ends.unique (h : Ends body s r) (h' : Ends body s r') : r = r' := by
  induction h with
  | stop hs => exact ((ends_of_stop hs).mp h').symm
  | pass hs _ ih => exact ih ((ends_of_pass hs).mp h')

/-- The last pass starts in a state that meets the invariant of the passes. -/
theorem Ends.last {I : σ → Prop} (h : Ends body s r) (hs : I s)
    (hpass : ∀ s s', I s → body s = .inl s' → I s') : ∃ s, I s ∧ body s = .inr r := by
  induction h with
  | stop hr => exact ⟨_, hs, hr⟩
  | pass hp _ ih => exact ih (hpass _ _ hs hp)

/-- A loop does not end that can not leave a set of states without a last pass. -/
theorem not_ends {I : σ → Prop} (hs : I s) (hpass : ∀ s, I s → ∃ s', body s = .inl s' ∧ I s') :
    ¬∃ r, Ends body s r := by
  intro ⟨r, hr⟩
  induction hr with
  | stop hb =>
    obtain ⟨s', hs', -⟩ := hpass _ hs
    cases hb.symm.trans hs'
  | pass hb _ ih =>
    obtain ⟨s', hs', hI⟩ := hpass _ hs
    cases hb.symm.trans hs'
    exact ih hI

end BootableRecovery.Lib
