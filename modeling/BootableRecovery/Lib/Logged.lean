import Mathlib.Tactic.TypeStar

namespace BootableRecovery.Lib

/-! Computations over a state that log events, and that may end early: with no result, or by a
fault. -/

inductive Outcome (α : Type)
  | ok (value : α)
  | null
  | fault
deriving DecidableEq, Repr

def Logged (σ ε α : Type) : Type := σ → Outcome α × List ε × σ

namespace Logged
variable {σ ε α β : Type}

/-- What an outcome is followed by: nothing, unless it is a result. -/
def follow (first : Outcome α × List ε × σ) (next : α → Logged σ ε β) :
    Outcome β × List ε × σ :=
  match first with
  | (.ok a, log, s) =>
    let rest := next a s
    (rest.1, log ++ rest.2.1, rest.2.2)
  | (.null, log, s) => (.null, log, s)
  | (.fault, log, s) => (.fault, log, s)

instance loggedMonad : Monad (Logged σ ε) where
  pure a := fun s => (.ok a, [], s)
  bind m next := fun s => follow (m s) next

/-- No result. -/
def null : Logged σ ε α := fun s => (.null, [], s)

def fault : Logged σ ε α := fun s => (.fault, [], s)

def modify (f : σ → σ) : Logged σ ε Unit := fun s => (.ok (), [], f s)

def get : Logged σ ε σ := fun s => (.ok s, [], s)

def emit (e : ε) : Logged σ ε Unit := fun s => (.ok (), [e], s)

/-- Runs to its end, changes the state by what came out, and has no result. -/
def thenNull (m : Logged σ ε α) (f : Option α → σ → σ) : Logged σ ε β := fun s =>
  match m s with
  | (.ok a, log, s) => (.null, log, f (some a) s)
  | (.null, log, s) => (.null, log, f none s)
  | (.fault, log, s) => (.fault, log, s)

/-- Logs how a computation begins and how it ends, unless it ends by a fault. -/
def enclose (enter : ε) (leave : Option α → ε) (m : Logged σ ε α) : Logged σ ε α := fun s =>
  match m s with
  | (.ok a, log, s) => (.ok a, enter :: (log ++ [leave (some a)]), s)
  | (.null, log, s) => (.null, enter :: (log ++ [leave none]), s)
  | (.fault, log, s) => (.fault, enter :: log, s)

section settled
variable (last : ε → Prop)

/-- After an event that is marked as the last there are only such events, and no result. -/
def Settled (log : List ε) (outcome : Outcome α) : Prop :=
  ∀ before e after, log = before ++ e :: after → last e →
    outcome = .null ∧ ∀ e' ∈ after, last e'

def Stops (m : Logged σ ε α) : Prop := ∀ s, Settled last (m s).2.1 (m s).1

variable {last}

theorem settled_of_unmarked {log : List ε} {outcome : Outcome α} (h : ∀ e ∈ log, ¬last e) :
    Settled last log outcome := by
  rintro before e after rfl he
  exact absurd he (h e (by simp))

theorem Settled.not_last {log : List ε} {outcome : Outcome α} (h : Settled last log outcome)
    (hne : outcome ≠ .null) : ∀ e ∈ log, ¬last e := by
  intro e he hlast
  obtain ⟨before, after, rfl⟩ := List.append_of_mem he
  exact hne (h before e after rfl hlast).1

/-- Events without a mark in front change nothing. -/
theorem Settled.append {log more : List ε} {outcome : Outcome α} (hlog : ∀ e ∈ log, ¬last e)
    (h : Settled last more outcome) : Settled last (log ++ more) outcome := by
  intro before e after heq he
  rcases List.append_eq_append_iff.mp heq with ⟨mid, rfl, hmid⟩ | ⟨mid, hmid, hafter⟩
  · exact h mid e after hmid he
  · -- the marked event would be among those without a mark
    cases mid with
    | nil => exact h [] e after (by simpa using hafter.symm) he
    | cons e' mid =>
      simp only [List.cons_append, List.cons.injEq] at hafter
      exact absurd he (hlog e (by rw [hmid, hafter.1]; simp))

theorem Settled.concat {log : List ε} {e : ε} (h : Settled last log (.null : Outcome α))
    (he : last e) : Settled last (log ++ [e]) (.null : Outcome β) := by
  intro before e' after heq he'
  refine ⟨rfl, fun e'' hmem => ?_⟩
  rcases List.eq_nil_or_concat after with rfl | ⟨mid, final, rfl⟩
  · exact absurd hmem List.not_mem_nil
  · rw [List.concat_eq_append] at heq hmem
    rw [← List.cons_append, ← List.append_assoc] at heq
    obtain ⟨hlog, hfinal⟩ := List.append_inj' heq rfl
    rcases List.mem_append.mp hmem with hmem | hmem
    · exact (h before e' mid hlog he').2 e'' hmem
    · rw [List.mem_singleton.mp hmem, ← List.singleton_inj.mp hfinal]
      exact he

theorem stops_pure (a : α) : Stops last (pure a : Logged σ ε α) := fun _ =>
  settled_of_unmarked fun _ he => absurd he List.not_mem_nil

theorem stops_null : Stops last (null : Logged σ ε α) := fun _ =>
  settled_of_unmarked fun _ he => absurd he List.not_mem_nil

theorem stops_fault : Stops last (fault : Logged σ ε α) := fun _ =>
  settled_of_unmarked fun _ he => absurd he List.not_mem_nil

theorem stops_modify (f : σ → σ) : Stops last (modify f : Logged σ ε Unit) := fun _ =>
  settled_of_unmarked fun _ he => absurd he List.not_mem_nil

theorem stops_get : Stops last (get : Logged σ ε σ) := fun _ =>
  settled_of_unmarked fun _ he => absurd he List.not_mem_nil

theorem stops_emit {e : ε} (he : ¬last e) : Stops last (emit e : Logged σ ε Unit) := fun _ =>
  settled_of_unmarked fun e' he' => by rwa [List.mem_singleton.mp he']

/-- What follows a result may log a last event, and nothing follows an end without result. -/
theorem stops_bind {m : Logged σ ε α} {next : α → Logged σ ε β} (hm : Stops last m)
    (hnext : ∀ a, Stops last (next a)) : Stops last (m >>= next) := by
  intro s
  change Settled last (follow (m s) next).2.1 (follow (m s) next).1
  have hfirst := hm s
  generalize m s = result at hfirst ⊢
  obtain ⟨outcome, log, s'⟩ := result
  cases outcome with
  | ok a => exact (hnext a s').append (hfirst.not_last (by simp))
  | null => exact fun before e after heq he => ⟨rfl, (hfirst before e after heq he).2⟩
  | fault => exact settled_of_unmarked (hfirst.not_last (by simp))

theorem stops_thenNull {m : Logged σ ε α} {f : Option α → σ → σ} (hm : Stops last m) :
    Stops last (thenNull m f : Logged σ ε β) := by
  intro s
  unfold thenNull
  have hfirst := hm s
  generalize m s = result at hfirst ⊢
  obtain ⟨outcome, log, s'⟩ := result
  cases outcome with
  | ok a => exact settled_of_unmarked (hfirst.not_last (by simp))
  | null => exact fun before e after heq he => ⟨rfl, (hfirst before e after heq he).2⟩
  | fault => exact settled_of_unmarked (hfirst.not_last (by simp))

/-- A computation that logs its end stops, if the end without result is the mark. -/
theorem stops_enclose {m : Logged σ ε α} {enter : ε} {leave : Option α → ε} (hm : Stops last m)
    (henter : ¬last enter) (hsome : ∀ a, ¬last (leave (some a))) (hnone : last (leave none)) :
    Stops last (enclose enter leave m) := by
  intro s
  unfold enclose
  have hbody := hm s
  have hhead : ∀ e ∈ [enter], ¬last e := fun e he => by rwa [List.mem_singleton.mp he]
  generalize m s = result at hbody ⊢
  obtain ⟨outcome, log, s'⟩ := result
  cases outcome with
  | ok a =>
    refine settled_of_unmarked fun e he => ?_
    simp only [List.mem_cons, List.mem_append, List.not_mem_nil, or_false] at he
    rcases he with rfl | he | rfl
    · exact henter
    · exact hbody.not_last (by simp) e he
    · exact hsome a
  | null => exact Settled.append hhead (hbody.concat hnone)
  | fault =>
    have hlog : Settled last log (.fault : Outcome α) :=
      settled_of_unmarked (hbody.not_last (by simp))
    exact Settled.append hhead hlog

end settled
end Logged
end BootableRecovery.Lib
