import BootableRecovery.Edify.Expr

namespace BootableRecovery.Edify
open Lib Logged

/-! An evaluation that meets a null does nothing more. -/

/-- The mark of the end without result. -/
def LeavesNull (e : Event) : Prop := e = .leave none

/-- An evaluation after whose first null nothing is entered, printed or waited for. -/
abbrev Propagates {α : Type} (m : Eval α) : Prop := Stops LeavesNull m

section propagation

theorem propagates_refuse {α : Type} (message : Text) : Propagates (refuse message : Eval α) :=
  stops_bind (stops_modify _) fun _ => stops_null

theorem propagates_evaluate {m : Eval Value} (h : Propagates m) : Propagates (evaluate m) := by
  refine stops_bind h fun v => ?_
  split_ifs
  · exact stops_bind (stops_modify _) fun _ => stops_null
  · exact stops_pure _

theorem propagates_stringValue (s : Text) : Propagates (stringValue s) := stops_pure _

theorem propagates_flag (b : Bool) : Propagates (flag b) := stops_pure _

variable {argv : List Arg} (hargv : ∀ arg ∈ argv, Propagates arg.value)
include hargv

theorem propagates_argAt (i : ℕ) : Propagates (argAt argv i) := by
  rw [argAt]
  cases h : argv[i]? with
  | none => exact stops_fault
  | some arg => exact hargv arg (List.mem_of_getElem? h)

theorem propagates_evaluateAt (i : ℕ) : Propagates (evaluate (argAt argv i)) :=
  propagates_evaluate (propagates_argAt hargv i)

theorem propagates_readArgs : Propagates (readArgs argv) := by
  induction argv with
  | nil => exact stops_pure _
  | cons arg argv ih =>
    have htail := ih fun a ha => hargv a (List.mem_cons_of_mem arg ha)
    exact stops_bind (propagates_evaluate (hargv arg List.mem_cons_self)) fun _ =>
      stops_bind htail fun _ => stops_pure _

theorem propagates_concatLoop (result : Text) : Propagates (concatLoop argv result) := by
  induction argv generalizing result with
  | nil => exact propagates_stringValue _
  | cons arg argv ih =>
    exact stops_bind (propagates_evaluate (hargv arg List.mem_cons_self)) fun str =>
      ih (fun a ha => hargv a (List.mem_cons_of_mem arg ha)) _

theorem propagates_assertFn : Propagates (assertFn argv) := by
  induction argv with
  | nil => exact propagates_stringValue _
  | cons arg argv ih =>
    refine stops_bind (propagates_evaluate (hargv arg List.mem_cons_self)) fun result => ?_
    split_ifs
    · refine stops_bind stops_get fun s => ?_
      cases substr s.script arg.start (arg.stop - arg.start) with
      | none => exact stops_fault
      | some text => exact propagates_refuse _
    · exact ih fun a ha => hargv a (List.mem_cons_of_mem arg ha)

theorem propagates_stdoutFn : Propagates (stdoutFn argv) := by
  induction argv with
  | nil => exact propagates_stringValue _
  | cons arg argv ih =>
    exact stops_bind (propagates_evaluate (hargv arg List.mem_cons_self)) fun v =>
      stops_bind (stops_emit (by simp [LeavesNull])) fun _ =>
        ih fun a ha => hargv a (List.mem_cons_of_mem arg ha)

theorem propagates_abortFn : Propagates (abortFn argv) := by
  cases argv with
  | nil => exact stops_bind (stops_modify _) fun _ => stops_null
  | cons arg argv => exact stops_thenNull (propagates_evaluate (hargv arg List.mem_cons_self))

theorem propagates_ifElseFn : Propagates (ifElseFn argv) := by
  rw [ifElseFn]
  by_cases hcount : argv.length ≠ 2 ∧ argv.length ≠ 3
  · rw [if_pos hcount]
    exact propagates_refuse _
  · rw [if_neg hcount]
    refine stops_bind (propagates_evaluateAt hargv 0) fun cond => ?_
    split_ifs
    · exact propagates_argAt hargv 1
    · exact propagates_argAt hargv 2
    · exact propagates_stringValue _

theorem propagates_compareIntFn (parseInt : Text → ℤ → ℤ → Option ℤ) (name : Text)
    (compare : ℤ → ℤ → Bool) : Propagates (compareIntFn parseInt name compare argv) := by
  have hparse : ∀ word, Propagates (parseInt64 parseInt word) := by
    intro word
    rw [parseInt64]
    cases parseInt (cString word) (-2 ^ 63) (2 ^ 63 - 1) with
    | none => exact propagates_refuse _
    | some v => exact stops_pure _
  rw [compareIntFn]
  split_ifs
  · exact propagates_refuse _
  · exact stops_bind (propagates_readArgs hargv) fun args => stops_bind (hparse _) fun left =>
      stops_bind (hparse _) fun right => propagates_flag _

/-- One case for each function: what it evaluates it evaluates before anything is decided. -/
theorem propagates_call (parseInt : Text → ℤ → ℤ → Option ℤ) (fn : Builtin) (name : Text) :
    Propagates (fn.call parseInt name argv) := by
  have h0 := propagates_evaluateAt hargv 0
  have h1 := propagates_evaluateAt hargv 1
  cases fn with
  | ifElse => exact propagates_ifElseFn hargv
  | abort => exact propagates_abortFn hargv
  | assert => exact propagates_assertFn hargv
  | concat =>
    rw [Builtin.call, concatFn]
    split_ifs
    · exact propagates_stringValue _
    · exact propagates_concatLoop hargv _
  | substring => exact stops_bind h0 fun _ => stops_bind h1 fun _ => propagates_flag _
  | stdout => exact propagates_stdoutFn hargv
  | sleep =>
    refine stops_bind h0 fun val => ?_
    cases parseInt (cString val) 0 (2 ^ 31 - 1) with
    | none => exact stops_null
    | some v =>
      exact stops_bind (stops_emit (by simp [LeavesNull])) fun _ => propagates_stringValue _
  | lessThanInt => exact propagates_compareIntFn hargv parseInt _ _
  | greaterThanInt => exact propagates_compareIntFn hargv parseInt _ _
  | logicalAnd =>
    refine stops_bind h0 fun left => ?_
    split_ifs
    · exact propagates_argAt hargv 1
    · exact propagates_stringValue _
  | logicalOr =>
    refine stops_bind h0 fun left => ?_
    split_ifs
    · exact propagates_argAt hargv 1
    · exact propagates_stringValue _
  | logicalNot => exact stops_bind h0 fun _ => propagates_flag _
  | equality => exact stops_bind h0 fun _ => stops_bind h1 fun _ => propagates_flag _
  | inequality => exact stops_bind h0 fun _ => stops_bind h1 fun _ => propagates_flag _
  | sequence => exact stops_bind (propagates_argAt hargv 0) fun _ => propagates_argAt hargv 1
  | literal => exact propagates_stringValue _

end propagation

section trees
variable (parseInt : Text → ℤ → ℤ → Option ℤ)

mutual

theorem propagates_evaluateValue : ∀ expr : Expr, Propagates (evaluateValue parseInt expr)
  | .mk fn name argv start stop => by
    rw [evaluateValue]
    exact stops_enclose (propagates_call (propagates_arguments argv) parseInt fn _)
      (by simp [LeavesNull]) (by simp [LeavesNull]) rfl

theorem propagates_arguments : ∀ exprs : List Expr,
    ∀ arg ∈ arguments parseInt exprs, Propagates arg.value
  | [] => fun arg harg => absurd harg (by simp [arguments])
  | expr :: exprs => fun arg harg => by
    rw [arguments] at harg
    rcases List.mem_cons.mp harg with rfl | harg
    · exact propagates_evaluateValue expr
    · exact propagates_arguments exprs arg harg

end

/-- Once any expression of a tree was left with null, the tree's value is null, and so is that of
`Evaluate`, and all that happens is that the enclosing expressions are left with null. -/
theorem evaluation_stops_at_null (expr : Expr) (s : State) (before after : List Event)
    (h : (evaluateValue parseInt expr s).2.1 = before ++ .leave none :: after) :
    (evaluateValue parseInt expr s).1 = .null ∧
      (evaluate (evaluateValue parseInt expr) s).1 = .null ∧
      (evaluate (evaluateValue parseInt expr) s).2.1 = before ++ .leave none :: after ∧
      ∀ e ∈ after, e = .leave none := by
  obtain ⟨hnull, hafter⟩ := propagates_evaluateValue parseInt expr s before _ after h rfl
  have hevaluate : evaluate (evaluateValue parseInt expr) s =
      (.null, (evaluateValue parseInt expr s).2) := by
    change follow (evaluateValue parseInt expr s) _ = _
    generalize evaluateValue parseInt expr s = result at hnull ⊢
    obtain ⟨outcome, log, s'⟩ := result
    rw [show outcome = .null from hnull]
    rfl
  rw [hevaluate]
  exact ⟨hnull, rfl, h, hafter⟩

/-- `abort("x"); stdout("y")` -/
def abortThenPrint : Expr :=
  .mk .sequence ";".toList
    [.mk .abort "abort".toList [.mk .literal ['x'] [] 6 9] 0 10,
      .mk .stdout "stdout".toList [.mk .literal ['y'] [] 19 22] 12 23] 0 23

theorem abortThenPrint_stops :
    let s : State := ⟨"abort(\"x\"); stdout(\"y\")".toList, [], .kNoCause⟩
    let start : List Event := [.enter ";".toList 0 23, .enter "abort".toList 0 10,
      .enter ['x'] 6 9, .leave (some ⟨.string, ['x']⟩)]
    (evaluateValue (fun _ _ _ => none) abortThenPrint s).2.1 = start ++ [.leave none, .leave none] ∧
      (evaluateValue (fun _ _ _ => none) abortThenPrint s).1 = .null := by
  intro s start
  have hlog : (evaluateValue (fun _ _ _ => none) abortThenPrint s).2.1 =
      start ++ [.leave none, .leave none] := rfl
  exact ⟨hlog, (evaluation_stops_at_null _ abortThenPrint s start [.leave none] hlog).1⟩

end trees
end BootableRecovery.Edify
