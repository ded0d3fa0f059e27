import BootableRecovery.Lib.Logged
import BootableRecovery.Lib.Text
import Mathlib.Data.List.Infix

namespace BootableRecovery.Edify
open Lib Logged

/-! Edify expressions: the built-in functions evaluate their arguments themselves. -/

inductive CauseCode
  | kNoCause
  | kArgsParsingFailure
deriving DecidableEq

/-- `Value::Type`, with its number. -/
inductive ValueType
  | string
  | blob
deriving DecidableEq

def ValueType.number : ValueType → ℕ
  | .string => 1
  | .blob => 2

structure Value where
  type : ValueType
  data : Text
deriving DecidableEq

/-- The members of `State` that the built-in functions use. -/
structure State where
  script : Text
  errmsg : Text
  causeCode : CauseCode

/-- What an evaluation does: functions are entered and left, and two of them act outside. -/
inductive Event
  | enter (name : Text) (start stop : ℤ)
  | leave (value : Option Value)
  | print (text : Text)
  | sleep (seconds : ℤ)
deriving DecidableEq

/-- An evaluation; `null` is the null pointer, `fault` an access outside of the arguments or of the
script. -/
abbrev Eval (α : Type) := Logged State Event α

/-- An argument, with its place in the script. -/
structure Arg where
  value : Eval Value
  start : ℤ
  stop : ℤ

inductive Builtin
  | ifElse
  | abort
  | assert
  | concat
  | substring
  | stdout
  | sleep
  | lessThanInt
  | greaterThanInt
  | logicalAnd
  | logicalOr
  | logicalNot
  | equality
  | inequality
  | sequence
  | literal
deriving DecidableEq

inductive Expr
  | mk (fn : Builtin) (name : Text) (argv : List Expr) (start stop : ℤ)

def Expr.start : Expr → ℤ
  | .mk _ _ _ start _ => start

def Expr.stop : Expr → ℤ
  | .mk _ _ _ _ stop => stop

section functions

def errorAbort {α : Type} (causeCode : CauseCode) (message : Text) : Eval α := do
  modify fun s => { s with errmsg := trim message ++ ['\n'], causeCode := causeCode }
  null

/-- A message that replaces the last one. -/
def refuse {α : Type} (message : Text) : Eval α := do
  modify fun s => { s with errmsg := message }
  null

/-- `Evaluate` -/
def evaluate (value : Eval Value) : Eval Text := do
  let v ← value
  if v.type ≠ .string then
    errorAbort .kArgsParsingFailure
      ("expecting string, got value type ".toList ++ decimal v.type.number)
  else pure v.data

def stringValue (s : Text) : Eval Value := pure ⟨.string, cString s⟩

def flag (b : Bool) : Eval Value := stringValue (if b then ['t'] else [])

/-- `argv[i]` -/
def argAt (argv : List Arg) (i : ℕ) : Eval Value :=
  match argv[i]? with
  | some arg => arg.value
  | none => fault

/-- The arguments of a `ReadArgs`. -/
def readArgs : List Arg → Eval (List Text)
  | [] => pure []
  | arg :: argv => do
    let var ← evaluate arg.value
    let args ← readArgs argv
    pure (var :: args)

def concatLoop : List Arg → Text → Eval Value
  | [], result => stringValue result
  | arg :: argv, result => do
    let str ← evaluate arg.value
    concatLoop argv (result ++ str)

def concatFn (argv : List Arg) : Eval Value :=
  if argv = [] then stringValue [] else concatLoop argv []

def ifElseFn (argv : List Arg) : Eval Value :=
  if argv.length ≠ 2 ∧ argv.length ≠ 3 then
    refuse "ifelse expects 2 or 3 arguments".toList
  else do
    let cond ← evaluate (argAt argv 0)
    if cond ≠ [] then argAt argv 1
    else if argv.length = 3 then argAt argv 2
    else stringValue []

/-- The message is added to what is there. -/
def abortFn (argv : List Arg) : Eval Value :=
  match argv with
  | [] => do
    modify fun s => { s with errmsg := s.errmsg ++ "called abort()".toList }
    null
  | arg :: _ => thenNull (evaluate arg.value) fun msg s =>
      { s with errmsg := s.errmsg ++ msg.getD "called abort()".toList }

/-- `substr` with the `int`s converted to `size_t`; it throws if the first is past the end. -/
def substr (s : Text) (start len : ℤ) : Option Text :=
  if start < 0 ∨ s.length < start then none
  else if len < 0 then some (s.drop start.toNat)
  else some ((s.drop start.toNat).take len.toNat)

def assertFailed (arg : Arg) : Eval Value := do
  let s ← get
  match substr s.script arg.start (arg.stop - arg.start) with
  | none => fault
  | some text => refuse ("assert failed: ".toList ++ text)

def assertFn : List Arg → Eval Value
  | [] => stringValue []
  | arg :: argv => do
    let result ← evaluate arg.value
    if result = [] then assertFailed arg else assertFn argv

def stdoutFn : List Arg → Eval Value
  | [] => stringValue []
  | arg :: argv => do
    let v ← evaluate arg.value
    emit (.print (cString v))
    stdoutFn argv

def logicalAndFn (argv : List Arg) : Eval Value := do
  let left ← evaluate (argAt argv 0)
  if left ≠ [] then argAt argv 1 else stringValue []

def logicalOrFn (argv : List Arg) : Eval Value := do
  let left ← evaluate (argAt argv 0)
  if left = [] then argAt argv 1 else stringValue left

def logicalNotFn (argv : List Arg) : Eval Value := do
  let val ← evaluate (argAt argv 0)
  flag (val = [])

def substringFn (argv : List Arg) : Eval Value := do
  let needle ← evaluate (argAt argv 0)
  let haystack ← evaluate (argAt argv 1)
  flag (needle <:+: haystack)

def equalityFn (argv : List Arg) : Eval Value := do
  let left ← evaluate (argAt argv 0)
  let right ← evaluate (argAt argv 1)
  flag (left = right)

def inequalityFn (argv : List Arg) : Eval Value := do
  let left ← evaluate (argAt argv 0)
  let right ← evaluate (argAt argv 1)
  flag (left ≠ right)

def sequenceFn (argv : List Arg) : Eval Value := do
  let _left ← argAt argv 0
  argAt argv 1

variable (parseInt : Text → ℤ → ℤ → Option ℤ)

def sleepFn (argv : List Arg) : Eval Value := do
  let val ← evaluate (argAt argv 0)
  match parseInt (cString val) 0 (2 ^ 31 - 1) with
  | none => null
  | some v => do
    emit (.sleep v)
    stringValue val

def parseInt64 (word : Text) : Eval ℤ :=
  match parseInt (cString word) (-2 ^ 63) (2 ^ 63 - 1) with
  | none => refuse ("failed to parse int in ".toList ++ word)
  | some v => pure v

/-- `LessThanIntFn` and `GreaterThanIntFn`, which differ in name and comparison. -/
def compareIntFn (name : Text) (compare : ℤ → ℤ → Bool) (argv : List Arg) : Eval Value :=
  if argv.length ≠ 2 then refuse (name ++ " expects 2 arguments".toList)
  else do
    let args ← readArgs argv
    let left ← parseInt64 parseInt (args.getD 0 [])
    let right ← parseInt64 parseInt (args.getD 1 [])
    flag (compare left right)

def lessThanIntFn : List Arg → Eval Value :=
  compareIntFn parseInt "less_than_int".toList fun l r => l < r

def greaterThanIntFn : List Arg → Eval Value :=
  compareIntFn parseInt "greater_than_int".toList fun l r => l > r

def literal (name : Text) : Eval Value := stringValue name

/-- `expr->fn` -/
def Builtin.call (fn : Builtin) (name : Text) (argv : List Arg) : Eval Value :=
  match fn with
  | .ifElse => ifElseFn argv
  | .abort => abortFn argv
  | .assert => assertFn argv
  | .concat => concatFn argv
  | .substring => substringFn argv
  | .stdout => stdoutFn argv
  | .sleep => sleepFn parseInt argv
  | .lessThanInt => lessThanIntFn parseInt argv
  | .greaterThanInt => greaterThanIntFn parseInt argv
  | .logicalAnd => logicalAndFn argv
  | .logicalOr => logicalOrFn argv
  | .logicalNot => logicalNotFn argv
  | .equality => equalityFn argv
  | .inequality => inequalityFn argv
  | .sequence => sequenceFn argv
  | .literal => Edify.literal name

mutual

/-- `EvaluateValue` -/
def evaluateValue : Expr → Eval Value
  | .mk fn name argv start stop =>
    enclose (.enter name start stop) .leave (fn.call parseInt (cString name) (arguments argv))

/-- The arguments, none of which is evaluated yet. -/
def arguments : List Expr → List Arg
  | [] => []
  | expr :: exprs => ⟨evaluateValue expr, expr.start, expr.stop⟩ :: arguments exprs

end

end functions
end BootableRecovery.Edify
