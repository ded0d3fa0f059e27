import BootableRecovery.Lib.Text
import Mathlib.Data.List.Basic

namespace BootableRecovery.Twrp
open Lib

/-! OpenRecoveryScript: the lines of the script file, and the commands they are cut into. -/

/-- `SCRIPT_COMMAND_SIZE` -/
def scriptCommandSize : ℕ := 512

/-- `fgets` with room for `n` characters: the line, and what is left of the file. -/
def fgets : ℕ → Text → Text × Text
  | 0, s => ([], s)
  | _, [] => ([], [])
  | n + 1, c :: s => if c = '\n' then ([c], s) else (c :: (fgets n s).1, (fgets n s).2)

theorem fgets_append (n : ℕ) (s : Text) : (fgets n s).1 ++ (fgets n s).2 = s := by
  fun_induction fgets n s with
  | case1 => rfl
  | case2 => rfl
  | case3 => rfl
  | case4 n c s hc ih => rw [List.cons_append, ih]

theorem fgets_rest_lt {n : ℕ} {c : Char} {s : Text} :
    (fgets (n + 1) (c :: s)).2.length < (c :: s).length := by
  rw [fgets, List.length_cons]
  split_ifs
  · exact Nat.lt_succ_self _
  · have happ := congrArg List.length (fgets_append n s)
    rw [List.length_append] at happ
    dsimp only
    omega

/-- The lines that the loop of `run_script_file` reads. -/
def readLines (s : Text) : List Text :=
  match s with
  | [] => []
  | c :: s => (fgets 511 (c :: s)).1 :: readLines (fgets 511 (c :: s)).2
termination_by s.length
decreasing_by exact fgets_rest_lt

def skipChar (c : Char) (s : Text) : Text := if s.head? = some c then s.tail else s

/-- The command and the value of a line, which is `none` where it is too short for a command. The
second separator is compared with 51, the digit 3. -/
def parseLine (scriptLine : Text) : Option (Text × Text) :=
  let line := cString scriptLine
  if line.length < 2 then none
  else
    let cindex := if ' ' ∈ line then line.idxOf ' ' else 0
    let removeNl := if line.getLast? = some '\n' then 2 else 1
    if cindex ≠ 0 then
      let valStart := line.drop (cindex + 1)
      let valStart := skipChar ' ' valStart
      let valStart := skipChar (Char.ofNat 51) valStart
      let valStart := skipChar ' ' valStart
      some (line.take cindex, valStart.take (line.length - cindex - removeNl))
    else some (line.take (line.length - removeNl + 1), [])

def scriptCommands (file : Text) : List (Text × Text) := (readLines file).filterMap parseLine

/-- The loop of `run_script_file`, which stops after a command that fails. `execute` is what the
commands do. -/
def runCommands {σ : Type} (execute : σ → Text → Text → σ × ℤ) :
    List (Text × Text) → σ → σ × ℤ
  | [], s => (s, 0)
  | c :: rest, s =>
    if (execute s c.1 c.2).2 = 0 then runCommands execute rest (execute s c.1 c.2).1
    else execute s c.1 c.2

def runScriptFile {σ : Type} (execute : σ → Text → Text → σ × ℤ) (file : Text) (s : σ) : σ × ℤ :=
  runCommands execute (scriptCommands file) s

/-- `Insert_ORS_Command` on a script file that can be opened. -/
def insertOrsCommand (file command : Text) : Text := file ++ cString command ++ ['\n']

section Lines
variable {file line : Text}

/-- A script of whole lines. -/
def WholeLines (file : Text) : Prop := file = [] ∨ file.getLast? = some '\n'

/-- What is behind the first newline, or behind the room there is, is not looked at. -/
theorem fgets_behind {n : ℕ} {s : Text} (h : '\n' ∈ s ∨ n ≤ s.length) (rest : Text) :
    fgets n (s ++ rest) = ((fgets n s).1, (fgets n s).2 ++ rest) := by
  fun_induction fgets n s with
  | case1 => simp [fgets]
  | case2 n hn =>
    obtain h | h := h
    · exact absurd h List.not_mem_nil
    · exact absurd (Nat.le_zero.mp h) hn
  | case3 n s => simp [fgets]
  | case4 n c s hc ih =>
    have hmem : '\n' ∈ s ∨ n ≤ s.length :=
      h.imp (fun hm => (List.mem_cons.mp hm).resolve_left fun heq => hc heq.symm)
        Nat.le_of_succ_le_succ
    rw [List.cons_append, fgets, if_neg hc, ih hmem]

theorem fgets_whole (h : file.getLast? = some '\n') (n : ℕ) :
    WholeLines (fgets n file).2 := by
  have happ := fgets_append n file
  cases hrest : (fgets n file).2 with
  | nil => exact Or.inl rfl
  | cons c rest =>
    rw [hrest] at happ
    rw [← happ, List.getLast?_append_of_ne_nil _ (List.cons_ne_nil c rest)] at h
    exact Or.inr h

/-- Lines are read one after another. -/
theorem readLines_append (h : WholeLines file) (rest : Text) :
    readLines (file ++ rest) = readLines file ++ readLines rest := by
  fun_induction readLines file with
  | case1 => rfl
  | case2 c s ih =>
    have hlast := h.resolve_left (List.cons_ne_nil c s)
    rw [List.cons_append, readLines, ← List.cons_append,
      fgets_behind (Or.inl (List.mem_of_getLast? hlast)), List.cons_append,
      ih (fgets_whole hlast _)]

theorem readLines_line (hline : '\n' ∉ line) (hlen : line.length < 511) :
    readLines (line ++ ['\n']) = [line ++ ['\n']] := by
  have hread : ∀ (n : ℕ) (s : Text), '\n' ∉ s → s.length < n →
      fgets n (s ++ ['\n']) = (s ++ ['\n'], []) := by
    intro n s
    induction s generalizing n with
    | nil =>
      intro _ hn
      obtain ⟨k, rfl⟩ := Nat.exists_eq_succ_of_ne_zero (Nat.ne_of_gt hn)
      exact if_pos rfl
    | cons c s ih =>
      intro hmem hn
      obtain ⟨k, rfl⟩ := Nat.exists_eq_succ_of_ne_zero (Nat.ne_of_gt (Nat.zero_lt_of_lt hn))
      rw [List.mem_cons, not_or] at hmem
      rw [List.cons_append, fgets, if_neg (Ne.symm hmem.1),
        ih k hmem.2 (Nat.lt_of_succ_lt_succ hn)]
  obtain ⟨c, s, hs⟩ := List.exists_cons_of_ne_nil (List.append_ne_nil_of_right_ne_nil line
    (List.cons_ne_nil '\n' []))
  rw [hs, readLines, ← hs, hread 511 line hline hlen, readLines]

theorem wholeLines_insert (command : Text) : WholeLines (insertOrsCommand file command) :=
  Or.inr List.getLast?_concat

end Lines

section Parse
variable {c : Char} {s : Text}

theorem skipChar_cases (c : Char) (s : Text) :
    skipChar c s = s ∧ s.head? ≠ some c ∨ skipChar c s = s.tail ∧ s.head? = some c := by
  rw [skipChar]
  by_cases h : s.head? = some c
  · exact Or.inr ⟨if_pos h, h⟩
  · exact Or.inl ⟨if_neg h, h⟩

theorem skipChar_length_le (c : Char) (s : Text) : (skipChar c s).length ≤ s.length := by
  obtain ⟨heq, -⟩ | ⟨heq, -⟩ := skipChar_cases c s
  · rw [heq]
  · rw [heq, List.length_tail]
    exact Nat.sub_le _ _

/-- Nothing is skipped where, and only where, the length stays. -/
theorem skipChar_eq_self_of_length (h : (skipChar c s).length = s.length) :
    skipChar c s = s ∧ s.head? ≠ some c := by
  obtain hcase | ⟨heq, hhead⟩ := skipChar_cases c s
  · exact hcase
  · obtain ⟨d, rest, rfl⟩ : ∃ d rest, s = d :: rest := by
      cases s with
      | nil => exact absurd hhead (Option.some_ne_none c).symm
      | cons d rest => exact ⟨d, rest, rfl⟩
    rw [heq, List.tail_cons, List.length_cons] at h
    omega

theorem skipChar_newline (hc : c ≠ '\n') (s : Text) :
    skipChar c (s ++ ['\n']) = skipChar c s ++ ['\n'] := by
  cases s with
  | nil =>
    have hhead : ['\n'].head? ≠ some c := fun h => hc (Option.some.inj h).symm
    rw [List.nil_append, skipChar, if_neg hhead]
    rfl
  | cons d s =>
    rw [skipChar, skipChar]
    by_cases hd : (d :: s).head? = some c
    · rw [if_pos hd]
      exact if_pos hd
    · rw [if_neg hd]
      exact if_neg hd

/-- The three separators that may stand behind the first one. -/
def skipSeparators (s : Text) : Text :=
  skipChar ' ' (skipChar (Char.ofNat 51) (skipChar ' ' s))

theorem skipSeparators_newline (s : Text) :
    skipSeparators (s ++ ['\n']) = skipSeparators s ++ ['\n'] := by
  rw [skipSeparators, skipChar_newline (by decide), skipChar_newline (by decide),
    skipChar_newline (by decide), skipSeparators]

theorem skipSeparators_eq_self_of_length (h : (skipSeparators s).length = s.length) :
    skipSeparators s = s ∧ s.head? ≠ some ' ' ∧ s.head? ≠ some '3' := by
  have h₁ := skipChar_length_le ' ' s
  have h₂ := skipChar_length_le (Char.ofNat 51) (skipChar ' ' s)
  have h₃ := skipChar_length_le ' ' (skipChar (Char.ofNat 51) (skipChar ' ' s))
  rw [skipSeparators] at h
  obtain ⟨heq₁, hspace⟩ := skipChar_eq_self_of_length (c := ' ') (s := s) (by omega)
  rw [heq₁] at h h₂ h₃
  obtain ⟨heq₂, hthree⟩ := skipChar_eq_self_of_length (c := Char.ofNat 51) (s := s) (by omega)
  rw [skipSeparators, heq₁, heq₂, heq₁]
  exact ⟨rfl, hspace, hthree⟩

theorem skipSeparators_eq_self (hspace : s.head? ≠ some ' ') (hthree : s.head? ≠ some '3') :
    skipSeparators s = s := by
  rw [skipSeparators, skipChar, skipChar, skipChar, if_neg hspace, if_neg hthree, if_neg hspace]

/-- The value that is cut out behind the first space. The copy has the length that is left without
separators, so every one that is skipped brings in the newline. -/
theorem parseLine_newline {command rest : Text} (hne : command ≠ []) (hspace : ' ' ∉ command)
    (hnul : '\x00' ∉ command ++ ' ' :: rest) :
    parseLine (command ++ ' ' :: rest ++ ['\n']) =
      some (command, (skipSeparators rest ++ ['\n']).take rest.length) := by
  have hpos := List.length_pos_iff.mpr hne
  have hcstring :
      cString (command ++ ' ' :: rest ++ ['\n']) = command ++ ' ' :: rest ++ ['\n'] := by
    apply cString_of_no_nul
    intro hmem
    exact (List.mem_append.mp hmem).elim hnul (by decide)
  have hlength : (command ++ ' ' :: rest ++ ['\n']).length = command.length + rest.length + 2 := by
    simp only [List.length_append, List.length_cons, List.length_nil]
    omega
  have hindex : (command ++ ' ' :: rest ++ ['\n']).idxOf ' ' = command.length := by
    rw [List.append_assoc, List.idxOf_append_of_notMem hspace, List.cons_append,
      List.idxOf_cons_self, Nat.add_zero]
  have hmem : ' ' ∈ command ++ ' ' :: rest ++ ['\n'] := by simp
  have hdrop : (command ++ ' ' :: rest ++ ['\n']).drop (command.length + 1) = rest ++ ['\n'] := by
    rw [List.append_assoc, ← List.drop_drop, List.drop_left, List.cons_append, List.drop_one,
      List.tail_cons]
  have htake : (command ++ ' ' :: rest ++ ['\n']).take command.length = command := by
    rw [List.append_assoc, List.take_left]
  have hcopy : command.length + rest.length + 2 - command.length - 2 = rest.length := by omega
  have hskip := skipSeparators_newline rest
  rw [skipSeparators] at hskip
  unfold parseLine
  dsimp only
  rw [hcstring, if_neg (by omega), if_pos hmem, hindex, if_pos (by omega),
    if_pos List.getLast?_concat, hdrop, htake, hskip, hlength, hcopy]

theorem parseLine_value_iff {command rest value : Text} (hne : command ≠ [])
    (hspace : ' ' ∉ command) (hnul : '\x00' ∉ command ++ ' ' :: rest) (hvalue : '\n' ∉ value) :
    parseLine (command ++ ' ' :: rest ++ ['\n']) = some (command, value) ↔
      rest = value ∧ rest.head? ≠ some ' ' ∧ rest.head? ≠ some '3' := by
  have hle : (skipSeparators rest).length ≤ rest.length :=
    (skipChar_length_le _ _).trans ((skipChar_length_le _ _).trans (skipChar_length_le _ _))
  rw [parseLine_newline hne hspace hnul, Option.some.injEq, Prod.mk.injEq,
    and_iff_right (rfl : command = command)]
  constructor
  · intro heq
    by_cases hlen : (skipSeparators rest).length = rest.length
    · obtain ⟨hself, hheads⟩ := skipSeparators_eq_self_of_length hlen
      rw [hself, List.take_left] at heq
      exact ⟨heq, hheads⟩
    · rw [List.take_of_length_le (by rw [List.length_append, List.length_singleton]; omega)] at heq
      exact absurd (heq ▸ List.mem_append_right _ List.mem_cons_self) hvalue
  · rintro ⟨rfl, hspaceHead, hthree⟩
    rw [skipSeparators_eq_self hspaceHead hthree, List.take_left]

end Parse

/-- A space, and what the comments of the parser let follow it: a space, an `=`, a space. -/
def separator (space equals last : Bool) : Text :=
  ' ' :: ((if space then [' '] else []) ++ (if equals then ['='] else []) ++
    if last then [' '] else [])

/-- A command word with a value that does not look like a separator. -/
structure PlainCommand (command value : Text) : Prop where
  word : command ≠ []
  noSpace : ' ' ∉ command
  noEquals : '=' ∉ command
  headSpace : value.head? ≠ some ' '
  headEquals : value.head? ≠ some '='
  newline : '\n' ∉ command ∧ '\n' ∉ value
  nul : '\x00' ∉ command ∧ '\x00' ∉ value

section RoundTrip
variable {file command value : Text}

/-- What is run for a line that is appended is what was inserted. -/
def LineRuns (file command sep value : Text) : Prop :=
  scriptCommands (insertOrsCommand file (command ++ sep ++ value)) =
    scriptCommands file ++ [(command, value)]

theorem scriptCommands_insert {line : Text} (hfile : WholeLines file) (hnewline : '\n' ∉ line)
    (hnul : '\x00' ∉ line) (hlen : line.length < 511) :
    scriptCommands (insertOrsCommand file line) =
      scriptCommands file ++ (parseLine (line ++ ['\n'])).toList := by
  rw [insertOrsCommand, cString_of_no_nul hnul, scriptCommands, List.append_assoc,
    readLines_append hfile, readLines_line hnewline hlen, List.filterMap_append, scriptCommands,
    List.append_cancel_left_eq]
  cases hparse : parseLine (line ++ ['\n']) with
  | none => exact List.filterMap_cons_none hparse
  | some c => exact List.filterMap_cons_some hparse

theorem separator_tail_eq_nil (space equals last : Bool) :
    (separator space equals last).tail = [] ↔ space = false ∧ equals = false ∧ last = false := by
  cases space <;> cases equals <;> cases last <;> decide

theorem mem_separator {space equals last : Bool} {c : Char}
    (h : c ∈ separator space equals last) : c = ' ' ∨ c = '=' := by
  revert h
  cases space <;> cases equals <;> cases last <;> simp [separator] <;> tauto

/-- Every line that can be inserted is run as it was meant, with any separator. -/
def InsertedLinesRun : Prop :=
  ∀ (file command value : Text) (space equals last : Bool),
    WholeLines file → PlainCommand command value →
      (command ++ separator space equals last ++ value ++ ['\n']).length < scriptCommandSize →
        LineRuns file command (separator space equals last) value

/-- A line is run as it was meant exactly when it has the one space, and its value does not start
with the digit that is skipped for an `=`. -/
theorem insertedLine_runs_iff (file command value : Text) (space equals last : Bool)
    (hfile : WholeLines file) (hplain : PlainCommand command value)
    (hlen : (command ++ separator space equals last ++ value ++ ['\n']).length <
      scriptCommandSize) :
    LineRuns file command (separator space equals last) value ↔
      (space = false ∧ equals = false ∧ last = false) ∧ value.head? ≠ some '3' := by
  obtain ⟨tail, htail⟩ : ∃ tail, separator space equals last = ' ' :: tail := ⟨_, rfl⟩
  have hsep : ∀ c, c ∈ ' ' :: tail → c ≠ '\n' ∧ c ≠ '\x00' := by
    intro c hc
    rw [← htail] at hc
    obtain rfl | rfl := mem_separator hc
    · decide
    · decide
  have hnone := separator_tail_eq_nil space equals last
  have hline : ∀ c, c ∈ command ++ ' ' :: tail ++ value → c ≠ '\n' ∧ c ≠ '\x00' := by
    intro c hc
    obtain hc | hc := List.mem_append.mp hc
    · obtain hc | hc := List.mem_append.mp hc
      · exact ⟨fun heq => hplain.newline.1 (heq ▸ hc), fun heq => hplain.nul.1 (heq ▸ hc)⟩
      · exact hsep c hc
    · exact ⟨fun heq => hplain.newline.2 (heq ▸ hc), fun heq => hplain.nul.2 (heq ▸ hc)⟩
  have hshape : command ++ ' ' :: tail ++ value = command ++ ' ' :: (tail ++ value) := by
    rw [List.append_assoc, List.cons_append]
  have hnul : '\x00' ∉ command ++ ' ' :: (tail ++ value) := by
    rw [← hshape]
    exact fun hmem => (hline _ hmem).2 rfl
  have hshort : (command ++ ' ' :: tail ++ value).length < 511 := by
    rw [htail, List.length_append, List.length_singleton] at hlen
    exact Nat.lt_of_succ_lt_succ hlen
  rw [htail, List.tail_cons] at hnone
  rw [htail, LineRuns, scriptCommands_insert hfile (fun hmem => (hline _ hmem).1 rfl)
    (fun hmem => (hline _ hmem).2 rfl) hshort, List.append_cancel_left_eq, hshape,
    show [(command, value)] = (some (command, value)).toList from rfl]
  have hinj : ∀ a b : Option (Text × Text), a.toList = b.toList ↔ a = b := by
    intro a b
    cases a <;> cases b <;> simp
  rw [hinj, parseLine_value_iff hplain.word hplain.noSpace hnul hplain.newline.2, ← hnone]
  constructor
  · rintro ⟨hvalue, -, hthree⟩
    rw [hvalue] at hthree
    exact ⟨List.append_left_eq_self.mp hvalue, hthree⟩
  · rintro ⟨rfl, hthree⟩
    exact ⟨rfl, hplain.headSpace, hthree⟩

theorem plainCommand_install (value : Text) (hspace : value.head? ≠ some ' ')
    (hequals : value.head? ≠ some '=') (hnewline : '\n' ∉ value) (hnul : '\x00' ∉ value) :
    PlainCommand "install".toList value where
  word := by decide
  noSpace := by decide
  noEquals := by decide
  headSpace := hspace
  headEquals := hequals
  newline := ⟨by decide, hnewline⟩
  nul := ⟨by decide, hnul⟩

theorem insertedLine_runs_install :
    LineRuns [] "install".toList (separator false false false) "/sdcard/a.zip".toList :=
  (insertedLine_runs_iff [] "install".toList "/sdcard/a.zip".toList false false false (Or.inl rfl)
    (plainCommand_install _ (by decide) (by decide) (by decide) (by decide)) (by decide)).mpr
    ⟨⟨rfl, rfl, rfl⟩, by decide⟩

/-- The first digit of `3rd.zip` is lost. -/
theorem not_insertedLinesRun : ¬InsertedLinesRun := by
  intro hall
  have hplain : PlainCommand "install".toList "3rd.zip".toList :=
    plainCommand_install _ (by decide) (by decide) (by decide) (by decide)
  have hruns := hall [] "install".toList "3rd.zip".toList false false false (Or.inl rfl) hplain
    (by decide)
  rw [LineRuns, scriptCommands_insert (Or.inl rfl) (by decide) (by decide) (by decide),
    List.append_cancel_left_eq] at hruns
  exact absurd hruns (by decide)

/-- A command that survives being a line of the script. -/
structure ScriptSafe (c : Text × Text) : Prop where
  plain : PlainCommand c.1 c.2
  short : (c.1 ++ ' ' :: c.2).length < 511
  noThree : c.2.head? ≠ some '3'

def insertCommands (file : Text) (cs : List (Text × Text)) : Text :=
  cs.foldl (fun file c => insertOrsCommand file (c.1 ++ ' ' :: c.2)) file

theorem scriptCommands_insertCommands {cs : List (Text × Text)} (hfile : WholeLines file)
    (h : ∀ c ∈ cs, ScriptSafe c) :
    scriptCommands (insertCommands file cs) = scriptCommands file ++ cs := by
  induction cs generalizing file with
  | nil => exact (List.append_nil _).symm
  | cons c cs ih =>
    obtain ⟨hplain, hshort, hthree⟩ := h c List.mem_cons_self
    have hnewline : '\n' ∉ c.1 ++ ' ' :: c.2 := by
      simp [hplain.newline.1, hplain.newline.2]
    have hnul : '\x00' ∉ c.1 ++ ' ' :: c.2 := by
      simp [hplain.nul.1, hplain.nul.2]
    have hparse := (parseLine_value_iff hplain.word hplain.noSpace hnul hplain.newline.2).mpr
      ⟨rfl, hplain.headSpace, hthree⟩
    have hstep : insertCommands file (c :: cs) =
        insertCommands (insertOrsCommand file (c.1 ++ ' ' :: c.2)) cs := rfl
    rw [hstep, ih (wholeLines_insert _) fun d hd => h d (List.mem_cons_of_mem c hd),
      scriptCommands_insert hfile hnewline hnul hshort, hparse, List.append_assoc]
    rfl

/-- A script that is built of such commands runs them in order, up to the first that fails. -/
theorem runScriptFile_inserted {σ : Type} (execute : σ → Text → Text → σ × ℤ)
    {cs : List (Text × Text)} (h : ∀ c ∈ cs, ScriptSafe c) (s : σ) :
    runScriptFile execute (insertCommands [] cs) s = runCommands execute cs s := by
  have hempty : scriptCommands [] = [] := by
    rw [scriptCommands, readLines, List.filterMap_nil]
  rw [runScriptFile, scriptCommands_insertCommands (Or.inl rfl) h, hempty, List.nil_append]

end RoundTrip

end BootableRecovery.Twrp
