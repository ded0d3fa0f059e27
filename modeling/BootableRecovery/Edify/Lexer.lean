import BootableRecovery.Lib.Scanner
import BootableRecovery.Lib.Text

namespace BootableRecovery.Edify
open Lib Pattern

/-! The lexer of edify scripts; the texts are bytes. -/

inductive StartCondition
  | initial
  | str
deriving DecidableEq

/-- `YYLTYPE` -/
structure Location where
  start : ℕ
  stop : ℕ
deriving DecidableEq

inductive Token
  | and
  | or
  | eq
  | ne
  | ifToken
  | thenToken
  | elseToken
  | endifToken
  | string (str : Text)
  | bad
  | char (c : Char)
deriving DecidableEq

/-- The variables of the lexer, which are global: no call of the parser sets them. -/
structure LexState where
  startCondition : StartCondition
  gLine : ℕ
  gColumn : ℕ
  gPos : ℕ
  stringBuffer : Text
  yylloc : Location
deriving DecidableEq

/-- As the process starts. -/
def LexState.fresh : LexState := ⟨.initial, 1, 1, 0, [], ⟨0, 0⟩⟩

/-- What a rule does with its match: some return a token. -/
abbrev Action := LexState → Text → LexState × Option Token

/-- `ADVANCE` -/
def advance (s : LexState) (yytext : Text) : LexState :=
  { s with
    yylloc := ⟨s.gPos, s.gPos + yytext.length⟩
    gColumn := s.gColumn + yytext.length
    gPos := s.gPos + yytext.length }

/-- `ADVANCE; return` -/
def advanceReturn (token : Text → Token) : Action := fun s yytext =>
  (advance s yytext, some (token yytext))

/-- The rules for a character of a literal, but for a newline. -/
def pushBack (c : Text → Char) : Action := fun s yytext =>
  ({ s with
    gColumn := s.gColumn + yytext.length
    gPos := s.gPos + yytext.length
    stringBuffer := s.stringBuffer ++ [c yytext] }, none)

def pushNewline : Action := fun s yytext =>
  ({ s with
    gLine := s.gLine + 1
    gPos := s.gPos + 1
    gColumn := 1
    stringBuffer := s.stringBuffer ++ [yytext.headD '\n'] }, none)

def openQuote : Action := fun s _ =>
  ({ s with
    startCondition := .str
    stringBuffer := []
    yylloc := { s.yylloc with start := s.gPos }
    gColumn := s.gColumn + 1
    gPos := s.gPos + 1 }, none)

def closeQuote : Action := fun s _ =>
  ({ s with
    gColumn := s.gColumn + 1
    gPos := s.gPos + 1
    startCondition := .initial
    yylloc := { s.yylloc with stop := s.gPos + 1 } }, some (.string (cString s.stringBuffer)))

def newLine : Action := fun s yytext =>
  ({ s with gPos := s.gPos + yytext.length, gLine := s.gLine + 1, gColumn := 1 }, none)

def isHexDigit (c : Char) : Bool :=
  c.isDigit || ('a' ≤ c && c ≤ 'f') || ('A' ≤ c && c ≤ 'F')

def hexDigit (c : Char) : ℕ :=
  if c.isDigit then c.toNat - '0'.toNat
  else if 'a' ≤ c then c.toNat - 'a'.toNat + 10
  else c.toNat - 'A'.toNat + 10

/-- `sscanf(yytext+2, "%x", &val)` -/
def hexValue (yytext : Text) : Char :=
  Char.ofNat ((yytext.drop 2).foldl (fun val c => 16 * val + hexDigit c) 0)

def isWordChar (c : Char) : Bool := c.isAlphanum || c = '_' || c = ':' || c = '/' || c = '.'

def isOperator (c : Char) : Bool :=
  c = '+' || c = '(' || c = ')' || c = ',' || c = '!' || c = ';'

def isBlank (c : Char) : Bool := c = ' ' || c = '\t'

/-- `.` -/
def notNewline (c : Char) : Bool := c ≠ '\n'

def strRules : List (Pattern Char × Action) :=
  [(text ['"'], closeQuote),
    (text ['\\', 'n'], pushBack fun _ => '\n'),
    (text ['\\', 't'], pushBack fun _ => '\t'),
    (text ['\\', '"'], pushBack fun _ => '"'),
    (text ['\\', '\\'], pushBack fun _ => '\\'),
    (seq (text ['\\', 'x']) (seq (one isHexDigit) (one isHexDigit)), pushBack hexValue),
    (text ['\n'], pushNewline),
    (one notNewline, pushBack fun yytext => yytext.headD '\x00')]

def initialRules : List (Pattern Char × Action) :=
  [(text ['"'], openQuote),
    (text ['i', 'f'], advanceReturn fun _ => .ifToken),
    (text ['t', 'h', 'e', 'n'], advanceReturn fun _ => .thenToken),
    (text ['e', 'l', 's', 'e'], advanceReturn fun _ => .elseToken),
    (text ['e', 'n', 'd', 'i', 'f'], advanceReturn fun _ => .endifToken),
    (plus isWordChar, advanceReturn .string),
    (text ['&', '&'], advanceReturn fun _ => .and),
    (text ['|', '|'], advanceReturn fun _ => .or),
    (text ['=', '='], advanceReturn fun _ => .eq),
    (text ['!', '='], advanceReturn fun _ => .ne),
    (one isOperator, advanceReturn fun yytext => .char (yytext.headD '\x00')),
    (plus isBlank, fun s yytext => (advance s yytext, none)),
    (seq (opt (seq (text ['#']) (many notNewline))) (text ['\n']), newLine),
    (one notNewline, fun s _ => (s, some .bad))]

def rules : StartCondition → List (Pattern Char × Action)
  | .initial => initialRules
  | .str => strRules

theorem rules_not_nullable {c : StartCondition} {r : Pattern Char} {action : Action}
    (h : (r, action) ∈ rules c) : r.nullable = false := by
  have hall : ∀ c, ∀ rule ∈ rules c, rule.1.nullable = false := by
    intro c
    cases c <;> simp [rules, initialRules, strRules, nullable, plus]
  exact hall c _ h

theorem scan_pos {c : StartCondition} {input : Text} {action : Action} {n : ℕ}
    (h : scan (rules c) input = some (action, n)) : 0 < n ∧ n ≤ input.length := by
  obtain ⟨r, hr, hn⟩ := scan_mem h
  exact ⟨pos_of_mem_lengths (rules_not_nullable hr) hn, le_of_mem_lengths hn⟩

/-- `yylex`: the next token, none at the end, and the text that is left. -/
def yylex (s : LexState) (input : Text) : Option Token × LexState × Text :=
  match _h : scan (rules s.startCondition) input with
  | none => (none, s, input)
  | some (action, n) =>
    match action s (input.take n) with
    | (s', some token) => (some token, s', input.drop n)
    | (s', none) => yylex s' (input.drop n)
termination_by input.length
decreasing_by
  have := scan_pos _h
  rw [List.length_drop]
  omega

section yylex
variable {s s' s₁ s₂ : LexState} {input rest yytext : Text} {action : Action} {n : ℕ}
  {token : Token}

theorem yylex_pass (h : scan (rules s.startCondition) input = some (action, n))
    (ha : action s (input.take n) = (s', none)) : yylex s input = yylex s' (input.drop n) := by
  rw [yylex.eq_def]
  split
  · simp_all
  · rename_i h'
    obtain ⟨rfl, rfl⟩ := Prod.mk.inj (Option.some.inj (h.symm.trans h'))
    rw [ha]

theorem yylex_return (h : scan (rules s.startCondition) input = some (action, n))
    (ha : action s (input.take n) = (s', some token)) :
    yylex s input = (some token, s', input.drop n) := by
  rw [yylex.eq_def]
  split
  · simp_all
  · rename_i h'
    obtain ⟨rfl, rfl⟩ := Prod.mk.inj (Option.some.inj (h.symm.trans h'))
    rw [ha]

theorem yylex_end (h : scan (rules s.startCondition) input = none) :
    yylex s input = (none, s, input) := by
  rw [yylex.eq_def]
  split
  · rfl
  · simp_all

/-- How a call of `yylex` goes on. -/
theorem yylex_cases (s : LexState) (input : Text) :
    (scan (rules s.startCondition) input = none ∧ yylex s input = (none, s, input)) ∨
    ∃ r action n, (r, action) ∈ rules s.startCondition ∧ n ∈ r.lengths input ∧
      0 < n ∧ n ≤ input.length ∧
      ((∃ s' token, action s (input.take n) = (s', some token) ∧
          yylex s input = (some token, s', input.drop n)) ∨
        ∃ s', action s (input.take n) = (s', none) ∧
          yylex s input = yylex s' (input.drop n)) := by
  cases h : scan (rules s.startCondition) input with
  | none => exact .inl ⟨rfl, yylex_end h⟩
  | some best =>
    obtain ⟨action, n⟩ := best
    obtain ⟨r, hr, hn⟩ := scan_mem h
    refine .inr ⟨r, action, n, hr, hn, (scan_pos h).1, (scan_pos h).2, ?_⟩
    cases ha : action s (input.take n) with
    | mk s' token =>
      cases token with
      | none => exact .inr ⟨s', rfl, yylex_pass h ha⟩
      | some token => exact .inl ⟨s', token, rfl, yylex_return h ha⟩

/-- Every byte is read by some rule, so that only the end of the text ends the tokens. -/
theorem scan_eq_none {c : StartCondition} (h : scan (rules c) input = none) : input = [] := by
  cases input with
  | nil => rfl
  | cons a rest =>
    exfalso
    have hdot : (one notNewline).lengths (a :: rest) = if a = '\n' then [] else [1] := by
      by_cases ha : a = '\n' <;> simp [lengths, notNewline, ha]
    by_cases ha : a = '\n'
    · subst ha
      cases c with
      | initial =>
        have hr : (seq (opt (seq (text ['#']) (many notNewline))) (text ['\n']), newLine) ∈
            rules .initial := by simp [rules, initialRules]
        exact scan_ne_none hr (show 1 ∈ _ by simp [lengths]) h
      | str =>
        have hr : (text ['\n'], pushNewline) ∈ rules .str := by simp [rules, strRules]
        exact scan_ne_none hr (show 1 ∈ _ by simp [lengths]) h
    · have hone : 1 ∈ (one notNewline).lengths (a :: rest) := by simp [hdot, ha]
      cases c with
      | initial =>
        have hr : (one notNewline, fun s _ => (s, some .bad)) ∈ rules .initial := by
          simp [rules, initialRules]
        exact scan_ne_none hr hone h
      | str =>
        have hr : (one notNewline, pushBack fun yytext => yytext.headD '\x00') ∈ rules .str := by
          simp [rules, strRules]
        exact scan_ne_none hr hone h

theorem yylex_lt (h : yylex s input = (some token, s', rest)) : rest.length < input.length := by
  induction hlen : input.length using Nat.strongRecOn generalizing s input with
  | ind k ih =>
    rcases yylex_cases s input with ⟨-, hend⟩ | ⟨r, action, n, -, -, hpos, hle, hnext⟩
    · simp [hend] at h
    · rcases hnext with ⟨s'', token', -, hnext⟩ | ⟨s'', -, hnext⟩
      · obtain ⟨-, -, rfl⟩ : token' = token ∧ s'' = s' ∧ input.drop n = rest := by
          simpa [hnext] using h
        rw [List.length_drop]
        omega
      · have hdrop : (input.drop n).length < k := by
          rw [List.length_drop]
          omega
        have := ih _ hdrop (hnext ▸ h) rfl
        omega

/-- The tokens of a text and their locations. -/
def tokens (s : LexState) (input : Text) : List (Token × Location) :=
  match _h : yylex s input with
  | (none, _, _) => []
  | (some token, s', rest) => (token, s'.yylloc) :: tokens s' rest
termination_by input.length
decreasing_by exact yylex_lt _h

theorem tokens_cons (h : yylex s input = (some token, s', rest)) :
    tokens s input = (token, s'.yylloc) :: tokens s' rest := by
  rw [tokens.eq_def]
  split
  · simp_all
  · simp_all

theorem tokens_nil (h : yylex s input = (none, s', rest)) : tokens s input = [] := by
  rw [tokens.eq_def]
  split
  · rfl
  · simp_all

/-- Two states with which the lexer returns the same tokens. -/
def Agree (s₁ s₂ : LexState) : Prop :=
  s₁.startCondition = s₂.startCondition ∧
    (s₁.startCondition = .str → s₁.stringBuffer = s₂.stringBuffer)

theorem Agree.step {r : Pattern Char} (h : Agree s₁ s₂)
    (hr : (r, action) ∈ rules s₁.startCondition) :
    (action s₁ yytext).2 = (action s₂ yytext).2 ∧
      Agree (action s₁ yytext).1 (action s₂ yytext).1 := by
  obtain ⟨hstart, hbuffer⟩ := h
  cases hc : s₁.startCondition with
  | initial =>
    rw [hc] at hr hstart
    simp only [rules, initialRules, List.mem_cons, Prod.mk.injEq, List.not_mem_nil, or_false] at hr
    rcases hr with ⟨-, rfl⟩ | ⟨-, rfl⟩ | ⟨-, rfl⟩ | ⟨-, rfl⟩ | ⟨-, rfl⟩ | ⟨-, rfl⟩ | ⟨-, rfl⟩ |
      ⟨-, rfl⟩ | ⟨-, rfl⟩ | ⟨-, rfl⟩ | ⟨-, rfl⟩ | ⟨-, rfl⟩ | ⟨-, rfl⟩ | ⟨-, rfl⟩ <;>
      simp [Agree, openQuote, advanceReturn, advance, newLine, hc, ← hstart]
  | str =>
    have hbuffer := hbuffer hc
    rw [hc] at hr hstart
    simp only [rules, strRules, List.mem_cons, Prod.mk.injEq, List.not_mem_nil, or_false] at hr
    rcases hr with ⟨-, rfl⟩ | ⟨-, rfl⟩ | ⟨-, rfl⟩ | ⟨-, rfl⟩ | ⟨-, rfl⟩ | ⟨-, rfl⟩ | ⟨-, rfl⟩ |
      ⟨-, rfl⟩ <;>
      simp [Agree, closeQuote, pushBack, pushNewline, hc, ← hstart, hbuffer]

theorem Agree.yylex_eq (h : Agree s₁ s₂) : (yylex s₁ input).1 = (yylex s₂ input).1 ∧
    Agree (yylex s₁ input).2.1 (yylex s₂ input).2.1 ∧
      (yylex s₁ input).2.2 = (yylex s₂ input).2.2 := by
  induction hlen : input.length using Nat.strongRecOn generalizing s₁ s₂ input with
  | ind k ih =>
    cases hscan : scan (rules s₁.startCondition) input with
    | none =>
      rw [yylex_end hscan, yylex_end (h.1 ▸ hscan)]
      exact ⟨rfl, h, rfl⟩
    | some best =>
      obtain ⟨action, n⟩ := best
      obtain ⟨r, hr, -⟩ := scan_mem hscan
      obtain ⟨htoken, hnext⟩ := @Agree.step s₁ s₂ (input.take n) action r h hr
      have hscan' : scan (rules s₂.startCondition) input = some (action, n) := h.1 ▸ hscan
      cases ha : action s₁ (input.take n) with
      | mk s' token =>
        cases hb : action s₂ (input.take n) with
        | mk s'' token' =>
          rw [ha, hb] at htoken hnext
          obtain rfl : token = token' := htoken
          cases token with
          | some token =>
            rw [yylex_return hscan ha, yylex_return hscan' hb]
            exact ⟨rfl, hnext, rfl⟩
          | none =>
            rw [yylex_pass hscan ha, yylex_pass hscan' hb]
            have hdrop : (input.drop n).length < k := by
              have := scan_pos hscan
              rw [List.length_drop]
              omega
            exact ih _ hdrop hnext rfl

/-- The tokens depend on the start condition and the buffer alone. -/
theorem Agree.tokens_eq (h : Agree s₁ s₂) :
    (tokens s₁ input).map Prod.fst = (tokens s₂ input).map Prod.fst := by
  induction hlen : input.length using Nat.strongRecOn generalizing s₁ s₂ input with
  | ind k ih =>
    obtain ⟨htoken, hnext, hrest⟩ := @Agree.yylex_eq s₁ s₂ input h
    rcases hone : yylex s₁ input with ⟨token, s', rest⟩
    rcases htwo : yylex s₂ input with ⟨token', s'', rest'⟩
    rw [hone, htwo] at htoken hnext hrest
    obtain rfl : token = token' := htoken
    obtain rfl : rest = rest' := hrest
    cases token with
    | none => rw [tokens_nil hone, tokens_nil htwo]
    | some token =>
      rw [tokens_cons hone, tokens_cons htwo, List.map_cons, List.map_cons,
        ih _ (hlen ▸ yylex_lt hone) hnext rfl]

end yylex
end BootableRecovery.Edify
