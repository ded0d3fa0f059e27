import BootableRecovery.Edify.Lexer
import Mathlib.Data.List.Forall2

namespace BootableRecovery.Edify
open Lib Pattern

/-! String literals in double quotes. -/

/-- The ways to write a byte in a literal. -/
inductive Spelled : Char → Text → Prop
  | plain {c : Char} : c ≠ '"' → c ≠ '\\' → Spelled c [c]
  | newline : Spelled '\n' ['\\', 'n']
  | tab : Spelled '\t' ['\\', 't']
  | quote : Spelled '"' ['\\', '"']
  | backslash : Spelled '\\' ['\\', '\\']
  | hex {a b : Char} : isHexDigit a = true → isHexDigit b = true →
      Spelled (Char.ofNat (16 * hexDigit a + hexDigit b)) ['\\', 'x', a, b]

theorem hexDigit_digitChar {n : ℕ} (h : n < 16) :
    isHexDigit (Nat.digitChar n) = true ∧ hexDigit (Nat.digitChar n) = n := by
  revert n
  decide

/-- Every byte has an escape. -/
theorem spelled_hex {c : Char} (hc : c.toNat < 256) :
    Spelled c ['\\', 'x', Nat.digitChar (c.toNat / 16), Nat.digitChar (c.toNat % 16)] := by
  obtain ⟨hhigh, hhigh'⟩ := hexDigit_digitChar (show c.toNat / 16 < 16 by omega)
  obtain ⟨hlow, hlow'⟩ := hexDigit_digitChar (show c.toNat % 16 < 16 by omega)
  have hspelled := Spelled.hex hhigh hlow
  rw [hhigh', hlow', Nat.div_add_mod, Char.ofNat_toNat] at hspelled
  exact hspelled

variable {s s' s'' : LexState} {c : Char} {v w v' w' : Text}

/-- What reading a part `w` of a literal does, which stands for `v`. -/
structure ReadsPart (s s' : LexState) (v w : Text) : Prop where
  startCondition : s'.startCondition = .str
  stringBuffer : s'.stringBuffer = s.stringBuffer ++ v
  gPos : s'.gPos = s.gPos + w.length
  yylloc : s'.yylloc = s.yylloc

theorem ReadsPart.trans (h : ReadsPart s s' v w) (h' : ReadsPart s' s'' v' w') :
    ReadsPart s s'' (v ++ v') (w ++ w') where
  startCondition := h'.startCondition
  stringBuffer := by rw [h'.stringBuffer, h.stringBuffer, List.append_assoc]
  gPos := by rw [h'.gPos, h.gPos, List.length_append, Nat.add_assoc]
  yylloc := h'.yylloc.trans h.yylloc

/-- The rule that reads a byte takes the whole of its spelling. -/
theorem scan_spelled (h : Spelled c w) (rest : Text) :
    (scan strRules (w ++ rest) = some (pushNewline, w.length) ∧ w = ['\n'] ∧ c = '\n') ∨
      ∃ value, scan strRules (w ++ rest) = some (pushBack value, w.length) ∧ value w = c := by
  cases h with
  | plain hquote hbackslash =>
    by_cases hc : c = '\n'
    · subst hc
      exact .inl ⟨by simp [scan, strRules, longest, lengths, notNewline], rfl, rfl⟩
    · refine .inr ⟨fun yytext => yytext.headD '\x00', ?_, rfl⟩
      simp [scan, strRules, longest, lengths, notNewline, hc, hquote.symm, hbackslash.symm,
        Ne.symm hc]
  | newline =>
    exact .inr ⟨fun _ => '\n', by simp [scan, strRules, longest, lengths, notNewline], rfl⟩
  | tab => exact .inr ⟨fun _ => '\t', by simp [scan, strRules, longest, lengths, notNewline], rfl⟩
  | quote => exact .inr ⟨fun _ => '"', by simp [scan, strRules, longest, lengths, notNewline], rfl⟩
  | backslash =>
    exact .inr ⟨fun _ => '\\', by simp [scan, strRules, longest, lengths, notNewline], rfl⟩
  | hex ha hb =>
    refine .inr ⟨hexValue, ?_, by simp [hexValue]⟩
    simp [scan, strRules, longest, lengths, notNewline, ha, hb]

theorem yylex_spelled (hs : s.startCondition = .str) (h : Spelled c w) (rest : Text) :
    ∃ s', yylex s (w ++ rest) = yylex s' rest ∧ ReadsPart s s' [c] w := by
  have hdrop : (w ++ rest).drop w.length = rest := List.drop_left
  have htake : (w ++ rest).take w.length = w := List.take_left
  have hrules : rules s.startCondition = strRules := by
    rw [hs]
    rfl
  rcases scan_spelled h rest with ⟨hscan, hw, hc⟩ | ⟨value, hscan, hvalue⟩
  · have hpass := yylex_pass (hrules ▸ hscan) rfl
    rw [hdrop, htake] at hpass
    exact ⟨_, hpass, hs, by simp [hw, hc], by simp [hw], rfl⟩
  · have hpass := yylex_pass (hrules ▸ hscan) rfl
    rw [hdrop, htake] at hpass
    exact ⟨_, hpass, hs, by rw [hvalue], rfl, rfl⟩

theorem yylex_part (hs : s.startCondition = .str) {ws : List Text} (h : List.Forall₂ Spelled v ws)
    (rest : Text) :
    ∃ s', yylex s (ws.flatten ++ rest) = yylex s' rest ∧ ReadsPart s s' v ws.flatten := by
  induction h generalizing s with
  | nil => exact ⟨s, rfl, hs, by simp, rfl, rfl⟩
  | cons hspelled _ ih =>
    obtain ⟨s', hlex, hread⟩ := yylex_spelled hs hspelled (List.flatten _ ++ rest)
    obtain ⟨s'', hlex', hread'⟩ := ih hread.startCondition
    refine ⟨s'', ?_, hread.trans hread'⟩
    rw [List.flatten_cons, List.append_assoc, hlex, hlex']

theorem yylex_openQuote (hs : s.startCondition = .initial) (rest : Text) :
    yylex s ('"' :: rest) = yylex (openQuote s ['"']).1 rest := by
  have hscan : scan (rules s.startCondition) ('"' :: rest) = some (openQuote, 1) := by
    rw [hs]
    simp [scan, rules, initialRules, longest, lengths, plus, isWordChar, isOperator, isBlank,
      notNewline]
  exact yylex_pass hscan rfl

theorem yylex_closeQuote (hs : s.startCondition = .str) (rest : Text) :
    yylex s ('"' :: rest) =
      (some (.string (cString s.stringBuffer)), (closeQuote s ['"']).1, rest) := by
  have hscan : scan (rules s.startCondition) ('"' :: rest) = some (closeQuote, 1) := by
    rw [hs]
    simp [scan, rules, strRules, longest, lengths, notNewline]
  exact yylex_return hscan rfl

/-- A literal is one token, with the bytes that its spellings stand for; it ends at its quote, and
the text after it has the tokens that it has on its own. -/
theorem yylex_literal (s : LexState) (hs : s.startCondition = .initial) (v : Text)
    (hv : '\x00' ∉ v) (ws : List Text) (hw : List.Forall₂ Spelled v ws) (rest : Text) :
    ∃ s', yylex s ('"' :: (ws.flatten ++ '"' :: rest)) = (some (.string v), s', rest) ∧
      s'.startCondition = .initial ∧ s'.gPos = s.gPos + (ws.flatten.length + 2) ∧
      s'.yylloc = ⟨s.gPos, s'.gPos⟩ ∧
      (tokens s' rest).map Prod.fst = (tokens .fresh rest).map Prod.fst := by
  obtain ⟨s'', hlex, hread⟩ := yylex_part (s := (openQuote s ['"']).1) rfl hw ('"' :: rest)
  have hbuffer : s''.stringBuffer = v := hread.stringBuffer
  have hpos : s''.gPos = s.gPos + 1 + ws.flatten.length := hread.gPos
  have hloc : s''.yylloc.start = s.gPos := by rw [hread.yylloc]; rfl
  refine ⟨(closeQuote s'' ['"']).1, ?_, rfl, ?_, ?_, ?_⟩
  · rw [yylex_openQuote hs, hlex, yylex_closeQuote hread.startCondition, hbuffer,
      cString_of_no_nul hv]
  · simp only [closeQuote, hpos]
    omega
  · simp only [closeQuote, hloc]
  · exact Agree.tokens_eq ⟨rfl, by simp [closeQuote]⟩

theorem yylex_literal_escapes : ∃ s', yylex .fresh
      ('"' :: ([['a'], ['\\', '"'], ['\\', 'x', '4', 'A'], ['\n']].flatten ++ '"' :: ['b'])) =
        (some (.string ['a', '"', 'J', '\n']), s', ['b']) ∧
      s'.startCondition = .initial ∧ s'.gPos = 0 + (8 + 2) ∧ s'.yylloc = ⟨0, s'.gPos⟩ ∧
      (tokens s' ['b']).map Prod.fst = (tokens .fresh ['b']).map Prod.fst :=
  yylex_literal .fresh rfl ['a', '"', 'J', '\n'] (by decide) _
    (.cons (.plain (by decide) (by decide)) (.cons .quote
      (.cons (Spelled.hex (a := '4') (b := 'A') (by decide) (by decide))
        (.cons (.plain (by decide) (by decide)) .nil)))) ['b']

end BootableRecovery.Edify
