import BootableRecovery.Edify.Lexer
import Mathlib.Data.List.Forall2

namespace BootableRecovery.Edify
open Lib Pattern

/-! Where the tokens of a script stand in it, and what the lexer makes of that. -/

/-- What follows the blanks, newlines and comments that a text starts with. -/
def skipBlanks : Text → Text
  | [] => []
  | c :: input =>
    if isBlank c ∨ c = '\n' then skipBlanks input
    else if c = '#' ∧ '\n' ∈ input then skipBlanks (input.dropWhile notNewline).tail
    else c :: input
termination_by input => input.length
decreasing_by
  · simp
  · have := (List.dropWhile_suffix notNewline (l := input)).length_le
    simp only [List.length_tail, List.length_cons]
    omega

section skipBlanks
variable {input : Text} {c : Char} {n : ℕ}

theorem skipBlanks_blank (h : isBlank c = true ∨ c = '\n') :
    skipBlanks (c :: input) = skipBlanks input := by
  rw [skipBlanks, if_pos h]

theorem skipBlanks_comment (h : '\n' ∈ input) :
    skipBlanks ('#' :: input) = skipBlanks (input.dropWhile notNewline).tail := by
  rw [skipBlanks, if_neg (by decide), if_pos ⟨rfl, h⟩]

theorem skipBlanks_length_le (input : Text) : (skipBlanks input).length ≤ input.length := by
  fun_induction skipBlanks input with
  | case1 => simp
  | case2 c input _ ih => simp only [List.length_cons]; omega
  | case3 c input _ _ ih =>
    have := (List.dropWhile_suffix notNewline (l := input)).length_le
    simp only [List.length_tail, List.length_cons] at ih ⊢
    omega
  | case4 => simp

theorem skipBlanks_drop (h : n ≤ (input.takeWhile isBlank).length) :
    skipBlanks (input.drop n) = skipBlanks input := by
  induction n generalizing input with
  | zero => rfl
  | succ n ih =>
    cases input with
    | nil => rfl
    | cons c input =>
      cases hc : isBlank c with
      | false => simp [hc] at h
      | true =>
        rw [List.takeWhile_cons_of_pos hc, List.length_cons] at h
        rw [List.drop_succ_cons, ih (by omega), skipBlanks_blank (.inl hc)]

theorem skipBlanks_plus (h : n ∈ (plus isBlank).lengths input) :
    skipBlanks (input.drop n) = skipBlanks input := by
  obtain ⟨m, hm, k, hk, rfl⟩ := mem_lengths_seq.mp h
  obtain ⟨rfl, c, rest, rfl, hc⟩ := mem_lengths_one.mp hm
  have hk' : k ≤ (rest.takeWhile isBlank).length := mem_lengths_many.mp hk
  rw [Nat.add_comm, List.drop_succ_cons, skipBlanks_drop hk', skipBlanks_blank (.inl hc)]

theorem drop_takeWhile (hn : n ≤ (input.takeWhile notNewline).length)
    (h : ['\n'] <+: input.drop n) : input.drop n = input.dropWhile notNewline ∧ '\n' ∈ input := by
  induction n generalizing input with
  | zero =>
    obtain ⟨rest, rfl⟩ := h
    simp [notNewline]
  | succ n ih =>
    cases input with
    | nil => simp at hn
    | cons c input =>
      cases hc : notNewline c with
      | false => simp [hc] at hn
      | true =>
        rw [List.takeWhile_cons_of_pos hc, List.length_cons] at hn
        obtain ⟨hdrop, hmem⟩ := ih (by omega) h
        rw [List.drop_succ_cons, List.dropWhile_cons_of_pos hc]
        exact ⟨hdrop, List.mem_cons_of_mem c hmem⟩

theorem skipBlanks_newLine
    (h : n ∈ (seq (opt (seq (text ['#']) (many notNewline))) (text ['\n'])).lengths input) :
    skipBlanks (input.drop n) = skipBlanks input := by
  obtain ⟨m, hm, k, hk, rfl⟩ := mem_lengths_seq.mp h
  obtain ⟨hnewline, rfl⟩ := mem_lengths_text.mp hk
  rcases List.mem_cons.mp hm with rfl | hm
  · obtain ⟨rest, rfl⟩ := hnewline
    simp [skipBlanks_blank]
  · obtain ⟨m', hm', k, hk', rfl⟩ := mem_lengths_seq.mp hm
    obtain ⟨⟨rest, rfl⟩, rfl⟩ := mem_lengths_text.mp hm'
    have hk : k ≤ (rest.takeWhile notNewline).length := mem_lengths_many.mp hk'
    simp only [List.length_cons, List.length_nil, Nat.zero_add, Nat.add_comm 1 k,
      List.singleton_append, List.drop_succ_cons] at hnewline ⊢
    obtain ⟨hdrop, hmem⟩ := drop_takeWhile hk hnewline
    rw [skipBlanks_comment hmem, ← hdrop, List.tail_drop]

/-- What a token may not start with. -/
def endsBlanks (c : Char) : Bool := !isBlank c && notNewline c && c ≠ '#'

theorem skipBlanks_token (h : endsBlanks c = true) : skipBlanks (c :: input) = c :: input := by
  simp only [endsBlanks, notNewline, ne_eq, decide_not, Bool.and_eq_true, Bool.not_eq_true',
    decide_eq_false_iff_not] at h
  rw [skipBlanks, if_neg (by simp [h]), if_neg (by simp [h])]

theorem skipBlanks_text {a : Char} {w : Text} (h : n ∈ (text (a :: w)).lengths input)
    (ha : endsBlanks a = true) : skipBlanks input = input := by
  obtain ⟨⟨rest, rfl⟩, -⟩ := mem_lengths_text.mp h
  exact skipBlanks_token ha

theorem skipBlanks_one {p : Char → Bool} (h : n ∈ (one p).lengths input)
    (hp : ∀ c, p c = true → endsBlanks c = true) : skipBlanks input = input := by
  obtain ⟨-, c, rest, rfl, hc⟩ := mem_lengths_one.mp h
  exact skipBlanks_token (hp c hc)

theorem endsBlanks_of_isWordChar (c : Char) (h : isWordChar c = true) : endsBlanks c = true := by
  simp only [endsBlanks, isBlank, notNewline, ne_eq, decide_not, Bool.and_eq_true,
    Bool.not_eq_true', Bool.or_eq_false_iff, decide_eq_false_iff_not]
  refine ⟨⟨⟨?_, ?_⟩, ?_⟩, ?_⟩ <;> rintro rfl <;> exact absurd h (by decide)

theorem endsBlanks_of_isOperator (c : Char) (h : isOperator c = true) : endsBlanks c = true := by
  simp only [endsBlanks, isBlank, notNewline, ne_eq, decide_not, Bool.and_eq_true,
    Bool.not_eq_true', Bool.or_eq_false_iff, decide_eq_false_iff_not]
  refine ⟨⟨⟨?_, ?_⟩, ?_⟩, ?_⟩ <;> rintro rfl <;> exact absurd h (by decide)

end skipBlanks

section positions
variable {s s' : LexState} {input rest : Text} {action : Action} {n : ℕ} {r : Pattern Char}

/-- What a rule of the initial condition does: tokens but `BAD` have the place of their match. -/
theorem initial_action (hs : s.startCondition = .initial) (hr : (r, action) ∈ initialRules)
    (hn : n ∈ r.lengths input) :
    (∃ s', action s (input.take n) = (s', none) ∧ s'.startCondition = .str ∧
      s'.yylloc.start = s.gPos ∧ s'.gPos = s.gPos + n ∧ skipBlanks input = input) ∨
    (∃ s', action s (input.take n) = (s', none) ∧ s'.startCondition = .initial ∧
      s'.gPos = s.gPos + n ∧ skipBlanks (input.drop n) = skipBlanks input) ∨
    (∃ s' token, action s (input.take n) = (s', some token) ∧ s'.startCondition = .initial ∧
      s'.yylloc = ⟨s.gPos, s'.gPos⟩ ∧ s'.gPos = s.gPos + n ∧ skipBlanks input = input) ∨
    action s (input.take n) = (s, some .bad) := by
  have hlength : (input.take n).length = n := List.length_take_of_le (le_of_mem_lengths hn)
  have hreturn : ∀ token : Text → Token, skipBlanks input = input →
      ∃ s' t, advanceReturn token s (input.take n) = (s', some t) ∧ s'.startCondition = .initial ∧
        s'.yylloc = ⟨s.gPos, s'.gPos⟩ ∧ s'.gPos = s.gPos + n ∧ skipBlanks input = input :=
    fun token h => ⟨_, _, rfl, hs, rfl, by rw [advance, hlength], h⟩
  simp only [initialRules, List.mem_cons, Prod.mk.injEq, List.not_mem_nil, or_false] at hr
  rcases hr with ⟨rfl, rfl⟩ | ⟨rfl, rfl⟩ | ⟨rfl, rfl⟩ | ⟨rfl, rfl⟩ | ⟨rfl, rfl⟩ | ⟨rfl, rfl⟩ |
    ⟨rfl, rfl⟩ | ⟨rfl, rfl⟩ | ⟨rfl, rfl⟩ | ⟨rfl, rfl⟩ | ⟨rfl, rfl⟩ | ⟨rfl, rfl⟩ | ⟨rfl, rfl⟩ |
    ⟨-, rfl⟩
  · obtain ⟨-, rfl⟩ := mem_lengths_text.mp hn
    exact .inl ⟨_, rfl, rfl, rfl, rfl, skipBlanks_text hn (by decide)⟩
  · exact .inr (.inr (.inl (hreturn _ (skipBlanks_text hn (by decide)))))
  · exact .inr (.inr (.inl (hreturn _ (skipBlanks_text hn (by decide)))))
  · exact .inr (.inr (.inl (hreturn _ (skipBlanks_text hn (by decide)))))
  · exact .inr (.inr (.inl (hreturn _ (skipBlanks_text hn (by decide)))))
  · obtain ⟨m, hm, -⟩ := mem_lengths_seq.mp hn
    exact .inr (.inr (.inl (hreturn _ (skipBlanks_one hm endsBlanks_of_isWordChar))))
  · exact .inr (.inr (.inl (hreturn _ (skipBlanks_text hn (by decide)))))
  · exact .inr (.inr (.inl (hreturn _ (skipBlanks_text hn (by decide)))))
  · exact .inr (.inr (.inl (hreturn _ (skipBlanks_text hn (by decide)))))
  · exact .inr (.inr (.inl (hreturn _ (skipBlanks_text hn (by decide)))))
  · exact .inr (.inr (.inl (hreturn _ (skipBlanks_one hn endsBlanks_of_isOperator))))
  · exact .inr (.inl ⟨_, rfl, hs, by rw [advance, hlength], skipBlanks_plus hn⟩)
  · exact .inr (.inl ⟨_, rfl, hs, by rw [hlength], skipBlanks_newLine hn⟩)
  · exact .inr (.inr (.inr rfl))

/-- What a rule inside of a literal does. -/
theorem str_action (hs : s.startCondition = .str) (hr : (r, action) ∈ strRules)
    (hn : n ∈ r.lengths input) :
    (∃ s', action s (input.take n) = (s', none) ∧ s'.startCondition = .str ∧
      s'.yylloc = s.yylloc ∧ s'.gPos = s.gPos + n) ∨
    ∃ s' str, action s (input.take n) = (s', some (.string str)) ∧
      s'.startCondition = .initial ∧ s'.yylloc = ⟨s.yylloc.start, s'.gPos⟩ ∧
      s'.gPos = s.gPos + n := by
  have hlength : (input.take n).length = n := List.length_take_of_le (le_of_mem_lengths hn)
  have hpush : ∀ value : Text → Char, ∃ s', pushBack value s (input.take n) = (s', none) ∧
      s'.startCondition = .str ∧ s'.yylloc = s.yylloc ∧ s'.gPos = s.gPos + n :=
    fun value => ⟨_, rfl, hs, rfl, by rw [hlength]⟩
  simp only [strRules, List.mem_cons, Prod.mk.injEq, List.not_mem_nil, or_false] at hr
  rcases hr with ⟨rfl, rfl⟩ | ⟨-, rfl⟩ | ⟨-, rfl⟩ | ⟨-, rfl⟩ | ⟨-, rfl⟩ | ⟨-, rfl⟩ | ⟨rfl, rfl⟩ |
    ⟨-, rfl⟩
  · obtain ⟨-, rfl⟩ := mem_lengths_text.mp hn
    exact .inr ⟨_, _, rfl, rfl, rfl, rfl⟩
  · exact .inl (hpush _)
  · exact .inl (hpush _)
  · exact .inl (hpush _)
  · exact .inl (hpush _)
  · exact .inl (hpush _)
  · obtain ⟨-, rfl⟩ := mem_lengths_text.mp hn
    exact .inl ⟨_, rfl, hs, rfl, rfl⟩
  · exact .inl (hpush _)

/-- A token that is read from inside of a literal. -/
theorem yylex_str {token : Token} (hs : s.startCondition = .str)
    (h : yylex s input = (some token, s', rest)) :
    s'.startCondition = .initial ∧ s'.yylloc = ⟨s.yylloc.start, s'.gPos⟩ ∧
      s'.gPos + rest.length = s.gPos + input.length := by
  induction hlen : input.length using Nat.strongRecOn generalizing s input with
  | ind k ih =>
    rcases yylex_cases s input with ⟨-, hend⟩ | ⟨r, action, n, hr, hn, hpos, hle, hnext⟩
    · simp [hend] at h
    · have hdrop : (input.drop n).length = k - n := by rw [List.length_drop, hlen]
      rw [hs] at hr
      rcases str_action hs hr hn with ⟨s'', haction, hs', hloc, hgPos⟩ |
        ⟨s'', str, haction, hs', hloc, hgPos⟩
      · rcases hnext with ⟨_, _, haction', -⟩ | ⟨_, haction', hyylex⟩
        · simp [haction] at haction'
        · obtain rfl : s'' = _ := by simpa [haction] using haction'
          obtain ⟨hinitial, hloc', hgPos'⟩ := ih _ (by omega) hs' (hyylex ▸ h) rfl
          exact ⟨hinitial, hloc ▸ hloc', by omega⟩
      · rcases hnext with ⟨_, _, haction', hyylex⟩ | ⟨_, haction', -⟩
        · obtain ⟨rfl, rfl⟩ : s'' = _ ∧ Token.string str = _ := by simpa [haction] using haction'
          obtain ⟨-, rfl, rfl⟩ : Token.string str = token ∧ s'' = s' ∧ input.drop n = rest := by
            simpa [hyylex] using h
          exact ⟨hs', hloc, by omega⟩
        · simp [haction] at haction'

/-- A token that is read from outside, but for `BAD`. -/
theorem yylex_initial {token : Token} (hs : s.startCondition = .initial)
    (h : yylex s input = (some token, s', rest)) (hbad : token ≠ .bad) :
    s'.startCondition = .initial ∧ s'.yylloc.stop = s'.gPos ∧
      s'.gPos + rest.length = s.gPos + input.length ∧
      s'.yylloc.start + (skipBlanks input).length = s.gPos + input.length ∧
      rest.length < (skipBlanks input).length := by
  induction hlen : input.length using Nat.strongRecOn generalizing s input with
  | ind k ih =>
    rcases yylex_cases s input with ⟨-, hend⟩ | ⟨r, action, n, hr, hn, hpos, hle, hnext⟩
    · simp [hend] at h
    · have hdrop : (input.drop n).length = k - n := by rw [List.length_drop, hlen]
      rw [hs] at hr
      rcases initial_action hs hr hn with ⟨s'', haction, hs', hloc, hgPos, hskip⟩ |
        ⟨s'', haction, hs', hgPos, hskip⟩ | ⟨s'', t, haction, hs', hloc, hgPos, hskip⟩ | haction
      · -- the token is a literal
        rcases hnext with ⟨_, _, haction', -⟩ | ⟨_, haction', hyylex⟩
        · simp [haction] at haction'
        · obtain rfl : s'' = _ := by simpa [haction] using haction'
          obtain ⟨hinitial, hloc', hgPos'⟩ := yylex_str hs' (hyylex ▸ h)
          have hlt := yylex_lt h
          rw [hloc', hskip]
          exact ⟨hinitial, rfl, by omega, by dsimp only; omega, hlt⟩
      · rcases hnext with ⟨_, _, haction', -⟩ | ⟨_, haction', hyylex⟩
        · simp [haction] at haction'
        · obtain rfl : s'' = _ := by simpa [haction] using haction'
          obtain ⟨hinitial, hstop, hgPos', hstart, hrest⟩ := ih _ (by omega) hs' (hyylex ▸ h) rfl
          rw [hskip] at hstart hrest
          exact ⟨hinitial, hstop, by omega, by omega, hrest⟩
      · rcases hnext with ⟨_, _, haction', hyylex⟩ | ⟨_, haction', -⟩
        · obtain ⟨rfl, rfl⟩ : s'' = _ ∧ t = _ := by simpa [haction] using haction'
          obtain ⟨-, rfl, rfl⟩ : t = token ∧ s'' = s' ∧ input.drop n = rest := by
            simpa [hyylex] using h
          rw [hloc, hskip]
          exact ⟨hs', rfl, by omega, by dsimp only; omega, by omega⟩
        · simp [haction] at haction'
      · rcases hnext with ⟨_, _, haction', hyylex⟩ | ⟨_, haction', -⟩
        · obtain ⟨-, rfl⟩ : s = _ ∧ Token.bad = _ := by simpa [haction] using haction'
          exact absurd (by simpa [hyylex] using h : Token.bad = token ∧ _).1 hbad.symm
        · simp [haction] at haction'

/-- One token but `BAD`, read in any state. -/
theorem yylex_stop {token : Token} (h : yylex s input = (some token, s', rest))
    (hbad : token ≠ .bad) : s'.startCondition = .initial ∧ s'.yylloc.stop = s'.gPos ∧
      s'.gPos + rest.length = s.gPos + input.length := by
  cases hs : s.startCondition with
  | initial =>
    obtain ⟨hinitial, hstop, hgPos, -⟩ := yylex_initial hs h hbad
    exact ⟨hinitial, hstop, hgPos⟩
  | str =>
    obtain ⟨hinitial, hloc, hgPos⟩ := yylex_str hs h
    exact ⟨hinitial, by rw [hloc], hgPos⟩

/-- Where the next token starts: right there, if the last call ended inside of a literal. -/
def tokenText (s : LexState) (input : Text) : Text :=
  match s.startCondition with
  | .initial => skipBlanks input
  | .str => input

/-- The tokens with their place in the text; `size` is the length of all of it. -/
def lexemes (size : ℕ) (s : LexState) (input : Text) : List (Token × Location) :=
  match _h : yylex s input with
  | (none, _, _) => []
  | (some token, s', rest) =>
    (token, ⟨size - (tokenText s input).length, size - rest.length⟩) :: lexemes size s' rest
termination_by input.length
decreasing_by exact yylex_lt _h

theorem lexemes_cons {size : ℕ} {token : Token} (h : yylex s input = (some token, s', rest)) :
    lexemes size s input =
      (token, ⟨size - (tokenText s input).length, size - rest.length⟩) :: lexemes size s' rest := by
  rw [lexemes.eq_def]
  split
  · simp_all
  · simp_all

theorem lexemes_nil {size : ℕ} (h : yylex s input = (none, s', rest)) :
    lexemes size s input = [] := by
  rw [lexemes.eq_def]
  split
  · rfl
  · simp_all

/-- The lexer finds where each token stops, but for what was counted before. -/
theorem lexemes_stop {base size : ℕ} (h : s.gPos + input.length = base + size)
    (hle : input.length ≤ size) (hbad : ∀ t ∈ tokens s input, t.1 ≠ .bad) :
    List.Forall₂ (fun a b => a.1 = b.1 ∧ a.2.stop = base + b.2.stop) (tokens s input)
      (lexemes size s input) := by
  induction hlen : input.length using Nat.strongRecOn generalizing s input with
  | ind k ih =>
    rcases hlex : yylex s input with ⟨token, s', rest⟩
    cases token with
    | none =>
      rw [tokens_nil hlex, lexemes_nil hlex]
      exact .nil
    | some token =>
      have hlt := yylex_lt hlex
      rw [tokens_cons hlex] at hbad ⊢
      rw [lexemes_cons hlex]
      obtain ⟨-, hstop, hgPos⟩ := yylex_stop hlex (hbad _ List.mem_cons_self)
      refine .cons ⟨rfl, by dsimp only; omega⟩ (ih _ (hlen ▸ hlt) (by omega) (by omega) ?_ rfl)
      exact fun t ht => hbad t (List.mem_cons_of_mem _ ht)

/-- When nothing was counted before, the locations are the places in the text. -/
theorem lexemes_eq {size : ℕ} (hs : s.startCondition = .initial)
    (h : s.gPos + input.length = size) (hbad : ∀ t ∈ tokens s input, t.1 ≠ .bad) :
    lexemes size s input = tokens s input := by
  induction hlen : input.length using Nat.strongRecOn generalizing s input with
  | ind k ih =>
    rcases hlex : yylex s input with ⟨token, s', rest⟩
    cases token with
    | none => rw [tokens_nil hlex, lexemes_nil hlex]
    | some token =>
      have hlt := yylex_lt hlex
      rw [tokens_cons hlex] at hbad ⊢
      obtain ⟨hs', hstop, hgPos, hstart, -⟩ :=
        yylex_initial hs hlex (hbad _ List.mem_cons_self)
      rw [lexemes_cons hlex, ih _ (hlen ▸ hlt) hs' (by omega)
        (fun t ht => hbad t (List.mem_cons_of_mem _ ht)) rfl, tokenText, hs]
      have hloc : s'.yylloc = ⟨size - (skipBlanks input).length, size - rest.length⟩ := by
        rcases hyylloc : s'.yylloc with ⟨start, stop⟩
        rw [hyylloc] at hstop hstart
        dsimp only at hstop hstart
        simp only [Location.mk.injEq]
        omega
      rw [hloc]

/-- The tokens stand one after the other. -/
theorem tokens_sorted (hs : s.startCondition = .initial)
    (hbad : ∀ t ∈ tokens s input, t.1 ≠ .bad) :
    (∀ t ∈ tokens s input, s.gPos ≤ t.2.start ∧ t.2.start ≤ t.2.stop ∧
        t.2.stop ≤ s.gPos + input.length) ∧
      (tokens s input).Pairwise fun a b => a.2.stop ≤ b.2.start := by
  induction hlen : input.length using Nat.strongRecOn generalizing s input with
  | ind k ih =>
    rcases hlex : yylex s input with ⟨token, s', rest⟩
    cases token with
    | none => simp [tokens_nil hlex]
    | some token =>
      have hlt := yylex_lt hlex
      rw [tokens_cons hlex] at hbad ⊢
      obtain ⟨hs', hstop, hgPos, hstart, hrest⟩ :=
        yylex_initial hs hlex (hbad _ List.mem_cons_self)
      obtain ⟨hmem, hsorted⟩ := ih _ (hlen ▸ hlt) hs'
        (fun t ht => hbad t (List.mem_cons_of_mem _ ht)) rfl
      have hskip := skipBlanks_length_le input
      refine ⟨?_, List.pairwise_cons.mpr ⟨fun t ht => ?_, hsorted⟩⟩
      · intro t ht
        rcases List.mem_cons.mp ht with rfl | ht
        · dsimp only
          omega
        · have := hmem t ht
          omega
      · have := hmem t ht
        dsimp only
        omega

end positions
end BootableRecovery.Edify
