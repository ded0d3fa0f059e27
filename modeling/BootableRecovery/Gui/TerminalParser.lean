import BootableRecovery.Gui.TerminalText

namespace BootableRecovery.Gui
open TerminalEngine

/-! The parser of the terminal by itself: what it keeps between two bytes, and what it tells the
screen to do. -/

structure EscapeParser where
  state : KState
  utf8 : Utf8
  ctlseq : List Char

inductive Action
  | control (ch : ℤ)
  | print (cp : ℕ)
  | escape (cp : ℕ)
  | execute (ctlseq : List Char) (f : Char)
deriving DecidableEq

namespace EscapeParser

/-- What `processC0` does to the parser. -/
def control (p : EscapeParser) (ch : ℤ) : EscapeParser :=
  if ch = 24 ∨ ch = 26 then { p with state := .ground, ctlseq := [] }
  else if ch = 27 then { p with state := .esc, ctlseq := [] }
  else p

/-- What `processCodePoint` does to the parser, and what is left to the screen. -/
def codePoint (p : EscapeParser) (cp : ℕ) : EscapeParser × Option Action :=
  if cp = 0x9b then ({ p with state := .csi, ctlseq := [] }, none)
  else
    match p.state with
    | .ground => (p, some (.print cp))
    | .esc =>
      if cp = 'c'.toNat ∨ cp = 'D'.toNat ∨ cp = 'E'.toNat then (p, some (.escape cp))
      else if cp = '['.toNat then ({ p with state := .csi, ctlseq := [] }, none)
      else ({ p with state := .ground }, none)
    | .csi =>
      if isFinal cp then
        ({ p with state := .ground, ctlseq := [] },
          some (.execute (p.ctlseq ++ [Char.ofNat cp]) (Char.ofNat cp)))
      else if (Char.ofNat cp).isDigit ∨ cp = ';'.toNat then
        ({ p with ctlseq := p.ctlseq ++ [Char.ofNat cp] }, none)
      else (p, none)

/-- One byte of input. -/
def feed (pf : Platform) (p : EscapeParser) (ch : UInt8) : EscapeParser × Option Action :=
  if charValue pf ch < 32 then
    let p := p.control (charValue pf ch)
    ({ p with utf8 := { p.utf8 with state := utf8Accept } }, some (.control (charValue pf ch)))
  else
    let u := utf8decode p.utf8 ch
    if u.state = utf8Accept then { p with utf8 := u }.codePoint u.codep
    else if u.state = utf8Reject then ({ p with utf8 := { u with state := utf8Accept } }, none)
    else ({ p with utf8 := u }, none)

/-- The parser after some bytes, and what it told the screen to do. -/
def feeds (pf : Platform) : EscapeParser → List UInt8 → EscapeParser × List Action
  | p, [] => (p, [])
  | p, ch :: bytes =>
    let first := p.feed pf ch
    let rest := feeds pf first.1 bytes
    (rest.1, first.2.toList ++ rest.2)

end EscapeParser

namespace TerminalEngine

def parser (e : TerminalEngine) : EscapeParser := ⟨e.state, e.utf8, e.ctlseq⟩

def withParser (p : EscapeParser) (e : TerminalEngine) : TerminalEngine :=
  { e with state := p.state, utf8 := p.utf8, ctlseq := p.ctlseq }

/-- What the screen does for the parser. -/
def perform (pf : Platform) (e : TerminalEngine) : Action → Option TerminalEngine
  | .control ch => some (e.processC0 ch)
  | .print cp => e.processChar cp
  | .escape cp => some (e.processEsc cp)
  | .execute ctlseq f => e.execControlSequence pf ctlseq f

def outputs (pf : Platform) (e : TerminalEngine) (bytes : List UInt8) : Option TerminalEngine :=
  bytes.foldlM (fun e ch => e.output pf ch) e

section frame
variable (p q : EscapeParser) (e : TerminalEngine) (pf : Platform)

theorem withParser_ite {c : Prop} [Decidable c] (a b : TerminalEngine) :
    (if c then a.withParser p else b.withParser p) = (if c then a else b).withParser p := by
  split_ifs <;> rfl

theorem withParser_unpackLine (y : ℕ) :
    (e.withParser p).unpackLine y = (e.unpackLine y).map (withParser p) := by
  simp [unpackLine, withParser, Function.comp_def]

theorem withParser_packLine : (e.withParser p).packLine = e.packLine.map (withParser p) := by
  unfold packLine
  split_ifs with h h' h'
  · rfl
  · exact absurd h h'
  · exact absurd h' h
  · rfl

theorem withParser_ensureUnpacked (y : ℕ) :
    (e.withParser p).ensureUnpacked y = (e.ensureUnpacked y).map (withParser p) := by
  by_cases h : e.unpackedY = y
  · have h' : (e.withParser p).unpackedY = y := h
    simp [ensureUnpacked, h, h']
  · have h' : (e.withParser p).unpackedY ≠ y := h
    simp only [ensureUnpacked, ne_eq, h, h', not_false_eq_true, if_true, withParser_packLine,
      Option.bind_map, Option.map_bind]
    congr 1
    funext e'
    exact withParser_unpackLine p e' y

theorem withParser_clear : (e.withParser p).clear = e.clear.map (withParser p) := by
  simp [clear, unpackLine, withParser, setY]

/-- What is done behind an unpacking commutes if each of its parts does. -/
theorem withParser_unpacked {f : TerminalEngine → Option TerminalEngine} (y : ℕ)
    (hf : ∀ e : TerminalEngine, f (e.withParser p) = (f e).map (withParser p)) :
    ((e.withParser p).ensureUnpacked y).bind f =
      ((e.ensureUnpacked y).bind f).map (withParser p) := by
  rw [withParser_ensureUnpacked, Option.bind_map, Option.map_bind]
  congr 1
  funext e'
  exact hf e'

theorem withParser_processChar (cp : ℕ) :
    (e.withParser p).processChar cp = (e.processChar cp).map (withParser p) := by
  have hwrap : (if (e.withParser p).linewrap then ((e.withParser p).down 1).setX 0
      else e.withParser p) = (if e.linewrap then (e.down 1).setX 0 else e).withParser p :=
    withParser_ite p (c := e.linewrap = true) ((e.down 1).setX 0) e
  unfold processChar
  rw [hwrap]
  apply withParser_unpacked
  intro e'
  by_cases hcell : e'.cursorX.toNat < (if e'.unpackedLine.length ≤ e'.cursorX.toNat then
      resized e'.unpackedLine (e'.cursorX.toNat + 1) else e'.unpackedLine).length
  · refine (if_pos hcell).trans (Eq.trans ?_ (congrArg _ (if_pos hcell).symm))
    let cells := (if e'.unpackedLine.length ≤ e'.cursorX.toNat then
      resized e'.unpackedLine (e'.cursorX.toNat + 1) else e'.unpackedLine).set e'.cursorX.toNat cp
    let next := right { e' with unpackedLine := cells } 1
    exact congrArg some (withParser_ite p (c := next.width ≤ next.cursorX)
      { next with linewrap := true } next)
  · have hcell' : ¬ (e'.withParser p).cursorX.toNat < (if (e'.withParser p).unpackedLine.length ≤
        (e'.withParser p).cursorX.toNat then resized (e'.withParser p).unpackedLine
          ((e'.withParser p).cursorX.toNat + 1) else (e'.withParser p).unpackedLine).length := hcell
    dsimp only
    rw [if_neg hcell, if_neg hcell']
    rfl

theorem withParser_eraseInLine (param : ℤ) :
    (e.withParser p).eraseInLine param = (e.eraseInLine param).map (withParser p) := by
  unfold eraseInLine
  apply withParser_unpacked
  intro e'
  split_ifs
  · simp [withParser, Function.comp_def]
  · rfl
  · rfl

theorem withParser_eraseInPage (param : ℤ) :
    (e.withParser p).eraseInPage param = (e.eraseInPage param).map (withParser p) := by
  unfold eraseInPage
  apply withParser_unpacked
  intro e'
  split_ifs
  · rw [Option.map_bind]
    congr 1
    funext cells
    dsimp only [Function.comp]
    split_ifs <;> first | rfl | contradiction
  · exact withParser_clear p e'
  · rfl

theorem withParser_processEsc (cp : ℕ)
    (h : cp = 'c'.toNat ∨ cp = 'D'.toNat ∨ cp = 'E'.toNat) :
    (e.withParser p).processEsc cp = (e.processEsc cp).withParser p := by
  rcases h with rfl | rfl | rfl
  · rfl
  · rfl
  · rfl

theorem withParser_exec (ctlseq : List Char) (f : Char) :
    (e.withParser p).execControlSequence pf ctlseq f =
      (e.execControlSequence pf ctlseq f).map (withParser p) := by
  unfold execControlSequence
  by_cases hanswer : ctlseq = ['6', 'n']
  · rw [if_pos hanswer, if_pos hanswer]
    rfl
  · rw [if_neg hanswer, if_neg hanswer]
    dsimp only
    split
    case h_11 => exact withParser_eraseInPage p e _
    case h_12 => exact withParser_eraseInLine p e _
    all_goals rfl

theorem parser_tabLoop (n : ℕ) : (tabLoop n e).parser = e.parser := by
  induction n generalizing e with
  | zero => rfl
  | succ n ih =>
    rw [tabLoop]
    split_ifs
    · exact ih (e.right 1)
    · rfl

theorem parser_processC0 (ch : ℤ) : (e.processC0 ch).parser = e.parser.control ch := by
  unfold processC0 EscapeParser.control
  split_ifs <;> first | omega | rfl | exact parser_tabLoop _ _

/-- One byte: the parser goes on by itself, and the screen does what it is told. -/
theorem output_eq (ch : UInt8) : e.output pf ch =
    (((e.parser.feed pf ch).2.toList.foldlM (perform pf) e)).map
      (withParser (e.parser.feed pf ch).1) := by
  unfold output EscapeParser.feed
  by_cases hc0 : charValue pf ch < 32
  · rw [if_pos hc0, if_pos hc0]
    have hparser := parser_processC0 e (charValue pf ch)
    generalize e.parser.control (charValue pf ch) = q at hparser ⊢
    subst hparser
    rfl
  rw [if_neg hc0, if_neg hc0]
  dsimp only [parser]
  generalize utf8decode e.utf8 ch = u
  by_cases haccept : u.state = utf8Accept
  · rw [if_pos haccept, if_pos haccept]
    unfold processCodePoint EscapeParser.codePoint
    by_cases hcsi : u.codep = 0x9b
    · rw [if_pos hcsi, if_pos hcsi]
      rfl
    rw [if_neg hcsi, if_neg hcsi]
    dsimp only
    cases hstate : e.state with
    | ground =>
      have hchar := withParser_processChar ⟨e.state, u, e.ctlseq⟩ e u.codep
      rw [hstate] at hchar
      refine hchar.trans ?_
      simp [perform]
    | esc =>
      dsimp only
      by_cases hkept : u.codep = 'c'.toNat ∨ u.codep = 'D'.toNat ∨ u.codep = 'E'.toNat
      · have hesc := withParser_processEsc ⟨e.state, u, e.ctlseq⟩ e u.codep hkept
        rw [if_pos hkept]
        rw [hstate] at hesc
        exact congrArg some hesc
      · rw [if_neg hkept]
        simp only [not_or] at hkept
        rw [processEsc, if_neg hkept.1, if_neg hkept.2.1, if_neg hkept.2.2]
        split_ifs
        · rfl
        · rfl
    | csi =>
      dsimp only
      unfold processControlSequence
      by_cases hfinal : isFinal u.codep = true
      · have hexec := withParser_exec ⟨e.state, u, e.ctlseq⟩ e pf
          (e.ctlseq ++ [Char.ofNat u.codep]) (Char.ofNat u.codep)
        rw [if_pos hfinal, if_pos hfinal]
        rw [hstate] at hexec
        refine (congrArg (Option.map fun e : TerminalEngine =>
          { e with ctlseq := [], state := .ground }) hexec).trans ?_
        rw [Option.map_map]
        simp only [withParser, Function.comp_def]
        simp
        rfl
      · rw [if_neg hfinal, if_neg hfinal]
        split_ifs
        · simp [withParser]
        · simp [withParser]
  · rw [if_neg haccept, if_neg haccept]
    split_ifs
    · rfl
    · rfl

end frame

section stream
variable (pf : Platform)

theorem withParser_tabLoop (p : EscapeParser) (n : ℕ) (e : TerminalEngine) :
    tabLoop n (e.withParser p) = (tabLoop n e).withParser p := by
  induction n generalizing e with
  | zero => rfl
  | succ n ih =>
    have hright := ih (e.right 1)
    by_cases hgo : e.cursorX % 8 ≠ 0 ∧ e.cursorX < e.width
    · exact (if_pos hgo).trans (hright.trans (congrArg _ (if_pos hgo).symm))
    · exact (if_neg hgo).trans (congrArg (withParser p) (if_neg hgo).symm)

/-- What the screen does hangs on the parser in no way. -/
theorem perform_withParser (p : EscapeParser) (e : TerminalEngine) (a : Action) :
    ∃ q, perform pf (e.withParser p) a = (perform pf e a).map (withParser q) := by
  cases a with
  | control ch =>
    refine ⟨p.control ch, congrArg some ?_⟩
    unfold processC0 EscapeParser.control
    split_ifs <;> first | omega | rfl | exact withParser_tabLoop p 7 (e.right 1)
  | print cp => exact ⟨p, withParser_processChar p e cp⟩
  | escape cp =>
    refine ⟨((e.withParser p).processEsc cp).parser, congrArg some ?_⟩
    unfold processEsc
    split_ifs <;> rfl
  | execute ctlseq f => exact ⟨p, withParser_exec p e pf ctlseq f⟩

theorem performs_withParser (p : EscapeParser) (e : TerminalEngine) (actions : List Action) :
    ∃ q, actions.foldlM (perform pf) (e.withParser p) =
      (actions.foldlM (perform pf) e).map (withParser q) := by
  induction actions generalizing e p with
  | nil => exact ⟨p, rfl⟩
  | cons a actions ih =>
    obtain ⟨q, hq⟩ := perform_withParser pf p e a
    rw [List.foldlM_cons, List.foldlM_cons, hq]
    cases perform pf e a with
    | none => exact ⟨q, rfl⟩
    | some e' => exact ih q e'

/-- Over a whole stream, too: the terminal is its parser, and a screen that does what it is told. -/
theorem outputs_eq (e : TerminalEngine) (bytes : List UInt8) : e.outputs pf bytes =
    ((e.parser.feeds pf bytes).2.foldlM (perform pf) e).map
      (withParser (e.parser.feeds pf bytes).1) := by
  induction bytes generalizing e with
  | nil => rfl
  | cons ch bytes ih =>
    rw [outputs, List.foldlM_cons, output_eq]
    simp only [EscapeParser.feeds, List.foldlM_append]
    cases (e.parser.feed pf ch).2.toList.foldlM (perform pf) e with
    | none => rfl
    | some e' =>
      have hrest := ih (e'.withParser (e.parser.feed pf ch).1)
      obtain ⟨q, hq⟩ := performs_withParser pf (e.parser.feed pf ch).1 e'
        ((e.parser.feed pf ch).1.feeds pf bytes).2
      refine hrest.trans ?_
      change Option.map _ (List.foldlM (perform pf) (e'.withParser (e.parser.feed pf ch).1)
        ((e.parser.feed pf ch).1.feeds pf bytes).2) = _
      rw [hq, Option.map_map]
      rfl

theorem ensureUnpacked_cursor {e u : TerminalEngine} {y : ℕ} (h : e.ensureUnpacked y = some u) :
    u.cursorX = e.cursorX ∧ u.unpackedY = y := by
  unfold ensureUnpacked at h
  by_cases hy : e.unpackedY = y
  · rw [if_neg (not_not.mpr hy), Option.some_inj] at h
    rw [← h]
    exact ⟨rfl, hy⟩
  · rw [if_pos hy] at h
    obtain ⟨e', hpack, hunpack⟩ := Option.bind_eq_some_iff.mp h
    obtain ⟨s, -, hu⟩ := Option.map_eq_some_iff.mp hunpack
    unfold packLine at hpack
    split_ifs at hpack
    rw [← hu, ← Option.some_inj.mp hpack]
    exact ⟨rfl, rfl⟩

/-- A code point goes into the cell at the cursor, or into the first one of the next line. -/
theorem processChar_writes {e e' : TerminalEngine} {cp : ℕ} (h : e.processChar cp = some e') :
    let w := if e.linewrap then (e.down 1).setX 0 else e
    e'.unpackedY = w.cursorY.toNat ∧ e'.unpackedLine[w.cursorX.toNat]? = some cp := by
  intro w
  obtain ⟨u, hu, hcell⟩ := Option.bind_eq_some_iff.mp h
  obtain ⟨hx, hy⟩ := ensureUnpacked_cursor hu
  dsimp only at hcell
  generalize (if u.unpackedLine.length ≤ u.cursorX.toNat then
    resized u.unpackedLine (u.cursorX.toNat + 1) else u.unpackedLine) = cells at hcell
  split_ifs at hcell with hin
  all_goals
    rw [← Option.some_inj.mp hcell, ← hy, ← hx]
    exact ⟨rfl, List.getElem?_set_self hin⟩

end stream
end TerminalEngine
end BootableRecovery.Gui
