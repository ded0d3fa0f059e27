import Mathlib.Data.List.Induction
import BootableRecovery.Gui.TerminalEngine

namespace BootableRecovery.Gui

/-! The cursor and the lines of the terminal over whole runs. -/

namespace TerminalEngine

/-- The cursor is inside of the window and of the text, and so is the unpacked line. -/
structure Inv (e : TerminalEngine) : Prop where
  width : 1 ≤ e.width
  cursorX : 0 ≤ e.cursorX ∧ e.cursorX ≤ e.width
  cursorY : 0 ≤ e.cursorY ∧ e.cursorY < e.lines.length
  unpackedY : e.unpackedY < e.lines.length

/-- No access was out of bounds, and the cursor is where it should be. -/
def Sound (o : Option TerminalEngine) : Prop := ∃ e, o = some e ∧ e.Inv

theorem sound_some {e : TerminalEngine} : Sound (some e) ↔ e.Inv :=
  ⟨fun ⟨_, heq, h⟩ => Option.some.inj heq ▸ h, fun h => ⟨e, rfl, h⟩⟩

theorem not_sound_none : ¬Sound none := fun ⟨_, heq, _⟩ => nomatch heq

section moves
variable {e : TerminalEngine}

theorem Inv.setX (h : e.Inv) (x : ℤ) : (e.setX x).Inv := by
  have hwidth := h.width
  refine ⟨hwidth, ?_, h.cursorY, h.unpackedY⟩
  change 0 ≤ min e.width (max x 0) ∧ min e.width (max x 0) ≤ e.width
  omega

/-- Only the width and the unpacked line are needed: `setY` adds the lines for its cursor. -/
theorem inv_setY (hwidth : 1 ≤ e.width) (hx : 0 ≤ e.cursorX ∧ e.cursorX ≤ e.width) (y : ℤ)
    (hunpacked : e.unpackedY < (e.setY y).lines.length) : (e.setY y).Inv := by
  refine ⟨hwidth, hx, ⟨le_max_right y 0, ?_⟩, hunpacked⟩
  change max y 0 <
    ((e.lines ++ List.replicate ((max y 0).toNat + 1 - e.lines.length) []).length : ℤ)
  rw [List.length_append, List.length_replicate]
  omega

theorem length_setY (e : TerminalEngine) (y : ℤ) : e.lines.length ≤ (e.setY y).lines.length := by
  change _ ≤ (e.lines ++ List.replicate _ []).length
  rw [List.length_append]
  exact Nat.le_add_right _ _

theorem Inv.setY (h : e.Inv) (y : ℤ) : (e.setY y).Inv :=
  inv_setY h.width h.cursorX y (h.unpackedY.trans_le (length_setY e y))

theorem Inv.tabLoop (h : e.Inv) (n : ℕ) : (TerminalEngine.tabLoop n e).Inv := by
  induction n generalizing e with
  | zero => exact h
  | succ n ih =>
    rw [TerminalEngine.tabLoop]
    split_ifs
    · exact ih (h.setX _)
    · exact h

theorem Inv.processC0 (h : e.Inv) (ch : ℤ) : (e.processC0 ch).Inv := by
  rw [TerminalEngine.processC0]
  split_ifs
  · exact h.setX _
  · exact (h.setX _).tabLoop 7
  · exact h.setY _
  · exact h.setX _
  · exact ⟨h.width, h.cursorX, h.cursorY, h.unpackedY⟩
  · exact ⟨h.width, h.cursorX, h.cursorY, h.unpackedY⟩
  · exact h

theorem Inv.processEsc (h : e.Inv) (cp : ℕ) : (e.processEsc cp).Inv := by
  rw [TerminalEngine.processEsc]
  split_ifs
  · exact h
  · exact h.setY _
  · exact (h.setX _).setY _
  · exact ⟨h.width, h.cursorX, h.cursorY, h.unpackedY⟩
  · exact ⟨h.width, h.cursorX, h.cursorY, h.unpackedY⟩

end moves

section lines
variable {e : TerminalEngine}

theorem eraseTo_eq {cells : List ℕ} {x : ℕ} (h : x ≤ cells.length) :
    eraseTo cells x = some (cells.drop x) := by
  rw [eraseTo]
  split_ifs with hpos
  · rfl
  · rw [Nat.eq_zero_of_not_pos hpos, List.drop_zero]

theorem eraseTo_none {cells : List ℕ} {x : ℕ} (h : ¬x ≤ cells.length) : eraseTo cells x = none := by
  rw [eraseTo, if_pos (by omega), if_neg h]

theorem length_resized (cells : List ℕ) (n : ℕ) : n ≤ (resized cells n).length := by
  rw [resized, List.length_append, List.length_replicate]
  omega

theorem length_unpacked (width : ℤ) (s : List UInt8) : width.toNat ≤ (unpacked width s).length := by
  rw [unpacked]
  split_ifs with hshort
  · exact length_resized _ _
  · exact not_lt.mp hshort

theorem packLine_eq (h : e.Inv) : e.packLine =
    some { e with lines := e.lines.set e.unpackedY (packed e.unpackedLine) } :=
  if_pos h.unpackedY

/-- With a line unpacked there are cells up to the width. -/
theorem ensureUnpacked_spec (h : e.Inv) {y : ℕ} (hy : y < e.lines.length) :
    ∃ lines cells, e.ensureUnpacked y =
        some { e with lines := lines, unpackedLine := cells, unpackedY := y } ∧
      lines.length = e.lines.length ∧ (e.unpackedY = y → cells = e.unpackedLine) ∧
        (e.unpackedY ≠ y → e.width.toNat ≤ cells.length) := by
  rw [ensureUnpacked]
  by_cases hsame : e.unpackedY = y
  · rw [if_neg (not_not.mpr hsame)]
    subst hsame
    exact ⟨e.lines, e.unpackedLine, rfl, rfl, fun _ => rfl, fun h => absurd rfl h⟩
  · have hlen : (e.lines.set e.unpackedY (packed e.unpackedLine)).length = e.lines.length :=
      List.length_set
    have hline := List.getElem?_eq_getElem (hlen.symm ▸ hy)
    rw [if_pos hsame, packLine_eq h, Option.bind_some, unpackLine, hline]
    exact ⟨_, _, rfl, hlen, fun h => absurd h hsame, fun _ => length_unpacked _ _⟩

theorem sound_clear (hwidth : 1 ≤ e.width) : Sound e.clear := by
  refine ⟨_, rfl, ?_⟩
  exact ⟨hwidth, ⟨le_rfl, le_trans zero_le_one hwidth⟩, ⟨le_rfl, Int.one_pos⟩, Nat.one_pos⟩

theorem sound_processChar (h : e.Inv) (cp : ℕ) : Sound (e.processChar cp) := by
  have hline : (if e.linewrap then (e.down 1).setX 0 else e).Inv := by
    split_ifs
    · exact (h.setY _).setX _
    · exact h
  rw [processChar]
  generalize (if e.linewrap then (e.down 1).setX 0 else e) = e at hline
  obtain ⟨lines, cells, heq, hlen, -⟩ := ensureUnpacked_spec hline (y := e.cursorY.toNat)
    (by have := hline.cursorY; omega)
  dsimp only
  rw [heq, Option.bind_some]
  dsimp only
  have hcell : e.cursorX.toNat <
      (if cells.length ≤ e.cursorX.toNat then resized cells (e.cursorX.toNat + 1)
        else cells).length := by
    split_ifs with hshort
    · exact length_resized cells _
    · exact not_le.mp hshort
  have hcursor := hline.cursorY
  have hright : ∀ cells', (right { e with
      lines := lines, unpackedLine := cells', unpackedY := e.cursorY.toNat } 1).Inv := by
    intro cells'
    have hinv : TerminalEngine.Inv { e with
        lines := lines, unpackedLine := cells', unpackedY := e.cursorY.toNat } :=
      ⟨hline.width, hline.cursorX, ⟨hcursor.1, by rw [hlen]; exact hcursor.2⟩, by
        change e.cursorY.toNat < lines.length
        omega⟩
    exact hinv.setX _
  rw [if_pos hcell, sound_some]
  generalize hcells : (if cells.length ≤ e.cursorX.toNat then resized cells (e.cursorX.toNat + 1)
    else cells).set e.cursorX.toNat cp = cells'
  have hinv := hright cells'
  split_ifs
  · exact ⟨hinv.width, hinv.cursorX, hinv.cursorY, hinv.unpackedY⟩
  · exact hinv

end lines

/-- The cells of the cursor's line reach up to the cursor. -/
def CellsReach (e : TerminalEngine) : Prop :=
  e.unpackedY = e.cursorY.toNat → e.cursorX.toNat ≤ e.unpackedLine.length

instance (e : TerminalEngine) : Decidable e.CellsReach :=
  inferInstanceAs (Decidable (_ = _ → _ ≤ _))

section erase
variable {e : TerminalEngine} {param : ℤ}

/-- An unpacked line has the cells, a line that is unpacked now has the width. -/
theorem cellsReach_iff {cells : List ℕ}
    (hsame : e.unpackedY = e.cursorY.toNat → cells = e.unpackedLine)
    (hother : e.unpackedY ≠ e.cursorY.toNat → e.width.toNat ≤ cells.length)
    (hx : 0 ≤ e.cursorX ∧ e.cursorX ≤ e.width) :
    e.cursorX.toNat ≤ cells.length ↔ e.CellsReach := by
  constructor
  · intro hle hy
    rwa [← hsame hy]
  · intro hclear
    by_cases hy : e.unpackedY = e.cursorY.toNat
    · rw [hsame hy]
      exact hclear hy
    · have hwide := hother hy
      omega

theorem sound_eraseInLine_iff (h : e.Inv) :
    Sound (e.eraseInLine param) ↔ (param = 1 → e.CellsReach) := by
  have hcursor := h.cursorY
  have hx := h.cursorX
  obtain ⟨lines, cells, heq, hlen, hsame, hother⟩ := ensureUnpacked_spec h (y := e.cursorY.toNat)
    (by omega)
  have hinv : ∀ cells', TerminalEngine.Inv { e with
      lines := lines, unpackedLine := cells', unpackedY := e.cursorY.toNat } := fun _ =>
    ⟨h.width, h.cursorX, ⟨hcursor.1, by rw [hlen]; exact hcursor.2⟩, by
      change e.cursorY.toNat < lines.length
      omega⟩
  rw [eraseInLine, heq, Option.bind_some]
  dsimp only
  by_cases hone : param = 1
  · -- only the erasure up to the cursor can go beyond the cells
    rw [if_pos hone, ← cellsReach_iff (e := e) hsame hother hx]
    by_cases hle : e.cursorX.toNat ≤ cells.length
    · rw [eraseTo_eq hle, Option.map_some]
      exact iff_of_true (sound_some.mpr (hinv _)) fun _ => hle
    · rw [eraseTo_none hle, Option.map_none]
      exact iff_of_false not_sound_none fun h => hle (h hone)
  · rw [if_neg hone]
    refine iff_of_true ?_ fun h => absurd h hone
    split_ifs
    · exact sound_some.mpr (hinv _)
    · exact sound_some.mpr (hinv _)

theorem sound_eraseInPage_iff (h : e.Inv) : Sound (e.eraseInPage param) ↔
    (param = 1 → e.CellsReach ∧ (e.cursorY = 0 ∨ 2 * e.cursorY ≤ e.lines.length)) := by
  have hcursor := h.cursorY
  have hx := h.cursorX
  obtain ⟨lines, cells, heq, hlen, hsame, hother⟩ := ensureUnpacked_spec h (y := e.cursorY.toNat)
    (by omega)
  have hinv : ∀ cells', TerminalEngine.Inv { e with
      lines := lines, unpackedLine := cells', unpackedY := e.cursorY.toNat } := fun _ =>
    ⟨h.width, h.cursorX, ⟨hcursor.1, by rw [hlen]; exact hcursor.2⟩, by
      change e.cursorY.toNat < lines.length
      omega⟩
  rw [eraseInPage, heq, Option.bind_some]
  dsimp only
  by_cases hone : param = 1
  · have hreach := cellsReach_iff (e := e) hsame hother hx
    have hrows : ∀ cells', Sound (if 0 < e.cursorY then
          if (e.cursorY - 1).toNat ≤ lines.length then
            some { e with
              lines := lines.drop (e.cursorY - 1).toNat, cursorY := 0, unpackedLine := cells'
              unpackedY := e.cursorY.toNat }
          else none
        else some { e with
          lines := lines, unpackedLine := cells', unpackedY := e.cursorY.toNat }) ↔
        (e.cursorY = 0 ∨ 2 * e.cursorY ≤ e.lines.length) := by
      intro cells'
      by_cases hrow : 0 < e.cursorY
      · rw [if_pos hrow, if_pos (by omega), sound_some]
        constructor
        · intro hafter
          have hunpacked := hafter.unpackedY
          change e.cursorY.toNat < (lines.drop _).length at hunpacked
          rw [List.length_drop] at hunpacked
          omega
        · intro hfits
          refine ⟨h.width, h.cursorX, ⟨le_rfl, ?_⟩, ?_⟩
          · change (0 : ℤ) < ((lines.drop _).length : ℤ)
            rw [List.length_drop]
            omega
          · change e.cursorY.toNat < (lines.drop _).length
            rw [List.length_drop]
            omega
      · rw [if_neg hrow]
        exact iff_of_true (sound_some.mpr (hinv _)) (.inl (by omega))
    rw [if_pos hone]
    by_cases hle : e.cursorX.toNat ≤ cells.length
    · rw [eraseTo_eq hle, Option.bind_some]
      exact ⟨fun hsound _ => ⟨hreach.mp hle, (hrows _).mp hsound⟩,
        fun hclear => (hrows _).mpr (hclear hone).2⟩
    · rw [eraseTo_none hle, Option.bind_none]
      exact iff_of_false not_sound_none fun hclear => hle (hreach.mpr (hclear hone).1)
  · rw [if_neg hone]
    refine iff_of_true ?_ fun h => absurd h hone
    split_ifs
    · exact sound_clear (hinv cells).width
    · refine sound_some.mpr ⟨h.width, h.cursorX, ⟨hcursor.1, ?_⟩, ?_⟩
      · change e.cursorY < ((lines.take _).length : ℤ)
        rw [List.length_take]
        omega
      · change e.cursorY.toNat < (lines.take _).length
        rw [List.length_take]
        omega

end erase

section steps
variable {pf : Platform} {e : TerminalEngine}

/-- The control sequence that a byte completes. -/
def completes (pf : Platform) (e : TerminalEngine) (ch : UInt8) : Option (List Char × Char) :=
  let u := utf8decode e.utf8 ch
  if 32 ≤ charValue pf ch ∧ u.state = utf8Accept ∧ u.codep ≠ 0x9b ∧ e.state = .csi ∧
      isFinal u.codep = true then
    some (e.ctlseq ++ [Char.ofNat u.codep], Char.ofNat u.codep)
  else none

/-- ED 1 and EL 1 find the cells that they erase, and ED 1 leaves the unpacked line in the text. -/
def SequenceClear (pf : Platform) (e : TerminalEngine) (ctlseq : List Char) (f : Char) : Prop :=
  (parseArg pf ctlseq 0).1 = 1 →
    (f = 'J' → e.CellsReach ∧ (e.cursorY = 0 ∨ 2 * e.cursorY ≤ e.lines.length)) ∧
      (f = 'K' → e.CellsReach)

/-- When a step keeps the engine sound. -/
def Clear (pf : Platform) (e : TerminalEngine) : TerminalOp → Prop
  | .setSize xChars _ => e.cursorX ≤ xChars
  | .output ch => ∀ seq, e.completes pf ch = some seq → e.SequenceClear pf seq.1 seq.2
  | .clear => True
  | .render _ => True

instance (pf : Platform) (e : TerminalEngine) (ctlseq : List Char) (f : Char) :
    Decidable (e.SequenceClear pf ctlseq f) :=
  inferInstanceAs (Decidable (_ = _ → (_ → e.CellsReach ∧ _) ∧ (_ → e.CellsReach)))

instance (pf : Platform) (e : TerminalEngine) (op : TerminalOp) : Decidable (e.Clear pf op) :=
  match op with
  | .setSize xChars _ => inferInstanceAs (Decidable (e.cursorX ≤ xChars))
  | .output ch =>
    match h : e.completes pf ch with
    | none => .isTrue fun seq hseq => by rw [h] at hseq; cases hseq
    | some seq => decidable_of_iff (e.SequenceClear pf seq.1 seq.2)
      ⟨fun hclear _ hseq => Option.some.inj (h.symm.trans hseq) ▸ hclear,
        fun hclear => hclear seq h⟩
  | .clear => .isTrue trivial
  | .render _ => .isTrue trivial

theorem sound_exec_iff (h : e.Inv) (s : List Char) (f : Char) :
    Sound (e.execControlSequence pf (s ++ [f]) f) ↔ e.SequenceClear pf (s ++ [f]) f := by
  have hother : f ≠ 'J' → f ≠ 'K' → e.SequenceClear pf (s ++ [f]) f :=
    fun hj hk _ => ⟨fun heq => absurd heq hj, fun heq => absurd heq hk⟩
  rw [execControlSequence]
  by_cases hreport : s ++ [f] = ['6', 'n']
  · have hsplit : s ++ [f] = ['6'] ++ ['n'] := hreport
    have hf : f = 'n' := List.singleton_inj.mp (List.append_inj' hsplit rfl).2
    rw [if_pos hreport]
    exact iff_of_true (sound_some.mpr h) (hother (by rw [hf]; decide) (by rw [hf]; decide))
  rw [if_neg hreport]
  dsimp only
  split
  · exact iff_of_true (sound_some.mpr (h.setY _)) (hother (by decide) (by decide))
  · exact iff_of_true (sound_some.mpr (h.setY _)) (hother (by decide) (by decide))
  · exact iff_of_true (sound_some.mpr (h.setY _)) (hother (by decide) (by decide))
  · exact iff_of_true (sound_some.mpr (h.setX _)) (hother (by decide) (by decide))
  · exact iff_of_true (sound_some.mpr (h.setX _)) (hother (by decide) (by decide))
  · exact iff_of_true (sound_some.mpr (h.setX _)) (hother (by decide) (by decide))
  · exact iff_of_true (sound_some.mpr ((h.setY _).setX 0)) (hother (by decide) (by decide))
  · exact iff_of_true (sound_some.mpr ((h.setY _).setX 0)) (hother (by decide) (by decide))
  · exact iff_of_true (sound_some.mpr (h.setX _)) (hother (by decide) (by decide))
  · exact iff_of_true (sound_some.mpr ((h.setY _).setX _)) (hother (by decide) (by decide))
  · rw [sound_eraseInPage_iff h, SequenceClear]
    exact ⟨fun hclear hone => ⟨fun _ => hclear hone, fun heq => absurd heq (by decide)⟩,
      fun hclear hone => (hclear hone).1 rfl⟩
  · rw [sound_eraseInLine_iff h, SequenceClear]
    exact ⟨fun hclear hone => ⟨fun heq => absurd heq (by decide), fun _ => hclear hone⟩,
      fun hclear hone => (hclear hone).2 rfl⟩
  · rename_i hj hk
    exact iff_of_true (sound_some.mpr h) (hother hj hk)

theorem sound_map {o : Option TerminalEngine} {g : TerminalEngine → TerminalEngine}
    (hg : ∀ t, (g t).Inv ↔ t.Inv) : Sound (o.map g) ↔ Sound o := by
  cases o with
  | none => exact iff_of_false not_sound_none not_sound_none
  | some t => rw [Option.map_some, sound_some, sound_some, hg]

theorem sound_processCodePoint_iff (h : e.Inv) (cp : ℕ) :
    Sound (e.processCodePoint pf cp) ↔ (cp ≠ 0x9b → e.state = .csi → isFinal cp = true →
      e.SequenceClear pf (e.ctlseq ++ [Char.ofNat cp]) (Char.ofNat cp)) := by
  rw [processCodePoint]
  by_cases hcsi : cp = 0x9b
  · rw [if_pos hcsi]
    exact iff_of_true (sound_some.mpr ⟨h.width, h.cursorX, h.cursorY, h.unpackedY⟩)
      fun hne => absurd hcsi hne
  rw [if_neg hcsi]
  cases hstate : e.state with
  | ground => exact iff_of_true (sound_processChar h cp) fun _ heq => nomatch heq
  | esc => exact iff_of_true (sound_some.mpr (h.processEsc cp)) fun _ heq => nomatch heq
  | csi =>
    dsimp only
    rw [processControlSequence]
    by_cases hfinal : isFinal cp = true
    · rw [if_pos hfinal, sound_map, sound_exec_iff h]
      · exact ⟨fun hclear _ _ _ => hclear, fun hclear => hclear hcsi rfl hfinal⟩
      · exact fun t => ⟨fun hinv => ⟨hinv.width, hinv.cursorX, hinv.cursorY, hinv.unpackedY⟩,
          fun hinv => ⟨hinv.width, hinv.cursorX, hinv.cursorY, hinv.unpackedY⟩⟩
    · rw [if_neg hfinal]
      refine iff_of_true ?_ fun _ _ heq => absurd heq hfinal
      split_ifs
      · exact sound_some.mpr ⟨h.width, h.cursorX, h.cursorY, h.unpackedY⟩
      · exact sound_some.mpr h

theorem clear_output_iff (e : TerminalEngine) (ch : UInt8) (hchar : ¬charValue pf ch < 32)
    {u : Utf8} (hu : utf8decode e.utf8 ch = u) (haccept : u.state = utf8Accept) :
    e.Clear pf (.output ch) ↔ (u.codep ≠ 0x9b → e.state = .csi → isFinal u.codep = true →
      e.SequenceClear pf (e.ctlseq ++ [Char.ofNat u.codep]) (Char.ofNat u.codep)) := by
  rw [Clear, completes, hu]
  constructor
  · intro hclear hcsi hstate hfinal
    exact hclear _ (if_pos ⟨not_lt.mp hchar, haccept, hcsi, hstate, hfinal⟩)
  · intro hclear seq hseq
    split_ifs at hseq with hall
    obtain rfl := Option.some.inj hseq
    exact hclear hall.2.2.1 hall.2.2.2.1 hall.2.2.2.2

theorem sound_output_iff (h : e.Inv) (ch : UInt8) :
    Sound (e.output pf ch) ↔ e.Clear pf (.output ch) := by
  have hutf8 : ∀ u, TerminalEngine.Inv { e with utf8 := u } :=
    fun _ => ⟨h.width, h.cursorX, h.cursorY, h.unpackedY⟩
  -- a byte that completes no sequence has nothing to meet
  have hnone : e.completes pf ch = none → e.Clear pf (.output ch) := by
    intro hnone seq hseq
    rw [hnone] at hseq
    cases hseq
  rw [output]
  by_cases hcontrol : charValue pf ch < 32
  · rw [if_pos hcontrol]
    have hinv := h.processC0 (charValue pf ch)
    exact iff_of_true (sound_some.mpr ⟨hinv.width, hinv.cursorX, hinv.cursorY, hinv.unpackedY⟩)
      (hnone (if_neg fun hall => absurd hcontrol (not_lt.mpr hall.1)))
  rw [if_neg hcontrol]
  dsimp only
  by_cases haccept : (utf8decode e.utf8 ch).state = utf8Accept
  · rw [if_pos haccept, clear_output_iff e ch hcontrol rfl haccept]
    exact sound_processCodePoint_iff (hutf8 _) _
  · rw [if_neg haccept]
    refine iff_of_true ?_ (hnone (if_neg fun hall => haccept hall.2.1))
    split_ifs
    · exact sound_some.mpr (hutf8 _)
    · exact sound_some.mpr (hutf8 _)

theorem getLine_eq (h : e.Inv) {n : ℕ} (hn : n < e.lines.length) :
    ∃ lines, (e.getLine n).map Prod.fst = some { e with lines := lines } ∧
      lines.length = e.lines.length := by
  rw [getLine]
  by_cases hsame : e.unpackedY = n
  · have hlen : (e.lines.set e.unpackedY (packed e.unpackedLine)).length = e.lines.length :=
      List.length_set
    have hline := List.getElem?_eq_getElem (hlen.symm ▸ hn)
    rw [if_pos hsame, packLine_eq h, Option.bind_some, hline]
    exact ⟨_, rfl, hlen⟩
  · rw [if_neg hsame, Option.bind_some, List.getElem?_eq_getElem hn]
    exact ⟨e.lines, rfl, rfl⟩

/-- What one step keeps. The window has at least one column and one row. -/
theorem sound_step_iff (h : e.Inv) (op : TerminalOp)
    (hsize : ∀ xChars yChars, op = .setSize xChars yChars → 1 ≤ xChars ∧ 1 ≤ yChars) :
    Sound (e.step pf op) ↔ e.Clear pf op := by
  cases op with
  | setSize xChars yChars =>
    have hpos := (hsize xChars yChars rfl).1
    rw [step, sound_some]
    exact ⟨fun hinv => hinv.cursorX.2, fun hclear =>
      ⟨hpos, ⟨h.cursorX.1, hclear⟩, h.cursorY, h.unpackedY⟩⟩
  | output ch => exact sound_output_iff h ch
  | clear => exact iff_of_true (sound_clear h.width) trivial
  | render itemindex =>
    refine iff_of_true ?_ trivial
    rw [step]
    split_ifs with hn
    · obtain ⟨lines, heq, hlen⟩ := getLine_eq h hn
      rw [heq, sound_some]
      exact ⟨h.width, h.cursorX, ⟨h.cursorY.1, by rw [hlen]; exact h.cursorY.2⟩, by
        change e.unpackedY < lines.length
        rw [hlen]
        exact h.unpackedY⟩
    · exact sound_some.mpr h

end steps

section runs
variable {pf : Platform} {ops : List TerminalOp}

/-- The engine after some steps. -/
def run (pf : Platform) (ops : List TerminalOp) : Option TerminalEngine :=
  start.bind fun e => ops.foldlM (step pf) e

/-- The sizes of the window are positive. -/
def Sized (ops : List TerminalOp) : Prop :=
  ∀ xChars yChars, .setSize xChars yChars ∈ ops → 1 ≤ xChars ∧ 1 ≤ yChars

theorem run_concat (pf : Platform) (ops : List TerminalOp) (op : TerminalOp) :
    run pf (ops ++ [op]) = (run pf ops).bind fun e => e.step pf op := by
  have hlast : ∀ e, (ops ++ [op]).foldlM (step pf) e =
      (ops.foldlM (step pf) e).bind fun e => e.step pf op := by
    intro e
    rw [List.foldlM_append]
    exact congrArg _ (funext fun t => by rw [List.foldlM_cons]; exact bind_pure _)
  rw [run, run, Option.bind_assoc]
  exact congrArg _ (funext hlast)

theorem sound_start : Sound start := sound_clear (by decide)

/-- After every step of a run the engine is sound, if and only if every step keeps it so. -/
theorem sound_run_iff (pf : Platform) (ops : List TerminalOp) (hsize : Sized ops) :
    (∀ before, before <+: ops → Sound (run pf before)) ↔
      ∀ before op after, ops = before ++ op :: after →
        ∀ e, run pf before = some e → e.Clear pf op := by
  constructor
  · intro hsound before op after hsplit e he
    obtain ⟨e', he', hinv⟩ := hsound before ⟨op :: after, hsplit.symm⟩
    obtain rfl := Option.some.inj (he.symm.trans he')
    have hnext := hsound (before ++ [op]) ⟨after, by
      rw [hsplit, List.append_assoc, List.singleton_append]⟩
    rw [run_concat, he, Option.bind_some] at hnext
    refine (sound_step_iff hinv op fun xChars yChars hop => hsize xChars yChars ?_).mp hnext
    rw [hsplit, hop]
    exact List.mem_append_right _ List.mem_cons_self
  · intro hclear before
    induction before using List.reverseRecOn with
    | nil => exact fun _ => sound_start
    | append_singleton before op ih =>
      rintro ⟨after, hsplit⟩
      rw [List.append_assoc, List.singleton_append] at hsplit
      obtain ⟨e, he, hinv⟩ := ih ⟨op :: after, hsplit⟩
      rw [run_concat, he, Option.bind_some]
      refine (sound_step_iff hinv op fun xChars yChars hop => hsize xChars yChars ?_).mpr
        (hclear before op after hsplit.symm e he)
      rw [← hsplit, hop]
      exact List.mem_append_right _ List.mem_cons_self

/-- The value of the digits in front, on a platform with unsigned `char`. -/
def decimal : Platform where
  atoi s := (s.takeWhile Char.isDigit).foldl (fun n c => 10 * n + ((c.toNat : ℤ) - 48)) 0
  signedChar := false

/-- What a program writes. -/
def typed (s : String) : List TerminalOp := s.toList.map fun c => .output (UInt8.ofNat c.toNat)

/-- Two lines; EL 1 in the second one, before its end; and a window that is narrower, but not
narrower than the cursor's column. -/
def erasedBefore : List TerminalOp :=
  .setSize 20 5 :: typed "a\nbcd\x1b[2D\x1b[1K" ++ [.setSize 10 4, .render 1]

theorem sound_run_erasedBefore : Sound (run decimal erasedBefore) := by
  have hsize : Sized erasedBefore := by
    intro xChars yChars hmem
    rcases List.mem_append.mp hmem with hmem | hmem
    · rcases List.mem_cons.mp hmem with heq | hmem
      · obtain ⟨rfl, rfl⟩ := TerminalOp.setSize.inj heq
        decide
      · obtain ⟨c, -, heq⟩ := List.mem_map.mp hmem
        cases heq
    · simp only [List.mem_cons, List.not_mem_nil, or_false] at hmem
      rcases hmem with heq | heq
      · obtain ⟨rfl, rfl⟩ := TerminalOp.setSize.inj heq
        decide
      · cases heq
  have hclear : ∀ i < erasedBefore.length, (run decimal (erasedBefore.take i)).all (fun e =>
      (erasedBefore[i]?).all fun op => e.Clear decimal op) = true := by decide +kernel
  refine (sound_run_iff decimal erasedBefore hsize).mpr (fun before op after hsplit e he => ?_)
    erasedBefore (List.prefix_refl _)
  have hstep := hclear before.length (by rw [hsplit]; simp)
  rw [hsplit, List.take_left, he, List.getElem?_append_right le_rfl, Nat.sub_self] at hstep
  simpa using hstep

/-- Whatever happens, the engine stays sound. -/
def StaysSound (pf : Platform) : Prop :=
  ∀ ops, Sized ops → ∀ before, before <+: ops → Sound (run pf before)

/-- A window that becomes narrower than the cursor's column. -/
def narrowed : List TerminalOp := typed "ab" ++ [.setSize 1 1]

/-- EL 1 behind the end of a line that EL 2 has emptied, and ED 1 in the third of three lines. -/
def erasedBehind : List TerminalOp := typed "\x1b[2K\x1b[5C\x1b[1K"

def erasedAbove : List TerminalOp := typed "\n\n\x1b[1J"

theorem not_staysSound : ¬Sound (run decimal narrowed) ∧ ¬Sound (run decimal erasedBehind) ∧
    ¬Sound (run decimal erasedAbove) ∧ ¬StaysSound decimal := by
  have hnarrowed : (run decimal narrowed).map (fun e => decide (e.cursorX ≤ e.width)) =
      some false := by decide +kernel
  have hbehind : run decimal erasedBehind = none := by decide +kernel
  have habove : (run decimal erasedAbove).map (fun e => decide (e.unpackedY < e.lines.length)) =
      some false := by decide +kernel
  have hlines : ¬Sound (run decimal erasedAbove) := by
    rintro ⟨e, he, hinv⟩
    rw [he, Option.map_some, Option.some.injEq, decide_eq_false_iff_not] at habove
    exact habove hinv.unpackedY
  refine ⟨?_, ?_, hlines, fun h => hlines (h erasedAbove ?_ _ (List.prefix_refl _))⟩
  · rintro ⟨e, he, hinv⟩
    rw [he, Option.map_some, Option.some.injEq, decide_eq_false_iff_not] at hnarrowed
    exact hnarrowed hinv.cursorX.2
  · rw [hbehind]
    exact not_sound_none
  · intro xChars yChars hmem
    obtain ⟨c, -, heq⟩ := List.mem_map.mp hmem
    cases heq

end runs

end TerminalEngine

end BootableRecovery.Gui
