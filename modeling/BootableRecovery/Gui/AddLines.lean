import BootableRecovery.Lib.Loop
import BootableRecovery.Lib.Text
import Mathlib.Data.List.Forall2

namespace BootableRecovery.Gui
open Lib

/-! `GUIScrollList::AddLines`: new lines of text are wrapped at the width of the list. -/

def separators : Text := " ,./:-_;".toList

/-- The text and its colours, which are written together. -/
structure ConsoleText where
  origText : List Text
  origColor : Option (List Text)
  parallel : ∀ colors ∈ origColor, colors.length = origText.length

/-- The wrapped lines, and how many lines of the text are in them. -/
structure RenderedText where
  lastCount : ℕ
  rText : List Text
  rColor : List Text
  deriving DecidableEq

/-- `find_last_of` the separators, no later than a place. -/
def findLastSeparator (s : Text) (pos : ℕ) : Option ℕ :=
  ((s.take (pos + 1)).reverse.findIdx? separators.contains).map fun i =>
    (s.take (pos + 1)).length - 1 - i

def wrapPos (line : Text) (lineCharWidth : ℕ) : ℕ :=
  match findLastSeparator line (lineCharWidth - 1) with
  | none => lineCharWidth
  | some pos => if pos < lineCharWidth - 1 then pos + 1 else pos

/-- What goes on to the next line: leading spaces are deleted. -/
def afterWrap (line : Text) (pos : ℕ) : Text := (line.drop pos).dropWhile (· == ' ')

/-- The rest of a line, and the vectors. -/
structure Wrapping where
  currLine : Text
  rText : List Text
  rColor : List Text

variable (measure : Text → ℕ) (currColor : Option Text)

def Wrapping.push (w : Wrapping) (line : Text) : List Text × List Text :=
  (w.rText ++ [line], w.rColor ++ currColor.toList)

/-- One pass of the loop; `measure` is `gr_ttf_maxExW`. -/
def wrapPass (w : Wrapping) : Wrapping ⊕ List Text × List Text :=
  if measure w.currLine < w.currLine.length then
    let pos := wrapPos w.currLine (measure w.currLine)
    let pushed := w.push currColor (w.currLine.take pos)
    .inl ⟨afterWrap w.currLine pos, pushed.1, pushed.2⟩
  else .inr (w.push currColor w.currLine)

/-- The new lines, each with its colour; the wrap of each of them may take `limit` passes. -/
def addEach (limit : ℕ) : List (Text × Option Text) → List Text × List Text →
    Option (List Text × List Text)
  | [], r => some r
  | (line, color) :: lines, r => do
    let r' ← loop (wrapPass measure color) limit ⟨line, r.1, r.2⟩
    addEach limit lines r'

def ConsoleText.lines (text : ConsoleText) : List (Text × Option Text) :=
  match text.origColor with
  | none => text.origText.map fun line => (line, none)
  | some colors => text.origText.zip (colors.map some)

/-- `font` is whether the font is loaded. -/
def addLines (limit : ℕ) (font : Bool) (text : ConsoleText) (r : RenderedText) :
    Option (Bool × RenderedText) :=
  if !font then some (false, r)
  else if r.lastCount = text.origText.length then some (false, r)
  else
    (addEach measure limit (text.lines.drop r.lastCount) (r.rText, r.rColor)).map fun added =>
      (true, ⟨text.origText.length, added.1, added.2⟩)

/-- Lines that are a text again once the spaces deleted at the wraps are put back. -/
inductive Wrapped : Text → List Text → Prop
  | last (line : Text) : Wrapped line [line]
  | wrap {line gap rest : Text} {lines : List Text} : (∀ c ∈ gap, c = ' ') → Wrapped rest lines →
      Wrapped (line ++ (gap ++ rest)) (line :: lines)

/-- The lines that the loop makes of a line. -/
inductive Splits : Text → List Text → Prop
  | fits {line : Text} : ¬measure line < line.length → Splits line [line]
  | wrap {line : Text} {lines : List Text} : measure line < line.length →
      Splits (afterWrap line (wrapPos line (measure line))) lines →
      Splits line (line.take (wrapPos line (measure line)) :: lines)

/-- What may be left of a line after some wraps. -/
inductive Rest (line : Text) : Text → Prop
  | all : Rest line line
  | wrap {rest : Text} : Rest line rest → measure rest < rest.length →
      Rest line (afterWrap rest (wrapPos rest (measure rest)))

/-- The measuring function counts characters that fit, at least one. -/
def Measures : Prop := ∀ line, line ≠ [] → 1 ≤ measure line ∧ measure line ≤ line.length

/-- On its way through the wraps the line never comes to a rest that starts with a separator while
only one character fits, or to one with nothing but spaces behind the wrap. -/
def WrapsWell (line : Text) : Prop :=
  ∀ rest, Rest measure line rest → measure rest < rest.length →
    ¬(measure rest = 1 ∧ ∃ c ∈ rest.head?, c ∈ separators) ∧
      ∃ c ∈ rest.drop (wrapPos rest (measure rest)), c ≠ ' '

/-- What a new line becomes: the loop ends with these lines, they are the line but for spaces at the
wraps, and none of them is empty unless the line is. -/
structure Becomes (line : Text × Option Text) (part : List Text) : Prop where
  ends : Ends (wrapPass measure line.2) ⟨line.1, [], []⟩ (part, part.flatMap fun _ => line.2.toList)
  wrapped : Wrapped line.1 part
  full : line.1 ≠ [] → ∀ l ∈ part, l ≠ []

/-- The call returns, and what it has added are the lines that the new lines of the text become,
each in its colour. -/
def AddsLines (font : Bool) (text : ConsoleText) (r : RenderedText) : Prop :=
  ∃ limit result, addLines measure limit font text r = some result ∧
    (result.1 = true → ∃ parts,
      List.Forall₂ (Becomes measure) (text.lines.drop r.lastCount) parts ∧
      result.2.rText = r.rText ++ parts.flatten ∧
      result.2.rColor = r.rColor ++ ((text.lines.drop r.lastCount).zip parts).flatMap fun p =>
        p.2.flatMap fun _ => p.1.2.toList)

section wraps
variable {measure} {currColor} {line : Text} {lines : List Text}

theorem wrapPos_eq_zero {s : Text} {width : ℕ} (hs : s ≠ []) (hwidth : 1 ≤ width) :
    wrapPos s width = 0 ↔ width = 1 ∧ ∃ c ∈ s.head?, c ∈ separators := by
  obtain ⟨c, s, rfl⟩ := List.exists_cons_of_ne_nil hs
  rcases Nat.lt_or_ge 1 width with hone | hone
  · have hpos : wrapPos (c :: s) width ≠ 0 := by
      unfold wrapPos
      split
      · omega
      · split_ifs <;> omega
    simp [hpos, hone.ne']
  · obtain rfl : width = 1 := by omega
    have hfind : findLastSeparator (c :: s) 0 = if c ∈ separators then some 0 else none := by
      by_cases hc : c ∈ separators <;> simp [findLastSeparator, hc]
    by_cases hc : c ∈ separators <;> simp [wrapPos, hfind, hc]

theorem afterWrap_length_lt {s : Text} {pos : ℕ} (hs : s ≠ []) (hpos : pos ≠ 0) :
    (afterWrap s pos).length < s.length := by
  have hle := (List.dropWhile_suffix (p := (· == ' ')) (l := s.drop pos)).length_le
  have := List.length_pos_iff.mpr hs
  rw [List.length_drop] at hle
  rw [afterWrap]
  omega

theorem afterWrap_ne_nil {s : Text} {pos : ℕ} :
    afterWrap s pos ≠ [] ↔ ∃ c ∈ s.drop pos, c ≠ ' ' := by
  simp [afterWrap, List.dropWhile_eq_nil_iff]

/-- The spaces that a wrap deletes. -/
theorem take_append_afterWrap (s : Text) (pos : ℕ) : ∃ gap, (∀ c ∈ gap, c = ' ') ∧
    s = s.take pos ++ (gap ++ afterWrap s pos) := by
  refine ⟨(s.drop pos).takeWhile (· == ' '), fun c hc => ?_, ?_⟩
  · simpa using List.mem_takeWhile_imp hc
  · rw [afterWrap, List.takeWhile_append_dropWhile, List.take_append_drop]

/-- What is removed at the wraps is spaces only, whatever the measuring function says. -/
theorem Splits.wrapped (h : Splits measure line lines) : Wrapped line lines := by
  induction h with
  | fits _ => exact .last _
  | wrap _ _ ih =>
    rename_i line lines hwrap _
    obtain ⟨gap, hgap, heq⟩ := take_append_afterWrap line (wrapPos line (measure line))
    have hwrapped : Wrapped (line.take (wrapPos line (measure line)) ++
        (gap ++ afterWrap line (wrapPos line (measure line)))) _ := .wrap hgap ih
    rwa [← heq] at hwrapped

theorem Splits.ends (h : Splits measure line lines) (rText rColor : List Text) :
    Ends (wrapPass measure currColor) ⟨line, rText, rColor⟩
      (rText ++ lines, rColor ++ lines.flatMap fun _ => currColor.toList) := by
  induction h generalizing rText rColor with
  | fits hfits =>
    apply Ends.stop
    simp [wrapPass, hfits, Wrapping.push]
  | wrap hfits _ ih =>
    rename_i line lines _
    refine .pass (by rw [wrapPass, if_pos hfits]) ?_
    have hrest := ih (rText ++ [line.take (wrapPos line (measure line))])
      (rColor ++ currColor.toList)
    simpa [Wrapping.push] using hrest

theorem ends_wrapPass {w : Wrapping} {r : List Text × List Text} :
    Ends (wrapPass measure currColor) w r ↔ ∃ lines, Splits measure w.currLine lines ∧
      r = (w.rText ++ lines, w.rColor ++ lines.flatMap fun _ => currColor.toList) := by
  constructor
  · intro h
    induction h with
    | stop hb =>
      unfold wrapPass at hb
      split_ifs at hb with hfits
      refine ⟨_, .fits hfits, ?_⟩
      rw [← Sum.inr.inj hb]
      simp [Wrapping.push]
    | pass hb _ ih =>
      unfold wrapPass at hb
      split_ifs at hb with hfits
      obtain ⟨lines, hsplits, hr⟩ := ih
      rw [← Sum.inl.inj hb] at hsplits hr
      refine ⟨_, .wrap hfits hsplits, ?_⟩
      rw [hr]
      simp [Wrapping.push]
  · intro ⟨lines, hsplits, hr⟩
    rw [hr]
    exact hsplits.ends w.rText w.rColor

/-- A line is split into lines with something in them exactly when it wraps well. -/
theorem splits_iff (hmeasure : Measures measure) (hline : line ≠ []) :
    (∃ lines, Splits measure line lines ∧ ∀ l ∈ lines, l ≠ []) ↔ WrapsWell measure line := by
  have hstart : ∀ s : Text, measure s < s.length →
      (wrapPos s (measure s) = 0 ↔ measure s = 1 ∧ ∃ c ∈ s.head?, c ∈ separators) := by
    intro s hs
    have hne : s ≠ [] := by
      rintro rfl
      simp at hs
    exact wrapPos_eq_zero hne (hmeasure s hne).1
  constructor
  · rintro ⟨lines, hsplits, hfull⟩
    -- every rest is split into lines with something in them
    have hrests : ∀ rest, Rest measure line rest →
        ∃ lines, Splits measure rest lines ∧ ∀ l ∈ lines, l ≠ [] := by
      intro rest hrest
      induction hrest with
      | all => exact ⟨lines, hsplits, hfull⟩
      | wrap _ hwrap ih =>
        obtain ⟨lines', hsplits', hfull'⟩ := ih
        cases hsplits' with
        | fits hfits => exact absurd hwrap hfits
        | wrap _ hnext => exact ⟨_, hnext, fun l hl => hfull' l (List.mem_cons_of_mem _ hl)⟩
    intro rest hrest hwrap
    obtain ⟨lines', hsplits', hfull'⟩ := hrests rest hrest
    cases hsplits' with
    | fits hfits => exact absurd hwrap hfits
    | wrap _ hnext =>
      constructor
      · rw [← hstart rest hwrap]
        intro hzero
        exact hfull' _ List.mem_cons_self (by rw [hzero, List.take_zero])
      · rw [← afterWrap_ne_nil]
        intro hnil
        rw [hnil] at hnext
        cases hnext with
        | fits _ => exact hfull' [] (by simp) rfl
        | wrap hlt _ => simp at hlt
  · -- by induction on the length of what is left
    intro hwell
    induction hn : line.length using Nat.strongRecOn generalizing line with
    | ind n ih =>
      by_cases hwrap : measure line < line.length
      · obtain ⟨hbad, hspaces⟩ := hwell line .all hwrap
        have hpos : wrapPos line (measure line) ≠ 0 := fun h => hbad ((hstart line hwrap).mp h)
        have hrest : WrapsWell measure (afterWrap line (wrapPos line (measure line))) := by
          intro rest hrest
          refine hwell rest ?_
          induction hrest with
          | all => exact .wrap .all hwrap
          | wrap _ hlt ih => exact .wrap ih hlt
        have hshort := afterWrap_length_lt hline hpos
        obtain ⟨lines, hsplits, hfull⟩ :=
          ih _ (hn ▸ hshort) (afterWrap_ne_nil.mpr hspaces) hrest rfl
        refine ⟨_, .wrap hwrap hsplits, fun l hl => ?_⟩
        rcases List.mem_cons.mp hl with rfl | hl
        · simp [hpos, hline]
        · exact hfull l hl
      · exact ⟨[line], .fits hwrap, by simpa using hline⟩

theorem becomes_iff (hmeasure : Measures measure) {line : Text × Option Text} :
    (∃ part, Becomes measure line part) ↔ WrapsWell measure line.1 := by
  by_cases hline : line.1 = []
  · have hfits : ¬measure line.1 < line.1.length := by simp [hline]
    have hone : Splits measure line.1 [line.1] := .fits hfits
    constructor
    · intro _ rest hrest hwrap
      cases hrest with
      | all => exact absurd hwrap hfits
      | wrap hrest hlt =>
        clear hwrap
        exfalso
        induction hrest with
        | all => exact hfits hlt
        | wrap _ hlt' ih => exact ih hlt'
    · intro _
      exact ⟨[line.1], by simpa using hone.ends [] [], hone.wrapped, fun h => absurd hline h⟩
  · rw [← splits_iff hmeasure hline]
    constructor
    · rintro ⟨part, hbecomes⟩
      obtain ⟨lines, hsplits, heq⟩ := ends_wrapPass.mp hbecomes.ends
      have hpart : part = lines := congrArg Prod.fst heq
      exact ⟨lines, hsplits, hpart ▸ hbecomes.full hline⟩
    · rintro ⟨lines, hsplits, hfull⟩
      exact ⟨lines, by simpa using hsplits.ends [] [], hsplits.wrapped, fun _ => hfull⟩

theorem addEach_mono {n m : ℕ} {todo : List (Text × Option Text)} {r r' : List Text × List Text}
    (h : addEach measure n todo r = some r') (hnm : n ≤ m) :
    addEach measure m todo r = some r' := by
  induction todo generalizing r with
  | nil => exact h
  | cons line todo ih =>
    obtain ⟨r₁, hloop, hrest⟩ := Option.bind_eq_some_iff.mp h
    exact Option.bind_eq_some_iff.mpr ⟨r₁, loop_mono hloop hnm, ih hrest⟩

/-- Adding lines ends when the wrap of each of them does. -/
theorem exists_addEach {todo : List (Text × Option Text)} {r r' : List Text × List Text} :
    (∃ limit, addEach measure limit todo r = some r') ↔ ∃ parts,
      List.Forall₂ (fun line part => Splits measure line.1 part) todo parts ∧
      r' = (r.1 ++ parts.flatten, r.2 ++ (todo.zip parts).flatMap fun p =>
        p.2.flatMap fun _ => p.1.2.toList) := by
  induction todo generalizing r with
  | nil => simp [addEach, eq_comm]
  | cons line todo ih =>
    constructor
    · rintro ⟨limit, h⟩
      obtain ⟨r₁, hloop, hrest⟩ := Option.bind_eq_some_iff.mp h
      obtain ⟨part, hsplits, rfl⟩ := ends_wrapPass.mp (ends_iff_loop.mpr ⟨limit, hloop⟩)
      obtain ⟨parts, hparts, rfl⟩ := ih.mp ⟨limit, hrest⟩
      exact ⟨part :: parts, .cons hsplits hparts, by simp⟩
    · rintro ⟨parts, hparts, rfl⟩
      cases hparts with
      | cons hsplits hparts =>
        rename_i part parts
        have hends : Ends (wrapPass measure line.2) ⟨line.1, r.1, r.2⟩ _ := hsplits.ends r.1 r.2
        obtain ⟨n, hn⟩ := ends_iff_loop.mp hends
        obtain ⟨m, hm⟩ := (ih (r := (r.1 ++ part, r.2 ++ part.flatMap fun _ => line.2.toList))).mpr
          ⟨parts, hparts, by simp⟩
        refine ⟨max n m, Option.bind_eq_some_iff.mpr
          ⟨_, loop_mono hn (Nat.le_max_left n m), ?_⟩⟩
        exact addEach_mono hm (Nat.le_max_right n m)

theorem forall_exists_forall₂ {α β : Type} {R : α → β → Prop} {l : List α} :
    (∀ a ∈ l, ∃ b, R a b) ↔ ∃ bs, List.Forall₂ R l bs := by
  constructor
  · intro h
    induction l with
    | nil => exact ⟨[], .nil⟩
    | cons a l ih =>
      obtain ⟨b, hb⟩ := h a List.mem_cons_self
      obtain ⟨bs, hbs⟩ := ih fun a ha => h a (List.mem_cons_of_mem _ ha)
      exact ⟨b :: bs, .cons hb hbs⟩
  · rintro ⟨bs, hbs⟩ a ha
    induction hbs with
    | nil => cases ha
    | cons hb _ ih =>
      rcases List.mem_cons.mp ha with rfl | ha
      · exact ⟨_, hb⟩
      · exact ih ha

theorem Becomes.splits {line : Text × Option Text} {part : List Text}
    (h : Becomes measure line part) : Splits measure line.1 part := by
  obtain ⟨lines, hsplits, heq⟩ := ends_wrapPass.mp h.ends
  have hpart : part = lines := congrArg Prod.fst heq
  exact hpart ▸ hsplits

theorem ConsoleText.length_lines (text : ConsoleText) :
    text.lines.length = text.origText.length := by
  unfold ConsoleText.lines
  split
  · exact List.length_map _
  · rename_i colors hcolors
    simp [text.parallel colors hcolors]

/-- A call does what it should exactly when every new line wraps well. -/
theorem addsLines_iff (hmeasure : Measures measure) (font : Bool) (text : ConsoleText)
    (r : RenderedText) : AddsLines measure font text r ↔
      (font = true → ∀ line ∈ text.lines.drop r.lastCount, WrapsWell measure line.1) := by
  unfold AddsLines addLines
  cases font with
  | false => exact ⟨fun _ h => absurd h Bool.false_ne_true, fun _ => ⟨0, (false, r), by simp⟩⟩
  | true =>
    simp only [Bool.not_true, Bool.false_eq_true, if_false, true_implies]
    by_cases hnone : r.lastCount = text.origText.length
    · have hdrop : text.lines.drop r.lastCount = [] := by
        rw [List.drop_eq_nil_iff, text.length_lines, hnone]
      rw [hdrop]
      simp [hnone]
    · simp only [if_neg hnone]
      constructor
      · rintro ⟨limit, result, h, hadded⟩ line hline
        obtain ⟨added, -, rfl⟩ := Option.map_eq_some_iff.mp h
        obtain ⟨parts, hparts, -⟩ := hadded rfl
        exact (becomes_iff hmeasure).mp (forall_exists_forall₂.mpr ⟨parts, hparts⟩ line hline)
      · intro hwell
        obtain ⟨parts, hparts⟩ := forall_exists_forall₂.mp fun line hline =>
          (becomes_iff hmeasure).mpr (hwell line hline)
        obtain ⟨limit, hadd⟩ := exists_addEach (r := (r.rText, r.rColor)) |>.mpr
          ⟨parts, hparts.imp fun _ _ h => h.splits, rfl⟩
        refine ⟨limit, _, by rw [hadd]; rfl, fun _ => ⟨parts, hparts, rfl, rfl⟩⟩

end wraps

/-- Every character is a pixel wide, in a list two pixels wide. -/
def twoWide (line : Text) : ℕ := min 2 line.length

theorem measures_twoWide : Measures twoWide := fun line hline => by
  have := List.length_pos_iff.mpr hline
  unfold twoWide
  omega

/-- The same in a list one pixel wide. -/
def oneWide (line : Text) : ℕ := min 1 line.length

theorem measures_oneWide : Measures oneWide := fun line hline => by
  have := List.length_pos_iff.mpr hline
  unfold oneWide
  omega

def plainText (line : Text) : ConsoleText where
  origText := [line]
  origColor := none
  parallel := by simp

example : addLines twoWide 5 true (plainText "ab cd".toList) ⟨0, [], []⟩ =
    some (true, ⟨1, ["ab".toList, "cd".toList], []⟩) := by decide

/-- The line wraps at its blank. -/
theorem addsLines_twoWide : AddsLines twoWide true (plainText "ab cd".toList) ⟨0, [], []⟩ :=
  (addsLines_iff measures_twoWide true (plainText "ab cd".toList) ⟨0, [], []⟩).mpr <| by
    intro _ line hline rest hrest hwrap
    obtain rfl : line = ("ab cd".toList, none) := by
      simpa [plainText, ConsoleText.lines] using hline
    have hall : rest = "ab cd".toList ∨ rest = "cd".toList := by
      clear hwrap
      induction hrest with
      | all => exact .inl rfl
      | wrap _ hlt ih =>
        rcases ih with rfl | rfl
        · exact .inr (by decide)
        · exact absurd hlt (by decide)
    rcases hall with rfl | rfl
    · exact ⟨fun h => absurd h.1 (by decide), 'c', by decide, by decide⟩
    · exact absurd hwrap (by decide)

/-- The line starts with a comma and no more than that fits: the wrap is in front of it, and the
loop adds empty lines for ever. -/
theorem not_addsLines_oneWide : Measures oneWide ∧
    (¬∃ r, Ends (wrapPass oneWide none) ⟨",a".toList, [], []⟩ r) ∧
    ¬AddsLines oneWide true (plainText ",a".toList) ⟨0, [], []⟩ := by
  have hnever : ¬∃ r, Ends (wrapPass oneWide none) ⟨",a".toList, [], []⟩ r := by
    refine not_ends (I := fun w => w.currLine = ",a".toList) rfl fun w hw => ?_
    have hwrap : oneWide w.currLine < w.currLine.length := by rw [hw]; decide
    refine ⟨_, by rw [wrapPass, if_pos hwrap], ?_⟩
    dsimp only
    rw [hw]
    decide
  refine ⟨measures_oneWide, hnever, ?_⟩
  rintro ⟨limit, result, h, -⟩
  obtain ⟨added, hadd, -⟩ := Option.map_eq_some_iff.mp h
  obtain ⟨parts, hparts, -⟩ := exists_addEach.mp ⟨limit, hadd⟩
  cases hparts with
  | cons hsplits _ => exact hnever ⟨_, hsplits.ends [] []⟩

end BootableRecovery.Gui
