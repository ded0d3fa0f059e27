import BootableRecovery.Lib.Text
import Mathlib.Order.Lattice
import Mathlib.Data.List.Range

namespace BootableRecovery.RecoveryUi
open Lib

/-! `TextMenu`: the selection, and the window of the items that are drawn. -/

def intMax : ℕ := 2 ^ 31 - 1

structure TextMenu where
  scrollable : Bool
  maxDisplayItems : ℕ
  maxItemLength : ℕ
  textHeaders : List Text
  textItems : List Text
  menuStart : ℕ
  selection : ℕ
  deriving DecidableEq, Repr

namespace TextMenu

/-- The constructor; `none` where a check fails. -/
def textMenu (scrollable : Bool) (maxItems maxLength : ℕ) (headers items : List Text)
    (initialSelection : ℕ) : Option TextMenu :=
  if maxItems ≤ intMax then
    let itemsCount := if scrollable then items.length else min items.length maxItems
    let textItems := (items.take itemsCount).map fun item => item.take maxLength
    if textItems = [] then none
    else some ⟨scrollable, maxItems, maxLength, headers, textItems, 0, initialSelection⟩
  else none

def itemsCount (m : TextMenu) : ℕ := m.textItems.length

def menuEnd (m : TextMenu) : ℕ := min m.itemsCount (m.menuStart + m.maxDisplayItems)

/-- Fails its check on an index that has no item. -/
def textItem (m : TextMenu) (index : ℕ) : Option Text := m.textItems[index]?

/-- The first item moves by one towards a selection that is not drawn. -/
def follow (m : TextMenu) (sel : ℕ) : ℕ :=
  if sel < m.menuStart then m.menuStart - 1
  else if sel ≥ m.menuEnd then m.menuStart + 1
  else m.menuStart

def select (m : TextMenu) (sel : ℤ) : Option TextMenu :=
  if m.itemsCount ≤ intMax then
    if m.scrollable = false then
      -- wraps at both ends
      if sel < 0 then some { m with selection := m.itemsCount - 1 }
      else if sel ≥ m.itemsCount then some { m with selection := 0 }
      else some { m with selection := sel.toNat }
    else if sel < 0 then some { m with selection := 0 }
    else if sel ≥ m.itemsCount then some { m with selection := m.itemsCount - 1 }
    else some { m with menuStart := m.follow sel.toNat, selection := sel.toNat }
  else none

/-- The lines of `DrawItems`, and which of them is highlighted. -/
def drawItems (m : TextMenu) : Option (List (Text × Bool)) :=
  (List.range' m.menuStart (m.menuEnd - m.menuStart)).mapM fun i =>
    (m.textItem i).map fun item => (item, decide (i = m.selection))

/-- One step up or down. -/
inductive Move
  | up
  | down
  deriving DecidableEq, Repr

def move (m : TextMenu) : Move → Option TextMenu
  | .up => m.select ((m.selection : ℤ) - 1)
  | .down => m.select ((m.selection : ℤ) + 1)

def run (m : TextMenu) (moves : List Move) : Option TextMenu := moves.foldlM move m

/-- What a user relies on: the selection is one of the items, and one of those on the screen. -/
structure Shown (m : TextMenu) : Prop where
  selection_lt : m.selection < m.itemsCount
  start_le : m.menuStart ≤ m.selection
  lt_end : m.selection < m.menuEnd
  full : m.menuEnd - m.menuStart = min m.maxDisplayItems m.itemsCount
  drawn : ∃ lines, m.drawItems = some lines ∧ lines.length = m.menuEnd - m.menuStart ∧
    ∃ item, m.textItem m.selection = some item ∧ (item, true) ∈ lines

/-- The part of it that a step has to keep. -/
structure Placed (m : TextMenu) : Prop where
  start_le : m.menuStart ≤ m.selection
  lt_end : m.selection < m.menuEnd
  full : m.menuEnd - m.menuStart = min m.maxDisplayItems m.itemsCount

section lemmas
variable {m n : TextMenu} {sel : ℕ}

theorem menuEnd_le (m : TextMenu) : m.menuEnd ≤ m.itemsCount := Nat.min_le_left _ _

theorem Placed.selection_lt (h : m.Placed) : m.selection < m.itemsCount :=
  h.lt_end.trans_le m.menuEnd_le

theorem textItem_of_lt {i : ℕ} (h : i < m.itemsCount) :
    m.textItem i = some (m.textItems.getD i []) := by
  have hlength : i < m.textItems.length := h
  simp [textItem, hlength]

/-- Every index between the two ends has an item. -/
theorem drawItems_eq (m : TextMenu) :
    m.drawItems = some ((List.range' m.menuStart (m.menuEnd - m.menuStart)).map fun i =>
      (m.textItems.getD i [], decide (i = m.selection))) := by
  have hvalid : ∀ i ∈ List.range' m.menuStart (m.menuEnd - m.menuStart), i < m.itemsCount := by
    intro i hi
    have hend := m.menuEnd_le
    rw [List.mem_range'_1] at hi
    omega
  unfold drawItems
  generalize List.range' m.menuStart (m.menuEnd - m.menuStart) = l at hvalid ⊢
  induction l with
  | nil => rfl
  | cons i l ih =>
    rw [List.mapM_cons, textItem_of_lt (hvalid i List.mem_cons_self),
      ih fun j hj => hvalid j (List.mem_cons_of_mem i hj)]
    rfl

theorem Placed.shown (h : m.Placed) : m.Shown where
  selection_lt := h.selection_lt
  start_le := h.start_le
  lt_end := h.lt_end
  full := h.full
  drawn := by
    refine ⟨_, m.drawItems_eq, by simp, _, textItem_of_lt h.selection_lt,
      List.mem_map.mpr ⟨m.selection, ?_, by simp⟩⟩
    have hstart := h.start_le
    have hend := h.lt_end
    rw [List.mem_range'_1]
    omega

theorem follow_cases (m : TextMenu) (sel : ℕ) :
    (sel < m.menuStart ∧ m.follow sel = m.menuStart - 1) ∨
      (m.menuStart ≤ sel ∧ m.menuEnd ≤ sel ∧ m.follow sel = m.menuStart + 1) ∨
      (m.menuStart ≤ sel ∧ sel < m.menuEnd ∧ m.follow sel = m.menuStart) := by
  unfold follow
  split_ifs <;> omega

/-- A selection next to one that is drawn is drawn after the window has followed it. -/
theorem Placed.follow (h : m.Placed) (hsel : sel < m.itemsCount)
    (hup : m.selection ≤ sel + 1) (hdown : sel ≤ m.selection + 1) :
    Placed { m with menuStart := m.follow sel, selection := sel } := by
  obtain ⟨hstart, hend, hfull⟩ := h
  have hfollow := m.follow_cases sel
  simp only [menuEnd, itemsCount] at hend hfull hsel hfollow
  constructor
  · dsimp only
    omega
  · simp only [menuEnd, itemsCount]
    omega
  · simp only [menuEnd, itemsCount]
    omega

/-- A selection that is next to another one, and the ends. -/
structure Near (m : TextMenu) (sel : ℤ) : Prop where
  up : (m.selection : ℤ) ≤ sel + 1
  down : sel ≤ m.selection + 1

theorem near_up (m : TextMenu) : m.Near ((m.selection : ℤ) - 1) := by
  constructor <;> omega

theorem near_down (m : TextMenu) : m.Near ((m.selection : ℤ) + 1) := by
  constructor <;> omega

/-- What holds from the first selection on: all items of a menu that does not scroll are drawn. -/
structure Invariant (m : TextMenu) : Prop where
  placed : m.Placed
  all : m.scrollable = false → m.menuStart = 0 ∧ m.itemsCount ≤ m.maxDisplayItems

/-- Any selection will do while all items are drawn. -/
theorem Invariant.wrap (h : m.Invariant) (hscroll : m.scrollable = false)
    (hsel : sel < m.itemsCount) : Invariant { m with selection := sel } := by
  obtain ⟨hstart, hall⟩ := h.all hscroll
  refine ⟨?_, h.all⟩
  simp only [itemsCount] at hsel hall
  constructor
  · dsimp only
    omega
  · simp only [menuEnd, itemsCount]
    omega
  · exact h.placed.full

theorem Invariant.select {target : ℤ} (h : m.Invariant) (hnear : m.Near target)
    (hn : m.select target = some n) : n.Invariant := by
  have hlt := h.placed.selection_lt
  obtain ⟨hup, hdown⟩ := hnear
  unfold TextMenu.select at hn
  split_ifs at hn with hcount hscroll hneg hbig hneg hbig
  · cases hn
    exact h.wrap hscroll (by omega)
  · cases hn
    exact h.wrap hscroll (by omega)
  · cases hn
    exact h.wrap hscroll (by omega)
  · -- the selection was at the first item, and stays there
    have hzero : m.selection = 0 := by omega
    rw [← hzero] at hn
    cases hn
    exact h
  · have hlast : m.selection = m.itemsCount - 1 := by omega
    rw [← hlast] at hn
    cases hn
    exact h
  · cases hn
    exact ⟨h.placed.follow (by omega) (by omega) (by omega), fun h' => absurd h' hscroll⟩

theorem Invariant.move (h : m.Invariant) {d : Move} (hn : m.move d = some n) : n.Invariant := by
  cases d with
  | up => exact h.select m.near_up hn
  | down => exact h.select m.near_down hn

theorem Invariant.run (h : m.Invariant) {moves : List Move} (hn : m.run moves = some n) :
    n.Invariant := by
  induction moves generalizing m with
  | nil =>
    cases hn
    exact h
  | cons d moves ih =>
    obtain ⟨m', hm', hrest⟩ := Option.bind_eq_some_iff.mp hn
    exact ih (h.move hm') hrest

/-- With at most `INT_MAX` items no check of `Select` fails. -/
theorem exists_select (hcount : m.itemsCount ≤ intMax) (target : ℤ) :
    ∃ n, m.select target = some n ∧ n.itemsCount = m.itemsCount := by
  unfold TextMenu.select
  rw [if_pos hcount]
  split_ifs <;> exact ⟨_, rfl, rfl⟩

theorem exists_run (hcount : m.itemsCount ≤ intMax) (moves : List Move) :
    ∃ n, m.run moves = some n := by
  induction moves generalizing m with
  | nil => exact ⟨m, rfl⟩
  | cons d moves ih =>
    have hmove : ∃ m', m.move d = some m' ∧ m'.itemsCount = m.itemsCount := by
      cases d with
      | up => exact exists_select hcount _
      | down => exact exists_select hcount _
    obtain ⟨m', hm', hsame⟩ := hmove
    obtain ⟨n, hn⟩ := ih (hsame ▸ hcount)
    exact ⟨n, Option.bind_eq_some_iff.mpr ⟨m', hm', hn⟩⟩

end lemmas

section menu
variable {scrollable : Bool} {maxItems maxLength initialSelection : ℕ} {headers items : List Text}
  {m : TextMenu}

theorem textMenu_fields
    (h : textMenu scrollable maxItems maxLength headers items initialSelection = some m) :
    m.scrollable = scrollable ∧ m.maxDisplayItems = maxItems ∧ m.menuStart = 0 ∧
      m.selection = initialSelection ∧ (scrollable = false → m.itemsCount ≤ maxItems) := by
  unfold textMenu at h
  dsimp only at h
  split_ifs at h with hmax hscroll
  · cases h
    exact ⟨rfl, rfl, rfl, rfl, fun hfixed => absurd (hscroll.symm.trans hfixed) (by decide)⟩
  · cases h
    refine ⟨rfl, rfl, rfl, rfl, fun _ => ?_⟩
    simp only [itemsCount, List.length_map, List.length_take]
    omega

theorem textMenu_itemsCount_le
    (h : textMenu scrollable maxItems maxLength headers items initialSelection = some m) :
    m.itemsCount ≤ items.length := by
  unfold textMenu at h
  dsimp only at h
  split_ifs at h
  · cases h
    simp [itemsCount]
  · cases h
    simp [itemsCount]

/-- The first selection is drawn when it is on the first page. -/
theorem textMenu_invariant
    (h : textMenu scrollable maxItems maxLength headers items initialSelection = some m)
    (hsel : initialSelection < m.itemsCount)
    (hpage : scrollable = false ∨ initialSelection < maxItems) : m.Invariant := by
  obtain ⟨hscroll, hmax, hstart, hselection, hcount⟩ := textMenu_fields h
  have hlt : initialSelection < maxItems :=
    hpage.elim (fun hs => hsel.trans_le (hcount hs)) id
  refine ⟨⟨?_, ?_, ?_⟩, fun hs => ⟨hstart, ?_⟩⟩
  · omega
  · rw [menuEnd]
    omega
  · rw [menuEnd]
    omega
  · rw [hmax]
    exact hcount (hscroll ▸ hs)

/-- However the selection is moved, it is drawn, if the first selection is: a menu that scrolls
starts at its first item all the same. -/
theorem run_shown_iff
    (h : textMenu scrollable maxItems maxLength headers items initialSelection = some m)
    (hsel : initialSelection < m.itemsCount) :
    (∀ moves n, m.run moves = some n → n.Shown) ↔
      scrollable = false ∨ initialSelection < maxItems := by
  refine ⟨fun hall => ?_, fun hpage moves n hn =>
    ((textMenu_invariant h hsel hpage).run hn).placed.shown⟩
  obtain ⟨-, hmax, hstart, hselection, -⟩ := textMenu_fields h
  have hend := (hall [] m rfl).lt_end
  rw [menuEnd, hstart, hmax, hselection] at hend
  exact Or.inr (by omega)

/-- A menu made from at most `INT_MAX` items takes any moves. -/
theorem textMenu_run
    (h : textMenu scrollable maxItems maxLength headers items initialSelection = some m)
    (hitems : items.length ≤ intMax) (moves : List Move) : ∃ n, m.run moves = some n :=
  exists_run ((textMenu_itemsCount_le h).trans hitems) moves

theorem run_shown_three : ∃ m, textMenu true 2 10 [] [['a'], ['b'], ['c']] 1 = some m ∧
    ((∀ moves n, m.run moves = some n → n.Shown) ↔ true = false ∨ 1 < 2) :=
  ⟨_, rfl, @run_shown_iff true 2 10 1 [] [['a'], ['b'], ['c']] _ rfl (by decide)⟩

/-- Three items, two of them drawn, and the third is selected at first. -/
theorem not_shown_last : ∃ m, textMenu true 2 10 [] [['a'], ['b'], ['c']] 2 = some m ∧
    2 < m.itemsCount ∧ (∃ lines, m.drawItems = some lines ∧ ∀ line ∈ lines, line.2 = false) ∧
    ¬∀ moves n, m.run moves = some n → n.Shown :=
  ⟨_, rfl, by decide, ⟨_, rfl, by decide⟩, fun hall => absurd (hall [] _ rfl).lt_end (by decide)⟩

end menu

end TextMenu

end BootableRecovery.RecoveryUi
