import Mathlib.Algebra.Order.Group.Int
import Mathlib.Algebra.Order.Ring.Int
import Mathlib.Tactic.Linarith
import Mathlib.Tactic.Ring

namespace BootableRecovery.Gui

/-! `GUIScrollList`: the first item displayed and its offset in pixels. -/

/-- The members that scrolling reads. Items have a height, and the header fits into the list. -/
structure ScrollLayout where
  renderY : ℤ
  renderH : ℤ
  headerH : ℤ
  itemHeight : ℤ
  itemHeight_pos : 0 < itemHeight
  header_fits : headerH ≤ renderH

structure ScrollList where
  firstDisplayedItem : ℤ
  yOffset : ℤ
  scrollingSpeed : ℤ
  hasScroll : Bool
  deriving DecidableEq

variable (l : ScrollLayout) (itemCount : ℕ) (s : ScrollList)

namespace ScrollLayout

/-- The height of the items on display. -/
def displayH : ℤ := l.renderH - l.headerH

/-- `GetDisplayItemCount` -/
def lines : ℤ := l.displayH.tdiv l.itemHeight

/-- `GetDisplayRemainder` -/
def remainder : ℤ := l.displayH.tmod l.itemHeight

def bottomOffset : ℤ := l.remainder - l.itemHeight

/-- `bottom_offset ? 1 : 0` -/
def partialLine : ℤ := if l.bottomOffset ≠ 0 then 1 else 0

theorem partialLine_nonneg : 0 ≤ l.partialLine := by
  unfold partialLine
  split_ifs <;> decide

end ScrollLayout

namespace ScrollList

/-- The first loop of `HandleScrolling`. -/
def scrollBack (first y : ℤ) : ℤ × ℤ :=
  if first ≠ 0 ∧ 0 < y then scrollBack (first - 1) (y - l.itemHeight) else (first, y)
termination_by y.toNat
decreasing_by
  have := l.itemHeight_pos
  omega

/-- The second one. -/
def scrollOn (first y : ℤ) : ℤ × ℤ :=
  if first + l.lines + l.partialLine < itemCount ∧ |y| > l.itemHeight then
    scrollOn (first + 1) (y + l.itemHeight)
  else (first, y)
termination_by (itemCount - first - l.lines).toNat
decreasing_by
  have := l.partialLine_nonneg
  omega

def stopAtTop (s : ScrollList) : ScrollList :=
  if s.firstDisplayedItem = 0 ∧ 0 < s.yOffset then { s with yOffset := 0, scrollingSpeed := 0 }
  else s

def stopAtBottom (s : ScrollList) : ScrollList :=
  if l.bottomOffset ≠ 0 ∧ s.firstDisplayedItem + l.lines + 1 ≥ itemCount ∧
      s.yOffset ≤ l.bottomOffset then
    { s with
      firstDisplayedItem := itemCount - l.lines - 1
      yOffset := l.bottomOffset
      scrollingSpeed := 0 }
  else if s.firstDisplayedItem + l.lines ≥ itemCount ∧ s.yOffset < 0 then
    { s with firstDisplayedItem := itemCount - l.lines, yOffset := 0, scrollingSpeed := 0 }
  else s

def moveTo (s : ScrollList) (place : ℤ × ℤ) : ScrollList :=
  { s with firstDisplayedItem := place.1, yOffset := place.2 }

def handleScrolling : ScrollList :=
  let top := (s.moveTo (scrollBack l s.firstDisplayedItem s.yOffset)).stopAtTop
  (top.moveTo (scrollOn l itemCount top.firstDisplayedItem top.yOffset)).stopAtBottom l itemCount

/-- `TOUCH_DRAG` past the debounce, outside of the fast scroll region. -/
def drag (dy : ℤ) : ScrollList :=
  if s.hasScroll then { s with yOffset := s.yOffset + dy }.handleScrolling l itemCount
  else { s with yOffset := 0 }

/-- `actualItemHeight * std::max(2.5, float(GetDisplayItemCount() / 4) + 0.5)` -/
def maxScrollDistance : ℤ := (l.itemHeight * (2 * max 2 (l.lines.tdiv 4) + 1)).tdiv 2

/-- The kinetic scrolling of `Update`; `decrement` multiplies by the friction. -/
def update (decrement : ℤ → ℤ) : ScrollList :=
  if s.scrollingSpeed = 0 then s
  else
    let max := maxScrollDistance l
    let moved :=
      if 0 < s.scrollingSpeed then
        if s.scrollingSpeed < max then s.yOffset + s.scrollingSpeed else s.yOffset + max
      else
        if |s.scrollingSpeed| < max then s.yOffset + s.scrollingSpeed else s.yOffset - max
    let slower := decrement s.scrollingSpeed
    let slower :=
      if slower = s.scrollingSpeed then
        if 0 < s.scrollingSpeed then slower - 1 else slower + 1
      else slower
    { s with
      yOffset := moved
      scrollingSpeed := if |slower| < 2 then 0 else slower }.handleScrolling l itemCount

/-- An `int` as a `size_t`. -/
def sizeT (x : ℤ) : ℕ := (x % 2 ^ 64).toNat

/-- The calls of `RenderItem` made by `Render`, with their index and place. -/
def renderLoop : ℕ → ℕ → ℤ → List (ℕ × ℤ)
  | 0, _, _ => []
  | lines + 1, line, yPos =>
    let itemindex := (line + sizeT s.firstDisplayedItem) % 2 ^ 64
    if itemindex ≥ itemCount then []
    else (itemindex, yPos) :: renderLoop lines (line + 1) (yPos + l.itemHeight)

def render : ScrollList × List (ℕ × ℤ) :=
  let lines := sizeT l.lines
  if itemCount ≤ lines then
    let s' := { s with hasScroll := false, scrollingSpeed := 0, yOffset := 0 }
    (s', renderLoop l itemCount s' itemCount 0 (l.renderY + l.headerH))
  else
    let s' := { s with hasScroll := true }
    (s', renderLoop l itemCount s' (if lines + 1 < itemCount then lines + 2 else lines + 1) 0
      (l.renderY + l.headerH + s.yOffset))

/-- The loop of `HitTestItem`. -/
def hitLoop (startSelection selectY : ℤ) (actualSelection : ℕ) : ℕ :=
  if selectY + l.itemHeight < startSelection then
    hitLoop startSelection (selectY + l.itemHeight) ((actualSelection + 1) % 2 ^ 64)
  else actualSelection
termination_by (startSelection - selectY).toNat
decreasing_by
  have := l.itemHeight_pos
  omega

/-- `none` is `NO_ITEM`. -/
def hitTestItem (y : ℤ) : Option ℕ :=
  if y < l.renderY ∨ y - l.renderY ≤ l.headerH ∨ y - l.renderY > l.renderH then none
  else
    let actualSelection := hitLoop l (y - l.renderY - l.headerH) s.yOffset
      (sizeT s.firstDisplayedItem)
    if actualSelection < itemCount then some actualSelection else none

/-- What scrolling should come to. The display does not go on past the last item, unless all items
fit into it. -/
structure NormalForm (s : ScrollList) : Prop where
  offset : -l.itemHeight < s.yOffset ∧ s.yOffset ≤ 0
  first : 0 ≤ s.firstDisplayedItem ∧ s.firstDisplayedItem < max 1 itemCount
  lastPage : s.firstDisplayedItem * l.itemHeight - s.yOffset + l.displayH ≤
    max (itemCount * l.itemHeight) l.displayH
  again : s.handleScrolling l itemCount = s
  rendered : ∀ item ∈ (s.render l itemCount).2, item.1 < itemCount
  hit : ∀ y, ∀ item ∈ s.hitTestItem l itemCount y, item < itemCount

/-- The pixel of the items at the top of the display. -/
def pixel (first y : ℤ) : ℤ := first * l.itemHeight - y

/-- The offsets up to 0 that scrolling brings into normal form: inside of the items and not exactly
on a row further down; past the end, when the display ends inside of a row; and with a display of
whole rows or as many rows as items, a little past the end or right there. -/
def Settles (first y : ℤ) : Prop :=
  let last := itemCount - l.lines
  let bottom := itemCount * l.itemHeight - l.displayH
  (0 ≤ pixel l first y ∧ pixel l first y < bottom ∧ first < last ∧
      ¬(y < 0 ∧ y % l.itemHeight = 0)) ∨
    (bottom ≤ pixel l first y ∧ l.remainder ≠ 0 ∧ 0 < last ∧
      (first + 1 < last ∨ y ≤ l.bottomOffset)) ∨
    (last ≤ first ∧ l.bottomOffset < y ∧ y < 0 ∧
      (last = 0 ∨ 0 < last ∧ l.remainder = 0 ∧ 0 < l.lines)) ∨
    (last ≤ first ∧ y = 0 ∧
      (first = 0 ∨ first = last ∧ 0 < last ∧ l.remainder = 0 ∧ 0 < l.lines))

/-- A drag down comes to the top of the items, or to the row and offset of the pixel it leads to. -/
def SettlesFrom (first y : ℤ) : Prop :=
  if y ≤ 0 then Settles l itemCount first y
  else 0 ≤ first ∧ pixel l first y ≤ 0 ∨
    Settles l itemCount (pixel l first y / l.itemHeight) (-(pixel l first y % l.itemHeight))

section layout
variable {l} {itemCount} {s}

theorem displayH_nonneg : 0 ≤ l.displayH := by
  have := l.header_fits
  rw [ScrollLayout.displayH]
  omega

theorem lines_nonneg : 0 ≤ l.lines := Int.tdiv_nonneg displayH_nonneg l.itemHeight_pos.le

theorem remainder_mem : 0 ≤ l.remainder ∧ l.remainder < l.itemHeight :=
  ⟨Int.tmod_nonneg _ displayH_nonneg, Int.tmod_lt_of_pos _ l.itemHeight_pos⟩

theorem displayH_eq : l.displayH = l.lines * l.itemHeight + l.remainder := by
  rw [ScrollLayout.lines, ScrollLayout.remainder, mul_comm, Int.mul_tdiv_add_tmod]

theorem bottomOffset_mem : -l.itemHeight ≤ l.bottomOffset ∧ l.bottomOffset < 0 := by
  have := remainder_mem (l := l)
  rw [ScrollLayout.bottomOffset]
  omega

theorem partialLine_eq : l.partialLine = 1 := if_pos bottomOffset_mem.2.ne

/-- The bottom is a place: the last row but the lines on display, at the bottom offset. -/
theorem bottom_eq : itemCount * l.itemHeight - l.displayH =
    pixel l (itemCount - l.lines - 1) l.bottomOffset := by
  rw [pixel, displayH_eq, ScrollLayout.bottomOffset]
  ring

/-- A place is told by its pixel when the offset stays inside of a row. -/
theorem place_unique {first y : ℤ} (hy : -l.itemHeight < y) (hy0 : y ≤ 0) :
    first = pixel l first y / l.itemHeight ∧ y = -(pixel l first y % l.itemHeight) := by
  have hpos := l.itemHeight_pos
  have heq : pixel l first y = -y + l.itemHeight * first := by
    rw [pixel]
    ring
  constructor
  · rw [heq, Int.add_mul_ediv_left _ _ hpos.ne', Int.ediv_eq_zero_of_lt (by omega) (by omega),
      zero_add]
  · rw [heq, Int.add_mul_emod_self_left, Int.emod_eq_of_lt (by omega) (by omega), neg_neg]

theorem row_lt {a b : ℤ} (h : a < b) : a * l.itemHeight + l.itemHeight ≤ b * l.itemHeight := by
  have := Int.mul_le_mul_of_nonneg_right (Int.add_one_le_of_lt h) l.itemHeight_pos.le
  linarith

theorem scrollBack_spec (first y : ℤ) :
    pixel l (scrollBack l first y).1 (scrollBack l first y).2 = pixel l first y ∧
      (y ≤ 0 → scrollBack l first y = (first, y)) ∧
      (0 < y → -l.itemHeight < (scrollBack l first y).2) ∧
      ((scrollBack l first y).1 = 0 ∨ (scrollBack l first y).2 ≤ 0) ∧
      (0 ≤ first → 0 ≤ (scrollBack l first y).1) ∧
      (first < 0 → (scrollBack l first y).1 < 0) := by
  fun_induction scrollBack l first y with
  | case1 first y hgo ih =>
    obtain ⟨hpixel, hstay, hrow, hend, hnonneg, hneg⟩ := ih
    refine ⟨?_, fun h => by omega, fun _ => ?_, hend, fun h => hnonneg (by omega),
      fun h => hneg (by omega)⟩
    · rw [hpixel, pixel, pixel]
      ring
    · rcases lt_or_ge 0 (y - l.itemHeight) with h | h
      · exact hrow h
      · rw [hstay h]
        dsimp only
        omega
  | case2 first y hstop =>
    have := l.itemHeight_pos
    exact ⟨rfl, fun _ => rfl, fun h => by dsimp only; omega, by dsimp only; omega, id, id⟩

/-- Where the first half of `handleScrolling` leads. -/
def topPlace (l : ScrollLayout) (first y : ℤ) : ℤ × ℤ :=
  if y ≤ 0 then (first, y)
  else if 0 ≤ first ∧ pixel l first y ≤ 0 then (0, 0)
  else (pixel l first y / l.itemHeight, -(pixel l first y % l.itemHeight))

theorem stopAtTop_scrollBack :
    let top := (s.moveTo (scrollBack l s.firstDisplayedItem s.yOffset)).stopAtTop
    (top.firstDisplayedItem, top.yOffset) = topPlace l s.firstDisplayedItem s.yOffset := by
  obtain ⟨hpixel, hstay, hrow, hend, hnonneg, hneg⟩ :=
    scrollBack_spec (l := l) s.firstDisplayedItem s.yOffset
  generalize hr : scrollBack l s.firstDisplayedItem s.yOffset = r at *
  obtain ⟨first, y⟩ := r
  dsimp only at hpixel hrow hend hnonneg hneg
  have hpos := l.itemHeight_pos
  unfold topPlace
  rcases le_or_gt s.yOffset 0 with hy | hy
  · obtain ⟨rfl, rfl⟩ := Prod.mk.inj (hstay hy)
    rw [if_pos hy]
    simp [stopAtTop, moveTo, not_lt.mpr hy]
  · rw [if_neg (not_le.mpr hy)]
    by_cases htop : 0 ≤ s.firstDisplayedItem ∧ pixel l s.firstDisplayedItem s.yOffset ≤ 0
    · rw [if_pos htop]
      have hfirst : first = 0 := by
        rcases hend with h | h
        · exact h
        · by_contra hne
          have hrows := row_lt (l := l) (show 0 < first by have := hnonneg htop.1; omega)
          have hp := htop.2
          rw [← hpixel, pixel] at hp
          omega
      subst hfirst
      have hp := htop.2
      rw [← hpixel, pixel, zero_mul] at hp
      rcases hy0 : decide (0 < y)
      · have hy0' : y = 0 := by
          have := of_decide_eq_false hy0
          omega
        simp [stopAtTop, moveTo, hy0']
      · simp [stopAtTop, moveTo, of_decide_eq_true hy0]
    · rw [if_neg htop]
      have hy0 : y ≤ 0 := by
        rcases hend with h | h
        · by_contra hlt
          refine htop ⟨?_, ?_⟩
          · by_contra hlt'
            have := hneg (not_le.mp hlt')
            omega
          · rw [← hpixel, pixel, h, zero_mul]
            omega
        · exact h
      obtain ⟨hfirst, hoff⟩ := @place_unique l first _ (hrow hy) hy0
      rw [hpixel] at hfirst hoff
      rw [← hfirst, ← hoff]
      simp [stopAtTop, moveTo, not_lt.mpr hy0]

theorem topPlace_le (first y : ℤ) : (topPlace l first y).2 ≤ 0 := by
  unfold topPlace
  split_ifs with hy htop
  · exact hy
  · exact le_refl 0
  · have := Int.emod_nonneg (pixel l first y) l.itemHeight_pos.ne'
    dsimp only
    omega

theorem scrollOn_spec (first y : ℤ) (hy : y ≤ 0) :
    pixel l (scrollOn l itemCount first y).1 (scrollOn l itemCount first y).2 = pixel l first y ∧
      (scrollOn l itemCount first y).2 ≤ 0 ∧
      (scrollOn l itemCount first y = (first, y) ∨
        first < (scrollOn l itemCount first y).1 ∧
        (scrollOn l itemCount first y).1 + l.lines + 1 ≤ itemCount ∧
        (scrollOn l itemCount first y).2 < 0 ∧
        (scrollOn l itemCount first y).2 % l.itemHeight = y % l.itemHeight) ∧
      (itemCount ≤ (scrollOn l itemCount first y).1 + l.lines + 1 ∨
        -l.itemHeight ≤ (scrollOn l itemCount first y).2) := by
  fun_induction scrollOn l itemCount first y with
  | case1 first y hgo ih =>
    rw [partialLine_eq, abs_of_nonpos hy] at hgo
    obtain ⟨hpixel, hnonpos, hmoved, hexit⟩ := ih (by omega)
    refine ⟨?_, hnonpos, .inr ?_, hexit⟩
    · rw [hpixel, pixel, pixel]
      ring
    · rcases hmoved with h | ⟨hlt, hle, hneg, hmod⟩
      · rw [h]
        dsimp only
        exact ⟨by omega, by omega, by omega, by simp⟩
      · exact ⟨by omega, hle, hneg, by rw [hmod]; simp⟩
  | case2 first y hstop =>
    rw [partialLine_eq, abs_of_nonpos hy] at hstop
    exact ⟨rfl, hy, .inl rfl, by dsimp only; omega⟩

/-- Where the last step of `handleScrolling` leads. -/
def bottomPlace (l : ScrollLayout) (itemCount : ℕ) (place : ℤ × ℤ) : ℤ × ℤ :=
  if itemCount ≤ place.1 + l.lines + 1 ∧ place.2 ≤ l.bottomOffset then
    (itemCount - l.lines - 1, l.bottomOffset)
  else if itemCount ≤ place.1 + l.lines ∧ place.2 < 0 then (itemCount - l.lines, 0)
  else place

theorem handleScrolling_place :
    ((s.handleScrolling l itemCount).firstDisplayedItem, (s.handleScrolling l itemCount).yOffset) =
      let top := topPlace l s.firstDisplayedItem s.yOffset
      bottomPlace l itemCount (scrollOn l itemCount top.1 top.2) := by
  have htop := stopAtTop_scrollBack (l := l) (s := s)
  have hbottom := bottomOffset_mem (l := l)
  unfold handleScrolling
  dsimp only at htop ⊢
  rw [← htop]
  generalize (s.moveTo (scrollBack l s.firstDisplayedItem s.yOffset)).stopAtTop = top
  unfold stopAtBottom bottomPlace moveTo
  simp only [ne_eq, hbottom.2.ne, not_false_eq_true, true_and, ge_iff_le]
  split_ifs <;> rfl

/-- The place is in normal form. -/
def InPlace (l : ScrollLayout) (itemCount : ℕ) (place : ℤ × ℤ) : Prop :=
  (-l.itemHeight < place.2 ∧ place.2 ≤ 0) ∧ (0 ≤ place.1 ∧ place.1 < max 1 itemCount) ∧
    pixel l place.1 place.2 + l.displayH ≤ max (itemCount * l.itemHeight) l.displayH

theorem row_mono {a b : ℤ} (h : a ≤ b) : a * l.itemHeight ≤ b * l.itemHeight :=
  Int.mul_le_mul_of_nonneg_right h l.itemHeight_pos.le

/-- The place at the bottom. -/
theorem inPlace_bottom : InPlace l itemCount (itemCount - l.lines - 1, l.bottomOffset) ↔
    l.remainder ≠ 0 ∧ 0 < itemCount - l.lines := by
  have hpos := l.itemHeight_pos
  have hrem := remainder_mem (l := l)
  have hlines := lines_nonneg (l := l)
  have hb := @bottom_eq l itemCount
  unfold InPlace
  dsimp only
  rw [← hb, ScrollLayout.bottomOffset]
  omega

/-- A place right past the last row. -/
theorem inPlace_end : InPlace l itemCount (itemCount - l.lines, 0) ↔
    (itemCount - l.lines = 0 ∨ 0 < itemCount - l.lines ∧ l.remainder = 0 ∧ 0 < l.lines) := by
  have hpos := l.itemHeight_pos
  have hrem := remainder_mem (l := l)
  have hlines := lines_nonneg (l := l)
  have hexp : (itemCount - l.lines) * l.itemHeight =
      itemCount * l.itemHeight - l.lines * l.itemHeight := by ring
  unfold InPlace pixel
  dsimp only
  rw [sub_zero, hexp, displayH_eq]
  rcases lt_trichotomy (itemCount - l.lines) 0 with hlt | heq | hlt
  · omega
  · have hrows := congrArg (· * l.itemHeight) heq
    simp only [hexp, zero_mul] at hrows
    omega
  · have hrows := row_lt (l := l) (show l.lines < itemCount by omega)
    omega

/-- A place above the last page. -/
theorem inPlace_inside {first y : ℤ} (hy : y ≤ 0) (hfirst : first + 1 ≤ itemCount - l.lines)
    (hbottom : pixel l first y < itemCount * l.itemHeight - l.displayH) :
    InPlace l itemCount (first, y) ↔ -l.itemHeight < y ∧ 0 ≤ first := by
  have hlines := lines_nonneg (l := l)
  unfold InPlace
  dsimp only
  omega

/-- A place that no step changes although all rows to the end are on display. -/
theorem inPlace_top {first : ℤ} (hfirst : itemCount - l.lines ≤ first) :
    InPlace l itemCount (first, 0) ↔ first = 0 ∨
      first = itemCount - l.lines ∧ 0 < itemCount - l.lines ∧ l.remainder = 0 ∧ 0 < l.lines := by
  have hpos := l.itemHeight_pos
  have hrem := remainder_mem (l := l)
  have hlines := lines_nonneg (l := l)
  rcases hfirst.eq_or_lt with rfl | hlt
  · rw [inPlace_end]
    omega
  · unfold InPlace pixel
    dsimp only
    rw [sub_zero, displayH_eq]
    rcases lt_trichotomy first 0 with hneg | rfl | hpos'
    · omega
    · omega
    · have hrows := row_lt (l := l) hlt
      have hexp : (itemCount - l.lines) * l.itemHeight =
          itemCount * l.itemHeight - l.lines * l.itemHeight := by ring
      have hfirst := row_lt (l := l) hpos'
      omega

theorem emod_row {y : ℤ} (hy : -l.itemHeight ≤ y) (hneg : y < 0) :
    y % l.itemHeight = 0 ↔ y = -l.itemHeight := by
  have hmod : y % l.itemHeight = (y + l.itemHeight) % l.itemHeight := by simp
  rw [hmod, Int.emod_eq_of_lt (by omega) (by omega)]
  omega

theorem pixel_nonneg_iff {first y : ℤ} (hy : -l.itemHeight < y) (hy0 : y ≤ 0) :
    0 ≤ pixel l first y ↔ 0 ≤ first := by
  unfold pixel
  constructor
  · intro h
    by_contra hlt
    have hrows := row_lt (l := l) (not_le.mp hlt)
    omega
  · intro h
    have hrows := row_mono (l := l) h
    omega

theorem pixel_lt_bottom {first y : ℤ} (hy : -l.itemHeight ≤ y)
    (hfirst : first + 1 < itemCount - l.lines) :
    pixel l first y < itemCount * l.itemHeight - l.displayH := by
  have hrem := remainder_mem (l := l)
  have hrows := row_lt (l := l) (show first < itemCount - l.lines - 1 by omega)
  rw [bottom_eq, pixel, pixel, ScrollLayout.bottomOffset]
  omega

theorem pixel_last {y : ℤ} : pixel l (itemCount - l.lines - 1) y <
    itemCount * l.itemHeight - l.displayH ↔ l.bottomOffset < y := by
  rw [bottom_eq, pixel, pixel]
  omega

/-- A place above the bottom that is reached from `(first, y)`. -/
theorem settles_inside {first y f z : ℤ} (hpixel : pixel l f z = pixel l first y) (hf : first ≤ f)
    (hlast : f + 1 ≤ itemCount - l.lines) (hz : -l.itemHeight ≤ z) (hz0 : z ≤ 0)
    (hbottom : pixel l f z < itemCount * l.itemHeight - l.displayH)
    (hmod : z = y ∨ z < 0 ∧ y < 0 ∧ z % l.itemHeight = y % l.itemHeight) :
    InPlace l itemCount (f, z) ↔ Settles l itemCount first y := by
  have hpos := l.itemHeight_pos
  rw [inPlace_inside hz0 hlast hbottom]
  have hrow : (-l.itemHeight < z) ↔ ¬(y < 0 ∧ y % l.itemHeight = 0) := by
    rcases hmod with rfl | ⟨hz', hy', hmod⟩
    · rcases hz0.eq_or_lt with rfl | hneg
      · omega
      · rw [emod_row hz hneg]
        omega
    · rw [← hmod, emod_row hz hz']
      omega
  unfold Settles
  dsimp only
  rw [← hpixel, ← hrow]
  constructor
  · rintro ⟨hz', hfirst⟩
    exact .inl ⟨(pixel_nonneg_iff hz' hz0).mpr hfirst, hbottom, by omega, hz'⟩
  · rintro (⟨hnonneg, -, -, hz'⟩ | ⟨h, -⟩ | ⟨h, -⟩ | ⟨h, -⟩)
    · exact ⟨hz', (pixel_nonneg_iff hz' hz0).mp hnonneg⟩
    all_goals omega

/-- The offsets up to 0 that are brought into normal form. -/
theorem inPlace_iff_settles {first y : ℤ} (hy : y ≤ 0) :
    InPlace l itemCount (bottomPlace l itemCount (scrollOn l itemCount first y)) ↔
      Settles l itemCount first y := by
  obtain ⟨hpixel, hnonpos, hmoved, hexit⟩ :=
    @scrollOn_spec l itemCount first y hy
  have hb := bottomOffset_mem (l := l)
  have hpos := l.itemHeight_pos
  generalize scrollOn l itemCount first y = place at *
  obtain ⟨f, z⟩ := place
  dsimp only at hpixel hnonpos hmoved hexit
  have hmod : z = y ∨ z < 0 ∧ y < 0 ∧ z % l.itemHeight = y % l.itemHeight := by
    rcases hmoved with h | ⟨hlt, -, hneg, hmod⟩
    · exact .inl (Prod.mk.inj h).2
    · have hrows := row_lt (l := l) hlt
      unfold pixel at hpixel
      exact .inr ⟨hneg, by omega, hmod⟩
  have hle : first ≤ f := by
    rcases hmoved with h | h
    · exact (Prod.mk.inj h).1.ge
    · exact h.1.le
  unfold bottomPlace
  dsimp only
  by_cases hend : (itemCount : ℤ) ≤ f + l.lines + 1
  · by_cases hz : z ≤ l.bottomOffset
    · -- at the bottom or past it
      rw [if_pos ⟨hend, hz⟩, inPlace_bottom]
      have hbottom : itemCount * l.itemHeight - l.displayH ≤ pixel l first y := by
        have hrows := row_mono (l := l) (show (itemCount : ℤ) - l.lines - 1 ≤ f by omega)
        rw [← hpixel, bottom_eq, pixel, pixel]
        omega
      have hwhere : first + 1 < itemCount - l.lines ∨ y ≤ l.bottomOffset := by
        rcases hmoved with h | h
        · exact .inr ((Prod.mk.inj h).2 ▸ hz)
        · exact .inl (by omega)
      unfold Settles
      dsimp only
      constructor
      · exact fun h => .inr (.inl ⟨hbottom, h.1, h.2, hwhere⟩)
      · rintro (⟨-, h, -⟩ | ⟨-, h, h', -⟩ | ⟨h, h', -⟩ | ⟨h, rfl, -⟩)
        · omega
        · exact ⟨h, h'⟩
        · omega
        · omega
    · rw [if_neg fun h => hz h.2]
      by_cases hfirst : (itemCount : ℤ) ≤ f + l.lines
      · -- below the last page: no row has been passed
        obtain ⟨rfl, rfl⟩ : f = first ∧ z = y := by
          rcases hmoved with h | h
          · exact Prod.mk.inj h
          · omega
        by_cases hneg : z < 0
        · rw [if_pos ⟨hfirst, hneg⟩, inPlace_end]
          unfold Settles
          dsimp only
          omega
        · obtain rfl : z = 0 := by omega
          rw [if_neg fun h => hneg h.2, inPlace_top (by omega)]
          unfold Settles
          dsimp only
          omega
      · rw [if_neg fun h => hfirst h.1]
        obtain rfl : f = itemCount - l.lines - 1 := by omega
        exact settles_inside hpixel hle (by omega) (by omega) hnonpos
          (pixel_last.mpr (not_le.mp hz)) hmod
  · have hz : -l.itemHeight ≤ z := by omega
    rw [if_neg fun h => hend h.1, if_neg fun h => hend (by omega)]
    exact settles_inside hpixel hle (by omega) hz hnonpos (pixel_lt_bottom hz (by omega)) hmod

/-- The top of the items stays where it is. -/
theorem settles_top : Settles l itemCount 0 0 := by
  have hrem := remainder_mem (l := l)
  unfold Settles
  dsimp only
  rcases le_or_gt ((itemCount : ℤ) - l.lines) 0 with hlast | hlast
  · exact .inr (.inr (.inr ⟨hlast, rfl, .inl rfl⟩))
  · have hrows := row_lt (l := l) (show l.lines < itemCount by omega)
    have hbottom : 0 < itemCount * l.itemHeight - l.displayH := by
      rw [displayH_eq]
      omega
    have hpixel : pixel l 0 0 = 0 := by simp [pixel]
    rw [hpixel]
    exact .inl ⟨le_refl 0, hbottom, hlast, by simp⟩

theorem settles_topPlace (first y : ℤ) :
    Settles l itemCount (topPlace l first y).1 (topPlace l first y).2 ↔
      SettlesFrom l itemCount first y := by
  unfold topPlace SettlesFrom
  split_ifs with hy htop
  · rfl
  · exact ⟨fun _ => .inl htop, fun _ => settles_top⟩
  · exact ⟨.inr, fun h => h.resolve_left htop⟩

theorem stopAtBottom_idem (s : ScrollList) :
    (s.stopAtBottom l itemCount).stopAtBottom l itemCount = s.stopAtBottom l itemCount := by
  have hb := bottomOffset_mem (l := l)
  by_cases hbottom : l.bottomOffset ≠ 0 ∧ s.firstDisplayedItem + l.lines + 1 ≥ itemCount ∧
      s.yOffset ≤ l.bottomOffset
  · rw [stopAtBottom.eq_def l itemCount s, if_pos hbottom, stopAtBottom,
      if_pos ⟨hb.2.ne, by dsimp only; omega, le_refl _⟩]
  · by_cases hend : s.firstDisplayedItem + l.lines ≥ itemCount ∧ s.yOffset < 0
    · rw [stopAtBottom.eq_def l itemCount s, if_neg hbottom, if_pos hend, stopAtBottom]
      simp [not_le.mpr hb.2]
    · have hstay : s.stopAtBottom l itemCount = s := by
        rw [stopAtBottom, if_neg hbottom, if_neg hend]
      rw [hstay, hstay]

theorem handleScrolling_of_stop (hy : s.yOffset ≤ 0)
    (hstop : itemCount ≤ s.firstDisplayedItem + l.lines + 1 ∨ -l.itemHeight ≤ s.yOffset) :
    s.handleScrolling l itemCount = s.stopAtBottom l itemCount := by
  have hback : scrollBack l s.firstDisplayedItem s.yOffset = (s.firstDisplayedItem, s.yOffset) :=
    (scrollBack_spec _ _).2.1 hy
  have hon : scrollOn l itemCount s.firstDisplayedItem s.yOffset =
      (s.firstDisplayedItem, s.yOffset) := by
    rw [scrollOn, if_neg]
    rw [partialLine_eq, abs_of_nonpos hy]
    omega
  simp [handleScrolling, moveTo, stopAtTop, hback, hon, not_lt.mpr hy]

/-- Scrolling a second time changes nothing, whatever the place it starts at. -/
theorem handleScrolling_idem : (s.handleScrolling l itemCount).handleScrolling l itemCount =
    s.handleScrolling l itemCount := by
  have hb := bottomOffset_mem (l := l)
  have htop := topPlace_le (l := l) s.firstDisplayedItem s.yOffset
  have hplace := @handleScrolling_place l itemCount s
  dsimp only at hplace
  obtain ⟨-, hnonpos, -, hexit⟩ := @scrollOn_spec l itemCount
    (topPlace l s.firstDisplayedItem s.yOffset).1 (topPlace l s.firstDisplayedItem s.yOffset).2 htop
  generalize scrollOn l itemCount _ _ = place at hplace hnonpos hexit
  have hfirst := congrArg Prod.fst hplace
  have hoff := congrArg Prod.snd hplace
  dsimp only at hfirst hoff
  rw [handleScrolling_of_stop, handleScrolling, stopAtBottom_idem]
  · rw [hoff, bottomPlace]
    split_ifs
    · exact hb.2.le
    · exact le_refl 0
    · exact hnonpos
  · rw [hfirst, hoff, bottomPlace]
    split_ifs
    · exact .inr hb.1
    · exact .inr (by have := l.itemHeight_pos; dsimp only; omega)
    · exact hexit

theorem renderLoop_mem {lines line : ℕ} {yPos : ℤ} {item : ℕ × ℤ}
    (h : item ∈ s.renderLoop l itemCount lines line yPos) : item.1 < itemCount := by
  induction lines generalizing line yPos with
  | zero => simp [renderLoop] at h
  | succ lines ih =>
    simp only [renderLoop, ge_iff_le] at h
    split_ifs at h with hcount
    · simp at h
    · rcases List.mem_cons.mp h with rfl | h
      · exact not_le.mp hcount
      · exact ih h

theorem render_mem {item : ℕ × ℤ} (h : item ∈ (s.render l itemCount).2) : item.1 < itemCount := by
  unfold render at h
  dsimp only at h
  split_ifs at h <;> exact renderLoop_mem h

theorem hitTestItem_lt {y : ℤ} {item : ℕ} (h : item ∈ s.hitTestItem l itemCount y) :
    item < itemCount := by
  unfold hitTestItem at h
  dsimp only at h
  split_ifs at h with hout hlt
  · simp at h
  · obtain rfl := Option.some.inj h
    exact hlt
  · simp at h

theorem inPlace_handleScrolling :
    InPlace l itemCount ((s.handleScrolling l itemCount).firstDisplayedItem,
      (s.handleScrolling l itemCount).yOffset) ↔
    SettlesFrom l itemCount s.firstDisplayedItem s.yOffset := by
  rw [handleScrolling_place, ← settles_topPlace]
  exact inPlace_iff_settles (topPlace_le _ _)

/-- A drag leaves nothing more to scroll, and so does a step of kinetic scrolling. -/
theorem handleScrolling_drag (dy : ℤ) (hs : s.hasScroll = true) :
    (s.drag l itemCount dy).handleScrolling l itemCount = s.drag l itemCount dy := by
  rw [drag, if_pos hs, handleScrolling_idem]

theorem handleScrolling_update (decrement : ℤ → ℤ) (hs : s.scrollingSpeed ≠ 0) :
    (s.update l itemCount decrement).handleScrolling l itemCount =
      s.update l itemCount decrement := by
  rw [update, if_neg hs]
  exact handleScrolling_idem

end layout

/-- Ten items of ten pixels, and room for two and a half. -/
def tenItems : ScrollLayout where
  renderY := 0
  renderH := 25
  headerH := 0
  itemHeight := 10
  itemHeight_pos := by decide
  header_fits := by decide

end ScrollList
end BootableRecovery.Gui
