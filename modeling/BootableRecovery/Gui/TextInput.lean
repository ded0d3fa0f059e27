import BootableRecovery.Gui.PatternPassword
import BootableRecovery.Lib.Cursor

namespace BootableRecovery.Gui
open Lib

/-! `GUIInput`: a text is typed and edited at a cursor, by keys and by touch. -/

inductive InputKey
  | keyLeft
  | keyRight
  | keyHome
  | keyUp
  | keyEnd
  | keyDown
  | other
  deriving DecidableEq, Repr

/-- The members that stay as they are. `font` measures a text as `gr_ttf_measureEx` does, and
`accepted` tells whether `DataManager` lets the variable be set: its name is not empty and begins
with no digit, and it is not a constant. The variable is none that `DataManager` computes, no
property, and its name does not stand between percent signs. -/
structure InputConfig where
  variableName : Text
  accepted : Bool
  mask : Text
  font : Option (Text → ℤ)
  renderX : ℤ
  renderY : ℤ
  renderW : ℤ
  renderH : ℤ
  cursorWidth : ℕ
  maxLen : ℕ
  allowedList : Text
  disabledList : Text

/-- `stored` is what `DataManager` holds under the variable's name. -/
structure TextInput where
  value : Text
  displayValue : Text
  cursorLocation : ℤ
  cursorX : ℤ
  textWidth : ℤ
  scrollingX : ℤ
  lastX : ℤ
  startSelection : ℤ
  hasInputFocus : Bool
  drawCursor : Bool
  isLocalChange : Bool
  stored : Option Text

inductive InputEvent
  | stored (value : Option Text)
  | varChange (varName : Text)
  | key (key : InputKey) (down : Bool)
  | charInput (key : ℤ)
  | touch (t : Touch)
  | focus (on : Bool)

namespace TextInput

/-- `TW_INPUT_NO_UPDATE`. -/
def noUpdate : ℤ := -1000

def keyboardBackspace : ℤ := 8

def keyboardSwipeLeft : ℤ := 21

variable (c : InputConfig) (s : TextInput)

/-- The object once it is constructed. -/
def initial (focus : Bool) (stored : Option Text) : TextInput where
  value := []
  displayValue := []
  cursorLocation := -1
  cursorX := 0
  textWidth := 0
  scrollingX := 0
  lastX := 0
  startSelection := -1
  hasInputFocus := focus
  drawCursor := focus
  isLocalChange := true
  stored := stored

def handleTextLocation (x : ℤ) : TextInput :=
  if s.textWidth ≤ c.renderW then
    { s with lastX := if x = noUpdate then s.lastX else x, scrollingX := 0 }
  else
    let scrollingX :=
      if s.scrollingX + s.textWidth < c.renderW then c.renderW - s.textWidth else s.scrollingX
    if x = noUpdate then { s with scrollingX := scrollingX }
    else
      let moved := scrollingX + (x - s.lastX)
      { s with
        lastX := x
        scrollingX :=
          if 0 < moved then 0
          else if moved + s.textWidth < c.renderW then c.renderW - s.textWidth
          else moved }

/-- The mask once for each byte, or the value itself. -/
def masked (value : Text) : Text :=
  if c.mask.isEmpty then value else value.flatMap fun _ => c.mask

def updateDisplayText : TextInput :=
  match c.font with
  | none => { s with textWidth := 0 }
  | some measure =>
    let value := s.stored.getD s.value
    { s with
      value := value
      displayValue := masked c value
      textWidth := measure (cString (masked c value)) }

/-- The loop of `HandleCursorByTouch`, with `left` passes to go: the cursor's place in the text and
its place on the screen. -/
def findCursor (display : Text) (scrollingX : ℤ) (measure : Text → ℤ) (x : ℤ) :
    (left index : ℕ) → (prevX : ℤ) → ℤ × ℤ
  | 0, _, prevX => (-1, prevX) -- x is at or past the end of the string
  | left + 1, index, prevX =>
    let cursorX := measure (cString (display.take index)) + c.renderX + scrollingX
    if x < cursorX then
      if 0 < index ∧ x ≤ cursorX - (x - prevX).tdiv 2 ∧ c.renderX ≤ prevX then (index - 1, prevX)
      else if c.renderX + c.renderW < cursorX then (index - 1, prevX)
      else if c.renderX ≤ cursorX then (index, cursorX)
      else findCursor display scrollingX measure x left (index + 1) cursorX
    else findCursor display scrollingX measure x left (index + 1) cursorX

def handleCursorByTouch (x : ℤ) : TextInput :=
  if s.displayValue.isEmpty then { s with cursorLocation := -1, cursorX := c.renderX }
  else
    match c.font with
    | none => s
    | some measure =>
      let place := findCursor c s.displayValue s.scrollingX measure x (s.displayValue.length + 1) 0
        (c.renderX + s.scrollingX)
      { s with cursorLocation := place.1, cursorX := place.2 }

def handleCursorByText : TextInput :=
  if !s.drawCursor then s
  else
    match c.font with
    | none => s
    | some measure =>
      let location := s.cursorLocation.toNat
      let cursorDisplay := s.displayValue.take location ++
        List.replicate (location - s.displayValue.length) '\x00'
      let cursorTextWidth :=
        if s.cursorLocation = -1 then s.textWidth else measure (cString cursorDisplay)
      let cursorX := c.renderX + cursorTextWidth + s.scrollingX
      if c.renderX + c.renderW ≤ cursorX then
        { s with
          scrollingX := c.renderW - cursorTextWidth
          cursorX := c.renderX + c.renderW - c.cursorWidth }
      else if cursorX < c.renderX then
        { s with scrollingX := -cursorTextWidth, cursorX := c.renderX }
      else { s with cursorX := cursorX }

def getSelection (x y : ℤ) : ℤ :=
  if x < c.renderX ∨ c.renderW < x - c.renderX ∨ y < c.renderY ∨ c.renderH < y - c.renderY then -1
  else x - c.renderX

def notifyTouch (t : Touch) : TextInput :=
  if !t.condition then s
  else if !s.hasInputFocus then
    -- Only change focus if touch releases within the input box
    if t.state = .release ∧ 0 ≤ getSelection c t.x t.y then
      { s with hasInputFocus := true, drawCursor := true }
    else s
  else
    match t.state with
    | .hold => s
    | .repeated => s
    | .start =>
      { s with startSelection := getSelection c t.x t.y, lastX := t.x, drawCursor := false }
    | .drag =>
      if getSelection c t.x t.y = -1 then { s with lastX := 0 }
      else if s.startSelection ≠ -1 ∧ |t.x - s.lastX| < 6 then { s with drawCursor := false }
      else
        let s' := { s with drawCursor := false, startSelection := -1 }
        if s.lastX ≠ t.x then handleTextLocation c s' t.x else s'
    | .release => handleCursorByTouch c { s with drawCursor := true } t.x

def notifyVarChange (varName : Text) : TextInput :=
  if varName = c.variableName then
    if !s.isLocalChange then handleTextLocation c (updateDisplayText c s) noUpdate
    else { s with isLocalChange := false }
  else if varName.isEmpty then
    handleCursorByText c (handleTextLocation c (updateDisplayText c s) noUpdate)
  else s

/-- The switch of `NotifyKey`. -/
def moveCursor (key : InputKey) : TextInput :=
  match key with
  | .keyLeft =>
    if s.cursorLocation = 0 then s -- we're already at the beginning
    else if s.cursorLocation = -1 then
      if s.displayValue = [] then { s with cursorX := c.renderX }
      else handleCursorByText c { s with cursorLocation := s.displayValue.length - 1 }
    else handleCursorByText c { s with cursorLocation := s.cursorLocation - 1 }
  | .keyRight =>
    if s.cursorLocation = -1 then s -- we're already at the end
    else
      let location := s.cursorLocation + 1
      handleCursorByText c
        { s with cursorLocation := if s.displayValue.length ≤ location then -1 else location }
  | .keyHome | .keyUp =>
    if s.displayValue = [] then s else { s with cursorLocation := 0, cursorX := c.renderX }
  | .keyEnd | .keyDown => handleCursorByText c { s with cursorLocation := -1 }
  | .other => s

/-- In an empty text the cursor is at the end. -/
def atEndIfEmpty : TextInput :=
  if s.value = [] then { s with cursorLocation := -1 } else s

def notifyKey (key : InputKey) (down : Bool) : TextInput :=
  if !s.hasInputFocus || !down then s else moveCursor c (atEndIfEmpty s) key

/-- `DataManager::SetValue` of the variable, which notifies the object itself. -/
def setValue (value : Text) : TextInput :=
  if c.accepted then notifyVarChange c { s with stored := some value } c.variableName else s

/-- How an edit ends: the new value is stored, read back and displayed. -/
def finishEdit (value : Text) (location : ℤ) : TextInput :=
  let changed := { s with value := value, cursorLocation := location, isLocalChange := true }
  handleCursorByText c
    (handleTextLocation c (updateDisplayText c (setValue c changed value)) noUpdate)

/-- What a regular key types, if the restrictions let it. -/
def regularKey (key : ℤ) : Option Char :=
  let typed := Char.ofNat (key % 256).toNat
  if !c.allowedList.isEmpty && !c.allowedList.contains typed then
    -- UX: Replace space with '_' when space isn't allowed (e.g. backup name)
    if key = 32 ∧ c.allowedList.contains '_' then restricted '_' else none
  else restricted typed
where
  restricted (typed : Char) : Option Char :=
    if !c.disabledList.isEmpty && c.disabledList.contains typed then none
    else if c.maxLen ≠ 0 ∧ c.maxLen ≤ s.value.length then none
    else some typed

/-- Delete all. -/
def deleteAll : Option TextInput :=
  if s.cursorLocation = -1 then
    some { setValue c { s with isLocalChange := true } [] with
      value := [], textWidth := 0, cursorLocation := -1 }
  else
    (eraseAt s.value 0 s.cursorLocation.toNat).map fun value =>
      { setValue c { s with isLocalChange := true, value := value } value with cursorLocation := 0 }

def notifyCharInput (key : ℤ) : Option TextInput :=
  if !s.hasInputFocus then some s
  else if key = keyboardBackspace then
    if 0 < s.value.length ∧ s.cursorLocation ≠ 0 then
      if s.cursorLocation = -1 then some (finishEdit c s (s.value.take (s.value.length - 1)) (-1))
      else
        (eraseAt s.value (s.cursorLocation - 1).toNat 1).map fun value =>
          finishEdit c s value (s.cursorLocation - 1)
    else some s
  else if key = keyboardSwipeLeft then
    (deleteAll c s).map fun s' =>
      { updateDisplayText c s' with cursorX := c.renderX, scrollingX := 0 }
  else if 32 ≤ key then
    match regularKey c s key with
    | none => some s
    | some typed =>
      if s.cursorLocation = -1 then some (finishEdit c s (s.value ++ [typed]) (-1))
      else
        (insertAt s.value s.cursorLocation.toNat typed).map fun value =>
          finishEdit c s value (s.cursorLocation + 1)
  else some s

/-- What an event leaves; nothing if an operation of `std::string` throws. -/
def notify (e : InputEvent) : Option TextInput :=
  match e with
  | .stored value => some { s with stored := value }
  | .varChange varName => some (notifyVarChange c s varName)
  | .key key down => some (notifyKey c s key down)
  | .charInput key => notifyCharInput c s key
  | .touch t => some (notifyTouch c s t)
  | .focus on => some { s with hasInputFocus := on }

/-- What is before the displayed cursor, and what is after it. -/
def split : Zipper Char :=
  if s.cursorLocation = -1 then ⟨s.value, []⟩
  else ⟨s.value.take s.cursorLocation.toNat, s.value.drop s.cursorLocation.toNat⟩

/-- The cursor is at the end, or at a position of the value that is displayed where it is. -/
def Valid : Prop :=
  s.cursorLocation = -1 ∨
    0 ≤ s.cursorLocation ∧ s.cursorLocation ≤ s.value.length ∧
      ((masked c s.split.before).length : ℤ) = s.cursorLocation

instance : Decidable (Valid c s) := inferInstanceAs (Decidable (_ ∨ _))

/-- Whether a change of a variable makes the input read its own variable. -/
def TakesOver (varName : Text) : Prop :=
  c.font.isSome ∧
    if varName = c.variableName then s.isLocalChange = false else varName = []

/-- The text and the cursor after a character that edits the text. -/
def edit (key : ℤ) : Option (Zipper Char) :=
  if !s.hasInputFocus then none
  else if key = keyboardBackspace then
    if s.split.before = [] then none else some s.split.backspace
  else if key = keyboardSwipeLeft then some s.split.clearBefore
  else if 32 ≤ key then (regularKey c s key).map s.split.insert
  else none

/-- What an event must do to the text. -/
def Effect (s' : TextInput) : InputEvent → Prop
  | .charInput key => s'.split = (edit c s key).getD s.split
  | .varChange varName =>
    (TakesOver c s varName → s'.value = s.stored.getD s.value) ∧
      (¬TakesOver c s varName → s'.value = s.value)
  | _ => s'.value = s.value

/-- No operation on the text is out of range, the cursor stays valid, and the text becomes what it
must. -/
def Good (e : InputEvent) : Prop := ∃ s', notify c s e = some s' ∧ Valid c s' ∧ Effect c s s' e

/-- A value that is stored is the one that is read back. -/
def GivesBack (value : Text) : Prop :=
  c.font = none ∨ c.accepted = true ∨ s.stored.getD value = value

/-- The mask is not there or is one byte, and the displayed text as long as the value. -/
def OneByte (c : InputConfig) : Prop := c.mask.length ≤ 1

/-- The condition on an event: a value that is taken over reaches the cursor, and with a mask of
several bytes the cursor stays at the ends of the text. -/
def Keeps : InputEvent → Prop
  | .varChange varName =>
    TakesOver c s varName → s.cursorLocation ≤ (s.stored.getD s.value).length
  | .key .keyLeft down =>
    s.hasInputFocus → down → OneByte c ∨ s.displayValue = [] ∨ s.cursorLocation = 0
  | .key .keyRight down =>
    s.hasInputFocus → down → OneByte c ∨ s.displayValue = [] ∨ s.cursorLocation = -1
  | .charInput key => ∀ z, edit c s key = some z →
    GivesBack c s z.text ∧ (32 ≤ key → OneByte c ∨ s.cursorLocation = -1)
  | .touch t => t.condition → s.hasInputFocus → t.state = .release →
    OneByte c ∨ (handleCursorByTouch c s t.x).cursorLocation = -1 ∨
      (handleCursorByTouch c s t.x).cursorLocation = 0
  | _ => True

/-- The displayed text is that of the value; without a font nothing is displayed. -/
structure Shown : Prop where
  display : s.displayValue = if c.font.isSome then masked c s.value else []
  atEnd : c.font = none → s.cursorLocation = -1

section fields
variable (x : ℤ)

/-- Scrolling touches no text. -/
theorem handleTextLocation_eq : ∃ lastX scrollingX : ℤ,
    handleTextLocation c s x = { s with lastX := lastX, scrollingX := scrollingX } := by
  simp only [handleTextLocation]
  split_ifs
  all_goals exact ⟨_, _, rfl⟩

theorem handleCursorByText_eq : ∃ cursorX scrollingX : ℤ,
    handleCursorByText c s = { s with cursorX := cursorX, scrollingX := scrollingX } := by
  rw [handleCursorByText]
  cases c.font with
  | none => exact ⟨s.cursorX, s.scrollingX, by split_ifs <;> rfl⟩
  | some measure =>
    dsimp only
    split_ifs
    all_goals exact ⟨_, _, rfl⟩

@[simp] theorem handleTextLocation_value : (handleTextLocation c s x).value = s.value := by
  obtain ⟨_, _, h⟩ := handleTextLocation_eq c s x
  rw [h]

@[simp] theorem handleTextLocation_displayValue :
    (handleTextLocation c s x).displayValue = s.displayValue := by
  obtain ⟨_, _, h⟩ := handleTextLocation_eq c s x
  rw [h]

@[simp] theorem handleTextLocation_cursorLocation :
    (handleTextLocation c s x).cursorLocation = s.cursorLocation := by
  obtain ⟨_, _, h⟩ := handleTextLocation_eq c s x
  rw [h]

@[simp] theorem handleCursorByText_value : (handleCursorByText c s).value = s.value := by
  obtain ⟨_, _, h⟩ := handleCursorByText_eq c s
  rw [h]

@[simp] theorem handleCursorByText_displayValue :
    (handleCursorByText c s).displayValue = s.displayValue := by
  obtain ⟨_, _, h⟩ := handleCursorByText_eq c s
  rw [h]

@[simp] theorem handleCursorByText_cursorLocation :
    (handleCursorByText c s).cursorLocation = s.cursorLocation := by
  obtain ⟨_, _, h⟩ := handleCursorByText_eq c s
  rw [h]

@[simp] theorem updateDisplayText_cursorLocation :
    (updateDisplayText c s).cursorLocation = s.cursorLocation := by
  rw [updateDisplayText]
  split <;> rfl

/-- The value as it is once the variable is read. -/
theorem updateDisplayText_value : (updateDisplayText c s).value =
    if c.font.isSome then s.stored.getD s.value else s.value := by
  rw [updateDisplayText]
  cases c.font <;> rfl

theorem updateDisplayText_displayValue : (updateDisplayText c s).displayValue =
    if c.font.isSome then masked c (s.stored.getD s.value) else s.displayValue := by
  rw [updateDisplayText]
  cases c.font <;> rfl

/-- The object's own notification only ends the local change. -/
theorem setValue_local (value : Text) (h : s.isLocalChange = true) : setValue c s value =
    if c.accepted then { s with stored := some value, isLocalChange := false } else s := by
  simp [setValue, notifyVarChange, h]

end fields

section shown
variable {c s}

theorem Shown.updateDisplayText (h : Shown c s) : Shown c (updateDisplayText c s) where
  display := by
    rw [updateDisplayText_displayValue, updateDisplayText_value, h.display]
    split_ifs <;> rfl
  atEnd := by simpa using h.atEnd

theorem Shown.of_eq {s' : TextInput} (h : Shown c s) (hvalue : s'.value = s.value)
    (hdisplay : s'.displayValue = s.displayValue)
    (hlocation : s'.cursorLocation = s.cursorLocation) : Shown c s' where
  display := by rw [hdisplay, hvalue, h.display]
  atEnd := by rw [hlocation]; exact h.atEnd

/-- Without a text on the screen the value is empty or there is no font. -/
theorem Shown.ne_nil (h : Shown c s) (hdisplay : s.displayValue ≠ []) :
    c.font.isSome ∧ s.displayValue = masked c s.value := by
  by_cases hfont : c.font.isSome
  · exact ⟨hfont, by rw [h.display, if_pos hfont]⟩
  · exact absurd (by rw [h.display, if_neg hfont]) hdisplay

end shown

section valid
variable {c s}

theorem masked_length (value : Text) :
    (masked c value).length = value.length * max 1 c.mask.length := by
  rw [masked]
  cases hmask : c.mask with
  | nil => simp
  | cons a rest => simp [List.length_flatMap]

theorem masked_eq_nil_iff {value : Text} : masked c value = [] ↔ value = [] := by
  rw [← List.length_eq_zero_iff, masked_length, Nat.mul_eq_zero, List.length_eq_zero_iff]
  apply or_iff_left
  omega

@[simp] theorem split_text : s.split.text = s.value := by
  rw [split]
  split_ifs <;> simp

theorem split_before (hlow : 0 ≤ s.cursorLocation) (hhigh : s.cursorLocation ≤ s.value.length) :
    (s.split.before.length : ℤ) = s.cursorLocation := by
  rw [split, if_neg (by omega), List.length_take]
  omega

theorem valid_iff : Valid c s ↔ s.cursorLocation = -1 ∨
    0 ≤ s.cursorLocation ∧ s.cursorLocation ≤ s.value.length ∧
      (OneByte c ∨ s.cursorLocation = 0) := by
  apply or_congr_right
  apply and_congr_right
  intro hlow
  apply and_congr_right
  intro hhigh
  rw [masked_length, Nat.cast_mul, split_before hlow hhigh, OneByte]
  constructor
  · intro h
    by_cases hzero : s.cursorLocation = 0
    · exact Or.inr hzero
    · have hone := Int.eq_one_of_mul_eq_self_right hzero h
      exact Or.inl (by omega)
  · intro h
    cases h with
    | inl hone => rw [max_eq_left hone, Nat.cast_one, mul_one]
    | inr hzero => rw [hzero, zero_mul]

theorem Valid.le_length (h : Valid c s) : s.cursorLocation ≤ s.value.length := by
  cases h with
  | inl h => omega
  | inr h => exact h.2.1

/-- The same place in a text that reaches it. -/
theorem Valid.of_location {s' : TextInput} (h : Valid c s)
    (hlocation : s'.cursorLocation = s.cursorLocation)
    (hreach : s.cursorLocation ≤ s'.value.length) : Valid c s' := by
  rw [valid_iff, hlocation]
  exact (valid_iff.mp h).imp_right fun h => ⟨h.1, hreach, h.2.2⟩

end valid

section varChange
variable {c s} {varName : Text}

theorem notifyVarChange_location :
    (notifyVarChange c s varName).cursorLocation = s.cursorLocation := by
  rw [notifyVarChange]
  split_ifs <;> simp

theorem notifyVarChange_value_of (h : TakesOver c s varName) :
    (notifyVarChange c s varName).value = s.stored.getD s.value := by
  obtain ⟨hfont, hname⟩ := h
  rw [notifyVarChange]
  split_ifs at hname ⊢ with hself hlocal hempty
  · simp [updateDisplayText_value, hfont]
  · simp [hname] at hlocal
  · simp [updateDisplayText_value, hfont]
  · simp [hname] at hempty

theorem notifyVarChange_value_of_not (h : ¬TakesOver c s varName) :
    (notifyVarChange c s varName).value = s.value := by
  rw [TakesOver, not_and] at h
  rw [notifyVarChange]
  split_ifs with hself hlocal hempty
  · have hfont : ¬c.font.isSome := fun hfont => h hfont (by simpa [hself] using hlocal)
    simp [updateDisplayText_value, hfont]
  · rfl
  · have hfont : ¬c.font.isSome := fun hfont => h hfont (by simpa [hself] using hempty)
    simp [updateDisplayText_value, hfont]
  · rfl

theorem Shown.notifyVarChange (h : Shown c s) : Shown c (notifyVarChange c s varName) := by
  have hupdate := h.updateDisplayText
  rw [TextInput.notifyVarChange]
  split_ifs
  · exact hupdate.of_eq (by simp) (by simp) (by simp)
  · exact h.of_eq rfl rfl rfl
  · exact hupdate.of_eq (by simp) (by simp) (by simp)
  · exact h

theorem good_varChange_iff (h : Valid c s) :
    Good c s (.varChange varName) ↔ Keeps c s (.varChange varName) := by
  constructor
  · intro hgood htakes
    obtain ⟨s', hs', hvalid, -⟩ := hgood
    obtain rfl := Option.some.inj hs'
    have hreach := hvalid.le_length
    rwa [notifyVarChange_location, notifyVarChange_value_of htakes] at hreach
  · intro hkeeps
    refine ⟨_, rfl, ?_, notifyVarChange_value_of, notifyVarChange_value_of_not⟩
    apply h.of_location notifyVarChange_location
    by_cases htakes : TakesOver c s varName
    · rw [notifyVarChange_value_of htakes]
      exact hkeeps htakes
    · rw [notifyVarChange_value_of_not htakes]
      exact h.le_length

end varChange

section keys
variable {c s} {key : InputKey} {down : Bool}

theorem moveCursor_value : (moveCursor c s key).value = s.value := by
  cases key
  case keyEnd | keyDown => simp [moveCursor]
  all_goals simp only [moveCursor]
  all_goals split_ifs <;> simp

theorem moveCursor_displayValue : (moveCursor c s key).displayValue = s.displayValue := by
  cases key
  case keyEnd | keyDown => simp [moveCursor]
  all_goals simp only [moveCursor]
  all_goals split_ifs <;> simp

theorem Shown.length (h : Shown c s) (hdisplay : s.displayValue ≠ []) :
    s.displayValue.length = s.value.length * max 1 c.mask.length := by
  rw [(h.ne_nil hdisplay).2, masked_length]

theorem Shown.length_of_place (h : Shown c s) (hplace : s.cursorLocation ≠ -1) :
    s.displayValue.length = s.value.length * max 1 c.mask.length := by
  have hfont : c.font.isSome := by
    cases hfont : c.font with
    | none => exact absurd (h.atEnd hfont) hplace
    | some measure => rfl
  rw [h.display, if_pos hfont, masked_length]

theorem valid_keyLeft_iff (hshown : Shown c s) (h : Valid c s) :
    Valid c (moveCursor c s .keyLeft) ↔
      OneByte c ∨ s.displayValue = [] ∨ s.cursorLocation = 0 := by
  simp only [moveCursor]
  split_ifs with hzero hend hempty
  · simp [h, hzero]
  · simp [valid_iff, hend, hempty]
  · -- the last byte of the displayed text is the last of the value
    have hlength := hshown.length hempty
    have hpos : 0 < s.displayValue.length := List.length_pos_iff.mpr hempty
    simp only [valid_iff, handleCursorByText_cursorLocation, handleCursorByText_value, hempty,
      hzero, or_false]
    constructor
    · intro hvalid
      by_contra hwide
      rw [OneByte, not_le] at hwide
      have hvalue : 0 < s.value.length := by
        apply Nat.pos_of_ne_zero
        intro hnil
        rw [hlength, hnil, zero_mul] at hpos
        omega
      have htwice : s.value.length * 2 ≤ s.displayValue.length := by
        rw [hlength]
        exact Nat.mul_le_mul_left _ (by omega)
      rw [OneByte] at hvalid
      omega
    · intro hone
      rw [max_eq_left hone, mul_one] at hlength
      exact Or.inr ⟨by omega, by omega, Or.inl hone⟩
  · have hplace := (valid_iff.mp h).resolve_left hend
    have hone := hplace.2.2.resolve_right hzero
    simp only [valid_iff, handleCursorByText_cursorLocation, handleCursorByText_value, hone,
      true_or, and_true, iff_true]
    omega

theorem valid_keyRight_iff (hshown : Shown c s) (h : Valid c s) :
    Valid c (moveCursor c s .keyRight) ↔
      OneByte c ∨ s.displayValue = [] ∨ s.cursorLocation = -1 := by
  simp only [moveCursor]
  by_cases hend : s.cursorLocation = -1
  · simp [hend, h]
  rw [if_neg hend]
  simp only [hend, or_false, valid_iff, handleCursorByText_cursorLocation,
    handleCursorByText_value]
  have hlength := hshown.length_of_place hend
  obtain ⟨hlow, hhigh, hwhere⟩ := (valid_iff.mp h).resolve_left hend
  constructor
  · intro hvalid
    by_contra hnot
    rw [not_or, OneByte, not_le] at hnot
    obtain ⟨hwide, hempty⟩ := hnot
    have hpos : 0 < s.displayValue.length := List.length_pos_iff.mpr hempty
    have hzero : s.cursorLocation = 0 := hwhere.resolve_left (by rw [OneByte]; omega)
    have htwo : 2 ≤ s.displayValue.length := by
      rw [hlength] at hpos ⊢
      have hvalue := Nat.pos_of_mul_pos_right hpos
      calc 2 ≤ max 1 c.mask.length := by omega
        _ ≤ s.value.length * max 1 c.mask.length := Nat.le_mul_of_pos_left _ hvalue
    rw [if_neg (by omega), OneByte] at hvalid
    omega
  · intro hkeeps
    split_ifs with hreach
    · exact Or.inl rfl
    · cases hkeeps with
      | inl hone =>
        rw [max_eq_left hone, mul_one] at hlength
        exact Or.inr ⟨by omega, by omega, Or.inl hone⟩
      | inr hempty =>
        rw [hempty, List.length_nil] at hreach
        omega

theorem Shown.moveCursor (h : Shown c s) : Shown c (moveCursor c s key) where
  display := by rw [moveCursor_displayValue, moveCursor_value, h.display]
  atEnd := by
    intro hfont
    have hend := h.atEnd hfont
    have hempty : s.displayValue = [] := by simpa [hfont] using h.display
    cases key <;> simp [TextInput.moveCursor, hend, hempty]

theorem valid_moveCursor (h : Valid c s) (hleft : key ≠ .keyLeft) (hright : key ≠ .keyRight) :
    Valid c (moveCursor c s key) := by
  cases key
  case keyLeft => exact absurd rfl hleft
  case keyRight => exact absurd rfl hright
  case keyHome | keyUp =>
    simp only [moveCursor]
    split_ifs
    · exact h
    · simp [valid_iff]
  case keyEnd | keyDown => simp [moveCursor, valid_iff]
  case other => exact h

@[simp] theorem atEndIfEmpty_value : (atEndIfEmpty s).value = s.value := by
  rw [atEndIfEmpty]
  split_ifs <;> rfl

theorem Shown.empty (h : Shown c s) (hvalue : s.value = []) : s.displayValue = [] := by
  rw [h.display, hvalue, masked_eq_nil_iff.mpr rfl, ite_self]

theorem shown_atEndIfEmpty (h : Shown c s) : Shown c (atEndIfEmpty s) := by
  rw [atEndIfEmpty]
  split_ifs
  · exact ⟨h.display, fun _ => rfl⟩
  · exact h

theorem valid_atEndIfEmpty (h : Valid c s) : Valid c (atEndIfEmpty s) := by
  rw [atEndIfEmpty]
  split_ifs
  · exact Or.inl rfl
  · exact h

theorem notifyKey_value : (notifyKey c s key down).value = s.value := by
  rw [TextInput.notifyKey]
  split_ifs
  · rfl
  · rw [moveCursor_value, atEndIfEmpty_value]

theorem Shown.notifyKey (h : Shown c s) : Shown c (notifyKey c s key down) := by
  rw [TextInput.notifyKey]
  split_ifs
  · exact h
  · exact (shown_atEndIfEmpty h).moveCursor

theorem atEndIfEmpty_place_iff (h : Shown c s) (place : ℤ) :
    OneByte c ∨ (atEndIfEmpty s).displayValue = [] ∨ (atEndIfEmpty s).cursorLocation = place ↔
      OneByte c ∨ s.displayValue = [] ∨ s.cursorLocation = place := by
  rw [atEndIfEmpty]
  split_ifs with hvalue
  · simp [h.empty hvalue]
  · exact Iff.rfl

theorem valid_notifyKey_iff (hshown : Shown c s) (h : Valid c s) :
    Valid c (notifyKey c s key down) ↔ Keeps c s (.key key down) := by
  have hshown' := shown_atEndIfEmpty hshown
  have hvalid' := valid_atEndIfEmpty h
  rw [notifyKey]
  cases hfocus : s.hasInputFocus with
  | false => cases key <;> simp [Keeps, hfocus, h]
  | true =>
    cases down with
    | false => cases key <;> simp [Keeps, h]
    | true =>
      cases key
      case keyLeft =>
        simp only [Keeps, hfocus, Bool.not_true, Bool.or_self, Bool.false_eq_true, if_false,
          true_imp_iff, ← atEndIfEmpty_place_iff hshown, valid_keyLeft_iff hshown' hvalid']
      case keyRight =>
        simp only [Keeps, hfocus, Bool.not_true, Bool.or_self, Bool.false_eq_true, if_false,
          true_imp_iff, ← atEndIfEmpty_place_iff hshown, valid_keyRight_iff hshown' hvalid']
      all_goals simpa [Keeps] using valid_moveCursor hvalid' (by simp) (by simp)

theorem good_key_iff (hshown : Shown c s) (h : Valid c s) :
    Good c s (.key key down) ↔ Keeps c s (.key key down) := by
  rw [← valid_notifyKey_iff hshown h]
  simp [Good, notify, Effect, notifyKey_value]

end keys

section touch
variable {c s} {t : Touch}

theorem handleCursorByTouch_value (x : ℤ) : (handleCursorByTouch c s x).value = s.value := by
  simp only [handleCursorByTouch]
  split_ifs
  · rfl
  · cases c.font <;> rfl

theorem handleCursorByTouch_displayValue (x : ℤ) :
    (handleCursorByTouch c s x).displayValue = s.displayValue := by
  simp only [handleCursorByTouch]
  split_ifs
  · rfl
  · cases c.font <;> rfl

/-- The loop finds a place of the displayed text or its end. -/
theorem findCursor_bounds (display : Text) (scrollingX : ℤ) (measure : Text → ℤ) (x : ℤ)
    (left index : ℕ) (prevX : ℤ) :
    -1 ≤ (findCursor c display scrollingX measure x left index prevX).1 ∧
      (findCursor c display scrollingX measure x left index prevX).1 < index + left := by
  induction left generalizing index prevX with
  | zero => simp [findCursor]; omega
  | succ left ih =>
    simp only [findCursor]
    have hrest := ih (index + 1) (measure (cString (display.take index)) + c.renderX + scrollingX)
    split_ifs
    all_goals omega

theorem handleCursorByTouch_bounds (h : Shown c s) (x : ℤ) :
    -1 ≤ (handleCursorByTouch c s x).cursorLocation ∧
      (handleCursorByTouch c s x).cursorLocation ≤ s.displayValue.length := by
  simp only [handleCursorByTouch]
  split_ifs with hempty
  · simp
  · have hfont := (h.ne_nil (by simpa using hempty)).1
    obtain ⟨measure, hmeasure⟩ := Option.isSome_iff_exists.mp hfont
    rw [hmeasure]
    have hbounds := findCursor_bounds (c := c) s.displayValue s.scrollingX measure x
      (s.displayValue.length + 1) 0 (c.renderX + s.scrollingX)
    exact ⟨hbounds.1, by dsimp only; omega⟩

theorem handleCursorByTouch_draw (b : Bool) (x : ℤ) :
    handleCursorByTouch c { s with drawCursor := b } x =
      { handleCursorByTouch c s x with drawCursor := b } := by
  simp only [handleCursorByTouch]
  split_ifs
  · rfl
  · cases c.font <;> rfl

theorem Shown.handleCursorByTouch (h : Shown c s) (x : ℤ) :
    Shown c (handleCursorByTouch c s x) where
  display := by rw [handleCursorByTouch_displayValue, handleCursorByTouch_value, h.display]
  atEnd := by
    intro hfont
    have hempty : s.displayValue = [] := by simpa [hfont] using h.display
    simp [TextInput.handleCursorByTouch, hempty]

theorem valid_handleCursorByTouch_iff (h : Shown c s) (x : ℤ) :
    Valid c (handleCursorByTouch c s x) ↔ OneByte c ∨
      (handleCursorByTouch c s x).cursorLocation = -1 ∨
        (handleCursorByTouch c s x).cursorLocation = 0 := by
  have hbounds := handleCursorByTouch_bounds h x
  rw [valid_iff, handleCursorByTouch_value]
  constructor
  · intro hvalid
    cases hvalid with
    | inl hend => exact Or.inr (Or.inl hend)
    | inr hplace => exact hplace.2.2.imp_right Or.inr
  · intro hkeeps
    by_cases hend : (TextInput.handleCursorByTouch c s x).cursorLocation = -1
    · exact Or.inl hend
    simp only [hend, false_or] at hkeeps ⊢
    refine ⟨by omega, ?_, hkeeps⟩
    cases hkeeps with
    | inl hone =>
      have hlength : s.displayValue.length ≤ s.value.length := by
        rw [h.display]
        split_ifs
        · rw [masked_length, max_eq_left hone, mul_one]
        · exact Nat.zero_le _
      omega
    | inr hzero => omega

theorem notifyTouch_of_release (hcondition : t.condition = true) (hfocus : s.hasInputFocus = true)
    (hrelease : t.state = .release) : notifyTouch c s t =
      { handleCursorByTouch c s t.x with drawCursor := true } := by
  rw [notifyTouch, if_neg (by simp [hcondition]), if_neg (by simp [hfocus]), hrelease]
  exact handleCursorByTouch_draw true t.x

/-- Every other touch leaves the text and the cursor. -/
theorem notifyTouch_other
    (h : ¬(t.condition = true ∧ s.hasInputFocus = true ∧ t.state = .release)) :
    (notifyTouch c s t).value = s.value ∧ (notifyTouch c s t).displayValue = s.displayValue ∧
      (notifyTouch c s t).cursorLocation = s.cursorLocation := by
  simp only [notifyTouch]
  cases hcondition : t.condition with
  | false => simp
  | true =>
    cases hfocus : s.hasInputFocus with
    | false =>
      simp only [Bool.not_true, Bool.false_eq_true, Bool.not_false, if_false, if_true]
      split_ifs <;> simp
    | true =>
      cases hstate : t.state
      case release => exact absurd ⟨hcondition, hfocus, hstate⟩ h
      case drag =>
        simp only [Bool.not_true, Bool.false_eq_true, if_false]
        split_ifs <;> simp
      all_goals simp

theorem Shown.notifyTouch (h : Shown c s) : Shown c (notifyTouch c s t) := by
  by_cases hrelease : t.condition = true ∧ s.hasInputFocus = true ∧ t.state = .release
  · rw [notifyTouch_of_release hrelease.1 hrelease.2.1 hrelease.2.2]
    exact (h.handleCursorByTouch t.x).of_eq rfl rfl rfl
  · obtain ⟨hvalue, hdisplay, hlocation⟩ := notifyTouch_other (c := c) hrelease
    exact h.of_eq hvalue hdisplay hlocation

theorem good_touch_iff (hshown : Shown c s) (h : Valid c s) :
    Good c s (.touch t) ↔ Keeps c s (.touch t) := by
  have hsome : Good c s (.touch t) ↔ Valid c (notifyTouch c s t) ∧
      (notifyTouch c s t).value = s.value := by simp [Good, notify, Effect]
  rw [hsome]
  by_cases hrelease : t.condition = true ∧ s.hasInputFocus = true ∧ t.state = .release
  · obtain ⟨hcondition, hfocus, hstate⟩ := hrelease
    rw [notifyTouch_of_release hcondition hfocus hstate]
    have hvalid := valid_handleCursorByTouch_iff hshown t.x
    simp only [Keeps, hcondition, hfocus, hstate, true_imp_iff, ← hvalid]
    exact and_iff_left (handleCursorByTouch_value t.x)
  · obtain ⟨hvalue, -, hlocation⟩ := notifyTouch_other (c := c) hrelease
    have hvalid : Valid c (notifyTouch c s t) :=
      h.of_location hlocation (by rw [hvalue]; exact h.le_length)
    have hkeeps : Keeps c s (.touch t) := fun hcondition hfocus hstate =>
      absurd ⟨hcondition, hfocus, hstate⟩ hrelease
    exact iff_of_true ⟨hvalid, hvalue⟩ hkeeps

end touch

section edits
variable {c s} {key : ℤ} {z : Zipper Char}

/-- The value that is read back once a value is stored. -/
def readBack (c : InputConfig) (s : TextInput) (value : Text) : Text :=
  if c.font.isSome ∧ c.accepted = false then s.stored.getD value else value

theorem readBack_eq_iff {value : Text} : readBack c s value = value ↔ GivesBack c s value := by
  rw [readBack, GivesBack]
  cases c.font <;> cases c.accepted <;> simp

/-- Where the cursor is once a text is edited. -/
def place (s : TextInput) (z : Zipper Char) : ℤ :=
  if s.cursorLocation = -1 then -1 else z.before.length

/-- An edit that is done: its text is stored and displayed, with the cursor in its place. -/
structure Edited (c : InputConfig) (s : TextInput) (z : Zipper Char) (s' : TextInput) : Prop where
  value : s'.value = readBack c s z.text
  shown : Shown c s → Shown c s'
  location : s'.cursorLocation = place s z

theorem Edited.of_eq {t s' : TextInput} (h : Edited c s z t) (hvalue : s'.value = t.value)
    (hdisplay : s'.displayValue = t.displayValue)
    (hlocation : s'.cursorLocation = t.cursorLocation) : Edited c s z s' where
  value := hvalue.trans h.value
  shown := fun hshown => (h.shown hshown).of_eq hvalue hdisplay hlocation
  location := hlocation.trans h.location

/-- The text of an edit is stored, and what is read back is displayed. -/
theorem edited_updateDisplayText {t : TextInput} (hvalue : t.value = z.text)
    (hstored : t.stored = if c.accepted then some z.text else s.stored)
    (hdisplay : t.displayValue = s.displayValue) (hlocation : t.cursorLocation = place s z) :
    Edited c s z (updateDisplayText c t) where
  value := by
    rw [updateDisplayText_value, hvalue, hstored, readBack]
    cases c.font <;> cases c.accepted <;> simp
  shown := by
    intro hshown
    refine ⟨?_, ?_⟩
    · rw [updateDisplayText_displayValue, updateDisplayText_value]
      split_ifs with hfont
      · rfl
      · rw [hdisplay, hshown.display, if_neg hfont]
    · intro hfont
      rw [updateDisplayText_cursorLocation, hlocation, place, if_pos (hshown.atEnd hfont)]
  location := by rw [updateDisplayText_cursorLocation, hlocation]

theorem edited_finishEdit {location : ℤ} (hlocation : location = place s z) :
    Edited c s z (finishEdit c s z.text location) := by
  have hedited : Edited c s z (updateDisplayText c (setValue c
      { s with value := z.text, cursorLocation := location, isLocalChange := true } z.text)) := by
    rw [setValue_local _ _ _ rfl]
    apply edited_updateDisplayText
    all_goals split_ifs <;> first | rfl | exact hlocation
  apply hedited.of_eq
  all_goals simp [finishEdit]

theorem split_atEnd (hend : s.cursorLocation = -1) : s.split = ⟨s.value, []⟩ := by
  rw [split, if_pos hend]

theorem Valid.split_before (h : Valid c s) (hplace : s.cursorLocation ≠ -1) :
    (s.split.before.length : ℤ) = s.cursorLocation := by
  have hbounds := h.resolve_left hplace
  exact TextInput.split_before hbounds.1 hbounds.2.1

theorem Valid.nothing_before_iff (h : Valid c s) :
    s.split.before ≠ [] ↔ 0 < s.value.length ∧ s.cursorLocation ≠ 0 := by
  rw [← List.length_pos_iff]
  by_cases hend : s.cursorLocation = -1
  · simp [split_atEnd hend, hend]
  · have hbefore := h.split_before hend
    have hhigh := h.le_length
    omega

theorem notifyCharInput_backspace (h : Valid c s) (hfocus : s.hasInputFocus = true)
    (hbefore : s.split.before ≠ []) : ∃ s', notifyCharInput c s keyboardBackspace = some s' ∧
      Edited c s s.split.backspace s' := by
  rw [notifyCharInput, if_neg (by simp [hfocus]), if_pos rfl,
    if_pos (h.nothing_before_iff.mp hbefore)]
  by_cases hend : s.cursorLocation = -1
  · rw [if_pos hend]
    refine ⟨_, rfl, ?_⟩
    have htext : s.value.take (s.value.length - 1) = s.split.backspace.text := by
      simp [split_atEnd hend, List.dropLast_eq_take]
    rw [htext]
    exact edited_finishEdit (by rw [place, if_pos hend])
  · have hlength := h.split_before hend
    have hpos := List.length_pos_iff.mpr hbefore
    have herase := s.split.eraseAt_text hbefore
    have hpos' : (s.cursorLocation - 1).toNat = s.split.before.length - 1 := by omega
    rw [split_text, ← hpos'] at herase
    rw [if_neg hend, herase]
    refine ⟨_, rfl, edited_finishEdit ?_⟩
    rw [place, if_neg hend, Zipper.backspace, List.length_dropLast]
    omega

theorem edited_deleteAll (h : Valid c s) : ∃ t, deleteAll c s = some t ∧
    Edited c s s.split.clearBefore (updateDisplayText c t) := by
  rw [deleteAll]
  by_cases hend : s.cursorLocation = -1
  · have htext : s.split.clearBefore.text = [] := by simp [split_atEnd hend]
    have hplace : place s s.split.clearBefore = -1 := by rw [place, if_pos hend]
    refine ⟨_, if_pos hend, edited_updateDisplayText htext.symm ?_ ?_ hplace.symm⟩
    · rw [setValue_local _ _ _ rfl, htext]
      split_ifs <;> rfl
    · rw [setValue_local _ _ _ rfl]
      split_ifs <;> rfl
  · have hlength := h.split_before hend
    have hpos : s.cursorLocation.toNat = s.split.before.length := by omega
    have herase := s.split.eraseAt_before
    have hplace : place s s.split.clearBefore = 0 := by
      rw [place, if_neg hend]
      rfl
    rw [split_text, ← hpos] at herase
    rw [if_neg hend, herase, Option.map_some]
    refine ⟨_, rfl, edited_updateDisplayText ?_ ?_ ?_ hplace.symm⟩
    all_goals rw [setValue_local _ _ _ rfl]
    all_goals split_ifs <;> rfl

theorem notifyCharInput_swipeLeft (h : Valid c s) (hfocus : s.hasInputFocus = true) :
    ∃ s', notifyCharInput c s keyboardSwipeLeft = some s' ∧ Edited c s s.split.clearBefore s' := by
  obtain ⟨t, hdelete, hedited⟩ := edited_deleteAll h
  rw [notifyCharInput, if_neg (by simp [hfocus]), if_neg (by decide), if_pos rfl, hdelete]
  exact ⟨_, rfl, hedited.of_eq rfl rfl rfl⟩

theorem notifyCharInput_regularKey {typed : Char} (h : Valid c s) (hfocus : s.hasInputFocus = true)
    (hkey : 32 ≤ key) (htyped : regularKey c s key = some typed) :
    ∃ s', notifyCharInput c s key = some s' ∧ Edited c s (s.split.insert typed) s' := by
  rw [notifyCharInput, if_neg (by simp [hfocus]),
    if_neg (by simp only [keyboardBackspace]; omega),
    if_neg (by simp only [keyboardSwipeLeft]; omega), if_pos hkey, htyped]
  by_cases hend : s.cursorLocation = -1
  · have htext : s.value ++ [typed] = (s.split.insert typed).text := by simp [split_atEnd hend]
    refine ⟨_, if_pos hend, ?_⟩
    rw [htext]
    exact edited_finishEdit (by rw [place, if_pos hend])
  · have hlength := h.split_before hend
    have hpos : s.cursorLocation.toNat = s.split.before.length := by omega
    have hinsert := s.split.insertAt_text typed
    rw [split_text, ← hpos] at hinsert
    dsimp only
    rw [if_neg hend, hinsert]
    refine ⟨_, rfl, edited_finishEdit ?_⟩
    rw [place, if_neg hend, Zipper.insert, List.length_append, List.length_singleton]
    omega

theorem notifyCharInput_none (h : Valid c s) (hedit : edit c s key = none) :
    notifyCharInput c s key = some s := by
  rw [notifyCharInput]
  cases hfocus : s.hasInputFocus with
  | false => simp
  | true =>
    simp only [edit, hfocus, Bool.not_true, Bool.false_eq_true, if_false] at hedit ⊢
    by_cases hback : key = keyboardBackspace
    · have hnothing : ¬(0 < s.value.length ∧ s.cursorLocation ≠ 0) := by
        rw [← h.nothing_before_iff]
        intro hbefore
        simp [hback, hbefore] at hedit
      rw [if_pos hback, if_neg hnothing]
    rw [if_neg hback] at hedit ⊢
    by_cases hswipe : key = keyboardSwipeLeft
    · simp [hswipe] at hedit
    rw [if_neg hswipe] at hedit ⊢
    by_cases hkey : 32 ≤ key
    · rw [if_pos hkey] at hedit ⊢
      rw [Option.map_eq_none_iff.mp hedit]
    · rw [if_neg hkey]

theorem notifyCharInput_some (h : Valid c s) (hedit : edit c s key = some z) :
    ∃ s', notifyCharInput c s key = some s' ∧ Edited c s z s' := by
  cases hfocus : s.hasInputFocus with
  | false => simp [edit, hfocus] at hedit
  | true =>
    simp only [edit, hfocus, Bool.not_true, Bool.false_eq_true, if_false] at hedit
    split_ifs at hedit with hback hbefore hswipe hkey
    · obtain rfl := Option.some.inj hedit
      rw [hback]
      exact notifyCharInput_backspace h hfocus hbefore
    · obtain rfl := Option.some.inj hedit
      rw [hswipe]
      exact notifyCharInput_swipeLeft h hfocus
    · obtain ⟨typed, htyped, rfl⟩ := Option.map_eq_some_iff.mp hedit
      exact notifyCharInput_regularKey h hfocus hkey htyped

/-- What an edit leaves: the text after the cursor, and before it one character more where one is
typed. -/
theorem edit_eq (hedit : edit c s key = some z) : z.after = s.split.after ∧
    (32 ≤ key → z.before ≠ []) ∧ (key < 32 → z.before.length ≤ s.split.before.length) := by
  simp only [edit] at hedit
  split_ifs at hedit with hfocus hback hbefore hswipe hkey
  · obtain rfl := Option.some.inj hedit
    rw [hback]
    exact ⟨rfl, fun h => absurd h (by decide), fun _ => by simp [Zipper.backspace]⟩
  · obtain rfl := Option.some.inj hedit
    rw [hswipe]
    exact ⟨rfl, fun h => absurd h (by decide), fun _ => Nat.zero_le _⟩
  · obtain ⟨typed, -, rfl⟩ := Option.map_eq_some_iff.mp hedit
    exact ⟨rfl, fun _ => by simp [Zipper.insert], fun h => absurd h (by omega)⟩

theorem Edited.split {s' : TextInput} (h : Edited c s z s') (hafter : z.after = s.split.after)
    (hback : GivesBack c s z.text) : s'.split = z := by
  have hvalue : s'.value = z.text := by rw [h.value, readBack_eq_iff.mpr hback]
  rw [TextInput.split, h.location, hvalue, place]
  by_cases hend : s.cursorLocation = -1
  · rw [split_atEnd hend] at hafter
    simp [hend, Zipper.text, hafter, Zipper.ext_iff]
  · rw [if_neg hend, if_neg (by omega), Int.toNat_natCast]
    simp [Zipper.text]

theorem Edited.valid {s' : TextInput} (h : Edited c s z s') (hs : Valid c s)
    (hback : GivesBack c s z.text)
    (hwide : OneByte c ∨ s.cursorLocation = -1 ∨ z.before.length ≤ s.split.before.length) :
    Valid c s' := by
  have hvalue : s'.value = z.text := by rw [h.value, readBack_eq_iff.mpr hback]
  have hlength : z.before.length ≤ z.text.length := by simp [Zipper.text]
  rw [valid_iff, h.location, hvalue, place]
  by_cases hend : s.cursorLocation = -1
  · exact Or.inl (if_pos hend)
  · have hbefore := hs.split_before hend
    have hplace := ((valid_iff.mp hs).resolve_left hend).2.2
    rw [if_neg hend]
    refine Or.inr ⟨by omega, by exact_mod_cast hlength, ?_⟩
    by_cases hone : OneByte c
    · exact Or.inl hone
    · simp only [hone, hend, false_or] at hwide hplace
      exact Or.inr (by omega)

theorem good_charInput_iff (h : Valid c s) :
    Good c s (.charInput key) ↔ Keeps c s (.charInput key) := by
  cases hedit : edit c s key with
  | none =>
    have hgood : Good c s (.charInput key) :=
      ⟨s, notifyCharInput_none h hedit, h, by rw [Effect, hedit]; rfl⟩
    exact iff_of_true hgood fun z hz => absurd (hedit.symm.trans hz) (by simp)
  | some z =>
    obtain ⟨s', hs', hedited⟩ := notifyCharInput_some h hedit
    obtain ⟨hafter, hmore, hless⟩ := edit_eq hedit
    have hkeeps : Keeps c s (.charInput key) ↔
        GivesBack c s z.text ∧ (32 ≤ key → OneByte c ∨ s.cursorLocation = -1) := by
      simp [Keeps, hedit]
    have hgood : Good c s (.charInput key) ↔ Valid c s' ∧ s'.split = z := by
      simp [Good, notify, hs', Effect, hedit]
    rw [hkeeps, hgood]
    constructor
    · rintro ⟨hvalid, hsplit⟩
      refine ⟨?_, fun hkey => ?_⟩
      · rw [← readBack_eq_iff, ← hedited.value, ← hsplit, split_text]
      · by_cases hend : s.cursorLocation = -1
        · exact Or.inr hend
        · have hlocation := hedited.location
          have hpos := List.length_pos_iff.mpr (hmore hkey)
          rw [place, if_neg hend] at hlocation
          have hplace := (valid_iff.mp hvalid).resolve_left (by omega)
          exact Or.inl (hplace.2.2.resolve_right (by omega))
    · rintro ⟨hback, hwide⟩
      refine ⟨hedited.valid h hback ?_, hedited.split hafter hback⟩
      by_cases hkey : 32 ≤ key
      · exact (hwide hkey).imp_right Or.inl
      · exact Or.inr (Or.inr (hless (by omega)))

end edits

section runs
variable {c s} {e : InputEvent}

/-- Every step leaves a text that is displayed as it is. -/
theorem shown_notify {s' : TextInput} (hshown : Shown c s) (h : Valid c s)
    (hstep : notify c s e = some s') : Shown c s' := by
  cases e with
  | stored value =>
    obtain rfl := Option.some.inj hstep
    exact hshown.of_eq rfl rfl rfl
  | varChange varName =>
    obtain rfl := Option.some.inj hstep
    exact hshown.notifyVarChange
  | key key down =>
    obtain rfl := Option.some.inj hstep
    exact hshown.notifyKey
  | charInput key =>
    cases hedit : edit c s key with
    | none =>
      obtain rfl := Option.some.inj ((notifyCharInput_none h hedit).symm.trans hstep)
      exact hshown
    | some z =>
      obtain ⟨t, ht, hedited⟩ := notifyCharInput_some h hedit
      obtain rfl := Option.some.inj (ht.symm.trans hstep)
      exact hedited.shown hshown
  | touch t =>
    obtain rfl := Option.some.inj hstep
    exact hshown.notifyTouch
  | focus on =>
    obtain rfl := Option.some.inj hstep
    exact hshown.of_eq rfl rfl rfl

theorem good_iff (hshown : Shown c s) (h : Valid c s) : Good c s e ↔ Keeps c s e := by
  cases e with
  | stored value => exact iff_of_true ⟨_, rfl, h, rfl⟩ trivial
  | varChange varName => exact good_varChange_iff h
  | key key down => exact good_key_iff hshown h
  | charInput key => exact good_charInput_iff h
  | touch t => exact good_touch_iff hshown h
  | focus on => exact iff_of_true ⟨_, rfl, h, rfl⟩ trivial

/-- In a run every event does what it must to the text and the cursor if and only if every event
meets the condition. -/
theorem run_good_iff (c : InputConfig) (focus : Bool) (stored : Option Text)
    (events : List InputEvent) :
    EachStep (notify c) (Good c) (initial focus stored) events ↔
      EachStep (notify c) (Keeps c) (initial focus stored) events := by
  have hinitial : Shown c (initial focus stored) ∧ Valid c (initial focus stored) := by
    refine ⟨⟨?_, fun _ => rfl⟩, Or.inl rfl⟩
    simp [initial, masked]
  apply @eachStep_iff _ _ (notify c) (Good c) (Keeps c) fun s => Shown c s ∧ Valid c s
  · intro s e h
    exact good_iff h.1 h.2
  · rintro s e s' ⟨hshown, hvalid⟩ ⟨t, ht, hvalid', -⟩ hstep
    obtain rfl := Option.some.inj (ht.symm.trans hstep)
    exact ⟨shown_notify hshown hvalid hstep, hvalid'⟩
  · exact hinitial

end runs

/-- An input without a mask and without restrictions, with a font of five pixels. -/
def plainInput : InputConfig where
  variableName := "v".toList
  accepted := true
  mask := []
  font := some fun text => 5 * text.length
  renderX := 0
  renderY := 0
  renderW := 100
  renderH := 20
  cursorWidth := 3
  maxLen := 0
  allowedList := []
  disabledList := []

/-- `abc` is typed, the cursor moved one to the left, the variable emptied elsewhere, and `d`
typed. -/
def emptiedElsewhere : List InputEvent :=
  [.charInput 97, .charInput 98, .charInput 99, .key .keyLeft true, .stored (some []),
    .varChange "v".toList, .charInput 100]

theorem not_run_good_emptied : ¬EachStep (notify plainInput) (Good plainInput) (initial true none)
      emptiedElsewhere ∧
    emptiedElsewhere.foldlM (notify plainInput) (initial true none) = none := by
  refine ⟨fun h => ?_, by decide +kernel⟩
  have htyped := ((h.2 _ rfl).2 _ rfl).2 _ rfl
  obtain ⟨s', hs', hvalid, -⟩ := ((htyped.2 _ rfl).2 _ rfl).1
  obtain rfl := Option.some.inj hs'
  exact absurd hvalid (by decide +kernel)

end TextInput
end BootableRecovery.Gui
