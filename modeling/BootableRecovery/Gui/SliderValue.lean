import BootableRecovery.Gui.PatternPassword
import BootableRecovery.Gui.ThemeLoading
import BootableRecovery.Lib.Rounding

namespace BootableRecovery.Gui
open Lib
open Theme (atoi)

/-! `GUISliderValue`: a slider that shows a variable and changes it. -/

/-- The nearest `float`, which has 24 binary digits. -/
def toFloat (q : ℚ) : ℚ := roundTo 24 q

/-- An `int`, where nothing overflows. -/
def asInt (n : ℤ) : Option ℤ := if -2 ^ 31 ≤ n ∧ n < 2 ^ 31 then some n else none

/-- The quotient of two integers; there is none by zero. -/
def divide (a b : ℤ) : Option ℤ := if b = 0 then none else some (a.tdiv b)

/-- `%d` of `printf`. -/
def printed (n : ℤ) : Text := if n < 0 then '-' :: decimal n.natAbs else decimal n.natAbs

/-- The attributes of the slider, after `gui_parse_text`. -/
structure SliderAttributes where
  variableName : Text
  min : Option Text
  max : Option Text
  showCurr : Bool
  bound : variableName ≠ []

/-- Where the slider and its track are; the track is longer than the handle is wide. -/
structure SliderGeometry where
  mLineX : ℤ
  mLineW : ℤ
  mSliderW : ℤ
  mRenderY : ℤ
  mRenderH : ℤ
  sliderW_nonneg : 0 ≤ mSliderW
  renderH_nonneg : 0 ≤ mRenderH
  track : mSliderW < mLineW

/-- What happens to a slider: a touch, with the condition of the slider; a variable that changes;
and its page, with what the variable holds then. -/
inductive SliderEvent
  | touch (state : TouchState) (x y : ℤ) (isConditionTrue : Bool)
  | varChange (varName value : Text)
  | pageFocus (inFocus : Bool) (stored : ℤ)

structure SliderState where
  mValue : ℤ
  mDragging : Bool

/-- The slider as it is constructed. -/
structure Slider extends SliderAttributes, SliderGeometry

namespace Slider
variable (slider : Slider)

def mMinStr : Text := slider.min.getD []

def mMaxStr : Text := slider.max.getD []

def mMax : ℤ := slider.max.elim 100 atoi

def mMin : ℤ := if slider.min.elim 0 atoi > slider.mMax then slider.mMax else slider.min.elim 0 atoi

/-- The characters that `mValueStr` has room for. -/
def maxLen : ℕ := max (cString slider.mMinStr).length (cString slider.mMaxStr).length

/-- The value at a percentage of the range, which is not bounded here. -/
def scale (pct : ℚ) : ℤ :=
  let range := |slider.mMax - slider.mMin|
  truncate (toFloat (toFloat slider.mMin + toFloat (toFloat (pct * toFloat range) / 100)))

def valueFromPct (pct : ℚ) : Option ℤ := do
  let _ ← asInt (slider.mMax - slider.mMin)
  asInt (slider.scale pct)

/-- The value for a touch at `x`, which is brought to the track first. -/
def newVal (x : ℤ) : Option ℤ := do
  let x := max (slider.mLineX + slider.mSliderW / 2) x
  let x := min (slider.mLineX + slider.mLineW - slider.mSliderW / 2) x
  let scaled ← asInt ((x - (slider.mLineX + slider.mSliderW / 2)) * 100)
  let pct ← divide scaled (slider.mLineW - slider.mSliderW)
  slider.valueFromPct (toFloat pct)

def drag (x : ℤ) (s : SliderState) : Option SliderState :=
  if s.mDragging then (slider.newVal x).map fun v => { s with mValue := v } else some s

def notifyTouch (state : TouchState) (x y : ℤ) (s : SliderState) : Option SliderState :=
  match state with
  | .start =>
    if slider.mLineX ≤ x ∧ x ≤ slider.mLineX + slider.mLineW ∧
        slider.mRenderY ≤ y ∧ y ≤ slider.mRenderY + slider.mRenderH then
      slider.drag x { s with mDragging := true }
    else slider.drag x s
  | .drag => slider.drag x s
  | .release => some { s with mDragging := false }
  | .hold => some s
  | .repeated => some s

def notifyVarChange (varName value : Text) (s : SliderState) : SliderState :=
  if varName = slider.variableName then { s with mValue := atoi value } else s

def loadValue (force : Bool) (stored : ℤ) (s : SliderState) : SliderState :=
  if slider.variableName ≠ [] ∧ s.mValue = stored ∧ force = false then s
  else
    let mValue := if slider.variableName ≠ [] then stored else s.mValue
    -- `pctFromValue` gives the place where it is drawn, which nothing here reads
    { s with mValue := min (max mValue slider.mMin) slider.mMax }

/-- There is no next state where integers overflow or are divided by zero. -/
def step (s : SliderState) : SliderEvent → Option SliderState
  | .touch state x y isConditionTrue =>
    if isConditionTrue then slider.notifyTouch state x y s else some s
  | .varChange varName value => some (slider.notifyVarChange varName value s)
  | .pageFocus inFocus stored => some (if inFocus then slider.loadValue false stored s else s)

def run (s : SliderState) : List SliderEvent → Option SliderState
  | [] => some s
  | e :: events => (slider.step s e).bind fun s => run s events

/-- The constructor's state, where the variable holds `stored`. -/
def construct (stored : ℤ) : SliderState := slider.loadValue true stored ⟨0, false⟩

/-! ### What it is for -/

/-- The value is in its range, and there is room for its text. -/
structure Sound (s : SliderState) : Prop where
  low : slider.mMin ≤ s.mValue
  high : s.mValue ≤ slider.mMax
  text : slider.showCurr = true → (printed s.mValue).length ≤ slider.maxLen

/-- In a run the value stays sound, and touches give values in the order of their places. -/
structure Holds (stored : ℤ) (events : List SliderEvent) : Prop where
  sound : ∀ n, ∃ s, slider.run (slider.construct stored) (events.take n) = some s ∧ slider.Sound s
  ordered : ∀ x x' v v', x ≤ x' → slider.newVal x = some v → slider.newVal x' = some v' → v ≤ v'

/-- Nothing outside of the range is stored in the variable while the slider is shown. -/
def ChangesInRange (events : List SliderEvent) : Prop :=
  ∀ value, SliderEvent.varChange slider.variableName value ∈ events →
    slider.mMin ≤ atoi value ∧ atoi value ≤ slider.mMax

/-- The percentage of a touch at the right end of the track. -/
def lastPct : ℤ :=
  ((slider.mLineW - slider.mSliderW + slider.mSliderW % 2) * 100) /
    (slider.mLineW - slider.mSliderW)

/-- The bounds suit the arithmetic on them, and their texts the room they are given. -/
structure Fits : Prop where
  range : slider.mMax - slider.mMin < 2 ^ 31
  track : (slider.mLineW - slider.mSliderW + slider.mSliderW % 2) * 100 < 2 ^ 31
  low : slider.mMin ≤ slider.scale 0
  high : slider.scale (toFloat slider.lastPct) ≤ slider.mMax
  text : slider.showCurr = true →
    (printed slider.mMin).length ≤ slider.maxLen ∧ (printed slider.mMax).length ≤ slider.maxLen

end Slider

/-! ### The bounds and the scale -/

section scale
variable {slider : Slider}

theorem atoi_mem (s : Text) : -2 ^ 31 ≤ atoi s ∧ atoi s < 2 ^ 31 := by
  unfold atoi
  dsimp only
  constructor
  · exact Int.le_bmod (by decide)
  · exact Int.bmod_lt (by decide)

theorem Slider.mMin_le_mMax (slider : Slider) : slider.mMin ≤ slider.mMax := by
  rw [Slider.mMin]
  split_ifs
  · exact le_rfl
  · omega

theorem Slider.mMax_mem (slider : Slider) : -2 ^ 31 ≤ slider.mMax ∧ slider.mMax < 2 ^ 31 := by
  rw [Slider.mMax]
  cases slider.max with
  | none => decide
  | some text => exact atoi_mem text

theorem Slider.le_mMin (slider : Slider) : -2 ^ 31 ≤ slider.mMin := by
  rw [Slider.mMin]
  split_ifs
  · exact slider.mMax_mem.1
  · cases slider.min with
    | none => decide
    | some text => exact (atoi_mem text).1

theorem asInt_eq {n : ℤ} (h : -2 ^ 31 ≤ n) (h' : n < 2 ^ 31) : asInt n = some n := if_pos ⟨h, h'⟩

theorem asInt_eq_some {n v : ℤ} (h : asInt n = some v) : v = n ∧ n < 2 ^ 31 := by
  unfold asInt at h
  split_ifs at h with hint
  exact ⟨(Option.some.inj h).symm, hint.2⟩

theorem toFloat_mono {q q' : ℚ} (h : q ≤ q') : toFloat q ≤ toFloat q' := roundTo_mono (by decide) h

theorem toFloat_intCast {n : ℤ} (h : |n| < 2 ^ 24) : toFloat n = n := roundTo_intCast h

theorem scale_mono {pct pct' : ℚ} (h : pct ≤ pct') : slider.scale pct ≤ slider.scale pct' := by
  have hrange : 0 ≤ toFloat (|slider.mMax - slider.mMin| : ℤ) :=
    roundTo_nonneg (by exact_mod_cast abs_nonneg _)
  have hproduct := toFloat_mono (mul_le_mul_of_nonneg_right h hrange)
  have hquotient := toFloat_mono (div_le_div_of_nonneg_right hproduct (by norm_num : (0 : ℚ) ≤ 100))
  exact truncate_mono (toFloat_mono (add_le_add_right hquotient _))

theorem decimal_length_mono {m n : ℕ} (h : m ≤ n) : (decimal m).length ≤ (decimal n).length := by
  have hpos : 0 < (decimal n).length := Nat.length_toDigits_pos
  have hn := (Nat.length_toDigits_le_iff (by decide : 1 < 10) hpos).mp (le_refl (decimal n).length)
  exact (Nat.length_toDigits_le_iff (by decide : 1 < 10) hpos).mpr (h.trans_lt hn)

/-- The longest texts of a range are those of its ends. -/
theorem printed_length_le {a b n : ℤ} (ha : a ≤ n) (hb : n ≤ b) :
    (printed n).length ≤ max (printed a).length (printed b).length := by
  rcases lt_or_ge n 0 with hn | hn
  · apply le_max_of_le_left
    rw [printed, if_pos hn, printed, if_pos (by omega), List.length_cons, List.length_cons]
    exact Nat.succ_le_succ (decimal_length_mono (by omega))
  · apply le_max_of_le_right
    rw [printed, if_neg (by omega), printed, if_neg (by omega)]
    exact decimal_length_mono (by omega)

end scale

/-! ### Touches -/

section touches
variable {slider : Slider}

/-- How far right on the track a touch counts. -/
def Slider.place (slider : Slider) (x : ℤ) : ℤ :=
  min (slider.mLineX + slider.mLineW - slider.mSliderW / 2)
    (max (slider.mLineX + slider.mSliderW / 2) x) - (slider.mLineX + slider.mSliderW / 2)

theorem Slider.place_mem (slider : Slider) (x : ℤ) : 0 ≤ slider.place x ∧
    slider.place x ≤ slider.mLineW - slider.mSliderW + slider.mSliderW % 2 := by
  have hwidth := slider.sliderW_nonneg
  have htrack := slider.track
  unfold Slider.place
  omega

theorem place_mono {x x' : ℤ} (h : x ≤ x') : slider.place x ≤ slider.place x' := by
  unfold Slider.place
  omega

theorem newVal_eq (x : ℤ) : slider.newVal x =
    (asInt (slider.place x * 100)).bind fun scaled =>
      slider.valueFromPct
        (toFloat (scaled.tdiv (slider.mLineW - slider.mSliderW) : ℤ)) := by
  have htrack := slider.track
  have hpos : slider.mLineW - slider.mSliderW ≠ 0 := by omega
  simp only [Slider.newVal, divide, if_neg hpos]
  rfl

/-- The value of a touch is the one on the scale at its place. -/
theorem newVal_eq_some {x v : ℤ} (h : slider.newVal x = some v) :
    v = slider.scale
        (toFloat (slider.place x * 100 / (slider.mLineW - slider.mSliderW) : ℤ)) ∧
      slider.place x * 100 < 2 ^ 31 ∧ slider.mMax - slider.mMin < 2 ^ 31 := by
  have hplace := (slider.place_mem x).1
  rw [newVal_eq, Option.bind_eq_some_iff] at h
  obtain ⟨scaled, hscaled, hvalue⟩ := h
  obtain ⟨rfl, hint⟩ := asInt_eq_some hscaled
  rw [Int.tdiv_eq_ediv_of_nonneg (by omega), Slider.valueFromPct] at hvalue
  obtain ⟨range, hrange, hv⟩ := Option.bind_eq_some_iff.mp hvalue
  exact ⟨(asInt_eq_some hv).1, hint, (asInt_eq_some hrange).2⟩

theorem newVal_mono {x x' v v' : ℤ} (h : x ≤ x') (hv : slider.newVal x = some v)
    (hv' : slider.newVal x' = some v') : v ≤ v' := by
  have htrack := slider.track
  rw [(newVal_eq_some hv).1, (newVal_eq_some hv').1]
  apply scale_mono
  apply toFloat_mono
  have hpct := Int.ediv_le_ediv (by omega : 0 < slider.mLineW - slider.mSliderW)
    (mul_le_mul_of_nonneg_right (@place_mono slider _ _ h) (by decide : (0 : ℤ) ≤ 100))
  exact_mod_cast hpct

theorem toFloat_zero : toFloat 0 = 0 := by
  have h := @toFloat_intCast 0 (by decide)
  simpa using h

theorem Slider.Fits.newVal (h : slider.Fits) (x : ℤ) :
    ∃ v, slider.newVal x = some v ∧ slider.mMin ≤ v ∧ v ≤ slider.mMax := by
  have htrack := slider.track
  have htrackFits := h.track
  have hrange := h.range
  obtain ⟨hplace, hplace'⟩ := slider.place_mem x
  have hbounds := slider.mMin_le_mMax
  have hmin := slider.le_mMin
  have hmax := slider.mMax_mem.2
  have hpos : 0 < slider.mLineW - slider.mSliderW := by omega
  have hlow : 0 ≤ slider.place x * 100 / (slider.mLineW - slider.mSliderW) :=
    Int.ediv_nonneg (by omega) hpos.le
  have hhigh : slider.place x * 100 / (slider.mLineW - slider.mSliderW) ≤ slider.lastPct :=
    Int.ediv_le_ediv hpos (by omega)
  have hge : slider.mMin ≤
      slider.scale (toFloat (slider.place x * 100 / (slider.mLineW - slider.mSliderW) : ℤ)) := by
    apply h.low.trans
    apply scale_mono
    rw [← toFloat_zero]
    apply toFloat_mono
    exact_mod_cast hlow
  have hle : slider.scale (toFloat (slider.place x * 100 / (slider.mLineW - slider.mSliderW) : ℤ)) ≤
      slider.mMax := by
    refine (scale_mono (toFloat_mono ?_)).trans h.high
    exact_mod_cast hhigh
  refine ⟨_, ?_, hge, hle⟩
  rw [newVal_eq, asInt_eq (by omega) (by omega), Option.bind_some,
    Int.tdiv_eq_ediv_of_nonneg (by omega), Slider.valueFromPct,
    asInt_eq (by omega) (by omega)]
  exact asInt_eq (by omega) (by omega)

theorem place_left (slider : Slider) : slider.place slider.mLineX = 0 := by
  have hwidth := slider.sliderW_nonneg
  have htrack := slider.track
  unfold Slider.place
  omega

theorem place_right (slider : Slider) : slider.place (slider.mLineX + slider.mLineW) =
    slider.mLineW - slider.mSliderW + slider.mSliderW % 2 := by
  have hwidth := slider.sliderW_nonneg
  have htrack := slider.track
  unfold Slider.place
  omega

end touches

/-! ### Runs -/

section runs
variable {slider : Slider} {stored : ℤ} {s s' : SliderState}

theorem run_append (events more : List SliderEvent) (s : SliderState) :
    slider.run s (events ++ more) = (slider.run s events).bind fun s => slider.run s more := by
  induction events generalizing s with
  | nil => rfl
  | cons e events ih =>
    rw [List.cons_append, Slider.run, Slider.run, Option.bind_assoc]
    congr 1
    funext s'
    exact ih s'

theorem Slider.Fits.sound (h : slider.Fits) (hlow : slider.mMin ≤ s.mValue)
    (hhigh : s.mValue ≤ slider.mMax) : slider.Sound s where
  low := hlow
  high := hhigh
  text hshow := (printed_length_le hlow hhigh).trans
    (max_le (h.text hshow).1 (h.text hshow).2)

theorem clamp_mem (slider : Slider) (n : ℤ) : slider.mMin ≤ min (max n slider.mMin) slider.mMax ∧
    min (max n slider.mMin) slider.mMax ≤ slider.mMax := by
  have h := slider.mMin_le_mMax
  omega

theorem loadValue_sound (h : slider.Fits) (force : Bool) (hs : force = true ∨ slider.Sound s) :
    slider.Sound (slider.loadValue force stored s) := by
  unfold Slider.loadValue
  split_ifs with hsame hbound
  · rcases hs with hforce | hs
    · exact absurd (hforce.symm.trans hsame.2.2) (by decide)
    · exact hs
  all_goals
    have hmem := clamp_mem slider
    exact h.sound (hmem _).1 (hmem _).2

theorem drag_sound (h : slider.Fits) (x : ℤ) (hs : slider.Sound s) :
    ∃ s', slider.drag x s = some s' ∧ slider.Sound s' := by
  unfold Slider.drag
  split_ifs
  · obtain ⟨v, hv, hlow, hhigh⟩ := h.newVal x
    exact ⟨{ s with mValue := v }, by rw [hv, Option.map_some], h.sound hlow hhigh⟩
  · exact ⟨s, rfl, hs⟩

theorem notifyTouch_sound (h : slider.Fits) (state : TouchState) (x y : ℤ) (hs : slider.Sound s) :
    ∃ s', slider.notifyTouch state x y s = some s' ∧ slider.Sound s' := by
  cases state with
  | start =>
    unfold Slider.notifyTouch
    dsimp only
    split_ifs
    · exact drag_sound h x ⟨hs.low, hs.high, hs.text⟩
    · exact drag_sound h x hs
  | drag => exact drag_sound h x hs
  | release => exact ⟨_, rfl, hs.low, hs.high, hs.text⟩
  | hold => exact ⟨s, rfl, hs⟩
  | repeated => exact ⟨s, rfl, hs⟩

/-- A step keeps the value sound where no other value is stored in the variable. -/
theorem step_sound (h : slider.Fits) {e : SliderEvent} (he : slider.ChangesInRange [e])
    (hs : slider.Sound s) : ∃ s', slider.step s e = some s' ∧ slider.Sound s' := by
  cases e with
  | touch state x y isConditionTrue =>
    unfold Slider.step
    dsimp only
    split_ifs
    · exact notifyTouch_sound h state x y hs
    · exact ⟨s, rfl, hs⟩
  | varChange varName value =>
    refine ⟨_, rfl, ?_⟩
    unfold Slider.notifyVarChange
    split_ifs with hname
    · subst hname
      have hvalue := he value (List.mem_singleton_self _)
      exact h.sound hvalue.1 hvalue.2
    · exact hs
  | pageFocus inFocus stored =>
    refine ⟨_, rfl, ?_⟩
    split_ifs
    · exact loadValue_sound h false (Or.inr hs)
    · exact hs

theorem run_sound (h : slider.Fits) {events : List SliderEvent}
    (hevents : slider.ChangesInRange events) (hs : slider.Sound s) :
    ∃ s', slider.run s events = some s' ∧ slider.Sound s' := by
  induction events generalizing s with
  | nil => exact ⟨s, rfl, hs⟩
  | cons e events ih =>
    have he : slider.ChangesInRange [e] := fun value hvalue => hevents value
      (List.mem_cons.mpr (Or.inl (List.mem_singleton.mp hvalue)))
    obtain ⟨s₁, hstep, hs₁⟩ := step_sound h he hs
    obtain ⟨s₂, hrun, hs₂⟩ := ih (fun value hvalue => hevents value (List.mem_cons_of_mem e hvalue))
      hs₁
    exact ⟨s₂, by rw [Slider.run, hstep, Option.bind_some, hrun], hs₂⟩

theorem Slider.Fits.holds (h : slider.Fits) {events : List SliderEvent}
    (hevents : slider.ChangesInRange events) : slider.Holds stored events where
  sound _ := run_sound h
    (fun value hvalue => hevents value (List.mem_of_mem_take hvalue))
    (loadValue_sound h true (Or.inl rfl))
  ordered _ _ _ _ hx hv hv' := newVal_mono hx hv hv'

/-- A value from outside is taken as it is. -/
theorem Slider.Holds.changesInRange {events : List SliderEvent} (h : slider.Holds stored events) :
    slider.ChangesInRange events := by
  intro value hvalue
  obtain ⟨before, after, rfl⟩ := List.append_of_mem hvalue
  obtain ⟨s, hs, hsound⟩ := h.sound (before.length + 1)
  have htake : (before ++ SliderEvent.varChange slider.variableName value :: after).take
      (before.length + 1) = before ++ [SliderEvent.varChange slider.variableName value] := by
    rw [List.take_length_add_append]
    rfl
  rw [htake, run_append] at hs
  obtain ⟨s₁, -, hlast⟩ := Option.bind_eq_some_iff.mp hs
  simp only [Slider.run, Slider.step, Slider.notifyVarChange, Option.bind_some, if_true] at hlast
  cases hlast
  exact ⟨hsound.low, hsound.high⟩

/-- The value that a touch on the track gives is one of a run. -/
theorem Slider.Holds.touched {x : ℤ} (h : slider.Holds stored
      [.touch .start x slider.mRenderY true])
    (hx : slider.mLineX ≤ x ∧ x ≤ slider.mLineX + slider.mLineW) :
    ∃ v, slider.newVal x = some v ∧ slider.mMin ≤ v ∧ v ≤ slider.mMax := by
  have hheight := slider.renderH_nonneg
  obtain ⟨s, hs, hsound⟩ := h.sound 1
  have hinside : slider.mLineX ≤ x ∧ x ≤ slider.mLineX + slider.mLineW ∧
      slider.mRenderY ≤ slider.mRenderY ∧
        slider.mRenderY ≤ slider.mRenderY + slider.mRenderH := by omega
  obtain ⟨s₁, hstep, hrun⟩ := Option.bind_eq_some_iff.mp hs
  cases hrun
  simp only [Slider.step, Slider.notifyTouch, Slider.drag, if_true, if_pos hinside] at hstep
  obtain ⟨v, hv, rfl⟩ := Option.map_eq_some_iff.mp hstep
  exact ⟨v, hv, hsound.low, hsound.high⟩

theorem Slider.Holds.loaded {n : ℤ} (h : slider.Holds stored [.pageFocus true n])
    (hlow : slider.mMin ≤ n) (hhigh : n ≤ slider.mMax) (hshow : slider.showCurr = true) :
    (printed n).length ≤ slider.maxLen := by
  obtain ⟨s, hs, hsound⟩ := h.sound 1
  obtain ⟨s₁, hstep, hrun⟩ := Option.bind_eq_some_iff.mp hs
  cases hrun
  have hvalue : s.mValue = n := by
    cases hstep
    rw [if_pos rfl]
    unfold Slider.loadValue
    split_ifs with hsame hbound
    · exact hsame.2.1
    · exact (by omega : min (max n slider.mMin) slider.mMax = n)
    · exact absurd slider.bound hbound
  rw [← hvalue]
  exact hsound.text hshow

theorem fits_of_holds
    (h : ∀ events, slider.ChangesInRange events → slider.Holds stored events) : slider.Fits := by
  have hwidth := slider.sliderW_nonneg
  have htrack := slider.track
  have htouch : ∀ x, slider.ChangesInRange [.touch .start x slider.mRenderY true] :=
    fun x value hvalue => by simp at hvalue
  have hfocus : ∀ n, slider.ChangesInRange [.pageFocus true n] :=
    fun n value hvalue => by simp at hvalue
  have hleft := (h _ (htouch slider.mLineX)).touched ⟨le_rfl, by omega⟩
  have hright := (h _ (htouch (slider.mLineX + slider.mLineW))).touched ⟨by omega, le_rfl⟩
  obtain ⟨low, hlow, hmin, -⟩ := hleft
  obtain ⟨high, hhigh, -, hmax⟩ := hright
  obtain ⟨rfl, -, hrange⟩ := newVal_eq_some hlow
  obtain ⟨rfl, hfits, -⟩ := newVal_eq_some hhigh
  rw [place_left, zero_mul, Int.zero_ediv, Int.cast_zero, toFloat_zero] at hmin
  rw [place_right] at hmax hfits
  exact
    { range := hrange
      track := hfits
      low := hmin
      high := hmax
      text := fun hshow =>
        ⟨(h _ (hfocus slider.mMin)).loaded le_rfl slider.mMin_le_mMax hshow,
          (h _ (hfocus slider.mMax)).loaded slider.mMin_le_mMax le_rfl hshow⟩ }

end runs

/-! ### Small ranges -/

section small
variable {slider : Slider}

/-- Where everything on the way is an integer with few digits, the scale is exact. -/
theorem scale_exact {pct value : ℤ} (hmin : |slider.mMin| < 2 ^ 24)
    (hrange : |slider.mMax - slider.mMin| < 2 ^ 24)
    (hproduct : pct * |slider.mMax - slider.mMin| = 100 * value)
    (hsmall : |100 * value| < 2 ^ 24) (hsum : |slider.mMin + value| < 2 ^ 24) :
    slider.scale pct = slider.mMin + value := by
  have hvalue : |value| < 2 ^ 24 := by
    rw [abs_mul] at hsmall
    have hnonneg := abs_nonneg value
    have habs : |(100 : ℤ)| = 100 := rfl
    rw [habs] at hsmall
    omega
  have hrange' : toFloat (|slider.mMax - slider.mMin| : ℤ) = (|slider.mMax - slider.mMin| : ℤ) :=
    toFloat_intCast (by rwa [abs_abs])
  have hproduct' : toFloat (pct * (|slider.mMax - slider.mMin| : ℤ)) = (100 * value : ℤ) := by
    rw [← Int.cast_mul, hproduct]
    exact toFloat_intCast hsmall
  have hquotient : ((100 * value : ℤ) : ℚ) / 100 = (value : ℤ) := by
    push_cast
    field_simp
  rw [Slider.scale, hrange', hproduct', hquotient, toFloat_intCast hvalue, toFloat_intCast hmin,
    ← Int.cast_add, toFloat_intCast hsum, truncate_intCast]

/-- Bounds with few digits fit, where no touch goes beyond 100 percent. -/
theorem fits_of_small (hmin : |slider.mMin| < 2 ^ 24) (hmax : |slider.mMax| < 2 ^ 24)
    (hrange : 100 * (slider.mMax - slider.mMin) < 2 ^ 24)
    (htrack : (slider.mLineW - slider.mSliderW + slider.mSliderW % 2) * 100 < 2 ^ 31)
    (hpct : slider.lastPct = 100)
    (htext : slider.showCurr = true →
      (printed slider.mMin).length ≤ slider.maxLen ∧
        (printed slider.mMax).length ≤ slider.maxLen) : slider.Fits := by
  have hbounds := slider.mMin_le_mMax
  have habs : |slider.mMax - slider.mMin| = slider.mMax - slider.mMin := abs_of_nonneg (by omega)
  have hlow : slider.scale (0 : ℤ) = slider.mMin + 0 :=
    scale_exact hmin (by omega) (by omega) (by decide) (by rwa [add_zero])
  have hhigh : slider.scale (100 : ℤ) = slider.mMin + (slider.mMax - slider.mMin) :=
    scale_exact hmin (by omega) (by rw [habs]) (by rw [abs_of_nonneg (by omega)]; exact hrange)
      (by rwa [add_sub_cancel])
  refine ⟨by omega, htrack, ?_, ?_, htext⟩
  · rw [← Int.cast_zero, hlow, add_zero]
  · rw [hpct, toFloat_intCast (by decide), hhigh, add_sub_cancel]

end small

/-- A slider holds in all runs without a change out of its range exactly where its bounds fit, and
then in no others. -/
theorem slider_holds_iff (slider : Slider) (stored : ℤ) :
    ((∀ events, slider.ChangesInRange events → slider.Holds stored events) ↔ slider.Fits) ∧
      (slider.Fits → ∀ events, slider.Holds stored events ↔ slider.ChangesInRange events) :=
  ⟨⟨fits_of_holds, fun h _ hevents => h.holds hevents⟩,
    fun h _ => ⟨Slider.Holds.changesInRange, h.holds⟩⟩

/-- A slider for 0 to 100, with a track of 80 and a handle of 5. -/
def oddSlider : Slider where
  variableName := ['v']
  min := some ['0']
  max := some ['1', '0', '0']
  showCurr := true
  bound := by decide
  mLineX := 0
  mLineW := 85
  mSliderW := 5
  mRenderY := 0
  mRenderH := 30
  sliderW_nonneg := by decide
  renderH_nonneg := by decide
  track := by decide

/-- With a handle of 4 its bounds fit. -/
def evenSlider : Slider :=
  { oddSlider with
    mSliderW := 4
    sliderW_nonneg := by decide
    track := by decide }

example : evenSlider.Fits := by
  have hmin : evenSlider.mMin = 0 := by decide
  have hmax : evenSlider.mMax = 100 := by decide
  apply fits_of_small
  · rw [hmin]
    decide
  · rw [hmax]
    decide
  · rw [hmin, hmax]
    decide
  · decide
  · decide
  · intro _
    rw [hmin, hmax]
    decide

/-- A change to 1000 gives a value out of the range that its text has no room for, and a touch at
the right end the value 101. -/
theorem not_holds_oddSlider :
    oddSlider.ChangesInRange [.touch .start 85 0 true] ∧
      ¬oddSlider.Holds 0 [.touch .start 85 0 true] ∧
      ¬oddSlider.Holds 0 [.varChange ['v'] ['1', '0', '0', '0']] ∧
      oddSlider.newVal 85 = some 101 ∧ oddSlider.maxLen = 3 := by
  have hmin : oddSlider.mMin = 0 := by decide
  have hmax : oddSlider.mMax = 100 := by decide
  have htouch : oddSlider.newVal 85 = some 101 := by
    have hplace : oddSlider.place 85 = 81 := by decide
    have hscale : oddSlider.scale (101 : ℤ) = oddSlider.mMin + 101 :=
      scale_exact (by rw [hmin]; decide) (by rw [hmin, hmax]; decide) (by rw [hmin, hmax]; decide)
        (by decide) (by rw [hmin]; decide)
    have hpct : toFloat (101 : ℤ) = (101 : ℤ) := toFloat_intCast (by decide)
    have hquotient : (81 * 100 : ℤ).tdiv (oddSlider.mLineW - oddSlider.mSliderW) = 101 := by decide
    rw [newVal_eq, hplace, asInt_eq (by decide) (by decide), Option.bind_some, hquotient, hpct,
      Slider.valueFromPct, hscale, hmin, hmax]
    rfl
  refine ⟨fun value hvalue => by simp at hvalue, fun h => ?_, fun h => ?_, htouch, by decide⟩
  · obtain ⟨v, hv, -, hle⟩ := h.touched ⟨by decide, by decide⟩
    rw [htouch] at hv
    cases hv
    rw [hmax] at hle
    exact absurd hle (by decide)
  · have hvalue := h.changesInRange ['1', '0', '0', '0'] (List.mem_singleton_self _)
    rw [hmax] at hvalue
    exact absurd hvalue.2 (by decide)

end BootableRecovery.Gui
