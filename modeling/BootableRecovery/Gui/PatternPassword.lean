import BootableRecovery.Lib.Loop
import BootableRecovery.Lib.Text
import Mathlib.Algebra.Order.Ring.Abs
import Mathlib.Data.List.Nodup
import Mathlib.Data.List.Perm.Subperm
import Mathlib.Tactic.Linarith
import Mathlib.Tactic.Ring

namespace BootableRecovery.Gui
open Lib

/-! `GUIPatternPassword`: the dots of a grid are connected by touch. -/

inductive TouchState
  | start
  | drag
  | hold
  | repeated
  | release
  deriving DecidableEq, Repr

/-- A touch, with the result of `isConditionTrue`. -/
structure Touch where
  condition : Bool
  state : TouchState
  x : ℤ
  y : ℤ

structure Dot where
  x : ℤ
  y : ℤ
  active : Bool
  deriving DecidableEq, Repr

/-- The members that stay as they are: placement, dot size, and whether a variable is set. -/
structure PatternLayout where
  gridSize : ℕ
  renderX : ℤ
  renderY : ℤ
  renderW : ℤ
  renderH : ℤ
  dotRadius : ℤ
  passVar : Bool
  sdkVersion : ℕ

/-- `stored` is the value of the pattern's variable. -/
structure PatternPassword where
  dots : List Dot
  connectedDots : List ℤ
  curLineX : ℤ
  curLineY : ℤ
  trackingTouch : Bool
  needRender : Bool
  stored : Option Text

namespace PatternPassword

variable (g : PatternLayout) (s : PatternPassword)

def resetActiveDots : PatternPassword :=
  { s with
    connectedDots := []
    curLineX := -1
    curLineY := -1
    dots := s.dots.map fun dot => { dot with active := false } }

/-- The dots row by row: dot `gridSize * r + c` is in row `r` and column `c`. -/
def dotPositions : List Dot :=
  let stepX := (g.renderW - g.dotRadius * 2).tdiv (g.gridSize - 1)
  let stepY := (g.renderH - g.dotRadius * 2).tdiv (g.gridSize - 1)
  (List.range g.gridSize).flatMap fun r => (List.range g.gridSize).map fun c =>
    ⟨g.renderX + c * stepX, g.renderY + r * stepY, false⟩

/-- The object once it is constructed. -/
def initial : PatternPassword where
  dots := dotPositions g
  connectedDots := []
  curLineX := -1
  curLineY := -1
  trackingTouch := false
  needRender := true
  stored := none

def isInCircle (x y ox oy r : ℤ) : Bool := (x - ox) ^ 2 + (y - oy) ^ 2 ≤ r ^ 2

def inDot (x y : ℤ) : ℤ :=
  match s.dots.findIdx? fun dot =>
    isInCircle x y (dot.x + g.dotRadius) (dot.y + g.dotRadius) (g.dotRadius * 3) with
  | some i => i
  | none => -1

def dotUsed (dotIdx : ℤ) : Bool := s.connectedDots.contains dotIdx

def connectDot (dotIdx : ℤ) : PatternPassword :=
  if g.gridSize * g.gridSize ≤ s.connectedDots.length then s
  else
    { s with
      connectedDots := s.connectedDots ++ [dotIdx]
      dots := s.dots.modify dotIdx.toNat fun dot => { dot with active := true } }

/-- A place on the way to the next dot. -/
structure Walk where
  x : ℤ
  y : ℤ
  pattern : PatternPassword

/-- One pass of the loop along an axis. -/
def walkPass (dx dy nx ny : ℤ) (w : Walk) : Walk ⊕ PatternPassword :=
  if (dy = 0 ∨ w.y ≠ ny - dy) ∧ (dx = 0 ∨ w.x ≠ nx - dx) then
    let x := w.x + dx
    let y := w.y + dy
    let idx := g.gridSize * y + x
    .inl ⟨x, y, if w.pattern.dotUsed idx then w.pattern else connectDot g w.pattern idx⟩
  else .inr w.pattern

/-- The loop may make `limit` passes. -/
def connectIntermediateDots (limit : ℕ) (nextDotIdx : ℤ) : Option PatternPassword :=
  match s.connectedDots.getLast? with
  | none => some s
  | some prevDotIdx =>
    let px := prevDotIdx % g.gridSize
    let py := prevDotIdx / g.gridSize
    let nx := nextDotIdx % g.gridSize
    let ny := nextDotIdx / g.gridSize
    let dx := if nx > px then 1 else -1
    let dy := if ny > py then 1 else -1
    if px = nx then loop (walkPass g 0 dy nx ny) limit ⟨px, py, s⟩ -- vertical lines
    else if py = ny then loop (walkPass g dx 0 nx ny) limit ⟨px, py, s⟩ -- horizontal lines
    else if |px - nx| = |py - ny| then loop (walkPass g dx dy nx ny) limit ⟨px, py, s⟩
    else some s

/-- `buffer[0] = (pattern[i] & 0xff) + '1'`, or two hexadecimal digits. -/
def generatePassphrase : Text :=
  if g.gridSize = 3 ∨ 23 ≤ g.sdkVersion then
    s.connectedDots.flatMap fun d => cString [Char.ofNat ((d.toNat % 256 + '1'.toNat) % 256)]
  else
    s.connectedDots.flatMap fun d =>
      [Nat.digitChar (d.toNat % 256 / 16), Nat.digitChar (d.toNat % 16)]

def patternDrawn : PatternPassword :=
  if g.passVar && !s.connectedDots.isEmpty then { s with stored := some (generatePassphrase g s) }
  else s

def notifyTouch (limit : ℕ) (t : Touch) : Option PatternPassword :=
  if !t.condition then some s
  else
    match t.state with
    | .start =>
      let dotIdx := inDot g s t.x t.y
      if dotIdx = -1 then some s
      else
        some { connectDot g (resetActiveDots { s with trackingTouch := true }) dotIdx with
          curLineX := t.x
          curLineY := t.y
          needRender := true }
    | .drag =>
      if !s.trackingTouch then some s
      else
        let dotIdx := inDot g s t.x t.y
        let connected :=
          if dotIdx ≠ -1 ∧ s.dotUsed dotIdx = false then
            (connectIntermediateDots g s limit dotIdx).map fun s' => connectDot g s' dotIdx
          else some s
        connected.map fun s' => { s' with curLineX := t.x, curLineY := t.y, needRender := true }
    | .release =>
      if !s.trackingTouch then some s
      else
        some (resetActiveDots
          (patternDrawn g { s with needRender := true, trackingTouch := false }))
    | .hold => some s
    | .repeated => some s

/-- A sequence of touches. -/
def run (limit : ℕ) (touches : List Touch) : Option PatternPassword :=
  touches.foldlM (fun s t => notifyTouch g s limit t) (initial g)

end PatternPassword

section geometry
variable {n : ℕ} {a b c : ℤ} {l : List ℤ}

/-- `c` is a dot strictly between two others on a horizontal, vertical or 45-degree line. -/
def Between (n : ℕ) (a b c : ℤ) : Prop :=
  (0 ≤ c ∧ c < n * n) ∧ ∃ ux uy k m : ℤ, |ux| ≤ 1 ∧ |uy| ≤ 1 ∧ (ux ≠ 0 ∨ uy ≠ 0) ∧ 0 < k ∧ k < m ∧
    (c % n = a % n + k * ux ∧ c / n = a / n + k * uy) ∧
    (b % n = a % n + m * ux ∧ b / n = a / n + m * uy)

/-- What a list of connected dots is: no dot is there twice, all are in the grid, and dots on the
way from one to the next were connected earlier. -/
structure Connected (n : ℕ) (l : List ℤ) : Prop where
  nodup : l.Nodup
  inGrid : ∀ d ∈ l, 0 ≤ d ∧ d < n * n
  between : ∀ before a b after, l = before ++ a :: b :: after →
    ∀ c, Between n a b c → c ∈ before

theorem Between.ne (h : Between n a b c) : c ≠ a := by
  rintro rfl
  obtain ⟨-, ux, uy, k, m, -, -, hu, hk, -, ⟨hx, hy⟩, -⟩ := h
  have hx' : k * ux = 0 := by omega
  have hy' : k * uy = 0 := by omega
  rcases hu with hu | hu
  · exact (mul_ne_zero hk.ne' hu) hx'
  · exact (mul_ne_zero hk.ne' hu) hy'

theorem connected_nil : Connected n [] where
  nodup := List.nodup_nil
  inGrid d hd := absurd hd List.not_mem_nil
  between before a b after h := by
    have := congrArg List.length h
    simp at this

/-- A new dot may be connected when all between the last one and it are. -/
theorem Connected.concat (h : Connected n l) {r : ℤ} (hr : 0 ≤ r ∧ r < n * n) (hnew : r ∉ l)
    (hbetween : ∀ q ∈ l.getLast?, ∀ c, Between n q r c → c ∈ l) : Connected n (l ++ [r]) where
  nodup := by simpa [List.nodup_append] using ⟨h.nodup, fun a ha heq => hnew (heq ▸ ha)⟩
  inGrid d hd := by
    rcases List.mem_append.mp hd with hd | hd
    · exact h.inGrid d hd
    · rwa [List.mem_singleton.mp hd]
  between before a b after heq c hc := by
    rcases List.eq_nil_or_concat after with rfl | ⟨after, d, rfl⟩
    · have heq' : l ++ [r] = (before ++ [a]) ++ [b] := by simpa using heq
      obtain ⟨rfl, hb⟩ := List.append_inj' heq' rfl
      obtain rfl : r = b := by simpa using hb
      have hmem := hbetween a (by simp) c hc
      simpa [hc.ne] using hmem
    · have heq' : l ++ [r] = (before ++ a :: b :: after) ++ [d] := by simpa using heq
      obtain ⟨rfl, -⟩ := List.append_inj' heq' rfl
      exact h.between before a b after rfl c hc

/-- There are no more dots than the grid has. -/
theorem Connected.length_le (h : Connected n l) : l.length ≤ n * n := by
  have hnodup : (l.map Int.toNat).Nodup := by
    refine List.Nodup.map_on (fun a ha b hb heq => ?_) h.nodup
    have := h.inGrid a ha
    have := h.inGrid b hb
    omega
  have hsub : l.map Int.toNat ⊆ List.range (n * n) := by
    intro d hd
    obtain ⟨e, he, rfl⟩ := List.mem_map.mp hd
    have := h.inGrid e he
    rw [List.mem_range]
    have hcast : ((n * n : ℕ) : ℤ) = n * n := by push_cast; ring
    omega
  have hlen := (hnodup.subperm hsub).length_le
  rwa [List.length_map, List.length_range] at hlen

/-- The dot `i` steps from a place. -/
def pathDot (n : ℕ) (px py ux uy i : ℤ) : ℤ := n * (py + i * uy) + (px + i * ux)

/-- A walk of `m` steps over the grid. -/
structure Path (n : ℕ) (px py ux uy m : ℤ) : Prop where
  stepX : |ux| ≤ 1
  stepY : |uy| ≤ 1
  moves : ux ≠ 0 ∨ uy ≠ 0
  positive : 0 < m
  fromX : 0 ≤ px ∧ px < n
  fromY : 0 ≤ py ∧ py < n
  toX : 0 ≤ px + m * ux ∧ px + m * ux < n
  toY : 0 ≤ py + m * uy ∧ py + m * uy < n

variable {px py ux uy m i j : ℤ}

/-- A coordinate stays between its first and its last value. -/
theorem coordinate_mem {p u : ℤ} (hu : |u| ≤ 1) (hp : 0 ≤ p ∧ p < n)
    (hm : 0 ≤ p + m * u ∧ p + m * u < n) (hi : 0 ≤ i ∧ i ≤ m) : 0 ≤ p + i * u ∧ p + i * u < n := by
  rw [abs_le] at hu
  obtain rfl | rfl | rfl : u = -1 ∨ u = 0 ∨ u = 1 := by omega
  all_goals omega

theorem Path.pathDot_mod (h : Path n px py ux uy m) (hi : 0 ≤ i ∧ i ≤ m) :
    pathDot n px py ux uy i % n = px + i * ux := by
  have hx := coordinate_mem h.stepX h.fromX h.toX hi
  rw [pathDot, Int.mul_add_emod_self_left, Int.emod_eq_of_lt hx.1 hx.2]

theorem Path.pathDot_div (h : Path n px py ux uy m) (hi : 0 ≤ i ∧ i ≤ m) :
    pathDot n px py ux uy i / n = py + i * uy := by
  have hx := coordinate_mem h.stepX h.fromX h.toX hi
  rw [pathDot, Int.mul_add_ediv_left _ _ (by omega), Int.ediv_eq_zero_of_lt hx.1 hx.2, add_zero]

theorem Path.pathDot_mem (h : Path n px py ux uy m) (hi : 0 ≤ i ∧ i ≤ m) :
    0 ≤ pathDot n px py ux uy i ∧ pathDot n px py ux uy i < n * n := by
  have hx := coordinate_mem h.stepX h.fromX h.toX hi
  have hy := coordinate_mem h.stepY h.fromY h.toY hi
  rw [pathDot]
  constructor <;> nlinarith

theorem eq_pathDot (hx : c % n = px + i * ux) (hy : c / n = py + i * uy) :
    c = pathDot n px py ux uy i := by
  rw [pathDot, ← hx, ← hy, Int.mul_ediv_add_emod]

theorem Path.pathDot_ne (h : Path n px py ux uy m) (hi : 0 ≤ i ∧ i < m) :
    pathDot n px py ux uy i ≠ pathDot n px py ux uy m := by
  intro heq
  have hm : 0 ≤ m ∧ m ≤ m := ⟨h.positive.le, le_refl m⟩
  have hx := congrArg (· % (n : ℤ)) heq
  have hy := congrArg (· / (n : ℤ)) heq
  simp only [h.pathDot_mod ⟨hi.1, hi.2.le⟩, h.pathDot_mod hm, h.pathDot_div ⟨hi.1, hi.2.le⟩,
    h.pathDot_div hm] at hx hy
  rcases h.moves with hu | hu
  · exact hi.2.ne (mul_right_cancel₀ hu (by linarith))
  · exact hi.2.ne (mul_right_cancel₀ hu (by linarith))

/-- Unit steps that lead equally far are equal. -/
theorem step_eq {d t u v : ℤ} (hu : |u| ≤ 1) (hv : |v| ≤ 1) (hd : 0 < d) (ht : 0 < t)
    (h : d * u = t * v) : u = v ∧ (u ≠ 0 → d = t) := by
  rw [abs_le] at hu hv
  obtain rfl | rfl | rfl : u = -1 ∨ u = 0 ∨ u = 1 := by omega
  all_goals
    obtain rfl | rfl | rfl : v = -1 ∨ v = 0 ∨ v = 1 := by omega
    all_goals omega

/-- What lies between two dots of a walk are the dots of the walk between them. -/
theorem Path.between (h : Path n px py ux uy m) (hj : 0 ≤ j ∧ j ≤ i) (hi : i ≤ m)
    (hc : Between n (pathDot n px py ux uy j) (pathDot n px py ux uy i) c) :
    ∃ k, j < k ∧ k < i ∧ c = pathDot n px py ux uy k := by
  obtain ⟨-, vx, vy, k, t, hvx, hvy, hv, hk, hkt, ⟨hcx, hcy⟩, hbx, hby⟩ := hc
  rw [h.pathDot_mod ⟨hj.1, hj.2.trans hi⟩] at hcx hbx
  rw [h.pathDot_div ⟨hj.1, hj.2.trans hi⟩] at hcy hby
  rw [h.pathDot_mod ⟨hj.1.trans hj.2, hi⟩] at hbx
  rw [h.pathDot_div ⟨hj.1.trans hj.2, hi⟩] at hby
  have hx : (i - j) * ux = t * vx := by linarith
  have hy : (i - j) * uy = t * vy := by linarith
  have ht : 0 < t := hk.trans hkt
  have hpos : 0 < i - j := by
    rcases hj.2.eq_or_lt with rfl | hlt
    · simp only [sub_self, zero_mul, zero_eq_mul, ht.ne', false_or] at hx hy
      exact absurd hv (by simp [hx, hy])
    · omega
  obtain ⟨rfl, htx⟩ := step_eq h.stepX hvx hpos ht hx
  obtain ⟨rfl, hty⟩ := step_eq h.stepY hvy hpos ht hy
  have hlen : i - j = t := h.moves.elim htx hty
  refine ⟨j + k, by omega, by omega, eq_pathDot ?_ ?_⟩
  · rw [hcx]
    ring
  · rw [hcy]
    ring

end geometry

namespace PatternPassword
variable {g : PatternLayout} {s : PatternPassword}

/-- What holds between touches. -/
structure Inv (g : PatternLayout) (s : PatternPassword) : Prop where
  dots : s.dots.length = g.gridSize * g.gridSize
  connected : Connected g.gridSize s.connectedDots

theorem inv_initial : Inv g (initial g) where
  dots := by simp [initial, dotPositions, List.length_flatMap]
  connected := connected_nil

theorem Inv.resetActiveDots (h : Inv g s) : Inv g s.resetActiveDots where
  dots := by simpa [PatternPassword.resetActiveDots] using h.dots
  connected := connected_nil

theorem inDot_mem (h : Inv g s) {x y : ℤ} (hdot : inDot g s x y ≠ -1) :
    0 ≤ inDot g s x y ∧ inDot g s x y < g.gridSize * g.gridSize := by
  unfold inDot at hdot ⊢
  split at hdot
  · rename_i i hi
    have hlt := List.findIdx?_eq_some_iff_findIdx_eq.mp hi
    rw [h.dots] at hlt
    have hcast : ((g.gridSize * g.gridSize : ℕ) : ℤ) = g.gridSize * g.gridSize := by push_cast; ring
    omega
  · exact absurd rfl hdot

theorem dotUsed_eq {d : ℤ} : s.dotUsed d = decide (d ∈ s.connectedDots) := by
  simp [dotUsed]

/-- A dot that is not there yet is connected: the array has room for it. -/
theorem connectDot_new (h : Inv g s) {r : ℤ} (hr : 0 ≤ r ∧ r < g.gridSize * g.gridSize)
    (hnew : r ∉ s.connectedDots)
    (hbetween : ∀ q ∈ s.connectedDots.getLast?, ∀ c, Between g.gridSize q r c →
      c ∈ s.connectedDots) :
    Inv g (connectDot g s r) ∧ (connectDot g s r).connectedDots = s.connectedDots ++ [r] := by
  have hconn := h.connected.concat hr hnew hbetween
  have hlen := hconn.length_le
  rw [List.length_append, List.length_singleton] at hlen
  unfold connectDot
  rw [if_neg (by omega)]
  exact ⟨⟨by simpa using h.dots, hconn⟩, rfl⟩

/-- The walk has come `k` of its `m` steps far: the dots up to here are connected, one of them at
the end of the list, and the dot that the walk leads to is not. -/
structure Walking (g : PatternLayout) (px py ux uy m k : ℤ) (w : Walk) : Prop where
  placeX : w.x = px + k * ux
  placeY : w.y = py + k * uy
  inv : Inv g w.pattern
  used : ∀ i, 0 ≤ i → i ≤ k → pathDot g.gridSize px py ux uy i ∈ w.pattern.connectedDots
  last : ∃ j, 0 ≤ j ∧ j ≤ k ∧
    w.pattern.connectedDots.getLast? = some (pathDot g.gridSize px py ux uy j)
  fresh : pathDot g.gridSize px py ux uy m ∉ w.pattern.connectedDots

section walk
variable {px py ux uy m k : ℤ} {w : Walk}

theorem Walking.between (hw : Walking g px py ux uy m k w) (hp : Path g.gridSize px py ux uy m)
    (hkm : k < m) (q : ℤ) (hq : q ∈ w.pattern.connectedDots.getLast?) (c : ℤ)
    (hc : Between g.gridSize q (pathDot g.gridSize px py ux uy (k + 1)) c) :
    c ∈ w.pattern.connectedDots := by
  obtain ⟨j, hj, hjk, hlast⟩ := hw.last
  rw [hlast, Option.mem_some_iff] at hq
  subst hq
  obtain ⟨i, hji, hik, rfl⟩ := hp.between ⟨hj, by omega⟩ (by omega) hc
  exact hw.used i (by omega) (by omega)

/-- A pass before the last dot but one. -/
theorem Walking.pass (hw : Walking g px py ux uy m k w) (hp : Path g.gridSize px py ux uy m)
    (hk : 0 ≤ k) (hkm : k + 1 < m) : ∃ w',
      walkPass g ux uy (px + m * ux) (py + m * uy) w = .inl w' ∧
        Walking g px py ux uy m (k + 1) w' := by
  have hgo : (uy = 0 ∨ w.y ≠ py + m * uy - uy) ∧ (ux = 0 ∨ w.x ≠ px + m * ux - ux) := by
    have hsteps : ∀ u : ℤ, u = 0 ∨ k * u ≠ m * u - u := by
      intro u
      rcases eq_or_ne u 0 with hu | hu
      · exact .inl hu
      · refine .inr fun heq => ?_
        have hzero : (m - 1 - k) * u = 0 := by linarith
        rcases mul_eq_zero.mp hzero with h | h
        · omega
        · exact hu h
    rw [hw.placeX, hw.placeY]
    exact ⟨(hsteps uy).imp_right fun h heq => h (by linarith),
      (hsteps ux).imp_right fun h heq => h (by linarith)⟩
  have hx : w.x + ux = px + (k + 1) * ux := by
    rw [hw.placeX]
    ring
  have hy : w.y + uy = py + (k + 1) * uy := by
    rw [hw.placeY]
    ring
  have hdot : g.gridSize * (py + (k + 1) * uy) + (px + (k + 1) * ux) =
      pathDot g.gridSize px py ux uy (k + 1) := rfl
  refine ⟨_, by rw [walkPass, if_pos hgo], ?_⟩
  rw [hx, hy, hdot, dotUsed_eq]
  by_cases hmem : pathDot g.gridSize px py ux uy (k + 1) ∈ w.pattern.connectedDots
  · rw [decide_eq_true hmem, if_pos rfl]
    obtain ⟨j, hj, hjk, hlast⟩ := hw.last
    refine ⟨rfl, rfl, hw.inv, fun i hi hik => ?_, ⟨j, hj, by omega, hlast⟩, hw.fresh⟩
    rcases hik.eq_or_lt with rfl | hlt
    · exact hmem
    · exact hw.used i hi (by omega)
  · rw [decide_eq_false hmem, if_neg Bool.false_ne_true]
    obtain ⟨hinv, hlist⟩ := connectDot_new hw.inv (hp.pathDot_mem ⟨by omega, by omega⟩) hmem
      (hw.between hp (by omega))
    refine ⟨rfl, rfl, hinv, fun i hi hik => ?_, ⟨k + 1, by omega, le_refl _, ?_⟩, ?_⟩
    · rw [hlist, List.mem_append, List.mem_singleton]
      rcases hik.eq_or_lt with rfl | hlt
      · exact .inr rfl
      · exact .inl (hw.used i hi (by omega))
    · rw [hlist, List.getLast?_concat]
    · rw [hlist, List.mem_append, List.mem_singleton]
      exact not_or_intro hw.fresh (hp.pathDot_ne ⟨by omega, hkm⟩).symm

/-- The walk ends on the last dot but one, after as many passes as it has steps to go. -/
theorem Walking.loop (hp : Path g.gridSize px py ux uy m) (n limit : ℕ) (hk : 0 ≤ k)
    (hn : k + n + 1 = m) (hlimit : n < limit) (hw : Walking g px py ux uy m k w) :
    ∃ w', loop (walkPass g ux uy (px + m * ux) (py + m * uy)) limit w = some w'.pattern ∧
      Walking g px py ux uy m (m - 1) w' := by
  induction n generalizing k limit w with
  | zero =>
    obtain ⟨limit, rfl⟩ : ∃ l, limit = l + 1 := ⟨limit - 1, by omega⟩
    obtain rfl : k = m - 1 := by omega
    have hstop : ¬((uy = 0 ∨ w.y ≠ py + m * uy - uy) ∧ (ux = 0 ∨ w.x ≠ px + m * ux - ux)) := by
      rw [hw.placeX, hw.placeY]
      rintro ⟨hy, hx⟩
      rcases hp.moves with hu | hu
      · exact (hx.resolve_left hu) (by ring)
      · exact (hy.resolve_left hu) (by ring)
    exact ⟨w, by rw [Lib.loop, walkPass, if_neg hstop], hw⟩
  | succ n ih =>
    obtain ⟨limit, rfl⟩ : ∃ l, limit = l + 1 := ⟨limit - 1, by omega⟩
    obtain ⟨w', hpass, hw'⟩ := hw.pass hp hk (by omega)
    obtain ⟨w'', hloop, hw''⟩ := ih limit (by omega) (by omega) (by omega) hw'
    exact ⟨w'', by rw [Lib.loop, hpass]; exact hloop, hw''⟩

end walk

/-- The steps from one dot to another that is on a line with it. -/
theorem exists_path {n : ℕ} {prev next : ℤ} (hprev : 0 ≤ prev ∧ prev < n * n)
    (hnext : 0 ≤ next ∧ next < n * n) {ux uy m : ℤ} (hux : |ux| ≤ 1) (huy : |uy| ≤ 1)
    (hm : 0 < m) (hmoves : ux ≠ 0 ∨ uy ≠ 0) (hx : next % n = prev % n + m * ux)
    (hy : next / n = prev / n + m * uy) : Path n (prev % n) (prev / n) ux uy m := by
  have hn : (0 : ℤ) < n := by
    rcases Int.lt_or_le 0 (n : ℤ) with h | h
    · exact h
    · have : (n : ℤ) = 0 := by omega
      rw [this] at hprev
      omega
  have hdiv : ∀ d : ℤ, 0 ≤ d ∧ d < n * n → 0 ≤ d / n ∧ d / n < n := fun d hd =>
    ⟨Int.ediv_nonneg hd.1 hn.le, Int.ediv_lt_of_lt_mul hn hd.2⟩
  have hmod : ∀ d : ℤ, 0 ≤ d % n ∧ d % n < n := fun d =>
    ⟨Int.emod_nonneg d hn.ne', Int.emod_lt_of_pos d hn⟩
  exact ⟨hux, huy, hmoves, hm, hmod prev, hdiv prev hprev, hx ▸ hmod next, hy ▸ hdiv next hnext⟩

theorem pathDot_zero {n : ℕ} {d ux uy : ℤ} : pathDot n (d % n) (d / n) ux uy 0 = d := by
  rw [pathDot, zero_mul, zero_mul, add_zero, add_zero, Int.mul_ediv_add_emod]

/-- The dots on the way are connected, and then the dot itself can be. -/
theorem connect_along (h : Inv g s) {prev ux uy m : ℤ} {limit : ℕ}
    (hlast : s.connectedDots.getLast? = some prev)
    (hp : Path g.gridSize (prev % g.gridSize) (prev / g.gridSize) ux uy m) (hlimit : m ≤ limit)
    (hnew : pathDot g.gridSize (prev % g.gridSize) (prev / g.gridSize) ux uy m ∉
      s.connectedDots) :
    ∃ s', loop (walkPass g ux uy (prev % g.gridSize + m * ux) (prev / g.gridSize + m * uy)) limit
        ⟨prev % g.gridSize, prev / g.gridSize, s⟩ = some s' ∧
      Inv g (connectDot g s'
        (pathDot g.gridSize (prev % g.gridSize) (prev / g.gridSize) ux uy m)) := by
  have hpos := hp.positive
  have hstart : Walking g (prev % g.gridSize) (prev / g.gridSize) ux uy m 0
      ⟨prev % g.gridSize, prev / g.gridSize, s⟩ := by
    refine ⟨by simp, by simp, h, fun i hi hi0 => ?_, ⟨0, le_refl _, le_refl _, ?_⟩, hnew⟩
    · obtain rfl : i = 0 := by omega
      rw [pathDot_zero]
      exact List.mem_of_getLast? hlast
    · rw [pathDot_zero]
      exact hlast
  obtain ⟨w, hloop, hw⟩ := hstart.loop hp (m - 1).toNat limit (le_refl _) (by omega) (by omega)
  refine ⟨w.pattern, hloop, ?_⟩
  have hbetween := hw.between hp (by omega)
  rw [sub_add_cancel] at hbetween
  exact (connectDot_new hw.inv (hp.pathDot_mem ⟨hpos.le, le_refl _⟩) hw.fresh hbetween).1

/-- A walk in the direction the code computes ends on the next dot. -/
theorem connect_steps (h : Inv g s) {prev next ux uy m : ℤ} {limit : ℕ}
    (hlast : s.connectedDots.getLast? = some prev)
    (hnext : 0 ≤ next ∧ next < g.gridSize * g.gridSize) (hnew : next ∉ s.connectedDots)
    (hux : |ux| ≤ 1) (huy : |uy| ≤ 1) (hm : 0 < m) (hmoves : ux ≠ 0 ∨ uy ≠ 0)
    (hx : next % g.gridSize = prev % g.gridSize + m * ux)
    (hy : next / g.gridSize = prev / g.gridSize + m * uy) (hlimit : g.gridSize ≤ limit) :
    ∃ s', loop (walkPass g ux uy (next % g.gridSize) (next / g.gridSize)) limit
      ⟨prev % g.gridSize, prev / g.gridSize, s⟩ = some s' ∧ Inv g (connectDot g s' next) := by
  have hprev := h.connected.inGrid prev (List.mem_of_getLast? hlast)
  have hp := exists_path hprev hnext hux huy hm hmoves hx hy
  have hdot : next = pathDot g.gridSize (prev % g.gridSize) (prev / g.gridSize) ux uy m :=
    eq_pathDot hx hy
  have hfits : m ≤ limit := by
    have h1 := hp.fromX
    have h2 := hp.fromY
    have h3 := hp.toX
    have h4 := hp.toY
    rw [abs_le] at hux huy
    obtain rfl | rfl | rfl : ux = -1 ∨ ux = 0 ∨ ux = 1 := by omega
    all_goals
      obtain rfl | rfl | rfl : uy = -1 ∨ uy = 0 ∨ uy = 1 := by omega
      all_goals omega
  rw [hdot] at hnew
  obtain ⟨s', hloop, hinv⟩ := connect_along h hlast hp hfits hnew
  rw [← hx, ← hy] at hloop
  rw [← hdot] at hinv
  exact ⟨s', hloop, hinv⟩

/-- A sign and a distance. -/
theorem exists_steps {p q : ℤ} (h : p ≠ q) :
    ∃ m, 0 < m ∧ m = |p - q| ∧ q = p + m * (if q > p then 1 else -1) := by
  refine ⟨|p - q|, abs_pos.mpr (sub_ne_zero.mpr h), rfl, ?_⟩
  split_ifs with hlt
  · rw [abs_of_neg (by omega)]
    ring
  · rw [abs_of_nonneg (by omega)]
    ring

theorem abs_sign_le (P : Prop) [Decidable P] : |if P then (1 : ℤ) else -1| ≤ 1 := by
  split_ifs <;> decide

theorem sign_ne_zero (P : Prop) [Decidable P] : (if P then (1 : ℤ) else -1) ≠ 0 := by
  split_ifs <;> decide

/-- No dot lies between two that are on no line. -/
theorem not_between {n : ℕ} {a b c : ℤ} (hx : a % n ≠ b % n) (hy : a / n ≠ b / n)
    (hd : |a % n - b % n| ≠ |a / n - b / n|) : ¬Between n a b c := by
  rintro ⟨-, ux, uy, k, m, hux, huy, -, -, -, -, hbx, hby⟩
  rw [abs_le] at hux huy
  rw [hbx, hby] at hd
  rw [hbx] at hx
  rw [hby] at hy
  obtain rfl | rfl | rfl : ux = -1 ∨ ux = 0 ∨ ux = 1 := by omega
  all_goals
    obtain rfl | rfl | rfl : uy = -1 ∨ uy = 0 ∨ uy = 1 := by omega
    all_goals simp at hx hy hd

/-- The loop along the axis ends for every two dots, on the last dot before the next one. -/
theorem connectIntermediateDots_inv (h : Inv g s) {next : ℤ} {limit : ℕ}
    (hnext : 0 ≤ next ∧ next < g.gridSize * g.gridSize) (hnew : next ∉ s.connectedDots)
    (hlimit : g.gridSize ≤ limit) :
    ∃ s', connectIntermediateDots g s limit next = some s' ∧ Inv g (connectDot g s' next) := by
  unfold connectIntermediateDots
  rcases hlast : s.connectedDots.getLast? with _ | prev
  · refine ⟨s, rfl, (connectDot_new h hnext hnew fun q hq => ?_).1⟩
    rw [hlast] at hq
    cases hq
  dsimp only
  have hprev := h.connected.inGrid prev (List.mem_of_getLast? hlast)
  have hne : next ≠ prev := fun heq => hnew (heq ▸ List.mem_of_getLast? hlast)
  by_cases hcol : prev % g.gridSize = next % g.gridSize
  · rw [if_pos hcol]
    have hrows : prev / g.gridSize ≠ next / g.gridSize := fun heq => hne <| by
      rw [← Int.mul_ediv_add_emod next g.gridSize, ← Int.mul_ediv_add_emod prev g.gridSize, hcol,
        heq]
    obtain ⟨m, hm, -, hy⟩ := exists_steps hrows
    exact connect_steps h hlast hnext hnew (by simp) (abs_sign_le _) hm (.inr (sign_ne_zero _))
      (by simp [hcol]) hy hlimit
  rw [if_neg hcol]
  by_cases hrow : prev / g.gridSize = next / g.gridSize
  · rw [if_pos hrow]
    obtain ⟨m, hm, -, hx⟩ := exists_steps hcol
    exact connect_steps h hlast hnext hnew (abs_sign_le _) (by simp) hm (.inl (sign_ne_zero _)) hx
      (by simp [hrow]) hlimit
  rw [if_neg hrow]
  by_cases hdiag : |prev % g.gridSize - next % g.gridSize| = |prev / g.gridSize - next / g.gridSize|
  · rw [if_pos hdiag]
    obtain ⟨m, hm, hmx, hx⟩ := exists_steps hcol
    obtain ⟨m', -, hmy, hy⟩ := exists_steps hrow
    obtain rfl : m = m' := by rw [hmx, hmy, hdiag]
    exact connect_steps h hlast hnext hnew (abs_sign_le _) (abs_sign_le _) hm
      (.inl (sign_ne_zero _)) hx hy hlimit
  · rw [if_neg hdiag]
    refine ⟨s, rfl, (connectDot_new h hnext hnew fun q hq c hc => ?_).1⟩
    rw [hlast, Option.mem_some_iff] at hq
    exact absurd (hq ▸ hc) (not_between hcol hrow hdiag)

theorem Inv.notifyTouch (h : Inv g s) {limit : ℕ} (hlimit : g.gridSize ≤ limit) (t : Touch) :
    ∃ s', notifyTouch g s limit t = some s' ∧ Inv g s' := by
  unfold PatternPassword.notifyTouch
  by_cases hcond : (!t.condition) = true
  · rw [if_pos hcond]
    exact ⟨s, rfl, h⟩
  rw [if_neg hcond]
  rcases t.state with _ | _ | _ | _ | _
  · -- start
    dsimp only
    split_ifs with hdot
    · exact ⟨s, rfl, h⟩
    · refine ⟨_, rfl, ?_⟩
      have hreset : Inv g (PatternPassword.resetActiveDots { s with trackingTouch := true }) :=
        Inv.resetActiveDots ⟨h.dots, h.connected⟩
      have hconn := (connectDot_new hreset (inDot_mem h hdot) List.not_mem_nil
        fun q hq => by cases hq).1
      exact ⟨hconn.dots, hconn.connected⟩
  · -- drag
    dsimp only
    split_ifs with htrack hdot
    · exact ⟨s, rfl, h⟩
    · have hnew : inDot g s t.x t.y ∉ s.connectedDots := by
        simpa [dotUsed_eq] using hdot.2
      obtain ⟨s', hs', hinv⟩ := connectIntermediateDots_inv h (inDot_mem h hdot.1) hnew hlimit
      rw [hs']
      exact ⟨_, rfl, hinv.dots, hinv.connected⟩
    · exact ⟨_, rfl, h.dots, h.connected⟩
  · exact ⟨s, rfl, h⟩
  · exact ⟨s, rfl, h⟩
  · -- release
    dsimp only
    split_ifs with htrack
    · exact ⟨s, rfl, h⟩
    · refine ⟨_, rfl, Inv.resetActiveDots ?_⟩
      unfold patternDrawn
      split_ifs <;> exact ⟨h.dots, h.connected⟩

/-- After any touches the connected dots are distinct dots of the grid with nothing left out
between them, and the loops have ended. -/
theorem run_connected (g : PatternLayout) (touches : List Touch) {limit : ℕ}
    (hlimit : g.gridSize ≤ limit) : ∃ s, run g limit touches = some s ∧
      Connected g.gridSize s.connectedDots ∧
      s.connectedDots.length ≤ g.gridSize * g.gridSize := by
  have hall : ∀ s, Inv g s → ∃ s', touches.foldlM (fun s t => notifyTouch g s limit t) s = some s' ∧
      Inv g s' := by
    induction touches with
    | nil => exact fun s hs => ⟨s, rfl, hs⟩
    | cons t touches ih =>
      intro s hs
      obtain ⟨s', hs', hinv⟩ := hs.notifyTouch hlimit t
      rw [List.foldlM_cons, hs']
      exact ih s' hinv
  obtain ⟨s, hs, hinv⟩ := hall (initial g) inv_initial
  exact ⟨s, hs, hinv.connected, hinv.connected.length_le⟩

/-- A 3x3 grid with dots at 0, 90 and 180. -/
def threeByThree : PatternLayout where
  gridSize := 3
  renderX := 0
  renderY := 0
  renderW := 200
  renderH := 200
  dotRadius := 10
  passVar := true
  sdkVersion := 30

/-- From the first dot straight to the last one of its row. -/
def firstRow : List Touch := [⟨true, .start, 10, 10⟩, ⟨true, .drag, 190, 10⟩]

example : (run threeByThree 3 firstRow).map connectedDots = some [0, 1, 2] := by decide

theorem run_connected_threeByThree : ∃ s, run threeByThree 3 firstRow = some s ∧
    Connected 3 s.connectedDots ∧ s.connectedDots.length ≤ 3 * 3 :=
  run_connected threeByThree firstRow (Nat.le_refl 3)

end PatternPassword
end BootableRecovery.Gui
