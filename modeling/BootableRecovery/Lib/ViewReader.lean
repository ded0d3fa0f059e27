import Mathlib.Data.List.Basic
import Mathlib.Order.Nat

namespace BootableRecovery.Lib

/-! Readers that walk a view of memory: what they read, and where they stop. -/

/-- `length` addresses from `start` on. -/
structure ByteView where
  start : ℕ
  length : ℕ
  deriving DecidableEq, Repr

namespace ByteView

def stop (v : ByteView) : ℕ := v.start + v.length

/-- The view without its first `n` addresses. -/
def advance (v : ByteView) (n : ℕ) : ByteView := ⟨v.start + n, v.length - n⟩

/-- The view is what is left of `w` at its end. -/
def RestOf (v w : ByteView) : Prop := w.start ≤ v.start ∧ v.stop = w.stop

/-- The view is a part of `w`. -/
def PartOf (v w : ByteView) : Prop := w.start ≤ v.start ∧ v.stop ≤ w.stop

def Has (v : ByteView) (address : ℕ) : Prop := v.start ≤ address ∧ address < v.stop

variable {u v w : ByteView} {address n : ℕ}

theorem RestOf.refl (v : ByteView) : v.RestOf v := ⟨le_rfl, rfl⟩

theorem RestOf.trans (h : u.RestOf v) (h' : v.RestOf w) : u.RestOf w :=
  ⟨h'.1.trans h.1, h.2.trans h'.2⟩

theorem RestOf.partOf (h : v.RestOf w) : v.PartOf w := ⟨h.1, h.2.le⟩

theorem RestOf.length_le (h : v.RestOf w) : v.length ≤ w.length := by
  have hstart := h.1
  have hstop := h.2
  simp only [stop] at hstop
  omega

theorem PartOf.trans (h : u.PartOf v) (h' : v.PartOf w) : u.PartOf w :=
  ⟨h'.1.trans h.1, h.2.trans h'.2⟩

theorem advance_restOf (h : n ≤ v.length) : (v.advance n).RestOf v := by
  simp only [RestOf, advance, stop]
  omega

/-- The first `n` addresses of a view. -/
theorem partOf_of_le (h : n ≤ v.length) : (ByteView.mk v.start n).PartOf v := by
  simp only [PartOf, stop]
  omega

end ByteView

/-- An address that is read, and the view at that time. -/
structure ViewRead where
  view : ByteView
  address : ℕ
  deriving DecidableEq, Repr

/-- The result, the view that is left and what has been read. -/
abbrev ViewReader (α : Type) := ByteView → α × ByteView × List ViewRead

namespace ViewReader
variable {α β : Type}

def pure (a : α) : ViewReader α := fun v => (a, v, [])

def bind (x : ViewReader α) (f : α → ViewReader β) : ViewReader β := fun v =>
  let r := x v
  let s := f r.1 r.2.1
  (s.1, s.2.1, r.2.2 ++ s.2.2)

/-- The reader goes forward, and reads inside the view it has at the time. -/
structure Contained (r : α × ByteView × List ViewRead) (v : ByteView) : Prop where
  rest : r.2.1.RestOf v
  reads : ∀ read ∈ r.2.2, read.view.RestOf v ∧ read.view.Has read.address

/-- It does so from every view. -/
def Safe (x : ViewReader α) : Prop := ∀ v, Contained (x v) v

variable {x : ViewReader α} {f : α → ViewReader β} {v w : ByteView}
  {r : α × ByteView × List ViewRead}

theorem contained_of_no_reads {a : α} (h : w.RestOf v) : Contained (a, w, []) v :=
  ⟨h, fun _ hread => absurd hread List.not_mem_nil⟩

theorem safe_pure (a : α) : Safe (pure a) := fun v => contained_of_no_reads (.refl v)

theorem Contained.mono (h : Contained r w) (hw : w.RestOf v) : Contained r v :=
  ⟨h.rest.trans hw, fun read hread => ⟨(h.reads read hread).1.trans hw, (h.reads read hread).2⟩⟩

theorem contained_bind (hx : Contained (x v) v)
    (hf : Contained (f (x v).1 (x v).2.1) (x v).2.1) : Contained (bind x f v) v := by
  have hf' := hf.mono hx.rest
  refine ⟨hf'.rest, fun read hread => ?_⟩
  rcases List.mem_append.mp hread with hread | hread
  · exact hx.reads read hread
  · exact hf'.reads read hread

theorem Safe.bind (hx : Safe x) (hf : ∀ a, Safe (f a)) : Safe (bind x f) := fun v =>
  contained_bind (hx v) (hf _ _)

/-- What the reader gives is a part of the view it starts from. -/
def GivesPart (x : ViewReader (Option ByteView)) : Prop :=
  ∀ v sub, (x v).1 = some sub → sub.PartOf v

theorem givesPart_none : GivesPart (pure none) := fun _ _ h => absurd h (Option.some_ne_none _).symm

theorem GivesPart.bind {f : α → ViewReader (Option ByteView)} (hx : Safe x)
    (hf : ∀ a, GivesPart (f a)) : GivesPart (bind x f) := fun v sub h =>
  (hf _ _ sub h).trans (hx v).rest.partOf

end ViewReader

end BootableRecovery.Lib
