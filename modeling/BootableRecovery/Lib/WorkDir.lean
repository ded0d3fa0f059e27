import Mathlib.Data.Finset.Insert
import Mathlib.Data.Finset.Erase
import Mathlib.Logic.Relation

namespace BootableRecovery.Lib

/-! A folder of files that a run works in, and what any sequence of its steps keeps. -/

/-- The files that are there, and the names that the run has opened for writing. -/
structure WorkDir (α : Type) where
  names : Finset α
  written : Finset α
  deriving DecidableEq

namespace WorkDir
variable {α : Type} [DecidableEq α]

def create (f : WorkDir α) (name : α) : WorkDir α :=
  { names := insert name f.names, written := insert name f.written }

/-- The source is moved onto the target if it is there. -/
def move (f : WorkDir α) (source target : α) : WorkDir α :=
  if source ∈ f.names then { f with names := insert target (f.names.erase source) } else f

variable (P : α → Prop) (M : α → α → Prop)

/-- One step: a file that `P` allows is opened, or a file is moved onto one that the run has
written, as `M` allows. -/
inductive Change : WorkDir α → WorkDir α → Prop
  | create (f : WorkDir α) (name : α) (h : P name) : Change f (f.create name)
  | move (f : WorkDir α) (source target : α) (h : M source target) (written : target ∈ f.written) :
      Change f (f.move source target)

abbrev Changes : WorkDir α → WorkDir α → Prop := Relation.ReflTransGen (Change P M)

/-- What was written is still there, and is of the kind `Q`. -/
def Holds (Q : α → Prop) (f : WorkDir α) : Prop := ∀ name ∈ f.written, name ∈ f.names ∧ Q name

section
variable {P M} {Q : α → Prop} {f f' : WorkDir α} {name source target : α}

@[simp] theorem mem_create_written : name ∈ (f.create target).written ↔
    name = target ∨ name ∈ f.written := Finset.mem_insert

@[simp] theorem mem_create_names : name ∈ (f.create target).names ↔
    name = target ∨ name ∈ f.names := Finset.mem_insert

@[simp] theorem move_written : (f.move source target).written = f.written := by
  unfold move
  split_ifs <;> rfl

theorem mem_move_names (h : name ∈ f.names) (hne : name ≠ source) :
    name ∈ (f.move source target).names := by
  unfold move
  split_ifs
  · exact Finset.mem_insert_of_mem (Finset.mem_erase.mpr ⟨hne, h⟩)
  · exact h

theorem Changes.create (h : P name) : Changes P M f (f.create name) := .single (.create f name h)

theorem Changes.move (h : M source target) (hw : target ∈ f.written) :
    Changes P M f (f.move source target) := .single (.move f source target h hw)

theorem Changes.imp {R : α → Prop} (h : Changes P M f f') (hR : ∀ name, P name → R name) :
    Changes R M f f' := by
  induction h with
  | refl => exact .refl
  | tail _ hstep ih =>
    cases hstep with
    | create name hn => exact ih.tail (.create _ name (hR name hn))
    | move source target hm hw => exact ih.tail (.move _ source target hm hw)

theorem Changes.written_subset (h : Changes P M f f') : f.written ⊆ f'.written := by
  induction h with
  | refl => exact Finset.Subset.refl _
  | tail _ hstep ih =>
    cases hstep with
    | create name _ => exact ih.trans (Finset.subset_insert _ _)
    | move source target _ _ =>
      rw [move_written]
      exact ih

theorem Changes.of_written (h : Changes P M f f') (hn : name ∈ f'.written) :
    name ∈ f.written ∨ P name := by
  induction h with
  | refl => exact .inl hn
  | tail _ hstep ih =>
    cases hstep with
    | create target ht =>
      rcases mem_create_written.mp hn with rfl | hn
      · exact .inr ht
      · exact ih hn
    | move source target _ _ =>
      rw [move_written] at hn
      exact ih hn

theorem Changes.holds (h : Changes P M f f') (hP : ∀ name, P name → Q name)
    (hM : ∀ source target, M source target → ¬Q source) (hf : f.Holds Q) : f'.Holds Q := by
  induction h with
  | refl => exact hf
  | tail _ hstep ih =>
    intro name hn
    cases hstep with
    | create target ht =>
      rcases mem_create_written.mp hn with rfl | hn
      · exact ⟨mem_create_names.mpr (.inl rfl), hP name ht⟩
      · exact ⟨mem_create_names.mpr (.inr (ih name hn).1), (ih name hn).2⟩
    | move source target hm _ =>
      rw [move_written] at hn
      refine ⟨mem_move_names (ih name hn).1 ?_, (ih name hn).2⟩
      rintro rfl
      exact hM _ _ hm (ih _ hn).2

/-- A file that is gone has been moved onto one that the run has written. -/
theorem Changes.kept (h : Changes P M f f') (hn : name ∈ f.names) :
    name ∈ f'.names ∨ ∃ target ∈ f'.written, M name target := by
  induction h with
  | refl => exact .inl hn
  | tail _ hstep ih =>
    cases hstep with
    | create target _ =>
      rcases ih with ih | ⟨t, ht, hm⟩
      · exact .inl (mem_create_names.mpr (.inr ih))
      · exact .inr ⟨t, mem_create_written.mpr (.inr ht), hm⟩
    | move source target hm hw =>
      rw [move_written]
      rcases ih with ih | ih
      · by_cases hs : name = source
        · rw [hs]
          exact .inr ⟨target, hw, hm⟩
        · exact .inl (mem_move_names ih hs)
      · exact .inr ih

end

end WorkDir

end BootableRecovery.Lib
