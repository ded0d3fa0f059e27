import Mathlib.Data.List.Basic
import Mathlib.Data.List.Chain

namespace BootableRecovery.Lib

/-! Runs of neighbours in a list, each merged into one element. -/

section collapse
variable {α β : Type*} (adjacent : α → α → Bool) (merge : α → α → α)

/-- The list behind `cur`, which takes in the neighbours next to it. -/
def collapseFrom (cur : α) : List α → List α
  | [] => [cur]
  | a :: l =>
    if adjacent cur a then collapseFrom (merge cur a) l else cur :: collapseFrom a l

def collapse : List α → List α
  | [] => []
  | a :: l => collapseFrom adjacent merge a l

variable {adjacent merge}

theorem collapseFrom_flatMap {f : α → List β}
    (hf : ∀ a b, adjacent a b = true → f (merge a b) = f a ++ f b) (a : α) (l : List α) :
    (collapseFrom adjacent merge a l).flatMap f = f a ++ l.flatMap f := by
  induction l generalizing a with
  | nil => rfl
  | cons b l ih =>
    rw [collapseFrom]
    split_ifs with h
    · rw [ih, hf a b h, List.append_assoc, List.flatMap_cons]
    · rw [List.flatMap_cons, ih, List.flatMap_cons]

/-- What the parts of a merged element hold, it holds in their order. -/
theorem collapse_flatMap {f : α → List β}
    (hf : ∀ a b, adjacent a b = true → f (merge a b) = f a ++ f b) (l : List α) :
    (collapse adjacent merge l).flatMap f = l.flatMap f := by
  cases l with
  | nil => rfl
  | cons a l => exact collapseFrom_flatMap hf a l

theorem collapseFrom_filter {p : α → Bool}
    (hp : ∀ a b, adjacent a b = true → p a = false ∧ p b = false ∧ p (merge a b) = false)
    (a : α) (l : List α) : (collapseFrom adjacent merge a l).filter p = (a :: l).filter p := by
  induction l generalizing a with
  | nil => rfl
  | cons b l ih =>
    rw [collapseFrom]
    split_ifs with h
    · obtain ⟨ha, hb, hab⟩ := hp a b h
      rw [ih]
      simp [ha, hb, hab]
    · rw [List.filter_cons, List.filter_cons, ih]

/-- Elements that are in no merge stay as they are. -/
theorem collapse_filter {p : α → Bool}
    (hp : ∀ a b, adjacent a b = true → p a = false ∧ p b = false ∧ p (merge a b) = false)
    (l : List α) : (collapse adjacent merge l).filter p = l.filter p := by
  cases l with
  | nil => rfl
  | cons a l => exact collapseFrom_filter hp a l

/-- An element is a neighbour of a merged one as it is one of the first part. -/
def LeftMerge (adjacent : α → α → Bool) (merge : α → α → α) : Prop :=
  ∀ a b c, adjacent a (merge b c) = adjacent a b

theorem collapseFrom_chain (h : LeftMerge adjacent merge) (a : α) (l : List α) :
    (collapseFrom adjacent merge a l).IsChain (fun a b => adjacent a b = false) ∧
      ∃ first rest, collapseFrom adjacent merge a l = first :: rest ∧
        ∀ c, adjacent c first = adjacent c a := by
  induction l generalizing a with
  | nil => exact ⟨List.isChain_singleton a, a, [], rfl, fun _ => rfl⟩
  | cons b l ih =>
    rw [collapseFrom]
    split_ifs with hab
    · obtain ⟨hchain, first, rest, heq, hfirst⟩ := ih (merge a b)
      exact ⟨hchain, first, rest, heq, fun c => (hfirst c).trans (h c a b)⟩
    · obtain ⟨hchain, first, rest, heq, hfirst⟩ := ih b
      refine ⟨?_, a, _, rfl, fun _ => rfl⟩
      rw [heq] at hchain ⊢
      refine List.isChain_cons_cons.mpr ⟨?_, hchain⟩
      rw [hfirst]
      simpa using hab

/-- No neighbours are left. -/
theorem collapse_chain (h : LeftMerge adjacent merge) (l : List α) :
    (collapse adjacent merge l).IsChain (fun a b => adjacent a b = false) := by
  cases l with
  | nil => exact List.isChain_nil
  | cons a l => exact (collapseFrom_chain h a l).1

theorem collapseFrom_of_chain (a : α) (l : List α)
    (h : (a :: l).IsChain fun a b => adjacent a b = false) :
    collapseFrom adjacent merge a l = a :: l := by
  induction l generalizing a with
  | nil => rfl
  | cons b l ih =>
    obtain ⟨hab, hrest⟩ := List.isChain_cons_cons.mp h
    rw [collapseFrom, hab, if_neg Bool.false_ne_true, ih b hrest]

theorem collapse_of_chain (l : List α) (h : l.IsChain fun a b => adjacent a b = false) :
    collapse adjacent merge l = l := by
  cases l with
  | nil => rfl
  | cons a l => exact collapseFrom_of_chain a l h

theorem collapse_idem (h : LeftMerge adjacent merge) (l : List α) :
    collapse adjacent merge (collapse adjacent merge l) = collapse adjacent merge l :=
  collapse_of_chain _ (collapse_chain h l)

end collapse

end BootableRecovery.Lib
