import BootableRecovery.Lib.Search
import Mathlib.Algebra.GroupWithZero.Nat

namespace BootableRecovery.Lib

/-! Records behind one another: the tags that are searched for, and the groups that are filled. -/

section closed
variable {α : Type} {d : α} {needle a v : List α}

/-- The delimiter stands nowhere in the needle but at its end. -/
def ClosedBy (d : α) (needle : List α) : Prop := ∀ x y, needle = x ++ y → d ∈ x → y = []

theorem closedBy_of_not_mem (h : d ∉ needle) : ClosedBy d needle := by
  intro x y hxy hx
  exact absurd (hxy ▸ List.mem_append_left y hx) h

theorem closedBy_of_not_mem_dropLast (h : d ∉ needle.dropLast) : ClosedBy d needle := by
  intro x y hxy hx
  by_contra hy
  rw [hxy, List.dropLast_append_of_ne_nil hy] at h
  exact h (List.mem_append_left _ hx)

/-- A needle that is not in the first part starts behind it. -/
theorem ClosedBy.starts_behind (hclosed : ClosedBy d needle) (h : ¬needle <:+: a ++ [d])
    {u w : List α} (heq : a ++ d :: v = u ++ needle ++ w) : (a ++ [d]).length ≤ u.length := by
  have hparts : (a ++ [d]) ++ v = u ++ (needle ++ w) := by simpa using heq
  rcases List.append_eq_append_iff.mp hparts with ⟨c, hu, -⟩ | ⟨c, ha, hrest⟩
  · rw [hu, @List.length_append _ (a ++ [d]) c]
    exact Nat.le_add_right _ _
  rcases List.eq_nil_or_concat c with hnil | ⟨front, e, hc⟩
  · rw [hnil, List.append_nil] at ha
    exact Nat.le_of_eq (congrArg List.length ha)
  rw [List.concat_eq_append] at hc
  have hlast : d ∈ c := by
    rw [hc, ← List.append_assoc] at ha
    have hend : [d] = [e] := (List.append_inj' ha rfl).2
    rw [hc, ← hend]
    exact List.mem_append_right _ (List.mem_singleton_self d)
  rcases List.append_eq_append_iff.mp hrest with ⟨s, hneedle, -⟩ | ⟨s, hneedle, -⟩
  · -- the needle ends in the first part
    exact absurd ⟨u, s, by rw [ha, hneedle, List.append_assoc]⟩ h
  · -- the needle goes on behind the delimiter
    have hs : s = [] := hclosed c s hneedle hlast
    rw [hs, List.append_nil] at hneedle
    exact absurd ⟨u, [], by rw [ha, hneedle, List.append_nil]⟩ h

theorem ClosedBy.infix_iff (hclosed : ClosedBy d needle) :
    needle <:+: a ++ d :: v ↔ needle <:+: a ++ [d] ∨ needle <:+: v := by
  constructor
  · rintro ⟨u, w, heq⟩
    by_cases h : needle <:+: a ++ [d]
    · exact Or.inl h
    · have hle := hclosed.starts_behind h heq.symm
      have hparts : u ++ (needle ++ w) = (a ++ [d]) ++ v := by simpa using heq
      obtain ⟨c, rfl⟩ := List.prefix_of_prefix_length_le ⟨v, rfl⟩ ⟨needle ++ w, hparts⟩ hle
      rw [List.append_assoc] at hparts
      exact Or.inr ⟨c, w, by rw [List.append_assoc, List.append_cancel_left hparts]⟩
  · rintro (⟨u, w, heq⟩ | ⟨u, w, heq⟩)
    · exact ⟨u, w ++ v, by rw [← List.append_assoc, heq]; simp⟩
    · exact ⟨a ++ d :: u, w, by rw [← heq]; simp⟩

theorem infix_concat_iff_of_not_mem (h : d ∉ needle) : needle <:+: a ++ [d] ↔ needle <:+: a := by
  rw [List.infix_concat_iff, List.suffix_concat_iff]
  constructor
  · rintro ((rfl | ⟨n, rfl, -⟩) | h)
    · exact List.nil_infix
    · simp at h
    · exact h
  · exact Or.inr

variable [DecidableEq α]

/-- The search goes on behind a part that does not hold the needle. -/
theorem ClosedBy.searchFirst (hclosed : ClosedBy d needle) (h : ¬needle <:+: a ++ [d]) :
    searchFirst needle (a ++ d :: v) =
      (Lib.searchFirst needle v).map ((a ++ [d]).length + ·) := by
  have hwhole : a ++ d :: v = (a ++ [d]) ++ v := by simp
  rw [hwhole]
  apply searchFirst_append
  intro u w huw
  exact hclosed.starts_behind h (hwhole.trans huw)

end closed

/-! ### Groups -/

section pack
variable {ρ : Type} (size : ρ → ℕ) (limit : ℕ)

/-- A group is closed where the next record would fill it to the limit. -/
def packFrom (group : List ρ) (total : ℕ) : List ρ → List (List ρ)
  | [] => if 0 < total then [group] else []
  | r :: rs =>
    if limit ≤ total + size r then group :: packFrom [r] (size r) rs
    else packFrom (group ++ [r]) (total + size r) rs

def pack (rs : List ρ) : List (List ρ) := packFrom size limit [] 0 rs

variable {size limit} {group rs : List ρ} {total : ℕ}

theorem flatten_packFrom (hsize : ∀ r ∈ rs, 0 < size r) (hgroup : total = 0 → group = []) :
    (packFrom size limit group total rs).flatten = group ++ rs := by
  induction rs generalizing group total with
  | nil =>
    rw [packFrom]
    split_ifs with htotal
    · simp
    · simp [hgroup (by omega)]
  | cons r rs ih =>
    have hr := hsize r List.mem_cons_self
    have hrest := fun x hx => hsize x (List.mem_cons_of_mem r hx)
    rw [packFrom]
    split_ifs
    · rw [List.flatten_cons, ih hrest fun h => absurd h (Nat.ne_of_gt hr)]
      rfl
    · rw [ih hrest fun h => absurd h (by omega), List.append_assoc]
      rfl

theorem sum_of_mem_packFrom (hsize : ∀ r ∈ rs, size r < limit) (htotal : total < limit)
    (hgroup : (group.map size).sum = total) :
    ∀ g ∈ packFrom size limit group total rs, (g.map size).sum < limit := by
  induction rs generalizing group total with
  | nil =>
    intro g hg
    rw [packFrom] at hg
    split_ifs at hg
    · rw [List.mem_singleton.mp hg, hgroup]
      exact htotal
    · cases hg
  | cons r rs ih =>
    have hr := hsize r List.mem_cons_self
    have hrest := fun x hx => hsize x (List.mem_cons_of_mem r hx)
    intro g hg
    rw [packFrom] at hg
    split_ifs at hg with hfull
    · rcases List.mem_cons.mp hg with rfl | hg
      · rw [hgroup]
        exact htotal
      · exact ih hrest hr (by simp) g hg
    · exact ih hrest (by omega) (by simp [hgroup]) g hg

end pack

end BootableRecovery.Lib
