import Mathlib.Data.List.Basic
import Mathlib.Order.Lattice

namespace BootableRecovery.Lib

/-! Comparisons on the elements of a list, and what sorting by them leaves. -/

section strictWeak
variable {α : Type} (r : α → α → Bool) (l : List α)

/-- A strict weak ordering of the elements of `l`. -/
structure StrictWeakOn : Prop where
  irrefl : ∀ x ∈ l, r x x = false
  asymm : ∀ x ∈ l, ∀ y ∈ l, r x y = true → r y x = false
  trans : ∀ x ∈ l, ∀ y ∈ l, ∀ z ∈ l, r x y = true → r y z = true → r x z = true
  incomp : ∀ x ∈ l, ∀ y ∈ l, ∀ z ∈ l, r x y = false → r y x = false → r y z = false →
    r z y = false → r x z = false ∧ r z x = false

/-- What a sort by `r` may leave: no later element is less than an earlier one. -/
structure SortedInto (l' : List α) : Prop where
  perm : l'.Perm l
  sorted : l'.Pairwise fun x y => r y x = false

variable {r l}

theorem StrictWeakOn.between (h : StrictWeakOn r l) {x y z : α} (hx : x ∈ l) (hy : y ∈ l)
    (hz : z ∈ l) (hxy : r x y = true) : r x z = true ∨ r z y = true := by
  by_contra hneither
  rw [not_or, Bool.not_eq_true, Bool.not_eq_true] at hneither
  obtain ⟨hxz, hzy⟩ := hneither
  rcases hzx : r z x with _ | _
  · rcases hyz : r y z with _ | _
    · have hxy' := (h.incomp x hx z hz y hy hxz hzx hzy hyz).1
      exact absurd (hxy.symm.trans hxy') (by decide)
    · exact absurd ((h.trans x hx y hy z hz hxy hyz).symm.trans hxz) (by decide)
  · exact absurd ((h.trans z hz x hx y hy hzx hxy).symm.trans hzy) (by decide)

/-- Two conditions are enough: no pair both ways, and every third element on one side of a pair. -/
theorem strictWeakOn_iff : StrictWeakOn r l ↔
    (∀ x ∈ l, ∀ y ∈ l, r x y = true → r y x = false) ∧
      ∀ x ∈ l, ∀ y ∈ l, ∀ z ∈ l, r x y = true → r x z = true ∨ r z y = true := by
  constructor
  · exact fun h => ⟨h.asymm, fun x hx y hy z hz hxy => h.between hx hy hz hxy⟩
  · intro h
    obtain ⟨hasymm, hbetween⟩ := h
    have hnot : ∀ x ∈ l, ∀ y ∈ l, ∀ z ∈ l, r x y = false → r y z = false → r x z = false := by
      intro x hx y hy z hz hxy hyz
      by_contra hxz
      rw [Bool.not_eq_false] at hxz
      rcases hbetween x hx z hz y hy hxz with h | h
      · exact absurd (h.symm.trans hxy) (by decide)
      · exact absurd (h.symm.trans hyz) (by decide)
    refine ⟨fun x hx => ?_, hasymm, fun x hx y hy z hz hxy hyz => ?_,
      fun x hx y hy z hz hxy hyx hyz hzy =>
        ⟨hnot x hx y hy z hz hxy hyz, hnot z hz y hy x hx hzy hyx⟩⟩
    · by_contra hxx
      rw [Bool.not_eq_false] at hxx
      exact absurd (hxx.symm.trans (hasymm x hx x hx hxx)) (by decide)
    · rcases hbetween x hx y hy z hz hxy with h | h
      · exact h
      · exact absurd (h.symm.trans (hasymm y hy z hz hyz)) (by decide)

/-- A list can be sorted by a strict weak ordering of its elements. -/
theorem StrictWeakOn.exists_sorted (h : StrictWeakOn r l) : ∃ l', SortedInto r l l' := by
  let le : {x // x ∈ l} → {x // x ∈ l} → Bool := fun x y => !r y.1 x.1
  have hle : ∀ x y, le x y = true ↔ r y.1 x.1 = false := fun x y => by
    rw [Bool.not_eq_true']
  have htrans : ∀ x y z, le x y = true → le y z = true → le x z = true := by
    intro x y z hxy hyz
    rw [hle] at hxy hyz ⊢
    by_contra hzx
    rw [Bool.not_eq_false] at hzx
    rcases h.between z.2 x.2 y.2 hzx with h | h
    · exact absurd (h.symm.trans hyz) (by decide)
    · exact absurd (h.symm.trans hxy) (by decide)
  have htotal : ∀ x y, (le x y || le y x) = true := by
    intro x y
    rw [Bool.or_eq_true, hle, hle]
    rcases hyx : r y.1 x.1 with _ | _
    · exact Or.inl rfl
    · exact Or.inr (h.asymm _ y.2 _ x.2 hyx)
  refine ⟨(l.attach.mergeSort le).map Subtype.val, ?_, ?_⟩
  · have hperm := (List.mergeSort_perm l.attach le).map Subtype.val
    rwa [List.attach_map_subtype_val] at hperm
  · rw [List.pairwise_map]
    exact (List.pairwise_mergeSort htrans htotal l.attach).imp fun hxy => (hle _ _).mp hxy

section relations
variable (lt lt' : α → α → Prop) (p : α → Prop)

/-- The same for a relation on all elements. -/
structure StrictWeak : Prop where
  asymm : ∀ {x y}, lt x y → ¬lt y x
  between : ∀ {x y} z, lt x y → lt x z ∨ lt z y

variable {lt lt'}

theorem StrictWeak.of_key {κ : Type} [LinearOrder κ] (key : α → κ)
    (h : ∀ x y, lt x y ↔ key x < key y) : StrictWeak lt where
  asymm {x y} hxy hyx := by
    rw [h] at hxy hyx
    exact lt_asymm hxy hyx
  between {x y} z hxy := by
    rw [h] at hxy
    rw [h, h]
    exact (lt_or_ge (key x) (key z)).imp_right fun hzx => hzx.trans_lt hxy

theorem StrictWeak.flip (h : StrictWeak lt) : StrictWeak fun x y => lt y x where
  asymm hxy hyx := h.asymm hyx hxy
  between z hxy := (h.between z hxy).symm

/-- A key, and another relation between elements with the same key. -/
theorem StrictWeak.lex {κ : Type} [LinearOrder κ] (key : α → κ) (h : StrictWeak lt) :
    StrictWeak fun x y => key x < key y ∨ key x = key y ∧ lt x y where
  asymm {x y} hxy hyx := by
    rcases hxy with hxy | ⟨heq, hxy⟩
    · rcases hyx with hyx | ⟨heq, -⟩
      · exact lt_asymm hxy hyx
      · exact hxy.ne heq.symm
    · rcases hyx with hyx | ⟨-, hyx⟩
      · exact hyx.ne heq.symm
      · exact h.asymm hxy hyx
  between {x y} z hxy := by
    rcases lt_trichotomy (key x) (key z) with hz | hz | hz
    · exact Or.inl (Or.inl hz)
    · rcases hxy with hxy | ⟨heq, hxy⟩
      · exact Or.inr (Or.inl (hz ▸ hxy))
      · rcases h.between z hxy with hlt | hlt
        · exact Or.inl (Or.inr ⟨hz, hlt⟩)
        · exact Or.inr (Or.inr ⟨hz.symm.trans heq, hlt⟩)
    · rcases hxy with hxy | ⟨heq, -⟩
      · exact Or.inr (Or.inl (hz.trans hxy))
      · exact Or.inr (Or.inl (heq ▸ hz))

theorem StrictWeak.on (hlt : StrictWeak lt) (h : ∀ x ∈ l, ∀ y ∈ l, (r x y = true ↔ lt x y)) :
    StrictWeakOn r l := by
  rw [strictWeakOn_iff]
  refine ⟨fun x hx y hy hxy => ?_, fun x hx y hy z hz hxy => ?_⟩
  · rw [h x hx y hy] at hxy
    rw [← Bool.not_eq_true, h y hy x hx]
    exact hlt.asymm hxy
  · rw [h x hx y hy] at hxy
    rw [h x hx z hz, h z hz y hy]
    exact hlt.between z hxy

variable (lt lt')

/-- How two relations have to agree where the first element of a comparison chooses between
them. -/
def Agree (l : List α) : Prop :=
  ∀ d ∈ l, p d → ∀ f ∈ l, ¬p f → ¬(lt d f ∧ lt' f d) ∧
    ∀ y ∈ l, (lt d y → lt d f ∨ lt' f y) ∧ (lt' f y → lt' f d ∨ lt d y)

variable {lt lt' p}

theorem strictWeakOn_mixed_iff [DecidablePred p] (hlt : StrictWeak lt) (hlt' : StrictWeak lt')
    (h : ∀ x ∈ l, ∀ y ∈ l, (r x y = true ↔ if p x then lt x y else lt' x y)) :
    StrictWeakOn r l ↔ Agree lt lt' p l := by
  have hp : ∀ x ∈ l, p x → ∀ y ∈ l, (r x y = true ↔ lt x y) := fun x hx hpx y hy => by
    rw [h x hx y hy, if_pos hpx]
  have hn : ∀ x ∈ l, ¬p x → ∀ y ∈ l, (r x y = true ↔ lt' x y) := fun x hx hpx y hy => by
    rw [h x hx y hy, if_neg hpx]
  rw [strictWeakOn_iff]
  constructor
  · intro hr d hd hpd f hf hpf
    obtain ⟨hasymm, hbetween⟩ := hr
    refine ⟨fun hboth => ?_, fun y hy => ⟨fun hdy => ?_, fun hfy => ?_⟩⟩
    · have hfd := hasymm d hd f hf ((hp d hd hpd f hf).mpr hboth.1)
      exact absurd (((hn f hf hpf d hd).mpr hboth.2).symm.trans hfd) (by decide)
    · have hf' := hbetween d hd y hy f hf ((hp d hd hpd y hy).mpr hdy)
      rwa [hp d hd hpd f hf, hn f hf hpf y hy] at hf'
    · have hd' := hbetween f hf y hy d hd ((hn f hf hpf y hy).mpr hfy)
      rwa [hn f hf hpf d hd, hp d hd hpd y hy] at hd'
  · intro hagree
    constructor
    · intro x hx y hy hxy
      rw [← Bool.not_eq_true]
      intro hyx
      by_cases hpx : p x
      · rw [hp x hx hpx y hy] at hxy
        by_cases hpy : p y
        · rw [hp y hy hpy x hx] at hyx
          exact hlt.asymm hxy hyx
        · rw [hn y hy hpy x hx] at hyx
          exact (hagree x hx hpx y hy hpy).1 ⟨hxy, hyx⟩
      · rw [hn x hx hpx y hy] at hxy
        by_cases hpy : p y
        · rw [hp y hy hpy x hx] at hyx
          exact (hagree y hy hpy x hx hpx).1 ⟨hyx, hxy⟩
        · rw [hn y hy hpy x hx] at hyx
          exact hlt'.asymm hxy hyx
    · intro x hx y hy z hz hxy
      by_cases hpx : p x
      · rw [hp x hx hpx y hy] at hxy
        rw [hp x hx hpx z hz]
        by_cases hpz : p z
        · rw [hp z hz hpz y hy]
          exact hlt.between z hxy
        · rw [hn z hz hpz y hy]
          exact ((hagree x hx hpx z hz hpz).2 y hy).1 hxy
      · rw [hn x hx hpx y hy] at hxy
        rw [hn x hx hpx z hz]
        by_cases hpz : p z
        · rw [hp z hz hpz y hy]
          exact ((hagree z hz hpz x hx hpx).2 y hy).2 hxy
        · rw [hn z hz hpz y hy]
          exact hlt'.between z hxy

end relations

end strictWeak

end BootableRecovery.Lib
