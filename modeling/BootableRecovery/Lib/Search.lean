import Mathlib.Data.List.Basic

namespace BootableRecovery.Lib

/-! The first place where a text stands in another one. -/

section search
variable {α : Type} [DecidableEq α]

/-- How much stands in front of the needle where it stands first. -/
def searchFirst (needle : List α) : List α → Option ℕ
  | [] => if needle = [] then some 0 else none
  | c :: s => if needle <+: c :: s then some 0 else (searchFirst needle s).map (· + 1)

/-- The text without the first occurrence of the needle. -/
def cutFirst (needle s : List α) : Option (List α) :=
  (searchFirst needle s).map fun position =>
    s.take position ++ s.drop (position + needle.length)

variable {needle s : List α}

theorem searchFirst_nil :
    searchFirst needle [] = if needle = [] then some 0 else none := rfl

theorem searchFirst_cons (c : α) : searchFirst needle (c :: s) =
    if needle <+: c :: s then some 0 else (searchFirst needle s).map (· + 1) := rfl

theorem searchFirst_of_prefixed (h : needle <+: s) : searchFirst needle s = some 0 := by
  cases s with
  | nil => exact if_pos (List.prefix_nil.mp h)
  | cons c s => exact if_pos h

theorem searchFirst_eq_none_iff : searchFirst needle s = none ↔ ¬needle <:+: s := by
  induction s with
  | nil => simp [searchFirst_nil, List.infix_nil]
  | cons c s ih =>
    rw [searchFirst_cons, List.infix_cons_iff, not_or, ← ih]
    by_cases h : needle <+: c :: s
    · simp [h]
    · simp [h, Option.map_eq_none_iff]

theorem cutFirst_eq_none_iff : cutFirst needle s = none ↔ ¬needle <:+: s := by
  rw [cutFirst, Option.map_eq_none_iff, searchFirst_eq_none_iff]

theorem searchFirst_prefixed {position : ℕ}
    (h : searchFirst needle s = some position) : needle <+: s.drop position := by
  induction s generalizing position with
  | nil =>
    rw [searchFirst_nil] at h
    split_ifs at h with hneedle
    rw [hneedle]
    exact List.nil_prefix
  | cons c s ih =>
    rw [searchFirst_cons] at h
    split_ifs at h with hfront
    · cases h
      exact hfront
    · obtain ⟨q, hq, rfl⟩ := Option.map_eq_some_iff.mp h
      exact ih hq

theorem exists_searchFirst_le {u w : List α} (h : s = u ++ needle ++ w) :
    ∃ position ≤ u.length, searchFirst needle s = some position := by
  subst h
  induction u with
  | nil => exact ⟨0, Nat.le_refl _, searchFirst_of_prefixed (by simp)⟩
  | cons c u ih =>
    obtain ⟨q, hq, hfind⟩ := ih
    rw [List.cons_append, List.cons_append, searchFirst_cons]
    split_ifs
    · exact ⟨0, Nat.zero_le _, rfl⟩
    · exact ⟨q + 1, Nat.succ_le_succ hq, by rw [hfind, Option.map_some]⟩

theorem searchFirst_le_length {position : ℕ}
    (h : searchFirst needle s = some position) : position ≤ s.length := by
  induction s generalizing position with
  | nil =>
    rw [searchFirst_nil] at h
    split_ifs at h
    cases h
    exact Nat.le_refl _
  | cons c s ih =>
    rw [searchFirst_cons] at h
    split_ifs at h
    · cases h
      exact Nat.zero_le _
    · obtain ⟨q, hq, rfl⟩ := Option.map_eq_some_iff.mp h
      exact Nat.succ_le_succ (ih hq)

/-- Where no needle starts in the first part, the search goes on behind it. -/
theorem searchFirst_append {t : List α}
    (h : ∀ u w, s ++ t = u ++ needle ++ w → s.length ≤ u.length) :
    searchFirst needle (s ++ t) = (searchFirst needle t).map (s.length + ·) := by
  induction s with
  | nil => simp
  | cons c s ih =>
    have hfront : ¬needle <+: c :: (s ++ t) := by
      rintro ⟨w, hw⟩
      have hle := h [] w (by rw [List.cons_append, ← hw, List.nil_append])
      simp at hle
    have hnext := ih fun u w huw => by
      have hle := h (c :: u) w (by rw [List.cons_append, huw]; simp)
      simpa using hle
    rw [List.cons_append, searchFirst_cons, if_neg hfront, hnext, Option.map_map]
    congr 1
    funext q
    simp only [Function.comp_apply, List.length_cons]
    omega

/-! ### Needles that end in a delimiter -/

section delimited
variable {d : α} {n e : List α}

omit [DecidableEq α] in
theorem prefixed_delimited (hn : d ∉ n) (he : d ∉ e) (rest : List α) :
    n ++ [d] <+: e ++ d :: rest ↔ n = e := by
  constructor
  · induction n generalizing e with
    | nil =>
      intro h
      cases e with
      | nil => rfl
      | cons c e =>
        rw [List.nil_append, List.cons_append, List.cons_prefix_cons] at h
        exact absurd (h.1 ▸ List.mem_cons_self) he
    | cons a n ih =>
      intro h
      rw [List.mem_cons, not_or] at hn
      cases e with
      | nil =>
        rw [List.nil_append, List.cons_append, List.cons_prefix_cons] at h
        exact absurd h.1.symm hn.1
      | cons c e =>
        rw [List.mem_cons, not_or] at he
        rw [List.cons_append, List.cons_append, List.cons_prefix_cons] at h
        rw [h.1, ih hn.2 he.2 h.2]
  · rintro rfl
    exact ⟨rest, by simp⟩

omit [DecidableEq α] in
/-- What starts with the delimiter does not start in a piece. -/
theorem infix_append_of_not_mem (he : d ∉ e) {s : List α} : d :: n <:+: e ++ s ↔ d :: n <:+: s := by
  induction e with
  | nil => rfl
  | cons c e ih =>
    rw [List.mem_cons, not_or] at he
    rw [List.cons_append, List.infix_cons_iff, ih he.2, List.cons_prefix_cons]
    exact or_iff_right fun h => he.1 h.1

/-- It stands first at the end of the first piece that ends in it. -/
theorem searchFirst_delimited (hn : d ∉ n) (he : d ∉ e) (rest : List α) :
    searchFirst (n ++ [d]) (e ++ d :: rest) =
      if n <:+ e then some (e.length - n.length)
      else (searchFirst (n ++ [d]) rest).map (· + (e.length + 1)) := by
  induction e with
  | nil =>
    have hfront := prefixed_delimited hn he rest
    rw [List.nil_append] at hfront ⊢
    rw [searchFirst_cons]
    by_cases h : n = []
    · rw [if_pos (hfront.mpr h), if_pos (List.suffix_nil.mpr h), h]
      rfl
    · rw [if_neg (h ∘ hfront.mp), if_neg (h ∘ List.suffix_nil.mp)]
      rfl
  | cons c e ih =>
    have hfront := prefixed_delimited hn he rest
    rw [List.mem_cons, not_or] at he
    rw [List.cons_append] at hfront ⊢
    have hsuffix_iff : n <:+ c :: e ↔ n = c :: e ∨ n <:+ e := List.suffix_cons_iff
    rw [searchFirst_cons]
    by_cases h : n = c :: e
    · rw [if_pos (hfront.mpr h), if_pos (hsuffix_iff.mpr (Or.inl h)), h, Nat.sub_self]
    · rw [if_neg (h ∘ hfront.mp), ih he.2]
      by_cases hsuffix : n <:+ e
      · have hle := hsuffix.length_le
        rw [if_pos hsuffix, if_pos (hsuffix_iff.mpr (Or.inr hsuffix)), Option.map_some,
          List.length_cons]
        congr 1
        omega
      · rw [if_neg hsuffix, if_neg (fun hs => (hsuffix_iff.mp hs).elim h hsuffix),
          Option.map_map]
        congr 1

/-- It is cut from the end of the first piece that ends in it, together with the delimiter. -/
theorem cutFirst_delimited (hn : d ∉ n) (he : d ∉ e) (rest : List α) :
    cutFirst (n ++ [d]) (e ++ d :: rest) =
      if n <:+ e then some (e.take (e.length - n.length) ++ rest)
      else (cutFirst (n ++ [d]) rest).map fun s => e ++ d :: s := by
  rw [cutFirst, searchFirst_delimited hn he]
  split_ifs with h
  · have hle := h.length_le
    have hpiece : e.length - n.length + (n ++ [d]).length = (e ++ [d]).length := by
      simp only [List.length_append, List.length_singleton]
      omega
    have hwhole : e ++ d :: rest = (e ++ [d]) ++ rest := by simp
    rw [Option.map_some, List.take_append_of_le_length (Nat.sub_le _ _), hpiece, hwhole,
      List.drop_left]
  · rw [cutFirst, Option.map_map, Option.map_map]
    congr 1
    funext position
    have hwhole : e ++ d :: rest = (e ++ [d]) ++ rest := by simp
    have hlength : (e ++ [d]).length = e.length + 1 := by simp
    have htake : (e ++ d :: rest).take (position + (e.length + 1)) =
        e ++ d :: rest.take position := by
      rw [hwhole, ← hlength, Nat.add_comm, List.take_length_add_append]
      simp
    have hdrop : (e ++ d :: rest).drop (position + (e.length + 1) + (n ++ [d]).length) =
        rest.drop (position + (n ++ [d]).length) := by
      rw [hwhole, ← hlength, Nat.add_right_comm, Nat.add_comm, List.drop_length_add_append]
    simp only [Function.comp_apply, htake, hdrop, List.append_assoc, List.cons_append]

end delimited

end search

end BootableRecovery.Lib
