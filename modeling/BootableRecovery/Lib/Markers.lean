import BootableRecovery.Lib.Loop
import BootableRecovery.Lib.Search
import Mathlib.Data.List.TakeWhile

namespace BootableRecovery.Lib

/-! Texts with names between an opener and a closer, and the loop that puts a value into the place
of one after the other. -/

/-- A name in a text, with what is before its opener and behind its closer. -/
structure Marker (α : Type) where
  before : List α
  name : List α
  after : List α

/-- A name that a loop takes, with the value put into its place and what is behind it. -/
structure Taken (α : Type) where
  name : List α
  value : List α
  after : List α

/-- A text while it is rewritten, with the names taken so far. -/
structure Rewriting (α σ : Type) where
  str : List α
  pos : ℕ
  table : σ
  taken : List (Taken α)

section markers
variable {α : Type} [DecidableEq α] (opener : List α) (closer : α)

def firstMarker (text : List α) : Option (Marker α) :=
  (searchFirst opener text).bind fun position =>
    let inner := text.drop (position + opener.length)
    if closer ∈ inner then
      some ⟨text.take position, inner.takeWhile (· ≠ closer), (inner.dropWhile (· ≠ closer)).tail⟩
    else none

/-- The first marker from a position on: where it is, its name and what is behind it. -/
def markerAt (str : List α) (pos : ℕ) : Option (ℕ × List α × List α) :=
  (firstMarker opener closer (str.drop pos)).map fun m =>
    (pos + m.before.length, m.name, m.after)

section first
variable {opener closer} {text : List α} {m : Marker α}

theorem cut_closer {inner : List α} (h : closer ∈ inner) :
    inner.takeWhile (· ≠ closer) ++ closer :: (inner.dropWhile (· ≠ closer)).tail = inner := by
  induction inner with
  | nil => exact absurd h List.not_mem_nil
  | cons c inner ih =>
    by_cases hc : c = closer
    · simp [hc]
    · have hmem := (List.mem_cons.mp h).resolve_left fun heq => hc heq.symm
      rw [List.takeWhile_cons_of_pos (by simpa using hc),
        List.dropWhile_cons_of_pos (by simpa using hc), List.cons_append, ih hmem]

theorem firstMarker_eq (h : firstMarker opener closer text = some m) :
    text = m.before ++ (opener ++ (m.name ++ closer :: m.after)) := by
  obtain ⟨position, hfind, hm⟩ := Option.bind_eq_some_iff.mp h
  dsimp only at hm
  split_ifs at hm with hclose
  cases hm
  obtain ⟨w, hw⟩ := searchFirst_prefixed hfind
  have hinner : text.drop (position + opener.length) = w := by
    rw [← List.drop_drop, ← hw, List.drop_left]
  rw [hinner] at hclose ⊢
  rw [cut_closer hclose, hw, List.take_append_drop]

theorem firstMarker_length (h : firstMarker opener closer text = some m) :
    m.before.length + opener.length + m.name.length + 1 + m.after.length = text.length := by
  have htext := congrArg List.length (firstMarker_eq h)
  simp only [List.length_append, List.length_cons] at htext
  omega

theorem firstMarker_none_iff : firstMarker opener closer text = none ↔
    ∀ position, searchFirst opener text = some position →
      closer ∉ text.drop (position + opener.length) := by
  rw [firstMarker, Option.bind_eq_none_iff]
  apply forall_congr'
  intro position
  apply imp_congr_right
  intro _
  dsimp only
  split_ifs with hclose
  · exact iff_of_false (fun h => by cases h) fun h => h hclose
  · exact iff_of_true rfl hclose

theorem firstMarker_nil : firstMarker opener closer [] = none := by
  rw [firstMarker_none_iff]
  intro position _
  simp

theorem markerAt_length {str name after : List α} {pos position : ℕ}
    (h : markerAt opener closer str pos = some (position, name, after)) :
    position + opener.length + name.length + 1 + after.length = str.length := by
  obtain ⟨m, hm, heq⟩ := Option.map_eq_some_iff.mp h
  cases heq
  have hlength := firstMarker_length hm
  rw [List.length_drop] at hlength
  omega

end first

/-- The markers of a text, from the left; the next one is looked for behind the last. -/
def markers (text : List α) : List (Marker α) :=
  match h : firstMarker opener closer text with
  | none => []
  | some m =>
    have : m.after.length < text.length := by
      have hlength := firstMarker_length h
      omega
    m :: markers m.after
termination_by text.length

section expand
variable (plain : List α → List α)

/-- The text with a value in the place of each of its markers. -/
def expandMarkers : List α → List (Marker α) → List α
  | text, [] => text
  | _, m :: ms => m.before ++ plain m.name ++ expandMarkers m.after ms

def expand (text : List α) : List α := expandMarkers plain text (markers opener closer text)

def Marker.taken (m : Marker α) : Taken α := ⟨m.name, plain m.name, m.after⟩

end expand

variable {opener closer} in
theorem markers_none {text : List α} (h : firstMarker opener closer text = none) :
    markers opener closer text = [] := by
  rw [markers]
  split
  · rfl
  · next heq => cases h.symm.trans heq

variable {opener closer} in
theorem markers_some {text : List α} {m : Marker α}
    (h : firstMarker opener closer text = some m) :
    markers opener closer text = m :: markers opener closer m.after := by
  rw [markers]
  split
  · next heq => cases h.symm.trans heq
  · next heq =>
    cases h.symm.trans heq
    rfl

/-! ### The loop -/

section loop
variable {σ : Type} (restart : ℕ → ℕ → ℕ) (value : σ → List α → List α × σ)
  (plain : List α → List α)

/-- A pass takes the first marker from `pos` on, and says where to go on. -/
def rewritePass (s : Rewriting α σ) : Rewriting α σ ⊕ Rewriting α σ :=
  match markerAt opener closer s.str s.pos with
  | none => .inr s
  | some (position, name, after) =>
    .inl
      { str := s.str.take position ++ (value s.table name).1 ++ after
        pos := restart s.pos position
        table := (value s.table name).2
        taken := s.taken ++ [⟨name, (value s.table name).1, after⟩] }

/-- From `pos` on, the next marker is the first one of the rest. -/
def Aligned (done rest : List α) (pos : ℕ) : Prop :=
  markerAt opener closer (done ++ rest) pos =
    (firstMarker opener closer rest).map fun m => (done.length + m.before.length, m.name, m.after)

/-- Each pass finds the next marker of the text. -/
def Placed (done : List α) (pos : ℕ) (rest : List α) : List (Marker α) → Prop
  | [] => Aligned opener closer done rest pos
  | m :: ms =>
    Aligned opener closer done rest pos ∧
      Placed (done ++ m.before ++ plain m.name) (restart pos (done.length + m.before.length))
        m.after ms

/-- Each name has the value meant for it when it is looked up. -/
def Answered (table : σ) : List (Marker α) → Prop
  | [] => True
  | m :: ms => (value table m.name).1 = plain m.name ∧ Answered (value table m.name).2 ms

/-- The table that looking up the names leaves. -/
def tableAfter (table : σ) (ms : List (Marker α)) : σ :=
  ms.foldl (fun t m => (value t m.name).2) table

variable {opener closer restart value plain} {s : Rewriting α σ} {done rest : List α} {pos : ℕ}
  {table : σ} {taken : List (Taken α)} {m : Marker α}

theorem rewritePass_none (h : Aligned opener closer done rest pos)
    (hfirst : firstMarker opener closer rest = none) :
    rewritePass opener closer restart value ⟨done ++ rest, pos, table, taken⟩ =
      .inr ⟨done ++ rest, pos, table, taken⟩ := by
  rw [Aligned, hfirst, Option.map_none] at h
  simp only [rewritePass, h]

theorem rewritePass_some (h : Aligned opener closer done rest pos)
    (hfirst : firstMarker opener closer rest = some m) :
    rewritePass opener closer restart value ⟨done ++ rest, pos, table, taken⟩ =
      .inl ⟨done ++ m.before ++ (value table m.name).1 ++ m.after,
        restart pos (done.length + m.before.length), (value table m.name).2,
        taken ++ [⟨m.name, (value table m.name).1, m.after⟩]⟩ := by
  have htake : (done ++ rest).take (done.length + m.before.length) = done ++ m.before := by
    rw [firstMarker_eq hfirst, ← List.append_assoc, List.take_left' (by simp)]
  rw [Aligned, hfirst, Option.map_some] at h
  simp only [rewritePass, h, htake]

theorem taken_prefix_of_ends {r : Rewriting α σ}
    (h : Ends (rewritePass opener closer restart value) s r) : s.taken <+: r.taken := by
  have hlast := h.last (I := fun s' => s.taken <+: s'.taken) List.prefix_rfl
  have hend := hlast ?_
  · obtain ⟨s', hs', hr⟩ := hend
    unfold rewritePass at hr
    split at hr
    · cases hr
      exact hs'
    · cases hr
  · intro s₁ s₂ h₁ h₂
    unfold rewritePass at h₂
    split at h₂
    · cases h₂
    · cases h₂
      exact h₁.trans (List.prefix_append _ _)

theorem ends_of_placed
    (h : Placed opener closer restart plain done pos rest (markers opener closer rest))
    (hvalues : Answered value plain table (markers opener closer rest)) :
    ∃ pos', Ends (rewritePass opener closer restart value) ⟨done ++ rest, pos, table, taken⟩
      ⟨done ++ expand opener closer plain rest, pos',
        tableAfter value table (markers opener closer rest),
        taken ++ (markers opener closer rest).map (Marker.taken plain)⟩ := by
  induction rest using markers.induct opener closer
    generalizing done pos table taken with
  | case1 rest hfirst =>
    rw [markers_none hfirst] at h
    refine ⟨pos, .stop ?_⟩
    rw [rewritePass_none h hfirst, expand, markers_none hfirst]
    simp [expandMarkers, tableAfter]
  | case2 rest m hfirst _ ih =>
    rw [markers_some hfirst] at h hvalues
    obtain ⟨haligned, hnext⟩ := h
    obtain ⟨hvalue, hvalues⟩ := hvalues
    obtain ⟨pos', hends⟩ := @ih _ _ _ (taken ++ [m.taken plain]) hnext hvalues
    refine ⟨pos', .pass (rewritePass_some haligned hfirst) ?_⟩
    rw [hvalue, expand, markers_some hfirst]
    simpa [expand, expandMarkers, tableAfter, Marker.taken] using hends

theorem placed_of_ends {r : Rewriting α σ}
    (h : Ends (rewritePass opener closer restart value) ⟨done ++ rest, pos, table, taken⟩ r)
    (htaken : r.taken = taken ++ (markers opener closer rest).map (Marker.taken plain)) :
    Placed opener closer restart plain done pos rest (markers opener closer rest) ∧
      Answered value plain table (markers opener closer rest) := by
  induction rest using markers.induct opener closer
    generalizing done pos table taken with
  | case1 rest hfirst =>
    rw [markers_none hfirst] at htaken ⊢
    refine ⟨?_, trivial⟩
    rw [Placed, Aligned, hfirst, Option.map_none]
    rcases hat : markerAt opener closer (done ++ rest) pos with _ | found
    · rfl
    · -- a marker that is taken stays in the list
      have hpass := (ends_of_pass (by simp only [rewritePass, hat]; rfl)).mp h
      have hlength := (taken_prefix_of_ends hpass).length_le
      simp only [htaken, List.map_nil, List.append_nil, List.length_append,
        List.length_singleton] at hlength
      omega
  | case2 rest m hfirst _ ih =>
    rw [markers_some hfirst] at htaken ⊢
    rcases hat : markerAt opener closer (done ++ rest) pos with _ | ⟨position, name, after⟩
    · have hstop := (ends_of_stop (by simp only [rewritePass, hat]; rfl)).mp h
      rw [hstop] at htaken
      simp at htaken
    · have hpass := (ends_of_pass (by simp only [rewritePass, hat]; rfl)).mp h
      obtain ⟨more, hmore⟩ := taken_prefix_of_ends hpass
      dsimp only at hmore
      rw [htaken, List.append_assoc, List.append_cancel_left_eq, List.map_cons,
        List.singleton_append, List.cons.injEq] at hmore
      have hhead := hmore.1
      rw [Marker.taken, Taken.mk.injEq] at hhead
      obtain ⟨rfl, hvalue, rfl⟩ := hhead
      have hposition : position = done.length + m.before.length := by
        have hlength := markerAt_length hat
        have hrest := firstMarker_length hfirst
        rw [List.length_append] at hlength
        omega
      have haligned : Aligned opener closer done rest pos := by
        rw [Aligned, hat, hfirst, hposition, Option.map_some]
      have hnext := (ends_of_pass (rewritePass_some haligned hfirst)).mp h
      rw [hvalue] at hnext
      have hrest := ih hnext (by
        rw [htaken, List.map_cons, List.append_assoc, Marker.taken, List.singleton_append])
      exact ⟨⟨haligned, hrest.1⟩, hvalue, hrest.2⟩

end loop

/-! ### Where the next marker is the one of the rest -/

section aligned

/-- No opener that starts in the part already rewritten has a closer behind it. -/
def NoOpening (done rest : List α) : Prop :=
  ∀ u w, done ++ rest = u ++ opener ++ w → u.length < done.length → closer ∉ w

variable {opener closer} {done rest : List α}

/-- A text has no marker when no opener has a closer behind it. -/
theorem firstMarker_none_of {text : List α}
    (h : ∀ u w, text = u ++ opener ++ w → closer ∉ w) :
    firstMarker opener closer text = none := by
  rcases hm : firstMarker opener closer text with _ | m
  · rfl
  · have hclose := h m.before (m.name ++ closer :: m.after) (by
      rw [List.append_assoc]
      exact firstMarker_eq hm)
    simp at hclose

theorem firstMarker_append_of {s t : List α}
    (h : ∀ u w, s ++ t = u ++ opener ++ w → s.length ≤ u.length) :
    firstMarker opener closer (s ++ t) =
      (firstMarker opener closer t).map fun m => ⟨s ++ m.before, m.name, m.after⟩ := by
  rw [firstMarker, searchFirst_append h, firstMarker]
  rcases searchFirst opener t with _ | position
  · rfl
  · simp only [Option.map_some, Option.bind_some, Nat.add_assoc, List.drop_length_add_append,
      List.take_length_add_append]
    split_ifs
    · rfl
    · rfl

theorem aligned_zero_iff :
    Aligned opener closer done rest 0 ↔ NoOpening opener closer done rest := by
  rw [Aligned, markerAt, List.drop_zero]
  constructor
  · intro h u w huw hlt hclose
    obtain ⟨position, hle, hfind⟩ := exists_searchFirst_le huw
    -- the first opener of all has this closer behind it
    have hmem : closer ∈ (done ++ rest).drop (position + opener.length) := by
      rw [huw, List.append_assoc, ← List.append_assoc,
        List.drop_append_of_le_length (by simpa using hle)]
      exact List.mem_append_right _ hclose
    rw [firstMarker, hfind, Option.bind_some] at h
    dsimp only at h
    rw [if_pos hmem, Option.map_some] at h
    obtain ⟨m, -, heq⟩ := Option.map_eq_some_iff.mp h.symm
    have hposition := congrArg Prod.fst heq
    have hlength := searchFirst_le_length hfind
    simp only [List.length_take] at hposition
    omega
  · intro h
    by_cases hfront : ∀ u w, done ++ rest = u ++ opener ++ w → done.length ≤ u.length
    · rw [firstMarker_append_of hfront, Option.map_map]
      congr 1
      funext m
      simp
    · push Not at hfront
      obtain ⟨u, w, huw, hlt⟩ := hfront
      obtain ⟨position, hle, hfind⟩ := exists_searchFirst_le huw
      obtain ⟨w', hw'⟩ := searchFirst_prefixed hfind
      have hcut : done ++ rest = (done ++ rest).take position ++ opener ++ w' := by
        rw [List.append_assoc, hw', List.take_append_drop]
      have hinner : (done ++ rest).drop (position + opener.length) = w' := by
        rw [← List.drop_drop, ← hw', List.drop_left]
      have hclose : closer ∉ w' := h _ _ hcut (by rw [List.length_take]; omega)
      have hnone : firstMarker opener closer (done ++ rest) = none := by
        rw [firstMarker_none_iff, hfind]
        intro position' heq
        cases heq
        rwa [hinner]
      rw [hnone, firstMarker_none_of]
      · rfl
      · intro u' v' huv hmem
        -- everything behind an opener of the rest is behind that first one
        have hlength := congrArg List.length hcut
        have hsuffix : v' <:+ w' := by
          refine @List.suffix_of_suffix_length_le _ _ (done ++ rest) _ ?_ ?_ ?_
          · exact ⟨done ++ (u' ++ opener), by rw [huv, List.append_assoc]⟩
          · exact ⟨_, hcut.symm⟩
          · simp only [List.length_append, List.length_take] at hlength
            have hrest := congrArg List.length huv
            simp only [List.length_append] at hrest
            omega
        exact hclose (hsuffix.subset hmem)

/-- Going on inside the value is going on in what is left of it. -/
theorem aligned_skip {front : List α} {pos : ℕ} :
    Aligned opener closer (front ++ done) rest (front.length + pos) ↔
      Aligned opener closer done rest pos := by
  rw [Aligned, Aligned, markerAt, markerAt, List.append_assoc, List.drop_length_add_append]
  generalize firstMarker opener closer ((done ++ rest).drop pos) = found
  cases found with
  | none =>
    cases firstMarker opener closer rest with
    | none => simp
    | some m => simp
  | some found =>
    cases firstMarker opener closer rest with
    | none => simp
    | some m =>
      simp only [Option.map_some, Option.some.injEq, Prod.mk.injEq, List.length_append]
      apply and_congr_left'
      omega

end aligned

end markers

section oneDelimiter
variable {α : Type} [DecidableEq α] {d : α} {done rest : List α}

theorem firstMarker_single {t : List α} :
    firstMarker [d] d (d :: t) =
      if d ∈ t then some ⟨[], t.takeWhile (· ≠ d), (t.dropWhile (· ≠ d)).tail⟩ else none := by
  rw [firstMarker, searchFirst_of_prefixed (by simp)]
  rfl

/-- Where the opener is the closer, going on one place too late loses a marker that starts at
once, and only that one. -/
theorem aligned_late_iff :
    Aligned [d] d done rest (done.length + 1) ↔ ∀ t, rest = d :: t → d ∉ t := by
  have hshift : Aligned [d] d done rest (done.length + 1) ↔ Aligned [d] d [] rest 1 := by
    have hskip := @aligned_skip _ _ [d] d [] rest done 1
    rw [List.append_nil] at hskip
    exact hskip
  rw [hshift, Aligned, markerAt, List.nil_append]
  cases rest with
  | nil => simp [firstMarker_nil]
  | cons c t =>
    rw [List.drop_succ_cons, List.drop_zero]
    by_cases hc : c = d
    · subst hc
      rw [firstMarker_single]
      constructor
      · intro h t' ht' hmem
        cases ht'
        rw [if_pos hmem, Option.map_some] at h
        obtain ⟨m, -, heq⟩ := Option.map_eq_some_iff.mp h
        have hposition := congrArg Prod.fst heq
        simp at hposition
      · intro h
        have hmem := h t rfl
        rw [if_neg hmem, firstMarker_none_of]
        · rfl
        · intro u w huw
          exact absurd (by rw [huw]; simp) hmem
    · have hnext := @firstMarker_append_of _ _ [d] d [c] t (by
        intro u w huw
        cases u with
        | nil =>
          exact absurd (List.cons.inj huw).1 hc
        | cons a u => simp)
      rw [List.singleton_append] at hnext
      rw [hnext, Option.map_map]
      refine iff_of_true ?_ fun t' ht' => absurd (List.cons.inj ht').1 hc
      congr 1
      funext m
      simp [Nat.add_comm]

end oneDelimiter

end BootableRecovery.Lib
