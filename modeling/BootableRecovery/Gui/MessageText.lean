import BootableRecovery.Lib.Loop
import BootableRecovery.Lib.Text

namespace BootableRecovery.Gui
open Lib

/-! `Message`: the variables of a message are put into the braces of its format string. -/

namespace Message

/-- `atoi` of a text that begins with a digit: `strtol` saturates, and its result is cut to an
`int`. -/
def atoi (s : Text) : ℤ :=
  Int.bmod (min (Nat.ofDigitChars 10 (s.takeWhile Char.isDigit) 0) (2 ^ 63 - 1)) (2 ^ 32)

/-- `str.find(c, pos)` -/
def find (str : Text) (c : Char) (pos : ℕ) : Option ℕ :=
  ((str.drop pos).findIdx? (· = c)).map (pos + ·)

/-- A name that is looked up, with the variable that is taken for it. -/
abbrev Lookup := Text × Option ℕ

variable (vars : List Text) (next : Text → Text)

/-- The variable that `LocalLookup` takes for a name. -/
def localIndex (name : Text) : Option ℕ :=
  if name.head?.any Char.isDigit then
    let i := atoi name
    if 0 < i ∧ i ≤ Int.bmod vars.length (2 ^ 32) then some (i - 1).toNat else none
  else none

/-- The text for a name: a variable, or what the outer lookup gives. -/
def textOf (index : Option ℕ) (name : Text) : Text :=
  match index with
  | some i => vars.getD i []
  | none => next name

def localLookup (name : Text) : Text := textOf vars next (localIndex vars name) name

/-- The string while it is rewritten, and the names that have been looked up. -/
structure Formatting where
  str : Text
  pos : ℕ
  lookups : List Lookup

/-- One pass of the loop of the conversion. -/
def formatPass (s : Formatting) : Formatting ⊕ (Text × List Lookup) :=
  match find s.str '{' s.pos with
  | none => .inr (s.str, s.lookups)
  | some pos =>
    match find s.str '}' pos with
    | none => .inr (s.str, s.lookups)
    | some stop =>
      let varname := (s.str.drop (pos + 1)).take (stop - pos - 1)
      .inl
        { str := s.str.take pos ++ localLookup vars next varname ++ s.str.drop (stop + 1)
          pos := pos
          lookups := s.lookups ++ [(varname, localIndex vars varname)] }

/-- The conversion of a message with this format string ends with this result. -/
def Converts (format : Text) (result : Text × List Lookup) : Prop :=
  Ends (formatPass vars next) ⟨format, 0, []⟩ result

/-! ### What it is for -/

/-- The first name in braces, with what is before and after it. -/
def splitBraces (text : Text) : Option (Text × Text × Text) :=
  match text.dropWhile (· ≠ '{') with
  | [] => none
  | _ :: inner =>
    if '}' ∈ inner then
      some (text.takeWhile (· ≠ '{'), inner.takeWhile (· ≠ '}'), (inner.dropWhile (· ≠ '}')).tail)
    else none

/-- The variable that a name is the number of. -/
def numbered (name : Text) : Option ℕ :=
  (List.range vars.length).find? fun i => name = decimal (i + 1)

/-- A text is cut at a character that is not in its first part. -/
theorem cut_of_not_mem {before rest : Text} {c : Char} (h : c ∉ before) :
    (before ++ c :: rest).takeWhile (· ≠ c) = before ∧
      (before ++ c :: rest).dropWhile (· ≠ c) = c :: rest := by
  have hall : ∀ a ∈ before, decide (a ≠ c) = true := by
    intro a ha
    simpa using fun hc : a = c => h (hc ▸ ha)
  rw [List.takeWhile_append_of_pos hall, List.dropWhile_append_of_pos hall]
  simp

theorem splitBraces_braces {before name after : Text} (hbefore : '{' ∉ before)
    (hname : '}' ∉ name) :
    splitBraces (before ++ '{' :: (name ++ '}' :: after)) = some (before, name, after) := by
  have hopen := @cut_of_not_mem before (name ++ '}' :: after) '{' hbefore
  have hclose := @cut_of_not_mem name after '}' hname
  rw [splitBraces, hopen.2]
  simp only [hopen.1, hclose.1, hclose.2, List.tail_cons]
  exact if_pos (by simp)

/-- No opening brace with a closing one somewhere after it. -/
def NoPair (text : Text) : Prop := ∀ before rest, text = before ++ '{' :: rest → '}' ∉ rest

theorem noPair_of_not_mem {text : Text} (h : '{' ∉ text) : NoPair text := by
  intro before rest htext
  simp [htext] at h

theorem noPair_open {before rest : Text} (hbefore : '{' ∉ before) :
    NoPair (before ++ '{' :: rest) ↔ '}' ∉ rest := by
  constructor
  · intro h
    exact h before rest rfl
  · intro h u w huw
    -- the brace that is told is the first one or in the rest
    rw [List.append_eq_append_iff] at huw
    obtain ⟨more, hu, hrest⟩ | ⟨more, hbefore', hrest⟩ := huw
    · cases more with
      | nil => rw [← (List.cons.inj hrest).2]; exact h
      | cons a more =>
        intro hclose
        apply h
        rw [(List.cons.inj hrest).2]
        simp [hclose]
    · cases more with
      | nil => rw [(List.cons.inj hrest).2]; exact h
      | cons a more =>
        obtain ⟨rfl, -⟩ := List.cons.inj hrest
        simp [hbefore'] at hbefore

theorem splitBraces_noPair {text : Text} (h : NoPair text) : splitBraces text = none := by
  by_cases hopen : '{' ∈ text
  · obtain ⟨before, inner, rfl, hbefore⟩ := List.eq_append_cons_of_mem hopen
    rw [splitBraces, (cut_of_not_mem hbefore).2]
    exact if_neg (h before inner rfl)
  · rw [splitBraces, List.dropWhile_eq_nil_iff.mpr]
    intro a ha
    simpa using fun hc : a = '{' => hopen (hc ▸ ha)

/-- A text without such a pair, or one that is split at its first. -/
theorem noPair_or_braces (text : Text) : NoPair text ∨ ∃ before name after,
    text = before ++ '{' :: (name ++ '}' :: after) ∧ '{' ∉ before ∧ '}' ∉ name := by
  by_cases hopen : '{' ∈ text
  · obtain ⟨before, inner, rfl, hbefore⟩ := List.eq_append_cons_of_mem hopen
    by_cases hclose : '}' ∈ inner
    · obtain ⟨name, after, rfl, hname⟩ := List.eq_append_cons_of_mem hclose
      exact Or.inr ⟨before, name, after, rfl, hbefore, hname⟩
    · exact Or.inl ((noPair_open hbefore).mpr hclose)
  · exact Or.inl (noPair_of_not_mem hopen)

theorem splitBraces_length {text before name after : Text}
    (h : splitBraces text = some (before, name, after)) : after.length < text.length := by
  obtain hpair | ⟨before', name', after', rfl, hbefore, hname⟩ := noPair_or_braces text
  · rw [splitBraces_noPair hpair] at h
    cases h
  · rw [splitBraces_braces hbefore hname] at h
    cases h
    simp
    omega

/-- The format string with the text for each name in its place, and the names in order. -/
def expand (format : Text) : Text × List Lookup :=
  match h : splitBraces format with
  | none => (format, [])
  | some (before, name, after) =>
    have := splitBraces_length h
    let rest := expand after
    (before ++ textOf vars next (numbered vars name) name ++ rest.1,
      (name, numbered vars name) :: rest.2)
termination_by format.length

/-- The names of a format string, each with what follows it. -/
def inserts (format : Text) : List (Text × Text) :=
  match h : splitBraces format with
  | none => []
  | some (_, name, after) =>
    have := splitBraces_length h
    (name, after) :: inserts after
termination_by format.length

/-- No brace that the inserted text opens is closed, there or in what follows. -/
def Unopened (inserted after : Text) : Prop :=
  ∀ before rest, inserted = before ++ '{' :: rest → '}' ∉ rest ++ after

/-- Every name in the format string is read as a variable's number just when it is that number, and
no text that is inserted brings a name of its own. -/
def InsertsPlainly (format : Text) : Prop :=
  ∀ p ∈ inserts format, localIndex vars p.1 = numbered vars p.1 ∧
    Unopened (textOf vars next (numbered vars p.1) p.1) p.2

section passes
variable {vars next} {done before name after text : Text} {lookups : List Lookup}

theorem find_append {c : Char} (h : c ∉ before) :
    find (done ++ (before ++ c :: after)) c done.length = some (done.length + before.length) := by
  have hfirst : (before ++ c :: after).findIdx? (· = c) = some before.length := by
    rw [List.findIdx?_append, List.findIdx?_eq_none_iff.mpr]
    · simp [List.findIdx?_cons]
    · intro a ha
      simpa using fun hc : a = c => h (hc ▸ ha)
  rw [find, List.drop_left, hfirst, Option.map_some]

theorem find_eq_none {c : Char} (h : c ∉ text) : find (done ++ text) c done.length = none := by
  rw [find, List.drop_left, Option.map_eq_none_iff, List.findIdx?_eq_none_iff]
  intro a ha
  simpa using fun hc : a = c => h (hc ▸ ha)

theorem formatPass_braces (hbefore : '{' ∉ before) (hname : '}' ∉ name) :
    formatPass vars next
        ⟨done ++ (before ++ '{' :: (name ++ '}' :: after)), done.length, lookups⟩ =
      .inl ⟨(done ++ before) ++ (localLookup vars next name ++ after), (done ++ before).length,
        lookups ++ [(name, localIndex vars name)]⟩ := by
  have hopen : find (done ++ (before ++ '{' :: (name ++ '}' :: after))) '{' done.length =
      some (done.length + before.length) := find_append hbefore
  have hclose : find (done ++ (before ++ '{' :: (name ++ '}' :: after))) '}'
      (done.length + before.length) = some (done.length + before.length + (name.length + 1)) := by
    have hinner : '}' ∉ '{' :: name := by simpa using hname
    have hfind := @find_append (done ++ before) _ after '}' hinner
    simpa using hfind
  have hstr : done ++ (before ++ '{' :: (name ++ '}' :: after)) =
      (done ++ before ++ ['{']) ++ (name ++ '}' :: after) := by simp
  have hname' : ((done ++ (before ++ '{' :: (name ++ '}' :: after))).drop
      (done.length + before.length + 1)).take
        (done.length + before.length + (name.length + 1) - (done.length + before.length) - 1) =
      name := by
    rw [hstr, List.drop_left' (by simp; omega), List.take_left' (by omega)]
  have htake : (done ++ (before ++ '{' :: (name ++ '}' :: after))).take
      (done.length + before.length) = done ++ before := by
    rw [← List.append_assoc, List.take_left' (by simp)]
  have hdrop : (done ++ (before ++ '{' :: (name ++ '}' :: after))).drop
      (done.length + before.length + (name.length + 1) + 1) = after := by
    have hparts : done ++ (before ++ '{' :: (name ++ '}' :: after)) =
        (done ++ before ++ '{' :: (name ++ ['}'])) ++ after := by simp
    rw [hparts, List.drop_left' (by simp; omega)]
  simp only [formatPass, hopen, hclose, hname', htake, hdrop, List.length_append,
    List.append_assoc]

theorem formatPass_noPair (h : NoPair text) :
    formatPass vars next ⟨done ++ text, done.length, lookups⟩ = .inr (done ++ text, lookups) := by
  by_cases hopen : '{' ∈ text
  · obtain ⟨before, rest, rfl, hbefore⟩ := List.eq_append_cons_of_mem hopen
    have hclose : find (done ++ (before ++ '{' :: rest)) '}' (done.length + before.length) =
        none := by
      have hnone : '}' ∉ '{' :: rest := by simpa using h before rest rfl
      have hfind := @find_eq_none (done ++ before) _ '}' hnone
      simpa using hfind
    simp only [formatPass, find_append hbefore, hclose]
  · simp [formatPass, find_eq_none hopen]

theorem expand_noPair (h : NoPair text) : expand vars next text = (text, []) := by
  rw [expand]
  split
  · rfl
  · next hsplit => simp [splitBraces_noPair h] at hsplit

theorem expand_braces (hbefore : '{' ∉ before) (hname : '}' ∉ name) :
    expand vars next (before ++ '{' :: (name ++ '}' :: after)) =
      (before ++ textOf vars next (numbered vars name) name ++ (expand vars next after).1,
        (name, numbered vars name) :: (expand vars next after).2) := by
  rw [expand]
  split
  · next hsplit => simp [splitBraces_braces hbefore hname] at hsplit
  · next hsplit =>
    rw [splitBraces_braces hbefore hname] at hsplit
    cases hsplit
    rfl

theorem inserts_noPair (h : NoPair text) : inserts text = [] := by
  rw [inserts]
  split
  · rfl
  · next hsplit => simp [splitBraces_noPair h] at hsplit

theorem inserts_braces (hbefore : '{' ∉ before) (hname : '}' ∉ name) :
    inserts (before ++ '{' :: (name ++ '}' :: after)) = (name, after) :: inserts after := by
  rw [inserts]
  split
  · next hsplit => simp [splitBraces_braces hbefore hname] at hsplit
  · next hsplit =>
    rw [splitBraces_braces hbefore hname] at hsplit
    cases hsplit
    rfl

theorem insertsPlainly_braces (hbefore : '{' ∉ before) (hname : '}' ∉ name) :
    InsertsPlainly vars next (before ++ '{' :: (name ++ '}' :: after)) ↔
      (localIndex vars name = numbered vars name ∧
        Unopened (textOf vars next (numbered vars name) name) after) ∧
      InsertsPlainly vars next after := by
  rw [InsertsPlainly, inserts_braces hbefore hname, List.forall_mem_cons]
  rfl

theorem noPair_append (h : '{' ∉ before) (htext : NoPair text) : NoPair (before ++ text) := by
  by_cases hopen : '{' ∈ text
  · obtain ⟨b, rest, rfl, hb⟩ := List.eq_append_cons_of_mem hopen
    rw [← List.append_assoc, noPair_open (by simp [h, hb])]
    exact htext b rest rfl
  · exact noPair_of_not_mem (by simp [h, hopen])

/-- The scan may start behind a text without an opening brace. -/
theorem formatPass_skip (h : '{' ∉ before) :
    formatPass vars next ⟨done ++ (before ++ text), done.length, lookups⟩ =
      formatPass vars next ⟨(done ++ before) ++ text, (done ++ before).length, lookups⟩ := by
  obtain hpair | ⟨b, name, after, rfl, hb, hname⟩ := noPair_or_braces text
  · rw [formatPass_noPair hpair, formatPass_noPair (noPair_append h hpair), List.append_assoc]
  · have hb' : '{' ∉ before ++ b := by simp [h, hb]
    rw [formatPass_braces hb hname, ← List.append_assoc before, formatPass_braces hb' hname]
    simp

theorem ends_skip {r : Text × List Lookup} (h : '{' ∉ before) :
    Ends (formatPass vars next) ⟨done ++ (before ++ text), done.length, lookups⟩ r ↔
      Ends (formatPass vars next) ⟨(done ++ before) ++ text, (done ++ before).length, lookups⟩
        r := by
  rcases hb : formatPass vars next ⟨done ++ (before ++ text), done.length, lookups⟩ with s | out
  · have hb' := (formatPass_skip h).symm.trans hb
    rw [ends_of_pass hb, ends_of_pass hb']
  · have hb' := (formatPass_skip h).symm.trans hb
    rw [ends_of_stop hb, ends_of_stop hb']

/-- What a loop that ends leaves has no pair of braces, and the names looked up before are still
there. -/
theorem noPair_of_ends {r : Text × List Lookup} (hdone : '{' ∉ done)
    (h : Ends (formatPass vars next) ⟨done ++ text, done.length, lookups⟩ r) :
    NoPair r.1 ∧ lookups <+: r.2 := by
  have hlast := h.last
    (I := fun s => ∃ d t, '{' ∉ d ∧ s.str = d ++ t ∧ s.pos = d.length ∧ lookups <+: s.lookups)
    ⟨done, text, hdone, rfl, rfl, List.prefix_rfl⟩
  have hend := hlast ?_
  · obtain ⟨⟨str, pos, seen⟩, ⟨d, t, hd, hstr, hpos, hseen⟩, hr⟩ := hend
    subst hstr hpos
    obtain hpair | ⟨before, name, after, ht, hbefore, hname⟩ := noPair_or_braces t
    · rw [formatPass_noPair hpair] at hr
      cases hr
      exact ⟨noPair_append hd hpair, hseen⟩
    · subst ht
      rw [formatPass_braces hbefore hname] at hr
      cases hr
  · intro ⟨str, pos, seen⟩ s' ⟨d, t, hd, hstr, hpos, hseen⟩ hs'
    subst hstr hpos
    obtain hpair | ⟨before, name, after, ht, hbefore, hname⟩ := noPair_or_braces t
    · rw [formatPass_noPair hpair] at hs'
      cases hs'
    · subst ht
      rw [formatPass_braces hbefore hname] at hs'
      cases hs'
      exact ⟨d ++ before, _, by simp [hd, hbefore], rfl, rfl, hseen.trans (by simp)⟩

/-- An inserted text is passed over at once, or nothing is looked up any more. -/
theorem ends_inserted {inserted : Text} (h : Unopened inserted after) (r : Text × List Lookup) :
    Ends (formatPass vars next) ⟨done ++ (inserted ++ after), done.length, lookups⟩ r ↔
      Ends (formatPass vars next) ⟨(done ++ inserted) ++ after, (done ++ inserted).length, lookups⟩
        r := by
  by_cases hopen : '{' ∈ inserted
  · obtain ⟨u, w, rfl, hu⟩ := List.eq_append_cons_of_mem hopen
    have hclose := h u w rfl
    have hpair : NoPair (u ++ '{' :: (w ++ after)) := (noPair_open hu).mpr hclose
    have hafter : NoPair after := fun b rest hb => by
      rw [hb] at hclose
      simp_all
    have hstop := @formatPass_noPair vars next done _ lookups hpair
    have hstop' := @formatPass_noPair vars next (done ++ (u ++ '{' :: w)) after lookups hafter
    rw [List.append_assoc u, List.cons_append, ends_of_stop hstop, ends_of_stop hstop']
    simp
  · exact ends_skip hopen

/-- Braces that an inserted text opens are not closed when the loop leaves what was to be left. -/
theorem unopened_of_ends {inserted : Text} (hdone : '{' ∉ done)
    (h : Ends (formatPass vars next) ⟨done ++ (inserted ++ after), done.length, lookups⟩
      (done ++ (inserted ++ (expand vars next after).1), lookups ++ (expand vars next after).2)) :
    Unopened inserted after := by
  by_cases hopen : '{' ∈ inserted
  · obtain ⟨u, w, rfl, hu⟩ := List.eq_append_cons_of_mem hopen
    have hpair := (noPair_of_ends hdone h).1 (done ++ u) (w ++ (expand vars next after).1)
      (by simp)
    rw [List.mem_append, not_or] at hpair
    by_cases hclose : '}' ∈ after
    · -- the next name that is looked up begins with the rest of the inserted text
      obtain ⟨a, rest, rfl, ha⟩ := List.eq_append_cons_of_mem hclose
      have hname : '}' ∉ w ++ a := by simp [hpair.1, ha]
      have hpass := @formatPass_braces vars next done u (w ++ a) rest lookups hu hname
      have hstr : u ++ '{' :: (w ++ a ++ '}' :: rest) = u ++ '{' :: w ++ (a ++ '}' :: rest) := by
        simp
      rw [hstr] at hpass
      rw [ends_of_pass hpass] at h
      have hseen := (noPair_of_ends (by simp [hdone, hu]) h).2
      rw [List.prefix_append_right_inj] at hseen
      obtain hnone | ⟨b, name, rest', htext, hb, hname'⟩ := noPair_or_braces (a ++ '}' :: rest)
      · simp [expand_noPair hnone] at hseen
      · rw [htext, expand_braces hb hname'] at hseen hpair
        have hlook : w ++ a = name := by
          have := (List.cons_prefix_cons.mp hseen).1
          simpa using congrArg Prod.fst this
        have hfree : '}' ∉ b := by
          simp_all
        have hcut : a = b ++ '{' :: name := by
          have hlong := @cut_of_not_mem (b ++ '{' :: name) rest' '}' (by simp [hfree, hname'])
          have hshort := @cut_of_not_mem a rest '}' ha
          rw [List.append_assoc, List.cons_append, ← htext] at hlong
          exact hshort.1.symm.trans hlong.1
        have hlength := congrArg List.length hlook
        simp [hcut] at hlength
        omega
    · intro u' w' hu'
      have hw' := (noPair_open hu).mpr hpair.1 u' w' hu'
      simp [hw', hclose]
  · intro u w huw
    simp [huw] at hopen

theorem ends_of_insertsPlainly (h : InsertsPlainly vars next text) (done : Text)
    (lookups : List Lookup) :
    Ends (formatPass vars next) ⟨done ++ text, done.length, lookups⟩
      (done ++ (expand vars next text).1, lookups ++ (expand vars next text).2) := by
  induction hn : text.length using Nat.strongRecOn generalizing text done lookups with
  | ind n ih =>
    obtain hpair | ⟨before, name, after, rfl, hbefore, hname⟩ := noPair_or_braces text
    · rw [ends_of_stop (formatPass_noPair hpair), expand_noPair hpair, List.append_nil]
    · obtain ⟨⟨hindex, hopen⟩, hafter⟩ := (insertsPlainly_braces hbefore hname).mp h
      have hrest := ih after.length (by simp at hn; omega) hafter
        (done ++ before ++ textOf vars next (numbered vars name) name)
        (lookups ++ [(name, numbered vars name)]) rfl
      rw [ends_of_pass (formatPass_braces hbefore hname), localLookup, hindex, ends_inserted hopen,
        expand_braces hbefore hname]
      simpa using hrest

theorem insertsPlainly_of_ends (hdone : '{' ∉ done)
    (h : Ends (formatPass vars next) ⟨done ++ text, done.length, lookups⟩
      (done ++ (expand vars next text).1, lookups ++ (expand vars next text).2)) :
    InsertsPlainly vars next text := by
  induction hn : text.length using Nat.strongRecOn generalizing text done lookups with
  | ind n ih =>
    obtain hpair | ⟨before, name, after, rfl, hbefore, hname⟩ := noPair_or_braces text
    · simp [InsertsPlainly, inserts_noPair hpair]
    · have hdone' : '{' ∉ done ++ before := by simp [hdone, hbefore]
      rw [ends_of_pass (formatPass_braces hbefore hname), expand_braces hbefore hname] at h
      -- the first name is the first that has been looked up
      have hindex : localIndex vars name = numbered vars name := by
        have hseen := (noPair_of_ends hdone' h).2
        rw [List.prefix_append_right_inj, List.cons_prefix_cons] at hseen
        simpa using hseen.1
      rw [localLookup, hindex] at h
      have hrest : Ends (formatPass vars next)
          ⟨done ++ before ++ (textOf vars next (numbered vars name) name ++ after),
            (done ++ before).length, lookups ++ [(name, numbered vars name)]⟩
          (done ++ before ++ (textOf vars next (numbered vars name) name ++
              (expand vars next after).1),
            lookups ++ [(name, numbered vars name)] ++ (expand vars next after).2) := by
        simpa using h
      have hopen := unopened_of_ends hdone' hrest
      refine (insertsPlainly_braces hbefore hname).mpr ⟨⟨hindex, hopen⟩, ?_⟩
      by_cases hbrace : '{' ∈ textOf vars next (numbered vars name) name
      · -- the brace stays open, so nothing is looked up behind it
        obtain ⟨u, w, huw, -⟩ := List.eq_append_cons_of_mem hbrace
        have hclose := hopen u w huw
        have hafter : NoPair after := fun b rest hb => by
          rw [hb] at hclose
          simp_all
        simp [InsertsPlainly, inserts_noPair hafter]
      · rw [ends_inserted hopen] at hrest
        rw [← List.append_assoc (done ++ before)] at hrest
        exact ih after.length (by simp at hn; omega) (by simp [hdone, hbefore, hbrace]) hrest rfl

end passes

/-- A message is converted to its format string, with the text for each name put in verbatim, just
when no text that is put in brings a name of its own. -/
theorem converts_expand_iff (format : Text) :
    Converts vars next format (expand vars next format) ↔ InsertsPlainly vars next format := by
  constructor
  · intro h
    exact @insertsPlainly_of_ends vars next [] format [] (by simp) h
  · intro h
    exact ends_of_insertsPlainly h [] []

/-- A backup that is named `{1}` is put into its own braces for ever. -/
theorem not_converts_braces :
    ¬∃ r, Converts [['{', '1', '}']] (fun _ => []) ['{', '1', '}'] r := by
  apply not_ends (I := fun s => s.str = ['{', '1', '}'] ∧ s.pos = 0) ⟨rfl, rfl⟩
  intro ⟨str, pos, lookups⟩ ⟨hstr, hpos⟩
  subst hstr hpos
  have hlookup : localLookup [['{', '1', '}']] (fun _ => []) ['1'] = ['{', '1', '}'] := by decide
  have hpass := @formatPass_braces [['{', '1', '}']] (fun _ => []) [] [] ['1'] [] lookups
    (by simp) (by simp)
  rw [hlookup] at hpass
  exact ⟨_, hpass, rfl, rfl⟩

end Message
end BootableRecovery.Gui
