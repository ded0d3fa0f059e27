import BootableRecovery.Gui.MessageText
import BootableRecovery.Lib.Markers
import Mathlib.Logic.Function.Basic

namespace BootableRecovery.Gui
open Lib

/-! `gui_parse_text`: the names of a text are replaced, first those of string resources in braces,
then those of variables between percent signs. -/

/-- `mStrings`: the string resources by name. -/
abbrev Strings := Text → Option Text

/-- A string resource that is asked for, with the text for a missing one. -/
abbrev StringLookup := Text × Text

def bracketed (name : Text) : Text := '[' :: (name ++ [']'])

/-- `FindString`: a missing string is added to the resources. -/
def findString (strings : Strings) (name defaultString : Text) : Text × Strings :=
  match strings name with
  | some value => (value, strings)
  | none => (defaultString, Function.update strings name (some defaultString))

/-- `str.find(needle, pos)` -/
def findText (str needle : Text) (pos : ℕ) : Option ℕ :=
  (searchFirst needle (str.drop pos)).map (pos + ·)

/-- A pass of a loop of `gui_parse_text`: the first opener from `pos` on and the closer behind it
are erased with the name between them, and its value is inserted. -/
def parsePass (opener : Text) (closer : Char) (restart : ℕ → ℕ → ℕ)
    (value : Strings → Text → Text × Strings) (s : Rewriting Char Strings) :
    Rewriting Char Strings ⊕ Rewriting Char Strings :=
  match findText s.str opener s.pos with
  | none => .inr s
  | some next =>
    match Message.find s.str closer (next + 1) with
    | none => .inr s
    | some stop =>
      let var := (s.str.drop (next + opener.length)).take (stop - (next + opener.length))
      let str := s.str.take next ++ s.str.drop (stop + 1)
      .inl
        { str := str.take next ++ (value s.table var).1 ++ str.drop next
          pos := restart s.pos next
          table := (value s.table var).2
          taken := s.taken ++ [⟨var, (value s.table var).1, s.str.drop (stop + 1)⟩] }

def lookupResource (strings : Strings) (var : Text) : Text × Strings :=
  match Message.find var '=' 0 with
  | none => findString strings var (bracketed var)
  | some defaultLoc => findString strings (var.take defaultLoc) (var.drop (defaultLoc + 1))

/-- `{@name}` or `{@name=default}`; `pos` stays where it is. -/
def resourcePass : Rewriting Char Strings → Rewriting Char Strings ⊕ Rewriting Char Strings :=
  parsePass ['{', '@'] '}' (fun pos _ => pos) lookupResource

/-- `data` is `DataManager::GetValue`. -/
def lookupVariable (data : Text → Option Text) (strings : Strings) : Text → Text × Strings
  | [] => (['%'], strings)
  | '@' :: name => findString strings name (bracketed name)
  | var => ((data var).getD [], strings)

/-- `%%`, `%@name%` or `%variable%`; `pos` goes to the second character of what is inserted. -/
def variablePass (data : Text → Option Text) :
    Rewriting Char Strings → Rewriting Char Strings ⊕ Rewriting Char Strings :=
  parsePass ['%'] '%' (fun _ next => next + 1) (lookupVariable data)

/-! ### What it is for -/

section meaning
variable (strings : Strings) (data : Text → Option Text)

/-- The resource that a marker in braces names, and its default. -/
def namedResource (var : Text) : StringLookup :=
  if '=' ∈ var then (var.takeWhile (· ≠ '='), (var.dropWhile (· ≠ '=')).tail)
  else (var, bracketed var)

def stringFor (l : StringLookup) : Text := (strings l.1).getD l.2

def resourceText (var : Text) : Text := stringFor strings (namedResource var)

def variableText : Text → Text
  | [] => ['%']
  | '@' :: name => stringFor strings (name, bracketed name)
  | var => (data var).getD []

def resourceMarkers (text : Text) : List (Marker Char) := markers ['{', '@'] '}' text

def variableMarkers (text : Text) : List (Marker Char) := markers ['%'] '%' text

def expandResources (text : Text) : Text := expand ['{', '@'] '}' (resourceText strings) text

def expandVariables (text : Text) : Text := expand ['%'] '%' (variableText strings data) text

/-- Both loops end with the text expanded, and they take the markers of the text and no others. -/
def Parses (text : Text) : Prop :=
  ∃ s s', Ends resourcePass ⟨text, 0, strings, []⟩ s ∧
    s.str = expandResources strings text ∧
    s.taken = (resourceMarkers text).map (Marker.taken (resourceText strings)) ∧
    Ends (variablePass data) ⟨s.str, 0, s.table, []⟩ s' ∧
    s'.str = expandVariables strings data s.str ∧
    s'.taken = (variableMarkers s.str).map (Marker.taken (variableText strings data))

/-- No `{@` that starts in a part already expanded has a `}` behind it. -/
def NothingOpened : Text → List (Marker Char) → Prop
  | _, [] => True
  | done, m :: ms =>
    NoOpening ['{', '@'] '}' (done ++ m.before ++ resourceText strings m.name) m.after ∧
      NothingOpened (done ++ m.before ++ resourceText strings m.name) ms

/-- An empty value has no marker right behind it, and in another one no `%` after the first
character has a `%` behind it. -/
def ValueQuiet : Text → Text → Prop
  | [], after => ∀ t, after = '%' :: t → '%' ∉ t
  | _ :: w, after => NoOpening ['%'] '%' w after

/-- The string resource that a marker between percent signs asks for. -/
def askedString : Text → Option StringLookup
  | '@' :: name => some (name, bracketed name)
  | _ => none

/-- The string resources that a text asks for, in order. -/
def stringLookups (text : Text) : List StringLookup :=
  (resourceMarkers text).map (fun m => namedResource m.name) ++
    (variableMarkers (expandResources strings text)).filterMap fun m => askedString m.name

/-- The text can be expanded in place, and a missing resource always has the same default. -/
structure ParsesPlainly (text : Text) : Prop where
  resources : NothingOpened strings [] (resourceMarkers text)
  values : ∀ m ∈ variableMarkers (expandResources strings text),
    ValueQuiet (variableText strings data m.name) m.after
  defaults : (stringLookups strings text).Pairwise fun l l' =>
    l.1 = l'.1 → strings l.1 = none → l.2 = l'.2

end meaning

/-! ### The loops as rewriting -/

section passes
variable {opener : Text} {closer : Char} {restart : ℕ → ℕ → ℕ}
  {value : Strings → Text → Text × Strings}

/-- The closer is looked for behind the first character of the opener. -/
theorem find_closer {o : Char} {tail front name after : Text} (htail : closer ∉ tail)
    (hname : closer ∉ name) :
    Message.find (front ++ (o :: tail) ++ (name ++ closer :: after)) closer (front.length + 1) =
      some (front.length + (o :: tail).length + name.length) := by
  have hnot : closer ∉ tail ++ name := by simp [htail, hname]
  have h := @Message.find_append (front ++ [o]) _ after closer hnot
  have hstr : front ++ (o :: tail) ++ (name ++ closer :: after) =
      front ++ [o] ++ (tail ++ name ++ closer :: after) := by simp
  rw [List.length_append, List.length_singleton] at h
  rw [hstr, h, List.length_append, List.length_cons]
  congr 1
  omega

theorem find_no_closer {o : Char} {tail front w : Text} (htail : closer ∉ tail) (hw : closer ∉ w) :
    Message.find (front ++ (o :: tail) ++ w) closer (front.length + 1) = none := by
  have hnot : closer ∉ tail ++ w := by simp [htail, hw]
  have h := @Message.find_eq_none (front ++ [o]) _ closer hnot
  have hstr : front ++ (o :: tail) ++ w = front ++ [o] ++ (tail ++ w) := by simp
  rw [List.length_append, List.length_singleton] at h
  rw [hstr, h]

/-- Erasing a marker and inserting its value is one step of rewriting. -/
theorem parsePass_eq (hopener : opener ≠ []) (hclose : closer ∉ opener.tail) :
    parsePass opener closer restart value = rewritePass opener closer restart value := by
  funext s
  obtain ⟨str, pos, table, taken⟩ := s
  obtain ⟨o, tail, rfl⟩ := List.exists_cons_of_ne_nil hopener
  rw [List.tail_cons] at hclose
  rcases hfind : searchFirst (o :: tail) (str.drop pos) with _ | position
  · have hnone : firstMarker (o :: tail) closer (str.drop pos) = none := by
      rw [firstMarker_none_iff, hfind]
      intro position h
      cases h
    simp only [parsePass, rewritePass, findText, markerAt, hfind, hnone, Option.map_none]
  · obtain ⟨w, hw⟩ := searchFirst_prefixed hfind
    have hinner : (str.drop pos).drop (position + (o :: tail).length) = w := by
      rw [← List.drop_drop, ← hw, List.drop_left]
    obtain ⟨front, hfront, hlength⟩ : ∃ front, str = front ++ (o :: tail) ++ w ∧
        front.length = pos + position := by
      have hlong := congrArg List.length hw
      rw [List.drop_drop, List.length_append, List.length_drop, List.length_cons] at hlong
      refine ⟨str.take (pos + position), ?_, by rw [List.length_take]; omega⟩
      rw [List.append_assoc, hw, List.drop_drop, List.take_append_drop]
    have hbefore : ((str.drop pos).take position).length = position := by
      rw [List.length_take, List.length_drop, hfront]
      simp only [List.length_append, List.length_cons]
      omega
    by_cases hmem : closer ∈ w
    · obtain ⟨name, after, rfl, hname⟩ := List.eq_append_cons_of_mem hmem
      have hcut := @Message.cut_of_not_mem name after closer hname
      have hfirst : firstMarker (o :: tail) closer (str.drop pos) =
          some ⟨(str.drop pos).take position, name, after⟩ := by
        rw [firstMarker, hfind, Option.bind_some]
        dsimp only
        rw [hinner, if_pos hmem, hcut.1, hcut.2, List.tail_cons]
      have hstop : Message.find str closer (pos + position + 1) =
          some (pos + position + (o :: tail).length + name.length) := by
        rw [hfront, ← hlength, find_closer hclose hname]
      have hopen : str.drop (pos + position + (o :: tail).length) = name ++ closer :: after := by
        rw [hfront, ← hlength, List.drop_left' (by simp)]
      have hvar : (str.drop (pos + position + (o :: tail).length)).take
          (pos + position + (o :: tail).length + name.length -
            (pos + position + (o :: tail).length)) = name := by
        rw [hopen, Nat.add_sub_cancel_left, List.take_left]
      have hafter : str.drop (pos + position + (o :: tail).length + name.length + 1) = after := by
        rw [Nat.add_assoc, ← List.drop_drop, hopen, ← List.drop_drop, List.drop_left,
          List.drop_succ_cons, List.drop_zero]
      have htake : str.take (pos + position) = front := by
        rw [hfront, ← hlength, List.append_assoc, List.take_left]
      have hfirstPart : (front ++ after).take (pos + position) = front := by
        rw [← hlength, List.take_left]
      have hlastPart : (front ++ after).drop (pos + position) = after := by
        rw [← hlength, List.drop_left]
      simp only [parsePass, rewritePass, findText, markerAt, hfind, hfirst, Option.map_some, hstop,
        hvar, hafter, htake, hbefore, hfirstPart, hlastPart]
    · have hnone : firstMarker (o :: tail) closer (str.drop pos) = none := by
        rw [firstMarker_none_iff, hfind]
        intro position' heq
        cases heq
        rwa [hinner]
      have hstop : Message.find str closer (pos + position + 1) = none := by
        rw [hfront, ← hlength, find_no_closer hclose hmem]
      simp only [parsePass, rewritePass, findText, markerAt, hfind, hnone, Option.map_none,
        Option.map_some, hstop]

theorem resourcePass_eq :
    resourcePass = rewritePass ['{', '@'] '}' (fun pos _ => pos) lookupResource :=
  parsePass_eq (by decide) (by decide)

theorem variablePass_eq (data : Text → Option Text) :
    variablePass data = rewritePass ['%'] '%' (fun _ next => next + 1) (lookupVariable data) :=
  parsePass_eq (by decide) (by decide)

end passes

/-! ### The resources while they are looked up -/

section lookups
variable {strings table : Strings}

theorem findString_fst (l : StringLookup) :
    (findString table l.1 l.2).1 = stringFor table l := by
  rw [findString, stringFor]
  cases table l.1 with
  | none => rfl
  | some value => rfl

theorem findString_missing {name : Text} (h : table name = none) (d : Text) :
    (findString table name d).2 = Function.update table name (some d) := by
  rw [findString, h]

theorem findString_present {name value : Text} (h : table name = some value) (d : Text) :
    (findString table name d).2 = table := by
  rw [findString, h]

theorem lookupResource_eq (var : Text) :
    lookupResource table var = findString table (namedResource var).1 (namedResource var).2 := by
  rw [lookupResource, namedResource]
  by_cases hmem : '=' ∈ var
  · obtain ⟨name, rest, rfl, hname⟩ := List.eq_append_cons_of_mem hmem
    have hcut := @Message.cut_of_not_mem name rest '=' hname
    have hfind := @Message.find_append [] name rest '=' hname
    rw [List.nil_append, List.length_nil, Nat.zero_add] at hfind
    rw [hfind, if_pos hmem, hcut.1, hcut.2]
    dsimp only
    rw [List.take_left, ← List.drop_drop, List.drop_left, List.drop_succ_cons, List.drop_zero,
      List.tail_cons]
  · have hfind := @Message.find_eq_none [] var '=' hmem
    rw [List.nil_append, List.length_nil] at hfind
    rw [hfind, if_neg hmem]

theorem lookupVariable_eq (data : Text → Option Text) (var : Text) :
    lookupVariable data table var =
      (askedString var).elim (variableText strings data var, table)
        fun l => findString table l.1 l.2 := by
  unfold askedString
  split
  · rfl
  · next hresource =>
    rw [Option.elim_none]
    cases var with
    | nil => rfl
    | cons c name =>
      unfold lookupVariable variableText
      split
      · next heq => cases heq
      · next heq => exact absurd heq (hresource _)
      · rfl

theorem variableText_asked (data : Text → Option Text) {var : Text} {l : StringLookup}
    (h : askedString var = some l) : variableText strings data var = stringFor strings l := by
  unfold askedString at h
  split at h
  · cases h
    rfl
  · cases h

variable (strings) in
/-- Every lookup finds what the resources had at first. -/
def AllFound : Strings → List StringLookup → Prop
  | _, [] => True
  | table, l :: ls =>
    stringFor table l = stringFor strings l ∧ AllFound (findString table l.1 l.2).2 ls

def stringsAfter (table : Strings) (ls : List StringLookup) : Strings :=
  ls.foldl (fun t l => (findString t l.1 l.2).2) table

theorem allFound_append (ls ls' : List StringLookup) : AllFound strings table (ls ++ ls') ↔
    AllFound strings table ls ∧ AllFound strings (stringsAfter table ls) ls' := by
  induction ls generalizing table with
  | nil => simp [AllFound, stringsAfter]
  | cons l ls ih =>
    rw [List.cons_append, AllFound, AllFound, ih, and_assoc]
    rfl

theorem answered_resources (ms : List (Marker Char)) :
    Answered lookupResource (resourceText strings) table ms ↔
      AllFound strings table (ms.map fun m => namedResource m.name) := by
  induction ms generalizing table with
  | nil => rfl
  | cons m ms ih =>
    rw [Answered, List.map_cons, AllFound, ih, lookupResource_eq, findString_fst]
    rfl

theorem tableAfter_resources (ms : List (Marker Char)) :
    tableAfter lookupResource table ms =
      stringsAfter table (ms.map fun m => namedResource m.name) := by
  rw [tableAfter, stringsAfter, List.foldl_map]
  simp only [lookupResource_eq]

theorem answered_variables (data : Text → Option Text) (ms : List (Marker Char)) :
    Answered (lookupVariable data) (variableText strings data) table ms ↔
      AllFound strings table (ms.filterMap fun m => askedString m.name) := by
  induction ms generalizing table with
  | nil => rfl
  | cons m ms ih =>
    rw [Answered, @lookupVariable_eq strings, ih, List.filterMap_cons]
    rcases hasked : askedString m.name with _ | l
    · simp only [Option.elim_none, true_and]
    · rw [Option.elim_some, findString_fst, variableText_asked data hasked]
      rfl

/-- The table holds the resources and the missing ones looked up so far. -/
structure Extends (strings table : Strings) (seen : List StringLookup) : Prop where
  known : ∀ name value, strings name = some value → table name = some value
  same : ∀ l ∈ seen, strings l.1 = none → table l.1 = some l.2
  added : ∀ name d, strings name = none → table name = some d → (name, d) ∈ seen

theorem Extends.refl (strings : Strings) : Extends strings strings [] where
  known _ _ h := h
  same _ h := absurd h List.not_mem_nil
  added _ _ h h' := by cases h.symm.trans h'

theorem Extends.findString {seen : List StringLookup} {l : StringLookup}
    (h : Extends strings table seen) (hfound : stringFor table l = stringFor strings l) :
    Extends strings (findString table l.1 l.2).2 (seen ++ [l]) := by
  rw [stringFor, stringFor] at hfound
  rcases htable : table l.1 with _ | value
  · rw [findString_missing htable]
    refine ⟨fun name value hname => ?_, fun l' hl' hmissing => ?_, fun name d hmissing hd => ?_⟩
    · have hne : name ≠ l.1 := by
        rintro rfl
        cases htable.symm.trans (h.known _ _ hname)
      rw [Function.update_of_ne hne]
      exact h.known _ _ hname
    · rcases List.mem_append.mp hl' with hl' | hl'
      · have hsame := h.same l' hl' hmissing
        have hne : l'.1 ≠ l.1 := fun heq => by
          rw [heq, htable] at hsame
          cases hsame
        rw [Function.update_of_ne hne]
        exact hsame
      · rw [List.mem_singleton.mp hl', Function.update_self]
    · by_cases hne : name = l.1
      · subst hne
        rw [Function.update_self] at hd
        cases hd
        exact List.mem_append_right _ (List.mem_singleton_self _)
      · rw [Function.update_of_ne hne] at hd
        exact List.mem_append_left _ (h.added _ _ hmissing hd)
  · rw [findString_present htable]
    refine ⟨h.known, fun l' hl' hmissing => ?_, fun name d hmissing hd => ?_⟩
    · rcases List.mem_append.mp hl' with hl' | hl'
      · exact h.same l' hl' hmissing
      · rw [List.mem_singleton.mp hl'] at hmissing ⊢
        rw [htable, hmissing, Option.getD_some, Option.getD_none] at hfound
        rw [← hfound]
        exact htable
    · exact List.mem_append_left _ (h.added _ _ hmissing hd)

variable (strings) in
/-- The two lookups do not ask for one missing resource with different defaults. -/
def SameDefault (l l' : StringLookup) : Prop := l.1 = l'.1 → strings l.1 = none → l.2 = l'.2

theorem Extends.found_iff {seen : List StringLookup} {l : StringLookup}
    (h : Extends strings table seen) :
    stringFor table l = stringFor strings l ↔ ∀ l' ∈ seen, SameDefault strings l' l := by
  rw [stringFor, stringFor]
  constructor
  · intro hfound l' hl' hname hmissing
    have hsame := h.same l' hl' hmissing
    rw [hname] at hsame hmissing
    rwa [hsame, hmissing, Option.getD_some, Option.getD_none] at hfound
  · intro hall
    rcases hstring : strings l.1 with _ | value
    · rcases htable : table l.1 with _ | d
      · rfl
      · exact hall (l.1, d) (h.added _ _ hstring htable) rfl hstring
    · rw [h.known _ _ hstring]

theorem Extends.allFound_iff {seen : List StringLookup} (h : Extends strings table seen)
    (ls : List StringLookup) : AllFound strings table ls ↔
      (∀ l ∈ seen, ∀ l' ∈ ls, SameDefault strings l l') ∧ ls.Pairwise (SameDefault strings) := by
  induction ls generalizing table seen with
  | nil => simp [AllFound]
  | cons l ls ih =>
    rw [AllFound, h.found_iff, List.pairwise_cons]
    constructor
    · rintro ⟨hl, hls⟩
      have hrest := (ih (h.findString (h.found_iff.mpr hl))).mp hls
      refine ⟨fun l' hl' l'' hl'' => ?_, fun l' hl' => ?_, hrest.2⟩
      · rcases List.mem_cons.mp hl'' with rfl | hl''
        · exact hl l' hl'
        · exact hrest.1 l' (List.mem_append_left _ hl') l'' hl''
      · exact hrest.1 l (List.mem_append_right _ (List.mem_singleton_self l)) l' hl'
    · rintro ⟨hseen, hfirst, hls⟩
      have hl : ∀ l' ∈ seen, SameDefault strings l' l := fun l' hl' =>
        hseen l' hl' l List.mem_cons_self
      refine ⟨hl, (ih (h.findString (h.found_iff.mpr hl))).mpr ⟨fun l' hl' l'' hl'' => ?_, hls⟩⟩
      rcases List.mem_append.mp hl' with hl' | hl'
      · exact hseen l' hl' l'' (List.mem_cons_of_mem l hl'')
      · rw [List.mem_singleton.mp hl']
        exact hfirst l'' hl''

theorem allFound_iff (ls : List StringLookup) :
    AllFound strings strings ls ↔ ls.Pairwise (SameDefault strings) := by
  rw [(Extends.refl strings).allFound_iff]
  exact and_iff_right fun l hl => absurd hl List.not_mem_nil

end lookups

/-! ### The places that the loops go on from -/

section places
variable {strings : Strings} {done rest : Text} {ms : List (Marker Char)}

theorem placed_resources :
    Placed ['{', '@'] '}' (fun pos _ => pos) (resourceText strings) done 0 rest ms ↔
      NoOpening ['{', '@'] '}' done rest ∧ NothingOpened strings done ms := by
  induction ms generalizing done rest with
  | nil => rw [Placed, aligned_zero_iff, NothingOpened, and_true]
  | cons m ms ih => rw [Placed, aligned_zero_iff, ih, NothingOpened]

theorem aligned_value {front value after : Text} :
    Aligned ['%'] '%' (front ++ value) after (front.length + 1) ↔ ValueQuiet value after := by
  cases value with
  | nil =>
    rw [List.append_nil, aligned_late_iff]
    rfl
  | cons c w =>
    have hskip := @aligned_skip _ _ ['%'] '%' w after (front ++ [c]) 0
    rw [List.append_assoc, List.singleton_append, List.length_append, List.length_singleton,
      Nat.add_zero] at hskip
    rw [hskip, aligned_zero_iff]
    rfl

theorem placed_variables {plain : Text → Text} {pos : ℕ} :
    Placed ['%'] '%' (fun _ next => next + 1) plain done pos rest ms ↔
      Aligned ['%'] '%' done rest pos ∧ ∀ m ∈ ms, ValueQuiet (plain m.name) m.after := by
  induction ms generalizing done rest pos with
  | nil => simp [Placed]
  | cons m ms ih => rw [Placed, ih, ← List.length_append, aligned_value, List.forall_mem_cons]

end places

theorem noOpening_nil (opener : Text) (closer : Char) (rest : Text) :
    NoOpening opener closer [] rest := fun _ _ _ h => absurd h (Nat.not_lt_zero _)

section parses
variable {strings : Strings} {data : Text → Option Text} {text : Text}

theorem stringLookups_found_iff :
    (AllFound strings strings ((resourceMarkers text).map fun m => namedResource m.name) ∧
      AllFound strings
        (stringsAfter strings ((resourceMarkers text).map fun m => namedResource m.name))
        ((variableMarkers (expandResources strings text)).filterMap fun m =>
          askedString m.name)) ↔
      (stringLookups strings text).Pairwise (SameDefault strings) := by
  rw [← allFound_append, ← stringLookups, allFound_iff]

theorem Parses.plainly (h : Parses strings data text) : ParsesPlainly strings data text := by
  obtain ⟨s, s', hs, hstr, htaken, hs', hstr', htaken'⟩ := h
  rw [resourcePass_eq] at hs
  rw [variablePass_eq, hstr] at hs'
  rw [hstr] at htaken'
  obtain ⟨hplaced, hanswered⟩ := @placed_of_ends _ _ _ _ _ _ _ (resourceText strings) []
    text _ _ [] s hs htaken
  -- the first loop leaves the table that its lookups make
  obtain ⟨pos, hends⟩ := @ends_of_placed _ _ _ _ _ _ _ _ [] _ _ _ [] hplaced hanswered
  rw [hs.unique hends] at hs'
  obtain ⟨hplaced', hanswered'⟩ := @placed_of_ends _ _ _ _ _ _ _
    (variableText strings data) [] (expandResources strings text) _ _ [] s' hs' htaken'
  rw [answered_resources] at hanswered
  rw [answered_variables, tableAfter_resources] at hanswered'
  exact ⟨(placed_resources.mp hplaced).2, (placed_variables.mp hplaced').2,
    stringLookups_found_iff.mp ⟨hanswered, hanswered'⟩⟩

theorem ParsesPlainly.parses (h : ParsesPlainly strings data text) :
    Parses strings data text := by
  have hfound := stringLookups_found_iff.mpr h.defaults
  obtain ⟨pos, hends⟩ := @ends_of_placed _ _ _ _ _ _ _ _ [] _ _ _ []
    (placed_resources.mpr ⟨noOpening_nil _ _ _, h.resources⟩)
    ((answered_resources _).mpr hfound.1)
  obtain ⟨pos', hends'⟩ := @ends_of_placed _ _ _ _ _ _ _ _ [] _ _ _ []
    (placed_variables.mpr ⟨aligned_zero_iff.mpr (noOpening_nil _ _ _), h.values⟩)
    ((answered_variables data _).mpr hfound.2)
  rw [← resourcePass_eq, tableAfter_resources] at hends
  rw [← variablePass_eq] at hends'
  exact ⟨_, _, hends, rfl, rfl, hends', rfl, rfl⟩

end parses

/-- A text is parsed as meant exactly where its values and resources stay apart from what is
around them and a missing resource has one default. -/
theorem parses_iff (strings : Strings) (data : Text → Option Text) (text : Text) :
    Parses strings data text ↔ ParsesPlainly strings data text :=
  ⟨Parses.plainly, ParsesPlainly.parses⟩

/-- `%a%%b%` -/
def adjacentText : Text := ['%', 'a', '%', '%', 'b', '%']

def emptyVariable (name : Text) : Option Text := if name = ['b'] then some ['x'] else some []

/-- `{@x}` -/
def selfText : Text := ['{', '@', 'x', '}']

/-- A variable behind an empty one is not replaced, and a resource that names itself is replaced
again and again. -/
theorem not_parses_adjacent :
    ¬Parses (fun _ => none) emptyVariable adjacentText ∧
      ¬∃ s, Ends resourcePass ⟨selfText, 0, fun _ => some selfText, []⟩ s := by
  constructor
  · intro h
    have hresources : expandResources (fun _ => none) adjacentText = adjacentText := by
      rw [expandResources, expand, markers_none rfl]
      rfl
    have hmarkers : variableMarkers adjacentText =
        ⟨[], ['a'], ['%', 'b', '%']⟩ :: variableMarkers ['%', 'b', '%'] := markers_some rfl
    have hquiet := h.plainly.values ⟨[], ['a'], ['%', 'b', '%']⟩
      (by rw [hresources, hmarkers]; exact List.mem_cons_self)
    exact hquiet ['b', '%'] rfl (by simp)
  · apply not_ends (I := fun s => s.str = selfText ∧ s.pos = 0 ∧ s.table = fun _ => some selfText)
    · exact ⟨rfl, rfl, rfl⟩
    · rintro ⟨str, pos, table, taken⟩ ⟨hstr, hpos, htable⟩
      subst hstr hpos htable
      exact ⟨_, rfl, rfl, rfl, rfl⟩

end BootableRecovery.Gui
