import BootableRecovery.Lib.Search
import BootableRecovery.Lib.Text
import Mathlib.Data.List.Dedup
import Mathlib.Data.List.Infix
import Mathlib.Data.List.Induction

namespace BootableRecovery.Gui
open Lib

/-! The entries that are selected in a file list: one text for the files and one for the folders,
in which every name ends in a slash. -/

/-- `of_batch_files`, `of_batch_folders` and `of_batch_count`. -/
structure BatchLists where
  files : Text
  folders : Text
  count : ℤ
  deriving DecidableEq, Repr

structure Tap where
  isFolder : Bool
  name : Text
  deriving DecidableEq, Repr

namespace BatchLists

def empty : BatchLists := ⟨[], [], 0⟩

def list (s : BatchLists) (isFolder : Bool) : Text := if isFolder then s.folders else s.files

def setList (s : BatchLists) (isFolder : Bool) (list : Text) : BatchLists :=
  if isFolder then { s with folders := list } else { s with files := list }

/-- Adds the name to its list, or cuts it out where the list has it somewhere. -/
def toggle (s : BatchLists) (tap : Tap) : BatchLists :=
  match cutFirst (tap.name ++ ['/']) (s.list tap.isFolder) with
  | some list => { s.setList tap.isFolder list with count := s.count - 1 }
  | none =>
    { s.setList tap.isFolder (s.list tap.isFolder ++ (tap.name ++ ['/'])) with
      count := s.count + 1 }

/-- `NotifySelect` with multiple selection, for the variable `mVariable` of the file list. -/
def notifySelect (mVariable : Text) (s : BatchLists) (tap : Tap) : BatchLists :=
  if tap.isFolder ∧ tap.name = ['.'] then s
  else if mVariable = [] ∧ tap.isFolder = false then s
  else if tap.name = ['.', '.'] then s
  else s.toggle tap

/-- Whether `RenderItem` draws the entry as selected; the entry for the folder above has an icon of
its own. -/
def renderSelected (s : BatchLists) (isFolder : Bool) (text : Text) : Bool :=
  if isFolder ∧ text = ['.', '.'] then false
  else
    decide ('/' :: (text ++ ['/']) <:+: s.list isFolder) ||
      decide (text ++ ['/'] <+: s.list isFolder)

def run (mVariable : Text) (taps : List Tap) : BatchLists :=
  taps.foldl (notifySelect mVariable) empty

end BatchLists

/-! ### What is selected -/

/-- The folder itself and the folder above are no entries to select. -/
def Tap.IsEntry (tap : Tap) : Prop :=
  ¬(tap.isFolder ∧ tap.name = ['.']) ∧ tap.name ≠ ['.', '.']

instance (tap : Tap) : Decidable tap.IsEntry := inferInstanceAs (Decidable (_ ∧ _))

/-- The names that have been tapped in one of the lists. -/
def tapped (taps : List Tap) (isFolder : Bool) : List Text :=
  (taps.filter fun tap => tap.isFolder = isFolder ∧ tap.IsEntry).map Tap.name

/-- The names that have been tapped an odd number of times, in the order of their last tap. -/
def selection (names : List Text) : List Text :=
  names.dedup.filter fun name => names.count name % 2 = 1

def joined (names : List Text) : Text := names.flatMap fun name => name ++ ['/']

/-- The lists hold these names, and they are the ones that are drawn as selected. -/
structure Shows (s : BatchLists) (selected : Bool → List Text) : Prop where
  lists : ∀ isFolder, s.list isFolder = joined (selected isFolder)
  count : s.count = (selected true).length + (selected false).length
  drawn : ∀ isFolder name, '/' ∉ name →
    (s.renderSelected isFolder name = true ↔ name ∈ selected isFolder)

/-- What is selected after these taps. -/
def selectedAfter (taps : List Tap) (isFolder : Bool) : List Text :=
  selection (tapped taps isFolder)

/-- The first of the selected names that ends in the tapped one is the tapped one, or has it right
behind. -/
def Unambiguous (names : List Text) (name : Text) : Prop :=
  ∀ before entry after, names = before ++ entry :: after → name <:+ entry →
    (∀ other ∈ before, ¬name <:+ other) → entry = name ∨ after.head? = some name

/-- The tap finds the name that it is about. -/
def Kept (mVariable : Text) (before : List Tap) (tap : Tap) : Prop :=
  tap.IsEntry → (mVariable ≠ [] ∨ tap.isFolder = true) ∧
    Unambiguous (selectedAfter before tap.isFolder) tap.name

section selection
variable {names : List Text} {name : Text}

theorem selection_nodup (names : List Text) : (selection names).Nodup :=
  (List.nodup_dedup names).filter _

theorem mem_selection : name ∈ selection names ↔ names.count name % 2 = 1 := by
  rw [selection, List.mem_filter, List.mem_dedup, decide_eq_true_iff]
  refine ⟨And.right, fun h => ⟨?_, h⟩⟩
  by_contra hmem
  rw [List.count_eq_zero_of_not_mem hmem] at h
  exact absurd h (by decide)

theorem dedup_concat (names : List Text) (name : Text) :
    (names ++ [name]).dedup = (names.dedup.filter fun n => n ≠ name) ++ [name] := by
  induction names with
  | nil => simp
  | cons n names ih =>
    rw [List.cons_append, List.dedup_cons', List.dedup_cons', ih]
    by_cases hmem : n ∈ names
    · simp [hmem]
    · by_cases heq : n = name
      · subst heq
        simp [hmem]
      · simp [hmem, heq]

/-- A tap takes the name out of the selection, or puts it at its end. -/
theorem selection_concat (names : List Text) (name : Text) :
    selection (names ++ [name]) =
      if name ∈ selection names then (selection names).erase name
      else selection names ++ [name] := by
  have hkeep : ((names.dedup.filter fun n => n ≠ name).filter fun n =>
      (names ++ [name]).count n % 2 = 1) = (selection names).filter fun n => n ≠ name := by
    rw [selection, List.filter_filter, List.filter_filter]
    refine List.filter_congr fun n _ => ?_
    by_cases heq : n = name
    · simp [heq]
    · simp [List.count_append, Ne.symm heq, heq]
  have hlast : (names ++ [name]).count name = names.count name + 1 := by
    simp [List.count_append]
  have herase : (selection names).erase name = (selection names).filter fun n => n ≠ name := by
    rw [(selection_nodup names).erase_eq_filter]
    refine List.filter_congr fun n _ => ?_
    by_cases heq : n = name <;> simp [heq]
  rw [selection, dedup_concat, List.filter_append, hkeep, herase]
  by_cases hmem : name ∈ selection names
  · have hodd := mem_selection.mp hmem
    have heven : ¬(names.count name + 1) % 2 = 1 := by omega
    rw [if_pos hmem, List.filter_singleton]
    simp [hlast, heven]
  · have hodd : (names.count name + 1) % 2 = 1 := by
      have := mt mem_selection.mpr hmem
      omega
    have hall : (selection names).filter (fun n => n ≠ name) = selection names := by
      rw [List.filter_eq_self]
      intro n hn
      simpa using fun h : n = name => hmem (h ▸ hn)
    rw [if_neg hmem, hall, List.filter_singleton]
    simp [hlast, hodd]

end selection

section joined
variable {names : List Text} {name : Text}

theorem joined_cons (entry : Text) (names : List Text) :
    joined (entry :: names) = entry ++ '/' :: joined names := by
  rw [joined, List.flatMap_cons, List.append_assoc, List.singleton_append, joined]

theorem joined_append (names others : List Text) :
    joined (names ++ others) = joined names ++ joined others := List.flatMap_append

/-- The names can be read off the text. -/
theorem joined_inj {others : List Text} (hnames : ∀ n ∈ names, '/' ∉ n)
    (hothers : ∀ n ∈ others, '/' ∉ n) (h : joined names = joined others) : names = others := by
  induction names generalizing others with
  | nil =>
    cases others with
    | nil => rfl
    | cons other others =>
      rw [joined_cons] at h
      exact absurd h.symm (List.append_ne_nil_of_right_ne_nil _ (List.cons_ne_nil _ _))
  | cons n names ih =>
    cases others with
    | nil =>
      rw [joined_cons] at h
      exact absurd h (List.append_ne_nil_of_right_ne_nil _ (List.cons_ne_nil _ _))
    | cons other others =>
      rw [List.forall_mem_cons] at hnames hothers
      rw [joined_cons, joined_cons] at h
      have hfront : n ++ ['/'] <+: other ++ '/' :: joined others := ⟨joined names, by simp [h]⟩
      have heq := (prefixed_delimited hnames.1 hothers.1 _).mp hfront
      rw [heq, List.append_cancel_left_eq, List.cons.injEq] at h
      rw [heq, ih hnames.2 hothers.2 h.2]

/-- A whole entry stands in the text where, and only where, it is one of the names. -/
theorem selected_iff (hnames : ∀ n ∈ names, '/' ∉ n) (hname : '/' ∉ name) :
    '/' :: (name ++ ['/']) <:+: joined names ∨ name ++ ['/'] <+: joined names ↔ name ∈ names := by
  induction names with
  | nil => simp [joined]
  | cons entry names ih =>
    have ih := ih fun n hn => hnames n (List.mem_cons_of_mem _ hn)
    rw [List.forall_mem_cons] at hnames
    rw [joined_cons, prefixed_delimited hname hnames.1, infix_append_of_not_mem hnames.1,
      List.infix_cons_iff, List.cons_prefix_cons, List.mem_cons, ← ih]
    simp only [true_and]
    tauto

local instance lawfulText : LawfulBEq Text := inferInstance

/-- The names after one has been cut, and whether one has been. -/
def toggled (names : List Text) (name : Text) : List Text :=
  if name ∈ names then names.erase name else names ++ [name]

/-- What the cut has to do. -/
def CutsName (names : List Text) (name : Text) : Prop :=
  cutFirst (name ++ ['/']) (joined names) =
    if name ∈ names then some (joined (names.erase name)) else none

theorem unambiguous_cons (entry : Text) (names : List Text) :
    Unambiguous (entry :: names) name ↔
      if name <:+ entry then entry = name ∨ names.head? = some name
      else Unambiguous names name := by
  split_ifs with h
  · constructor
    · intro hall
      exact hall [] entry names rfl h fun _ hmem => absurd hmem List.not_mem_nil
    · intro hfirst before other after heq hsuffix hbefore
      cases before with
      | nil =>
        cases heq
        exact hfirst
      | cons b before =>
        cases heq
        exact absurd h (hbefore _ List.mem_cons_self)
  · constructor
    · intro hall before other after heq hsuffix hbefore
      refine hall (entry :: before) other after (by rw [heq]; rfl) hsuffix fun o ho => ?_
      rcases List.mem_cons.mp ho with rfl | ho
      · exact h
      · exact hbefore o ho
    · intro hall before other after heq hsuffix hbefore
      cases before with
      | nil =>
        cases heq
        exact absurd hsuffix h
      | cons b before =>
        cases heq
        exact hall before other after rfl hsuffix fun o ho => hbefore o (List.mem_cons_of_mem _ ho)

theorem head?_eq_iff_cons_erase : names.head? = some name ↔ names = name :: names.erase name := by
  constructor
  · intro h
    cases names with
    | nil => cases h
    | cons n names =>
      cases h
      rw [List.erase_cons_head]
  · intro h
    rw [h]
    rfl

/-- A name cut from the end of another one does no harm where it comes next. -/
theorem cut_suffix_iff {entry : Text} (hnames : ∀ n ∈ names, '/' ∉ n) (hname : '/' ∉ name)
    (hsuffix : name <:+ entry) (hne : entry ≠ name) :
    (some (entry.take (entry.length - name.length) ++ joined names) =
      if name ∈ entry :: names then some (joined ((entry :: names).erase name)) else none) ↔
      names.head? = some name := by
  obtain ⟨front, rfl⟩ := hsuffix
  rw [List.length_append, Nat.add_sub_cancel, List.take_left]
  by_cases hmem : name ∈ names
  · have herase : ∀ n ∈ name :: names.erase name, '/' ∉ n := by
      rw [List.forall_mem_cons]
      exact ⟨hname, fun n hn => hnames n (List.mem_of_mem_erase hn)⟩
    have hinj : joined names = joined (name :: names.erase name) ↔
        names = name :: names.erase name :=
      ⟨joined_inj hnames herase, fun h => by rw [← h]⟩
    rw [if_pos (List.mem_cons_of_mem _ hmem), List.erase_cons_tail (by simpa using hne),
      joined_cons, Option.some.injEq, List.append_assoc, List.append_cancel_left_eq,
      ← joined_cons, hinj, head?_eq_iff_cons_erase]
  · rw [if_neg (by simp [hmem, Ne.symm hne])]
    refine iff_of_false (Option.some_ne_none _) fun h => hmem ?_
    exact List.mem_of_mem_head? h

/-- The cut does so exactly where the name is unambiguous. -/
theorem cutsName_iff (hnames : ∀ n ∈ names, '/' ∉ n) (hname : '/' ∉ name) :
    CutsName names name ↔ Unambiguous names name := by
  induction names with
  | nil =>
    refine iff_of_true ?_ fun before entry after h => absurd h (by simp)
    rw [CutsName, if_neg List.not_mem_nil, cutFirst_eq_none_iff]
    simp [joined]
  | cons entry names ih =>
    have ih := ih fun n hn => hnames n (List.mem_cons_of_mem _ hn)
    rw [List.forall_mem_cons] at hnames
    rw [unambiguous_cons, CutsName, joined_cons, cutFirst_delimited hname hnames.1]
    by_cases hsuffix : name <:+ entry
    · rw [if_pos hsuffix, if_pos hsuffix]
      by_cases heq : entry = name
      · subst heq
        simp
      · rw [cut_suffix_iff hnames.2 hname hsuffix heq]
        simp [heq]
    · have hne : entry ≠ name := by
        rintro rfl
        exact hsuffix (List.suffix_refl _)
      rw [if_neg hsuffix, if_neg hsuffix, ← ih, CutsName]
      by_cases hmem : name ∈ names
      · rw [if_pos hmem, if_pos (List.mem_cons_of_mem _ hmem), List.erase_cons_tail (by simp [hne]),
          joined_cons]
        have hinj : Function.Injective fun s : Text => entry ++ '/' :: s := fun s t h => by
          simpa using h
        exact (Option.map_injective hinj).eq_iff (b := some (joined (names.erase name)))
      · rw [if_neg hmem, if_neg (by simp [hmem, Ne.symm hne]), Option.map_eq_none_iff]

end joined

section shows
variable {s : BatchLists} {selected : Bool → List Text} {tap : Tap} {mVariable : Text}

/-- The names of a selection: without slashes, and none of them the folder above. -/
structure Plain (selected : Bool → List Text) : Prop where
  slash : ∀ isFolder, ∀ n ∈ selected isFolder, '/' ∉ n
  dots : ['.', '.'] ∉ selected true

theorem Plain.shows (h : Plain selected)
    (hlists : ∀ isFolder, s.list isFolder = joined (selected isFolder))
    (hcount : s.count = (selected true).length + (selected false).length) : Shows s selected where
  lists := hlists
  count := hcount
  drawn isFolder name hname := by
    rw [BatchLists.renderSelected, hlists]
    split_ifs with hup
    · refine iff_of_false not_false fun hmem => h.dots ?_
      rwa [← hup.2, ← hup.1]
    · rw [Bool.or_eq_true, decide_eq_true_iff, decide_eq_true_iff]
      exact selected_iff (h.slash isFolder) hname

@[simp] theorem list_setList (s : BatchLists) (isFolder : Bool) (list : Text) (count : ℤ)
    (isFolder' : Bool) : BatchLists.list { s.setList isFolder list with count := count } isFolder' =
      if isFolder' = isFolder then list else s.list isFolder' := by
  cases isFolder <;> cases isFolder' <;> rfl

/-- The selection after a tap on an entry. -/
def toggledAt (selected : Bool → List Text) (tap : Tap) (isFolder : Bool) : List Text :=
  if isFolder = tap.isFolder then toggled (selected isFolder) tap.name else selected isFolder

theorem toggled_length {names : List Text} {name : Text} :
    ((toggled names name).length : ℤ) = names.length + if name ∈ names then -1 else 1 := by
  unfold toggled
  split_ifs with hmem
  · have hpos := List.length_pos_of_mem hmem
    rw [List.length_erase_of_mem hmem]
    omega
  · simp

/-- One name more or less. -/
theorem toggledAt_length (selected : Bool → List Text) (tap : Tap) :
    ((toggledAt selected tap true).length : ℤ) + (toggledAt selected tap false).length =
      (selected true).length + (selected false).length +
        if tap.name ∈ selected tap.isFolder then -1 else 1 := by
  unfold toggledAt
  cases tap.isFolder
  · simp only [Bool.true_eq_false, if_false, if_true, toggled_length]
    omega
  · simp only [Bool.false_eq_true, if_false, if_true, toggled_length]
    omega

theorem toggle_shows_iff (h : Shows s selected) (hplain : Plain selected)
    (hafter : Plain (toggledAt selected tap)) (hname : '/' ∉ tap.name) :
    Shows (s.toggle tap) (toggledAt selected tap) ↔
      Unambiguous (selected tap.isFolder) tap.name := by
  rw [← cutsName_iff (hplain.slash tap.isFolder) hname, CutsName, ← h.lists]
  have hlength := toggledAt_length selected tap
  have hcount := h.count
  constructor
  · intro hshows
    have hcount' := hshows.count
    have hlist' := hshows.lists tap.isFolder
    unfold BatchLists.toggle at hcount' hlist'
    rw [toggledAt, if_pos rfl, toggled] at hlist'
    rcases hcut : cutFirst (tap.name ++ ['/']) (s.list tap.isFolder) with _ | list
    · rw [hcut] at hcount'
      rw [if_neg]
      intro hmem
      rw [if_pos hmem] at hlength
      dsimp only at hcount'
      omega
    · rw [hcut] at hcount' hlist'
      by_cases hmem : tap.name ∈ selected tap.isFolder
      · rw [if_pos hmem] at hlist' ⊢
        rw [← hlist', list_setList, if_pos rfl]
      · rw [if_neg hmem] at hlength
        dsimp only at hcount'
        omega
  · intro hcuts
    unfold BatchLists.toggle
    rw [hcuts]
    by_cases hmem : tap.name ∈ selected tap.isFolder
    · rw [if_pos hmem] at hlength ⊢
      refine hafter.shows (fun isFolder => ?_) ?_
      · rw [list_setList, toggledAt]
        split_ifs with heq
        · rw [toggled, heq, if_pos hmem]
        · exact h.lists isFolder
      · dsimp only
        omega
    · rw [if_neg hmem] at hlength ⊢
      refine hafter.shows (fun isFolder => ?_) ?_
      · rw [list_setList, toggledAt]
        split_ifs with heq
        · rw [toggled, heq, if_neg hmem, joined_append, h.lists, joined_cons]
          simp [joined]
        · exact h.lists isFolder
      · dsimp only
        omega

end shows

section taps
variable {mVariable : Text} {s : BatchLists} {taps : List Tap} {tap : Tap}

theorem tapped_concat (taps : List Tap) (tap : Tap) (isFolder : Bool) :
    tapped (taps ++ [tap]) isFolder =
      tapped taps isFolder ++ if tap.isFolder = isFolder ∧ tap.IsEntry then [tap.name] else [] := by
  rw [tapped, List.filter_append, List.map_append, List.filter_singleton, tapped]
  by_cases h : tap.isFolder = isFolder ∧ tap.IsEntry <;> simp [h]

theorem selectedAfter_entry (taps : List Tap) (h : tap.IsEntry) :
    selectedAfter (taps ++ [tap]) = toggledAt (selectedAfter taps) tap := by
  funext isFolder
  rw [selectedAfter, tapped_concat, toggledAt, selectedAfter]
  by_cases heq : isFolder = tap.isFolder
  · rw [if_pos ⟨heq.symm, h⟩, if_pos heq, selection_concat, toggled]
  · rw [if_neg fun hand => heq hand.1.symm, if_neg heq, List.append_nil]

theorem selectedAfter_other (taps : List Tap) (h : ¬tap.IsEntry) :
    selectedAfter (taps ++ [tap]) = selectedAfter taps := by
  funext isFolder
  rw [selectedAfter, tapped_concat, if_neg fun hand => h hand.2, List.append_nil, selectedAfter]

theorem plain_selectedAfter (h : ∀ tap ∈ taps, '/' ∉ tap.name) : Plain (selectedAfter taps) := by
  have hmem : ∀ isFolder n, n ∈ selectedAfter taps isFolder →
      ∃ tap ∈ taps, tap.IsEntry ∧ tap.name = n := by
    intro isFolder n hn
    have hdedup := (List.mem_filter.mp hn).1
    rw [List.mem_dedup, tapped] at hdedup
    obtain ⟨tap, htap, rfl⟩ := List.mem_map.mp hdedup
    obtain ⟨htap, hentry⟩ := List.mem_filter.mp htap
    exact ⟨tap, htap, (of_decide_eq_true hentry).2, rfl⟩
  constructor
  · intro isFolder n hn
    obtain ⟨tap, htap, -, rfl⟩ := hmem isFolder n hn
    exact h tap htap
  · intro hn
    obtain ⟨tap, -, hentry, hname⟩ := hmem true _ hn
    exact hentry.2 hname

/-- A tap leaves the lists in order exactly where it finds its name. -/
theorem notifySelect_shows_iff (h : Shows s (selectedAfter taps))
    (hnames : ∀ t ∈ taps ++ [tap], '/' ∉ t.name) :
    Shows (s.notifySelect mVariable tap) (selectedAfter (taps ++ [tap])) ↔
      Kept mVariable taps tap := by
  have hafter := plain_selectedAfter hnames
  have hplain := plain_selectedAfter fun t ht => hnames t (List.mem_append_left _ ht)
  have hname := hnames tap (by simp)
  by_cases hentry : tap.IsEntry
  · rw [selectedAfter_entry taps hentry] at hafter ⊢
    rw [BatchLists.notifySelect, if_neg hentry.1]
    by_cases hvariable : mVariable = [] ∧ tap.isFolder = false
    · rw [if_pos hvariable]
      refine iff_of_false (fun hshows => ?_) fun hkept => ?_
      · have hlength := toggledAt_length (selectedAfter taps) tap
        have hcount := h.count
        have hcount' := hshows.count
        split_ifs at hlength <;> omega
      · rcases (hkept hentry).1 with hne | hfolder
        · exact hne hvariable.1
        · exact absurd (hfolder.symm.trans hvariable.2) (by decide)
    · rw [if_neg hvariable, if_neg hentry.2, toggle_shows_iff h hplain hafter hname]
      have hfree : mVariable ≠ [] ∨ tap.isFolder = true := by
        rw [not_and_or, Bool.not_eq_false] at hvariable
        exact hvariable
      exact ⟨fun hname _ => ⟨hfree, hname⟩, fun hkept => (hkept hentry).2⟩
  · have hstays : s.notifySelect mVariable tap = s := by
      unfold BatchLists.notifySelect
      split_ifs with hdot _ hup
      · rfl
      · rfl
      · rfl
      · exact absurd ⟨hdot, hup⟩ hentry
    rw [hstays, selectedAfter_other taps hentry]
    exact iff_of_true h fun h => absurd h hentry

theorem run_concat (mVariable : Text) (taps : List Tap) (tap : Tap) :
    BatchLists.run mVariable (taps ++ [tap]) =
      (BatchLists.run mVariable taps).notifySelect mVariable tap := List.foldl_append

/-- The lists show what has been selected at all times if, and only if, every tap finds its
name. -/
theorem run_shows_iff (hnames : ∀ tap ∈ taps, '/' ∉ tap.name) :
    (∀ before, before <+: taps → Shows (BatchLists.run mVariable before) (selectedAfter before)) ↔
      ∀ before tap, before ++ [tap] <+: taps → Kept mVariable before tap := by
  induction taps using List.reverseRecOn with
  | nil =>
    have hstart : Shows BatchLists.empty (selectedAfter []) :=
      (plain_selectedAfter hnames).shows (fun isFolder => by cases isFolder <;> rfl) rfl
    refine iff_of_true (fun before h => ?_) fun before tap h => ?_
    · rw [List.prefix_nil.mp h]
      exact hstart
    · exact absurd (List.prefix_nil.mp h) (by simp)
  | append_singleton taps tap ih =>
    have ih := ih fun t ht => hnames t (List.mem_append_left _ ht)
    have hshows : ∀ before, before <+: taps ++ [tap] ↔ before = taps ++ [tap] ∨ before <+: taps :=
      fun before => List.prefix_concat_iff
    constructor
    · intro hall before t hbefore
      have hearlier := ih.mp fun b hb => hall b ((hshows b).mpr (Or.inr hb))
      rcases (hshows _).mp hbefore with heq | hbefore
      · obtain ⟨hbefore, hlast⟩ := List.append_inj' heq rfl
        cases hbefore
        cases hlast
        have hthis := hall taps (List.prefix_append _ _)
        have hnext := hall (taps ++ [tap]) (List.prefix_refl _)
        rw [run_concat] at hnext
        exact (notifySelect_shows_iff hthis hnames).mp hnext
      · exact hearlier before t hbefore
    · intro hall before hbefore
      have hearlier := ih.mpr fun b t hb => hall b t ((hshows _).mpr (Or.inr hb))
      rcases (hshows before).mp hbefore with rfl | hbefore
      · rw [run_concat]
        exact (notifySelect_shows_iff (hearlier taps (List.prefix_refl _)) hnames).mpr
          (hall taps tap (List.prefix_refl _))
      · exact hearlier before hbefore

theorem run_shows_photos :
    (∀ before, before <+: [⟨false, ['a']⟩, ⟨true, ['a', 'b']⟩, ⟨false, ['a']⟩] →
      Shows (BatchLists.run ['v'] before) (selectedAfter before)) ↔
      ∀ before tap, before ++ [tap] <+: [⟨false, ['a']⟩, ⟨true, ['a', 'b']⟩, ⟨false, ['a']⟩] →
        Kept ['v'] before tap :=
  run_shows_iff (by decide)

/-- `ab` is selected, and then `b`: the text `a` is left, with a count of zero. -/
theorem not_shows_suffix :
    BatchLists.run ['v'] [⟨false, ['a', 'b']⟩, ⟨false, ['b']⟩] = ⟨['a'], [], 0⟩ ∧
      selectedAfter [⟨false, ['a', 'b']⟩, ⟨false, ['b']⟩] false = [['a', 'b'], ['b']] ∧
      ¬Shows (BatchLists.run ['v'] [⟨false, ['a', 'b']⟩, ⟨false, ['b']⟩])
        (selectedAfter [⟨false, ['a', 'b']⟩, ⟨false, ['b']⟩]) := by
  refine ⟨by decide, by decide, fun h => ?_⟩
  exact absurd h.count (by decide)

end taps

end BootableRecovery.Gui
