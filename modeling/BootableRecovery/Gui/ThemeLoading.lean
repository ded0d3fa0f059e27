import BootableRecovery.Gui.PageTemplates
import BootableRecovery.Lib.Text

namespace BootableRecovery.Gui.Theme
open Lib Node

/-! `PageSet::Load`: a theme is read from its main file, with the files that are included. -/

/-- `first_node(name)` -/
def Node.firstNode (node : Node) (name : String) : Option Node := (named name node.children).head?

/-- `LoadingContext`, with the pages of the `PageSet` and what the called code keeps. A buffer is
known by the file it was read from. -/
structure Loading (ω : Type) where
  filenames : List String
  xmlbuffers : List String
  styles : List Node
  templates : List Node
  pages : List Page
  world : ω

/-- `atoi`: a sign may stand before the digits, `strtol` saturates, and its result is cut to an
`int`. -/
def atoi (s : Text) : ℤ :=
  let s := s.dropWhile isSpace
  let digits := if s.head? = some '-' ∨ s.head? = some '+' then s.tail else s
  let value := Nat.ofDigitChars 10 (digits.takeWhile Char.isDigit) 0
  let long := if s.head? = some '-' then -(min value (2 ^ 63) : ℤ) else min value (2 ^ 63 - 1)
  Int.bmod long (2 ^ 32)

/-- `LoadDetails`: there is no result where the missing `height` of a resolution with `resizing`
is read. -/
def loadDetails (zip : Bool) (root : Node) : Option ℤ :=
  match root.firstNode "details" with
  | none => some 0
  | some details =>
    let version : ℤ := match details.firstNode "themeversion" with
      | some node => atoi node.value.toList
      | none => 0
    if version ≠ 3 ∧ zip then some (-2)
    else
      match details.firstNode "resolution" with
      | none => some 0
      | some resolution =>
        if (resolution.firstAttribute "resizing").isSome ∧
            (resolution.firstAttribute "height").isNone then none
        else some 0

/-- How called code and the processing of a page are run. -/
structure Runner (ω : Type) where
  call : List Node → Call ω → Option ω
  process : List Node → List Node → Node → Making ω → Option (Bool × Making ω)

variable {ω : Type} (files : List (String × List Node)) (zip : Bool)
  (calls : Callee → Node → ω → Call ω)

/-- The constructor of a page. -/
def makePage (run : Runner ω) (child : Node) (s : Loading ω) : Option (Making ω) :=
  match child.firstAttribute "name" with
  | none => some { page := ⟨"", none, [], [], [], []⟩, world := s.world }
  | some name => do
    let r ← run.process s.styles s.templates child
      { page := ⟨name, none, [], [], [], []⟩, world := s.world }
    return r.2

/-- `LoadPages` -/
def loadPages (run : Runner ω) : List Node → Loading ω → Option (ℤ × Loading ω)
  | [], s => some (if s.pages.isEmpty then -1 else 0, s)
  | child :: rest, s => do
    let made ← makePage run child s
    if made.page.name = "" then loadPages run rest { s with world := made.world }
    else loadPages run rest { s with pages := s.pages ++ [made.page], world := made.world }

/-- What loads the resources, the variables or the mouse cursor is called where there is a node
for it. -/
def callFor (run : Runner ω) (callee : Callee) (node : Option Node) (s : Loading ω) :
    Option (Loading ω) :=
  match node with
  | none => some s
  | some node => do
    let world ← run.call s.styles (calls callee node s.world)
    return { s with world := world }

/-- The pages of a file, where it has a node for them. -/
def loadPagesOf (run : Runner ω) (node : Option Node) (s : Loading ω) : Option (ℤ × Loading ω) :=
  match node with
  | none => some (0, s)
  | some pages => loadPages run (pages.every "page") s

/-- What the loop over the includes goes through. -/
def includesOf (root : Node) : List Node :=
  match root.firstNode "include" with
  | none => []
  | some child => child.children

/-- The content of a file, up to its includes: a result, or the includes that are to be
processed. -/
def loadRoot (run : Runner ω) (root : Node) (s : Loading ω) :
    Option (Loading ω × (ℤ ⊕ List Node)) := do
  let s ← callFor calls run .resources (root.firstNode "resources") s
  let s ← callFor calls run .variables (root.firstNode "variables") s
  let s ← callFor calls run .mousecursor (root.firstNode "mousecursor") s
  let r ← loadPagesOf run (root.firstNode "pages")
    { s with
      templates := s.templates ++ (root.firstNode "templates").toList
      styles := s.styles ++ (root.firstNode "styles").toList }
  return (r.2, if r.1 ≠ 0 then .inl (-1) else .inr (includesOf root))

/-- `Load` of a file that is not in the set of files, up to its includes. -/
def openFile (run : Runner ω) (filename : String) (s : Loading ω) :
    Option (Loading ω × (ℤ ⊕ List Node)) :=
  match files.lookup filename with
  | none => some ({ s with filenames := filename :: s.filenames }, .inl (-1))
  | some doc =>
    let opened := { s with
      filenames := filename :: s.filenames
      xmlbuffers := s.xmlbuffers ++ [filename] }
    match (named "recovery" doc ++ named "install" doc).head? with
    | none => some (opened, .inl (-1))
    | some root =>
      -- only the main file is the first one
      match if s.xmlbuffers.isEmpty then loadDetails zip root else some 0 with
      | none => none
      | some rc => if rc ≠ 0 then some (opened, .inl rc) else loadRoot calls run root opened

/-- Called code and pages are run with a limit. -/
def limited (n : ℕ) : Runner ω where
  call styles call := runCall styles n call
  process styles templates page s := processNode styles calls (some templates) n page 0 s

mutual

def load : ℕ → String → Loading ω → Option (ℤ × Loading ω)
  | 0, _, _ => none
  | n + 1, filename, s =>
    if filename ∈ s.filenames then some (0, s)
    else do
      let r ← openFile files zip calls (limited calls n) filename s
      match r.2 with
      | .inl rc => return (rc, r.1)
      | .inr nodes => includeAll n (named "xml" nodes) r.1

/-- The loop over the includes, at the node that the list begins with. -/
def includeAll : ℕ → List Node → Loading ω → Option (ℤ × Loading ω)
  | 0, _, _ => none
  | _ + 1, [], s => some (0, s)
  | n + 1, node :: rest, s =>
    match node.firstAttribute "name" with
    -- `continue` without a step to the next include
    | none => includeAll n (node :: rest) s
    | some filename => do
      let r ← loadInclude n node filename s
      if r.1 = 0 then includeAll n (named "xml" rest) r.2 else return r

/-- One include, with its default. -/
def loadInclude : ℕ → Node → String → Loading ω → Option (ℤ × Loading ω)
  | 0, _, _, _ => none
  | n + 1, node, filename, s => do
    let r ← load n filename s
    if r.1 = 0 then return r
    else
      match node.firstAttribute "default" with
      | some filename => load n filename r.2
      | none => return r

end

/-- Called code and pages are run to their ends. -/
def unlimited : Runner ω where
  call := settle
  process styles templates page s := follow styles calls (events (some templates) 10 page) s

/-- What is loaded: a file, an include, or the includes of a file. -/
inductive Task
  | file (filename : String)
  | one (node : Node)
  | all (nodes : List Node)

/-- Loading goes through the includes of a file in order, until one of them returns an error. -/
inductive Reads : Task → Loading ω → ℤ × Loading ω → Prop
  | again {filename s} : filename ∈ s.filenames → Reads (.file filename) s (0, s)
  | closed {filename s s' rc} : filename ∉ s.filenames →
      openFile files zip calls (unlimited calls) filename s = some (s', .inl rc) →
      Reads (.file filename) s (rc, s')
  | opened {filename s s' nodes r} : filename ∉ s.filenames →
      openFile files zip calls (unlimited calls) filename s = some (s', .inr nodes) →
      Reads (.all (nodes.filter (·.name = "xml"))) s' r → Reads (.file filename) s r
  | read {node filename s r} : node.firstAttribute "name" = some filename →
      Reads (.file filename) s r → (r.1 = 0 ∨ node.firstAttribute "default" = none) →
      Reads (.one node) s r
  | fallback {node filename other s r r'} : node.firstAttribute "name" = some filename →
      Reads (.file filename) s r → r.1 ≠ 0 → node.firstAttribute "default" = some other →
      Reads (.file other) r.2 r' → Reads (.one node) s r'
  | done {s} : Reads (.all []) s (0, s)
  | next {node rest s r r'} : Reads (.one node) s r → r.1 = 0 → Reads (.all rest) r.2 r' →
      Reads (.all (node :: rest)) s r'
  | error {node rest s r} : Reads (.one node) s r → r.1 ≠ 0 → Reads (.all (node :: rest)) s r

/-- Loading comes to an include without a name, or to a file that is not opened to the end. -/
inductive Stops : Task → Loading ω → Prop
  | opening {filename s} : filename ∉ s.filenames →
      openFile files zip calls (unlimited calls) filename s = none → Stops (.file filename) s
  | opened {filename s s' nodes} : filename ∉ s.filenames →
      openFile files zip calls (unlimited calls) filename s = some (s', .inr nodes) →
      Stops (.all (nodes.filter (·.name = "xml"))) s' → Stops (.file filename) s
  | nameless {node s} : node.firstAttribute "name" = none → Stops (.one node) s
  | read {node filename s} : node.firstAttribute "name" = some filename →
      Stops (.file filename) s → Stops (.one node) s
  | fallback {node filename other s r} : node.firstAttribute "name" = some filename →
      Reads files zip calls (.file filename) s r → r.1 ≠ 0 →
      node.firstAttribute "default" = some other → Stops (.file other) r.2 → Stops (.one node) s
  | here {node rest s} : Stops (.one node) s → Stops (.all (node :: rest)) s
  | later {node rest s r} : Reads files zip calls (.one node) s r → r.1 = 0 →
      Stops (.all rest) r.2 → Stops (.all (node :: rest)) s

theorem computes_makePage (child : Node) (s : Loading ω) :
    Computes (fun n => makePage (limited calls n) child s)
      (makePage (unlimited calls) child s) := by
  unfold makePage
  rcases child.firstAttribute "name" with - | name
  · exact computes_const _
  · apply (computes_processNode s.styles calls (some s.templates) (show 10 + 0 = 10 from rfl)
      child _).bind
    exact fun r _ => computes_const _

theorem computes_loadPages (nodes : List Node) (s : Loading ω) :
    Computes (fun n => loadPages (limited calls n) nodes s)
      (loadPages (unlimited calls) nodes s) := by
  induction nodes generalizing s with
  | nil => exact computes_const _
  | cons child rest ih =>
    apply (computes_makePage calls child s).bind
    intro made _
    split
    · exact ih _
    · exact ih _

theorem computes_callFor (callee : Callee) (node : Option Node) (s : Loading ω) :
    Computes (fun n => callFor calls (limited calls n) callee node s)
      (callFor calls (unlimited calls) callee node s) := by
  cases node with
  | none => exact computes_const _
  | some node =>
    apply (computes_runCall s.styles (calls callee node s.world)).bind
    exact fun world _ => computes_const _

theorem computes_loadRoot (root : Node) (s : Loading ω) :
    Computes (fun n => loadRoot calls (limited calls n) root s)
      (loadRoot calls (unlimited calls) root s) := by
  apply (computes_callFor calls .resources _ s).bind
  intro s _
  apply (computes_callFor calls .variables _ s).bind
  intro s _
  apply (computes_callFor calls .mousecursor _ s).bind
  intro s _
  apply Computes.bind
  · rcases root.firstNode "pages" with - | pages
    · exact computes_const _
    · exact computes_loadPages calls _ _
  · exact fun r _ => computes_const _

theorem computes_openFile (filename : String) (s : Loading ω) :
    Computes (fun n => openFile files zip calls (limited calls n) filename s)
      (openFile files zip calls (unlimited calls) filename s) := by
  unfold openFile
  split
  · exact computes_const _
  · split
    · exact computes_const _
    · split
      · exact computes_const _
      · split
        · exact computes_const _
        · exact computes_loadRoot calls _ _

variable {files zip calls}

theorem callFor_kept {run : Runner ω} {callee : Callee} {node : Option Node} {s s' : Loading ω}
    (h : callFor calls run callee node s = some s') :
    s'.filenames = s.filenames ∧ s'.xmlbuffers = s.xmlbuffers := by
  cases node with
  | none => simp_all [callFor]
  | some node =>
    obtain ⟨world, -, hs⟩ := Option.bind_eq_some_iff.mp h
    cases hs
    exact ⟨rfl, rfl⟩

theorem loadPages_kept {run : Runner ω} {nodes : List Node} {s : Loading ω} {r : ℤ × Loading ω}
    (h : loadPages run nodes s = some r) :
    r.2.filenames = s.filenames ∧ r.2.xmlbuffers = s.xmlbuffers := by
  induction nodes generalizing s with
  | nil => cases h; exact ⟨rfl, rfl⟩
  | cons child rest ih =>
    obtain ⟨made, -, hs⟩ := Option.bind_eq_some_iff.mp h
    split at hs
    · have hkept := ih hs
      exact hkept
    · have hkept := ih hs
      exact hkept

theorem loadRoot_kept {run : Runner ω} {root : Node} {s : Loading ω}
    {r : Loading ω × (ℤ ⊕ List Node)} (h : loadRoot calls run root s = some r) :
    r.1.filenames = s.filenames ∧ r.1.xmlbuffers = s.xmlbuffers := by
  obtain ⟨s₁, hs₁, h⟩ := Option.bind_eq_some_iff.mp h
  obtain ⟨s₂, hs₂, h⟩ := Option.bind_eq_some_iff.mp h
  obtain ⟨s₃, hs₃, h⟩ := Option.bind_eq_some_iff.mp h
  obtain ⟨r', hr', h⟩ := Option.bind_eq_some_iff.mp h
  have hpages : r'.2.filenames = s₃.filenames ∧ r'.2.xmlbuffers = s₃.xmlbuffers := by
    rcases hnode : root.firstNode "pages" with - | pages
    · rw [hnode] at hr'
      cases hr'
      exact ⟨rfl, rfl⟩
    · rw [hnode] at hr'
      have hkept := loadPages_kept hr'
      exact hkept
  cases h
  simp [hpages, callFor_kept hs₃, callFor_kept hs₂, callFor_kept hs₁]

/-- A file is put into the set before anything else, and its buffer is kept once it is read. -/
theorem openFile_spec {run : Runner ω} {filename : String} {s : Loading ω}
    {r : Loading ω × (ℤ ⊕ List Node)} (h : openFile files zip calls run filename s = some r) :
    r.1.filenames = filename :: s.filenames ∧
      ((files.lookup filename).isSome ∧ r.1.xmlbuffers = s.xmlbuffers ++ [filename] ∨
        r.1.xmlbuffers = s.xmlbuffers ∧ r.2 = .inl (-1)) := by
  unfold openFile at h
  split at h
  · cases h
    exact ⟨rfl, .inr ⟨rfl, rfl⟩⟩
  · rename_i doc hdoc
    simp only [hdoc, Option.isSome_some, true_and]
    split at h
    · cases h
      exact ⟨rfl, .inl rfl⟩
    · split at h
      · cases h
      · split at h
        · cases h
          exact ⟨rfl, .inl rfl⟩
        · have hkept := loadRoot_kept h
          exact ⟨hkept.1, .inl hkept.2⟩

/-- A file is loaded once: the buffers are of different files, which are all in the set. -/
structure Once (s : Loading ω) : Prop where
  nodup : s.xmlbuffers.Nodup
  known : ∀ filename ∈ s.xmlbuffers, filename ∈ s.filenames

theorem Once.openFile {run : Runner ω} {filename : String} {s : Loading ω}
    {r : Loading ω × (ℤ ⊕ List Node)} (hs : Once s) (hnew : filename ∉ s.filenames)
    (h : openFile files zip calls run filename s = some r) : Once r.1 := by
  obtain ⟨hnames, ⟨-, hbuffers⟩ | ⟨hbuffers, -⟩⟩ := openFile_spec h
  · refine ⟨?_, fun name hname => ?_⟩
    · rw [hbuffers, List.nodup_append]
      refine ⟨hs.nodup, by simp, fun name hname other hother => ?_⟩
      rw [List.mem_singleton.mp hother]
      exact fun heq => hnew (heq ▸ hs.known name hname)
    · rw [hbuffers] at hname
      rcases List.mem_append.mp hname with hname | hname
      · simp [hnames, hs.known name hname]
      · simp_all
  · refine ⟨hbuffers ▸ hs.nodup, fun name hname => ?_⟩
    rw [hbuffers] at hname
    simp [hnames, hs.known name hname]

theorem Reads.once {task : Task} {s : Loading ω} {r : ℤ × Loading ω}
    (h : Reads files zip calls task s r) (hs : Once s) : Once r.2 := by
  induction h with
  | again _ => exact hs
  | closed hnew hopen => exact hs.openFile hnew hopen
  | opened hnew hopen _ ih => exact ih (hs.openFile hnew hopen)
  | read _ _ _ ih => exact ih hs
  | fallback _ _ _ _ _ ih ih' => exact ih' (ih hs)
  | done => exact hs
  | next _ _ _ ih ih' => exact ih' (ih hs)
  | error _ _ ih => exact ih hs

theorem Reads.filenames_subset {task : Task} {s : Loading ω} {r : ℤ × Loading ω}
    (h : Reads files zip calls task s r) : s.filenames ⊆ r.2.filenames := by
  induction h with
  | again _ => exact List.Subset.refl _
  | closed _ hopen =>
    have hnames := (openFile_spec hopen).1
    exact fun name hname => hnames ▸ List.mem_cons_of_mem _ hname
  | opened _ hopen _ ih =>
    rw [(openFile_spec hopen).1] at ih
    exact fun name hname => ih (List.mem_cons_of_mem _ hname)
  | read _ _ _ ih => exact ih
  | fallback _ _ _ _ _ ih ih' => exact List.Subset.trans ih ih'
  | done => exact List.Subset.refl _
  | next _ _ _ ih ih' => exact List.Subset.trans ih ih'
  | error _ _ ih => exact ih

variable (files) in
/-- The number of files that have not been asked for. -/
def unread (s : Loading ω) : ℕ := (files.filter fun file => file.1 ∉ s.filenames).length

theorem unread_le {s s' : Loading ω} (h : s.filenames ⊆ s'.filenames) :
    unread files s' ≤ unread files s := by
  apply List.Sublist.length_le
  apply List.monotone_filter_right
  intro file hfile
  simp_all only [decide_eq_true_eq]
  exact fun hmem => hfile (h hmem)

theorem unread_lt {s s' : Loading ω} {filename : String} (hnew : filename ∉ s.filenames)
    (hfile : (files.lookup filename).isSome) (h : s'.filenames = filename :: s.filenames) :
    unread files s' < unread files s := by
  obtain ⟨doc, hdoc⟩ := Option.isSome_iff_exists.mp hfile
  have hmem : (filename, doc) ∈ files.filter fun file => file.1 ∉ s.filenames := by
    obtain ⟨before, after, hfiles, -⟩ := List.lookup_eq_some_iff.mp hdoc
    simp [hnew, hfiles]
  have hsub : files.filter (fun file => file.1 ∉ s'.filenames) =
      (files.filter fun file => file.1 ∉ s.filenames).filter fun file => file.1 ≠ filename := by
    rw [List.filter_filter, h]
    congr 1
    funext file
    by_cases hname : file.1 = filename <;> simp [hname]
  rw [unread, unread, hsub]
  exact List.length_filter_lt_length_iff_exists.mpr ⟨_, hmem, by simp⟩

variable (files zip calls) in
/-- What the code computes for a task. -/
def ComputesTask (task : Task) (s : Loading ω) (o : Option (ℤ × Loading ω)) : Prop :=
  match task with
  | .file filename => Computes (fun n => load files zip calls n filename s) o
  | .one node =>
    match node.firstAttribute "name" with
    | none => o = none
    | some filename => Computes (fun n => loadInclude files zip calls n node filename s) o
  | .all nodes => ∀ l : List Node, l.filter (·.name = "xml") = nodes →
    Computes (fun n => includeAll files zip calls n (named "xml" l) s) o

theorem computes_includeAll {node : Node} {rest : List Node} {s : Loading ω}
    {o o' : Option (ℤ × Loading ω)} (hone : ComputesTask files zip calls (.one node) s o)
    (hrest : ∀ r, o = some r → if r.1 = 0 then ComputesTask files zip calls (.all rest) r.2 o'
      else o' = some r)
    (hnone : o = none → o' = none) : ComputesTask files zip calls (.all (node :: rest)) s o' := by
  intro l hl
  obtain ⟨rest', hnamed, hrest'⟩ := named_of_filter hl
  rw [hnamed]
  rcases hname : node.firstAttribute "name" with - | filename
  · simp only [ComputesTask, hname] at hone
    rw [hnone hone]
    exact computes_none_of_stays (by simp [includeAll]) fun n => by rw [includeAll, hname]
  · simp only [ComputesTask, hname] at hone
    apply Computes.succ _ (by simp [includeAll])
    simp only [includeAll, hname]
    rcases o with - | r
    · rw [hnone rfl]
      exact hone.bind_none
    · apply hone.bind_some
      have hnext := hrest r rfl
      split
      · rw [if_pos ‹_›] at hnext
        exact hnext rest' hrest'
      · rw [if_neg ‹_›] at hnext
        rw [hnext]
        exact computes_const _

theorem Reads.computes {task : Task} {s : Loading ω} {r : ℤ × Loading ω}
    (h : Reads files zip calls task s r) : ComputesTask files zip calls task s (some r) := by
  induction h with
  | again hmem =>
    apply Computes.succ _ (by simp [load])
    simpa only [load, if_pos hmem] using computes_const _
  | @closed filename s s' rc hnew hopen =>
    apply Computes.succ _ (by simp [load])
    have hfile := computes_openFile files zip calls filename s
    rw [hopen] at hfile
    simp only [load, if_neg hnew]
    exact hfile.bind_some (computes_const _)
  | @opened filename s s' nodes r hnew hopen _ ih =>
    apply Computes.succ _ (by simp [load])
    have hfile := computes_openFile files zip calls filename s
    rw [hopen] at hfile
    simp only [load, if_neg hnew]
    exact hfile.bind_some (ih nodes rfl)
  | read hname _ hend ih =>
    simp only [ComputesTask, hname]
    apply Computes.succ _ (by simp [loadInclude])
    simp only [loadInclude]
    apply ih.bind_some
    split
    · exact computes_const _
    · simp only [hend.resolve_left ‹_›]
      exact computes_const _
  | fallback hname _ herror hother _ ih ih' =>
    simp only [ComputesTask, hname]
    apply Computes.succ _ (by simp [loadInclude])
    simp only [loadInclude]
    apply ih.bind_some
    simp only [if_neg herror, hother]
    exact ih'
  | done =>
    intro l hl
    rw [named_eq_nil.mpr hl]
    exact (computes_const _).succ (by simp [includeAll])
  | next _ hzero _ ih ih' =>
    apply computes_includeAll ih
    · simpa [hzero] using ih'
    · simp
  | error _ herror ih =>
    apply computes_includeAll ih
    · simp [herror]
    · simp

theorem Stops.computes {task : Task} {s : Loading ω} (h : Stops files zip calls task s) :
    ComputesTask files zip calls task s none := by
  induction h with
  | @opening filename s hnew hopen =>
    apply Computes.succ _ (by simp [load])
    have hfile := computes_openFile files zip calls filename s
    rw [hopen] at hfile
    simp only [load, if_neg hnew]
    exact hfile.bind_none
  | @opened filename s s' nodes hnew hopen _ ih =>
    apply Computes.succ _ (by simp [load])
    have hfile := computes_openFile files zip calls filename s
    rw [hopen] at hfile
    simp only [load, if_neg hnew]
    exact hfile.bind_some (ih nodes rfl)
  | nameless hname => simp [ComputesTask, hname]
  | read hname _ ih =>
    simp only [ComputesTask, hname]
    apply Computes.succ _ (by simp [loadInclude])
    simp only [loadInclude]
    exact ih.bind_none
  | fallback hname hread herror hother _ ih =>
    simp only [ComputesTask, hname]
    apply Computes.succ _ (by simp [loadInclude])
    simp only [loadInclude]
    apply hread.computes.bind_some
    simp only [if_neg herror, hother]
    exact ih
  | here _ ih => exact computes_includeAll ih (by simp) (by simp)
  | later hread hzero _ ih =>
    apply computes_includeAll hread.computes
    · simpa [hzero] using ih
    · simp

variable (files zip calls) in
/-- Every task is read, or comes to something that stops it. -/
def Settled (task : Task) (s : Loading ω) : Prop :=
  (∃ r, Reads files zip calls task s r) ∨ Stops files zip calls task s

theorem settled_one (node : Node) {s : Loading ω}
    (hfile : ∀ filename s', s.filenames ⊆ s'.filenames →
      Settled files zip calls (.file filename) s') : Settled files zip calls (.one node) s := by
  rcases hname : node.firstAttribute "name" with - | filename
  · exact .inr (.nameless hname)
  obtain ⟨r, hread⟩ | hstop := hfile filename s (List.Subset.refl _)
  · by_cases hzero : r.1 = 0
    · exact .inl ⟨r, .read hname hread (.inl hzero)⟩
    · rcases hother : node.firstAttribute "default" with - | other
      · exact .inl ⟨r, .read hname hread (.inr hother)⟩
      · obtain ⟨r', hread'⟩ | hstop := hfile other r.2 hread.filenames_subset
        · exact .inl ⟨r', .fallback hname hread hzero hother hread'⟩
        · exact .inr (.fallback hname hread hzero hother hstop)
  · exact .inr (.read hname hstop)

theorem settled_all (nodes : List Node) {s : Loading ω}
    (hfile : ∀ filename s', s.filenames ⊆ s'.filenames →
      Settled files zip calls (.file filename) s') : Settled files zip calls (.all nodes) s := by
  induction nodes generalizing s with
  | nil => exact .inl ⟨_, .done⟩
  | cons node rest ih =>
    obtain ⟨r, hread⟩ | hstop := settled_one node hfile
    · by_cases hzero : r.1 = 0
      · have hsub := hread.filenames_subset
        obtain ⟨r', hread'⟩ | hstop := ih (s := r.2) fun filename s' hs' =>
          hfile filename s' (List.Subset.trans hsub hs')
        · exact .inl ⟨r', .next hread hzero hread'⟩
        · exact .inr (.later hread hzero hstop)
      · exact .inl ⟨r, .error hread hzero⟩
    · exact .inr (.here hstop)

/-- Every file is read to its end or stopped: a file that is read is never asked for again. -/
theorem settled_file (filename : String) (s : Loading ω) :
    Settled files zip calls (.file filename) s := by
  induction hn : unread files s using Nat.strongRecOn generalizing filename s with
  | ind n ih =>
    by_cases hmem : filename ∈ s.filenames
    · exact .inl ⟨_, .again hmem⟩
    rcases hopen : openFile files zip calls (unlimited calls) filename s with
      - | ⟨s', rc | nodes⟩
    · exact .inr (.opening hmem hopen)
    · exact .inl ⟨_, .closed hmem hopen⟩
    · obtain ⟨hnames, ⟨hfile, -⟩ | ⟨-, hend⟩⟩ := openFile_spec hopen
      · have hlt : unread files s' < n := hn ▸ unread_lt hmem hfile hnames
        obtain ⟨r, hread⟩ | hstop := settled_all (nodes.filter (·.name = "xml"))
          (s := s') fun filename s'' hs'' => ih _ (lt_of_le_of_lt (unread_le hs'') hlt)
            filename s'' rfl
        · exact .inl ⟨r, .opened hmem hopen hread⟩
        · exact .inr (.opened hmem hopen hstop)
      · cases hend

variable (files zip calls)

/-- A theme before its main file is loaded. -/
def start (world : ω) : Loading ω := ⟨[], [], [], [], [], world⟩

/-- Loading ends; it has gone through the includes in order until an error was returned, and has
loaded no file twice. -/
def Loads (main : String) (world : ω) : Prop :=
  ∃ r, Returns (fun n => load files zip calls n main (start world)) r ∧
    Reads files zip calls (.file main) (start world) r ∧ r.2.xmlbuffers.Nodup

theorem loads_iff (main : String) (world : ω) : Loads files zip calls main world ↔
    ¬Stops files zip calls (.file main) (start world) := by
  constructor
  · rintro ⟨r, hreturns, -⟩ hstop
    exact not_returns (hstop.computes) r hreturns
  · intro hstop
    obtain ⟨r, hread⟩ := (settled_file main (start world)).resolve_right hstop
    have honce : Once (start world) := ⟨List.nodup_nil, by simp [start]⟩
    exact ⟨r, hread.computes.returns r rfl, hread, (hread.once honce).nodup⟩

/-- Loading, searching and processing a theme end as they should if and only if they do not come
to an element whose name is missing. -/
theorem loading_ends_iff :
    (∀ styles nodename parent, Finds styles nodename parent ↔
      NamedFirst styles nodename parent) ∧
    (∀ styles templates page s,
      (∃ r, Returns (fun n => processNode styles calls templates n page 0 s) r) ↔
        ¬Hindered styles calls (events templates 10 page) s) ∧
    ∀ main world, Loads files zip calls main world ↔
      ¬Stops files zip calls (.file main) (start world) :=
  ⟨finds_iff, fun styles templates page s => processNode_returns_iff styles calls templates page s,
    loads_iff files zip calls⟩

/-- The main file `<recovery><include><xml/></include></recovery>` is never loaded to the end. -/
theorem not_loads_nameless :
    ¬Loads [("ui.xml", [⟨"recovery", "", [], [⟨"include", "", [], [⟨"xml", "", [], []⟩]⟩]⟩])] false
      (fun _ _ _ => Call.done ()) "ui.xml" () := by
  rw [loads_iff, not_not]
  have hopen : openFile [("ui.xml", [⟨"recovery", "", [], [⟨"include", "", [],
      [⟨"xml", "", [], []⟩]⟩]⟩])] false (fun _ _ _ => Call.done ())
      (unlimited fun _ _ _ => Call.done ()) "ui.xml" (start ()) =
      some (⟨["ui.xml"], ["ui.xml"], [], [], [], ()⟩, .inr [⟨"xml", "", [], []⟩]) := rfl
  exact .opened (by simp [start]) hopen (.here (.nameless rfl))

end BootableRecovery.Gui.Theme
