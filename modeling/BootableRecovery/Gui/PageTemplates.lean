import BootableRecovery.Gui.ThemeXml

namespace BootableRecovery.Gui.Theme
open Lib Node

/-! `Page::ProcessNode`: the objects of a page, with its templates. -/

/-- The code that loading a theme calls: the constructors of the objects of a page, and what loads
the resources, the variables and the mouse cursor. -/
inductive Callee
  | element (type : String)
  | resources
  | variables
  | mousecursor
  deriving DecidableEq

/-- What called code does with what it keeps: it looks for elements with `FindNode` until it
returns, or it never returns. -/
inductive Call (ω : Type)
  | done (world : ω)
  | never
  | find (parent : Option Node) (nodename : String) (next : Option Node → Call ω)

/-- An object, with the vectors of the page that it is put into. -/
structure Kind where
  render : Bool
  action : Bool
  input : Bool

/-- The types of objects. -/
def kinds : List (String × Kind) :=
  [("text", ⟨true, true, false⟩), ("gesture", ⟨true, true, false⟩),
    ("battery", ⟨true, false, false⟩), ("image", ⟨true, false, false⟩),
    ("fill", ⟨true, false, false⟩), ("action", ⟨false, true, false⟩),
    ("console", ⟨true, true, false⟩), ("terminal", ⟨true, true, true⟩),
    ("button", ⟨true, true, false⟩), ("checkbox", ⟨true, true, false⟩),
    ("fileselector", ⟨true, true, false⟩), ("animation", ⟨true, false, false⟩),
    ("progressbar", ⟨true, true, false⟩), ("slider", ⟨true, true, false⟩),
    ("slidervalue", ⟨true, true, false⟩), ("listbox", ⟨true, true, false⟩),
    ("keyboard", ⟨true, true, false⟩), ("input", ⟨true, true, true⟩),
    ("partitionlist", ⟨true, true, false⟩), ("patternpassword", ⟨true, true, false⟩),
    ("textbox", ⟨true, true, false⟩)]

/-- An object is known by its type and the node it is made from. -/
abbrev Object := String × Node

structure Page where
  name : String
  background : Option Node
  objects : List Object
  renders : List Object
  actions : List Object
  inputs : List Object

def Page.push (page : Page) (kind : Kind) (object : Object) : Page :=
  { page with
    objects := page.objects ++ [object]
    renders := page.renders ++ if kind.render then [object] else []
    actions := page.actions ++ if kind.action then [object] else []
    inputs := page.inputs ++ if kind.input then [object] else [] }

variable {ω : Type} (styles : List Node)

/-- Called code, run with a limit. -/
def runCall (n : ℕ) : Call ω → Option ω
  | .done world => some world
  | .never => none
  | .find parent nodename next => do
    let found ← findNode styles nodename n parent 0
    runCall n (next found)

variable (calls : Callee → Node → ω → Call ω) (templates : Option (List Node))

/-- A page that is being made, and what the called code keeps. -/
structure Making (ω : Type) where
  page : Page
  world : ω

/-- The type of the object of a node, also in the format `<object type="...">`. -/
def objectType (child : Node) : String :=
  if child.name = "object" then (child.firstAttribute "type").getD "*unspecified*" else child.name

/-- The files and the name of a request for a template; nothing where the request is invalid. -/
def templateRequest (child : Node) : Option (List Node × String) :=
  match templates, child.firstAttribute "name" with
  | some templates, some name => some (templates, name)
  | _, _ => none

mutual

/-- The result is `false` where the processing failed. -/
def processNode : ℕ → Node → ℕ → Making ω → Option (Bool × Making ω)
  | 0, _, _, _ => none
  | n + 1, page, depth, s =>
    if depth = 10 then some (false, s) else processChildren n page.children depth s

/-- The loop over the children of a page or of a template. -/
def processChildren : ℕ → List Node → ℕ → Making ω → Option (Bool × Making ω)
  | 0, _, _, _ => none
  | _ + 1, [], _, s => some (true, s)
  | n + 1, child :: rest, depth, s =>
    if child.name = "background" then
      processChildren n rest depth { s with page := { s.page with background := some child } }
    else
      match kinds.lookup (objectType child) with
      | some kind => do
        let world ← runCall styles n (calls (.element (objectType child)) child s.world)
        processChildren n rest depth
          { page := s.page.push kind (objectType child, child), world := world }
      | none =>
        if objectType child = "template" then
          match templateRequest templates child with
          | some (templates, name) => do
            let r ← useTemplates n name templates depth false s
            if r.1 then processChildren n rest depth r.2 else return r
          | none => processChildren n rest depth s
        else processChildren n rest depth s

/-- The loop over the `<templates>` nodes of the files loaded so far. -/
def useTemplates : ℕ → String → List Node → ℕ → Bool → Making ω → Option (Bool × Making ω)
  | 0, _, _, _, _, _ => none
  | _ + 1, _, [], _, _, s => some (true, s)
  | n + 1, name, node :: rest, depth, nodeFound, s => do
    let r ← scanTemplates n name (named "template" node.children) depth nodeFound s
    match r.1 with
    | some nodeFound => useTemplates n name rest depth nodeFound r.2
    | none => return (false, r.2)

/-- The inner loop, over the templates of one file. It leaves whether a template has been found,
or nothing where the processing of the template failed. -/
def scanTemplates : ℕ → String → List Node → ℕ → Bool → Making ω → Option (Option Bool × Making ω)
  | 0, _, _, _, _, _ => none
  | _ + 1, _, [], _, nodeFound, s => some (some nodeFound, s)
  | n + 1, name, node :: rest, depth, nodeFound, s =>
    match node.firstAttribute "name" with
    -- `continue` without a step to the next template
    | none => scanTemplates n name (node :: rest) depth nodeFound s
    | some value =>
      if name = value then do
        let r ← processNode n node (depth + 1) s
        return (if r.1 then some true else none, r.2)
      else if nodeFound then some (some nodeFound, s)
      else scanTemplates n name (named "template" rest) depth nodeFound s

end

/-- What processing a page comes to. -/
inductive Event
  | background (child : Node)
  | object (type : String) (kind : Kind) (child : Node)
  | tooDeep
  | nameless

/-- What the scan of the templates of one file comes to. -/
def scanned (name : String) (walk : Node → List Event) (nodeFound : Bool) : List Node → List Event
  | [] => []
  | node :: rest =>
    match node.firstAttribute "name" with
    | none => [.nameless]
    | some value =>
      if name = value then walk node
      else if nodeFound then [] else scanned name walk nodeFound rest

/-- Whether a template has been found after the scan of a file. -/
def foundAfter (name : String) (nodeFound : Bool) (nodes : List Node) : Bool :=
  nodeFound || nodes.any fun node => node.firstAttribute "name" = some name

/-- What the use of a template comes to. -/
def used (name : String) (walk : Node → List Event) : Bool → List Node → List Event
  | _, [] => []
  | nodeFound, node :: rest =>
    scanned name walk nodeFound (node.every "template") ++
      used name walk (foundAfter name nodeFound (node.every "template")) rest

/-- What one child of a page comes to. -/
def childEvents (walk : Node → List Event) (child : Node) : List Event :=
  if child.name = "background" then [.background child]
  else
    match kinds.lookup (objectType child) with
    | some kind => [.object (objectType child) kind child]
    | none =>
      if objectType child = "template" then
        match templateRequest templates child with
        | some (templates, name) => used name walk false templates
        | none => []
      else []

/-- What processing a page comes to, in order, with `left` levels of templates to go. -/
def events : ℕ → Node → List Event
  | 0, _ => [.tooDeep]
  | left + 1, page => page.children.flatMap (childEvents templates (events left))

/-- What called code leaves, if it returns. -/
def settle : Call ω → Option ω
  | .done world => some world
  | .never => none
  | .find none _ next => settle (next none)
  | .find (some parent) nodename next => do
    let found ← firstMet (met styles nodename 10 parent)
    settle (next found)

/-- What a page becomes along its events, if the processing goes to the end. -/
def follow : List Event → Making ω → Option (Bool × Making ω)
  | [], s => some (true, s)
  | .background child :: rest, s =>
    follow rest { s with page := { s.page with background := some child } }
  | .object type kind child :: rest, s => do
    let world ← settle styles (calls (.element type) child s.world)
    follow rest { page := s.page.push kind (type, child), world := world }
  | .tooDeep :: _, s => some (false, s)
  | .nameless :: _, _ => none

theorem computes_runCall (call : Call ω) :
    Computes (fun n => runCall styles n call) (settle styles call) := by
  induction call with
  | done world => exact computes_const _
  | never => exact computes_const _
  | find parent nodename next ih =>
    cases parent with
    | none =>
      have hfind : Computes (fun n => findNode styles nodename n none 0) (some none) :=
        Computes.succ (by simpa [findNode] using computes_const _) (by simp [findNode])
      exact hfind.bind (f := fun found n => runCall styles n (next found))
        (g := fun found => settle styles (next found)) fun found _ => ih found
    | some parent =>
      exact (computes_findNode styles nodename rfl parent).bind fun found _ => ih found

theorem follow_append (l l' : List Event) (s : Making ω) : follow styles calls (l ++ l') s =
    follow styles calls l s >>= fun r =>
      if r.1 then follow styles calls l' r.2 else some r := by
  induction l generalizing s with
  | nil => rfl
  | cons event rest ih =>
    cases event with
    | background child => exact ih _
    | object type kind child =>
      simp only [List.cons_append, follow, ih]
      rcases settle styles (calls (.element type) child s.world) <;> rfl
    | tooDeep => rfl
    | nameless => rfl

section

variable {styles calls templates} {left depth : ℕ}
  (hnode : ∀ node s, Computes (fun n => processNode styles calls templates n node (depth + 1) s)
    (follow styles calls (events templates left node) s))

include hnode

theorem computes_scanTemplates (name : String) (nodeFound : Bool) (nodes : List Node)
    (s : Making ω) :
    Computes (fun n => scanTemplates styles calls templates n name (named "template" nodes) depth
      nodeFound s)
      (follow styles calls (scanned name (events templates left) nodeFound
        (nodes.filter (·.name = "template"))) s >>= fun r =>
        some (if r.1 then some (foundAfter name nodeFound (nodes.filter (·.name = "template")))
          else none, r.2)) := by
  apply named_induction (P := fun l l' =>
    Computes (fun n => scanTemplates styles calls templates n name l depth nodeFound s)
      (follow styles calls (scanned name (events templates left) nodeFound l') s >>= fun r =>
        some (if r.1 then some (foundAfter name nodeFound l') else none, r.2)))
  · apply Computes.succ _ (by simp [scanTemplates])
    simpa [scanTemplates, scanned, follow, foundAfter] using computes_const _
  · intro node rest _ ih
    rcases hname : node.firstAttribute "name" with - | value
    · simp only [scanned, hname, follow]
      exact computes_none_of_stays (by simp [scanTemplates]) fun n => by rw [scanTemplates, hname]
    · apply Computes.succ _ (by simp [scanTemplates])
      simp only [scanTemplates, scanned, hname]
      by_cases hvalue : name = value
      · have hfound : foundAfter name nodeFound (node :: rest.filter (·.name = "template")) := by
          simp [foundAfter, hname, hvalue]
        simp only [if_pos hvalue, hfound]
        exact (hnode node s).bind fun r _ => computes_const _
      · have hfound : foundAfter name nodeFound (node :: rest.filter (·.name = "template")) =
            foundAfter name nodeFound (rest.filter (·.name = "template")) := by
          simp [foundAfter, hname, Ne.symm hvalue]
        simp only [if_neg hvalue, hfound]
        split
        · simp_all [follow, foundAfter, computes_const]
        · exact ih

theorem computes_useTemplates (name : String) (nodeFound : Bool) (nodes : List Node)
    (s : Making ω) :
    Computes (fun n => useTemplates styles calls templates n name nodes depth nodeFound s)
      (follow styles calls (used name (events templates left) nodeFound nodes) s) := by
  induction nodes generalizing nodeFound s with
  | nil =>
    apply Computes.succ _ (by simp [useTemplates])
    simpa [useTemplates, used, follow] using computes_const _
  | cons node rest ih =>
    apply Computes.succ _ (by simp [useTemplates])
    have hfollow : follow styles calls
        (used name (events templates left) nodeFound (node :: rest)) s =
        (follow styles calls (scanned name (events templates left) nodeFound
          (node.every "template")) s >>= fun r => some (if r.1 then
            some (foundAfter name nodeFound (node.every "template")) else none, r.2)) >>=
        fun r => match r.1 with
          | some nodeFound =>
            follow styles calls (used name (events templates left) nodeFound rest) r.2
          | none => some (false, r.2) := by
      rw [used, follow_append]
      rcases follow styles calls (scanned name (events templates left) nodeFound
        (node.every "template")) s with - | ⟨- | -, s'⟩ <;> rfl
    simp only [useTemplates, hfollow]
    apply (computes_scanTemplates hnode name nodeFound node.children s).bind
    rintro ⟨- | nodeFound, s⟩ -
    · exact computes_const _
    · exact ih nodeFound s

theorem computes_processChildren (nodes : List Node) (s : Making ω) :
    Computes (fun n => processChildren styles calls templates n nodes depth s)
      (follow styles calls (nodes.flatMap (childEvents templates (events templates left))) s) := by
  induction nodes generalizing s with
  | nil =>
    apply Computes.succ _ (by simp [processChildren])
    simpa [processChildren, follow] using computes_const _
  | cons child rest ih =>
    apply Computes.succ _ (by simp [processChildren])
    simp only [processChildren, List.flatMap_cons, childEvents]
    split
    · exact ih _
    · split
      · apply (computes_runCall styles _).bind
        exact fun world _ => ih _
      · split
        · split
          · rename_i templates' name _
            rw [follow_append]
            apply (computes_useTemplates hnode name false templates' s).bind
            intro r _
            split
            · exact ih _
            · exact computes_const _
          · exact ih _
        · exact ih _

end

/-- The processing of a page follows its events. -/
theorem computes_processNode {left depth : ℕ} (hdepth : left + depth = 10) (page : Node)
    (s : Making ω) :
    Computes (fun n => processNode styles calls templates n page depth s)
      (follow styles calls (events templates left page) s) := by
  induction left generalizing page depth s with
  | zero =>
    apply Computes.succ _ (by simp [processNode])
    simpa [processNode, events, follow, show depth = 10 by omega] using computes_const _
  | succ left ih =>
    apply Computes.succ _ (by simp [processNode])
    have hdepth10 : depth ≠ 10 := by omega
    simp only [processNode, events, if_neg hdepth10]
    exact computes_processChildren (fun node s => ih (by omega) node s) page.children s

/-- A nameless template, or an object whose constructor never returns. -/
def Hinders : Event → Making ω → Prop
  | .nameless, _ => True
  | .object type _ child, s => settle styles (calls (.element type) child s.world) = none
  | _, _ => False

/-- The processing comes to an event that hinders it. -/
def Hindered (l : List Event) (s : Making ω) : Prop :=
  ∃ before event after s', l = before ++ event :: after ∧
    follow styles calls before s = some (true, s') ∧ Hinders styles calls event s'

theorem follow_eq_none_iff (l : List Event) (s : Making ω) :
    follow styles calls l s = none ↔ Hindered styles calls l s := by
  constructor
  · intro h
    induction l generalizing s with
    | nil => simp [follow] at h
    | cons event rest ih =>
      cases event with
      | background child =>
        obtain ⟨before, event, after, s', rfl, hbefore, hevent⟩ := ih _ h
        exact ⟨.background child :: before, event, after, s', rfl, hbefore, hevent⟩
      | object type kind child =>
        rcases hsettle : settle styles (calls (.element type) child s.world) with - | world
        · exact ⟨[], .object type kind child, rest, s, rfl, rfl, hsettle⟩
        · simp only [follow, hsettle] at h
          obtain ⟨before, event, after, s', rfl, hbefore, hevent⟩ := ih _ h
          exact ⟨.object type kind child :: before, event, after, s', rfl,
            by simpa [follow, hsettle] using hbefore, hevent⟩
      | tooDeep => simp [follow] at h
      | nameless => exact ⟨[], .nameless, rest, s, rfl, rfl, trivial⟩
  · intro ⟨before, event, after, s', hl, hbefore, hevent⟩
    rw [hl, follow_append, hbefore]
    cases event with
    | background child => exact hevent.elim
    | object type kind child => simp_all [follow, Hinders]
    | tooDeep => exact hevent.elim
    | nameless => rfl

theorem processNode_returns_iff (page : Node) (s : Making ω) :
    (∃ r, Returns (fun n => processNode styles calls templates n page 0 s) r) ↔
      ¬Hindered styles calls (events templates 10 page) s := by
  have hcode := computes_processNode styles calls templates (show 10 + 0 = 10 from rfl) page s
  simp only [hcode.returns_iff, ← follow_eq_none_iff]
  rw [← Option.isSome_iff_exists, Option.isSome_iff_ne_none]

end BootableRecovery.Gui.Theme
