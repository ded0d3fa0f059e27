import BootableRecovery.Lib.Computes
import Mathlib.Data.List.TakeWhile
import Mathlib.Data.List.ReduceOption

namespace BootableRecovery.Gui.Theme
open Lib

/-! The elements of a theme, and `FindNode`, which looks into the styles of an element. -/

/-- `xml_node`: text between elements is a node without a name. -/
structure Node where
  name : String
  value : String
  attributes : List (String × String)
  children : List Node

namespace Node

/-- `first_attribute(name)` -/
def firstAttribute (node : Node) (name : String) : Option String := node.attributes.lookup name

/-- `first_node(name)` of the children, and `next_sibling(name)` of the nodes that follow one: the
node that is found, before the nodes that follow it. -/
def named (name : String) (nodes : List Node) : List Node := nodes.dropWhile (·.name ≠ name)

/-- All the children with a name. -/
def every (node : Node) (name : String) : List Node := node.children.filter (·.name = name)

variable {name : String} {node : Node} {nodes : List Node}

theorem named_cons_of_eq (h : node.name = name) : named name (node :: nodes) = node :: nodes := by
  simp [named, h]

theorem named_cons_of_ne (h : node.name ≠ name) :
    named name (node :: nodes) = named name nodes := by
  simp [named, h]

/-- A walk along the siblings of a name is a walk along a list. -/
theorem named_induction {P : List Node → List Node → Prop} (hnil : P [] [])
    (hcons : ∀ node rest, node.name = name → P (named name rest) (rest.filter (·.name = name)) →
      P (node :: rest) (node :: rest.filter (·.name = name))) (nodes : List Node) :
    P (named name nodes) (nodes.filter (·.name = name)) := by
  induction nodes with
  | nil => exact hnil
  | cons node rest ih =>
    by_cases h : node.name = name
    · simpa [named_cons_of_eq h, h] using hcons node rest h ih
    · simpa [named_cons_of_ne h, h] using ih

theorem named_eq_nil : named name nodes = [] ↔ nodes.filter (·.name = name) = [] := by
  simp [named, List.dropWhile_eq_nil_iff, List.filter_eq_nil_iff]

theorem named_of_filter {rest : List Node} (h : nodes.filter (·.name = name) = node :: rest) :
    ∃ rest', named name nodes = node :: rest' ∧ rest'.filter (·.name = name) = rest := by
  induction nodes with
  | nil => simp at h
  | cons first others ih =>
    by_cases hname : first.name = name
    · simp only [hname, decide_true, List.filter_cons_of_pos, List.cons.injEq] at h
      exact ⟨others, by rw [named_cons_of_eq hname, h.1], h.2⟩
    · simp only [hname, decide_false, Bool.false_eq_true, not_false_eq_true,
        List.filter_cons_of_neg] at h
      rw [named_cons_of_ne hname]
      exact ih h

theorem named_head? : (named name nodes).head? = nodes.find? (·.name = name) := by
  induction nodes with
  | nil => rfl
  | cons node rest ih =>
    by_cases h : node.name = name
    · simp [named_cons_of_eq h, h]
    · simpa [named_cons_of_ne h, h] using ih

end Node

open Node

/-- The inner loop of `FindStyle`, at the node that `nodes` begins with. -/
def styleNamed (name : String) : ℕ → List Node → Option (Option Node)
  | 0, _ => none
  | _ + 1, [] => some none
  | n + 1, node :: rest =>
    match node.firstAttribute "name" with
    -- `continue` without a step to the next node
    | none => styleNamed name n (node :: rest)
    | some value =>
      if name = value then some (some node) else styleNamed name n (named "style" rest)

/-- `PageManager::FindStyle`, over the `<styles>` nodes of the files loaded so far. -/
def findStyle (name : String) (n : ℕ) : List Node → Option (Option Node)
  | [] => some none
  | styles :: rest => do
    match ← styleNamed name n (named "style" styles.children) with
    | some node => return some node
    | none => findStyle name n rest

/-- The style that is looked up for an element without `<style>` children. -/
def styleName (parent : Node) : String :=
  match parent.firstAttribute "style" with
  | some value => value
  | none =>
    match parent.firstAttribute "type" with
    | some value => value
    | none => parent.name

variable (styles : List Node) (nodename : String)

mutual

def findNode : ℕ → Option Node → ℕ → Option (Option Node)
  | 0, _, _ => none
  | _ + 1, none, _ => some none
  | n + 1, some parent, depth =>
    match named nodename parent.children with
    | child :: _ => some (some child)
    | [] =>
      if depth = 10 then some none
      else
        match named "style" parent.children with
        | style :: rest => searchStyles n (style :: rest) depth
        | [] => do
          match ← findStyle (styleName parent) n styles with
          | some node => findNode n (some node) (depth + 1)
          | none => return none

/-- The loop of `FindNode` over the `<style>` children. -/
def searchStyles : ℕ → List Node → ℕ → Option (Option Node)
  | 0, _, _ => none
  | _ + 1, [], _ => some none
  | n + 1, style :: rest, depth =>
    match style.firstAttribute "name" with
    -- `continue` without a step to the next style
    | none => searchStyles n (style :: rest) depth
    | some name => do
      match ← findStyle name n styles with
      | some node =>
        match ← findNode n (some node) (depth + 1) with
        | some stylenode => return some stylenode
        | none => searchStyles n (named "style" rest) depth
      | none => searchStyles n (named "style" rest) depth

end

/-- The first entry with the name, where no nameless entry stands before it. -/
def firstStyle (name : String) : List Node → Option (Option Node)
  | [] => some none
  | node :: rest =>
    match node.firstAttribute "name" with
    | none => none
    | some value => if name = value then some (some node) else firstStyle name rest

/-- The names of the styles that an element asks for, in order; `none` is a `<style>` without a
name. -/
def styleNames (parent : Node) : List (Option String) :=
  match parent.every "style" with
  | [] => [some (styleName parent)]
  | uses => uses.map (·.firstAttribute "name")

/-- What the search of one style comes to. -/
def nameMet (walk : Node → List (Option Node)) (name : Option String) : List (Option Node) :=
  match name.bind (firstStyle · (styles.flatMap (·.every "style"))) with
  | none => [none]
  | some none => []
  | some (some node) => walk node

/-- What a search comes to, in the order of the styles and with `left` levels of styles to go:
elements of the wanted name, and `none` where an entry or a `<style>` has no name. -/
def met : ℕ → Node → List (Option Node)
  | left, parent =>
    match parent.children.find? (·.name = nodename) with
    | some child => [some child]
    | none =>
      match left with
      | 0 => []
      | left + 1 => (styleNames parent).flatMap (nameMet styles (met left))

/-- A search ends with the first element it comes to. -/
def firstMet : List (Option Node) → Option (Option Node)
  | [] => some none
  | none :: _ => none
  | some node :: _ => some (some node)

theorem firstMet_append (l l' : List (Option Node)) : firstMet (l ++ l') =
    firstMet l >>= fun found => match found with
      | some node => some (some node)
      | none => firstMet l' := by
  rcases l with - | ⟨_ | node, l⟩ <;> simp [firstMet]

theorem computes_styleNamed (name : String) (nodes : List Node) :
    Computes (fun n => styleNamed name n (named "style" nodes))
      (firstStyle name (nodes.filter (·.name = "style"))) := by
  apply named_induction (P := fun l l' =>
    Computes (fun n => styleNamed name n l) (firstStyle name l'))
  · exact (computes_const _).succ rfl
  · intro node rest _ ih
    rcases hname : node.firstAttribute "name" with - | value
    · simp only [firstStyle, hname]
      exact computes_none_of_stays rfl fun n => by rw [styleNamed, hname]
    · apply Computes.succ _ rfl
      simp only [styleNamed, firstStyle, hname]
      split
      · exact computes_const _
      · exact ih

theorem firstStyle_append (name : String) (l l' : List Node) : firstStyle name (l ++ l') =
    firstStyle name l >>= fun found => match found with
      | some node => some (some node)
      | none => firstStyle name l' := by
  induction l with
  | nil => rfl
  | cons node rest ih =>
    simp only [List.cons_append, firstStyle]
    split
    · rfl
    · split
      · rfl
      · exact ih

theorem computes_findStyle (name : String) : Computes (fun n => findStyle name n styles)
    (firstStyle name (styles.flatMap (·.every "style"))) := by
  induction styles with
  | nil => exact computes_const _
  | cons node rest ih =>
    simp only [findStyle, List.flatMap_cons, firstStyle_append]
    apply (computes_styleNamed name node.children).bind
    rintro (- | found) -
    · exact ih
    · exact computes_const _

theorem firstMet_nameMet_append (walk : Node → List (Option Node)) (name : String)
    (after : List (Option Node)) : firstMet (nameMet styles walk (some name) ++ after) =
    firstStyle name (styles.flatMap (·.every "style")) >>= fun found => match found with
      | some node => firstMet (walk node) >>= fun found => match found with
        | some node => some (some node)
        | none => firstMet after
      | none => firstMet after := by
  rw [firstMet_append, nameMet]
  rcases hfound : firstStyle name (styles.flatMap (·.every "style")) with - | - | node
  all_goals simp [hfound, firstMet]

section

variable {styles nodename} {left depth : ℕ}
  (hnode : ∀ node, Computes (fun n => findNode styles nodename n (some node) (depth + 1))
    (firstMet (met styles nodename left node)))

include hnode

/-- One style of a search: it is looked up, its element is searched, and the search goes on. -/
theorem computes_style (name : String) {next : ℕ → Option (Option Node)}
    {after : List (Option Node)} (hnext : Computes next (firstMet after)) :
    Computes (fun n => do
      match ← findStyle name n styles with
      | some node =>
        match ← findNode styles nodename n (some node) (depth + 1) with
        | some stylenode => return some stylenode
        | none => next n
      | none => next n)
      (firstMet (nameMet styles (met styles nodename left) (some name) ++ after)) := by
  rw [firstMet_nameMet_append]
  apply (computes_findStyle styles name).bind
  rintro (- | node) -
  · exact hnext
  · apply (hnode node).bind
    rintro (- | stylenode) -
    · exact hnext
    · exact computes_const _

/-- The loop over the `<style>` children goes through the names in order. -/
theorem computes_searchStyles (nodes : List Node) :
    Computes (fun n => searchStyles styles nodename n (named "style" nodes) depth)
      (firstMet (((nodes.filter (·.name = "style")).map (·.firstAttribute "name")).flatMap
        (nameMet styles (met styles nodename left)))) := by
  apply named_induction (P := fun l l' =>
    Computes (fun n => searchStyles styles nodename n l depth)
      (firstMet ((l'.map (·.firstAttribute "name")).flatMap
        (nameMet styles (met styles nodename left)))))
  · exact (computes_const _).succ (by simp [searchStyles])
  · intro style rest _ ih
    rw [List.map_cons, List.flatMap_cons]
    rcases hname : style.firstAttribute "name" with - | name
    · exact computes_none_of_stays (by simp [searchStyles])
        fun n => by rw [searchStyles, hname]
    · apply Computes.succ _ (by simp [searchStyles])
      simp only [searchStyles, hname]
      exact computes_style hnode name ih

end

/-- `FindNode` returns the first element it comes to in the order of the styles, unless it comes
to something without a name before. -/
theorem computes_findNode {left depth : ℕ} (hdepth : left + depth = 10) (parent : Node) :
    Computes (fun n => findNode styles nodename n (some parent) depth)
      (firstMet (met styles nodename left parent)) := by
  induction left generalizing parent depth with
  | zero =>
    apply Computes.succ _ (by simp [findNode])
    have hchild := @named_head? nodename parent.children
    rw [met, ← hchild]
    rcases hnamed : named nodename parent.children with - | ⟨child, rest⟩
    all_goals simpa [findNode, hnamed, firstMet, show depth = 10 by omega] using computes_const _
  | succ left ih =>
    have hnode : ∀ node, Computes (fun n => findNode styles nodename n (some node) (depth + 1))
        (firstMet (met styles nodename left node)) := fun node => ih (by omega) node
    apply Computes.succ _ (by simp [findNode])
    have hchild := @named_head? nodename parent.children
    rw [met, ← hchild]
    rcases hnamed : named nodename parent.children with - | ⟨child, rest⟩
    · have hdepth10 : depth ≠ 10 := by omega
      simp only [findNode, hnamed, if_neg hdepth10, List.head?_nil]
      have hsearch := computes_searchStyles hnode parent.children
      rcases huses : named "style" parent.children with - | ⟨style, rest⟩
      · have hevery : parent.every "style" = [] := named_eq_nil.mp huses
        simp only [styleNames, hevery, List.flatMap_cons, List.flatMap_nil,
          firstMet_nameMet_append]
        apply (computes_findStyle styles (styleName parent)).bind
        rintro (- | node) -
        · exact computes_const _
        · convert hnode node using 1
          rcases hfound : firstMet (met styles nodename left node) with - | - | found
          all_goals simp [hfound, show firstMet [] = some none from rfl]
      · have hevery : parent.every "style" ≠ [] := fun h => by simp [named_eq_nil.mpr h] at huses
        rw [huses] at hsearch
        convert hsearch using 2
        rw [styleNames]
        split
        · contradiction
        · rfl
    · simpa [findNode, hnamed, firstMet] using computes_const _

/-- The elements of the name that a search comes to, in order. -/
def hits (parent : Node) : List Node := (met styles nodename 10 parent).reduceOption

/-- `FindNode` ends with the first element of the name in the order of the styles. -/
def Finds (parent : Node) : Prop :=
  ∃ found, Returns (fun n => findNode styles nodename n (some parent) 0) found ∧
    found = (hits styles nodename parent).head? ∧
    ∀ child, parent.children.find? (·.name = nodename) = some child → found = some child

/-- A search comes to an element of the name before it comes to something without a name. -/
def NamedFirst (parent : Node) : Prop := (met styles nodename 10 parent).head? ≠ some none

theorem finds_iff (parent : Node) : Finds styles nodename parent ↔
    NamedFirst styles nodename parent := by
  have hcode := computes_findNode styles nodename (show 10 + 0 = 10 from rfl) parent
  have hchild : ∀ child, parent.children.find? (·.name = nodename) = some child →
      met styles nodename 10 parent = [some child] := by
    intro child h
    rw [met, h]
  simp only [Finds, NamedFirst, hcode.returns_iff, hits]
  rcases hmet : met styles nodename 10 parent with - | ⟨- | node, rest⟩
  · simp [hmet, firstMet] at hchild ⊢
    exact hchild
  · simp [firstMet]
  · simp only [hmet, List.cons.injEq, Option.some.injEq] at hchild
    simp only [firstMet, List.reduceOption_cons_of_some, List.head?_cons, Option.some.injEq]
    refine ⟨fun _ => by simp, fun _ => ⟨some node, rfl, rfl, fun child h => ?_⟩⟩
    rw [(hchild child h).1]

end BootableRecovery.Gui.Theme
