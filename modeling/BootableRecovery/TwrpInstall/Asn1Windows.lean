import BootableRecovery.Lib.ViewReader
import BootableRecovery.TwrpInstall.Asn1Decoder

namespace BootableRecovery.TwrpInstall.Asn1
open Lib Otautil

/-! `asn1_context` over the memory it points into: every byte that it reads, and the contexts that
come out of it. -/

section operations
variable (mem : ℕ → UInt8) (sizeofSize : ℕ)

def peekByte : ViewReader (Option UInt8) := fun v =>
  if v.length = 0 then (none, v, []) else (some (mem v.start), v, [⟨v, v.start⟩])

def getByte : ViewReader (Option UInt8) := fun v =>
  if v.length = 0 then (none, v, []) else (some (mem v.start), v.advance 1, [⟨v, v.start⟩])

def skipBytes (numSkip : ℕ) : ViewReader Bool := fun v =>
  if v.length < numSkip then (false, v, []) else (true, v.advance numSkip, [])

/-- The loop over the octets of a long length, in a `size_t`. -/
def decodeOctets : (numOctets length : ℕ) → ViewReader (Option ℕ)
  | 0, length => .pure (some length)
  | n + 1, length => .bind (getByte mem) fun byte =>
    match byte with
    | none => .pure none
    | some byte =>
      decodeOctets n
        ((length * 256 % 2 ^ (8 * sizeofSize) + byte.toNat) % 2 ^ (8 * sizeofSize))

def decodeLength : ViewReader (Option ℕ) := .bind (getByte mem) fun byte =>
  match byte with
  | none => .pure none
  | some byte =>
    if byte &&& 0x80 = 0 then .pure (some byte.toNat)
    else if (byte &&& kMaskTag).toNat ≥ sizeofSize then .pure none
    else decodeOctets mem sizeofSize (byte &&& kMaskTag).toNat 0

/-- The context of a value that has to fit into what is left. -/
def subContext (length : ℕ) : ViewReader (Option ByteView) := fun v =>
  if length > v.length then (none, v, []) else (some ⟨v.start, length⟩, v, [])

/-- The length, and then the context of the value. -/
def valueGet : ViewReader (Option ByteView) := .bind (decodeLength mem sizeofSize) fun length =>
  match length with
  | none => .pure none
  | some length => subContext length

/-- `asn1_constructed_get`, `asn1_sequence_get` and `asn1_set_get`. -/
def taggedGet (mask tag : UInt8) : ViewReader (Option ByteView) :=
  .bind (getByte mem) fun byte =>
    match byte with
    | none => .pure none
    | some byte => if byte &&& mask ≠ tag then .pure none else valueGet mem sizeofSize

def asn1ConstructedGet : ViewReader (Option ByteView) :=
  taggedGet mem sizeofSize kMaskConstructed kTagConstructed

def asn1SequenceGet : ViewReader (Option ByteView) :=
  taggedGet mem sizeofSize kMaskTag kTagSequence

def asn1SetGet : ViewReader (Option ByteView) := taggedGet mem sizeofSize kMaskTag kTagSet

/-- Length and value, behind the tag. -/
def skipValue : ViewReader Bool := .bind (decodeLength mem sizeofSize) fun length =>
  match length with
  | none => .pure false
  | some length => skipBytes length

def asn1SequenceNext : ViewReader Bool := .bind (getByte mem) fun byte =>
  match byte with
  | none => .pure false
  | some _ => skipValue mem sizeofSize

/-- The same, but not of an empty value. -/
def octetsGet : ViewReader (Option ByteView) := .bind (decodeLength mem sizeofSize) fun length =>
  match length with
  | none => .pure none
  | some length => if length = 0 then .pure none else subContext length

/-- Pointer and length of an octet string. -/
def asn1OctetStringGet : ViewReader (Option ByteView) := .bind (getByte mem) fun byte =>
  match byte with
  | none => .pure none
  | some byte => if byte ≠ kTagOctetString then .pure none else octetsGet mem sizeofSize

end operations

section safe
variable (mem : ℕ → UInt8) (sizeofSize : ℕ)

theorem restOf_advance {v : ByteView} {n : ℕ} (h : ¬v.length < n) : (v.advance n).RestOf v :=
  ByteView.advance_restOf (Nat.le_of_not_lt h)

theorem has_start {v : ByteView} (h : v.length ≠ 0) : v.Has v.start := by
  simp only [ByteView.Has, ByteView.stop]
  omega

theorem peekByte_safe : (peekByte mem).Safe := by
  intro v
  unfold peekByte
  split_ifs with h
  · exact ViewReader.contained_of_no_reads (.refl v)
  · refine ⟨.refl v, fun read hread => ?_⟩
    rw [List.mem_singleton.mp hread]
    exact ⟨.refl v, has_start h⟩

theorem getByte_safe : (getByte mem).Safe := by
  intro v
  unfold getByte
  split_ifs with h
  · exact ViewReader.contained_of_no_reads (.refl v)
  · refine ⟨restOf_advance (by omega), fun read hread => ?_⟩
    rw [List.mem_singleton.mp hread]
    exact ⟨.refl v, has_start h⟩

theorem skipBytes_safe (numSkip : ℕ) : (skipBytes numSkip).Safe := by
  intro v
  unfold skipBytes
  split_ifs with h
  · exact ViewReader.contained_of_no_reads (.refl v)
  · exact ViewReader.contained_of_no_reads (restOf_advance h)

theorem decodeOctets_safe (n length : ℕ) : (decodeOctets mem sizeofSize n length).Safe := by
  induction n generalizing length with
  | zero => exact ViewReader.safe_pure _
  | succ n ih =>
    refine (getByte_safe mem).bind fun byte => ?_
    cases byte with
    | none => exact ViewReader.safe_pure _
    | some byte => exact ih _

theorem decodeLength_safe : (decodeLength mem sizeofSize).Safe := by
  refine (getByte_safe mem).bind fun byte => ?_
  cases byte with
  | none => exact ViewReader.safe_pure _
  | some byte =>
    dsimp only
    split_ifs
    · exact ViewReader.safe_pure _
    · exact ViewReader.safe_pure _
    · exact decodeOctets_safe mem sizeofSize _ _

theorem subContext_safe (length : ℕ) : (subContext length).Safe := by
  intro v
  unfold subContext
  split_ifs <;> exact ViewReader.contained_of_no_reads (.refl v)

theorem valueGet_safe : (valueGet mem sizeofSize).Safe := by
  refine (decodeLength_safe mem sizeofSize).bind fun length => ?_
  cases length with
  | none => exact ViewReader.safe_pure _
  | some length => exact subContext_safe length

theorem taggedGet_safe (mask tag : UInt8) : (taggedGet mem sizeofSize mask tag).Safe := by
  refine (getByte_safe mem).bind fun byte => ?_
  cases byte with
  | none => exact ViewReader.safe_pure _
  | some byte =>
    dsimp only
    split_ifs
    · exact ViewReader.safe_pure _
    · exact valueGet_safe mem sizeofSize

theorem skipValue_safe : (skipValue mem sizeofSize).Safe := by
  refine (decodeLength_safe mem sizeofSize).bind fun length => ?_
  cases length with
  | none => exact ViewReader.safe_pure _
  | some length => exact skipBytes_safe length

theorem asn1SequenceNext_safe : (asn1SequenceNext mem sizeofSize).Safe := by
  refine (getByte_safe mem).bind fun byte => ?_
  cases byte with
  | none => exact ViewReader.safe_pure _
  | some byte => exact skipValue_safe mem sizeofSize

theorem octetsGet_safe : (octetsGet mem sizeofSize).Safe := by
  refine (decodeLength_safe mem sizeofSize).bind fun length => ?_
  cases length with
  | none => exact ViewReader.safe_pure _
  | some length =>
    dsimp only
    split_ifs
    · exact ViewReader.safe_pure _
    · exact subContext_safe length

theorem asn1OctetStringGet_safe : (asn1OctetStringGet mem sizeofSize).Safe := by
  refine (getByte_safe mem).bind fun byte => ?_
  cases byte with
  | none => exact ViewReader.safe_pure _
  | some byte =>
    dsimp only
    split_ifs
    · exact ViewReader.safe_pure _
    · exact octetsGet_safe mem sizeofSize

end safe

section skipAll
variable (mem : ℕ → UInt8) (sizeofSize : ℕ)

/-- One pass of `asn1_constructed_skip_all`: whether it goes on, or else what it returns. -/
def skipConstructed : ViewReader (Bool ⊕ Unit) := .bind (peekByte mem) fun byte =>
  match byte with
  | none => .pure (.inl false)
  | some byte =>
    if byte &&& kMaskConstructed ≠ kTagConstructed then .pure (.inl true)
    else .bind (skipBytes 1) fun _ => .bind (skipValue mem sizeofSize) fun ok =>
      if ok then .pure (.inr ()) else .pure (.inl false)

theorem skipConstructed_safe : (skipConstructed mem sizeofSize).Safe := by
  refine (peekByte_safe mem).bind fun byte => ?_
  cases byte with
  | none => exact ViewReader.safe_pure _
  | some byte =>
    dsimp only
    split_ifs
    · exact ViewReader.safe_pure _
    · refine (skipBytes_safe 1).bind fun _ => ?_
      refine (skipValue_safe mem sizeofSize).bind fun ok => ?_
      split_ifs <;> exact ViewReader.safe_pure _

/-- A pass that goes on has left its tag behind. -/
theorem skipConstructed_length {v : ByteView}
    (h : (skipConstructed mem sizeofSize v).1 = .inr ()) :
    (skipConstructed mem sizeofSize v).2.1.length < v.length := by
  unfold skipConstructed ViewReader.bind at h ⊢
  unfold peekByte at h ⊢
  by_cases hv : v.length = 0
  · simp [hv, ViewReader.pure] at h
  · simp only [hv, if_false] at h ⊢
    split_ifs at h ⊢ with htag
    · simp [ViewReader.pure] at h
    · have hskip : skipBytes 1 v = (true, v.advance 1, []) := if_neg (by omega)
      have hvalue := (skipValue_safe mem sizeofSize (v.advance 1)).rest.length_le
      simp only [hskip] at h ⊢
      have hone : (v.advance 1).length < v.length := by
        simp only [ByteView.advance]
        omega
      split_ifs
      · exact hvalue.trans_lt hone
      · exact hvalue.trans_lt hone

/-- Something must be left when the constructed values are skipped. -/
def asn1ConstructedSkipAll (v : ByteView) : Bool × ByteView × List ViewRead :=
  match h : skipConstructed mem sizeofSize v with
  | (.inl result, rest, reads) => (result, rest, reads)
  | (.inr (), rest, reads) =>
    have : rest.length < v.length := by
      have hlength := skipConstructed_length mem sizeofSize (v := v) (by rw [h])
      rwa [h] at hlength
    let others := asn1ConstructedSkipAll rest
    (others.1, others.2.1, reads ++ others.2.2)
termination_by v.length

theorem skipAll_stop {v rest : ByteView} {result : Bool} {reads : List ViewRead}
    (h : skipConstructed mem sizeofSize v = (.inl result, rest, reads)) :
    asn1ConstructedSkipAll mem sizeofSize v = (result, rest, reads) := by
  rw [asn1ConstructedSkipAll]
  split
  · rename_i h'
    rw [h] at h'
    cases h'
    rfl
  · rename_i h'
    rw [h] at h'
    cases h'

theorem skipAll_pass {v rest : ByteView} {reads : List ViewRead}
    (h : skipConstructed mem sizeofSize v = (.inr (), rest, reads)) :
    asn1ConstructedSkipAll mem sizeofSize v =
      ((asn1ConstructedSkipAll mem sizeofSize rest).1,
        (asn1ConstructedSkipAll mem sizeofSize rest).2.1,
        reads ++ (asn1ConstructedSkipAll mem sizeofSize rest).2.2) := by
  rw [asn1ConstructedSkipAll]
  split
  · rename_i h'
    rw [h] at h'
    cases h'
  · rename_i h'
    rw [h] at h'
    cases h'
    rfl

theorem asn1ConstructedSkipAll_safe :
    ViewReader.Safe (asn1ConstructedSkipAll mem sizeofSize) := by
  intro v
  induction hn : v.length using Nat.strong_induction_on generalizing v with
  | _ n ih =>
    have hsafe := skipConstructed_safe mem sizeofSize v
    rcases hpass : skipConstructed mem sizeofSize v with ⟨result | ⟨⟩, rest, reads⟩
    · rw [hpass] at hsafe
      rw [skipAll_stop mem sizeofSize hpass]
      exact ⟨hsafe.rest, hsafe.reads⟩
    · have hlength := skipConstructed_length mem sizeofSize (v := v) (by rw [hpass])
      rw [hpass] at hsafe hlength
      have hrest := (ih rest.length (hn ▸ hlength) rest rfl).mono hsafe.rest
      rw [skipAll_pass mem sizeofSize hpass]
      refine ⟨hrest.rest, fun read hread => ?_⟩
      rcases List.mem_append.mp hread with hread | hread
      · exact hsafe.reads read hread
      · exact hrest.reads read hread

/-- As many passes as there is fuel for. -/
def skipPasses : (fuel : ℕ) → ByteView → Option (Bool × ByteView × List ViewRead)
  | 0, _ => none
  | fuel + 1, v =>
    match skipConstructed mem sizeofSize v with
    | (.inl result, rest, reads) => some (result, rest, reads)
    | (.inr (), rest, reads) =>
      (skipPasses fuel rest).map fun others => (others.1, others.2.1, reads ++ others.2.2)

/-- The loop comes to its end, after at most one pass for each byte. -/
theorem skipPasses_eq {fuel : ℕ} {v : ByteView} (h : v.length < fuel) :
    skipPasses mem sizeofSize fuel v = some (asn1ConstructedSkipAll mem sizeofSize v) := by
  induction fuel generalizing v with
  | zero => exact absurd h (Nat.not_lt_zero _)
  | succ fuel ih =>
    unfold skipPasses
    rcases hpass : skipConstructed mem sizeofSize v with ⟨result | ⟨⟩, rest, reads⟩
    · rw [skipAll_stop mem sizeofSize hpass]
    · have hlength := skipConstructed_length mem sizeofSize (v := v) (by rw [hpass])
      rw [hpass] at hlength
      dsimp only at hlength ⊢
      rw [skipAll_pass mem sizeofSize hpass, ih (by omega), Option.map_some]

end skipAll

/-! ### Any sequence of operations on contexts and those that come out of them -/

inductive Operation
  | constructedGet
  | sequenceGet
  | setGet
  | sequenceNext
  | constructedSkipAll
  | octetStringGet
  deriving DecidableEq, Repr

/-- What an operation gives back: a new context, a slice or neither. -/
inductive Given
  | context (v : ByteView)
  | slice (v : ByteView)
  | nothing
  deriving DecidableEq, Repr

def Given.ofContext (v : Option ByteView) : Given := v.elim .nothing .context

def Given.ofSlice (v : Option ByteView) : Given := v.elim .nothing .slice

section run
variable (mem : ℕ → UInt8) (sizeofSize : ℕ)

def Operation.perform (op : Operation) (v : ByteView) : Given × ByteView × List ViewRead :=
  match op with
  | .constructedGet =>
    let r := asn1ConstructedGet mem sizeofSize v
    (.ofContext r.1, r.2)
  | .sequenceGet =>
    let r := asn1SequenceGet mem sizeofSize v
    (.ofContext r.1, r.2)
  | .setGet =>
    let r := asn1SetGet mem sizeofSize v
    (.ofContext r.1, r.2)
  | .sequenceNext => (.nothing, (asn1SequenceNext mem sizeofSize v).2)
  | .constructedSkipAll => (.nothing, (asn1ConstructedSkipAll mem sizeofSize v).2)
  | .octetStringGet =>
    let r := asn1OctetStringGet mem sizeofSize v
    (.ofSlice r.1, r.2)

/-- A context: the view it was made with, what is left of it, and the context it came out of. -/
structure Asn1Node where
  window : ByteView
  left : ByteView
  parent : Option ℕ
  deriving DecidableEq, Repr

/-- All contexts, and what has been read and given through which of them. -/
structure Asn1State where
  nodes : List Asn1Node
  reads : List (ℕ × ViewRead)
  slices : List (ℕ × ByteView)

def initial (input : ByteView) : Asn1State := ⟨[⟨input, input, none⟩], [], []⟩

/-- One call on the context of a number. -/
def step (s : Asn1State) (call : ℕ × Operation) : Asn1State :=
  match s.nodes[call.1]? with
  | none => s
  | some node =>
    let r := call.2.perform mem sizeofSize node.left
    let nodes := s.nodes.set call.1 { node with left := r.2.1 }
    let reads := s.reads ++ r.2.2.map fun read => (call.1, read)
    match r.1 with
    | .context v => ⟨nodes ++ [⟨v, v, some call.1⟩], reads, s.slices⟩
    | .slice v => ⟨nodes, reads, s.slices ++ [(call.1, v)]⟩
    | .nothing => ⟨nodes, reads, s.slices⟩

def run (input : ByteView) (calls : List (ℕ × Operation)) : Asn1State :=
  calls.foldl (step mem sizeofSize) (initial input)

end run

/-- Contexts are nested in those that they came out of, and nothing has been read or given that is
not in the window of its context. -/
structure Asn1State.Nested (input : ByteView) (s : Asn1State) : Prop where
  left : ∀ node ∈ s.nodes, node.left.RestOf node.window
  root : ∀ node ∈ s.nodes, node.window.PartOf input
  parent : ∀ (i : ℕ) (node : Asn1Node), s.nodes[i]? = some node → ∀ j, node.parent = some j →
    ∃ p, s.nodes[j]? = some p ∧ node.window.PartOf p.window
  reads : ∀ read ∈ s.reads, ∃ node, s.nodes[read.1]? = some node ∧
    read.2.view.RestOf node.window ∧ read.2.view.Has read.2.address
  slices : ∀ slice ∈ s.slices, ∃ node, s.nodes[slice.1]? = some node ∧ slice.2.PartOf node.window

section nested
variable (mem : ℕ → UInt8) (sizeofSize : ℕ)

theorem subContext_givesPart (length : ℕ) : (subContext length).GivesPart := by
  intro v sub h
  unfold subContext at h
  split_ifs at h with hlength
  cases h
  exact ByteView.partOf_of_le (by omega)

theorem valueGet_givesPart : (valueGet mem sizeofSize).GivesPart := by
  refine .bind (decodeLength_safe mem sizeofSize) fun length => ?_
  cases length with
  | none => exact ViewReader.givesPart_none
  | some length => exact subContext_givesPart length

theorem taggedGet_givesPart (mask tag : UInt8) : (taggedGet mem sizeofSize mask tag).GivesPart := by
  refine .bind (getByte_safe mem) fun byte => ?_
  cases byte with
  | none => exact ViewReader.givesPart_none
  | some byte =>
    dsimp only
    split_ifs
    · exact ViewReader.givesPart_none
    · exact valueGet_givesPart mem sizeofSize

theorem octetsGet_givesPart : (octetsGet mem sizeofSize).GivesPart := by
  refine .bind (decodeLength_safe mem sizeofSize) fun length => ?_
  cases length with
  | none => exact ViewReader.givesPart_none
  | some length =>
    dsimp only
    split_ifs
    · exact ViewReader.givesPart_none
    · exact subContext_givesPart length

theorem asn1OctetStringGet_givesPart : (asn1OctetStringGet mem sizeofSize).GivesPart := by
  refine .bind (getByte_safe mem) fun byte => ?_
  cases byte with
  | none => exact ViewReader.givesPart_none
  | some byte =>
    dsimp only
    split_ifs
    · exact ViewReader.givesPart_none
    · exact octetsGet_givesPart mem sizeofSize

/-- The view that an operation gives, if it gives one. -/
def Given.view : Given → Option ByteView
  | .context v => some v
  | .slice v => some v
  | .nothing => none

@[simp] theorem Given.view_ofContext (v : Option ByteView) : (Given.ofContext v).view = v := by
  cases v <;> rfl

@[simp] theorem Given.view_ofSlice (v : Option ByteView) : (Given.ofSlice v).view = v := by
  cases v <;> rfl

/-- All that an operation may do. -/
theorem perform_spec (op : Operation) (v : ByteView) :
    ViewReader.Contained (op.perform mem sizeofSize v) v ∧
      ∀ sub, (op.perform mem sizeofSize v).1.view = some sub → sub.PartOf v := by
  have hcontext : ∀ x : ViewReader (Option ByteView), x.Safe → x.GivesPart →
      ViewReader.Contained (Given.ofContext (x v).1, (x v).2) v ∧
        ∀ sub, (Given.ofContext (x v).1).view = some sub → sub.PartOf v := by
    intro x hsafe hpart
    refine ⟨⟨(hsafe v).rest, (hsafe v).reads⟩, fun sub h => hpart v sub ?_⟩
    rwa [Given.view_ofContext] at h
  have hnothing : ∀ x : ViewReader Bool, x.Safe →
      ViewReader.Contained (Given.nothing, (x v).2) v ∧
        ∀ sub, Given.nothing.view = some sub → sub.PartOf v := by
    intro x hsafe
    exact ⟨⟨(hsafe v).rest, (hsafe v).reads⟩, fun sub h => absurd h (Option.some_ne_none _).symm⟩
  cases op with
  | constructedGet =>
    exact hcontext _ (taggedGet_safe mem sizeofSize _ _) (taggedGet_givesPart mem sizeofSize _ _)
  | sequenceGet =>
    exact hcontext _ (taggedGet_safe mem sizeofSize _ _) (taggedGet_givesPart mem sizeofSize _ _)
  | setGet =>
    exact hcontext _ (taggedGet_safe mem sizeofSize _ _) (taggedGet_givesPart mem sizeofSize _ _)
  | sequenceNext => exact hnothing _ (asn1SequenceNext_safe mem sizeofSize)
  | constructedSkipAll => exact hnothing _ (asn1ConstructedSkipAll_safe mem sizeofSize)
  | octetStringGet =>
    have hsafe := asn1OctetStringGet_safe mem sizeofSize v
    refine ⟨⟨hsafe.rest, hsafe.reads⟩, fun sub h => ?_⟩
    refine asn1OctetStringGet_givesPart mem sizeofSize v sub ?_
    simpa [Operation.perform] using h

variable {mem sizeofSize} {input : ByteView} {s : Asn1State} {i : ℕ} {node : Asn1Node}

theorem initial_nested (input : ByteView) : (initial input).Nested input where
  left node h := by
    rw [List.mem_singleton.mp h]
    exact .refl input
  root node h := by
    rw [List.mem_singleton.mp h]
    exact ⟨le_rfl, le_rfl⟩
  parent i node h j hj := by
    have hmem := List.mem_of_getElem? h
    rw [List.mem_singleton.mp hmem] at hj
    cases hj
  reads read h := absurd h List.not_mem_nil
  slices slice h := absurd h List.not_mem_nil

/-- Windows stay where they are. -/
theorem window_set (hnode : s.nodes[i]? = some node) (left : ByteView) {j : ℕ} {p : Asn1Node}
    (h : s.nodes[j]? = some p) :
    ∃ q, (s.nodes.set i { node with left := left })[j]? = some q ∧ q.window = p.window ∧
      q.parent = p.parent := by
  by_cases hij : i = j
  · subst hij
    rw [hnode] at h
    cases h
    refine ⟨{ node with left := left }, ?_, rfl, rfl⟩
    rw [List.getElem?_set_self']
    simp [hnode]
  · exact ⟨p, by rw [List.getElem?_set_ne hij, h], rfl, rfl⟩

/-- What a call reads, and where it leaves its context. -/
theorem Asn1State.Nested.read (hs : s.Nested input) (hnode : s.nodes[i]? = some node)
    {α : Type} {r : α × ByteView × List ViewRead} (hr : ViewReader.Contained r node.left) :
    Asn1State.Nested input
      ⟨s.nodes.set i { node with left := r.2.1 },
        s.reads ++ r.2.2.map fun read => (i, read), s.slices⟩ where
  left n h := by
    rcases List.mem_or_eq_of_mem_set h with h | rfl
    · exact hs.left n h
    · exact hr.rest.trans (hs.left node (List.mem_of_getElem? hnode))
  root n h := by
    rcases List.mem_or_eq_of_mem_set h with h | rfl
    · exact hs.root n h
    · exact hs.root node (List.mem_of_getElem? hnode)
  parent j n h k hk := by
    have hold : ∃ m, s.nodes[j]? = some m ∧ m.window = n.window ∧ m.parent = n.parent := by
      by_cases hij : i = j
      · subst hij
        refine ⟨node, hnode, ?_⟩
        rw [List.getElem?_set_self'] at h
        simp only [hnode] at h
        cases h
        exact ⟨rfl, rfl⟩
      · rw [List.getElem?_set_ne hij] at h
        exact ⟨n, h, rfl, rfl⟩
    obtain ⟨m, hm, hwindow, hparent⟩ := hold
    obtain ⟨p, hp, hpart⟩ := hs.parent j m hm k (hparent.trans hk)
    obtain ⟨q, hq, hqwindow, -⟩ := window_set hnode r.2.1 hp
    refine ⟨q, hq, ?_⟩
    rw [hqwindow, ← hwindow]
    exact hpart
  reads read h := by
    have hkeep : ∀ {j : ℕ} {p : Asn1Node} {x : ViewRead}, s.nodes[j]? = some p →
        x.view.RestOf p.window → x.view.Has x.address →
        ∃ q, (s.nodes.set i { node with left := r.2.1 })[j]? = some q ∧
          x.view.RestOf q.window ∧ x.view.Has x.address := by
      intro j p x hp hrest hhas
      obtain ⟨q, hq, hqwindow, -⟩ := window_set hnode r.2.1 hp
      exact ⟨q, hq, hqwindow ▸ hrest, hhas⟩
    rcases List.mem_append.mp h with h | h
    · obtain ⟨p, hp, hrest, hhas⟩ := hs.reads read h
      exact hkeep hp hrest hhas
    · obtain ⟨x, hx, rfl⟩ := List.mem_map.mp h
      obtain ⟨hrest, hhas⟩ := hr.reads x hx
      exact hkeep hnode (hrest.trans (hs.left node (List.mem_of_getElem? hnode))) hhas
  slices slice h := by
    obtain ⟨p, hp, hpart⟩ := hs.slices slice h
    obtain ⟨q, hq, hqwindow, -⟩ := window_set hnode r.2.1 hp
    exact ⟨q, hq, hqwindow ▸ hpart⟩

theorem Asn1State.Nested.pushContext (hs : s.Nested input) (hnode : s.nodes[i]? = some node)
    {v : ByteView} (hv : v.PartOf node.window) :
    Asn1State.Nested input ⟨s.nodes ++ [⟨v, v, some i⟩], s.reads, s.slices⟩ where
  left n h := by
    rcases List.mem_append.mp h with h | h
    · exact hs.left n h
    · rw [List.mem_singleton.mp h]
      exact .refl v
  root n h := by
    rcases List.mem_append.mp h with h | h
    · exact hs.root n h
    · rw [List.mem_singleton.mp h]
      exact hv.trans (hs.root node (List.mem_of_getElem? hnode))
  parent j n h k hk := by
    have hkeep : ∀ {l : ℕ} {p : Asn1Node}, s.nodes[l]? = some p →
        (s.nodes ++ [⟨v, v, some i⟩])[l]? = some p := by
      intro l p hp
      rw [List.getElem?_append_left (List.getElem?_eq_some_iff.mp hp).1, hp]
    by_cases hj : j < s.nodes.length
    · rw [List.getElem?_append_left hj] at h
      obtain ⟨p, hp, hpart⟩ := hs.parent j n h k hk
      exact ⟨p, hkeep hp, hpart⟩
    · rw [List.getElem?_append_right (by omega)] at h
      have hmem := List.mem_of_getElem? h
      rw [List.mem_singleton.mp hmem] at hk ⊢
      cases hk
      exact ⟨node, hkeep hnode, hv⟩
  reads read h := by
    obtain ⟨p, hp, hread⟩ := hs.reads read h
    exact ⟨p, by rw [List.getElem?_append_left (List.getElem?_eq_some_iff.mp hp).1, hp], hread⟩
  slices slice h := by
    obtain ⟨p, hp, hpart⟩ := hs.slices slice h
    exact ⟨p, by rw [List.getElem?_append_left (List.getElem?_eq_some_iff.mp hp).1, hp], hpart⟩

theorem Asn1State.Nested.pushSlice (hs : s.Nested input) (hnode : s.nodes[i]? = some node)
    {v : ByteView} (hv : v.PartOf node.window) :
    Asn1State.Nested input ⟨s.nodes, s.reads, s.slices ++ [(i, v)]⟩ where
  left := hs.left
  root := hs.root
  parent := hs.parent
  reads := hs.reads
  slices slice h := by
    rcases List.mem_append.mp h with h | h
    · exact hs.slices slice h
    · rw [List.mem_singleton.mp h]
      exact ⟨node, hnode, hv⟩

theorem step_nested (hs : s.Nested input) (call : ℕ × Operation) :
    (step mem sizeofSize s call).Nested input := by
  unfold step
  rcases hnode : s.nodes[call.1]? with _ | node
  · exact hs
  obtain ⟨hcontained, hpart⟩ := perform_spec mem sizeofSize call.2 node.left
  have hread := hs.read hnode hcontained
  have hleft := (hs.left node (List.mem_of_getElem? hnode)).partOf
  obtain ⟨q, hq, hwindow, -⟩ :=
    window_set hnode (call.2.perform mem sizeofSize node.left).2.1 hnode
  dsimp only
  rcases hgiven : (call.2.perform mem sizeofSize node.left).1 with v | v | _
  · refine hread.pushContext hq ?_
    rw [hwindow]
    exact (hpart v (by rw [hgiven]; rfl)).trans hleft
  · refine hread.pushSlice hq ?_
    rw [hwindow]
    exact (hpart v (by rw [hgiven]; rfl)).trans hleft
  · exact hread

/-- The state after any calls. -/
theorem run_nested (input : ByteView) (calls : List (ℕ × Operation)) :
    (run mem sizeofSize input calls).Nested input := by
  have hfold : ∀ s : Asn1State, s.Nested input →
      (calls.foldl (step mem sizeofSize) s).Nested input := by
    induction calls with
    | nil => exact fun s hs => hs
    | cons call calls ih => exact fun s hs => ih _ (step_nested hs call)
  exact hfold _ (initial_nested input)

end nested

end BootableRecovery.TwrpInstall.Asn1
