import BootableRecovery.Mtp.StorageIndex

namespace BootableRecovery.Mtp
open Lib

/-! What the operations of a storage do to its index. -/

variable {s s' : MtpStorage}

theorem brief_eq_some {a : ℕ} {n : Brief} :
    s.brief a = some n ↔ ∃ node, s.heap.read a = some node ∧ node.brief = n := by
  rw [MtpStorage.brief, Option.map_eq_some_iff]

theorem Inv.brief_unique (hs : Inv s) {a b : ℕ} {n m : Brief} (ha : s.brief a = some n)
    (hb : s.brief b = some m) (h : n.handle = m.handle) : a = b := by
  obtain ⟨node, hnode, rfl⟩ := brief_eq_some.mp ha
  obtain ⟨node', hnode', rfl⟩ := brief_eq_some.mp hb
  exact hs.unique hnode hnode' h

theorem Inv.forest (hs : Inv s) (R : ℕ → Text → Prop) : (s.index R).Forest :=
  indexOf_forest fun ha hb h => hs.brief_unique ha hb h

/-- The nodes of the index are live. -/
theorem Inv.fresh_next (hs : Inv s) (R : ℕ → Text → Prop) : (s.index R).Fresh s.heap.next := by
  have hnone : s.brief s.heap.next = none := by
    rw [MtpStorage.brief, Heap.read_next]
    rfl
  constructor
  · rintro ⟨n, h, -⟩
    rw [hnone] at h
    cases h
  · rintro t x ⟨n, m, h, -⟩
    rw [hnone] at h
    cases h
  · rintro x a ⟨n, m, -, -, -, h, -⟩
    rw [hnone] at h
    cases h
  · rintro ⟨n, h, -⟩
    rw [hnone] at h
    cases h
  · intro w h
    obtain ⟨node, tree, hread, -⟩ := hs.watched h
    rw [Heap.read_next] at hread
    cases hread

/-- Nodes are added, and nothing else changes. -/
structure Grows (s s' : MtpStorage) : Prop where
  kept : ∀ a n, s.brief a = some n → ∃ n', s'.brief a = some n' ∧ n'.handle = n.handle ∧
    n'.parent = n.parent ∧ n'.name = n.name
  new : ∀ a n', s'.brief a = some n' → (∃ n, s.brief a = some n ∧ n'.handle = n.handle ∧
    n'.name = n.name) ∨ s.mtpid.toNat < n'.handle.toNat
  mtpid : s.mtpid.toNat ≤ s'.mtpid.toNat
  sending : s'.handleCurrentlySending = s.handleCurrentlySending
  parent : s'.mtpstorageparent = s.mtpstorageparent
  fd : s'.inotifyFd = s.inotifyFd

theorem Grows.refl (s : MtpStorage) : Grows s s :=
  ⟨fun _ n h => ⟨n, h, rfl, rfl, rfl⟩, fun _ n h => Or.inl ⟨n, h, rfl, rfl⟩, le_rfl, rfl, rfl, rfl⟩

theorem Grows.trans {s'' : MtpStorage} (h : Grows s s') (h' : Grows s' s'') : Grows s s'' := by
  refine ⟨fun a n ha => ?_, fun a n ha => ?_, h.mtpid.trans h'.mtpid,
    h'.sending.trans h.sending, h'.parent.trans h.parent, h'.fd.trans h.fd⟩
  · obtain ⟨n', ha', hh, hp, hx⟩ := h.kept a n ha
    obtain ⟨n'', ha'', hh', hp', hx'⟩ := h'.kept a n' ha'
    exact ⟨n'', ha'', hh'.trans hh, hp'.trans hp, hx'.trans hx⟩
  · obtain ⟨n', ha', hh, hx⟩ | hlt := h'.new a n ha
    · obtain ⟨n'', ha'', hh', hx'⟩ | hlt := h.new a n' ha'
      · exact Or.inl ⟨n'', ha'', hh.trans hh', hx.trans hx'⟩
      · exact Or.inr (hh ▸ hlt)
    · exact Or.inr (h.mtpid.trans_lt hlt)

theorem Inv.index_addNewNode (hs : Inv s) {isDir : Bool} {t : ℕ} {handle : MtpObjectHandle}
    {name : Text} (ht : s.IsTree t handle) (hroom : s.mtpid.toNat + 1 < 2 ^ 32)
    (h : s.addNewNode isDir t name = some s') (R : ℕ → Text → Prop) :
    s'.index R = (s.index R).add t name s.heap.next ∧
      s'.brief = Function.update s.brief s.heap.next (some ⟨s.mtpid + 1, handle, name, false⟩) := by
  obtain ⟨node, tree, hread, htree, rfl⟩ := ht
  obtain ⟨s₁, hadd, -, hinotify, -, hnew, hchanged, hother⟩ :=
    addNewNode_spec isDir name hread htree
  rw [h, Option.some.injEq] at hadd
  subst hadd
  have hne := Heap.ne_next_of_read hread
  have hsucc := toNat_succ hroom
  have hbrief : s'.brief = Function.update s.brief s.heap.next
      (some ⟨s.mtpid + 1, node.handle, name, false⟩) := by
    funext b
    by_cases hb : b = s.heap.next
    · subst hb
      rw [Function.update_self, MtpStorage.brief, hnew]
      cases isDir <;> rfl
    · rw [Function.update_of_ne hb]
      by_cases hbt : b = t
      · subst hbt
        rw [MtpStorage.brief, MtpStorage.brief, hchanged, hread, Option.map_some, Option.map_some,
          Node.brief, Node.brief, htree, Tree.addEntry]
        split_ifs <;> rfl
      · rw [MtpStorage.brief, MtpStorage.brief, hother b hb hbt]
  have hbelow : ∀ {a n}, s.brief a = some n → n.parent ≠ s.mtpid + 1 := by
    intro a n ha hp
    obtain ⟨node', hnode', rfl⟩ := brief_eq_some.mp ha
    have hlt : node'.parent.toNat ≤ s.mtpid.toNat := by
      by_cases hzero : node'.handle = 0
      · rw [hs.root hnode' hzero]
        exact Nat.zero_le _
      · exact (hs.older hnode' hzero).le.trans (hs.bounded hnode')
    have hparent : node'.parent = s.mtpid + 1 := hp
    rw [hparent, hsucc] at hlt
    omega
  have hself : node.handle ≠ s.mtpid + 1 := by
    intro heq
    have hle := hs.bounded hread
    rw [heq, hsucc] at hle
    omega
  constructor
  · rw [MtpStorage.index, hinotify, hbrief]
    refine indexOf_add ?_ (brief_eq_some.mpr ⟨node, hread, rfl⟩) rfl ?_ rfl
      (fun a n ha => hbelow ha) (fun ha hb heq => hs.brief_unique ha hb heq) hself
    · rw [MtpStorage.brief, Heap.read_next]
      rfl
    · intro hzero
      change s.mtpid + 1 = 0 at hzero
      rw [hzero] at hsucc
      cases hsucc
  · exact hbrief

theorem addNewNode_watches {isDir : Bool} {t : ℕ} {name : Text}
    (h : s.addNewNode isDir t name = some s') : s'.inotifymap = s.inotifymap := by
  obtain ⟨p, -, rfl⟩ := Option.map_eq_some_iff.mp h
  rfl

theorem Inv.grows_addNewNode (hs : Inv s) {isDir : Bool} {t : ℕ} {handle : MtpObjectHandle}
    {name : Text} (ht : s.IsTree t handle) (hroom : s.mtpid.toNat + 1 < 2 ^ 32)
    (h : s.addNewNode isDir t name = some s') : Grows s s' := by
  have hbrief := (hs.index_addNewNode ht hroom h fun _ _ => True).2
  have hsucc := toNat_succ hroom
  obtain ⟨p, -, rfl⟩ := Option.map_eq_some_iff.mp h
  refine ⟨fun a n ha => ?_, fun a n ha => ?_, ?_, rfl, rfl, rfl⟩
  · obtain ⟨node, hread, -⟩ := brief_eq_some.mp ha
    refine ⟨n, ?_, rfl, rfl, rfl⟩
    rw [hbrief, Function.update_of_ne (Heap.ne_next_of_read hread), ha]
  · rw [hbrief] at ha
    by_cases hnext : a = s.heap.next
    · rw [hnext, Function.update_self, Option.some.injEq] at ha
      rw [← ha]
      exact Or.inr (hsucc ▸ Nat.lt_succ_self _)
    · rw [Function.update_of_ne hnext] at ha
      exact Or.inl ⟨n, ha, rfl, rfl⟩
  · change s.mtpid.toNat ≤ (s.mtpid + 1).toNat
    omega

/-! ### Directories -/

/-- The names that reading a directory adds. -/
def addedNames : List (Text × Option UInt32) → List Text
  | [] => []
  | (_, none) :: _ => []
  | (name, some _) :: rest =>
    if name = ".".toList ∨ name = "..".toList then addedNames rest else name :: addedNames rest

/-- What a part of a directory that has been read leaves. -/
structure ReadPart (s s' : MtpStorage) (R : ℕ → Text → Prop) (t : ℕ) (names : List Text)
    (files : List Text → Option (Set Text)) (q : List (Change Int32 Text)) : Prop where
  mirrors : (s'.index R).Mirrors files q
  unread : ¬(s'.index R).read t
  listed : ∀ x, (∃ a, (s'.index R).entry t x a) ↔ (∃ a, (s.index R).entry t x a) ∨ x ∈ names
  path : ∀ p, (s'.index R).At t p → (s.index R).At t p
  watches : s'.inotifymap = s.inotifymap
  grows : Grows s s'

section

variable {R : ℕ → Text → Prop} {files : List Text → Option (Set Text)}
  {q : List (Change Int32 Text)} {t : ℕ}

theorem ReadPart.refl (hm : (s.index R).Mirrors files q) (hunread : ¬(s.index R).read t) :
    ReadPart s s R t [] files q := by
  refine ⟨hm, hunread, fun x => ?_, fun p hp => hp, rfl, Grows.refl s⟩
  rw [or_iff_left List.not_mem_nil]

theorem ReadPart.cons {s'' : MtpStorage} {name : Text} {names : List Text}
    (h : ReadPart s s' R t [name] files q) (h' : ReadPart s' s'' R t names files q) :
    ReadPart s s'' R t (name :: names) files q := by
  refine ⟨h'.mirrors, h'.unread, fun x => ?_, fun p hp => h.path p (h'.path p hp),
    h'.watches.trans h.watches, h.grows.trans h'.grows⟩
  rw [h'.listed, h.listed, List.mem_singleton, List.mem_cons, or_assoc]

theorem Inv.readPart_addNewNode (hs : Inv s) {isDir : Bool} {handle : MtpObjectHandle}
    {name : Text} (ht : s.IsTree t handle) (hroom : s.mtpid.toNat + 1 < 2 ^ 32)
    (hm : (s.index R).Mirrors files q) (hunread : ¬(s.index R).read t)
    (hnew : ∀ a, ¬(s.index R).entry t name a) (h : s.addNewNode isDir t name = some s') :
    ReadPart s s' R t [name] files q := by
  have hindex := (hs.index_addNewNode ht hroom h R).1
  have hfresh := hs.fresh_next R
  have hne : t ≠ s.heap.next := by
    obtain ⟨node, tree, hread, -⟩ := ht
    exact Heap.ne_next_of_read hread
  refine ⟨?_, ?_, fun x => ?_, fun p hp => ?_, addNewNode_watches h,
    hs.grows_addNewNode ht hroom h⟩
  · rw [hindex]
    exact hm.add hfresh hnew fun h => absurd h hunread
  · rw [hindex]
    exact hunread
  · rw [hindex, List.mem_singleton]
    constructor
    · rintro ⟨a, ha | ⟨-, rfl, -⟩⟩
      · exact Or.inl ⟨a, ha⟩
      · exact Or.inr rfl
    · rintro (⟨a, ha⟩ | rfl)
      · exact ⟨a, Or.inl ha⟩
      · exact ⟨_, Or.inr ⟨rfl, rfl, rfl⟩⟩
  · rw [hindex] at hp
    exact hp.of_add hfresh hne

theorem Inv.readPart_readLoop (hs : Inv s) {handle : MtpObjectHandle} (ht : s.IsTree t handle)
    {items : List (Text × Option UInt32)} (hroom : s.mtpid.toNat + addedItems items < 2 ^ 32)
    (hm : (s.index R).Mirrors files q) (hunread : ¬(s.index R).read t)
    (hnodup : (addedNames items).Nodup)
    (hnew : ∀ x ∈ addedNames items, ∀ a, ¬(s.index R).entry t x a) {whole : Bool}
    (h : s.readLoop t items = some (s', whole)) :
    ReadPart s s' R t (addedNames items) files q := by
  induction items generalizing s with
  | nil =>
    cases h
    exact ReadPart.refl hm hunread
  | cons item rest ih =>
    obtain ⟨name, _ | mode⟩ := item
    · cases h
      exact ReadPart.refl hm hunread
    · rw [addedItems] at hroom
      rw [MtpStorage.readLoop] at h
      rw [addedNames] at hnodup hnew ⊢
      by_cases hdots : name = ".".toList ∨ name = "..".toList
      · rw [if_pos hdots] at hroom h hnodup hnew ⊢
        exact ih hs ht (by omega) hm hunread hnodup hnew h
      · rw [if_neg hdots] at hroom h hnodup hnew ⊢
        obtain ⟨s₁, hadd, hs₁, hmtpid, ht₁⟩ :=
          hs.addNewNode (modeIsDir mode) name ht (by omega)
        rw [hadd] at h
        obtain ⟨hnotin, hrest⟩ := List.nodup_cons.mp hnodup
        have hpart := hs.readPart_addNewNode ht (by omega) hm hunread
          (hnew name List.mem_cons_self) hadd
        refine hpart.cons (ih hs₁ ht₁ ?_ hpart.mirrors hpart.unread hrest ?_ h)
        · rw [hmtpid, toNat_succ (by omega)]
          omega
        · intro x hx a ha
          obtain ⟨b, hb⟩ | hname := (hpart.listed x).mp ⟨a, ha⟩
          · exact hnew x (List.mem_cons_of_mem _ hx) b hb
          · rw [List.mem_singleton.mp hname] at hx
            exact hnotin hx

/-! ### Paths -/

/-- The text of a path on the storage. -/
def pathText (root : Text) (p : List Text) : Text :=
  root ++ if p = [] then ['/'] else p.flatMap fun x => '/' :: x

/-- The root has no name. -/
def MtpStorage.RootUnnamed (s : MtpStorage) : Prop :=
  ∀ r n, s.brief r = some n → n.handle = 0 → n.name = []

theorem Inv.findNode_eq (hs : Inv s) {a : ℕ} {node : Node} (hread : s.heap.read a = some node)
    (hne : node.handle ≠ 0) : s.findNode node.handle = some (some a) := by
  obtain ⟨b, m, hb, hreadb, hm, -⟩ | ⟨-, hnone⟩ := hs.findNode node.handle
  · rw [hb, hs.unique hreadb hread hm]
  · exact absurd (hnone a node hread rfl) hne

theorem Inv.pathLoop_eq (hs : Inv s) (hroot : s.RootUnnamed) {a : ℕ} {p : List Text}
    (h : (s.index R).At a p) {fuel : ℕ} {node : Node} (hread : s.heap.read a = some node)
    (hfuel : node.handle.toNat < fuel) (path : Text) :
    s.pathLoop fuel a path =
      some ((if p = [] then ['/'] else p.flatMap fun x => '/' :: x) ++ path) := by
  induction h generalizing fuel node path with
  | root hr =>
    obtain ⟨n, hn, hzero⟩ := hr
    have hname := hroot _ _ hn hzero
    obtain ⟨node', hread', rfl⟩ := brief_eq_some.mp hn
    rw [hread, Option.some.injEq] at hread'
    subst hread'
    obtain ⟨fuel, rfl⟩ : ∃ n, fuel = n + 1 := ⟨fuel - 1, by omega⟩
    change node.name = [] at hname
    rw [MtpStorage.pathLoop, hread]
    dsimp only
    rw [if_pos (hs.root hread hzero), hname]
    rfl
  | @entry t b x p ht he ih =>
    obtain ⟨n, m, hn, hne, rfl, hm, hparent⟩ := he
    obtain ⟨node', hread', rfl⟩ := brief_eq_some.mp hn
    rw [hread, Option.some.injEq] at hread'
    subst hread'
    obtain ⟨parent, hreadt, rfl⟩ := brief_eq_some.mp hm
    change parent.handle = node.parent at hparent
    change node.handle ≠ 0 at hne
    obtain ⟨fuel, rfl⟩ : ∃ n, fuel = n + 1 := ⟨fuel - 1, by omega⟩
    rw [MtpStorage.pathLoop, hread]
    dsimp only
    by_cases hzero : node.parent = 0
    · have hp : p = [] := by
        have hrootAt : (s.index R).At t [] := Index.At.root ⟨_, hm, hparent.trans hzero⟩
        exact ht.eq (hs.forest R) hrootAt
      subst hp
      rw [if_pos hzero]
      simp [Node.brief]
    · have hlt := hs.older hread hne
      have hp : p ≠ [] := by
        rintro rfl
        obtain ⟨n, hn', h0⟩ := Index.root_of_at ht
        rw [hm, Option.some.injEq] at hn'
        subst hn'
        exact hzero (hparent.symm.trans h0)
      rw [if_neg hzero, ← hparent, hs.findNode_eq hreadt (hparent ▸ hzero)]
      dsimp only
      rw [ih hreadt (by rw [hparent]; omega), if_neg hp]
      simp [Node.brief]

theorem Inv.getNodePath_eq (hs : Inv s) (hroot : s.RootUnnamed) {a : ℕ} {p : List Text}
    (h : (s.index R).At a p) : s.getNodePath a = some (pathText s.mtpstorageparent p) := by
  have hlive : ∃ node, s.heap.read a = some node := by
    cases h with
    | root hr =>
      obtain ⟨n, hn, -⟩ := hr
      obtain ⟨node, hread, -⟩ := brief_eq_some.mp hn
      exact ⟨node, hread⟩
    | entry _ he =>
      obtain ⟨n, m, hn, -⟩ := he
      obtain ⟨node, hread, -⟩ := brief_eq_some.mp hn
      exact ⟨node, hread⟩
  obtain ⟨node, hread⟩ := hlive
  rw [MtpStorage.getNodePath, hs.pathLoop_eq hroot h hread
    (by have := node.handle.toNat_lt; omega), Option.map_some, List.append_nil, pathText]

/-- Every node has a path. -/
theorem Inv.exists_at (hs : Inv s) {a : ℕ} {node : Node} (hread : s.heap.read a = some node) :
    ∃ p, (s.index R).At a p := by
  induction hn : node.handle.toNat using Nat.strong_induction_on generalizing a node with
  | _ n ih =>
    by_cases hzero : node.handle = 0
    · exact ⟨[], Index.At.root ⟨_, brief_eq_some.mpr ⟨node, hread, rfl⟩, hzero⟩⟩
    · obtain ⟨t, parent, -, ht, -, hparent, -⟩ := hs.owned hread hzero
      have hlt := hs.older hread hzero
      rw [← hparent, hn] at hlt
      obtain ⟨p, hp⟩ := ih _ hlt ht rfl
      exact ⟨p ++ [node.name], Index.At.entry hp ⟨node.brief, parent.brief,
        brief_eq_some.mpr ⟨node, hread, rfl⟩, hzero, rfl,
        brief_eq_some.mpr ⟨parent, ht, rfl⟩, hparent⟩⟩

/-- The watch that the system gives, if any. -/
def MtpStorage.watchFor (s : MtpStorage) (fs : Text → Directory) (path : Text) : Option Int32 :=
  if s.inotifyFd < 0 then none else if (fs path).watch < 0 then none else some (fs path).watch

theorem brief_setAlreadyRead {handle : MtpObjectHandle} (ht : s.IsTree t handle)
    (h : s.setAlreadyRead t = some s') : ∃ n, s.brief t = some n ∧
      s'.brief = Function.update s.brief t (some { n with read := true }) := by
  obtain ⟨node, tree, hread, htree, -⟩ := ht
  rw [MtpStorage.setAlreadyRead, derefTree_eq_some.mpr ⟨hread, htree⟩, Option.map_some,
    Option.some.injEq] at h
  subst h
  refine ⟨node.brief, brief_eq_some.mpr ⟨node, hread, rfl⟩, ?_⟩
  funext b
  by_cases hb : b = t
  · subst hb
    rw [Function.update_self, MtpStorage.brief]
    dsimp only
    rw [Heap.read_write_self hread]
    rfl
  · rw [Function.update_of_ne hb, MtpStorage.brief, MtpStorage.brief]
    dsimp only
    rw [Heap.read_write_of_ne hb]

/-- The end of `readDir`. -/
theorem index_addInotify {fs : Text → Directory} {path : Text} (hpath : s.getNodePath t = some path)
    (h : s.addInotify fs t = some s') :
    s'.brief = s.brief ∧ s'.inotifymap.find? =
        (fun w => if s.watchFor fs path = some w then some t else s.inotifymap.find? w) ∧
      s'.handleCurrentlySending = s.handleCurrentlySending ∧ s'.inotifyFd = s.inotifyFd ∧
      s'.mtpstorageparent = s.mtpstorageparent ∧ s'.mtpid = s.mtpid := by
  rw [MtpStorage.addInotify] at h
  unfold MtpStorage.watchFor
  by_cases hfd : s.inotifyFd < 0
  · rw [if_pos hfd, Option.some.injEq] at h
    subst h
    rw [if_pos hfd]
    exact ⟨rfl, rfl, rfl, rfl, rfl, rfl⟩
  · rw [if_neg hfd, hpath, Option.map_some, Option.some.injEq] at h
    rw [if_neg hfd]
    by_cases hwatch : (fs path).watch < 0
    · rw [if_pos hwatch] at h ⊢
      subst h
      exact ⟨rfl, rfl, rfl, rfl, rfl, rfl⟩
    · rw [if_neg hwatch] at h ⊢
      subst h
      refine ⟨rfl, funext fun w => ?_, rfl, rfl, rfl, rfl⟩
      dsimp only
      by_cases hw : w = (fs path).watch
      · subst hw
        rw [OrderedMap.find?_insert_self, if_pos rfl]
      · rw [OrderedMap.find?_insert_of_ne _ hw, if_neg fun h => hw (Option.some.inj h).symm]

theorem Grows.entry (h : Grows s s') {R' : ℕ → Text → Prop} {x : Text} {a : ℕ}
    (he : (s.index R).entry t x a) : (s'.index R').entry t x a := by
  obtain ⟨n, m, ha, hne, rfl, ht, hm⟩ := he
  obtain ⟨n', ha', hh, hp, hx⟩ := h.kept a n ha
  obtain ⟨m', ht', hh', -⟩ := h.kept t m ht
  exact ⟨n', m', ha', hh ▸ hne, hx, ht', by rw [hh', hp, hm]⟩

theorem Grows.root (h : Grows s s') {R' : ℕ → Text → Prop} {r : ℕ} (hr : (s.index R).root r) :
    (s'.index R').root r := by
  obtain ⟨n, hn, hzero⟩ := hr
  obtain ⟨n', hn', hh, -⟩ := h.kept r n hn
  exact ⟨n', hn', hh.trans hzero⟩

theorem Grows.unnamed (h : Grows s s') (hroot : s.RootUnnamed) : s'.RootUnnamed := by
  intro r n' hn' hzero
  obtain ⟨n, hn, hh, hx⟩ | hlt := h.new r n' hn'
  · rw [hx]
    exact hroot r n hn (hh.symm.trans hzero)
  · rw [hzero] at hlt
    exact absurd hlt (Nat.not_lt_zero _)

theorem Grows.at (h : Grows s s') {p : List Text} (hp : (s.index R).At t p) :
    (s'.index R).At t p :=
  hp.mono (fun _ hr => h.root hr) fun _ _ _ he => h.entry he

theorem grows_setAlreadyRead {handle : MtpObjectHandle} (ht : s.IsTree t handle)
    (h : s.setAlreadyRead t = some s') : Grows s s' := by
  obtain ⟨n, hn, hbrief⟩ := brief_setAlreadyRead ht h
  obtain ⟨p, -, rfl⟩ := Option.map_eq_some_iff.mp h
  refine ⟨fun a m ha => ?_, fun a m ha => ?_, le_rfl, rfl, rfl, rfl⟩
  · rw [hbrief]
    by_cases hat : a = t
    · subst hat
      rw [hn, Option.some.injEq] at ha
      subst ha
      exact ⟨_, Function.update_self .., rfl, rfl, rfl⟩
    · exact ⟨m, by rw [Function.update_of_ne hat, ha], rfl, rfl, rfl⟩
  · rw [hbrief] at ha
    by_cases hat : a = t
    · subst hat
      rw [Function.update_self, Option.some.injEq] at ha
      subst ha
      exact Or.inl ⟨n, hn, rfl, rfl⟩
    · rw [Function.update_of_ne hat] at ha
      exact Or.inl ⟨m, ha, rfl, rfl⟩

theorem readLoop_whole {items : List (Text × Option UInt32)} {whole : Bool}
    (h : s.readLoop t items = some (s', whole)) :
    whole = true ↔ ∀ e ∈ items, e.2.isSome := by
  induction items generalizing s with
  | nil =>
    cases h
    exact iff_of_true rfl fun e he => absurd he List.not_mem_nil
  | cons item rest ih =>
    obtain ⟨name, _ | mode⟩ := item
    · cases h
      exact iff_of_false Bool.false_ne_true fun h => absurd (h _ List.mem_cons_self) (by simp)
    · rw [List.forall_mem_cons, and_iff_right (a := (name, some mode).2.isSome = true) rfl]
      rw [MtpStorage.readLoop] at h
      split_ifs at h
      · exact ih h
      · rcases hadd : s.addNewNode (modeIsDir mode) t name with _ | s₁
        · rw [hadd] at h
          cases h
        · rw [hadd] at h
          exact ih h

/-- What a new watch has to tell of a directory: its reports, if there are any, and that the
directory it was on before is going. -/
def WatchTells (I : Index ℕ Int32 Text) (q : List (Change Int32 Text)) (w : Option Int32)
    (c : Set Text) : Prop :=
  ∀ w', w = some w' →
    (∀ t', I.watch w' = some t' → I.Going (q.filter fun d => d.watch ≠ w') t') ∧
      ∀ x k, Index.lastReport w' x q = some k → (x ∈ c ↔ k = true)

/-- All entries of a directory have been looked at. -/
def Whole (items : List (Text × Option UInt32)) : Prop := ∀ e ∈ items, e.2.isSome

/-- A directory that is marked as read lists what is there. -/
theorem mirrors_mark (hs : Inv s) (hm : (s.index R).Mirrors files q)
    (hunread : ¬(s.index R).read t) {p : List Text} (hp : (s.index R).At t p) {c : Set Text}
    (hc : files p = some c) {w : Option Int32} (hw : WatchTells (s.index R) q w c)
    (hlisted : ∀ x, ¬R t x → ((∃ a, (s.index R).entry t x a) ↔ x ∈ c)) :
    ((s.index R).mark t w).Mirrors files q := by
  have hunwatched : ∀ w', (s.index R).watch w' ≠ some t := fun w' h => hunread (hm.watched h)
  refine hm.mark hunread (fun w' h => (hw w' h).1) fun p' hp' => ?_
  cases hp'.eq (hs.forest R) hp
  refine ⟨c, hc, fun x => ⟨fun k hk => ?_, fun _ hfree => hlisted x hfree⟩⟩
  rcases w with _ | w'
  · rw [Index.lastChange_of_ne fun d _ => ?_] at hk
    · cases hk
    · exact hunwatched d.watch
  · rw [Index.lastChange_mark_self hunwatched] at hk
    exact (hw w' rfl).2 x k hk

theorem Inv.mirrors_readDir (hs : Inv s) (hroot : s.RootUnnamed) {handle : MtpObjectHandle}
    (ht : s.IsTree t handle) {p : List Text} (hp : (s.index R).At t p) {fs : Text → Directory}
    {path : Text} (hroom : s.mtpid.toNat + (fs path).added < 2 ^ 32)
    (hm : (s.index R).Mirrors files q) (hunread : ¬(s.index R).read t)
    (hitems : ∀ items, (fs path).items = some items → (addedNames items).Nodup ∧
      ∀ x ∈ addedNames items, ∀ a, ¬(s.index R).entry t x a)
    (hwhole : ∀ items, (fs path).items = some items → Whole items →
      (∀ x a, (s.index R).entry t x a → R t x) ∧ ∃ c, files p = some c ∧
        (∀ x, x ∈ c ↔ x ∈ addedNames items) ∧
        WatchTells (s.index R) q (s.watchFor fs (pathText s.mtpstorageparent p)) c)
    (h : s.readDir fs path t = some s') :
    (s'.index R).Mirrors files q ∧ Grows s s' ∧
      ∀ items, (fs path).items = some items → Whole items → (s'.index R).read t := by
  rw [MtpStorage.readDir] at h
  rw [Directory.added] at hroom
  rcases hdir : (fs path).items with _ | items
  · rw [hdir] at h
    cases h
    exact ⟨hm, Grows.refl s, fun items h => by cases h⟩
  · rw [hdir] at h hroom
    obtain ⟨hnodup, hnew⟩ := hitems items hdir
    obtain ⟨s₁, whole, hloop, hs₁, ht₁⟩ := hs.readLoop ht hroom
    have hpart := hs.readPart_readLoop ht hroom hm hunread hnodup hnew hloop
    have hflag := readLoop_whole hloop
    dsimp only at h
    rw [hloop] at h
    rcases whole
    · cases h
      refine ⟨hpart.mirrors, hpart.grows, fun items' hitems' hall => ?_⟩
      cases hitems'
      exact absurd (hflag.mpr hall) Bool.false_ne_true
    · obtain ⟨hreserved, c, hc, hnames, hwatch⟩ := hwhole items hdir (hflag.mp rfl)
      obtain ⟨s₂, hset, hs₂, ht₂⟩ := hs₁.setAlreadyRead ht₁
      dsimp only at h
      rw [hset, Option.bind_some] at h
      have hgrows := hpart.grows.trans (grows_setAlreadyRead ht₁ hset)
      have hpath := hs₂.getNodePath_eq (hgrows.unnamed hroot) (hgrows.at hp)
      obtain ⟨hbrief, hwatches, hsending, hfd, hparent, hmtpid⟩ := index_addInotify hpath h
      obtain ⟨n, hn, hmark⟩ := brief_setAlreadyRead ht₁ hset
      have hset' : s₂.inotifymap = s₁.inotifymap := by
        obtain ⟨_, -, rfl⟩ := Option.map_eq_some_iff.mp hset
        rfl
      have hindex : s'.index R = (s₁.index R).mark t
          (s.watchFor fs (pathText s.mtpstorageparent p)) := by
        rw [MtpStorage.index, hbrief, hmark, hwatches, hset', MtpStorage.watchFor,
          hgrows.fd, hgrows.parent, ← MtpStorage.watchFor]
        exact indexOf_mark hn _
      have hwatch₁ :
          WatchTells (s₁.index R) q (s.watchFor fs (pathText s.mtpstorageparent p)) c := by
        intro w' hw'
        obtain ⟨hgoing, htells⟩ := hwatch w' hw'
        refine ⟨fun t' ht' => ?_, htells⟩
        rw [MtpStorage.index, hpart.watches] at ht'
        refine (hgoing t' ht').mono (fun _ h => h) (fun d _ t₁ h₁ => ?_)
          fun _ _ _ he => hpart.grows.entry he
        rw [MtpStorage.index, hpart.watches]
        exact h₁
      have hlisted : ∀ x, ¬R t x → ((∃ a, (s₁.index R).entry t x a) ↔ x ∈ c) := by
        intro x hfree
        rw [hpart.listed, hnames, or_iff_right]
        rintro ⟨a, ha⟩
        exact hfree (hreserved x a ha)
      have hmarked := mirrors_mark hs₁ hpart.mirrors hpart.unread (hpart.grows.at hp) hc hwatch₁
        hlisted
      refine ⟨hindex ▸ hmarked, hgrows.trans ?_, fun _ _ _ => ?_⟩
      · refine ⟨fun a n ha => ⟨n, ?_, rfl, rfl, rfl⟩, fun a n ha => Or.inl ⟨n, ?_, rfl, rfl⟩,
          (congrArg UInt32.toNat hmtpid).ge, hsending, hparent, hfd⟩
        · rwa [hbrief]
        · rwa [hbrief] at ha
      · rw [hindex]
        exact Or.inr rfl

/-! ### Nodes that go or get a new name -/

theorem Inv.entry_iff_find (hs : Inv s) {node : Node} {tree : Tree}
    (hread : s.heap.read t = some node) (htree : node.tree = some tree) {x : Text} {a : ℕ} :
    (s.index R).entry t x a ↔ ∃ child, s.heap.read a = some child ∧ child.name = x ∧
      tree.entries.find? child.handle = some a := by
  constructor
  · rintro ⟨n, m, ha, hne, rfl, ht, hm⟩
    obtain ⟨child, hchild, rfl⟩ := brief_eq_some.mp ha
    obtain ⟨parent, hparent, rfl⟩ := brief_eq_some.mp ht
    obtain ⟨t', parent', tree', ht', htree', hph, hfind⟩ := hs.owned hchild hne
    have hsame := hs.unique hparent ht' (hm.trans hph.symm)
    subst hsame
    rw [hread, Option.some.injEq] at ht'
    subst ht'
    rw [htree, Option.some.injEq] at htree'
    subst htree'
    exact ⟨child, hchild, rfl, hfind⟩
  · rintro ⟨child, hchild, rfl, hfind⟩
    obtain ⟨child', hchild', hh, hp, hne⟩ := hs.entry hread htree hfind
    rw [hchild, Option.some.injEq] at hchild'
    subst hchild'
    exact ⟨child.brief, node.brief, brief_eq_some.mpr ⟨child, hchild, rfl⟩, hne, rfl,
      brief_eq_some.mpr ⟨node, hread, rfl⟩, hp.symm⟩

/-- `findEntryByName` finds an entry with the name. -/
theorem findByNameIn_eq {heap : Heap Node} {name : Text} {l : List (MtpObjectHandle × ℕ)}
    {found : Option (ℕ × Node)}
    (hlive : ∀ e ∈ l, ∃ n, heap.read e.2 = some n ∧ n.handle = e.1 ∧ 0 < n.handle)
    (h : findByNameIn heap name l = some found) :
    match found with
    | none => ∀ e ∈ l, ∀ n, heap.read e.2 = some n → n.name ≠ name
    | some (a, n) => heap.read a = some n ∧ n.name = name ∧ (n.handle, a) ∈ l := by
  induction l with
  | nil =>
    cases h
    exact fun e he => absurd he List.not_mem_nil
  | cons e l ih =>
    obtain ⟨n, hn, hhandle, hpos⟩ := hlive e List.mem_cons_self
    obtain ⟨k, a⟩ := e
    dsimp only at hn hhandle
    rw [findByNameIn, hn] at h
    dsimp only at h
    split_ifs at h with hname
    · cases h
      exact ⟨hn, hname.1, hhandle ▸ List.mem_cons_self⟩
    · have hrest := ih (fun e he => hlive e (List.mem_cons_of_mem _ he)) h
      rcases found with _ | ⟨b, m⟩
      · intro e he m hm hx
        obtain rfl | he := List.mem_cons.mp he
        · rw [hn, Option.some.injEq] at hm
          subst hm
          exact hname ⟨hx, hpos⟩
        · exact hrest e he m hm hx
      · exact ⟨hrest.1, hrest.2.1, List.mem_cons_of_mem _ hrest.2.2⟩

theorem Inv.renameObject_eq (hs : Inv s) {handle : MtpObjectHandle} {a : ℕ} {node : Node}
    (hread : s.heap.read a = some node) (hhandle : node.handle = handle) (hne : handle ≠ 0)
    (hroot : handle ≠ mtpParentRoot) (newName : Text) :
    s.renameObject handle newName true =
      some { s with heap := s.heap.write a { node with name := newName } } := by
  obtain ⟨path, hpath⟩ := hs.getNodePath hread
  rw [MtpStorage.renameObject, if_neg hroot, ← hhandle, hs.findNode_eq hread (hhandle ▸ hne)]
  dsimp only
  rw [hpath, Option.bind_some, hread, Option.map_some]
  rfl

theorem brief_rename {a : ℕ} {node : Node} (hread : s.heap.read a = some node) (x : Text) :
    MtpStorage.brief { s with heap := s.heap.write a { node with name := x } } =
      Function.update s.brief a (some { node.brief with name := x }) := by
  funext b
  by_cases hb : b = a
  · subst hb
    rw [Function.update_self, MtpStorage.brief]
    dsimp only
    rw [Heap.read_write_self hread]
    rfl
  · rw [Function.update_of_ne hb, MtpStorage.brief, MtpStorage.brief]
    dsimp only
    rw [Heap.read_write_of_ne hb]

theorem index_rename {a : ℕ} {node : Node} (hread : s.heap.read a = some node) (x : Text) :
    MtpStorage.index { s with heap := s.heap.write a { node with name := x } } R =
      (s.index R).rename a x := by
  rw [MtpStorage.index, brief_rename hread]
  exact indexOf_rename (brief_eq_some.mpr ⟨node, hread, rfl⟩) x

/-- A deleted node leaves the index. -/
theorem Inv.index_deleteFile (hs : Inv s) {handle : MtpObjectHandle} (hsafe : s.DeleteSafe handle)
    {a : ℕ} {node : Node} (hread : s.heap.read a = some node) (hhandle : node.handle = handle)
    (hne : handle ≠ 0) :
    ∃ s', s.deleteFile handle = some s' ∧ s'.inotifymap = s.inotifymap ∧ s'.mtpid = s.mtpid ∧
      (∀ b n, s'.brief b = some n → s.brief b = some n) ∧
      s'.index R = (s.index R).remove a s.inotifymap.find? ∧
      (∀ y b, (s.index R).entry a y b → ¬(s.index R).read b ∧ ∀ z d, ¬(s.index R).entry b z d) ∧
      ∀ w, s.inotifymap.find? w ≠ some a := by
  have hfind := hs.findNode_eq hread (hhandle ▸ hne)
  rw [hhandle] at hfind
  obtain ⟨s', t, parent, tree, hdelete, hmtpid, hinotify, -, ht, htree, -, hta, htinside, ht',
    hdead, hsame⟩ := hs.deleteFile_spec hsafe hfind hread hhandle hne
  have hbriefs : ∀ b, b ≠ a → b ∉ node.inside → s'.brief b = s.brief b := by
    intro b hba hb
    by_cases hbt : b = t
    · subst hbt
      rw [MtpStorage.brief, MtpStorage.brief, ht', ht, Option.map_some, Option.map_some,
        Node.brief, Node.brief, htree]
      rfl
    · rw [MtpStorage.brief, MtpStorage.brief, hsame b hba hb hbt]
  have hdead' : ∀ b, b = a ∨ b ∈ node.inside → s'.brief b = none := by
    intro b hb
    rw [MtpStorage.brief, hdead b hb]
    rfl
  have hchildren : ∀ {b}, b ∈ node.inside → ∃ child, s.heap.read b = some child ∧
      child.tree = none ∧ child.parent = node.handle ∧ child.handle ≠ 0 := by
    intro b hb
    rw [Node.inside] at hb
    rcases hnode : node.tree with _ | inner
    · rw [hnode] at hb
      exact absurd hb List.not_mem_nil
    · rw [hnode] at hb
      obtain ⟨h, hb'⟩ := Tree.mem_addresses.mp hb
      obtain ⟨child, hchild, hh, hcp, hne'⟩ := hs.entry hread hnode hb'
      exact ⟨child, hchild, (hsafe a node inner hfind hread hnode).1 b hb child hchild, hcp,
        hh ▸ hne'⟩
  have hchildless : ∀ {child : Node} {b}, s.heap.read b = some child → child.tree = none →
      child.handle ≠ 0 → ∀ d k, s.brief d = some k → k.parent ≠ child.handle := by
    intro child b hchild hnone hne' d k hd hk
    obtain ⟨node', hd', rfl⟩ := brief_eq_some.mp hd
    change node'.parent = child.handle at hk
    have hnode' : node'.handle ≠ 0 := by
      intro hzero
      rw [hs.root hd' hzero] at hk
      exact hne' hk.symm
    obtain ⟨t', parent', tree', ht₁, htree₁, hph, -⟩ := hs.owned hd' hnode'
    have heq := hs.unique ht₁ hchild (hph.trans hk)
    subst heq
    rw [hchild, Option.some.injEq] at ht₁
    subst ht₁
    rw [hnone] at htree₁
    cases htree₁
  refine ⟨s', hdelete, hinotify, hmtpid, fun b n hb => ?_, ?_, ?_, ?_⟩
  · by_cases hdel : b = a ∨ b ∈ node.inside
    · rw [hdead' b hdel] at hb
      cases hb
    · rw [not_or] at hdel
      rwa [hbriefs b hdel.1 hdel.2] at hb
  · rw [MtpStorage.index, hinotify]
    have hnode : node.brief.handle ≠ 0 := by
      change node.handle ≠ 0
      rwa [hhandle]
    refine indexOf_remove (brief_eq_some.mpr ⟨node, hread, rfl⟩) hnode
      (fun ha hb h => hs.brief_unique ha hb h) (hdead' a (Or.inl rfl)) (fun b m hb => ?_)
      (fun b m hba hb hnone => ?_) _
    · by_cases hdel : b = a ∨ b ∈ node.inside
      · rw [hdead' b hdel] at hb
        cases hb
      · rw [not_or] at hdel
        rwa [hbriefs b hdel.1 hdel.2] at hb
    · have hmem : b ∈ node.inside := by
        by_contra hmem
        rw [hbriefs b hba hmem, hb] at hnone
        cases hnone
      obtain ⟨child, hchild, htnone, hcp, hne'⟩ := hchildren hmem
      rw [MtpStorage.brief, hchild, Option.map_some, Option.some.injEq] at hb
      subst hb
      refine ⟨hcp, hne', ?_, hchildless hchild htnone hne'⟩
      rw [Node.brief, htnone]
      rfl
  · rintro y b ⟨n, m, hb, hne', -, ha, hm⟩
    obtain ⟨child, hchild, rfl⟩ := brief_eq_some.mp hb
    rw [MtpStorage.brief, hread, Option.map_some, Option.some.injEq] at ha
    subst ha
    obtain ⟨t', parent', tree', ht₁, htree₁, hph, hentry⟩ := hs.owned hchild hne'
    have heq := hs.unique ht₁ hread (hph.trans hm.symm)
    subst heq
    rw [hread, Option.some.injEq] at ht₁
    subst ht₁
    have hmem : b ∈ node.inside := by
      rw [Node.inside, htree₁]
      exact Tree.mem_addresses.mpr ⟨_, hentry⟩
    obtain ⟨child', hchild', htnone, -, -⟩ := hchildren hmem
    rw [hchild, Option.some.injEq] at hchild'
    subst hchild'
    constructor
    · rintro ⟨k, hk, hr⟩
      rw [hb, Option.some.injEq] at hk
      subst hk
      rw [Node.brief, htnone] at hr
      cases hr
    · rintro z d ⟨k, k', hd, -, -, hb', hk⟩
      rw [hb, Option.some.injEq] at hb'
      subst hb'
      exact hchildless hchild htnone hne' d k hd hk.symm
  · intro w hw
    obtain ⟨watched, tree', hread', htree'⟩ := hs.watched hw
    rw [hread, Option.some.injEq] at hread'
    subst hread'
    exact (hsafe a node tree' hfind hread htree').2 w hw

end

end BootableRecovery.Mtp
