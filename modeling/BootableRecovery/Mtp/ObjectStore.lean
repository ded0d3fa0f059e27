import BootableRecovery.Mtp.MtpStorage

namespace BootableRecovery.Mtp
open Lib

/-! The three structures of a storage agree: the tree that owns the nodes, the index of the
directories, and the watches. -/

theorem derefTree_eq_some {heap : Heap Node} {t : ℕ} {node : Node} {tree : Tree} :
    derefTree heap t = some (node, tree) ↔ heap.read t = some node ∧ node.tree = some tree := by
  unfold derefTree
  constructor
  · intro h
    obtain ⟨node', hread, h⟩ := Option.bind_eq_some_iff.mp h
    obtain ⟨tree', htree, h⟩ := Option.map_eq_some_iff.mp h
    cases h
    exact ⟨hread, htree⟩
  · rintro ⟨hread, htree⟩
    rw [hread, Option.bind_some, htree, Option.map_some]

theorem toInt32_inj {a b : MtpObjectHandle} (h : a.toInt32 = b.toInt32) : a = b := by
  have hcast := congrArg Int32.toUInt32 h
  rwa [UInt32.toUInt32_toInt32, UInt32.toUInt32_toInt32] at hcast

/-- What holds between the operations. -/
structure Inv (s : MtpStorage) : Prop where
  mapped : ∀ {k p}, s.mtpmap.find? k = some p → ∃ t node tree, p = some t ∧
    s.heap.read t = some node ∧ node.tree = some tree ∧ node.handle.toInt32 = k
  indexed : ∀ {t node tree}, s.heap.read t = some node → node.tree = some tree →
    s.mtpmap.find? node.handle.toInt32 = some (some t)
  owned : ∀ {a node}, s.heap.read a = some node → node.handle ≠ 0 → ∃ t parent tree,
    s.heap.read t = some parent ∧ parent.tree = some tree ∧ parent.handle = node.parent ∧
      tree.entries.find? node.handle = some a
  entry : ∀ {t parent tree h a}, s.heap.read t = some parent → parent.tree = some tree →
    tree.entries.find? h = some a → ∃ node, s.heap.read a = some node ∧ node.handle = h ∧
      node.parent = parent.handle ∧ h ≠ 0
  unique : ∀ {a b n m}, s.heap.read a = some n → s.heap.read b = some m →
    n.handle = m.handle → a = b
  older : ∀ {a n}, s.heap.read a = some n → n.handle ≠ 0 → n.parent.toNat < n.handle.toNat
  bounded : ∀ {a n}, s.heap.read a = some n → n.handle.toNat ≤ s.mtpid.toNat
  rooted : ∀ {a n}, s.heap.read a = some n → ∃ r root tree, s.heap.read r = some root ∧
    root.tree = some tree ∧ root.handle = 0
  root : ∀ {a n}, s.heap.read a = some n → n.handle = 0 → n.parent = 0
  watched : ∀ {wd t}, s.inotifymap.find? wd = some t → ∃ node tree,
    s.heap.read t = some node ∧ node.tree = some tree

/-- The live directory with a handle. -/
def MtpStorage.IsTree (s : MtpStorage) (t : ℕ) (handle : MtpObjectHandle) : Prop :=
  ∃ node tree, s.heap.read t = some node ∧ node.tree = some tree ∧ node.handle = handle

variable {s s' : MtpStorage}

/-! ### Lookup -/

theorem findNodeIn_cases {heap : Heap Node} (handle : MtpObjectHandle)
    {l : List (Int32 × Option ℕ)}
    (hl : ∀ e ∈ l, ∃ t node tree, e.2 = some t ∧ heap.read t = some node ∧
      node.tree = some tree)
    (hentry : ∀ {t node tree a}, heap.read t = some node → node.tree = some tree →
      tree.entries.find? handle = some a → (heap.read a).isSome) :
    (∃ t node tree a, heap.read t = some node ∧ node.tree = some tree ∧
        tree.entries.find? handle = some a ∧ findNodeIn heap handle l = some (some a)) ∨
      (findNodeIn heap handle l = some none ∧ ∀ e ∈ l, ∀ t node tree, e.2 = some t →
        heap.read t = some node → node.tree = some tree → tree.entries.find? handle = none) := by
  induction l with
  | nil => exact Or.inr ⟨rfl, fun e he => absurd he List.not_mem_nil⟩
  | cons e l ih =>
    obtain ⟨t, node, tree, ht, hread, htree⟩ := hl e List.mem_cons_self
    obtain ⟨k, p⟩ := e
    dsimp only at ht
    subst ht
    unfold findNodeIn
    rw [derefTree_eq_some.mpr ⟨hread, htree⟩]
    dsimp only
    rcases hfind : tree.entries.find? handle with _ | a
    · obtain ⟨t', node', tree', a, h⟩ | ⟨hnone, h⟩ :=
        ih fun e he => hl e (List.mem_cons_of_mem _ he)
      · exact Or.inl ⟨t', node', tree', a, h⟩
      · refine Or.inr ⟨hnone, fun e he t' node' tree' het hread' htree' => ?_⟩
        obtain rfl | he := List.mem_cons.mp he
        · cases het
          rw [hread] at hread'
          cases hread'
          rw [htree] at htree'
          cases htree'
          exact hfind
        · exact h e he t' node' tree' het hread' htree'
    · obtain ⟨b, hb⟩ := Option.isSome_iff_exists.mp (hentry hread htree hfind)
      refine Or.inl ⟨t, node, tree, a, hread, htree, hfind, ?_⟩
      dsimp only
      rw [hb]
      rfl

/-- `findNode` finds the node with the handle, unless it is the root. -/
theorem Inv.findNode (hs : Inv s) (handle : MtpObjectHandle) :
    (∃ a node, s.findNode handle = some (some a) ∧ s.heap.read a = some node ∧
        node.handle = handle ∧ handle ≠ 0) ∨
      (s.findNode handle = some none ∧
        ∀ a node, s.heap.read a = some node → node.handle = handle → handle = 0) := by
  have hl : ∀ e ∈ s.mtpmap.entries, ∃ t node tree, e.2 = some t ∧ s.heap.read t = some node ∧
      node.tree = some tree := by
    intro e he
    obtain ⟨t, node, tree, ht, hread, htree, -⟩ := hs.mapped (s.mtpmap.mem_entries_iff.mp he)
    exact ⟨t, node, tree, ht, hread, htree⟩
  have hentry : ∀ {t node tree a}, s.heap.read t = some node → node.tree = some tree →
      tree.entries.find? handle = some a → (s.heap.read a).isSome := by
    intro t node tree a hread htree hfind
    obtain ⟨child, hchild, -⟩ := hs.entry hread htree hfind
    rw [hchild]
    rfl
  obtain ⟨t, node, tree, a, hread, htree, hfind, h⟩ | ⟨hnone, h⟩ :=
    findNodeIn_cases handle hl hentry
  · obtain ⟨child, hchild, hhandle, -, hne⟩ := hs.entry hread htree hfind
    exact Or.inl ⟨a, child, h, hchild, hhandle, hne⟩
  · refine Or.inr ⟨hnone, fun a node hread hhandle => ?_⟩
    by_contra hne
    obtain ⟨t, parent, tree, hparent, htree, -, hfind⟩ := hs.owned hread (hhandle ▸ hne)
    have hmem := s.mtpmap.mem_entries_iff.mpr (hs.indexed hparent htree)
    rw [hhandle, h _ hmem t parent tree rfl hparent htree] at hfind
    cases hfind

theorem Inv.pathLoop (hs : Inv s) {fuel a : ℕ} {node : Node} (path : Text)
    (hread : s.heap.read a = some node) (hfuel : node.handle.toNat < fuel) :
    (s.pathLoop fuel a path).isSome := by
  induction fuel generalizing a node path with
  | zero => omega
  | succ fuel ih =>
    rw [MtpStorage.pathLoop, hread]
    dsimp only
    by_cases hparent : node.parent = 0
    · rw [if_pos hparent]
      rfl
    · rw [if_neg hparent]
      obtain ⟨b, parent, hb, hreadb, hhandle, -⟩ | ⟨hnone, -⟩ := hs.findNode node.parent
      · have hne : node.handle ≠ 0 := fun h => hparent (hs.root hread h)
        have hlt := hs.older hread hne
        rw [hb]
        exact ih _ hreadb (by rw [hhandle]; omega)
      · rw [hnone]
        rfl

/-- The way to the root ends. -/
theorem Inv.getNodePath (hs : Inv s) {a : ℕ} {node : Node} (hread : s.heap.read a = some node) :
    ∃ path, s.getNodePath a = some path := by
  have hlt := node.handle.toNat_lt
  have hloop : (s.pathLoop (2 ^ 32 + 1) a []).isSome := hs.pathLoop [] hread (by omega)
  obtain ⟨path, hpath⟩ := Option.isSome_iff_exists.mp hloop
  exact ⟨_, by rw [MtpStorage.getNodePath, hpath, Option.map_some]⟩

theorem findByNameIn_isSome {heap : Heap Node} (name : Text) {l : List (MtpObjectHandle × ℕ)}
    (hl : ∀ e ∈ l, (heap.read e.2).isSome) :
    ∃ found, findByNameIn heap name l = some found ∧
      ∀ a node, found = some (a, node) → heap.read a = some node ∧ node.handle ≠ 0 := by
  induction l with
  | nil => exact ⟨none, rfl, fun a node h => by cases h⟩
  | cons e l ih =>
    obtain ⟨node, hnode⟩ := Option.isSome_iff_exists.mp (hl e List.mem_cons_self)
    obtain ⟨k, b⟩ := e
    unfold findByNameIn
    rw [hnode]
    dsimp only
    by_cases hname : node.name = name ∧ 0 < node.handle
    · rw [if_pos hname]
      refine ⟨some (b, node), rfl, fun a n ha => ?_⟩
      cases ha
      exact ⟨hnode, ne_of_gt hname.2⟩
    · rw [if_neg hname]
      exact ih fun e he => hl e (List.mem_cons_of_mem _ he)

/-! ### New nodes -/

theorem toNat_succ {n : MtpObjectHandle} (h : n.toNat + 1 < 2 ^ 32) :
    (n + 1).toNat = n.toNat + 1 := by
  rw [UInt32.toNat_add]
  exact Nat.mod_eq_of_lt h

theorem addNewNode_spec {t : ℕ} {node : Node} {tree : Tree} (isDir : Bool) (name : Text)
    (hread : s.heap.read t = some node) (htree : node.tree = some tree) :
    ∃ s', s.addNewNode isDir t name = some s' ∧ s'.mtpid = s.mtpid + 1 ∧
      s'.inotifymap = s.inotifymap ∧
      s'.mtpmap = (if isDir then s.mtpmap.insert (s.mtpid + 1).toInt32 (some s.heap.next)
        else s.mtpmap) ∧
      s'.heap.read s.heap.next = some (s.newNode isDir node.handle name) ∧
      s'.heap.read t =
        some (node.withTree (tree.addEntry node.handle (s.mtpid + 1) s.heap.next)) ∧
      ∀ b, b ≠ s.heap.next → b ≠ t → s'.heap.read b = s.heap.read b := by
  have hne := Heap.ne_next_of_read hread
  rw [MtpStorage.addNewNode, derefTree_eq_some.mpr ⟨hread, htree⟩, Option.map_some]
  refine ⟨_, rfl, rfl, rfl, rfl, ?_, ?_, fun b hb hbt => ?_⟩
  · exact (Heap.read_write_of_ne hne.symm).trans Heap.read_alloc_next
  · exact Heap.read_write_self (Heap.read_alloc_of_read hread)
  · exact (Heap.read_write_of_ne hbt).trans (Heap.read_alloc_of_ne hb)

theorem Inv.addNewNode (hs : Inv s) {t : ℕ} {handle : MtpObjectHandle} (isDir : Bool)
    (name : Text) (ht : s.IsTree t handle) (hroom : s.mtpid.toNat + 1 < 2 ^ 32) :
    ∃ s', s.addNewNode isDir t name = some s' ∧ Inv s' ∧ s'.mtpid = s.mtpid + 1 ∧
      s'.IsTree t handle := by
  obtain ⟨node, tree, hread, htree, hhandle⟩ := ht
  obtain ⟨s', hadd, hmtpid, hinotify, hmap, hnew, hchanged, hother⟩ :=
    addNewNode_spec isDir name hread htree
  have hne := Heap.ne_next_of_read hread
  have hsucc := toNat_succ hroom
  have hbound := hs.bounded hread
  have hnonzero : s.mtpid + 1 ≠ 0 := by
    intro h
    rw [h] at hsucc
    cases hsucc
  have hentries : tree.addEntry node.handle (s.mtpid + 1) s.heap.next =
      { tree with entries := tree.entries.insert (s.mtpid + 1) s.heap.next } := by
    rw [Tree.addEntry, if_neg hnonzero, if_neg]
    intro h
    rw [← h, hsucc] at hbound
    omega
  rw [hentries] at hchanged
  have hback : ∀ {b n}, s'.heap.read b = some n → b ≠ s.heap.next → ∃ m, s.heap.read b = some m ∧
      m.handle = n.handle ∧ m.parent = n.parent ∧ ∀ tree₁, n.tree = some tree₁ → ∃ tree₀,
        m.tree = some tree₀ ∧ ∀ h a, tree₁.entries.find? h = some a →
          tree₀.entries.find? h = some a ∨ (b = t ∧ h = s.mtpid + 1 ∧ a = s.heap.next) := by
    intro b n hn hb
    by_cases hbt : b = t
    · subst hbt
      rw [hchanged] at hn
      cases hn
      refine ⟨node, hread, rfl, rfl, fun tree₁ h₁ => ⟨tree, htree, fun h a hfind => ?_⟩⟩
      cases h₁
      dsimp only at hfind
      rw [OrderedMap.find?_insert] at hfind
      split_ifs at hfind with hh
      · exact Or.inr ⟨rfl, hh, (Option.some.inj hfind).symm⟩
      · exact Or.inl hfind
    · rw [hother b hb hbt] at hn
      exact ⟨n, hn, rfl, rfl, fun tree₁ h₁ => ⟨tree₁, h₁, fun h a hfind => Or.inl hfind⟩⟩
  have hkeep : ∀ {b m}, s.heap.read b = some m → ∃ n, s'.heap.read b = some n ∧
      n.handle = m.handle ∧ n.parent = m.parent ∧ ∀ tree₀, m.tree = some tree₀ → ∃ tree₁,
        n.tree = some tree₁ ∧ ∀ h a, tree₀.entries.find? h = some a → h ≠ s.mtpid + 1 →
          tree₁.entries.find? h = some a := by
    intro b m hm
    by_cases hbt : b = t
    · subst hbt
      rw [hread] at hm
      cases hm
      refine ⟨_, hchanged, rfl, rfl, fun tree₀ h₀ => ⟨_, rfl, fun h a hfind hne => ?_⟩⟩
      rw [htree] at h₀
      cases h₀
      rw [OrderedMap.find?_insert_of_ne _ hne, hfind]
    · exact ⟨m, by rw [hother b (Heap.ne_next_of_read hm) hbt, hm], rfl, rfl,
        fun tree₀ h₀ => ⟨tree₀, h₀, fun h a hfind _ => hfind⟩⟩
  refine ⟨s', hadd, ?_, hmtpid, _, _, hchanged, rfl, hhandle⟩
  have hfresh : ∀ {b m}, s.heap.read b = some m → m.handle ≠ s.mtpid + 1 := by
    intro b m hm h
    have hle := hs.bounded hm
    rw [h, hsucc] at hle
    omega
  have hold : ∀ {b n}, s'.heap.read b = some n → b ≠ s.heap.next → n.handle ≠ s.mtpid + 1 := by
    intro b n hn hb
    obtain ⟨m, hm, hhandle, -⟩ := hback hn hb
    exact hhandle ▸ hfresh hm
  constructor
  · intro k p hk
    have hcases : (isDir = true ∧ k = (s.mtpid + 1).toInt32 ∧ p = some s.heap.next) ∨
        s.mtpmap.find? k = some p := by
      rw [hmap] at hk
      split_ifs at hk with hdir
      · rw [OrderedMap.find?_insert] at hk
        split_ifs at hk with hkey
        · exact Or.inl ⟨hdir, hkey, (Option.some.inj hk).symm⟩
        · exact Or.inr hk
      · exact Or.inr hk
    obtain ⟨hdir, rfl, rfl⟩ | hk := hcases
    · refine ⟨_, _, _, rfl, hnew, if_pos hdir, rfl⟩
    · obtain ⟨b, m, tree₀, rfl, hm, htree₀, hkey⟩ := hs.mapped hk
      obtain ⟨n, hn, hhandle, -, htrees⟩ := hkeep hm
      obtain ⟨tree₁, htree₁, -⟩ := htrees tree₀ htree₀
      exact ⟨b, n, tree₁, rfl, hn, htree₁, by rw [hhandle, hkey]⟩
  · intro b n tree₁ hn htree₁
    by_cases hb : b = s.heap.next
    · subst hb
      rw [hnew] at hn
      cases hn
      have hdir : isDir = true := by
        rw [MtpStorage.newNode] at htree₁
        by_contra hdir
        rw [if_neg hdir] at htree₁
        cases htree₁
      rw [hmap, if_pos hdir]
      exact OrderedMap.find?_insert_self _ _ _
    · obtain ⟨m, hm, hhandle, -, htrees⟩ := hback hn hb
      obtain ⟨tree₀, htree₀, -⟩ := htrees tree₁ htree₁
      have hindexed := hs.indexed hm htree₀
      rw [hmap, ← hhandle]
      split_ifs
      · rw [OrderedMap.find?_insert_of_ne _ fun h => hfresh hm (toInt32_inj h), hindexed]
      · exact hindexed
  · intro b n hn hne
    by_cases hb : b = s.heap.next
    · subst hb
      rw [hnew] at hn
      cases hn
      exact ⟨t, _, _, hchanged, rfl, rfl, OrderedMap.find?_insert_self _ _ _⟩
    · obtain ⟨m, hm, hhandle, hparent, -⟩ := hback hn hb
      obtain ⟨p, parent, tree₀, hp, htree₀, hph, hfind⟩ := hs.owned hm (hhandle ▸ hne)
      obtain ⟨parent₁, hp₁, hhandle₁, -, htrees⟩ := hkeep hp
      obtain ⟨tree₁, htree₁, hfinds⟩ := htrees tree₀ htree₀
      exact ⟨p, parent₁, tree₁, hp₁, htree₁, by rw [hhandle₁, hph, hparent],
        hhandle ▸ hfinds _ _ hfind (hfresh hm)⟩
  · intro b parent tree₁ h a hb htree₁ hfind
    by_cases hbnext : b = s.heap.next
    · subst hbnext
      rw [hnew] at hb
      cases hb
      rw [MtpStorage.newNode] at htree₁
      split_ifs at htree₁
      cases htree₁
      cases hfind
    · obtain ⟨parent₀, hparent₀, hhandle, -, htrees⟩ := hback hb hbnext
      obtain ⟨tree₀, htree₀, hfinds⟩ := htrees tree₁ htree₁
      obtain hfind₀ | ⟨rfl, rfl, rfl⟩ := hfinds h a hfind
      · obtain ⟨m, hm, hmh, hmp, hne⟩ := hs.entry hparent₀ htree₀ hfind₀
        obtain ⟨n, hn, hnh, hnp, -⟩ := hkeep hm
        exact ⟨n, hn, by rw [hnh, hmh], by rw [hnp, hmp, hhandle], hne⟩
      · rw [hread] at hparent₀
        cases hparent₀
        exact ⟨_, hnew, rfl, hhandle, hnonzero⟩
  · intro a b n m ha hb hnm
    by_cases ha' : a = s.heap.next <;> by_cases hb' : b = s.heap.next
    · rw [ha', hb']
    · rw [ha', hnew] at ha
      cases ha
      exact absurd hnm.symm (hold hb hb')
    · rw [hb', hnew] at hb
      cases hb
      exact absurd hnm (hold ha ha')
    · obtain ⟨n₀, hn₀, hn, -⟩ := hback ha ha'
      obtain ⟨m₀, hm₀, hm, -⟩ := hback hb hb'
      exact hs.unique hn₀ hm₀ (by rw [hn, hm, hnm])
  · intro a n ha hne
    by_cases ha' : a = s.heap.next
    · rw [ha', hnew] at ha
      cases ha
      rw [MtpStorage.newNode]
      dsimp only
      omega
    · obtain ⟨m, hm, hhandle, hparent, -⟩ := hback ha ha'
      rw [← hhandle, ← hparent]
      exact hs.older hm (hhandle ▸ hne)
  · intro a n ha
    rw [hmtpid, hsucc]
    by_cases ha' : a = s.heap.next
    · rw [ha', hnew] at ha
      cases ha
      exact hsucc.le
    · obtain ⟨m, hm, hhandle, -⟩ := hback ha ha'
      have hle := hs.bounded hm
      rw [← hhandle]
      omega
  · intro a n ha
    obtain ⟨r, root, rootTree, hr, hroot, hzero⟩ := hs.rooted hread
    obtain ⟨root₁, hr₁, hhandle, -, htrees⟩ := hkeep hr
    obtain ⟨tree₁, htree₁, -⟩ := htrees rootTree hroot
    exact ⟨r, root₁, tree₁, hr₁, htree₁, hhandle.trans hzero⟩
  · intro a n ha hzero
    by_cases ha' : a = s.heap.next
    · rw [ha', hnew] at ha
      cases ha
      exact absurd hzero hnonzero
    · obtain ⟨m, hm, hhandle, hparent, -⟩ := hback ha ha'
      rw [← hparent]
      exact hs.root hm (hhandle.trans hzero)
  · intro wd b hwd
    rw [hinotify] at hwd
    obtain ⟨m, tree₀, hm, htree₀⟩ := hs.watched hwd
    obtain ⟨n, hn, -, -, htrees⟩ := hkeep hm
    obtain ⟨tree₁, htree₁, -⟩ := htrees tree₀ htree₀
    exact ⟨n, tree₁, hn, htree₁⟩

/-! ### Directories -/

/-- What the invariant says about a node. -/
def Node.shape (node : Node) :
    MtpObjectHandle × MtpObjectHandle × Option (OrderedMap MtpObjectHandle ℕ) :=
  (node.handle, node.parent, node.tree.map Tree.entries)

theorem read_shape {heap heap' : Heap Node}
    (h : ∀ a, (heap'.read a).map Node.shape = (heap.read a).map Node.shape) {a : ℕ} {n' : Node}
    (hread : heap'.read a = some n') : ∃ n, heap.read a = some n ∧ n.handle = n'.handle ∧
      n.parent = n'.parent ∧ ∀ tree', n'.tree = some tree' → ∃ tree, n.tree = some tree ∧
        tree.entries = tree'.entries := by
  have ha := h a
  rw [hread, Option.map_some] at ha
  obtain ⟨n, hn, hshape⟩ := Option.map_eq_some_iff.mp ha.symm
  simp only [Node.shape, Prod.mk.injEq] at hshape
  refine ⟨n, hn, hshape.1, hshape.2.1, fun tree' htree' => ?_⟩
  have htrees := hshape.2.2
  rw [htree', Option.map_some] at htrees
  exact Option.map_eq_some_iff.mp htrees

/-- Names, and whether a directory has been read, do not matter. -/
theorem Inv.congr (hs : Inv s) (hmtpid : s'.mtpid = s.mtpid) (hmap : s'.mtpmap = s.mtpmap)
    (hheap : ∀ a, (s'.heap.read a).map Node.shape = (s.heap.read a).map Node.shape)
    (hwatch : ∀ {wd t}, s'.inotifymap.find? wd = some t → s.inotifymap.find? wd = some t ∨
      ∃ node tree, s.heap.read t = some node ∧ node.tree = some tree) : Inv s' := by
  have hback := fun {a n} => @read_shape _ _ hheap a n
  have hkeep := fun {a n} => @read_shape _ _ (fun a => (hheap a).symm) a n
  constructor
  · intro k p hk
    rw [hmap] at hk
    obtain ⟨t, node, tree, hp, hread, htree, hkey⟩ := hs.mapped hk
    obtain ⟨node', hread', hhandle, -, htrees⟩ := hkeep hread
    obtain ⟨tree', htree', -⟩ := htrees tree htree
    exact ⟨t, node', tree', hp, hread', htree', by rw [hhandle, hkey]⟩
  · intro t node' tree' hread' htree'
    obtain ⟨node, hread, hhandle, -, htrees⟩ := hback hread'
    obtain ⟨tree, htree, -⟩ := htrees tree' htree'
    rw [hmap, ← hhandle, hs.indexed hread htree]
  · intro a node' hread' hne
    obtain ⟨node, hread, hhandle, hparent, -⟩ := hback hread'
    obtain ⟨t, parent, tree, ht, htree, hph, hfind⟩ := hs.owned hread (hhandle ▸ hne)
    obtain ⟨parent', ht', hhandle', -, htrees⟩ := hkeep ht
    obtain ⟨tree', htree', hentries⟩ := htrees tree htree
    exact ⟨t, parent', tree', ht', htree', by rw [hhandle', hph, hparent],
      by rw [hentries, ← hhandle, hfind]⟩
  · intro t parent' tree' h a hread' htree' hfind
    obtain ⟨parent, hread, hhandle, -, htrees⟩ := hback hread'
    obtain ⟨tree, htree, hentries⟩ := htrees tree' htree'
    obtain ⟨node, ha, hnh, hnp, hne⟩ := hs.entry hread htree (hentries ▸ hfind)
    obtain ⟨node', ha', hhandle', hparent', -⟩ := hkeep ha
    exact ⟨node', ha', by rw [hhandle', hnh], by rw [hparent', hnp, hhandle], hne⟩
  · intro a b n' m' ha hb hnm
    obtain ⟨n, hn, hnh, -⟩ := hback ha
    obtain ⟨m, hm, hmh, -⟩ := hback hb
    exact hs.unique hn hm (by rw [hnh, hmh, hnm])
  · intro a n' ha hne
    obtain ⟨n, hn, hhandle, hparent, -⟩ := hback ha
    rw [← hhandle, ← hparent]
    exact hs.older hn (hhandle ▸ hne)
  · intro a n' ha
    obtain ⟨n, hn, hhandle, -⟩ := hback ha
    rw [hmtpid, ← hhandle]
    exact hs.bounded hn
  · intro a n' ha
    obtain ⟨n, hn, -⟩ := hback ha
    obtain ⟨r, root, tree, hr, htree, hzero⟩ := hs.rooted hn
    obtain ⟨root', hr', hhandle, -, htrees⟩ := hkeep hr
    obtain ⟨tree', htree', -⟩ := htrees tree htree
    exact ⟨r, root', tree', hr', htree', hhandle.trans hzero⟩
  · intro a n' ha hzero
    obtain ⟨n, hn, hhandle, hparent, -⟩ := hback ha
    rw [← hparent]
    exact hs.root hn (hhandle.trans hzero)
  · intro wd t hwd
    have htree : ∃ node tree, s.heap.read t = some node ∧ node.tree = some tree := by
      obtain hwd | htree := hwatch hwd
      · exact hs.watched hwd
      · exact htree
    obtain ⟨node, tree, hread, htree⟩ := htree
    obtain ⟨node', hread', -, -, htrees⟩ := hkeep hread
    obtain ⟨tree', htree', -⟩ := htrees tree htree
    exact ⟨node', tree', hread', htree'⟩

/-- The nodes that reading a directory adds. -/
def addedItems : List (Text × Option UInt32) → ℕ
  | [] => 0
  | (_, none) :: _ => 0
  | (name, some _) :: rest =>
    (if name = ".".toList ∨ name = "..".toList then 0 else 1) + addedItems rest

theorem Inv.readLoop (hs : Inv s) {t : ℕ} {handle : MtpObjectHandle} (ht : s.IsTree t handle)
    {items : List (Text × Option UInt32)}
    (hroom : s.mtpid.toNat + addedItems items < 2 ^ 32) :
    ∃ s' whole, s.readLoop t items = some (s', whole) ∧ Inv s' ∧ s'.IsTree t handle := by
  induction items generalizing s with
  | nil => exact ⟨s, true, rfl, hs, ht⟩
  | cons item rest ih =>
    obtain ⟨name, _ | mode⟩ := item
    · exact ⟨s, false, rfl, hs, ht⟩
    · rw [addedItems] at hroom
      rw [MtpStorage.readLoop]
      by_cases hdots : name = ".".toList ∨ name = "..".toList
      · rw [if_pos hdots] at hroom ⊢
        exact ih hs ht (by omega)
      · rw [if_neg hdots] at hroom ⊢
        obtain ⟨s', hadd, hs', hmtpid, ht'⟩ :=
          hs.addNewNode (modeIsDir mode) name ht (by omega)
        rw [hadd]
        refine ih hs' ht' ?_
        rw [hmtpid, toNat_succ (by omega)]
        omega

theorem Inv.setAlreadyRead (hs : Inv s) {t : ℕ} {handle : MtpObjectHandle}
    (ht : s.IsTree t handle) :
    ∃ s', s.setAlreadyRead t = some s' ∧ Inv s' ∧ s'.IsTree t handle := by
  obtain ⟨node, tree, hread, htree, hhandle⟩ := ht
  rw [MtpStorage.setAlreadyRead, derefTree_eq_some.mpr ⟨hread, htree⟩, Option.map_some]
  refine ⟨_, rfl, hs.congr rfl rfl (fun a => ?_) Or.inl, _, _,
    Heap.read_write_self hread, rfl, hhandle⟩
  by_cases ha : a = t
  · subst ha
    dsimp only
    rw [Heap.read_write_self hread, hread, Option.map_some, Option.map_some, Node.shape,
      Node.shape, htree]
    rfl
  · dsimp only
    rw [Heap.read_write_of_ne ha]

theorem Inv.addInotify (hs : Inv s) (fs : Text → Directory) {t : ℕ} {handle : MtpObjectHandle}
    (ht : s.IsTree t handle) :
    ∃ s', s.addInotify fs t = some s' ∧ Inv s' ∧ s'.IsTree t handle := by
  obtain ⟨node, tree, hread, htree, hhandle⟩ := ht
  rw [MtpStorage.addInotify]
  by_cases hfd : s.inotifyFd < 0
  · rw [if_pos hfd]
    exact ⟨s, rfl, hs, node, tree, hread, htree, hhandle⟩
  · obtain ⟨path, hpath⟩ := hs.getNodePath hread
    rw [if_neg hfd, hpath, Option.map_some]
    refine ⟨_, rfl, ?_⟩
    by_cases hwatch : (fs path).watch < 0
    · rw [if_pos hwatch]
      exact ⟨hs, node, tree, hread, htree, hhandle⟩
    · rw [if_neg hwatch]
      refine ⟨hs.congr rfl rfl (fun a => rfl) fun {wd b} hwd => ?_, node, tree, hread, htree,
        hhandle⟩
      rw [OrderedMap.find?_insert] at hwd
      split_ifs at hwd
      · cases hwd
        exact Or.inr ⟨node, tree, hread, htree⟩
      · exact Or.inl hwd

/-- The nodes that `readDir` adds for a path. -/
def Directory.added (d : Directory) : ℕ := (d.items.map addedItems).getD 0

theorem Inv.readDir (hs : Inv s) (fs : Text → Directory) {path : Text} {t : ℕ}
    {handle : MtpObjectHandle} (ht : s.IsTree t handle)
    (hroom : s.mtpid.toNat + (fs path).added < 2 ^ 32) :
    ∃ s', s.readDir fs path t = some s' ∧ Inv s' ∧ s'.IsTree t handle := by
  rw [MtpStorage.readDir]
  rw [Directory.added] at hroom
  rcases hitems : (fs path).items with _ | items
  · exact ⟨s, rfl, hs, ht⟩
  · rw [hitems] at hroom
    obtain ⟨s₁, whole, hloop, hs₁, ht₁⟩ := hs.readLoop ht hroom
    dsimp only
    rw [hloop]
    rcases whole
    · exact ⟨s₁, rfl, hs₁, ht₁⟩
    · obtain ⟨s₂, hread, hs₂, ht₂⟩ := hs₁.setAlreadyRead ht₁
      obtain ⟨s₃, hwatch, hs₃, ht₃⟩ := hs₂.addInotify fs ht₂
      refine ⟨s₃, ?_, hs₃, ht₃⟩
      dsimp only
      rw [hread, Option.bind_some, hwatch]

/-! ### Operations that keep the store -/

/-- A storage without a root has no objects at all. -/
theorem Inv.read_eq_none (hs : Inv s) (hroot : s.mtpmap.find? 0 = none) (a : ℕ) :
    s.heap.read a = none := by
  rcases hread : s.heap.read a with _ | node
  · rfl
  · obtain ⟨r, root, tree, hr, htree, hzero⟩ := hs.rooted hread
    have hindexed := hs.indexed hr htree
    rw [hzero] at hindexed
    rw [show (0 : MtpObjectHandle).toInt32 = 0 from rfl, hroot] at hindexed
    cases hindexed

/-- The root as `createDB` makes it. -/
def freshRoot : Node := ⟨0, 0, [], some ⟨OrderedMap.empty, false⟩⟩

theorem inv_freshRoot {r : ℕ} (hread : ∀ {a n}, s.heap.read a = some n ↔ a = r ∧ n = freshRoot)
    (hmap : ∀ {k p}, s.mtpmap.find? k = some p ↔ k = 0 ∧ p = some r)
    (hwatch : ∀ {wd t}, s.inotifymap.find? wd ≠ some t) : Inv s := by
  have hr : s.heap.read r = some freshRoot := hread.mpr ⟨rfl, rfl⟩
  constructor
  · intro k p hk
    obtain ⟨rfl, rfl⟩ := hmap.mp hk
    exact ⟨r, freshRoot, _, rfl, hr, rfl, rfl⟩
  · intro t node tree ht htree
    obtain ⟨rfl, rfl⟩ := hread.mp ht
    exact hmap.mpr ⟨rfl, rfl⟩
  · intro a node ha hne
    obtain ⟨rfl, rfl⟩ := hread.mp ha
    exact absurd rfl hne
  · intro t parent tree h a ht htree hfind
    obtain ⟨rfl, rfl⟩ := hread.mp ht
    cases htree
    cases hfind
  · intro a b n m ha hb hnm
    rw [(hread.mp ha).1, (hread.mp hb).1]
  · intro a n ha hne
    obtain ⟨rfl, rfl⟩ := hread.mp ha
    exact absurd rfl hne
  · intro a n ha
    obtain ⟨rfl, rfl⟩ := hread.mp ha
    exact Nat.zero_le _
  · intro a n ha
    exact ⟨r, freshRoot, _, hr, rfl, rfl⟩
  · intro a n ha hzero
    obtain ⟨rfl, rfl⟩ := hread.mp ha
    rfl
  · intro wd t hwd
    exact absurd hwd hwatch

/-- The storage before `createDB` reads the root. -/
def MtpStorage.withRoot (s : MtpStorage) (inotifyInit : Int32) : MtpStorage :=
  { s with
    mtpstorageparent := s.mFilePath
    heap := s.heap.alloc freshRoot
    mtpmap := s.mtpmap.insert 0 (some s.heap.next)
    inotifyFd := if s.useMutex then inotifyInit else s.inotifyFd }

theorem createDB_eq (s : MtpStorage) (fs : Text → Directory) (inotifyInit : Int32) :
    s.createDB fs inotifyInit =
      (s.withRoot inotifyInit).readDir fs s.mFilePath s.heap.next := rfl

theorem withRoot_isTree (s : MtpStorage) (inotifyInit : Int32) :
    (s.withRoot inotifyInit).IsTree s.heap.next 0 :=
  ⟨freshRoot, _, Heap.read_alloc_next, rfl, rfl⟩

theorem Inv.withRoot (hs : Inv s) (inotifyInit : Int32) (hroot : s.mtpmap.find? 0 = none) :
    Inv (s.withRoot inotifyInit) := by
  have hnone := hs.read_eq_none hroot
  have hread : ∀ {a n}, (s.heap.alloc freshRoot).read a = some n ↔
      a = s.heap.next ∧ n = freshRoot := by
    intro a n
    by_cases ha : a = s.heap.next
    · rw [ha, Heap.read_alloc_next, Option.some.injEq]
      exact ⟨fun h => ⟨rfl, h.symm⟩, fun h => h.2.symm⟩
    · rw [Heap.read_alloc_of_ne ha, hnone]
      exact ⟨fun h => absurd h.symm (Option.some_ne_none n), fun h => absurd h.1 ha⟩
  have hmap : ∀ {k p}, (s.mtpmap.insert 0 (some s.heap.next)).find? k = some p ↔
      k = 0 ∧ p = some s.heap.next := by
    intro k p
    rw [OrderedMap.find?_insert]
    by_cases hk : k = 0
    · rw [if_pos hk, Option.some.injEq]
      exact ⟨fun h => ⟨hk, h.symm⟩, fun h => h.2.symm⟩
    · rw [if_neg hk]
      refine ⟨fun h => ?_, fun h => absurd h.1 hk⟩
      obtain ⟨t, node, tree, -, ht, -⟩ := hs.mapped h
      rw [hnone] at ht
      cases ht
  have hwatch : ∀ {wd t}, s.inotifymap.find? wd ≠ some t := by
    intro wd t h
    obtain ⟨node, tree, ht, -⟩ := hs.watched h
    rw [hnone] at ht
    cases ht
  exact inv_freshRoot hread hmap hwatch

theorem Inv.createDB (hs : Inv s) (fs : Text → Directory) (inotifyInit : Int32)
    (hroot : s.mtpmap.find? 0 = none) (hroom : s.mtpid.toNat + (fs s.mFilePath).added < 2 ^ 32) :
    ∃ s', s.createDB fs inotifyInit = some s' ∧ Inv s' := by
  obtain ⟨s', hread, hs', -⟩ :=
    (hs.withRoot inotifyInit hroot).readDir fs (withRoot_isTree s inotifyInit) hroom
  exact ⟨s', (createDB_eq s fs inotifyInit).trans hread, hs'⟩

theorem getmtpids_isSome {heap : Heap Node} {tree : Tree}
    (h : ∀ e ∈ tree.entries.entries, (heap.read e.2).isSome) :
    ∃ list, getmtpids heap tree = some list := by
  rw [getmtpids]
  generalize tree.entries.entries = entries at h
  induction entries with
  | nil => exact ⟨[], rfl⟩
  | cons e entries ih =>
    obtain ⟨node, hnode⟩ := Option.isSome_iff_exists.mp (h e List.mem_cons_self)
    obtain ⟨list, hlist⟩ := ih fun e he => h e (List.mem_cons_of_mem _ he)
    rw [List.mapM_cons, hnode, hlist]
    exact ⟨_, rfl⟩

theorem Inv.entries_live (hs : Inv s) {t : ℕ} {node : Node} {tree : Tree}
    (hread : s.heap.read t = some node) (htree : node.tree = some tree) :
    ∀ e ∈ tree.entries.entries, (s.heap.read e.2).isSome := by
  intro e he
  obtain ⟨child, hchild, -⟩ := hs.entry hread htree (tree.entries.mem_entries_iff.mp he)
  rw [hchild]
  rfl

/-- The nodes that `getObjectList` adds. -/
def MtpStorage.listAdds (s : MtpStorage) (fs : Text → Directory) (parent : MtpObjectHandle) : ℕ :=
  match s.mtpmap.find? (if parent = mtpParentRoot then 0 else parent).toInt32 with
  | some (some t) =>
    match derefTree s.heap t with
    | some (_, tree) =>
      if tree.alreadyRead then 0 else ((s.getNodePath t).map fun path => (fs path).added).getD 0
    | none => 0
  | _ => 0

theorem Inv.getObjectList (hs : Inv s) (fs : Text → Directory) (parent : MtpObjectHandle)
    (hroom : s.mtpid.toNat + s.listAdds fs parent < 2 ^ 32) :
    ∃ s' list, s.getObjectList fs parent = some (s', list) ∧ Inv s' := by
  unfold MtpStorage.listAdds at hroom
  unfold MtpStorage.getObjectList
  generalize (if parent = mtpParentRoot then 0 else parent) = parent at hroom ⊢
  dsimp only
  rcases hfind : s.mtpmap.find? parent.toInt32 with _ | p
  · exact ⟨s, [], rfl, hs⟩
  · obtain ⟨t, node, tree, rfl, hread, htree, hkey⟩ := hs.mapped hfind
    have hderef := derefTree_eq_some.mpr ⟨hread, htree⟩
    rw [hfind] at hroom
    dsimp only at hroom ⊢
    rw [hderef] at hroom ⊢
    dsimp only at hroom ⊢
    have hread' : ∃ s', (if tree.alreadyRead then some s
        else (s.getNodePath t).bind fun path => s.readDir fs path t) = some s' ∧ Inv s' ∧
        s'.IsTree t parent := by
      by_cases hdone : tree.alreadyRead = true
      · rw [if_pos hdone]
        exact ⟨s, rfl, hs, node, tree, hread, htree, toInt32_inj hkey⟩
      · obtain ⟨path, hpath⟩ := hs.getNodePath hread
        rw [if_neg hdone, hpath] at hroom ⊢
        exact hs.readDir fs ⟨node, tree, hread, htree, toInt32_inj hkey⟩ hroom
    obtain ⟨s', hs₁, hinv, node', tree', hnode', htree', rfl⟩ := hread'
    rw [hs₁, Option.bind_some, hinv.indexed hnode' htree']
    dsimp only
    rw [derefTree_eq_some.mpr ⟨hnode', htree'⟩, Option.bind_some]
    obtain ⟨list, hlist⟩ := getmtpids_isSome (hinv.entries_live hnode' htree')
    exact ⟨s', list, by rw [hlist, Option.map_some], hinv⟩

/-- Whether `beginSendObject` adds a node. -/
def MtpStorage.sendAdds (s : MtpStorage) (path : Text) (parent : MtpObjectHandle) : ℕ :=
  match s.mtpmap.find? parent.toInt32 with
  | some (some t) =>
    match splitPath path with
    | some (parentdir, _) =>
      if (if parent = 0 then some parentdir else s.getNodePath t) = some parentdir then 1 else 0
    | none => 0
  | _ => 0

theorem Inv.beginSendObject (hs : Inv s) (path : Text) (format : UInt16)
    (parent : MtpObjectHandle) (hroom : s.mtpid.toNat + s.sendAdds path parent < 2 ^ 32) :
    ∃ s' handle, s.beginSendObject path format parent = some (s', handle) ∧ Inv s' := by
  unfold MtpStorage.sendAdds at hroom
  unfold MtpStorage.beginSendObject
  rcases hfind : s.mtpmap.find? parent.toInt32 with _ | p
  · exact ⟨s, _, rfl, hs⟩
  · obtain ⟨t, node, tree, rfl, hread, htree, hkey⟩ := hs.mapped hfind
    rw [hfind] at hroom
    dsimp only at hroom ⊢
    rcases hsplit : splitPath path with _ | ⟨parentdir, name⟩
    · exact ⟨s, _, rfl, hs⟩
    · rw [hsplit] at hroom
      dsimp only at hroom ⊢
      have hpath : ∃ treePath, (if parent = 0 then some parentdir else s.getNodePath t) =
          some treePath := by
        by_cases hzero : parent = 0
        · exact ⟨parentdir, if_pos hzero⟩
        · obtain ⟨treePath, htreePath⟩ := hs.getNodePath hread
          exact ⟨treePath, by rw [if_neg hzero, htreePath]⟩
      obtain ⟨treePath, htreePath⟩ := hpath
      rw [htreePath] at hroom ⊢
      rw [Option.bind_some]
      by_cases hsame : parentdir ≠ treePath
      · rw [if_pos hsame]
        exact ⟨s, _, rfl, hs⟩
      · have heq : treePath = parentdir := (not_not.mp hsame).symm
        rw [if_pos (congrArg some heq)] at hroom
        rw [if_neg hsame]
        obtain ⟨s', hadd, hs', -⟩ := hs.addNewNode (format = mtpFormatAssociation) name
          ⟨node, tree, hread, htree, rfl⟩ hroom
        rw [hadd, Option.map_some]
        exact ⟨_, _, rfl, hs'.congr rfl rfl (fun a => rfl) Or.inl⟩

theorem Inv.endSendObject (hs : Inv s) (handle : MtpObjectHandle) :
    ∃ s', s.endSendObject handle = some s' ∧ Inv s' := by
  rw [MtpStorage.endSendObject]
  obtain ⟨a, node, hfind, -⟩ | ⟨hfind, -⟩ := hs.findNode handle
  · rw [hfind]
    exact ⟨_, rfl, hs.congr rfl rfl (fun a => rfl) Or.inl⟩
  · rw [hfind]
    exact ⟨s, rfl, hs⟩

theorem Inv.renameObject (hs : Inv s) (handle : MtpObjectHandle) (newName : Text)
    (renamed : Bool) : ∃ s', s.renameObject handle newName renamed = some s' ∧ Inv s' := by
  rw [MtpStorage.renameObject]
  by_cases hroot : handle = mtpParentRoot
  · rw [if_pos hroot]
    exact ⟨s, rfl, hs⟩
  · rw [if_neg hroot]
    obtain ⟨a, node, hfind, hread, -⟩ | ⟨hfind, -⟩ := hs.findNode handle
    · obtain ⟨path, hpath⟩ := hs.getNodePath hread
      rw [hfind]
      dsimp only
      rw [hpath, Option.bind_some, hread, Option.map_some]
      refine ⟨_, rfl, ?_⟩
      by_cases hrenamed : renamed = true
      · rw [if_pos hrenamed]
        refine hs.congr rfl rfl (fun b => ?_) Or.inl
        dsimp only
        by_cases hb : b = a
        · subst hb
          rw [Heap.read_write_self hread, hread]
          rfl
        · rw [Heap.read_write_of_ne hb]
      · rw [if_neg hrenamed]
        exact hs
    · rw [hfind]
      exact ⟨s, rfl, hs⟩

end BootableRecovery.Mtp
