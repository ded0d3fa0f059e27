import BootableRecovery.Mtp.ObjectStore

namespace BootableRecovery.Mtp
open Lib

variable {s s' : MtpStorage}

/-! ### Deletion -/

/-- Plain nodes are deleted one after the other. -/
theorem foldlM_destroy_plain {fuel : ℕ} (hfuel : 0 < fuel) {l : List ℕ} {heap : Heap Node}
    (hl : l.Nodup) (hplain : ∀ b ∈ l, ∃ node, heap.read b = some node ∧ node.tree = none) :
    ∃ heap', l.foldlM (fun heap b => destroy fuel b heap) heap = some heap' ∧
      (∀ b ∈ l, heap'.read b = none) ∧ ∀ b, b ∉ l → heap'.read b = heap.read b := by
  obtain ⟨fuel, rfl⟩ : ∃ n, fuel = n + 1 := ⟨fuel - 1, by omega⟩
  induction l generalizing heap with
  | nil => exact ⟨heap, rfl, fun b hb => absurd hb List.not_mem_nil, fun b _ => rfl⟩
  | cons b l ih =>
    obtain ⟨node, hread, hnode⟩ := hplain b List.mem_cons_self
    obtain ⟨hbl, hl⟩ := List.nodup_cons.mp hl
    have hrest : ∀ c ∈ l, ∃ node, (heap.free b).read c = some node ∧ node.tree = none := by
      intro c hc
      have hne : c ≠ b := by
        rintro rfl
        exact hbl hc
      rw [Heap.read_free_of_ne hne]
      exact hplain c (List.mem_cons_of_mem _ hc)
    obtain ⟨heap', hfold, hdead, hsame⟩ := ih hl hrest
    have hfirst : destroy (fuel + 1) b heap = some (heap.free b) := by
      rw [destroy, hread]
      dsimp only
      rw [hnode]
    refine ⟨heap', by rw [List.foldlM_cons, hfirst, Option.bind_eq_bind, Option.bind_some, hfold],
      fun c hc => ?_, fun c hc => ?_⟩
    · by_cases hcl : c ∈ l
      · exact hdead c hcl
      · obtain rfl | hc := List.mem_cons.mp hc
        · rw [hsame c hcl, Heap.read_free_self]
        · exact absurd hc hcl
    · rw [List.mem_cons, not_or] at hc
      rw [hsame c hc.2, Heap.read_free_of_ne hc.1]

/-- The addresses behind the entries of a tree. -/
def Tree.addresses (tree : Tree) : List ℕ := tree.entries.entries.map Prod.snd

theorem Tree.mem_addresses {tree : Tree} {b : ℕ} :
    b ∈ tree.addresses ↔ ∃ h, tree.entries.find? h = some b := by
  rw [Tree.addresses, List.mem_map]
  constructor
  · rintro ⟨⟨h, b'⟩, hmem, rfl⟩
    exact ⟨h, tree.entries.mem_entries_iff.mp hmem⟩
  · rintro ⟨h, hfind⟩
    exact ⟨(h, b), tree.entries.mem_entries_iff.mpr hfind, rfl⟩

theorem Inv.addresses_nodup (hs : Inv s) {t : ℕ} {node : Node} {tree : Tree}
    (hread : s.heap.read t = some node) (htree : node.tree = some tree) :
    tree.addresses.Nodup := by
  rw [Tree.addresses, List.Nodup, List.pairwise_map]
  refine tree.entries.sorted.imp_of_mem fun {e f} he hf hlt hef => ?_
  obtain ⟨n, hn, hne, -⟩ := hs.entry hread htree (tree.entries.mem_entries_iff.mp he)
  obtain ⟨m, hm, hmf, -⟩ := hs.entry hread htree (tree.entries.mem_entries_iff.mp hf)
  rw [hef, hm] at hn
  rw [← hne, ← hmf, Option.some.inj hn] at hlt
  exact lt_irrefl _ hlt

/-- What is deleted with a node: its entries, if it is a directory. -/
def Node.inside (node : Node) : List ℕ := (node.tree.map Tree.addresses).getD []

theorem destroy_spec {fuel a : ℕ} {node : Node} {heap : Heap Node} (hfuel : 1 < fuel)
    (hread : heap.read a = some node) (hnodup : node.inside.Nodup) (ha : a ∉ node.inside)
    (hplain : ∀ b ∈ node.inside, ∃ child, heap.read b = some child ∧ child.tree = none) :
    ∃ heap', destroy fuel a heap = some heap' ∧
      (∀ b, b = a ∨ b ∈ node.inside → heap'.read b = none) ∧
      ∀ b, b ≠ a → b ∉ node.inside → heap'.read b = heap.read b := by
  obtain ⟨fuel, rfl⟩ : ∃ n, fuel = n + 1 := ⟨fuel - 1, by omega⟩
  rw [destroy, hread]
  dsimp only
  rw [Node.inside] at *
  rcases htree : node.tree with _ | tree
  · refine ⟨_, rfl, fun b hb => ?_, fun b hb _ => Heap.read_free_of_ne hb⟩
    obtain rfl | hb := hb
    · exact Heap.read_free_self
    · exact absurd hb List.not_mem_nil
  · rw [htree] at hnodup hplain ha
    obtain ⟨heap', hfold, hdead, hsame⟩ := foldlM_destroy_plain (by omega : 0 < fuel) hnodup hplain
    have hentries : (tree.entries.entries.map Prod.snd).foldlM
        (fun heap b => destroy fuel b heap) heap = some heap' := hfold
    dsimp only
    rw [hentries, Option.map_some]
    refine ⟨_, rfl, fun b hb => ?_, fun b hb hb' => ?_⟩
    · by_cases hba : b = a
      · rw [hba, Heap.read_free_self]
      · rw [Heap.read_free_of_ne hba, hdead b (hb.resolve_left hba)]
    · rw [Heap.read_free_of_ne hb, hsame b hb']

/-- No directory inside, and no watch on it. -/
def MtpStorage.DeleteSafe (s : MtpStorage) (handle : MtpObjectHandle) : Prop :=
  ∀ a node tree, s.findNode handle = some (some a) → s.heap.read a = some node →
    node.tree = some tree →
    (∀ b ∈ tree.addresses, ∀ child, s.heap.read b = some child → child.tree = none) ∧
      ∀ wd, s.inotifymap.find? wd ≠ some a

/-- What `deleteFile` does to a node that is there. -/
theorem Inv.deleteFile_eq (hs : Inv s) {handle : MtpObjectHandle} {a : ℕ} {node : Node}
    (hfind : s.findNode handle = some (some a)) (hread : s.heap.read a = some node)
    (hhandle : node.handle = handle) (hne : handle ≠ 0) :
    ∃ t parent tree, s.heap.read t = some parent ∧ parent.tree = some tree ∧
      parent.handle = node.parent ∧ s.deleteFile handle =
        (destroy (s.heap.next + 1) a s.heap).bind fun heap =>
          (derefTree heap t).map fun (parent, tree) =>
            { s with
              mtpmap := if node.tree.isSome then s.mtpmap.erase handle.toInt32 else s.mtpmap
              heap := heap.write t
                (parent.withTree { tree with entries := tree.entries.erase handle }) } := by
  obtain ⟨t, parent, tree, ht, htree, hparent, hentry⟩ := hs.owned hread (hhandle ▸ hne)
  refine ⟨t, parent, tree, ht, htree, hparent, ?_⟩
  have hindexed := hs.indexed ht htree
  rw [hparent] at hindexed
  rw [MtpStorage.deleteFile, hfind]
  dsimp only
  rw [hread, Option.bind_some, hindexed]
  dsimp only
  rw [MtpStorage.deleteNode, derefTree_eq_some.mpr ⟨ht, htree⟩, Option.bind_some]
  dsimp only
  rw [← hhandle, hentry]

/-- What `deleteFile` leaves of a node and the directory it was in. -/
theorem Inv.deleteFile_spec (hs : Inv s) {handle : MtpObjectHandle} (hsafe : s.DeleteSafe handle)
    {a : ℕ} {node : Node} (hfind : s.findNode handle = some (some a))
    (hread : s.heap.read a = some node) (hhandle : node.handle = handle) (hne : handle ≠ 0) :
    ∃ s' t parent tree, s.deleteFile handle = some s' ∧ s'.mtpid = s.mtpid ∧
      s'.inotifymap = s.inotifymap ∧
      s'.mtpmap = (if node.tree.isSome then s.mtpmap.erase handle.toInt32 else s.mtpmap) ∧
      s.heap.read t = some parent ∧ parent.tree = some tree ∧ parent.handle = node.parent ∧
      t ≠ a ∧ t ∉ node.inside ∧
      s'.heap.read t =
        some (parent.withTree { tree with entries := tree.entries.erase handle }) ∧
      (∀ b, b = a ∨ b ∈ node.inside → s'.heap.read b = none) ∧
      ∀ b, b ≠ a → b ∉ node.inside → b ≠ t → s'.heap.read b = s.heap.read b := by
  obtain ⟨t, parent, tree, ht, htree, hparent, heq⟩ := hs.deleteFile_eq hfind hread hhandle hne
  have hta : t ≠ a := by
    rintro rfl
    have holder := hs.older hread (hhandle ▸ hne)
    rw [ht] at hread
    cases hread
    rw [hparent] at holder
    exact lt_irrefl _ holder
  have hinside : ∀ b ∈ node.inside, ∃ child, s.heap.read b = some child ∧ child.tree = none ∧
      child.parent = node.handle := by
    intro b hb
    rw [Node.inside] at hb
    rcases hnode : node.tree with _ | inner
    · rw [hnode] at hb
      exact absurd hb List.not_mem_nil
    · rw [hnode] at hb
      obtain ⟨h, hb'⟩ := Tree.mem_addresses.mp hb
      obtain ⟨child, hchild, -, hcp, -⟩ := hs.entry hread hnode hb'
      exact ⟨child, hchild, (hsafe a node inner hfind hread hnode).1 b hb child hchild, hcp⟩
  have hplain : ∀ b ∈ node.inside, ∃ child, s.heap.read b = some child ∧ child.tree = none := by
    intro b hb
    obtain ⟨child, hchild, hnone, -⟩ := hinside b hb
    exact ⟨child, hchild, hnone⟩
  have hnodup : node.inside.Nodup := by
    rw [Node.inside]
    rcases hnode : node.tree with _ | inner
    · exact List.nodup_nil
    · exact hs.addresses_nodup hread hnode
  have ha : a ∉ node.inside := by
    intro hmem
    obtain ⟨child, hchild, -, hcp⟩ := hinside a hmem
    have holder := hs.older hread (hhandle ▸ hne)
    rw [hread] at hchild
    cases hchild
    rw [hcp] at holder
    exact lt_irrefl _ holder
  have htinside : t ∉ node.inside := by
    intro hmem
    obtain ⟨child, hchild, hnone, -⟩ := hinside t hmem
    rw [ht] at hchild
    cases hchild
    rw [htree] at hnone
    cases hnone
  have hpos : 1 < s.heap.next + 1 := by
    by_contra hlt
    have hfresh := s.heap.fresh a (by omega)
    rw [Heap.read] at hread
    rw [hfresh] at hread
    cases hread
  obtain ⟨heap', hdestroy, hdead, hsame⟩ := destroy_spec hpos hread hnodup ha hplain
  have ht' : heap'.read t = some parent := by rw [hsame t hta htinside, ht]
  have hresult : s.deleteFile handle = some { s with
      mtpmap := if node.tree.isSome then s.mtpmap.erase handle.toInt32 else s.mtpmap
      heap := heap'.write t
        (parent.withTree { tree with entries := tree.entries.erase handle }) } := by
    rw [heq, hdestroy, Option.bind_some, derefTree_eq_some.mpr ⟨ht', htree⟩, Option.map_some]
  refine ⟨_, t, parent, tree, hresult, rfl, rfl, rfl, ht, htree, hparent, hta, htinside,
    Heap.read_write_self ht', fun b hb => ?_, fun b hb hb' hbt => ?_⟩
  · have hbt : b ≠ t := by
      rintro rfl
      exact hb.elim hta htinside
    exact (Heap.read_write_of_ne hbt).trans (hdead b hb)
  · exact (Heap.read_write_of_ne hbt).trans (hsame b hb hb')

theorem Inv.deleteFile (hs : Inv s) {handle : MtpObjectHandle} (hsafe : s.DeleteSafe handle) :
    ∃ s', s.deleteFile handle = some s' ∧ Inv s' := by
  obtain ⟨a, node, hfind, hread, hhandle, hne⟩ | ⟨hfind, -⟩ := hs.findNode handle
  swap
  · exact ⟨s, by rw [MtpStorage.deleteFile, hfind], hs⟩
  obtain ⟨s', t, parent, tree, hdelete, hmtpid, hinotify, hmap, ht, htree, hparent, hta, htinside,
    ht', hdead, hsame⟩ := hs.deleteFile_spec hsafe hfind hread hhandle hne
  refine ⟨s', hdelete, ?_⟩
  have hinside : ∀ {b}, b ∈ node.inside → ∃ inner h child, node.tree = some inner ∧
      inner.entries.find? h = some b ∧ s.heap.read b = some child ∧ child.tree = none ∧
      child.parent = node.handle ∧ child.handle ≠ 0 := by
    intro b hb
    rw [Node.inside] at hb
    rcases hnode : node.tree with _ | inner
    · rw [hnode] at hb
      exact absurd hb List.not_mem_nil
    · rw [hnode] at hb
      obtain ⟨h, hb'⟩ := Tree.mem_addresses.mp hb
      obtain ⟨child, hchild, hch, hcp, hcne⟩ := hs.entry hread hnode hb'
      exact ⟨inner, h, child, rfl, hb', hchild,
        (hsafe a node inner hfind hread hnode).1 b hb child hchild, hcp, hch ▸ hcne⟩
  -- a node that is left was there, with the same place in the tree
  have hback : ∀ {b n}, s'.heap.read b = some n → b ≠ a ∧ b ∉ node.inside ∧ ∃ m,
      s.heap.read b = some m ∧ m.handle = n.handle ∧ m.parent = n.parent ∧
      ∀ tree₁, n.tree = some tree₁ → ∃ tree₀, m.tree = some tree₀ ∧
        ∀ h c, tree₁.entries.find? h = some c → tree₀.entries.find? h = some c ∧
          (b = t → h ≠ handle) := by
    intro b n hn
    have hba : b ≠ a := by
      rintro rfl
      rw [hdead b (Or.inl rfl)] at hn
      cases hn
    have hbin : b ∉ node.inside := by
      intro hb
      rw [hdead b (Or.inr hb)] at hn
      cases hn
    refine ⟨hba, hbin, ?_⟩
    by_cases hbt : b = t
    · subst hbt
      rw [ht'] at hn
      cases hn
      refine ⟨parent, ht, rfl, rfl, fun tree₁ h₁ => ⟨tree, htree, fun h c hc => ?_⟩⟩
      cases h₁
      dsimp only at hc
      rw [OrderedMap.find?_erase] at hc
      split_ifs at hc with hh
      exact ⟨hc, fun _ => hh⟩
    · rw [hsame b hba hbin hbt] at hn
      exact ⟨n, hn, rfl, rfl, fun tree₁ h₁ => ⟨tree₁, h₁, fun h c hc =>
        ⟨hc, fun h => absurd h hbt⟩⟩⟩
  have hkeep : ∀ {b m}, s.heap.read b = some m → b ≠ a → b ∉ node.inside → ∃ n,
      s'.heap.read b = some n ∧ n.handle = m.handle ∧ n.parent = m.parent ∧
      ∀ tree₀, m.tree = some tree₀ → ∃ tree₁, n.tree = some tree₁ ∧
        ∀ h c, tree₀.entries.find? h = some c → h ≠ handle → tree₁.entries.find? h = some c := by
    intro b m hm hba hbin
    by_cases hbt : b = t
    · subst hbt
      rw [ht] at hm
      cases hm
      refine ⟨_, ht', rfl, rfl, fun tree₀ h₀ => ⟨_, rfl, fun h c hc hh => ?_⟩⟩
      rw [htree] at h₀
      cases h₀
      rw [OrderedMap.find?_erase_of_ne _ hh, hc]
    · exact ⟨m, by rw [hsame b hba hbin hbt, hm], rfl, rfl,
        fun tree₀ h₀ => ⟨tree₀, h₀, fun h c hc _ => hc⟩⟩
  have hnotTree : ∀ {b m inner}, s.heap.read b = some m → m.tree = some inner →
      b ∉ node.inside := by
    intro b m inner hm hinner hb
    obtain ⟨-, -, child, -, -, hchild, hnone, -⟩ := hinside hb
    rw [hm] at hchild
    cases hchild
    rw [hinner] at hnone
    cases hnone
  have hhandles : ∀ {b m}, s.heap.read b = some m → b ≠ a → m.handle ≠ handle := by
    intro b m hm hba hmh
    exact hba (hs.unique hm hread (hmh.trans hhandle.symm))
  constructor
  · intro k p hk
    have hk₀ : s.mtpmap.find? k = some p ∧ (node.tree.isSome → k ≠ handle.toInt32) := by
      rw [hmap] at hk
      split_ifs at hk with hnode
      · rw [OrderedMap.find?_erase] at hk
        split_ifs at hk with hkh
        exact ⟨hk, fun _ => hkh⟩
      · exact ⟨hk, fun h => absurd h hnode⟩
    obtain ⟨b, m, inner, rfl, hm, hinner, hkey⟩ := hs.mapped hk₀.1
    have hba : b ≠ a := by
      rintro rfl
      rw [hread] at hm
      cases hm
      exact hk₀.2 (by rw [hinner]; rfl) (by rw [← hkey, hhandle])
    obtain ⟨n, hn, hnh, -, htrees⟩ := hkeep hm hba (hnotTree hm hinner)
    obtain ⟨tree₁, htree₁, -⟩ := htrees inner hinner
    exact ⟨b, n, tree₁, rfl, hn, htree₁, by rw [hnh, hkey]⟩
  · intro b n tree₁ hn htree₁
    obtain ⟨hba, -, m, hm, hmh, -, htrees⟩ := hback hn
    obtain ⟨tree₀, htree₀, -⟩ := htrees tree₁ htree₁
    have hindexed := hs.indexed hm htree₀
    rw [hmap, ← hmh]
    split_ifs
    · rw [OrderedMap.find?_erase_of_ne _ fun h => hhandles hm hba (toInt32_inj h), hindexed]
    · exact hindexed
  · intro b n hn hnne
    obtain ⟨hba, hbin, m, hm, hmh, hmp, -⟩ := hback hn
    obtain ⟨p, owner, tree₀, hp, htree₀, hph, hfind₀⟩ := hs.owned hm (hmh ▸ hnne)
    have hpa : p ≠ a := by
      rintro rfl
      rw [hread] at hp
      cases hp
      apply hbin
      rw [Node.inside, htree₀]
      exact Tree.mem_addresses.mpr ⟨_, hfind₀⟩
    obtain ⟨owner₁, hp₁, hoh, -, htrees⟩ := hkeep hp hpa (hnotTree hp htree₀)
    obtain ⟨tree₁, htree₁, hfinds⟩ := htrees tree₀ htree₀
    exact ⟨p, owner₁, tree₁, hp₁, htree₁, by rw [hoh, hph, hmp],
      hmh ▸ hfinds _ _ hfind₀ (hhandles hm hba)⟩
  · intro b owner₁ tree₁ h c hb htree₁ hc
    obtain ⟨hba, -, owner, howner, hoh, -, htrees⟩ := hback hb
    obtain ⟨tree₀, htree₀, hfinds⟩ := htrees tree₁ htree₁
    obtain ⟨hc₀, hbt⟩ := hfinds h c hc
    obtain ⟨m, hm, hmh, hmp, hhne⟩ := hs.entry howner htree₀ hc₀
    have hca : c ≠ a := by
      rintro rfl
      rw [hread] at hm
      cases hm
      exact hbt (hs.unique howner ht (by rw [hparent, hmp])) (by rw [← hmh, hhandle])
    have hcin : c ∉ node.inside := by
      intro hcin
      obtain ⟨-, -, child, -, -, hchild, -, hcp, -⟩ := hinside hcin
      rw [hm] at hchild
      cases hchild
      exact hba (hs.unique howner hread (by rw [← hmp, hcp]))
    obtain ⟨n, hn, hnh, hnp, -⟩ := hkeep hm hca hcin
    exact ⟨n, hn, by rw [hnh, hmh], by rw [hnp, hmp, hoh], hhne⟩
  · intro b c n m hb hc hnm
    obtain ⟨-, -, n₀, hn₀, hn, -⟩ := hback hb
    obtain ⟨-, -, m₀, hm₀, hm, -⟩ := hback hc
    exact hs.unique hn₀ hm₀ (by rw [hn, hm, hnm])
  · intro b n hn hnne
    obtain ⟨-, -, m, hm, hmh, hmp, -⟩ := hback hn
    rw [← hmh, ← hmp]
    exact hs.older hm (hmh ▸ hnne)
  · intro b n hn
    obtain ⟨-, -, m, hm, hmh, -⟩ := hback hn
    rw [hmtpid, ← hmh]
    exact hs.bounded hm
  · intro b n hn
    obtain ⟨r, root, rootTree, hr, hrtree, hzero⟩ := hs.rooted hread
    have hra : r ≠ a := by
      rintro rfl
      rw [hread] at hr
      cases hr
      exact hne (hhandle.symm.trans hzero)
    obtain ⟨root₁, hr₁, hrh, -, htrees⟩ := hkeep hr hra (hnotTree hr hrtree)
    obtain ⟨tree₁, htree₁, -⟩ := htrees rootTree hrtree
    exact ⟨r, root₁, tree₁, hr₁, htree₁, hrh.trans hzero⟩
  · intro b n hn hzero
    obtain ⟨-, -, m, hm, hmh, hmp, -⟩ := hback hn
    rw [← hmp]
    exact hs.root hm (hmh.trans hzero)
  · intro wd b hwd
    rw [hinotify] at hwd
    obtain ⟨m, inner, hm, hinner⟩ := hs.watched hwd
    have hba : b ≠ a := by
      rintro rfl
      rw [hread] at hm
      cases hm
      exact (hsafe b node inner hfind hread hinner).2 wd hwd
    obtain ⟨n, hn, -, -, htrees⟩ := hkeep hm hba (hnotTree hm hinner)
    obtain ⟨tree₁, htree₁, -⟩ := htrees inner hinner
    exact ⟨n, tree₁, hn, htree₁⟩

end BootableRecovery.Mtp
