import BootableRecovery.Mtp.DeleteFile

namespace BootableRecovery.Mtp
open Lib

/-! Runs of operations and events on a storage. -/

/-- The way from a handle to the root. -/
inductive ReachesRoot (s : MtpStorage) : MtpObjectHandle → Prop
  | root : ReachesRoot s 0
  | parent {p : ℕ} {node : Node} : s.heap.read p = some node →
      ReachesRoot s node.parent → ReachesRoot s node.handle

/-- The directory that `mtpmap` has for the parent of a node has the node as an entry. -/
def MtpStorage.IsEntry (s : MtpStorage) (a : ℕ) (node : Node) : Prop :=
  ∃ p parent tree, s.mtpmap.find? node.parent.toInt32 = some (some p) ∧
    s.heap.read p = some parent ∧ parent.tree = some tree ∧
    tree.entries.find? node.handle = some a

/-- The object store in order: tree, index and watches agree. -/
structure WellFormed (s : MtpStorage) : Prop where
  noNull : ∀ k, s.mtpmap.find? k ≠ some none
  mapped : ∀ k t, s.mtpmap.find? k = some (some t) → ∃ node tree, s.heap.read t = some node ∧
    node.tree = some tree ∧ node.handle.toInt32 = k ∧ (node.handle ≠ 0 → s.IsEntry t node)
  indexed : ∀ t node tree, s.heap.read t = some node → node.tree = some tree →
    s.mtpmap.find? node.handle.toInt32 = some (some t)
  watched : ∀ wd t, s.inotifymap.find? wd = some t → ∃ node tree, s.heap.read t = some node ∧
    node.tree = some tree
  unique : ∀ a b n m, s.heap.read a = some n → s.heap.read b = some m →
    n.handle = m.handle → a = b
  chains : ∀ a node, s.heap.read a = some node → ReachesRoot s node.handle
  paths : ∀ a node, s.heap.read a = some node → ∃ path, s.getNodePath a = some path

variable {s s' : MtpStorage}

theorem Inv.isEntry (hs : Inv s) {a : ℕ} {node : Node} (hread : s.heap.read a = some node)
    (hne : node.handle ≠ 0) : s.IsEntry a node := by
  obtain ⟨p, parent, tree, hp, htree, hparent, hfind⟩ := hs.owned hread hne
  exact ⟨p, parent, tree, hparent ▸ hs.indexed hp htree, hp, htree, hfind⟩

theorem Inv.reachesRoot (hs : Inv s) {a : ℕ} {node : Node} (hread : s.heap.read a = some node) :
    ReachesRoot s node.handle := by
  -- the handles go down on the way
  induction hn : node.handle.toNat using Nat.strong_induction_on generalizing a node with
  | _ n ih =>
    by_cases hzero : node.handle = 0
    · rw [hzero]
      exact ReachesRoot.root
    · obtain ⟨p, parent, -, hp, -, hparent, -⟩ := hs.owned hread hzero
      have holder := hs.older hread hzero
      refine ReachesRoot.parent hread ?_
      rw [← hparent] at holder ⊢
      exact ih _ (hn ▸ holder) hp rfl

theorem Inv.wellFormed (hs : Inv s) : WellFormed s := by
  constructor
  · intro k hk
    obtain ⟨t, node, tree, ht, -⟩ := hs.mapped hk
    cases ht
  · intro k t hk
    obtain ⟨b, node, tree, hb, hread, htree, hkey⟩ := hs.mapped hk
    cases hb
    exact ⟨node, tree, hread, htree, hkey, hs.isEntry hread⟩
  · intro t node tree hread htree
    exact hs.indexed hread htree
  · intro wd t hwd
    exact hs.watched hwd
  · intro a b n m ha hb hnm
    exact hs.unique ha hb hnm
  · intro a node hread
    exact hs.reachesRoot hread
  · intro a node hread
    exact hs.getNodePath hread

theorem inv_new (mFilePath : Text) (useMutex : Bool) (mtpid : MtpObjectHandle) :
    Inv (MtpStorage.new mFilePath useMutex mtpid) := by
  have hread : ∀ {a : ℕ} {node : Node},
      (MtpStorage.new mFilePath useMutex mtpid).heap.read a ≠ some node := by
    intro a node h
    cases h
  constructor
  · intro k p hk
    cases hk
  · intro t node tree ht
    exact absurd ht hread
  · intro a node ha
    exact absurd ha hread
  · intro t parent tree h a ht
    exact absurd ht hread
  · intro a b n m ha
    exact absurd ha hread
  · intro a n ha
    exact absurd ha hread
  · intro a n ha
    exact absurd ha hread
  · intro a n ha
    exact absurd ha hread
  · intro a n ha
    exact absurd ha hread
  · intro wd t hwd
    cases hwd

/-! ### Events -/

theorem find?_unwatch {watches : OrderedMap Int32 ℕ} {a t : ℕ} {wd : Int32}
    (h : (unwatch watches a).find? wd = some t) : watches.find? wd = some t := by
  rw [unwatch] at h
  rcases hfind : watches.entries.find? fun w => w.2 = a with _ | w
  · rw [hfind] at h
    exact h
  · rw [hfind] at h
    dsimp only at h
    rw [OrderedMap.find?_erase] at h
    split_ifs at h
    exact h

/-- The storage of an event that deletes a node, without the watch on it. -/
def MtpStorage.unwatched (s : MtpStorage) (e : InotifyEvent) (a : ℕ) : MtpStorage :=
  { s with inotifymap := if e.has inIsDir then unwatch s.inotifymap a else s.inotifymap }

theorem Inv.unwatched (hs : Inv s) (e : InotifyEvent) (a : ℕ) : Inv (s.unwatched e a) := by
  refine hs.congr rfl rfl (fun b => rfl) fun {wd t} hwd => Or.inl ?_
  rw [MtpStorage.unwatched] at hwd
  dsimp only at hwd
  split_ifs at hwd
  · exact find?_unwatch hwd
  · exact hwd

/-- What the action of an event needs. -/
def EventAction.Safe (s : MtpStorage) (e : InotifyEvent) : EventAction → Prop
  | .add _ => s.mtpid.toNat + 1 < 2 ^ 32
  | .delete a handle => (s.unwatched e a).DeleteSafe handle
  | .update _ => True
  | .ignore => True

theorem Inv.eventAction (hs : Inv s) (e : InotifyEvent) :
    ∃ action, s.eventAction e = some action ∧
      (∀ t, action = .add t → ∃ handle, s.IsTree t handle) ∧
      ∀ a, action = .update a → ∃ node, s.heap.read a = some node := by
  rw [MtpStorage.eventAction]
  rcases hwatch : s.inotifymap.find? e.wd with _ | t
  · refine ⟨.ignore, rfl, ?_, ?_⟩ <;> intro _ h <;> cases h
  · obtain ⟨node, tree, hread, htree⟩ := hs.watched hwatch
    obtain ⟨found, hfound, hlive⟩ :=
      findByNameIn_isSome (basename e.name) (hs.entries_live hread htree)
    dsimp only
    rw [derefTree_eq_some.mpr ⟨hread, htree⟩, Option.bind_some, hfound, Option.map_some]
    refine ⟨_, rfl, fun t' h => ?_, fun a h => ?_⟩
    · have ht : t' = t := by
        rcases found with _ | ⟨b, n⟩ <;> rw [eventFor] at h <;> split_ifs at h
        exact (EventAction.add.inj h).symm
      exact ⟨node.handle, node, tree, ht ▸ hread, htree, rfl⟩
    · rcases found with _ | ⟨b, n⟩ <;> rw [eventFor] at h <;> split_ifs at h
      rw [← EventAction.update.inj h]
      exact ⟨n, (hlive b n rfl).1⟩

theorem Inv.handleInotifyEvent (hs : Inv s) {e : InotifyEvent}
    (hsafe : ∀ action, s.eventAction e = some action → action.Safe s e) :
    ∃ s', s.handleInotifyEvent e = some s' ∧ Inv s' := by
  obtain ⟨action, haction, hadd, hupdate⟩ := hs.eventAction e
  have hneeds := hsafe action haction
  rw [MtpStorage.handleInotifyEvent, haction]
  cases action with
  | add t =>
    obtain ⟨handle, ht⟩ := hadd t rfl
    obtain ⟨s₁, hnew, hs₁, -, node, tree, hread, -⟩ :=
      hs.addNewNode (e.has inIsDir) e.name ht hneeds
    obtain ⟨path, hpath⟩ := hs₁.getNodePath hread
    exact ⟨s₁, by dsimp only; rw [hnew, Option.bind_some, hpath, Option.map_some], hs₁⟩
  | delete a handle => exact (hs.unwatched e a).deleteFile hneeds
  | update a =>
    obtain ⟨node, hread⟩ := hupdate a rfl
    obtain ⟨path, hpath⟩ := hs.getNodePath hread
    exact ⟨s, by dsimp only; rw [hpath, Option.map_some], hs⟩
  | ignore => exact ⟨s, rfl, hs⟩

/-! ### Runs -/

/-- The handles do not wrap around, the storage is set up once, and no directory is deleted with
a directory inside or a watch on it. -/
def Operation.Safe (s : MtpStorage) : Operation → Prop
  | .createDB _ fs => s.mtpmap.find? 0 = none ∧ s.mtpid.toNat + (fs s.mFilePath).added < 2 ^ 32
  | .getObjectList parent fs => s.mtpid.toNat + s.listAdds fs parent < 2 ^ 32
  | .beginSendObject path _ parent => s.mtpid.toNat + s.sendAdds path parent < 2 ^ 32
  | .endSendObject _ => True
  | .renameObject _ _ _ => True
  | .deleteFile handle => s.DeleteSafe handle
  | .inotifyEvent e =>
    e.name ≠ [] → ∀ action, s.eventAction e = some action → action.Safe s e

theorem Inv.step (hs : Inv s) {op : Operation} (hsafe : op.Safe s) :
    ∃ s', s.step op = some s' ∧ Inv s' := by
  cases op with
  | createDB inotifyInit fs => exact hs.createDB fs inotifyInit hsafe.1 hsafe.2
  | getObjectList parent fs =>
    obtain ⟨s', list, hlist, hs'⟩ := hs.getObjectList fs parent hsafe
    exact ⟨s', by rw [MtpStorage.step, hlist, Option.map_some], hs'⟩
  | beginSendObject path format parent =>
    obtain ⟨s', handle, hsend, hs'⟩ := hs.beginSendObject path format parent hsafe
    exact ⟨s', by rw [MtpStorage.step, hsend, Option.map_some], hs'⟩
  | endSendObject handle => exact hs.endSendObject handle
  | renameObject handle newName renamed => exact hs.renameObject handle newName renamed
  | deleteFile handle => exact hs.deleteFile hsafe
  | inotifyEvent e =>
    rw [MtpStorage.step]
    by_cases hname : e.name = []
    · rw [if_pos hname]
      exact ⟨s, rfl, hs⟩
    · rw [if_neg hname]
      exact hs.handleInotifyEvent (hsafe hname)

def SafeRun : MtpStorage → List Operation → Prop
  | _, [] => True
  | s, op :: ops => op.Safe s ∧ ∀ s', s.step op = some s' → SafeRun s' ops

/-- The store is in order in every state that is reached, and no operation follows a pointer to
a deleted node. -/
def StaysWellFormed : MtpStorage → List Operation → Prop
  | s, [] => WellFormed s
  | s, op :: ops => WellFormed s ∧ ∃ s', s.step op = some s' ∧ StaysWellFormed s' ops

theorem Inv.staysWellFormed (hs : Inv s) {ops : List Operation} (hsafe : SafeRun s ops) :
    StaysWellFormed s ops := by
  induction ops generalizing s with
  | nil => exact hs.wellFormed
  | cons op ops ih =>
    obtain ⟨s', hstep, hs'⟩ := hs.step hsafe.1
    exact ⟨hs.wellFormed, s', hstep, ih hs' (hsafe.2 s' hstep)⟩

end BootableRecovery.Mtp
