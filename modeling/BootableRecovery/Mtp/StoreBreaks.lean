import BootableRecovery.Mtp.StoreRuns

namespace BootableRecovery.Mtp
open Lib

/-! The steps after which the store is out of order, and the runs that have none of them. -/

variable {s s' : MtpStorage}

/-! ### Wrapped handles -/

/-- The nodes stay, under their handles. -/
def Kept (s s' : MtpStorage) : Prop :=
  ∀ a n, s.heap.read a = some n → ∃ n', s'.heap.read a = some n' ∧ n'.handle = n.handle

theorem Kept.refl (s : MtpStorage) : Kept s s := fun _ n h => ⟨n, h, rfl⟩

theorem Kept.trans {s₁ s₂ s₃ : MtpStorage} (h : Kept s₁ s₂) (h' : Kept s₂ s₃) : Kept s₁ s₃ := by
  intro a n ha
  obtain ⟨n₂, ha₂, hn₂⟩ := h a n ha
  obtain ⟨n₃, ha₃, hn₃⟩ := h' a n₂ ha₂
  exact ⟨n₃, ha₃, hn₃.trans hn₂⟩

/-- Two nodes with one handle. -/
def Clash (s : MtpStorage) : Prop :=
  ∃ a b n m, a ≠ b ∧ s.heap.read a = some n ∧ s.heap.read b = some m ∧ n.handle = m.handle

theorem Clash.kept (hc : Clash s) (hk : Kept s s') : Clash s' := by
  obtain ⟨a, b, n, m, hab, ha, hb, hnm⟩ := hc
  obtain ⟨n', ha', hn'⟩ := hk a n ha
  obtain ⟨m', hb', hm'⟩ := hk b m hb
  exact ⟨a, b, n', m', hab, ha', hb', by rw [hn', hm', hnm]⟩

theorem Clash.not_wellFormed (hc : Clash s) : ¬WellFormed s := by
  intro hw
  obtain ⟨a, b, n, m, hab, ha, hb, hnm⟩ := hc
  exact hab (hw.unique a b n m ha hb hnm)

theorem addNewNode_new {isDir : Bool} {t : ℕ} {name : Text}
    (h : s.addNewNode isDir t name = some s') : Kept s s' ∧
      ∃ new, s'.heap.read s.heap.next = some new ∧ new.handle = s.mtpid + 1 := by
  have h₀ := h
  rw [MtpStorage.addNewNode] at h₀
  obtain ⟨⟨node, tree⟩, hderef, -⟩ := Option.map_eq_some_iff.mp h₀
  obtain ⟨hread, htree⟩ := derefTree_eq_some.mp hderef
  obtain ⟨s₁, hadd, -, -, -, hnew, hchanged, hother⟩ := addNewNode_spec isDir name hread htree
  rw [h] at hadd
  cases hadd
  refine ⟨fun a n ha => ?_, _, hnew, rfl⟩
  by_cases hat : a = t
  · subst hat
    rw [hread] at ha
    cases ha
    exact ⟨_, hchanged, rfl⟩
  · exact ⟨n, by rw [hother a (Heap.ne_next_of_read ha) hat, ha], rfl⟩

/-- The counter wraps around: the new node gets the handle of the root. -/
theorem Inv.clash_of_wrap (hs : Inv s) {isDir : Bool} {t : ℕ} {name : Text}
    (h : s.addNewNode isDir t name = some s') (hwrap : 2 ^ 32 ≤ s.mtpid.toNat + 1) : Clash s' := by
  obtain ⟨hkept, new, hnew, hhandle⟩ := addNewNode_new h
  have hread : ∃ node, s.heap.read t = some node := by
    rw [MtpStorage.addNewNode] at h
    obtain ⟨⟨node, tree⟩, hderef, -⟩ := Option.map_eq_some_iff.mp h
    exact ⟨node, (derefTree_eq_some.mp hderef).1⟩
  obtain ⟨node, hread⟩ := hread
  obtain ⟨r, root, rootTree, hr, -, hzero⟩ := hs.rooted hread
  obtain ⟨root', hr', hrh⟩ := hkept r root hr
  have hlt := s.mtpid.toNat_lt
  have hmtpid : s.mtpid + 1 = 0 := by
    apply UInt32.toNat_inj.mp
    have hmax : s.mtpid.toNat = 2 ^ 32 - 1 := by omega
    rw [UInt32.toNat_add, hmax]
    rfl
  exact ⟨r, s.heap.next, root', new, Heap.ne_next_of_read hr, hr', hnew,
    by rw [hrh, hzero, hhandle, hmtpid]⟩

theorem kept_readLoop {t : ℕ} {items : List (Text × Option UInt32)} {whole : Bool}
    (h : s.readLoop t items = some (s', whole)) : Kept s s' := by
  induction items generalizing s with
  | nil =>
    cases h
    exact Kept.refl _
  | cons item rest ih =>
    obtain ⟨name, _ | mode⟩ := item
    · cases h
      exact Kept.refl _
    · rw [MtpStorage.readLoop] at h
      by_cases hdots : name = ".".toList ∨ name = "..".toList
      · rw [if_pos hdots] at h
        exact ih h
      · rw [if_neg hdots] at h
        rcases hadd : s.addNewNode (modeIsDir mode) t name with _ | s₁
        · rw [hadd] at h
          cases h
        · rw [hadd] at h
          exact (addNewNode_new hadd).1.trans (ih h)

theorem Inv.clash_of_readLoop (hs : Inv s) {t : ℕ} {handle : MtpObjectHandle}
    (ht : s.IsTree t handle) {items : List (Text × Option UInt32)} {whole : Bool}
    (h : s.readLoop t items = some (s', whole))
    (hwrap : 2 ^ 32 ≤ s.mtpid.toNat + addedItems items) : Clash s' := by
  induction items generalizing s with
  | nil =>
    have hlt := s.mtpid.toNat_lt
    rw [addedItems] at hwrap
    omega
  | cons item rest ih =>
    obtain ⟨name, _ | mode⟩ := item
    · have hlt := s.mtpid.toNat_lt
      rw [addedItems] at hwrap
      omega
    · rw [addedItems] at hwrap
      rw [MtpStorage.readLoop] at h
      by_cases hdots : name = ".".toList ∨ name = "..".toList
      · rw [if_pos hdots] at h hwrap
        exact ih hs ht h (by omega)
      · rw [if_neg hdots] at h hwrap
        rcases hadd : s.addNewNode (modeIsDir mode) t name with _ | s₁
        · rw [hadd] at h
          cases h
        · rw [hadd] at h
          by_cases hroom : s.mtpid.toNat + 1 < 2 ^ 32
          · obtain ⟨s₂, hadd₂, hs₂, hmtpid, ht₂⟩ :=
              hs.addNewNode (modeIsDir mode) name ht hroom
            rw [hadd] at hadd₂
            cases hadd₂
            refine ih hs₂ ht₂ h ?_
            rw [hmtpid, toNat_succ hroom]
            omega
          · exact (hs.clash_of_wrap hadd (by omega)).kept (kept_readLoop h)

theorem kept_setAlreadyRead {t : ℕ} (h : s.setAlreadyRead t = some s') : Kept s s' := by
  rw [MtpStorage.setAlreadyRead] at h
  obtain ⟨⟨node, tree⟩, hderef, hs'⟩ := Option.map_eq_some_iff.mp h
  obtain ⟨hread, -⟩ := derefTree_eq_some.mp hderef
  rw [← hs']
  intro a n ha
  by_cases hat : a = t
  · subst hat
    rw [hread] at ha
    cases ha
    exact ⟨_, Heap.read_write_self hread, rfl⟩
  · exact ⟨n, (Heap.read_write_of_ne hat).trans ha, rfl⟩

theorem kept_addInotify {fs : Text → Directory} {t : ℕ} (h : s.addInotify fs t = some s') :
    Kept s s' := by
  rw [MtpStorage.addInotify] at h
  by_cases hfd : s.inotifyFd < 0
  · rw [if_pos hfd] at h
    cases h
    exact Kept.refl _
  · rw [if_neg hfd] at h
    obtain ⟨path, -, hs'⟩ := Option.map_eq_some_iff.mp h
    rw [← hs']
    intro a n ha
    by_cases hwatch : (fs path).watch < 0
    · rw [if_pos hwatch]
      exact ⟨n, ha, rfl⟩
    · rw [if_neg hwatch]
      exact ⟨n, ha, rfl⟩

theorem kept_readDir {fs : Text → Directory} {path : Text} {t : ℕ}
    (h : s.readDir fs path t = some s') :
    ((fs path).items = none ∧ s' = s) ∨ ∃ items s₁ whole, (fs path).items = some items ∧
      s.readLoop t items = some (s₁, whole) ∧ Kept s₁ s' := by
  rw [MtpStorage.readDir] at h
  rcases hitems : (fs path).items with _ | items
  · rw [hitems] at h
    exact Or.inl ⟨rfl, (Option.some.inj h).symm⟩
  · rw [hitems] at h
    dsimp only at h
    rcases hloop : s.readLoop t items with _ | ⟨s₁, whole⟩
    · rw [hloop] at h
      cases h
    · rw [hloop] at h
      refine Or.inr ⟨items, s₁, whole, rfl, hloop, ?_⟩
      rcases whole
      · cases h
        exact Kept.refl _
      · obtain ⟨s₂, hread, hwatch⟩ := Option.bind_eq_some_iff.mp h
        exact (kept_setAlreadyRead hread).trans (kept_addInotify hwatch)

theorem Inv.clash_of_readDir (hs : Inv s) {fs : Text → Directory} {path : Text} {t : ℕ}
    {handle : MtpObjectHandle} (ht : s.IsTree t handle) (h : s.readDir fs path t = some s')
    (hwrap : 2 ^ 32 ≤ s.mtpid.toNat + (fs path).added) : Clash s' := by
  rw [Directory.added] at hwrap
  obtain ⟨hitems, -⟩ | ⟨items, s₁, whole, hitems, hloop, hkept⟩ := kept_readDir h
  · have hlt := s.mtpid.toNat_lt
    rw [hitems] at hwrap
    have hle : 2 ^ 32 ≤ s.mtpid.toNat := hwrap
    omega
  · rw [hitems] at hwrap
    exact (hs.clash_of_readLoop ht hloop hwrap).kept hkept

theorem Inv.clash_of_createDB (hs : Inv s) {fs : Text → Directory} {inotifyInit : Int32}
    (h : s.createDB fs inotifyInit = some s')
    (hbad : ¬(Operation.createDB inotifyInit fs).Safe s) : Clash s' := by
  rw [createDB_eq] at h
  rcases hroot : s.mtpmap.find? 0 with _ | p
  · have hwrap : 2 ^ 32 ≤ s.mtpid.toNat + (fs s.mFilePath).added := by
      by_contra hlt
      exact hbad ⟨hroot, by omega⟩
    exact (hs.withRoot inotifyInit hroot).clash_of_readDir (withRoot_isTree s inotifyInit) h hwrap
  · obtain ⟨r, root, -, -, hr, -, hkey⟩ := hs.mapped hroot
    have hstart : Clash (s.withRoot inotifyInit) :=
      ⟨r, s.heap.next, root, freshRoot, Heap.ne_next_of_read hr, Heap.read_alloc_of_read hr,
        Heap.read_alloc_next, toInt32_inj hkey⟩
    obtain ⟨-, rfl⟩ | ⟨items, s₁, whole, -, hloop, hkept⟩ := kept_readDir h
    · exact hstart
    · exact hstart.kept ((kept_readLoop hloop).trans hkept)

theorem Inv.clash_of_getObjectList (hs : Inv s) {fs : Text → Directory}
    {parent : MtpObjectHandle} {list : List MtpObjectHandle}
    (h : s.getObjectList fs parent = some (s', list))
    (hwrap : 2 ^ 32 ≤ s.mtpid.toNat + s.listAdds fs parent) : Clash s' := by
  have hlt := s.mtpid.toNat_lt
  unfold MtpStorage.listAdds at hwrap
  unfold MtpStorage.getObjectList at h
  generalize (if parent = mtpParentRoot then 0 else parent) = parent at h hwrap
  dsimp only at h
  rcases hfind : s.mtpmap.find? parent.toInt32 with _ | p
  · rw [hfind] at hwrap
    dsimp only at hwrap
    omega
  · obtain ⟨t, node, tree, rfl, hread, htree, hkey⟩ := hs.mapped hfind
    have hderef := derefTree_eq_some.mpr ⟨hread, htree⟩
    rw [hfind] at h hwrap
    dsimp only at h hwrap
    rw [hderef] at h hwrap
    dsimp only at h hwrap
    by_cases hdone : tree.alreadyRead = true
    · rw [if_pos hdone] at hwrap
      omega
    · obtain ⟨path, hpath⟩ := hs.getNodePath hread
      rw [if_neg hdone, hpath] at h hwrap
      obtain ⟨s₁, hread₁, h⟩ := Option.bind_eq_some_iff.mp h
      have hclash := hs.clash_of_readDir ⟨node, tree, hread, htree, rfl⟩ hread₁ hwrap
      have hs₁ : s' = s₁ := by
        rcases hfind₁ : s₁.mtpmap.find? parent.toInt32 with _ | _ | t₁
        · rw [hfind₁] at h
          cases h
        · rw [hfind₁] at h
          cases h
        · rw [hfind₁] at h
          obtain ⟨⟨node₁, tree₁⟩, -, h⟩ := Option.bind_eq_some_iff.mp h
          obtain ⟨list₁, -, h⟩ := Option.map_eq_some_iff.mp h
          exact (Prod.mk.inj h).1.symm
      rw [hs₁]
      exact hclash

theorem Inv.clash_of_beginSendObject (hs : Inv s) {path : Text} {format : UInt16}
    {parent handle : MtpObjectHandle}
    (h : s.beginSendObject path format parent = some (s', handle))
    (hwrap : 2 ^ 32 ≤ s.mtpid.toNat + s.sendAdds path parent) : Clash s' := by
  have hlt := s.mtpid.toNat_lt
  unfold MtpStorage.sendAdds at hwrap
  unfold MtpStorage.beginSendObject at h
  rcases hfind : s.mtpmap.find? parent.toInt32 with _ | _ | t
  · rw [hfind] at hwrap
    dsimp only at hwrap
    omega
  · rw [hfind] at hwrap
    dsimp only at hwrap
    omega
  · rw [hfind] at h hwrap
    dsimp only at h hwrap
    rcases hsplit : splitPath path with _ | ⟨parentdir, name⟩
    · rw [hsplit] at hwrap
      dsimp only at hwrap
      omega
    · rw [hsplit] at h hwrap
      dsimp only at h hwrap
      by_cases hsame : (if parent = 0 then some parentdir else s.getNodePath t) = some parentdir
      · rw [if_pos hsame] at hwrap
        rw [hsame, Option.bind_some, if_neg (not_not.mpr rfl)] at h
        obtain ⟨s₁, hadd, h⟩ := Option.map_eq_some_iff.mp h
        have hclash := hs.clash_of_wrap hadd hwrap
        rw [← (Prod.mk.inj h).1]
        exact hclash
      · rw [if_neg hsame] at hwrap
        omega

/-! ### Deletions that break the store -/

theorem foldlM_destroy_dead {fuel : ℕ}
    (hdestroy : ∀ b heap heap', destroy fuel b heap = some heap' →
      heap'.read b = none ∧ ∀ c, heap.read c = none → heap'.read c = none)
    {l : List ℕ} {heap heap' : Heap Node}
    (h : l.foldlM (fun heap b => destroy fuel b heap) heap = some heap') :
    (∀ b ∈ l, heap'.read b = none) ∧ ∀ c, heap.read c = none → heap'.read c = none := by
  induction l generalizing heap with
  | nil =>
    cases h
    exact ⟨fun b hb => absurd hb List.not_mem_nil, fun c hc => hc⟩
  | cons b l ih =>
    rw [List.foldlM_cons] at h
    obtain ⟨heap₁, hfirst, hrest⟩ := Option.bind_eq_some_iff.mp h
    obtain ⟨hb, hdead⟩ := hdestroy b heap heap₁ hfirst
    obtain ⟨hl, hdead₁⟩ := ih hrest
    refine ⟨fun c hc => ?_, fun c hc => hdead₁ c (hdead c hc)⟩
    obtain rfl | hc := List.mem_cons.mp hc
    · exact hdead₁ c hb
    · exact hl c hc

/-- What is deleted stays deleted, and the entries of a directory go with it. -/
theorem destroy_dead (fuel a : ℕ) (heap heap' : Heap Node) (h : destroy fuel a heap = some heap') :
    heap'.read a = none ∧ ∀ c, heap.read c = none → heap'.read c = none := by
  induction fuel generalizing a heap heap' with
  | zero => cases h
  | succ fuel ih =>
    rw [destroy] at h
    rcases hread : heap.read a with _ | node
    · rw [hread] at h
      cases h
    · rw [hread] at h
      dsimp only at h
      rcases htree : node.tree with _ | tree
      · rw [htree] at h
        cases h
        refine ⟨Heap.read_free_self, fun c hc => ?_⟩
        by_cases hca : c = a
        · rw [hca, Heap.read_free_self]
        · rw [Heap.read_free_of_ne hca, hc]
      · rw [htree] at h
        obtain ⟨heap₁, hfold, rfl⟩ := Option.map_eq_some_iff.mp h
        have hdead := (foldlM_destroy_dead ih hfold).2
        refine ⟨Heap.read_free_self, fun c hc => ?_⟩
        by_cases hca : c = a
        · rw [hca, Heap.read_free_self]
        · rw [Heap.read_free_of_ne hca, hdead c hc]

theorem destroy_inside {fuel a : ℕ} {heap heap' : Heap Node} {node : Node} {tree : Tree}
    (h : destroy fuel a heap = some heap') (hread : heap.read a = some node)
    (htree : node.tree = some tree) : ∀ b ∈ tree.addresses, heap'.read b = none := by
  rcases fuel with _ | fuel
  · cases h
  · rw [destroy, hread] at h
    dsimp only at h
    rw [htree] at h
    obtain ⟨heap₁, hfold, rfl⟩ := Option.map_eq_some_iff.mp h
    intro b hb
    by_cases hba : b = a
    · rw [hba, Heap.read_free_self]
    · rw [Heap.read_free_of_ne hba]
      exact (foldlM_destroy_dead (destroy_dead fuel) hfold).1 b hb

/-- What is left behind points to deleted nodes. -/
theorem Inv.breaks_of_deleteFile (hs : Inv s) {handle : MtpObjectHandle}
    (h : s.deleteFile handle = some s') (hbad : ¬s.DeleteSafe handle) : ¬WellFormed s' := by
  intro hw
  apply hbad
  intro a node tree hfind hread htree
  obtain ⟨a', node', hfind', hread', hhandle, hne⟩ | ⟨hnone, -⟩ := hs.findNode handle
  swap
  · rw [hnone] at hfind
    cases hfind
  rw [hfind] at hfind'
  cases hfind'
  rw [hread] at hread'
  cases hread'
  obtain ⟨t, parent, inner, ht, hinner, hparent, heq⟩ := hs.deleteFile_eq hfind hread hhandle hne
  rw [heq] at h
  obtain ⟨heap, hdestroy, h⟩ := Option.bind_eq_some_iff.mp h
  obtain ⟨⟨parent', inner'⟩, -, hs'⟩ := Option.map_eq_some_iff.mp h
  have hdead : ∀ b, b = a ∨ b ∈ tree.addresses → s'.heap.read b = none := by
    intro b hb
    rw [← hs']
    refine Heap.read_write_of_dead ?_
    obtain rfl | hb := hb
    · exact (destroy_dead _ _ _ _ hdestroy).1
    · exact destroy_inside hdestroy hread htree b hb
  refine ⟨fun b hb child hchild => ?_, fun wd hwd => ?_⟩
  · by_contra hsome
    obtain ⟨deep, hdeep⟩ := Option.ne_none_iff_exists'.mp hsome
    have hba : b ≠ a := by
      rintro rfl
      obtain ⟨k, hk⟩ := Tree.mem_addresses.mp hb
      obtain ⟨child', hchild', -, hcp, -⟩ := hs.entry hread htree hk
      have holder := hs.older hread (hhandle ▸ hne)
      rw [hread] at hchild'
      cases hchild'
      rw [hcp] at holder
      exact lt_irrefl _ holder
    have hkey : child.handle.toInt32 ≠ handle.toInt32 := fun hkey =>
      hba (hs.unique hchild hread ((toInt32_inj hkey).trans hhandle.symm))
    have hmapped : s'.mtpmap.find? child.handle.toInt32 = some (some b) := by
      rw [← hs']
      dsimp only
      rw [htree]
      exact (OrderedMap.find?_erase_of_ne _ hkey).trans (hs.indexed hchild hdeep)
    obtain ⟨n, -, hn, -⟩ := hw.mapped _ _ hmapped
    rw [hdead b (Or.inr hb)] at hn
    cases hn
  · have hwatched : s'.inotifymap.find? wd = some a := by
      rw [← hs']
      exact hwd
    obtain ⟨n, -, hn, -⟩ := hw.watched wd a hwatched
    rw [hdead a (Or.inl rfl)] at hn
    cases hn

/-- A step that is not safe faults, or leaves the store out of order. -/
theorem Inv.breaks (hs : Inv s) {op : Operation} (h : s.step op = some s')
    (hbad : ¬op.Safe s) : ¬WellFormed s' := by
  cases op with
  | createDB inotifyInit fs => exact (hs.clash_of_createDB h hbad).not_wellFormed
  | getObjectList parent fs =>
    obtain ⟨⟨s₁, list⟩, hlist, rfl⟩ := Option.map_eq_some_iff.mp h
    exact (hs.clash_of_getObjectList hlist (not_lt.mp hbad)).not_wellFormed
  | beginSendObject path format parent =>
    obtain ⟨⟨s₁, handle⟩, hsend, rfl⟩ := Option.map_eq_some_iff.mp h
    exact (hs.clash_of_beginSendObject hsend (not_lt.mp hbad)).not_wellFormed
  | endSendObject handle => exact absurd trivial hbad
  | renameObject handle newName renamed => exact absurd trivial hbad
  | deleteFile handle => exact hs.breaks_of_deleteFile h hbad
  | inotifyEvent e =>
    have hname : e.name ≠ [] := fun hname => hbad fun hne => absurd hname hne
    rw [MtpStorage.step, if_neg hname, MtpStorage.handleInotifyEvent] at h
    rcases haction : s.eventAction e with _ | action
    · rw [haction] at h
      cases h
    · rw [haction] at h
      have hneeds : ¬action.Safe s e := by
        intro hneeds
        refine hbad fun _ action' haction' => ?_
        rw [haction] at haction'
        cases haction'
        exact hneeds
      cases action with
      | add t =>
        obtain ⟨s₁, hadd, hpath⟩ := Option.bind_eq_some_iff.mp h
        obtain ⟨path, -, rfl⟩ := Option.map_eq_some_iff.mp hpath
        exact (hs.clash_of_wrap hadd (not_lt.mp hneeds)).not_wellFormed
      | delete a handle => exact (hs.unwatched e a).breaks_of_deleteFile h hneeds
      | update a => exact absurd trivial hneeds
      | ignore => exact absurd trivial hneeds

theorem Inv.safeRun (hs : Inv s) {ops : List Operation} (h : StaysWellFormed s ops) :
    SafeRun s ops := by
  induction ops generalizing s with
  | nil => exact trivial
  | cons op ops ih =>
    obtain ⟨-, s', hstep, hrest⟩ := h
    have hw : WellFormed s' := by
      cases ops with
      | nil => exact hrest
      | cons op' ops => exact hrest.1
    have hsafe : op.Safe s := by
      by_contra hbad
      exact hs.breaks hstep hbad hw
    refine ⟨hsafe, fun s₁ hs₁ => ?_⟩
    obtain ⟨s₂, hstep₂, hs₂⟩ := hs.step hsafe
    rw [hstep] at hs₁ hstep₂
    cases hs₁
    cases hstep₂
    exact ih hs₂ hrest

/-- The store stays in order in a run exactly if every step of the run is safe. -/
theorem objectStore_invariant_iff (mFilePath : Text) (useMutex : Bool) (mtpid : MtpObjectHandle)
    (ops : List Operation) :
    StaysWellFormed (MtpStorage.new mFilePath useMutex mtpid) ops ↔
      SafeRun (MtpStorage.new mFilePath useMutex mtpid) ops :=
  ⟨(inv_new mFilePath useMutex mtpid).safeRun, (inv_new mFilePath useMutex mtpid).staysWellFormed⟩

/-! ### A directory with a directory inside -/

/-- `DCIM/Camera` on a storage. -/
def cameraFiles (path : Text) : Directory :=
  if path = "/sdcard".toList then
    ⟨some [(".".toList, some 0x41fd), ("DCIM".toList, some 0x41fd)], 1⟩
  else if path = "/sdcard/DCIM".toList then ⟨some [("Camera".toList, some 0x41fd)], 2⟩
  else ⟨some [], 3⟩

/-- The host lists the root and `DCIM`, and deletes `DCIM`. -/
def deleteDCIM : List Operation :=
  [.createDB 5 cameraFiles, .getObjectList 0 cameraFiles, .getObjectList 1 cameraFiles,
    .deleteFile 1]

theorem StaysWellFormed.last {ops : List Operation} (h : StaysWellFormed s ops) :
    ∃ s', ops.foldlM MtpStorage.step s = some s' ∧ WellFormed s' := by
  induction ops generalizing s with
  | nil => exact ⟨s, rfl, h⟩
  | cons op ops ih =>
    obtain ⟨-, s₁, hstep, hrest⟩ := h
    obtain ⟨s', hs', hw⟩ := ih hrest
    exact ⟨s', by rw [List.foldlM_cons, hstep, Option.bind_eq_bind, Option.bind_some, hs'], hw⟩

theorem deleteDCIM_leaves : (deleteDCIM.foldlM MtpStorage.step
    (MtpStorage.new "/sdcard".toList true 0)).all fun s =>
      s.mtpmap.find? 2 = some (some 2) && (s.heap.read 2).isNone := by
  decide +kernel

/-- Every run leaves the store in order. -/
def StoreAlwaysWellFormed : Prop :=
  ∀ (mFilePath : Text) (useMutex : Bool) (mtpid : MtpObjectHandle) (ops : List Operation),
    StaysWellFormed (MtpStorage.new mFilePath useMutex mtpid) ops

/-- `Camera` is deleted with `DCIM`, and stays in `mtpmap`. -/
theorem not_storeAlwaysWellFormed : ¬StoreAlwaysWellFormed := by
  intro h
  obtain ⟨s', hrun, hw⟩ := (h "/sdcard".toList true 0 deleteDCIM).last
  have hleft := deleteDCIM_leaves
  rw [hrun, Option.all_some, Bool.and_eq_true, decide_eq_true_eq] at hleft
  obtain ⟨node, -, hread, -⟩ := hw.mapped _ _ hleft.1
  rw [hread] at hleft
  cases hleft.2

end BootableRecovery.Mtp
