import BootableRecovery.Mtp.DeviceRuns

namespace BootableRecovery.Mtp
open Lib

/-! What an event, a deletion and a change of the files leave of a device that is sound. -/

variable {d : Device} {s s' : MtpStorage}

/-! ### The queue of events -/

theorem changes_cons_none {e : InotifyEvent} (h : e.change = none) (rest : List InotifyEvent) :
    changes (e :: rest) = changes rest :=
  List.filterMap_cons_none h

theorem changes_cons_some {e : InotifyEvent} {c : Change Int32 Text} (h : e.change = some c)
    (rest : List InotifyEvent) : changes (e :: rest) = c :: changes rest :=
  List.filterMap_cons_some h

theorem basename_plain {x : Text} (h : '/' ∉ x) : basename x = x := by
  rw [basename, List.takeWhile_eq_self_iff.mpr, List.reverse_reverse]
  intro c hc
  refine bne_iff_ne.mpr ?_
  rintro rfl
  exact h (List.mem_reverse.mp hc)

theorem InotifyEvent.change_eq_some {e : InotifyEvent} {c : Change Int32 Text}
    (h : e.change = some c) : c.watch = e.wd ∧ c.name = e.name ∧ e.name ≠ [] ∧
      ((c.created = true ∧ (e.has inCreate || e.has inMovedTo) = true) ∨
        (c.created = false ∧ ¬(e.has inCreate || e.has inMovedTo) = true ∧
          (e.has inDelete || e.has inMovedFrom) = true)) := by
  rw [InotifyEvent.change] at h
  split_ifs at h with hname hcreate hdelete
  · cases h
    exact ⟨rfl, rfl, hname, Or.inl ⟨rfl, hcreate⟩⟩
  · cases h
    exact ⟨rfl, rfl, hname, Or.inr ⟨rfl, hcreate, hdelete⟩⟩

/-- The head of the queue has been heard. -/
theorem mirrors_pop {I : Index ℕ Int32 Text} {files : List Text → Option (Set Text)}
    {e : InotifyEvent} {rest : List InotifyEvent} (hm : I.Mirrors files (changes (e :: rest)))
    (h : ∀ c t, e.change = some c → I.watch c.watch = some t → I.Heard c t) :
    I.Mirrors files (changes rest) := by
  rcases hc : e.change with _ | c
  · rwa [changes_cons_none hc] at hm
  · rw [changes_cons_some hc] at hm
    exact hm.pop fun t ht => h c t hc ht

/-- An event that leaves the storage as it is. -/
theorem Device.Sound.pop (hd : d.Sound) {e : InotifyEvent} {rest : List InotifyEvent}
    (hpending : d.pending = e :: rest)
    (h : ∀ c t, e.change = some c → d.index.watch c.watch = some t → d.index.Heard c t) :
    Device.Sound { d with pending := rest } := by
  have hm := hd.mirrors
  have hplain := hd.plain
  rw [hpending] at hm hplain
  exact ⟨hd.inv, hd.unnamed, mirrors_pop hm h, hd.sending, hd.current, hd.issued,
    (List.forall_mem_cons.mp hplain).2⟩

/-! ### Events about a node -/

/-- What `findEntryByName` finds in a directory is the entry with the name. -/
theorem Inv.eventAction_eq (hs : Inv s) {R : ℕ → Text → Prop} {e : InotifyEvent} {t : ℕ}
    (hplain : '/' ∉ e.name) (hwatch : s.inotifymap.find? e.wd = some t) :
    (s.eventAction e = some (eventFor e s.handleCurrentlySending t none) ∧
        ∀ a, ¬(s.index R).entry t e.name a) ∨
      ∃ a node, s.eventAction e = some (eventFor e s.handleCurrentlySending t (some (a, node))) ∧
        s.heap.read a = some node ∧ node.handle ≠ 0 ∧ (s.index R).entry t e.name a := by
  obtain ⟨owner, tree, hread, htree⟩ := hs.watched hwatch
  have hlive : ∀ e ∈ tree.entries.entries, ∃ n, s.heap.read e.2 = some n ∧ n.handle = e.1 ∧
      0 < n.handle := by
    intro e he
    obtain ⟨n, hn, hh, -, hne⟩ := hs.entry hread htree (tree.entries.mem_entries_iff.mp he)
    exact ⟨n, hn, hh, UInt32.pos_iff_ne_zero.mpr (hh ▸ hne)⟩
  obtain ⟨found, hfound, -⟩ := findByNameIn_isSome e.name (hs.entries_live hread htree)
  have hspec := findByNameIn_eq hlive hfound
  rw [MtpStorage.eventAction, hwatch]
  dsimp only
  rw [derefTree_eq_some.mpr ⟨hread, htree⟩, Option.bind_some, basename_plain hplain, hfound,
    Option.map_some]
  rcases found with _ | ⟨a, node⟩
  · refine Or.inl ⟨rfl, fun a ha => ?_⟩
    obtain ⟨child, hchild, hname, hfind⟩ := (hs.entry_iff_find hread htree).mp ha
    exact hspec (child.handle, a) (tree.entries.mem_entries_iff.mpr hfind) child hchild hname
  · obtain ⟨hnode, hname, hmem⟩ := hspec
    have hfind := tree.entries.mem_entries_iff.mp hmem
    obtain ⟨-, -, -, -, hne⟩ := hs.entry hread htree hfind
    exact Or.inr ⟨a, node, rfl, hnode, hne,
      (hs.entry_iff_find hread htree).mpr ⟨node, hnode, hname, hfind⟩⟩

theorem find?_unwatch_of_ne {watches : OrderedMap Int32 ℕ} {a t : ℕ} (h : t ≠ a) (w : Int32) :
    watches.find? w = some t ↔ (unwatch watches a).find? w = some t := by
  refine ⟨fun hw => ?_, find?_unwatch⟩
  rw [unwatch]
  rcases hfind : watches.entries.find? fun w => w.2 = a with _ | e
  · rwa [hfind]
  · rw [hfind]
    have he : watches.find? e.1 = some e.2 :=
      watches.mem_entries_iff.mp (List.mem_of_find?_eq_some hfind)
    have hea : e.2 = a := by simpa using List.find?_some hfind
    dsimp only
    rw [OrderedMap.find?_erase_of_ne _ ?_, hw]
    rintro rfl
    rw [hw, Option.some.injEq] at he
    exact h (he.trans hea)

theorem Inv.entry_ne (hs : Inv s) {R : ℕ → Text → Prop} {t a : ℕ} {x : Text}
    (h : (s.index R).entry t x a) : t ≠ a := by
  obtain ⟨n, m, ha, hne, -, ht, hm⟩ := h
  rintro rfl
  rw [ha, Option.some.injEq] at ht
  subst ht
  obtain ⟨node, hread, rfl⟩ := brief_eq_some.mp ha
  have hlt := hs.older hread hne
  have hself : node.handle = node.parent := hm
  rw [hself] at hlt
  exact lt_irrefl _ hlt

/-- A node that is added because of an event. -/
theorem Device.Sound.event_add (hd : d.Sound) {e : InotifyEvent} {rest : List InotifyEvent}
    (hpending : d.pending = e :: rest) {t : ℕ} (hwatch : d.storage.inotifymap.find? e.wd = some t)
    (hname : e.name ≠ []) (hcreate : (e.has inCreate || e.has inMovedTo) = true)
    (hnew : ∀ a, ¬d.index.entry t e.name a) (hroom : d.storage.mtpid.toNat + 1 < 2 ^ 32) :
    ∃ s path, d.storage.addNewNode (e.has inIsDir) t e.name = some s ∧ s.getNodePath t = some path ∧
      Device.Sound { d with storage := s, pending := rest } := by
  obtain ⟨owner, tree, hread, htree⟩ := hd.inv.watched hwatch
  have ht : d.storage.IsTree t owner.handle := ⟨owner, tree, hread, htree, rfl⟩
  obtain ⟨s, hadd, hs, -, node, inner, hnode, -⟩ :=
    hd.inv.addNewNode (e.has inIsDir) e.name ht hroom
  obtain ⟨path, hpath⟩ := hs.getNodePath hnode
  have hindex := (hd.inv.index_addNewNode ht hroom hadd (d.storage.namesOf d.sends)).1
  have hgrows := hd.inv.grows_addNewNode ht hroom hadd
  have hchange : e.change = some ⟨e.wd, true, e.name⟩ := by
    rw [InotifyEvent.change, if_neg hname, if_pos hcreate]
  have hm : (s.index (d.storage.namesOf d.sends)).Mirrors d.files.names (changes d.pending) := by
    rw [hindex]
    refine hd.mirrors.add (hd.inv.fresh_next _) hnew fun _ => Or.inl fun hlast => ?_
    rw [hpending, changes_cons_some hchange, Index.lastChange, if_pos ⟨hwatch, rfl⟩,
      Option.or_eq_none_iff] at hlast
    exact absurd hlast.2 (Option.some_ne_none _)
  have hgrown := hd.grow hs hgrows hm
  refine ⟨s, path, hadd, hpath, hgrown.pop hpending fun c t' hc ht' => ?_⟩
  rw [hchange, Option.some.injEq] at hc
  subst hc
  have hsame : t' = t := by
    have hw : s.inotifymap.find? e.wd = some t' := ht'
    rw [addNewNode_watches hadd, hwatch, Option.some.injEq] at hw
    exact hw.symm
  refine ⟨fun _ => ⟨d.storage.heap.next, ?_⟩, fun h => absurd h (by simp)⟩
  have hadded : (s.index (d.storage.namesOf d.sends)).entry t e.name d.storage.heap.next := by
    rw [hindex]
    exact Or.inr ⟨rfl, rfl, rfl⟩
  rw [hsame]
  exact hadded

/-- A node that is deleted because of an event. -/
theorem Device.Sound.event_delete (hd : d.Sound) {e : InotifyEvent} {rest : List InotifyEvent}
    (hpending : d.pending = e :: rest) {t : ℕ} (hwatch : d.storage.inotifymap.find? e.wd = some t)
    (hname : e.name ≠ []) (hcreate : ¬(e.has inCreate || e.has inMovedTo) = true)
    (hdelete : (e.has inDelete || e.has inMovedFrom) = true) {a : ℕ} {node : Node}
    (hread : d.storage.heap.read a = some node) (hne : node.handle ≠ 0)
    (he : d.index.entry t e.name a) (hsafe : (d.storage.unwatched e a).DeleteSafe node.handle) :
    ∃ s, (d.storage.unwatched e a).deleteFile node.handle = some s ∧
      Device.Sound { d with storage := s, pending := rest } := by
  have hinv := hd.inv.unwatched e a
  obtain ⟨s, hfile, hs⟩ := hinv.deleteFile hsafe
  obtain ⟨s', hfile', hwatches, hmtpid, hback, hindex, hleaf, hunwatched⟩ :=
    hinv.index_deleteFile (R := d.storage.namesOf d.sends) hsafe hread rfl hne
  rw [hfile, Option.some.injEq] at hfile'
  subst hfile'
  replace hindex : s.index (d.storage.namesOf d.sends) =
      d.index.remove a (d.storage.unwatched e a).inotifymap.find? := hindex
  replace hback : ∀ b n, s.brief b = some n → d.storage.brief b = some n := hback
  have hsending : s.handleCurrentlySending = d.storage.handleCurrentlySending :=
    (deleteFile_sending hfile).trans rfl
  have hchange : e.change = some ⟨e.wd, false, e.name⟩ := by
    rw [InotifyEvent.change, if_neg hname, if_neg hcreate, if_pos hdelete]
  have hW : ∀ w t', t' ≠ a → (d.index.watch w = some t' ↔
      (d.storage.unwatched e a).inotifymap.find? w = some t') := by
    intro w t' ht'
    rw [MtpStorage.unwatched]
    dsimp only
    split_ifs
    · exact find?_unwatch_of_ne ht' w
    · exact Iff.rfl
  have hta : t ≠ a := hd.inv.entry_ne he
  have hlast : ∀ J : Index ℕ Int32 Text, J.watch e.wd = some t →
      J.lastChange t e.name (changes d.pending) ≠ none := by
    intro J hJ h
    rw [hpending, changes_cons_some hchange, Index.lastChange, if_pos ⟨hJ, rfl⟩,
      Option.or_eq_none_iff] at h
    exact absurd h.2 (Option.some_ne_none _)
  have hremoved : (s.index (d.storage.namesOf d.sends)).Mirrors d.files.names
      (changes d.pending) := by
    rw [hindex]
    exact hd.mirrors.remove (hd.inv.forest _) he hleaf hW hunwatched
      fun _ => Or.inl (hlast _ hwatch)
  have hnames : (s.index (s.namesOf d.sends)).Mirrors d.files.names (changes d.pending) := by
    refine hremoved.release _ fun t' _ x _ hread' _ _ _ hnone hres hfree => ?_
    rw [hindex] at hread' hnone
    obtain h | hent := namesOf_remaining hindex hback hres hread'.2
    · exact absurd h hfree
    · obtain ⟨rfl, rfl⟩ := (hd.inv.forest _).owner he hent
      exact absurd hnone (hlast _ ((hW e.wd t hta).mp hwatch))
  rw [hpending] at hnames
  refine ⟨s, hfile, hs, fun r n hr hzero => hd.unnamed r n (hback r n hr) hzero,
    mirrors_pop hnames fun c t' hc ht' => ?_, fun b n hb hbne hn => ?_, ?_, fun h hh => ?_, ?_⟩
  · rw [hchange, Option.some.injEq] at hc
    subst hc
    refine ⟨fun h => absurd h (by simp), fun _ b hb => ?_⟩
    exfalso
    have hb' : (d.index.remove a (d.storage.unwatched e a).inotifymap.find?).entry t' e.name b :=
      hindex ▸ hb
    have ht : t' = t := by
      have hw : s.inotifymap.find? e.wd = some t' := ht'
      rw [hwatches] at hw
      have hw' : d.storage.inotifymap.find? e.wd = some t' := (hW e.wd t' hb'.2.1).mpr hw
      rw [hwatch, Option.some.injEq] at hw'
      exact hw'.symm
    exact hb'.2.2 (hd.mirrors.unique hb'.1 (ht ▸ he))
  · exact hd.sending b n (hback b n hb) hbne (hn.trans hsending)
  · dsimp only
    rw [hsending, hmtpid]
    exact hd.current
  · dsimp only
    rw [hmtpid]
    exact hd.issued h hh
  · have hplain := hd.plain
    rw [hpending] at hplain
    exact (List.forall_mem_cons.mp hplain).2

theorem Device.Sound.inotifyEvent (hd : d.Sound) (hclear : d.Clear .inotifyEvent) :
    ∃ d', d.step .inotifyEvent = some d' ∧ d'.Sound := by
  rw [Device.step]
  rcases hpending : d.pending with _ | ⟨e, rest⟩
  · exact ⟨d, rfl, hd⟩
  obtain ⟨hsafe, hsuppressed⟩ := hclear e rest hpending
  have hplain : '/' ∉ e.name := hd.plain e (hpending ▸ List.mem_cons_self)
  dsimp only
  rw [MtpStorage.step]
  by_cases hname : e.name = []
  · have hnone : e.change = none := by rw [InotifyEvent.change, if_pos hname]
    rw [if_pos hname, Option.map_some]
    refine ⟨_, rfl, hd.pop hpending fun c t hc => ?_⟩
    rw [hnone] at hc
    cases hc
  rw [if_neg hname, MtpStorage.handleInotifyEvent]
  rcases hwatch : d.storage.inotifymap.find? e.wd with _ | t
  · have haction : d.storage.eventAction e = some .ignore := by
      rw [MtpStorage.eventAction, hwatch]
    rw [haction, Option.map_some]
    refine ⟨_, rfl, hd.pop hpending fun c t hc ht => ?_⟩
    obtain ⟨hw, -⟩ := InotifyEvent.change_eq_some hc
    have ht' : d.storage.inotifymap.find? c.watch = some t := ht
    rw [hw, hwatch] at ht'
    cases ht'
  have hwd : ∀ {c : Change Int32 Text} {t' : ℕ}, e.change = some c →
      d.index.watch c.watch = some t' → t' = t ∧ c.name = e.name := by
    intro c t' hc ht'
    obtain ⟨hw, hx, -⟩ := InotifyEvent.change_eq_some hc
    replace ht' : d.storage.inotifymap.find? c.watch = some t' := ht'
    rw [hw, hwatch, Option.some.injEq] at ht'
    exact ⟨ht'.symm, hx⟩
  obtain ⟨haction, hnew⟩ | ⟨a, node, haction, hread, hne, he⟩ :=
    hd.inv.eventAction_eq (R := d.storage.namesOf d.sends) hplain hwatch
  · rw [eventFor] at haction
    by_cases hcreate : (e.has inCreate || e.has inMovedTo) = true
    · rw [if_pos hcreate] at haction
      obtain ⟨s, path, hadd, hpath, hsound⟩ := hd.event_add hpending hwatch hname hcreate hnew
        (hsafe hname _ haction)
      rw [haction]
      dsimp only
      rw [hadd, Option.bind_some, hpath, Option.map_some, Option.map_some]
      exact ⟨_, rfl, hsound⟩
    · rw [if_neg hcreate] at haction
      rw [haction, Option.map_some]
      refine ⟨_, rfl, hd.pop hpending fun c t' hc ht' => ?_⟩
      obtain ⟨rfl, hx⟩ := hwd hc ht'
      obtain ⟨-, -, -, ⟨-, h⟩ | ⟨hdel, -⟩⟩ := InotifyEvent.change_eq_some hc
      · exact absurd h hcreate
      · refine ⟨fun h => absurd h (by simp [hdel]), fun _ b hb => ?_⟩
        exact absurd (hx ▸ hb) (hnew b)
  · rw [eventFor] at haction
    by_cases hsend : node.handle = d.storage.handleCurrentlySending
    · -- the event of the object that is being sent is not handled
      rw [if_pos hsend] at haction
      rw [haction, Option.map_some]
      refine ⟨_, rfl, hd.pop hpending fun c t' hc ht' => ?_⟩
      obtain ⟨rfl, hx⟩ := hwd hc ht'
      refine ⟨fun _ => ⟨a, hx ▸ he⟩, fun hdel b hb => ?_⟩
      have hba : b = a := hd.mirrors.unique (hx ▸ hb) he
      have hbrief : d.storage.brief b = some node.brief :=
        brief_eq_some.mpr ⟨node, hba ▸ hread, rfl⟩
      obtain ⟨n, m, hn, hnne, hnx, ht, hm⟩ := hb
      refine ⟨⟨b, n, m, hn, hnne, hnx, ht, hm, ?_⟩,
        hsuppressed c t' b node.brief hc hdel ht' ⟨n, m, hn, hnne, hnx, ht, hm⟩ hbrief hsend⟩
      rw [hn, Option.some.injEq] at hbrief
      exact hd.sending b n hn hnne (hbrief ▸ hsend)
    rw [if_neg hsend] at haction
    by_cases hcreate : (e.has inCreate || e.has inMovedTo) = true
    · rw [if_pos hcreate] at haction
      rw [haction, Option.map_some]
      refine ⟨_, rfl, hd.pop hpending fun c t' hc ht' => ?_⟩
      obtain ⟨rfl, hx⟩ := hwd hc ht'
      obtain ⟨-, -, -, ⟨hcr, -⟩ | ⟨-, h, -⟩⟩ := InotifyEvent.change_eq_some hc
      · exact ⟨fun _ => ⟨a, hx ▸ he⟩, fun h => absurd h (by simp [hcr])⟩
      · exact absurd hcreate h
    rw [if_neg hcreate] at haction
    by_cases hdelete : (e.has inDelete || e.has inMovedFrom) = true
    · rw [if_pos hdelete] at haction
      obtain ⟨s, hfile, hsound⟩ := hd.event_delete hpending hwatch hname hcreate hdelete hread hne
        he (hsafe hname _ haction)
      rw [MtpStorage.unwatched] at hfile
      rw [haction]
      dsimp only
      rw [hfile, Option.map_some]
      exact ⟨_, rfl, hsound⟩
    rw [if_neg hdelete] at haction
    -- a change of the size, or nothing
    have hnone : e.change = none := by
      rw [InotifyEvent.change, if_neg hname, if_neg hcreate, if_neg hdelete]
    have hpop := hd.pop hpending fun c t hc => by
      rw [hnone] at hc
      cases hc
    obtain ⟨path, hpath⟩ := hd.inv.getNodePath hread
    by_cases hmodify : e.has inModify = true
    · rw [if_pos hmodify] at haction
      rw [haction]
      dsimp only
      rw [hpath, Option.map_some, Option.map_some]
      exact ⟨_, rfl, hpop⟩
    · rw [if_neg hmodify] at haction
      rw [haction, Option.map_some]
      exact ⟨_, rfl, hpop⟩

/-! ### The other steps -/

theorem namesOf_missing {handle : MtpObjectHandle}
    (hnone : ∀ a node, s.heap.read a = some node → node.handle = handle → handle = 0) {t : ℕ}
    {x : Text} : ¬s.namesOf [handle] t x := by
  rintro ⟨a, n, m, ha, hne, -, -, -, hmem⟩
  obtain ⟨node, hread, rfl⟩ := brief_eq_some.mp ha
  have hhandle : node.handle = handle := List.mem_singleton.mp hmem
  have hzero : node.handle = 0 := hhandle.trans (hnone a node hread hhandle)
  exact hne hzero

theorem Device.Sound.change (hd : d.Sound) {files : Files} {events : List InotifyEvent}
    (hallows : d.Allows (.change files events)) :
    Device.Sound { d with files := files, pending := d.pending ++ events } := by
  obtain ⟨hplain, hreported⟩ := hallows
  have hm := hd.mirrors.change hreported
  rw [← changes_append] at hm
  exact ⟨hd.inv, hd.unnamed, hm, hd.sending, hd.current, hd.issued,
    List.forall_mem_append.mpr ⟨hd.plain, hplain⟩⟩

theorem Device.Sound.deleteObject (hd : d.Sound) {handle : MtpObjectHandle} {files : Files}
    {events : List InotifyEvent} (hallows : d.Allows (.deleteObject handle files events))
    (hclear : d.Clear (.deleteObject handle files events)) :
    ∃ d', d.step (.deleteObject handle files events) = some d' ∧ d'.Sound := by
  have hplain := List.forall_mem_append.mpr ⟨hd.plain, hallows.1⟩
  rw [Device.step]
  obtain ⟨a, node, -, hread, hhandle, hne⟩ | ⟨hfind, hnone⟩ := hd.inv.findNode handle
  · obtain ⟨s, hdelete, hmtpid, hback, hm⟩ := hd.deleteObject_found hallows hclear hread hhandle hne
    obtain ⟨s', hdelete', hs⟩ := hd.inv.deleteFile hclear.1
    rw [hdelete, Option.some.injEq] at hdelete'
    subst hdelete'
    have hsending := deleteFile_sending hdelete
    rw [hdelete, Option.map_some]
    refine ⟨_, rfl, hs, fun r n hr => hd.unnamed r n (hback r n hr), hm, fun b n hb hbne hn => ?_,
      ?_, fun h hh => ?_, hplain⟩
    · exact hd.sending b n (hback b n hb) hbne (hn.trans hsending)
    · dsimp only
      rw [hsending, hmtpid]
      exact hd.current
    · dsimp only
      rw [hmtpid]
      exact hd.issued h hh
  · have hdelete : d.storage.deleteFile handle = some d.storage := by
      rw [MtpStorage.deleteFile, hfind]
    have hreserved : (reserving d.index (d.storage.namesOf [handle])).Mirrors d.files.names
        (changes d.pending) := mirrors_of_reserved _ hd.mirrors fun _ _ => Or.inl
    have hm := hreserved.change (hallows.2 _ hdelete)
    rw [← changes_append] at hm
    rw [hdelete, Option.map_some]
    refine ⟨_, rfl, hd.inv, hd.unnamed, ?_, hd.sending, hd.current, hd.issued, hplain⟩
    refine hm.release _ fun t p x c _ _ _ _ _ hres hfree => ?_
    exact absurd (hres.resolve_left hfree) (namesOf_missing hnone)

theorem Device.Sound.step (hd : d.Sound) {st : DeviceStep} (hallows : d.Allows st)
    (hclear : d.Clear st) : ∃ d', d.step st = some d' ∧ d'.Sound := by
  cases st with
  | getObjectList parent fs => exact hd.getObjectList hallows hclear
  | beginSendObject path format parent => exact hd.beginSendObject hclear
  | endSendObject handle => exact hd.endSendObject hclear
  | renameObject handle newName renamed =>
    obtain _ | ⟨files, events⟩ := renamed
    · exact ⟨d, by rw [Device.step, hd.inv.renameObject_failed]; rfl, hd⟩
    · exact hd.renameObject hallows hclear
  | deleteObject handle files events => exact hd.deleteObject hallows hclear
  | inotifyEvent => exact hd.inotifyEvent hclear
  | change files events => exact ⟨_, rfl, hd.change hallows⟩

end BootableRecovery.Mtp
