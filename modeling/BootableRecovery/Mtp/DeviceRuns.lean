import BootableRecovery.Mtp.Device

namespace BootableRecovery.Mtp
open Lib

/-! What holds of a device between the steps. -/

structure Device.Sound (d : Device) : Prop where
  inv : Inv d.storage
  unnamed : d.storage.RootUnnamed
  mirrors : d.index.Mirrors d.files.names (changes d.pending)
  sending : ∀ a n, d.storage.brief a = some n → n.handle ≠ 0 →
    n.handle = d.storage.handleCurrentlySending → n.handle ∈ d.sends
  current : d.storage.handleCurrentlySending.toNat ≤ d.storage.mtpid.toNat
  issued : ∀ h ∈ d.sends, h.toNat ≤ d.storage.mtpid.toNat
  plain : PlainEvents d.pending

variable {d : Device} {s s' : MtpStorage}

/-! ### Storages that grow -/

theorem Grows.namesOf (h : Grows s s') {sends : List MtpObjectHandle} {t : ℕ} {x : Text}
    (hx : s.namesOf sends t x) : s'.namesOf sends t x := by
  obtain ⟨a, n, m, ha, hne, rfl, ht, hm, hmem⟩ := hx
  obtain ⟨n', ha', hh, hp, hn⟩ := h.kept a n ha
  obtain ⟨m', ht', hh', -⟩ := h.kept t m ht
  exact ⟨a, n', m', ha', hh ▸ hne, hn, ht', by rw [hh', hp, hm], hh ▸ hmem⟩

/-- More names may be reserved at any time. -/
theorem mirrors_of_reserved (R' : ℕ → Text → Prop) {R : ℕ → Text → Prop}
    {files : List Text → Option (Set Text)}
    {q : List (Change Int32 Text)} (hm : (s.index R).Mirrors files q)
    (h : ∀ t x, R t x → R' t x) : (s.index R').Mirrors files q :=
  hm.release R' fun t _ x _ _ _ _ _ _ hres hfree => absurd (h t x hres) hfree

/-- A storage that has grown, with the same sends. -/
theorem Device.Sound.grow (hd : d.Sound) (hs' : Inv s') (hgrows : Grows d.storage s')
    (hm : (s'.index (d.storage.namesOf d.sends)).Mirrors d.files.names (changes d.pending)) :
    Device.Sound { d with storage := s' } := by
  refine ⟨hs', hgrows.unnamed hd.unnamed, mirrors_of_reserved _ hm fun t x => hgrows.namesOf,
    fun a n ha hne hn => ?_, ?_, fun h hh => (hd.issued h hh).trans hgrows.mtpid, hd.plain⟩
  · dsimp only at ha hn
    rw [hgrows.sending] at hn
    obtain ⟨m, hm', hmn, -⟩ | hlt := hgrows.new a n ha
    · rw [hmn] at hne hn ⊢
      exact hd.sending a m hm' hne hn
    · rw [hn] at hlt
      exact absurd hd.current (Nat.not_le.mpr hlt)
  · dsimp only
    rw [hgrows.sending]
    exact hd.current.trans hgrows.mtpid

/-! ### Listing -/

theorem addedNames_of_whole {items : List (Text × Option UInt32)} (h : Whole items) :
    addedNames items =
      (items.filter fun e => e.1 ≠ ".".toList ∧ e.1 ≠ "..".toList).map Prod.fst := by
  induction items with
  | nil => rfl
  | cons e rest ih =>
    obtain ⟨he, hrest⟩ := List.forall_mem_cons.mp h
    obtain ⟨name, _ | mode⟩ := e
    · cases he
    · rw [addedNames, List.filter_cons, ih hrest]
      by_cases hdots : name = ".".toList ∨ name = "..".toList
      · rw [if_pos hdots, if_neg]
        simp only [decide_eq_true_eq, not_and_or, not_not]
        exact hdots
      · rw [if_neg hdots, if_pos, List.map_cons]
        rw [not_or] at hdots
        exact decide_eq_true hdots

theorem addedNames_append (pre rest : List (Text × Option UInt32)) (h : Whole pre) :
    addedNames (pre ++ rest) = addedNames pre ++ addedNames rest := by
  induction pre with
  | nil => rfl
  | cons e pre ih =>
    obtain ⟨he, hpre⟩ := List.forall_mem_cons.mp h
    obtain ⟨name, _ | mode⟩ := e
    · cases he
    · rw [List.cons_append, addedNames, addedNames, ih hpre]
      split_ifs <;> rfl

theorem ListsContent.names {items : List (Text × Option UInt32)} {c : Content}
    (h : ListsContent items c) : (addedNames items).Perm c.names := by
  rw [addedNames_of_whole h.1]
  have hperm := h.2.map Prod.fst
  rwa [List.map_map] at hperm

/-- Whatever the system answers, no name is there twice. -/
theorem Answers.nodup {content : Option Content} {items : List (Text × Option UInt32)}
    (h : Answers content (some items)) : (addedNames items).Nodup := by
  obtain ⟨c, l, -, hl, rfl | ⟨pre, e, rest, rest', rfl, rfl⟩⟩ := h
  · exact hl.names.nodup_iff.mpr c.nodup
  · have hnodup := hl.names.nodup_iff.mpr c.nodup
    have hpre : Whole pre := fun e he => hl.1 e (List.mem_append_left _ he)
    rw [addedNames_append _ _ hpre] at hnodup ⊢
    rw [addedNames, List.append_nil]
    exact hnodup.of_append_left

theorem Answers.whole {content : Option Content} {items : List (Text × Option UInt32)}
    (h : Answers content (some items)) (hwhole : Whole items) :
    ∃ c, content = some c ∧ ∀ x, x ∈ c.names ↔ x ∈ addedNames items := by
  obtain ⟨c, l, hc, hl, rfl | ⟨pre, e, rest, rest', rfl, rfl⟩⟩ := h
  · exact ⟨c, hc, fun x => hl.names.mem_iff.symm⟩
  · have he := hwhole (e.1, none) (List.mem_append_right _ List.mem_cons_self)
    cases he

/-- What `getObjectList` does for a directory. -/
theorem Inv.getObjectList_eq (hs : Inv s) {fs : Text → Directory} {parent : MtpObjectHandle}
    {t : ℕ} (hdir : s.directory parent t) (hroom : s.mtpid.toNat + s.listAdds fs parent < 2 ^ 32) :
    ∃ s' list node tree, s.getObjectList fs parent = some (s', list) ∧ Inv s' ∧
      s'.heap.read t = some node ∧ node.tree = some tree ∧
      getmtpids s'.heap tree = some list ∧
      ∃ node₀ tree₀, s.heap.read t = some node₀ ∧ node₀.tree = some tree₀ ∧
        (tree₀.alreadyRead = true → s' = s) ∧
        (tree₀.alreadyRead = false → ∃ path, s.getNodePath t = some path ∧
          s.mtpid.toNat + (fs path).added < 2 ^ 32 ∧ s.readDir fs path t = some s') := by
  unfold MtpStorage.directory at hdir
  unfold MtpStorage.listAdds at hroom
  unfold MtpStorage.getObjectList
  generalize (if parent = mtpParentRoot then 0 else parent) = parent at hdir hroom ⊢
  obtain ⟨t', node, tree, heq, hread, htree, hkey⟩ := hs.mapped hdir
  cases heq
  have hderef := derefTree_eq_some.mpr ⟨hread, htree⟩
  obtain ⟨path, hpath⟩ := hs.getNodePath hread
  dsimp only at hroom ⊢
  rw [hdir] at hroom ⊢
  dsimp only at hroom ⊢
  rw [hderef] at hroom ⊢
  dsimp only at hroom ⊢
  have htreeOf : s.IsTree t parent := ⟨node, tree, hread, htree, toInt32_inj hkey⟩
  rcases hdone : tree.alreadyRead
  · rw [hdone, if_neg Bool.false_ne_true, hpath] at hroom
    obtain ⟨s', hs', hinv, node', tree', hnode', htree', hh⟩ := hs.readDir fs htreeOf hroom
    obtain ⟨list, hlist⟩ := getmtpids_isSome (hinv.entries_live hnode' htree')
    refine ⟨s', list, node', tree', ?_, hinv, hnode', htree', hlist, node, tree, hread, htree,
      fun h => ?_, fun _ => ⟨path, hpath, hroom, hs'⟩⟩
    · rw [if_neg Bool.false_ne_true, hpath, Option.bind_some, hs', Option.bind_some, ← hh,
        hinv.indexed hnode' htree']
      dsimp only
      rw [derefTree_eq_some.mpr ⟨hnode', htree'⟩, Option.bind_some]
      dsimp only
      rw [hlist, Option.map_some]
    · rw [hdone] at h
      cases h
  · obtain ⟨list, hlist⟩ := getmtpids_isSome (hs.entries_live hread htree)
    refine ⟨s, list, node, tree, ?_, hs, hread, htree, hlist, node, tree, hread, htree,
      fun _ => rfl, fun h => ?_⟩
    · rw [if_pos rfl, Option.bind_some, hdir]
      dsimp only
      rw [hderef, Option.bind_some]
      dsimp only
      rw [hlist, Option.map_some]
    · rw [hdone] at h
      cases h

theorem index_read_iff {R : ℕ → Text → Prop} {t : ℕ} {node : Node} {tree : Tree}
    (hread : s.heap.read t = some node) (htree : node.tree = some tree) :
    (s.index R).read t ↔ tree.alreadyRead = true := by
  have hbrief : node.brief.read = tree.alreadyRead := by
    rw [Node.brief, htree]
    rfl
  constructor
  · rintro ⟨n, hn, hr⟩
    rw [MtpStorage.brief, hread, Option.map_some, Option.some.injEq] at hn
    rwa [← hbrief, hn]
  · intro h
    exact ⟨node.brief, brief_eq_some.mpr ⟨node, hread, rfl⟩, hbrief.trans h⟩

/-- The list of a directory, read now or before. -/
theorem Device.Sound.listing (hd : d.Sound) {fs : Text → Directory} {parent : MtpObjectHandle}
    (hallows : d.Allows (.getObjectList parent fs)) (hclear : d.Clear (.getObjectList parent fs))
    {t : ℕ} (hdir : d.storage.directory parent t) :
    ∃ s list node tree, d.storage.getObjectList fs parent = some (s, list) ∧
      Device.Sound { d with storage := s } ∧ s.heap.read t = some node ∧ node.tree = some tree ∧
      getmtpids s.heap tree = some list ∧ Grows d.storage s ∧
      ∀ p, d.index.At t p → (¬d.index.read t → ∃ items,
        (fs (pathText d.storage.mtpstorageparent p)).items = some items ∧ Whole items) →
        tree.alreadyRead = true := by
  obtain ⟨hroom, hnames⟩ := hclear
  obtain ⟨s', list, node, tree, hlist, hs', hnode, htree, hids, node₀, tree₀, hnode₀, htree₀,
    hdone, hread⟩ := hd.inv.getObjectList_eq hdir hroom
  have hreadIff := index_read_iff (R := d.storage.namesOf d.sends) hnode₀ htree₀
  rcases hflag : tree₀.alreadyRead
  · obtain ⟨path, hpath, hadded, hs⟩ := hread hflag
    have hunread : ¬d.index.read t := by
      rw [Device.index, hreadIff, hflag]
      exact Bool.false_ne_true
    obtain ⟨p, hp⟩ := hd.inv.exists_at (R := d.storage.namesOf d.sends) hnode₀
    rw [hd.inv.getNodePath_eq hd.unnamed hp, Option.some.injEq] at hpath
    subst hpath
    obtain ⟨hanswers, hwatch⟩ := hallows t p hdir hunread hp
    have hitems : ∀ items, (fs (pathText d.storage.mtpstorageparent p)).items = some items →
        (addedNames items).Nodup ∧ ∀ x ∈ addedNames items, ∀ a, ¬d.index.entry t x a := by
      intro items h
      rw [h] at hanswers
      exact ⟨hanswers.nodup, fun x hx a he => (hnames t p items hdir hunread hp h x a he).1 hx⟩
    have hwhole : ∀ items, (fs (pathText d.storage.mtpstorageparent p)).items = some items →
        Whole items → (∀ x a, d.index.entry t x a → d.storage.namesOf d.sends t x) ∧
        ∃ c, d.files.names p = some c ∧ (∀ x, x ∈ c ↔ x ∈ addedNames items) ∧
          WatchTells d.index (changes d.pending)
            (d.storage.watchFor fs (pathText d.storage.mtpstorageparent p)) c := by
      intro items h hall
      rw [h] at hanswers
      obtain ⟨c, hc, hx⟩ := hanswers.whole hall
      refine ⟨fun x a he => (hnames t p items hdir hunread hp h x a he).2 hall,
        { x | x ∈ c.names }, ?_, hx, hwatch items c h hall hc⟩
      rw [Files.names, hc, Option.map_some]
    obtain ⟨hm, hgrows, hmarked⟩ := hd.inv.mirrors_readDir hd.unnamed
      ⟨node₀, tree₀, hnode₀, htree₀, rfl⟩ hp hadded hd.mirrors hunread hitems hwhole hs
    refine ⟨s', list, node, tree, hlist, hd.grow hs' hgrows hm, hnode, htree, hids, hgrows,
      fun p' hp' h => ?_⟩
    cases hp.eq (hd.inv.forest _) hp'
    obtain ⟨items, hitems', hall⟩ := h hunread
    exact (index_read_iff hnode htree).mp (hmarked items hitems' hall)
  · have hsame := hdone hflag
    subst hsame
    refine ⟨d.storage, list, node, tree, hlist, hd, hnode, htree, hids, Grows.refl _,
      fun _ _ _ => ?_⟩
    rw [hnode, Option.some.injEq] at hnode₀
    subst hnode₀
    rw [htree, Option.some.injEq] at htree₀
    rw [htree₀, hflag]

theorem Device.Sound.getObjectList (hd : d.Sound) {fs : Text → Directory}
    {parent : MtpObjectHandle} (hallows : d.Allows (.getObjectList parent fs))
    (hclear : d.Clear (.getObjectList parent fs)) :
    ∃ d', d.step (.getObjectList parent fs) = some d' ∧ d'.Sound := by
  by_cases hdir : ∃ t, d.storage.directory parent t
  · obtain ⟨t, ht⟩ := hdir
    obtain ⟨s, list, -, -, hlist, hs, -⟩ := hd.listing hallows hclear ht
    exact ⟨_, by rw [Device.step, hlist, Option.map_some], hs⟩
  · have hnone : d.storage.mtpmap.find?
        (if parent = mtpParentRoot then 0 else parent).toInt32 = none := by
      rcases h : d.storage.mtpmap.find?
        (if parent = mtpParentRoot then 0 else parent).toInt32 with _ | t
      · rfl
      · obtain ⟨b, -, -, rfl, -⟩ := hd.inv.mapped h
        exact absurd ⟨b, h⟩ hdir
    refine ⟨d, ?_, hd⟩
    rw [Device.step, MtpStorage.getObjectList]
    dsimp only
    rw [hnone]
    rfl

/-! ### Sending -/

theorem namesOf_mono {l l' : List MtpObjectHandle} (h : ∀ x ∈ l, x ∈ l') {t : ℕ} {x : Text}
    (hx : s.namesOf l t x) : s.namesOf l' t x := by
  obtain ⟨a, n, m, ha, hne, hn, ht, hm, hmem⟩ := hx
  exact ⟨a, n, m, ha, hne, hn, ht, hm, h _ hmem⟩

/-- `beginSendObject` rejects the object, or adds it. -/
theorem Inv.beginSendObject_eq (hs : Inv s) {path : Text} {format : UInt16}
    {parent : MtpObjectHandle} (hroom : s.mtpid.toNat + s.sendAdds path parent < 2 ^ 32) :
    s.beginSendObject path format parent = some (s, kInvalidObjectHandle) ∨
      ∃ t dir name s', s.mtpmap.find? parent.toInt32 = some (some t) ∧
        splitPath path = some (dir, name) ∧ (parent = 0 ∨ s.getNodePath t = some dir) ∧
        s.IsTree t parent ∧ s.mtpid.toNat + 1 < 2 ^ 32 ∧
        s.addNewNode (format = mtpFormatAssociation) t name = some s' ∧
        s.beginSendObject path format parent =
          some ({ s' with handleCurrentlySending := s'.mtpid }, s'.mtpid) := by
  unfold MtpStorage.sendAdds at hroom
  unfold MtpStorage.beginSendObject
  rcases hfind : s.mtpmap.find? parent.toInt32 with _ | p
  · exact Or.inl rfl
  · obtain ⟨t, node, tree, rfl, hread, htree, hkey⟩ := hs.mapped hfind
    rw [hfind] at hroom
    dsimp only at hroom ⊢
    rcases hsplit : splitPath path with _ | ⟨dir, name⟩
    · exact Or.inl rfl
    · rw [hsplit] at hroom
      dsimp only at hroom ⊢
      have hpath : ∃ treePath, (if parent = 0 then some dir else s.getNodePath t) =
          some treePath ∧ (treePath = dir → parent = 0 ∨ s.getNodePath t = some dir) := by
        by_cases hzero : parent = 0
        · exact ⟨dir, if_pos hzero, fun _ => Or.inl hzero⟩
        · obtain ⟨treePath, htreePath⟩ := hs.getNodePath hread
          exact ⟨treePath, by rw [if_neg hzero, htreePath], fun h => Or.inr (h ▸ htreePath)⟩
      obtain ⟨treePath, htreePath, hdir⟩ := hpath
      rw [htreePath] at hroom ⊢
      rw [Option.bind_some]
      by_cases hsame : dir ≠ treePath
      · rw [if_pos hsame]
        exact Or.inl rfl
      · have heq : treePath = dir := (not_not.mp hsame).symm
        rw [if_pos (congrArg some heq)] at hroom
        rw [if_neg hsame]
        have ht : s.IsTree t parent := ⟨node, tree, hread, htree, toInt32_inj hkey⟩
        obtain ⟨s', hadd, -⟩ := hs.addNewNode (format = mtpFormatAssociation) name ht hroom
        exact Or.inr ⟨t, dir, name, s', rfl, rfl, hdir heq, ht, hroom, hadd,
          by rw [hadd, Option.map_some]⟩

theorem Device.Sound.beginSendObject (hd : d.Sound) {path : Text} {format : UInt16}
    {parent : MtpObjectHandle} (hclear : d.Clear (.beginSendObject path format parent)) :
    ∃ d', d.step (.beginSendObject path format parent) = some d' ∧ d'.Sound := by
  obtain ⟨hroom, hnew⟩ := hclear
  rw [Device.step]
  obtain hreject | ⟨t, dir, name, s', hfind, hsplit, hdir, ht, hroom', hadd, hsend⟩ :=
    hd.inv.beginSendObject_eq hroom
  · rw [hreject, Option.map_some]
    exact ⟨_, rfl, by rwa [if_pos rfl]⟩
  · obtain ⟨hvalid, hfree⟩ := hnew t dir name hfind hsplit hdir
    obtain ⟨s₁, hadd₁, hs₁, hmtpid, -⟩ :=
      hd.inv.addNewNode (format = mtpFormatAssociation) name ht hroom'
    rw [hadd, Option.some.injEq] at hadd₁
    subst hadd₁
    have hgrows := hd.inv.grows_addNewNode ht hroom' hadd
    rw [hsend, Option.map_some]
    refine ⟨_, rfl, ?_⟩
    rw [if_neg (hmtpid ▸ hvalid)]
    have hsends : ∀ h ∈ s'.mtpid :: d.sends, h.toNat ≤ s'.mtpid.toNat := by
      intro h hh
      obtain rfl | hh := List.mem_cons.mp hh
      · exact le_rfl
      · exact (hd.issued h hh).trans hgrows.mtpid
    refine ⟨hs₁.congr rfl rfl (fun a => rfl) Or.inl, hgrows.unnamed hd.unnamed, ?_,
      fun a n _ _ hn => hn ▸ List.mem_cons_self, le_rfl, hsends, hd.plain⟩
    obtain ⟨hindex, hbrief⟩ := hd.inv.index_addNewNode ht hroom' hadd
      (s'.namesOf (s'.mtpid :: d.sends))
    change (s'.index (s'.namesOf (s'.mtpid :: d.sends))).Mirrors _ _
    rw [hindex]
    have hm := mirrors_of_reserved (s'.namesOf (s'.mtpid :: d.sends)) hd.mirrors
      fun t x hx => namesOf_mono (fun _ => List.mem_cons_of_mem _) (hgrows.namesOf hx)
    refine hm.add (hd.inv.fresh_next _) hfree fun _ => Or.inr ?_
    obtain ⟨node, tree, hread, htree, rfl⟩ := ht
    have hbrief_t : s'.brief t = some node.brief := by
      rw [hbrief, Function.update_of_ne (Heap.ne_next_of_read hread)]
      exact brief_eq_some.mpr ⟨node, hread, rfl⟩
    have hzero : d.storage.mtpid + 1 ≠ 0 := by
      intro h
      have hsucc := toNat_succ hroom'
      rw [h] at hsucc
      cases hsucc
    exact ⟨d.storage.heap.next, _, node.brief, by rw [hbrief, Function.update_self], hzero, rfl,
      hbrief_t, rfl, by rw [hmtpid]; exact List.mem_cons_self⟩

theorem Files.names_eq_some {files : Files} {p : List Text} {c : Set Text} :
    files.names p = some c ↔ ∃ content, files p = some content ∧ { x | x ∈ content.names } = c :=
  Option.map_eq_some_iff

theorem Device.Sound.endSendObject (hd : d.Sound) {handle : MtpObjectHandle}
    (hclear : d.Clear (.endSendObject handle)) :
    ∃ d', d.step (.endSendObject handle) = some d' ∧ d'.Sound := by
  have hmirrors : (d.storage.index (d.storage.namesOf (d.sends.filter fun h => h ≠ handle))).Mirrors
      d.files.names (changes d.pending) := by
    refine hd.mirrors.release _ fun t p x c hread hstays hat hc hlast hres hfree => ?_
    obtain ⟨a, n, m, ha, hne, hx, ht, hm, hmem⟩ := hres
    have hhandle : n.handle = handle := by
      by_contra hother
      exact hfree ⟨a, n, m, ha, hne, hx, ht, hm,
        List.mem_filter.mpr ⟨hmem, decide_eq_true hother⟩⟩
    obtain ⟨content, hcontent, rfl⟩ := Files.names_eq_some.mp hc
    refine iff_of_true ⟨a, n, m, ha, hne, hx, ht, hm⟩ ?_
    exact hclear t x p content ⟨a, n, m, ha, hne, hx, ht, hm, List.mem_singleton.mpr hhandle⟩ hread
      hstays hat hcontent (hhandle ▸ hmem) hlast
  have hissued : ∀ h ∈ d.sends.filter fun h => h ≠ handle,
      h.toNat ≤ d.storage.mtpid.toNat := fun h hh => hd.issued h (List.mem_of_mem_filter hh)
  rw [Device.step, MtpStorage.endSendObject]
  obtain ⟨a, node, hfind, -⟩ | ⟨hfind, hnone⟩ := hd.inv.findNode handle
  · rw [hfind]
    refine ⟨_, rfl, hd.inv.congr rfl rfl (fun a => rfl) Or.inl, hd.unnamed, hmirrors,
      fun b n _ hne hn => absurd hn hne, Nat.zero_le _, hissued, hd.plain⟩
  · rw [hfind]
    refine ⟨_, rfl, hd.inv, hd.unnamed, hmirrors, fun b n hb hne hn => ?_, hd.current, hissued,
      hd.plain⟩
    obtain ⟨child, hchild, rfl⟩ := brief_eq_some.mp hb
    refine List.mem_filter.mpr ⟨hd.sending b _ hb hne hn, decide_eq_true fun h => ?_⟩
    exact hne (h.trans (hnone b child hchild h))

/-! ### Renaming -/

theorem changes_append (events events' : List InotifyEvent) :
    changes (events ++ events') = changes events ++ changes events' :=
  List.filterMap_append

theorem Inv.renameObject_failed (hs : Inv s) (handle : MtpObjectHandle) (newName : Text) :
    s.renameObject handle newName false = some s := by
  rw [MtpStorage.renameObject]
  by_cases hroot : handle = mtpParentRoot
  · rw [if_pos hroot]
  · rw [if_neg hroot]
    obtain ⟨a, node, hfind, hread, -⟩ | ⟨hfind, -⟩ := hs.findNode handle
    · obtain ⟨path, hpath⟩ := hs.getNodePath hread
      rw [hfind]
      dsimp only
      rw [hpath, Option.bind_some, hread, Option.map_some, if_neg Bool.false_ne_true]
    · rw [hfind]

/-- The index when the file of a node has been renamed and the node with it. -/
theorem Device.Sound.mirrors_renamed (hd : d.Sound) {a t : ℕ} {n : Brief} {newName : Text}
    {p : List Text} {files : Files} {events : List InotifyEvent}
    (he : d.index.entry t n.name a) (hp : d.index.At t p)
    (hfree : ∀ b, b ≠ a → ¬d.index.entry t newName b)
    (hdel : (d.index.read a ∨ ∃ y b, d.index.entry a y b) → ∀ c ∈ changes d.pending,
      c.created = false → d.index.watch c.watch = some t → c.name ≠ n.name)
    (hfiles : RenamesFile d.index t p n.name newName d.files files events) :
    ((reserving d.index fun t' y => t' = t ∧ (y = n.name ∨ y = newName)).rename a newName).Mirrors
      files.names (changes (d.pending ++ events)) := by
  have hreserved : (reserving d.index fun t' y => t' = t ∧ (y = n.name ∨ y = newName)).Mirrors
      d.files.names (changes d.pending) :=
    mirrors_of_reserved _ hd.mirrors fun _ _ => Or.inl
  rw [changes_append]
  refine hreserved.rename (hd.inv.forest _) he hfree hdel
    (fun _ => ⟨Or.inr ⟨rfl, Or.inl rfl⟩, Or.inr ⟨rfl, Or.inr rfl⟩⟩)
    (hp.mono (fun _ hr => hr) fun _ _ _ he => he) (fun rest => ?_) (fun p' h h' hne => ?_)
    (fun c _ hc => ?_) hfiles.others
  · rw [Files.names, Files.names, hfiles.moved]
  · rw [Files.names, Files.names, hfiles.same p' h h' hne]
  · obtain ⟨content, hcontent, rfl⟩ := Files.names_eq_some.mp hc
    obtain ⟨-, content', -, hcontent', -⟩ := hfiles.content
    exact ⟨_, Files.names_eq_some.mpr ⟨content', hcontent', rfl⟩,
      hfiles.reports content content' hcontent hcontent'⟩

theorem Device.Sound.renameObject (hd : d.Sound) {handle : MtpObjectHandle} {newName : Text}
    {files : Files} {events : List InotifyEvent}
    (hallows : d.Allows (.renameObject handle newName (some (files, events))))
    (hclear : d.Clear (.renameObject handle newName (some (files, events)))) :
    ∃ d', d.step (.renameObject handle newName (some (files, events))) = some d' ∧ d'.Sound := by
  obtain ⟨hplain, hroot, a, n, t, p, ha, hhandle, he, hp, hfiles⟩ := hallows
  obtain ⟨hname, hclear⟩ := hclear
  obtain ⟨hfree, hdel⟩ := hclear a n t ha hhandle he
  replace hfiles := hfiles hname
  have hrenamed := hd.mirrors_renamed he hp hfree hdel hfiles
  obtain ⟨node, hread, rfl⟩ := brief_eq_some.mp ha
  have hne : handle ≠ 0 := by
    obtain ⟨n', -, ha', hne, -⟩ := he
    rw [ha, Option.some.injEq] at ha'
    subst ha'
    exact hhandle ▸ hne
  have hbrief := brief_rename (s := d.storage) hread newName
  rw [Device.step, hd.inv.renameObject_eq hread hhandle hne hroot newName, Option.map_some]
  obtain ⟨s', hs', hinv⟩ := hd.inv.renameObject handle newName true
  rw [hd.inv.renameObject_eq hread hhandle hne hroot newName, Option.some.injEq] at hs'
  subst hs'
  -- every node is what it was, but for the name of one
  have hback : ∀ {b m}, MtpStorage.brief
      { d.storage with heap := d.storage.heap.write a { node with name := newName } } b = some m →
      ∃ m', d.storage.brief b = some m' ∧ m'.handle = m.handle ∧ (b ≠ a → m' = m) := by
    intro b m hb
    rw [hbrief] at hb
    by_cases hba : b = a
    · subst hba
      rw [Function.update_self, Option.some.injEq] at hb
      exact ⟨node.brief, ha, by rw [← hb], fun h => absurd rfl h⟩
    · rw [Function.update_of_ne hba] at hb
      exact ⟨m, hb, rfl, fun _ => rfl⟩
  refine ⟨_, rfl, hinv, fun r m hr hzero => ?_, ?_, fun b m hb hne hm => ?_, hd.current, hd.issued,
    List.forall_mem_append.mpr ⟨hd.plain, hplain⟩⟩
  · obtain ⟨m', hr', hh, hsame⟩ := hback hr
    have hra : r ≠ a := by
      rintro rfl
      rw [ha, Option.some.injEq] at hr'
      subst hr'
      exact hne (hhandle.symm.trans (hh.trans hzero))
    rw [← hsame hra]
    exact hd.unnamed r m' hr' (hh.trans hzero)
  · rw [Device.index, index_rename hread]
    refine hrenamed.release _ fun t' p' y c hread' hstays hat hc hlast hres hnot => ?_
    by_cases hown : t' = t ∧ (y = node.brief.name ∨ y = newName)
    · obtain ⟨rfl, hy⟩ := hown
      have hpath : p' = p := by
        obtain ⟨p₁, rest, hp₁, -, h⟩ | ⟨h, -⟩ :=
          hd.mirrors.at_of_rename (hd.inv.forest _) he hfree
            (hat.mono (fun _ hr => hr) fun _ _ _ h => h)
        · exact absurd (hp₁.eq (hd.inv.forest _) h) (by simp)
        · exact h.eq (hd.inv.forest _) hp
      subst hpath
      obtain ⟨content₀, content', -, hcontent', hnames⟩ := hfiles.content
      obtain ⟨content, hcontent, rfl⟩ := Files.names_eq_some.mp hc
      rw [hcontent', Option.some.injEq] at hcontent
      subst hcontent
      rw [Set.mem_ofPred_eq, hnames]
      by_cases hynew : y = newName
      · exact iff_of_true ⟨a, Or.inr ⟨rfl, hynew, _, he⟩⟩ (Or.inl hynew)
      · have hyold := hy.resolve_right hynew
        refine iff_of_false ?_ ?_
        · rintro ⟨b, ⟨hba, hb⟩ | ⟨-, hy', -⟩⟩
          · exact hba (hd.mirrors.unique (hyold ▸ hb) he)
          · exact hynew hy'
        · rintro (h | ⟨-, h⟩)
          · exact hynew h
          · exact h hyold
    · exfalso
      obtain ⟨b, m, mt, hb, hmne, hy, ht', hparent, hmem⟩ := hres.resolve_right hown
      have hba : b ≠ a := by
        rintro rfl
        obtain ⟨rfl, rfl⟩ := (hd.inv.forest (d.storage.namesOf d.sends)).owner
          ⟨m, mt, hb, hmne, hy, ht', hparent⟩ he
        exact hown ⟨rfl, Or.inl rfl⟩
      refine hnot ⟨b, m, if t' = a then { mt with name := newName } else mt, ?_, hmne, hy, ?_, ?_,
        hmem⟩
      · rw [hbrief, Function.update_of_ne hba, hb]
      · rw [hbrief]
        by_cases hta : t' = a
        · subst hta
          rw [ha, Option.some.injEq] at ht'
          rw [Function.update_self, if_pos rfl, ht']
        · rw [Function.update_of_ne hta, if_neg hta, ht']
      · split_ifs <;> exact hparent
  · obtain ⟨m', hb', hh, -⟩ := hback hb
    rw [← hh] at hne hm ⊢
    exact hd.sending b m' hb' hne hm

/-! ### Deleting -/

theorem deleteNode_sending {t : ℕ} {handle : MtpObjectHandle}
    (h : s.deleteNode t handle = some s') :
    s'.handleCurrentlySending = s.handleCurrentlySending := by
  obtain ⟨⟨node, tree⟩, -, h⟩ := Option.bind_eq_some_iff.mp h
  dsimp only at h
  split at h
  · cases h
    rfl
  · obtain ⟨heap, -, h⟩ := Option.bind_eq_some_iff.mp h
    obtain ⟨p, -, rfl⟩ := Option.map_eq_some_iff.mp h
    rfl

theorem deleteFile_sending {handle : MtpObjectHandle} (h : s.deleteFile handle = some s') :
    s'.handleCurrentlySending = s.handleCurrentlySending := by
  rw [MtpStorage.deleteFile] at h
  split at h
  · cases h
  · cases h
    rfl
  · obtain ⟨node, -, h⟩ := Option.bind_eq_some_iff.mp h
    split at h
    · cases h
      rfl
    · cases h
      rfl
    · exact (deleteNode_sending h :)

/-- A live node with a handle is the one that is reserved by it. -/
theorem Inv.entry_of_namesOf (hs : Inv s) {R : ℕ → Text → Prop} {a t : ℕ} {node : Node} {x : Text}
    (hread : s.heap.read a = some node) (h : s.namesOf [node.handle] t x) :
    (s.index R).entry t x a := by
  obtain ⟨b, n, m, hb, hne, hx, ht, hm, hmem⟩ := h
  have hba : b = a := hs.brief_unique hb (brief_eq_some.mpr ⟨node, hread, rfl⟩)
    (List.mem_singleton.mp hmem)
  subst hba
  exact ⟨n, m, hb, hne, hx, ht, hm⟩

/-- The names of the nodes that are left stay reserved. -/
theorem namesOf_remaining {R : ℕ → Text → Prop} {a : ℕ} {W : Int32 → Option ℕ}
    (hindex : s'.index R = (s.index R).remove a W)
    (hback : ∀ b n, s'.brief b = some n → s.brief b = some n) {sends : List MtpObjectHandle}
    {t : ℕ} {x : Text} (h : s.namesOf sends t x) (hta : t ≠ a) :
    s'.namesOf sends t x ∨ (s.index R).entry t x a := by
  obtain ⟨b, n, m, hb, hne, hx, ht, hm, hmem⟩ := h
  by_cases hba : b = a
  · subst hba
    exact Or.inr ⟨n, m, hb, hne, hx, ht, hm⟩
  · have hentry : (s'.index R).entry t x b := by
      rw [hindex]
      exact ⟨⟨n, m, hb, hne, hx, ht, hm⟩, hta, hba⟩
    obtain ⟨n', m', hb', hne', hx', ht', hm'⟩ := hentry
    have hn := hback b n' hb'
    rw [hb, Option.some.injEq] at hn
    exact Or.inl ⟨b, n', m', hb', hne', hx', ht', hm', hn ▸ hmem⟩

theorem Device.Sound.deleteObject_found (hd : d.Sound) {handle : MtpObjectHandle} {files : Files}
    {events : List InotifyEvent} (hallows : d.Allows (.deleteObject handle files events))
    (hclear : d.Clear (.deleteObject handle files events)) {a : ℕ} {node : Node}
    (hread : d.storage.heap.read a = some node) (hhandle : node.handle = handle)
    (hne : handle ≠ 0) :
    ∃ s, d.storage.deleteFile handle = some s ∧ s.mtpid = d.storage.mtpid ∧
      (∀ b n, s.brief b = some n → d.storage.brief b = some n) ∧
      (s.index (s.namesOf d.sends)).Mirrors files.names (changes (d.pending ++ events)) := by
  obtain ⟨hsafe, hgone⟩ := hclear
  let R : ℕ → Text → Prop :=
    fun t x => d.storage.namesOf d.sends t x ∨ d.storage.namesOf [handle] t x
  obtain ⟨s, hdelete, hwatch, hmtpid, hback, hindex, hleaf, hunwatched⟩ :=
    hd.inv.index_deleteFile (R := R) hsafe hread hhandle hne
  have hnode : node.brief.handle ≠ 0 := by
    change node.handle ≠ 0
    rwa [hhandle]
  obtain ⟨t₀, parent, tree, ht₀, htree, hparent, -⟩ := hd.inv.owned hread hnode
  have he : (d.storage.index R).entry t₀ node.name a :=
    ⟨node.brief, parent.brief, brief_eq_some.mpr ⟨node, hread, rfl⟩, hnode, rfl,
      brief_eq_some.mpr ⟨parent, ht₀, rfl⟩, hparent⟩
  have hreserved : (d.storage.index R).Mirrors d.files.names (changes d.pending) :=
    mirrors_of_reserved _ hd.mirrors fun _ _ => Or.inl
  have hremoved : (s.index R).Mirrors d.files.names (changes d.pending) := by
    rw [hindex]
    refine hreserved.remove (hd.inv.forest R) he hleaf (fun _ _ _ => Iff.rfl) hunwatched
      fun _ => Or.inr (Or.inr ?_)
    exact ⟨a, node.brief, parent.brief, brief_eq_some.mpr ⟨node, hread, rfl⟩, hnode, rfl,
      brief_eq_some.mpr ⟨parent, ht₀, rfl⟩, hparent, List.mem_singleton.mpr hhandle⟩
  have hentry : ∀ {t x b}, (d.storage.index R).entry t x b → t ≠ a → b ≠ a →
      (s.index R).entry t x b := by
    intro t x b hb hta hba
    rw [hindex]
    exact ⟨hb, hta, hba⟩
  -- the reserved names are those of the nodes that are left, and of the one that goes
  have hnames : (s.index fun t x => s.namesOf d.sends t x ∨ d.storage.namesOf [handle] t x).Mirrors
      d.files.names (changes d.pending) := by
    refine hremoved.release _ fun t _ x _ hread' _ _ _ _ hres hfree => ?_
    rw [not_or] at hfree
    rw [hindex] at hread'
    obtain h | hentry' := namesOf_remaining hindex hback (hres.resolve_right hfree.2) hread'.2
    · exact absurd h hfree.1
    · obtain ⟨n, m, hn, hnne, hx, ht, hm⟩ := hentry'
      have hmem : n.handle ∈ [handle] := by
        rw [MtpStorage.brief, hread, Option.map_some, Option.some.injEq] at hn
        exact List.mem_singleton.mpr (hn ▸ hhandle)
      exact absurd ⟨a, n, m, hn, hnne, hx, ht, hm, hmem⟩ hfree.2
  refine ⟨s, hdelete, hmtpid, hback, ?_⟩
  rw [changes_append]
  refine (hnames.change (hallows.2 s hdelete)).release _
    fun t p x c hread' hstays hat hc hlast hres hfree => ?_
  have hown := hres.resolve_left hfree
  obtain ⟨content, hcontent, rfl⟩ := Files.names_eq_some.mp hc
  have hread₁ : ((d.storage.index R).remove a d.storage.inotifymap.find?).read t := hindex ▸ hread'
  have hstays₁ : ¬d.index.Going (changes d.pending ++ changes events) t := by
    intro h
    have h' : (d.storage.index R).Going (changes d.pending ++ changes events) t :=
      h.mono (fun _ hc => hc) (fun _ _ _ hw => hw) fun _ _ _ hb => hb
    obtain h | ⟨y, h⟩ | h := h'.remove (W := d.storage.inotifymap.find?)
      (fun y b hb => (hleaf y b hb).2) fun _ _ _ => Iff.rfl
    · exact hread₁.2 h
    · exact (hleaf y t h).1 hread₁.1
    · refine hstays (h.mono (fun _ hc => hc) (fun _ _ _ hw => ?_) fun _ _ _ hb => ?_)
      · rw [MtpStorage.index, hwatch]
        exact hw
      · exact hentry hb.1 hb.2.1 hb.2.2
  have hat₁ : d.index.At t p := by
    have hat' : ((d.storage.index R).remove a d.storage.inotifymap.find?).At t p := by
      rw [← hindex]
      exact hat.mono (fun _ hr => hr) fun _ _ _ hb => hb
    exact hat'.mono (fun _ hr => hr) fun _ _ _ hb => hb.1
  have hlast₁ : d.index.lastChange t x (changes d.pending ++ changes events) = none := by
    rw [← hlast]
    refine (Index.lastChange_of_watch ?_ t x).symm
    exact congrArg OrderedMap.find? hwatch
  refine iff_of_false ?_ (hgone t x p content hown hread₁.1 hstays₁ hat₁ hcontent hlast₁)
  rintro ⟨b, hb⟩
  have hb' : ((d.storage.index R).remove a d.storage.inotifymap.find?).entry t x b := hindex ▸ hb
  have ha : d.index.entry t x a := hd.inv.entry_of_namesOf hread (hhandle ▸ hown)
  exact hb'.2.2 (hd.mirrors.unique hb'.1 ha)

end BootableRecovery.Mtp
