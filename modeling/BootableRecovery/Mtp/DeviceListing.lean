import BootableRecovery.Mtp.DeviceEvents

namespace BootableRecovery.Mtp
open Lib

/-! The lists of a device that is sound, over whole runs. -/

variable {d : Device} {s : MtpStorage}

/-! ### Lists -/

theorem forall₂_of_mapM {α β : Type} {f : α → Option β} {l : List α} {list : List β}
    (h : l.mapM f = some list) : List.Forall₂ (fun a b => f a = some b) l list := by
  induction l generalizing list with
  | nil =>
    rw [List.mapM_nil] at h
    cases h
    exact List.Forall₂.nil
  | cons a l ih =>
    rw [List.mapM_cons] at h
    obtain ⟨b, hb, h⟩ := Option.bind_eq_some_iff.mp h
    obtain ⟨list', hlist', h⟩ := Option.bind_eq_some_iff.mp h
    cases h
    exact List.Forall₂.cons hb (ih hlist')

/-- The name of an entry. -/
def entryName (heap : Heap Node) (e : MtpObjectHandle × ℕ) : Text :=
  ((heap.read e.2).map Node.name).getD []

theorem Inv.entryName_spec (hs : Inv s) {t : ℕ} {node : Node} {tree : Tree}
    (hread : s.heap.read t = some node) (htree : node.tree = some tree) {R : ℕ → Text → Prop}
    {e : MtpObjectHandle × ℕ} (he : e ∈ tree.entries.entries) :
    ∃ child, s.heap.read e.2 = some child ∧ child.handle = e.1 ∧ child.name = entryName s.heap e ∧
      (s.index R).entry t (entryName s.heap e) e.2 := by
  have hfind := tree.entries.mem_entries_iff.mp he
  obtain ⟨child, hchild, hh, -, -⟩ := hs.entry hread htree hfind
  have hname : child.name = entryName s.heap e := by
    rw [entryName, hchild]
    rfl
  refine ⟨child, hchild, hh, hname, (hs.entry_iff_find hread htree).mpr ⟨child, hchild, hname, ?_⟩⟩
  rw [hh]
  exact hfind

/-- The list of a directory whose entries have the names of its content, each once. -/
theorem Inv.mirrorsContent (hs : Inv s) {t : ℕ} {node : Node} {tree : Tree}
    (hread : s.heap.read t = some node) (htree : node.tree = some tree) {R : ℕ → Text → Prop}
    {list : List MtpObjectHandle} (hids : getmtpids s.heap tree = some list) {c : Content}
    (hunique : ∀ {x a b}, (s.index R).entry t x a → (s.index R).entry t x b → a = b)
    (hlisted : ∀ x, (∃ a, (s.index R).entry t x a) ↔ x ∈ c.names) : MirrorsContent s list c := by
  refine ⟨tree.entries.entries.map (entryName s.heap), ?_, ?_⟩
  · refine (List.perm_ext_iff_of_nodup ?_ c.nodup).mpr fun x => ?_
    · refine List.Nodup.map_on (fun e he e' he' hname => ?_)
        (tree.entries.sorted.imp fun h heq => h.ne (congrArg Prod.fst heq))
      obtain ⟨child, hchild, hh, -, hentry⟩ := hs.entryName_spec hread htree (R := R) he
      obtain ⟨child', hchild', hh', -, hentry'⟩ := hs.entryName_spec hread htree (R := R) he'
      have haddr : e.2 = e'.2 := hunique hentry (hname ▸ hentry')
      rw [← haddr, hchild, Option.some.injEq] at hchild'
      exact Prod.ext (by rw [← hh, ← hh', hchild']) haddr
    · rw [← Content.names, ← hlisted, List.mem_map]
      constructor
      · rintro ⟨e, he, rfl⟩
        obtain ⟨-, -, -, -, hentry⟩ := hs.entryName_spec hread htree (R := R) he
        exact ⟨e.2, hentry⟩
      · rintro ⟨a, ha⟩
        obtain ⟨child, hchild, rfl, hfind⟩ := (hs.entry_iff_find hread htree).mp ha
        refine ⟨(child.handle, a), tree.entries.mem_entries_iff.mpr hfind, ?_⟩
        rw [entryName, hchild]
        rfl
  · rw [List.forall₂_map_right_iff]
    have hall := (List.forall₂_and_left _ _).mpr
      ⟨fun e (he : e ∈ tree.entries.entries) => he, forall₂_of_mapM hids⟩
    apply List.Forall₂.flip
    refine hall.imp fun e handle h => ?_
    obtain ⟨he, hhandle⟩ := h
    obtain ⟨child, hchild, -, hname, -⟩ := hs.entryName_spec hread htree (R := R) he
    rw [hchild, Option.map_some, Option.some.injEq] at hhandle
    exact ⟨e.2, child, hchild, hhandle, hname⟩

theorem Device.Sound.listsTruly (hd : d.Sound) {st : DeviceStep} (hallows : d.Allows st)
    (hclear : d.Clear st) : d.ListsTruly st := by
  cases st with
  | getObjectList parent fs =>
    intro hpending hsends t hdir
    obtain ⟨s, list, node, tree, hlist, hsound, hread, htree, hids, hgrows, hdone⟩ :=
      hd.listing hallows hclear hdir
    obtain ⟨t', node₀, -, heq, hlive, -⟩ := hd.inv.mapped hdir
    cases heq
    obtain ⟨p, hp⟩ := hd.inv.exists_at (R := d.storage.namesOf d.sends) hlive
    refine ⟨p, hp, fun c hc hreadable => ⟨s, list, hlist, ?_⟩⟩
    have hmark := (index_read_iff (R := s.namesOf d.sends) hread htree).mpr (hdone p hp hreadable)
    have hm : (s.index (s.namesOf d.sends)).Mirrors d.files.names (changes d.pending) :=
      hsound.mirrors
    rw [hpending] at hm
    obtain ⟨names, hnames, hagrees⟩ := hm.agrees hmark Index.not_going_nil
      ((hgrows.at hp).mono (fun _ hr => hr) fun _ _ _ he => he)
    obtain ⟨content, hcontent, rfl⟩ := Files.names_eq_some.mp hnames
    rw [hc, Option.some.injEq] at hcontent
    subst hcontent
    refine hsound.inv.mirrorsContent hread htree hids hm.unique fun x => ?_
    refine (hagrees x).listed rfl ?_
    rintro ⟨a, n, m, -, -, -, -, -, hmem⟩
    rw [hsends] at hmem
    exact absurd hmem List.not_mem_nil
  | beginSendObject path format parent => trivial
  | endSendObject handle => trivial
  | renameObject handle newName renamed => trivial
  | deleteObject handle files events => trivial
  | inotifyEvent => trivial
  | change files events => trivial

/-! ### The start -/

/-- The root before it is read: nothing is listed, and nothing waits. -/
theorem Inv.mirrors_withRoot (hs : Inv s) (inotifyInit : Int32) (hroot : s.mtpmap.find? 0 = none)
    (hwatches : s.inotifymap = OrderedMap.empty) (R : ℕ → Text → Prop)
    (files : List Text → Option (Set Text)) (q : List (Change Int32 Text)) :
    ((s.withRoot inotifyInit).index R).Mirrors files q ∧
      ∀ a n, (s.withRoot inotifyInit).brief a = some n → a = s.heap.next ∧ n = freshRoot.brief := by
  have hbrief : ∀ a n, (s.withRoot inotifyInit).brief a = some n →
      a = s.heap.next ∧ n = freshRoot.brief := by
    intro a n ha
    obtain ⟨node, hread, rfl⟩ := brief_eq_some.mp ha
    by_cases hnext : a = s.heap.next
    · subst hnext
      have hnew : (s.withRoot inotifyInit).heap.read s.heap.next = some freshRoot :=
        Heap.read_alloc_next
      rw [hnew, Option.some.injEq] at hread
      exact ⟨rfl, hread ▸ rfl⟩
    · have hold : (s.withRoot inotifyInit).heap.read a = s.heap.read a :=
        Heap.read_alloc_of_ne hnext
      rw [hold, hs.read_eq_none hroot] at hread
      cases hread
  refine ⟨⟨?_, fun {w t} hw => ?_, fun {t p} hread => ?_⟩, hbrief⟩
  · rintro t x a b ⟨n, m, ha, hne, -⟩
    obtain ⟨-, rfl⟩ := hbrief a n ha
    exact absurd rfl hne
  · have hw' : s.inotifymap.find? w = some t := hw
    rw [hwatches] at hw'
    cases hw'
  · obtain ⟨n, hn, hr⟩ := hread
    obtain ⟨-, rfl⟩ := hbrief t n hn
    cases hr

theorem Device.sound_start {mFilePath : Text} (useMutex : Bool) {mtpid : MtpObjectHandle}
    (inotifyInit : Int32) {fs : Text → Directory} {files : Files}
    (hanswers : Answers (files []) (fs mFilePath).items)
    (hroom : mtpid.toNat + (fs mFilePath).added < 2 ^ 32) :
    ∃ d, Device.start mFilePath useMutex mtpid inotifyInit fs files = some d ∧ d.Sound := by
  let s₀ := MtpStorage.new mFilePath useMutex mtpid
  have hs₀ : Inv s₀ := inv_new mFilePath useMutex mtpid
  have hs₁ : Inv (s₀.withRoot inotifyInit) := hs₀.withRoot inotifyInit rfl
  obtain ⟨s, hcreate, hs⟩ := hs₀.createDB fs inotifyInit rfl hroom
  obtain ⟨hm, hbrief⟩ := hs₀.mirrors_withRoot inotifyInit rfl rfl
    ((s₀.withRoot inotifyInit).namesOf []) files.names []
  have hunnamed : (s₀.withRoot inotifyInit).RootUnnamed := by
    intro r n hr _
    rw [(hbrief r n hr).2]
    rfl
  have hunread : ¬((s₀.withRoot inotifyInit).index ((s₀.withRoot inotifyInit).namesOf [])).read
      s₀.heap.next := by
    rintro ⟨n, hn, hr⟩
    obtain ⟨-, rfl⟩ := hbrief _ n hn
    cases hr
  have hnoEntry : ∀ t x a,
      ¬((s₀.withRoot inotifyInit).index ((s₀.withRoot inotifyInit).namesOf [])).entry t x a := by
    rintro t x a ⟨n, m, ha, hne, -⟩
    obtain ⟨-, rfl⟩ := hbrief a n ha
    exact absurd rfl hne
  have hroot : ((s₀.withRoot inotifyInit).index ((s₀.withRoot inotifyInit).namesOf [])).At
      s₀.heap.next [] :=
    Index.At.root ⟨freshRoot.brief, brief_eq_some.mpr ⟨freshRoot, Heap.read_alloc_next, rfl⟩, rfl⟩
  have hitems : ∀ items, (fs mFilePath).items = some items → (addedNames items).Nodup ∧
      ∀ x ∈ addedNames items, ∀ a,
        ¬((s₀.withRoot inotifyInit).index ((s₀.withRoot inotifyInit).namesOf [])).entry
          s₀.heap.next x a := by
    intro items h
    rw [h] at hanswers
    exact ⟨hanswers.nodup, fun x _ a => hnoEntry _ x a⟩
  rw [createDB_eq] at hcreate
  obtain ⟨hmirrors, hgrows, -⟩ :=
    hs₁.mirrors_readDir hunnamed (withRoot_isTree s₀ inotifyInit) hroot
    hroom hm hunread hitems (fun items h hwhole => by
      rw [h] at hanswers
      obtain ⟨c, hc, hx⟩ := hanswers.whole hwhole
      refine ⟨fun x a he => absurd he (hnoEntry _ x a), { x | x ∈ c.names },
        Files.names_eq_some.mpr ⟨c, hc, rfl⟩, hx, fun w _ => ⟨fun t' ht' => ?_, fun x k hk => ?_⟩⟩
      · have hw : s₀.inotifymap.find? w = some t' := ht'
        cases hw
      · cases hk) hcreate
  have hbefore : Device.Sound ⟨s₀.withRoot inotifyInit, files, [], []⟩ := by
    refine ⟨hs₁, hunnamed, hm, fun a n ha hne _ => ?_, Nat.zero_le _,
      fun h hh => absurd hh List.not_mem_nil, fun e he => absurd he List.not_mem_nil⟩
    obtain ⟨-, rfl⟩ := hbrief a n ha
    exact absurd rfl hne
  refine ⟨⟨s, files, [], []⟩, ?_, hbefore.grow hs hgrows hmirrors⟩
  have hstart : s₀.createDB fs inotifyInit = some s := (createDB_eq s₀ fs inotifyInit).trans hcreate
  rw [Device.start, hstart, Option.map_some]

/-! ### Runs -/

theorem Device.Sound.listsTrulyRun (hd : d.Sound) {sts : List DeviceStep}
    (hallows : AllowedRun d sts) (hclear : ClearRun d sts) : ListsTrulyRun d sts := by
  induction sts generalizing d with
  | nil => trivial
  | cons st sts ih =>
    obtain ⟨hallowed, hrest⟩ := hallows
    obtain ⟨hcleared, hclearRest⟩ := hclear
    obtain ⟨d', hstep, hd'⟩ := hd.step hallowed hcleared
    exact ⟨hd.listsTruly hallowed hcleared, d', hstep,
      ih hd' (hrest d' hstep) (hclearRest d' hstep)⟩

/-- In a run of clear steps every list of a directory, taken while no event waits and nothing is
being sent, shows the entries that are there, each once. -/
theorem lists_mirror_directory {mFilePath : Text} (useMutex : Bool) {mtpid : MtpObjectHandle}
    (inotifyInit : Int32) {fs : Text → Directory} {files : Files} (sts : List DeviceStep)
    (hanswers : Answers (files []) (fs mFilePath).items)
    (hroom : mtpid.toNat + (fs mFilePath).added < 2 ^ 32) :
    ∃ d, Device.start mFilePath useMutex mtpid inotifyInit fs files = some d ∧
      (AllowedRun d sts → ClearRun d sts → ListsTrulyRun d sts) := by
  obtain ⟨d, hstart, hd⟩ := Device.sound_start useMutex inotifyInit hanswers hroom
  exact ⟨d, hstart, hd.listsTrulyRun⟩

/-- A directory that is there, with its path. -/
theorem Device.Sound.at_eq (hd : d.Sound) {parent : MtpObjectHandle} {t t' : ℕ} {p p' : List Text}
    (hdir : d.storage.directory parent t) (hat : d.index.At t p)
    (hdir' : d.storage.directory parent t') (hat' : d.index.At t' p') : t' = t ∧ p' = p := by
  unfold MtpStorage.directory at hdir hdir'
  rw [hdir, Option.some.injEq, Option.some.injEq] at hdir'
  subst hdir'
  exact ⟨rfl, hat'.eq (hd.inv.forest _) hat⟩

theorem watchTells_none {I : Index ℕ Int32 Text} {q : List (Change Int32 Text)} {c : Set Text} :
    WatchTells I q none c := by
  intro w' h
  cases h

theorem answers_whole {c : Content} {items : List (Text × Option UInt32)}
    (h : ListsContent items c) : Answers (some c) (some items) :=
  ⟨c, items, rfl, h, Or.inl rfl⟩

/-! ### A storage without folders -/

/-- Only the root, which is the first node, has been read. -/
def Device.onlyRoot (d : Device) : Bool :=
  (List.range d.storage.heap.next).all fun a => (d.storage.brief a).all fun n =>
    decide (n.handle = 0 ↔ a = 0) && decide (n.read = true → a = 0)

/-- No node has a name. -/
def Device.lacks (d : Device) (name : Text) : Bool :=
  (List.range d.storage.heap.next).all fun a => (d.storage.brief a).all fun n => n.name ≠ name

/-- The file of an object is there. -/
def Device.arrived (d : Device) (handle : MtpObjectHandle) (c : Content) : Bool :=
  (List.range d.storage.heap.next).all fun a => (d.storage.brief a).all fun n =>
    n.handle ≠ handle || c.names.contains n.name

/-- A file is new in the root, and the event tells it. -/
def Device.announces (d : Device) (files : Files) (e : InotifyEvent) : Bool :=
  '/' ∉ e.name && e.change.any fun change =>
    (d.files []).any fun c => (files []).any fun c' =>
      change.created && d.storage.inotifymap.find? change.watch = some 0 &&
        c'.names = c.names ++ [change.name]

def EventAction.keeps : EventAction → Bool
  | .delete _ _ => false
  | _ => true

/-- Steps with files in the root that come from the host or by themselves. -/
def Device.grows (d : Device) : DeviceStep → Bool
  | .getObjectList parent fs =>
    d.storage.mtpmap.find? (if parent = mtpParentRoot then 0 else parent).toInt32 = some (some 0) &&
      (d.storage.brief 0).any Brief.read &&
      d.storage.mtpid.toNat + d.storage.listAdds fs parent < 2 ^ 32
  | .beginSendObject path _ parent =>
    d.storage.mtpid.toNat + d.storage.sendAdds path parent < 2 ^ 32 &&
      d.storage.mtpid + 1 ≠ kInvalidObjectHandle && (splitPath path).all fun p => d.lacks p.2
  | .endSendObject handle => (d.files []).all (d.arrived handle)
  | .inotifyEvent => d.pending.head?.all fun e =>
    e.change.all Change.created && d.storage.mtpid.toNat + 1 < 2 ^ 32 &&
      (d.storage.eventAction e).all EventAction.keeps
  | .change files [e] => d.announces files e
  | _ => false

def Device.growsRun (d : Device) : List DeviceStep → Bool
  | [] => true
  | st :: sts => d.onlyRoot && d.grows st && (d.step st).all fun d' => d'.growsRun sts

section
variable {d : Device}

theorem brief_lt {s : MtpStorage} {a : ℕ} {n : Brief} (h : s.brief a = some n) :
    a < s.heap.next := by
  obtain ⟨node, hread, -⟩ := brief_eq_some.mp h
  by_contra hle
  have hfresh := s.heap.fresh a (not_lt.mp hle)
  rw [Heap.read, hfresh] at hread
  cases hread

/-- What is checked of all nodes holds of each. -/
theorem of_all_briefs {s : MtpStorage} {check : ℕ → Brief → Bool}
    (h : (List.range s.heap.next).all (fun a => (s.brief a).all (check a)) = true) {a : ℕ}
    {n : Brief} (ha : s.brief a = some n) : check a n = true := by
  have hall := List.all_eq_true.mp h a (List.mem_range.mpr (brief_lt ha))
  rwa [ha, Option.all_some] at hall

theorem Device.onlyRoot.spec (h : d.onlyRoot = true) {a : ℕ} {n : Brief}
    (ha : d.storage.brief a = some n) : (n.handle = 0 ↔ a = 0) ∧ (n.read = true → a = 0) := by
  have hcheck := of_all_briefs h ha
  rwa [Bool.and_eq_true, decide_eq_true_eq, decide_eq_true_eq] at hcheck

theorem Device.onlyRoot.read (h : d.onlyRoot = true) {t : ℕ} (hread : d.index.read t) : t = 0 := by
  obtain ⟨n, hn, hr⟩ := hread
  exact (onlyRoot.spec h hn).2 hr

theorem Device.onlyRoot.path (h : d.onlyRoot = true) {p : List Text} (hat : d.index.At 0 p) :
    p = [] := by
  cases hat with
  | root => rfl
  | entry ht he =>
    obtain ⟨n, -, hn, hne, -⟩ := he
    exact absurd ((onlyRoot.spec h hn).1.mpr rfl) hne

theorem Device.lacks.entry {name : Text} (h : d.lacks name = true) (t a : ℕ) :
    ¬d.index.entry t name a := by
  rintro ⟨n, -, hn, -, hname, -⟩
  have hcheck := of_all_briefs h hn
  exact absurd hname (of_decide_eq_true hcheck)

/-- The report of a new file says what has changed. -/
theorem Device.announces.reported {files : Files} {e : InotifyEvent} (hroot : d.onlyRoot = true)
    (h : d.announces files e = true) :
    PlainEvents [e] ∧
      d.index.Reported (changes d.pending) (changes [e]) d.files.names files.names := by
  unfold Device.announces at h
  simp only [Bool.and_eq_true, decide_eq_true_eq, Option.any_eq_true] at h
  obtain ⟨hplain, change, hchange, c, hc, c', hc', ⟨hcreated, hwatch⟩, hnames⟩ := h
  refine ⟨fun e' he' => List.mem_singleton.mp he' ▸ hplain, fun t p names hread _ hat hfiles => ?_⟩
  obtain rfl := onlyRoot.read hroot hread
  obtain rfl := onlyRoot.path hroot hat
  obtain ⟨content, hcontent, rfl⟩ := Files.names_eq_some.mp hfiles
  rw [hc, Option.some.injEq] at hcontent
  subst hcontent
  have hchanges : changes [e] = [change] := by simp [changes, hchange]
  have hlast : ∀ x, d.index.lastChange 0 x [change] =
      if change.name = x then some true else none := by
    intro x
    have hw : d.index.watch change.watch = some 0 := hwatch
    simp [Index.lastChange, hw, hcreated]
  refine ⟨{ x | x ∈ c'.names }, Files.names_eq_some.mpr ⟨c', hc', rfl⟩, fun x => ?_⟩
  have hmem : x ∈ c'.names ↔ x ∈ c.names ∨ x = change.name := by
    rw [hnames, List.mem_append, List.mem_singleton]
  rw [hchanges, hlast]
  by_cases hx : change.name = x
  · rw [if_pos hx]
    refine ⟨fun k hk => ?_, fun hnone => absurd hnone (Option.some_ne_none true)⟩
    cases hk
    exact iff_of_true (hmem.mpr (Or.inr hx.symm)) rfl
  · rw [if_neg hx]
    refine ⟨fun k hk => absurd hk.symm (Option.some_ne_none k), fun _ => Or.inl ?_⟩
    exact hmem.trans (or_iff_left (Ne.symm hx))

theorem Device.grows.clear (hroot : d.onlyRoot = true) {st : DeviceStep} (h : d.grows st = true) :
    d.Allows st ∧ d.Clear st := by
  cases st with
  | getObjectList parent fs =>
    simp only [Device.grows, Bool.and_eq_true, decide_eq_true_eq, Option.any_eq_true] at h
    obtain ⟨⟨hdir, n, hn, hread⟩, hroom⟩ := h
    have hdone : ∀ t, d.storage.directory parent t → d.index.read t := by
      intro t ht
      unfold MtpStorage.directory at ht
      rw [hdir, Option.some.injEq, Option.some.injEq] at ht
      exact ht ▸ ⟨n, hn, hread⟩
    exact ⟨fun t p ht hnot => absurd (hdone t ht) hnot,
      hroom, fun t p items ht hnot => absurd (hdone t ht) hnot⟩
  | beginSendObject path format parent =>
    simp only [Device.grows, Bool.and_eq_true, decide_eq_true_eq] at h
    obtain ⟨⟨hroom, hvalid⟩, hlacks⟩ := h
    refine ⟨trivial, hroom, fun t dir name _ hsplit _ => ⟨hvalid, fun a => ?_⟩⟩
    rw [hsplit, Option.all_some] at hlacks
    exact lacks.entry hlacks t a
  | endSendObject handle =>
    refine ⟨trivial, fun t x p c hname hread _ hat hc _ _ => ?_⟩
    obtain rfl := onlyRoot.read hroot hread
    obtain rfl := onlyRoot.path hroot hat
    obtain ⟨a, n, -, hn, -, rfl, -, -, hmem⟩ := hname
    rw [Device.grows, hc, Option.all_some] at h
    have hcheck := of_all_briefs h hn
    rw [Bool.or_eq_true, decide_eq_true_eq] at hcheck
    have hother := hcheck.resolve_left (not_not_intro (List.mem_singleton.mp hmem))
    exact List.contains_iff_mem.mp hother
  | inotifyEvent =>
    refine ⟨trivial, fun e rest hpending => ?_⟩
    rw [Device.grows, hpending, List.head?_cons, Option.all_some] at h
    simp only [Bool.and_eq_true, decide_eq_true_eq] at h
    obtain ⟨⟨hcreated, hroom⟩, hdelete⟩ := h
    refine ⟨fun _ action haction => ?_, fun c t a n hc hgone => ?_⟩
    · rw [haction, Option.all_some] at hdelete
      cases action with
      | add t => exact hroom
      | delete a handle => cases hdelete
      | update a => trivial
      | ignore => trivial
    · rw [hc, Option.all_some, hgone] at hcreated
      cases hcreated
  | change files events =>
    rcases events with _ | ⟨e, _ | ⟨e', rest⟩⟩
    · exact absurd h Bool.false_ne_true
    · exact ⟨announces.reported hroot h, trivial⟩
    · exact absurd h Bool.false_ne_true
  | renameObject handle newName renamed => exact absurd h Bool.false_ne_true
  | deleteObject handle files events => exact absurd h Bool.false_ne_true

theorem Device.growsRun.clear {sts : List DeviceStep} (h : d.growsRun sts = true) :
    AllowedRun d sts ∧ ClearRun d sts := by
  induction sts generalizing d with
  | nil => exact ⟨trivial, trivial⟩
  | cons st sts ih =>
    rw [Device.growsRun, Bool.and_eq_true, Bool.and_eq_true] at h
    obtain ⟨⟨hroot, hgrows⟩, hrest⟩ := h
    obtain ⟨hallows, hclear⟩ := grows.clear hroot hgrows
    have hnext : ∀ d', d.step st = some d' → AllowedRun d' sts ∧ ClearRun d' sts := by
      intro d' hstep
      rw [hstep, Option.all_some] at hrest
      exact ih hrest
    exact ⟨⟨hallows, fun d' hstep => (hnext d' hstep).1⟩, hclear,
      fun d' hstep => (hnext d' hstep).2⟩

end

/-- A root with some files. -/
def filesOf (c : Content) : Files := fun p => if p = [] then some c else none

def oneFile : Content where
  entries := [("a".toList, 0x81a4)]
  nodup := by decide
  plain := by decide

def threeFiles : Content where
  entries := [("a".toList, 0x81a4), ("b".toList, 0x81a4), ("c".toList, 0x81a4)]
  nodup := by decide
  plain := by decide

/-- Two files in the root. -/
def twoFiles : Content where
  entries := [("a".toList, 0x81a4), ("b".toList, 0x81a4)]
  nodup := by decide
  plain := by decide

def listsOne (_ : Text) : Directory :=
  ⟨some [(".".toList, some 0x41fd), ("a".toList, some 0x81a4)], 1⟩

/-- The file `b` is made on the device, the host sends `c` and looks at the root. -/
def growingSteps : List DeviceStep :=
  [.change (filesOf twoFiles) [⟨1, inCreate, "b".toList⟩], .inotifyEvent,
    .beginSendObject "/sdcard/c".toList 0x3000 0,
    .change (filesOf threeFiles) [⟨1, inCreate, "c".toList⟩], .inotifyEvent,
    .endSendObject 3, .getObjectList 0 listsOne]

theorem growingSteps_grow : (Device.start "/sdcard".toList true 0 5 listsOne (filesOf oneFile)).all
    fun d => d.growsRun growingSteps := by
  decide +kernel

theorem lists_mirror_sent :
    ∃ d, Device.start "/sdcard".toList true 0 5 listsOne (filesOf oneFile) = some d ∧
      ListsTrulyRun d growingSteps := by
  have hcontent : ListsContent [(".".toList, some 0x41fd), ("a".toList, some 0x81a4)] oneFile := by
    unfold ListsContent Whole oneFile
    decide
  have hanswers : Answers (filesOf oneFile []) (listsOne "/sdcard".toList).items :=
    answers_whole hcontent
  have hroom : (0 : MtpObjectHandle).toNat + (listsOne "/sdcard".toList).added < 2 ^ 32 := by
    decide
  obtain ⟨d, hstart, hrun⟩ := lists_mirror_directory true 5 growingSteps hanswers hroom
  have hgrows := growingSteps_grow
  rw [hstart, Option.all_some] at hgrows
  obtain ⟨hallows, hclear⟩ := Device.growsRun.clear hgrows
  exact ⟨d, hstart, hrun hallows hclear⟩

/-! ### A directory that is read twice -/

/-- Every list is true. -/
def ListsAlwaysTrue : Prop :=
  ∀ (mFilePath : Text) (useMutex : Bool) (mtpid : MtpObjectHandle) (inotifyInit : Int32)
    (fs : Text → Directory) (files : Files) (sts : List DeviceStep),
    Answers (files []) (fs mFilePath).items → mtpid.toNat + (fs mFilePath).added < 2 ^ 32 →
      ∃ d, Device.start mFilePath useMutex mtpid inotifyInit fs files = some d ∧
        (AllowedRun d sts → ListsTrulyRun d sts)

/-- `lstat` fails for the second file at the first time. -/
def failsMidway (_ : Text) : Directory :=
  ⟨some [("a".toList, some 0x81a4), ("b".toList, none)], -1⟩

def listsAll (_ : Text) : Directory :=
  ⟨some [("a".toList, some 0x81a4), ("b".toList, some 0x81a4)], -1⟩

theorem failsMidway_start :
    (Device.start "/sdcard".toList false 0 5 failsMidway (filesOf twoFiles)).all fun d =>
      d.storage.mtpmap.find? 0 = some (some 0) && d.storage.inotifyFd < 0 &&
      (d.storage.heap.read 0).any (fun n => n.handle = 0) &&
      (d.storage.getObjectList listsAll 0).all fun r => r.2.length = 3 := by
  decide +kernel

/-- `a` is listed under two handles. -/
theorem not_listsAlwaysTrue : ¬ListsAlwaysTrue := by
  intro h
  have hcontent : ListsContent [("a".toList, some 0x81a4), ("b".toList, some 0x81a4)] twoFiles := by
    unfold ListsContent Whole twoFiles
    decide
  have hanswers : Answers ((filesOf twoFiles) []) (failsMidway "/sdcard".toList).items :=
    ⟨twoFiles, _, rfl, hcontent, Or.inr ⟨[("a".toList, some 0x81a4)], ("b".toList, some 0x81a4), [],
      [], rfl, rfl⟩⟩
  have hroom : (0 : MtpObjectHandle).toNat + (failsMidway "/sdcard".toList).added < 2 ^ 32 := by
    decide
  obtain ⟨d, hstart, hrun⟩ := h "/sdcard".toList false 0 5 failsMidway (filesOf twoFiles)
    [.getObjectList 0 listsAll] hanswers hroom
  obtain ⟨d', hstart', hd⟩ := Device.sound_start false 5 hanswers hroom
  rw [hstart, Option.some.injEq] at hstart'
  subst hstart'
  have hfacts := failsMidway_start
  rw [hstart, Option.all_some] at hfacts
  simp only [Bool.and_eq_true, decide_eq_true_eq, Option.any_eq_true] at hfacts
  obtain ⟨⟨⟨hmap, hfd⟩, root, hroot, hzero⟩, hlength⟩ := hfacts
  have hdir : d.storage.directory 0 0 := hmap
  have hdevice : d.files = (filesOf twoFiles) ∧ d.pending = [] ∧ d.sends = [] := by
    obtain ⟨s, -, rfl⟩ := Option.map_eq_some_iff.mp hstart
    exact ⟨rfl, rfl, rfl⟩
  have hat : d.index.At 0 [] :=
    Index.At.root ⟨root.brief, brief_eq_some.mpr ⟨root, hroot, rfl⟩, hzero⟩
  have hallows : AllowedRun d [.getObjectList 0 listsAll] := by
    refine ⟨fun t p hdir' _ hat' => ?_, fun _ _ => trivial⟩
    obtain ⟨rfl, rfl⟩ := hd.at_eq hdir hat hdir' hat'
    have hwatch : d.storage.watchFor listsAll (pathText d.storage.mtpstorageparent []) = none :=
      if_pos hfd
    rw [hdevice.1, hwatch]
    exact ⟨answers_whole hcontent, fun _ _ _ _ _ => watchTells_none⟩
  obtain ⟨p, hat', hlist⟩ := (hrun hallows).1 hdevice.2.1 hdevice.2.2 0 hdir
  obtain ⟨-, rfl⟩ := hd.at_eq hdir hat hdir hat'
  obtain ⟨s, list, hget, names, hperm, hnames⟩ := hlist twoFiles (by rw [hdevice.1]; rfl)
    fun _ => ⟨_, rfl, hcontent.1⟩
  rw [hget, Option.all_some, decide_eq_true_eq] at hlength
  have htwo := hnames.length_eq.trans hperm.length_eq
  rw [hlength] at htwo
  cases htwo

end BootableRecovery.Mtp
