import Mathlib.Data.Set.Basic
import Mathlib.Tactic.Common

namespace BootableRecovery.Lib

/-! An index of a tree of directories: it is filled on demand and kept up by a queue of reports,
one for each change of a directory that has been read. -/

/-- An entry has been created or deleted. -/
structure Change (ω κ : Type) where
  watch : ω
  created : Bool
  name : κ

/-- The nodes of the index, with the directories that have been read, the watches on them, and
the names whose files are still to come or to go. -/
structure Index (ν ω κ : Type) where
  root : ν → Prop
  entry : ν → κ → ν → Prop
  read : ν → Prop
  watch : ω → Option ν
  reserved : ν → κ → Prop

namespace Index

variable {ν ω κ : Type} (I : Index ν ω κ)

/-- The path of a node. -/
inductive At : ν → List κ → Prop
  | root {r : ν} : I.root r → At r []
  | entry {t a : ν} {x : κ} {p : List κ} : At t p → I.entry t x a → At a (p ++ [x])

/-- A node whose deletion is reported, or that is inside such a node. -/
inductive Going (q : List (Change ω κ)) : ν → Prop
  | reported {t a : ν} {c : Change ω κ} : c ∈ q → c.created = false → I.watch c.watch = some t →
      I.entry t c.name a → Going q a
  | inside {t a : ν} {x : κ} : Going q t → I.entry t x a → Going q a

/-- Every node but the root is an entry of one directory. -/
structure Forest : Prop where
  owner : ∀ {t t' x y a}, I.entry t x a → I.entry t' y a → t = t' ∧ x = y
  rootEntry : ∀ {r t x}, I.root r → ¬I.entry t x r
  rootUnique : ∀ {r r'}, I.root r → I.root r' → r = r'

/-- A node that is nowhere in the index yet. -/
structure Fresh (b : ν) : Prop where
  root : ¬I.root b
  entry : ∀ t x, ¬I.entry t x b
  empty : ∀ x a, ¬I.entry b x a
  read : ¬I.read b
  watch : ∀ w, I.watch w ≠ some b

/-- A new node is an entry. -/
def add (t : ν) (x : κ) (b : ν) : Index ν ω κ :=
  { I with entry := fun t' y d => I.entry t' y d ∨ (t' = t ∧ y = x ∧ d = b) }

/-- A node goes, and the watches on it. -/
def remove (a : ν) (watch : ω → Option ν) : Index ν ω κ :=
  { I with
    entry := fun t x b => I.entry t x b ∧ t ≠ a ∧ b ≠ a
    read := fun t => I.read t ∧ t ≠ a
    watch := watch }

/-- A directory has been read, and is watched from now on. -/
def mark [DecidableEq ω] (t : ν) (w : Option ω) : Index ν ω κ :=
  { I with
    read := fun t' => I.read t' ∨ t' = t
    watch := fun w' => if w = some w' then some t else I.watch w' }

def rename (a : ν) (x : κ) : Index ν ω κ :=
  { I with entry := fun t y b => (b ≠ a ∧ I.entry t y b) ∨ (b = a ∧ y = x ∧ ∃ z, I.entry t z a) }

section

variable {I} {q : List (Change ω κ)} {a : ν}

theorem At.eq (hI : I.Forest) {p p' : List κ} (h : I.At a p) (h' : I.At a p') : p = p' := by
  induction h generalizing p' with
  | root hr =>
    cases h' with
    | root => rfl
    | entry _ he => exact absurd he (hI.rootEntry hr)
  | entry ht he ih =>
    cases h' with
    | root hr => exact absurd he (hI.rootEntry hr)
    | entry ht' he' =>
      obtain ⟨rfl, rfl⟩ := hI.owner he he'
      rw [ih ht']

theorem root_of_at (h : I.At a []) : I.root a := by
  generalize hp : ([] : List κ) = p at h
  cases h with
  | root hr => exact hr
  | entry => exact absurd hp (by simp)

theorem At.mono {p : List κ} (h : I.At a p) {J : Index ν ω κ} (hroot : ∀ r, I.root r → J.root r)
    (hentry : ∀ t x a, I.entry t x a → J.entry t x a) : J.At a p := by
  induction h with
  | root hr => exact At.root (hroot _ hr)
  | entry _ he ih => exact At.entry ih (hentry _ _ _ he)

theorem Going.mono (h : I.Going q a) {J : Index ν ω κ} {q' : List (Change ω κ)}
    (hq : ∀ c ∈ q, c ∈ q')
    (hwatch : ∀ c ∈ q, ∀ t, I.watch c.watch = some t → J.watch c.watch = some t)
    (hentry : ∀ t x a, I.entry t x a → J.entry t x a) : J.Going q' a := by
  induction h with
  | reported hc hdel hw he =>
    exact Going.reported (hq _ hc) hdel (hwatch _ hc _ hw) (hentry _ _ _ he)
  | inside _ he ih => exact Going.inside ih (hentry _ _ _ he)

theorem not_going_nil : ¬I.Going [] a := by
  intro h
  induction h with
  | reported hc => exact absurd hc List.not_mem_nil
  | inside _ _ ih => exact ih

/-- What stays with a node outside a removed one. -/
theorem Going.remove {W : ω → Option ν} (hleaf : ∀ y b, I.entry a y b → ∀ z d, ¬I.entry b z d)
    (hW : ∀ w t', t' ≠ a → (I.watch w = some t' ↔ W w = some t')) {b : ν} (h : I.Going q b) :
    b = a ∨ (∃ y, I.entry a y b) ∨ (I.remove a W).Going q b := by
  induction h with
  | @reported t' b c hc hdel hw hb =>
    by_cases hba : b = a
    · exact Or.inl hba
    · by_cases hta : t' = a
      · exact Or.inr (Or.inl ⟨_, hta ▸ hb⟩)
      · exact Or.inr (Or.inr (Going.reported hc hdel ((hW _ _ hta).mp hw) ⟨hb, hta, hba⟩))
  | @inside t' b y _ hb ih =>
    by_cases hba : b = a
    · exact Or.inl hba
    · by_cases hta : t' = a
      · exact Or.inr (Or.inl ⟨_, hta ▸ hb⟩)
      · obtain h | ⟨z, h⟩ | h := ih
        · exact absurd h hta
        · exact absurd hb (hleaf _ _ h _ _)
        · exact Or.inr (Or.inr (Going.inside h ⟨hb, hta, hba⟩))

theorem At.of_add {t b : ν} {x : κ} (hb : I.Fresh b) {p : List κ} (h : (I.add t x b).At a p)
    (ha : a ≠ b) : I.At a p := by
  induction h with
  | root hr => exact At.root hr
  | entry ht he ih =>
    obtain he | ⟨-, -, rfl⟩ := he
    · refine At.entry (ih ?_) he
      rintro rfl
      exact hb.empty _ _ he
    · exact absurd rfl ha

end

variable [DecidableEq ν] [DecidableEq κ]

/-- What the last report of a watch about a name says. -/
def lastReport [DecidableEq ω] (w : ω) (x : κ) : List (Change ω κ) → Option Bool
  | [] => none
  | c :: q => (lastReport w x q).or
      (if c.watch = w ∧ c.name = x then some c.created else none)

/-- What the last report about a name says. -/
def lastChange (t : ν) (x : κ) : List (Change ω κ) → Option Bool
  | [] => none
  | c :: q => (lastChange t x q).or
      (if I.watch c.watch = some t ∧ c.name = x then some c.created else none)

/-- A name of a directory with the content `c`: the last report is true, and without a report the
index lists what is there. -/
structure Agrees (q : List (Change ω κ)) (t : ν) (x : κ) (c : Set κ) : Prop where
  reported : ∀ k, I.lastChange t x q = some k → (x ∈ c ↔ k = true)
  listed : I.lastChange t x q = none → ¬I.reserved t x → ((∃ a, I.entry t x a) ↔ x ∈ c)

/-- The index is up to date, but for what is reported. -/
structure Mirrors (files : List κ → Option (Set κ)) (q : List (Change ω κ)) : Prop where
  unique : ∀ {t x a b}, I.entry t x a → I.entry t x b → a = b
  watched : ∀ {w t}, I.watch w = some t → I.read t
  agrees : ∀ {t p}, I.read t → ¬I.Going q t → I.At t p →
    ∃ c, files p = some c ∧ ∀ x, I.Agrees q t x c

variable {I} {q es : List (Change ω κ)} {files files' : List κ → Option (Set κ)} {t a : ν} {x : κ}

theorem lastChange_append (t : ν) (x : κ) (q es : List (Change ω κ)) :
    I.lastChange t x (q ++ es) = (I.lastChange t x es).or (I.lastChange t x q) := by
  induction q with
  | nil => rw [List.nil_append, lastChange, Option.or_none]
  | cons c q ih => rw [List.cons_append, lastChange, lastChange, ih, Option.or_assoc]

theorem lastChange_of_ne (h : ∀ c ∈ q, I.watch c.watch ≠ some t) : I.lastChange t x q = none := by
  induction q with
  | nil => rfl
  | cons c q ih =>
    rw [lastChange, ih fun d hd => h d (List.mem_cons_of_mem c hd),
      if_neg fun hc => h c List.mem_cons_self hc.1, Option.or_none]

theorem lastChange_congr {J : Index ν ω κ}
    (h : ∀ c ∈ q, I.watch c.watch = some t ↔ J.watch c.watch = some t) (x : κ) :
    I.lastChange t x q = J.lastChange t x q := by
  induction q with
  | nil => rfl
  | cons c q ih =>
    rw [lastChange, lastChange, ih fun d hd => h d (List.mem_cons_of_mem c hd)]
    simp only [h c List.mem_cons_self]

theorem lastChange_of_watch {J : Index ν ω κ} (h : J.watch = I.watch) (t : ν) (x : κ) :
    J.lastChange t x q = I.lastChange t x q :=
  lastChange_congr (fun _ _ => by rw [h]) x

/-- The queue without its head says the same of all other names. -/
theorem lastChange_cons_of_ne {c : Change ω κ} (h : ¬(I.watch c.watch = some t ∧ c.name = x)) :
    I.lastChange t x (c :: q) = I.lastChange t x q := by
  rw [lastChange, if_neg h, Option.or_none]

theorem Mirrors.at_eq (hm : I.Mirrors files q) (hI : I.Forest) {b : ν} {p : List κ}
    (h : I.At a p) (h' : I.At b p) : a = b := by
  generalize hp : p = p' at h'
  induction h generalizing b p' with
  | root hr =>
    cases h' with
    | root hr' => exact hI.rootUnique hr hr'
    | entry => exact absurd hp (by simp)
  | entry ht he ih =>
    cases h' with
    | root => exact absurd hp (by simp)
    | entry ht' he' =>
      obtain ⟨rfl, hx⟩ := List.append_inj' hp rfl
      cases hx
      have hdir := ih _ rfl ht'
      subst hdir
      exact hm.unique he he'

/-! ### Changes of the files -/

/-- The change of a directory, as the reports tell it. Without a watch only the names that the
index has reserved change. -/
def Reports (I : Index ν ω κ) (es : List (Change ω κ)) (t : ν) (c c' : Set κ) : Prop :=
  ∀ x, (∀ k, I.lastChange t x es = some k → (x ∈ c' ↔ k = true)) ∧
    (I.lastChange t x es = none →
      (x ∈ c' ↔ x ∈ c) ∨ ((∀ w, I.watch w ≠ some t) ∧ I.reserved t x))

theorem Agrees.change {c c' : Set κ} (h : I.Agrees q t x c) (hes : I.Reports es t c c') :
    I.Agrees (q ++ es) t x c' := by
  obtain ⟨hsome, hnone⟩ := hes x
  constructor
  · intro k hk
    rw [lastChange_append] at hk
    rcases hlast : I.lastChange t x es with _ | k'
    · rw [hlast, Option.none_or] at hk
      obtain hsame | ⟨hunwatched, -⟩ := hnone hlast
      · rw [hsame]
        exact h.reported k hk
      · rw [lastChange_of_ne fun d _ => hunwatched d.watch] at hk
        contradiction
    · rw [hlast, Option.some_or] at hk
      exact hsome k (hlast.trans hk)
  · intro hk hfree
    rw [lastChange_append, Option.or_eq_none_iff] at hk
    obtain hsame | ⟨-, hres⟩ := hnone hk.1
    · rw [hsame]
      exact h.listed hk.2 hfree
    · exact absurd hres hfree

/-- Every change of a directory that has been read and stays is reported. -/
def Reported (I : Index ν ω κ) (q es : List (Change ω κ))
    (files files' : List κ → Option (Set κ)) : Prop :=
  ∀ t p c, I.read t → ¬I.Going (q ++ es) t → I.At t p → files p = some c →
    ∃ c', files' p = some c' ∧ I.Reports es t c c'

theorem Mirrors.change (hm : I.Mirrors files q) (hfiles : I.Reported q es files files') :
    I.Mirrors files' (q ++ es) := by
  refine ⟨hm.unique, hm.watched, fun {t p} hread hstays hat => ?_⟩
  have hbefore : ¬I.Going q t := fun h => hstays (h.mono (fun c hc => List.mem_append_left es hc)
    (fun _ _ _ hw => hw) fun _ _ _ he => he)
  obtain ⟨c, hc, hagrees⟩ := hm.agrees hread hbefore hat
  obtain ⟨c', hc', hes⟩ := hfiles t p c hread hstays hat hc
  exact ⟨c', hc', fun x => (hagrees x).change hes⟩

/-! ### Reserved names -/

/-- Other names are reserved: where one is not any more, the index lists what is there. -/
theorem Mirrors.release (hm : I.Mirrors files q) (R : ν → κ → Prop)
    (hR : ∀ t p x c, I.read t → ¬I.Going q t → I.At t p → files p = some c →
      I.lastChange t x q = none → I.reserved t x → ¬R t x → ((∃ a, I.entry t x a) ↔ x ∈ c)) :
    Mirrors { I with reserved := R } files q := by
  have hlast : ∀ t x, lastChange { I with reserved := R } t x q = I.lastChange t x q :=
    lastChange_of_watch rfl
  refine ⟨hm.unique, hm.watched, fun {t p} hread hstays hat => ?_⟩
  have hbefore : ¬I.Going q t := fun h =>
    hstays (h.mono (J := { I with reserved := R }) (fun _ hc => hc) (fun _ _ _ hw => hw)
      fun _ _ _ he => he)
  have hpath : I.At t p := hat.mono (J := I) (fun _ hr => hr) fun _ _ _ he => he
  obtain ⟨c, hc, hagrees⟩ := hm.agrees hread hbefore hpath
  refine ⟨c, hc, fun x => ⟨fun k hk => (hagrees x).reported k (hlast t x ▸ hk), fun hk hfree => ?_⟩⟩
  rw [hlast] at hk
  by_cases hres : I.reserved t x
  · exact hR t p x c hread hbefore hpath hc hk hres hfree
  · exact (hagrees x).listed hk hres

/-! ### New entries -/

/-- A name that the directory lacks, and that is reserved or reported. -/
theorem Mirrors.add (hm : I.Mirrors files q) {b : ν} (hb : I.Fresh b) (hname : ∀ a, ¬I.entry t x a)
    (hx : I.read t → I.lastChange t x q ≠ none ∨ I.reserved t x) :
    (I.add t x b).Mirrors files q := by
  have hlast : ∀ t' y, (I.add t x b).lastChange t' y q = I.lastChange t' y q :=
    lastChange_of_watch rfl
  refine ⟨?_, hm.watched, fun {t' p} hread hstays hat => ?_⟩
  · rintro t' y d e (hd | ⟨rfl, rfl, rfl⟩) (he | ⟨ht, hy, rfl⟩)
    · exact hm.unique hd he
    · subst ht hy
      exact absurd hd (hname d)
    · exact absurd he (hname e)
    · rfl
  · have hne : t' ≠ b := by
      rintro rfl
      exact hb.read hread
    have hbefore : ¬I.Going q t' := fun h =>
      hstays (h.mono (J := I.add t x b) (fun _ hc => hc) (fun _ _ _ hw => hw)
        fun _ _ _ he => Or.inl he)
    obtain ⟨c, hc, hagrees⟩ := hm.agrees hread hbefore (hat.of_add hb hne)
    refine ⟨c, hc, fun y => ⟨fun k hk => (hagrees y).reported k (hlast t' y ▸ hk),
      fun hk hfree => ?_⟩⟩
    rw [hlast] at hk
    by_cases hty : t' = t ∧ y = x
    · obtain ⟨rfl, rfl⟩ := hty
      obtain hreported | hres := hx hread
      · exact absurd hk hreported
      · exact absurd hres hfree
    · rw [← (hagrees y).listed hk hfree]
      constructor
      · rintro ⟨d, hd | ⟨ht, hy, -⟩⟩
        · exact ⟨d, hd⟩
        · exact absurd ⟨ht, hy⟩ hty
      · rintro ⟨d, hd⟩
        exact ⟨d, Or.inl hd⟩

/-! ### Deleted entries -/

/-- A node without directories inside, whose name is reserved or reported. -/
theorem Mirrors.remove (hm : I.Mirrors files q) (hI : I.Forest) (he : I.entry t x a)
    (hleaf : ∀ y b, I.entry a y b → ¬I.read b ∧ ∀ z d, ¬I.entry b z d) {W : ω → Option ν}
    (hW : ∀ w t', t' ≠ a → (I.watch w = some t' ↔ W w = some t')) (hWa : ∀ w, W w ≠ some a)
    (hx : I.read t → I.lastChange t x q ≠ none ∨ I.reserved t x) :
    (I.remove a W).Mirrors files q := by
  refine ⟨fun hb hd => hm.unique hb.1 hd.1, ?_, ?_⟩
  · intro w t' hw
    have hne : t' ≠ a := by
      rintro rfl
      exact hWa w hw
    exact ⟨hm.watched ((hW w t' hne).mpr hw), hne⟩
  · rintro t' p ⟨hread, hne⟩ hstays hat
    have hbefore : ¬I.Going q t' := by
      intro h
      obtain h | ⟨y, h⟩ | h := h.remove (fun y b hb => (hleaf y b hb).2) hW
      · exact hne h
      · exact (hleaf y t' h).1 hread
      · exact hstays h
    have hlast : ∀ y, (I.remove a W).lastChange t' y q = I.lastChange t' y q := fun y =>
      (lastChange_congr (fun c _ => hW c.watch t' hne) y).symm
    obtain ⟨c, hc, hagrees⟩ := hm.agrees hread hbefore
      (hat.mono (J := I) (fun _ hr => hr) fun _ _ _ hb => hb.1)
    refine ⟨c, hc, fun y => ⟨fun k hk => (hagrees y).reported k (hlast y ▸ hk), fun hk hfree => ?_⟩⟩
    rw [hlast] at hk
    rw [← (hagrees y).listed hk hfree]
    constructor
    · rintro ⟨b, hb, -⟩
      exact ⟨b, hb⟩
    · rintro ⟨b, hb⟩
      refine ⟨b, hb, hne, ?_⟩
      rintro rfl
      obtain ⟨rfl, rfl⟩ := hI.owner he hb
      obtain h | h := hx hread
      · exact h hk
      · exact hfree h

/-! ### The head of the queue -/

/-- The report has been heard: what it tells is in the index, or reserved. -/
structure Heard (I : Index ν ω κ) (c : Change ω κ) (t : ν) : Prop where
  created : c.created = true → ∃ a, I.entry t c.name a
  deleted : c.created = false → ∀ a, I.entry t c.name a →
    I.reserved t c.name ∧ ¬I.read a ∧ ∀ y b, ¬I.entry a y b

theorem Mirrors.pop {c : Change ω κ} (hm : I.Mirrors files (c :: q))
    (hc : ∀ t, I.watch c.watch = some t → I.Heard c t) : I.Mirrors files q := by
  have hgoing : ∀ b, I.Going (c :: q) b → I.Going q b ∨ (¬I.read b ∧ ∀ y d, ¬I.entry b y d) := by
    intro b h
    induction h with
    | reported hmem hdel hw hb =>
      obtain rfl | hmem := List.mem_cons.mp hmem
      · exact Or.inr ((hc _ hw).deleted hdel _ hb).2
      · exact Or.inl (Going.reported hmem hdel hw hb)
    | inside _ hb ih =>
      obtain h | ⟨-, h⟩ := ih
      · exact Or.inl (Going.inside h hb)
      · exact absurd hb (h _ _)
  refine ⟨hm.unique, hm.watched, fun {t p} hread hstays hat => ?_⟩
  have hbefore : ¬I.Going (c :: q) t := by
    intro h
    obtain h | ⟨h, -⟩ := hgoing t h
    · exact hstays h
    · exact h hread
  obtain ⟨s, hs, hagrees⟩ := hm.agrees hread hbefore hat
  refine ⟨s, hs, fun x => ?_⟩
  by_cases hhead : I.watch c.watch = some t ∧ c.name = x
  · constructor
    · intro k hk
      apply (hagrees x).reported k
      rw [lastChange, hk, Option.some_or]
    · intro hk hfree
      have htrue := (hagrees x).reported c.created
        (by rw [lastChange, hk, if_pos hhead, Option.none_or])
      obtain ⟨hw, rfl⟩ := hhead
      rw [htrue]
      rcases hcreated : c.created
      · refine iff_of_false ?_ Bool.false_ne_true
        rintro ⟨a, ha⟩
        exact hfree ((hc t hw).deleted hcreated a ha).1
      · exact iff_of_true ((hc t hw).created hcreated) rfl
  · refine ⟨fun k hk => (hagrees x).reported k ?_, fun hk => (hagrees x).listed ?_⟩
    · rwa [lastChange_cons_of_ne hhead]
    · rwa [lastChange_cons_of_ne hhead]

/-! ### Directories that are read -/

section Mark

variable [DecidableEq ω]

theorem lastChange_mark_self (hunwatched : ∀ w, I.watch w ≠ some t) (w : ω) (x : κ)
    (q : List (Change ω κ)) : (I.mark t (some w)).lastChange t x q = lastReport w x q := by
  induction q with
  | nil => rfl
  | cons c q ih =>
    have hhead : (I.mark t (some w)).watch c.watch = some t ↔ c.watch = w := by
      dsimp only [mark]
      split_ifs with hw
      · exact iff_of_true rfl (Option.some.inj hw).symm
      · refine iff_of_false (hunwatched _) fun hc => hw ?_
        rw [hc]
    rw [lastChange, lastReport, ih]
    simp only [hhead]

/-- A directory that has been read and lists what is there. Its watch is new, or it is that of a
directory which is going. -/
theorem Mirrors.mark (hm : I.Mirrors files q) (hunread : ¬I.read t) {w : Option ω}
    (hgone : ∀ w', w = some w' → ∀ t', I.watch w' = some t' →
      I.Going (q.filter fun c => c.watch ≠ w') t')
    (hagrees : ∀ p, I.At t p → ∃ c, files p = some c ∧ ∀ x, (I.mark t w).Agrees q t x c) :
    (I.mark t w).Mirrors files q := by
  have hkeep : ∀ w' t', w ≠ some w' → I.watch w' = some t' → (I.mark t w).watch w' = some t' := by
    intro w' t' hw' h
    dsimp only [Index.mark]
    rwa [if_neg hw']
  have hleft : ∀ w' t', w = some w' → I.watch w' = some t' → (I.mark t w).Going q t' := by
    intro w' t' hw' h
    refine (hgone w' hw' t' h).mono (fun c hc => (List.mem_filter.mp hc).1) (fun c hc t₁ h₁ => ?_)
      fun _ _ _ he => he
    refine hkeep _ _ (fun h₂ => ?_) h₁
    rw [hw', Option.some.injEq] at h₂
    exact absurd h₂.symm (by simpa using (List.mem_filter.mp hc).2)
  have hgoing : ∀ b, I.Going q b → (I.mark t w).Going q b := by
    intro b h
    induction h with
    | @reported t' b c hc hdel hw he =>
      by_cases hcw : w = some c.watch
      · exact Going.inside (hleft _ _ hcw hw) he
      · exact Going.reported hc hdel (hkeep _ _ hcw hw) he
    | inside _ he ih => exact Going.inside ih he
  refine ⟨hm.unique, ?_, ?_⟩
  · intro w' t' h
    dsimp only [Index.mark] at h ⊢
    split_ifs at h
    · exact Or.inr (Option.some.inj h).symm
    · exact Or.inl (hm.watched h)
  · intro t' p hread hstays hat
    have hpath : I.At t' p := hat.mono (fun _ hr => hr) fun _ _ _ he => he
    by_cases ht : t' = t
    · subst ht
      exact hagrees p hpath
    · have hread' : I.read t' := hread.resolve_right ht
      obtain ⟨c, hc, hagree⟩ := hm.agrees hread' (fun h => hstays (hgoing t' h)) hpath
      have hlast : ∀ x, (I.mark t w).lastChange t' x q = I.lastChange t' x q := by
        refine fun x => (lastChange_congr (fun d _ => ?_) x).symm
        by_cases hdw : w = some d.watch
        · refine iff_of_false (fun h => hstays (hleft _ _ hdw h)) fun h => ?_
          dsimp only [Index.mark] at h
          rw [if_pos hdw] at h
          exact ht (Option.some.inj h).symm
        · dsimp only [Index.mark]
          rw [if_neg hdw]
      exact ⟨c, hc, fun x => ⟨fun k hk => (hagree x).reported k (hlast x ▸ hk),
        fun hk => (hagree x).listed (hlast x ▸ hk)⟩⟩

end Mark

/-! ### Renamed entries -/

theorem Mirrors.at_of_rename {x' : κ} (hm : I.Mirrors files q) (hI : I.Forest)
    (he : I.entry t x a) (hfree : ∀ b, b ≠ a → ¬I.entry t x' b) {b : ν} {p' : List κ}
    (h : (I.rename a x').At b p') :
    (∃ p rest, I.At t p ∧ p' = p ++ x' :: rest ∧ I.At b (p ++ x :: rest)) ∨
      (I.At b p' ∧ ∀ p, I.At t p → ¬p ++ [x] <+: p' ∧ ¬p ++ [x'] <+: p') := by
  induction h with
  | root hr =>
    refine Or.inr ⟨At.root hr, fun p _ => ⟨fun h => ?_, fun h => ?_⟩⟩
    · simpa using List.prefix_nil.mp h
    · simpa using List.prefix_nil.mp h
  | @entry t' d y p'' _ hd ih =>
    obtain ⟨hne, hd⟩ | ⟨rfl, rfl, z, hd⟩ := hd
    · obtain ⟨p, rest, hp, rfl, hat⟩ | ⟨hat, hpre⟩ := ih
      · exact Or.inl ⟨p, rest ++ [y], hp, by simp, by simpa using At.entry hat hd⟩
      · refine Or.inr ⟨At.entry hat hd, fun p hp => ⟨fun h => ?_, fun h => ?_⟩⟩
        · obtain heq | h := List.prefix_concat_iff.mp h
          · obtain ⟨rfl, hxy⟩ := List.append_inj' heq rfl
            cases hxy
            cases hm.at_eq hI hp hat
            exact hne (hm.unique hd he)
          · exact (hpre p hp).1 h
        · obtain heq | h := List.prefix_concat_iff.mp h
          · obtain ⟨rfl, hxy⟩ := List.append_inj' heq rfl
            cases hxy
            cases hm.at_eq hI hp hat
            exact hfree d hne hd
          · exact (hpre p hp).2 h
    · obtain ⟨rfl, rfl⟩ := hI.owner he hd
      obtain ⟨p, rest, hp, -, hat⟩ | ⟨hat, -⟩ := ih
      · exact absurd (hp.eq hI hat) (by simp)
      · exact Or.inl ⟨p'', [], hat, rfl, At.entry hat he⟩

/-- The file of a node moves with it. A directory that has been looked into is renamed only when
no deletion of its old name is reported. -/
theorem Mirrors.rename {x' : κ} (hm : I.Mirrors files q) (hI : I.Forest) (he : I.entry t x a)
    (hfree : ∀ b, b ≠ a → ¬I.entry t x' b)
    (hdel : (I.read a ∨ ∃ y b, I.entry a y b) → ∀ c ∈ q, c.created = false →
      I.watch c.watch = some t → c.name ≠ x)
    (hres : I.read t → I.reserved t x ∧ I.reserved t x')
    {p : List κ} (hp : I.At t p)
    (hmoved : ∀ rest, files' (p ++ x' :: rest) = files (p ++ x :: rest))
    (hsame : ∀ p', ¬p ++ [x] <+: p' → ¬p ++ [x'] <+: p' → p' ≠ p → files' p' = files p')
    (hdir : ∀ c, I.read t → files p = some c →
      ∃ c', files' p = some c' ∧ I.Reports es t c c')
    (hes : ∀ c ∈ es, ∀ t', I.watch c.watch = some t' → t' = t) :
    (I.rename a x').Mirrors files' (q ++ es) := by
  have hgoing : ∀ b, I.Going q b → (I.rename a x').Going (q ++ es) b ∨
      (¬I.read b ∧ ∀ y d, ¬I.entry b y d) := by
    intro b h
    induction h with
    | @reported t' b c hc hd hw hb =>
      by_cases hba : b = a
      · subst hba
        obtain ⟨rfl, rfl⟩ := hI.owner he hb
        refine Or.inr ⟨fun h => hdel (Or.inl h) c hc hd hw rfl, fun y d hy => ?_⟩
        exact hdel (Or.inr ⟨y, d, hy⟩) c hc hd hw rfl
      · exact Or.inl (Going.reported (List.mem_append_left es hc) hd hw (Or.inl ⟨hba, hb⟩))
    | @inside t' b y _ hb ih =>
      obtain h | ⟨-, h⟩ := ih
      · by_cases hba : b = a
        · subst hba
          exact Or.inl (Going.inside h (Or.inr ⟨rfl, rfl, _, hb⟩))
        · exact Or.inl (Going.inside h (Or.inl ⟨hba, hb⟩))
      · exact absurd hb (h _ _)
  have hentry : ∀ t' y, ¬(t' = t ∧ (y = x ∨ y = x')) →
      ((∃ d, (I.rename a x').entry t' y d) ↔ ∃ d, I.entry t' y d) := by
    intro t' y hother
    constructor
    · rintro ⟨d, ⟨-, hd⟩ | ⟨rfl, rfl, z, hd⟩⟩
      · exact ⟨d, hd⟩
      · exact absurd ⟨(hI.owner hd he).1, Or.inr rfl⟩ hother
    · rintro ⟨d, hd⟩
      refine ⟨d, Or.inl ⟨?_, hd⟩⟩
      rintro rfl
      obtain ⟨rfl, rfl⟩ := hI.owner he hd
      exact hother ⟨rfl, Or.inl rfl⟩
  have hlast : ∀ t' y (r : List (Change ω κ)),
      (I.rename a x').lastChange t' y r = I.lastChange t' y r :=
    fun t' y r => lastChange_of_watch (I := I) (J := I.rename a x') rfl t' y
  refine ⟨?_, hm.watched, fun {b p'} hread hstays hat => ?_⟩
  · rintro t' y d d' (⟨hd, h⟩ | ⟨rfl, rfl, z, h⟩) (⟨hd', h'⟩ | ⟨rfl, hy, z', h'⟩)
    · exact hm.unique h h'
    · obtain ⟨rfl, rfl⟩ := hI.owner he h'
      exact absurd (hy ▸ h) (hfree d hd)
    · obtain ⟨rfl, rfl⟩ := hI.owner he h
      exact absurd h' (hfree d' hd')
    · rfl
  · have hbefore : ¬I.Going q b := by
      intro h
      obtain h | ⟨h, -⟩ := hgoing b h
      · exact hstays h
      · exact h hread
    have hwhere := hm.at_of_rename hI he hfree hat
    by_cases hbt : b = t
    · subst hbt
      have hpath : I.At b p' := by
        obtain ⟨p₁, rest, hp₁, -, h⟩ | ⟨h, -⟩ := hwhere
        · exact absurd (hp₁.eq hI h) (by simp)
        · exact h
      cases hp.eq hI hpath
      obtain ⟨c, hc, hagrees⟩ := hm.agrees hread hbefore hpath
      obtain ⟨c', hc', hreports⟩ := hdir c hread hc
      refine ⟨c', hc', fun y => ?_⟩
      have hafter := (hagrees y).change hreports
      refine ⟨fun k hk => hafter.reported k (hlast b y _ ▸ hk), fun hk hfree' => ?_⟩
      rw [hlast] at hk
      rw [hentry, hafter.listed hk hfree']
      rintro ⟨-, rfl | rfl⟩
      · exact hfree' (hres hread).1
      · exact hfree' (hres hread).2
    · have hfile : ∃ c, files' p' = some c ∧ ∀ y, I.Agrees q b y c := by
        obtain ⟨p₁, rest, hp₁, rfl, h⟩ | ⟨h, hpre⟩ := hwhere
        · obtain ⟨c, hc, hagrees⟩ := hm.agrees hread hbefore h
          cases hp.eq hI hp₁
          exact ⟨c, (hmoved rest).trans hc, hagrees⟩
        · obtain ⟨c, hc, hagrees⟩ := hm.agrees hread hbefore h
          refine ⟨c, (hsame p' (hpre p hp).1 (hpre p hp).2 ?_).trans hc, hagrees⟩
          rintro rfl
          exact hbt (hm.at_eq hI h hp)
      obtain ⟨c, hc, hagrees⟩ := hfile
      have hnone : ∀ y, I.lastChange b y es = none := fun y =>
        lastChange_of_ne fun c hc hw => hbt (hes c hc b hw)
      refine ⟨c, hc, fun y => ⟨fun k hk => (hagrees y).reported k ?_, fun hk hfree' => ?_⟩⟩
      · rwa [hlast, lastChange_append, hnone, Option.none_or] at hk
      · rw [hlast, lastChange_append, hnone, Option.none_or] at hk
        rw [hentry, (hagrees y).listed hk hfree']
        exact fun h => hbt h.1

end Index

end BootableRecovery.Lib
