import BootableRecovery.Lib.Mirror
import BootableRecovery.Mtp.StoreRuns

namespace BootableRecovery.Mtp
open Lib

/-! A storage as an index of its directories, and what each operation does to the index. -/

/-- What the index shows of a node. -/
structure Brief where
  handle : MtpObjectHandle
  parent : MtpObjectHandle
  name : Text
  read : Bool

def Node.brief (node : Node) : Brief :=
  ⟨node.handle, node.parent, node.name, (node.tree.map Tree.alreadyRead).getD false⟩

def MtpStorage.brief (s : MtpStorage) (a : ℕ) : Option Brief := (s.heap.read a).map Node.brief

/-- A node is an entry of the directory whose handle is its parent. -/
def indexOf (briefs : ℕ → Option Brief) (watch : Int32 → Option ℕ) (R : ℕ → Text → Prop) :
    Index ℕ Int32 Text where
  root r := ∃ n, briefs r = some n ∧ n.handle = 0
  entry t x a := ∃ n m, briefs a = some n ∧ n.handle ≠ 0 ∧ n.name = x ∧ briefs t = some m ∧
    m.handle = n.parent
  read t := ∃ n, briefs t = some n ∧ n.read = true
  watch := watch
  reserved := R

def MtpStorage.index (s : MtpStorage) (R : ℕ → Text → Prop) : Index ℕ Int32 Text :=
  indexOf s.brief s.inotifymap.find? R

section

variable {briefs : ℕ → Option Brief} {W : Int32 → Option ℕ} {R : ℕ → Text → Prop}

theorem indexOf_forest (hunique : ∀ {a b n m}, briefs a = some n → briefs b = some m →
    n.handle = m.handle → a = b) : (indexOf briefs W R).Forest := by
  constructor
  · rintro t t' x y a ⟨n, m, ha, -, rfl, ht, hm⟩ ⟨n', m', ha', -, rfl, ht', hm'⟩
    rw [ha, Option.some.injEq] at ha'
    subst ha'
    exact ⟨hunique ht ht' (hm.trans hm'.symm), rfl⟩
  · rintro r t x ⟨n, hr, hzero⟩ ⟨n', m, hr', hne, -⟩
    rw [hr, Option.some.injEq] at hr'
    exact hne (hr' ▸ hzero)
  · rintro r r' ⟨n, hr, hzero⟩ ⟨n', hr', hzero'⟩
    exact hunique hr hr' (hzero.trans hzero'.symm)

theorem index_ext {I J : Index ℕ Int32 Text} (hroot : ∀ r, I.root r ↔ J.root r)
    (hentry : ∀ t x a, I.entry t x a ↔ J.entry t x a) (hread : ∀ t, I.read t ↔ J.read t)
    (hwatch : I.watch = J.watch) (hreserved : I.reserved = J.reserved) : I = J := by
  obtain ⟨root, entry, read, watch, reserved⟩ := I
  obtain ⟨root', entry', read', watch', reserved'⟩ := J
  rw [Index.mk.injEq]
  exact ⟨funext fun r => propext (hroot r),
    funext fun t => funext fun x => funext fun a => propext (hentry t x a),
    funext fun t => propext (hread t), hwatch, hreserved⟩

/-- A new node. -/
theorem indexOf_add {t b : ℕ} {new m : Brief} (hb : briefs b = none) (ht : briefs t = some m)
    (hparent : m.handle = new.parent) (hzero : new.handle ≠ 0) (hread : new.read = false)
    (hnew : ∀ a n, briefs a = some n → n.parent ≠ new.handle)
    (hunique : ∀ {a b n m}, briefs a = some n → briefs b = some m → n.handle = m.handle → a = b)
    (hself : new.parent ≠ new.handle) :
    indexOf (Function.update briefs b (some new)) W R =
      (indexOf briefs W R).add t new.name b := by
  have hold : ∀ {a n}, briefs a = some n → Function.update briefs b (some new) a = some n := by
    intro a n ha
    have hne : a ≠ b := by
      rintro rfl
      rw [hb] at ha
      cases ha
    rwa [Function.update_of_ne hne]
  have hcases : ∀ {a n}, Function.update briefs b (some new) a = some n →
      (a = b ∧ n = new) ∨ briefs a = some n := by
    intro a n ha
    by_cases hab : a = b
    · subst hab
      rw [Function.update_self, Option.some.injEq] at ha
      exact Or.inl ⟨rfl, ha.symm⟩
    · rw [Function.update_of_ne hab] at ha
      exact Or.inr ha
  apply index_ext
  · intro r
    constructor
    · rintro ⟨n, hr, hn⟩
      obtain ⟨-, rfl⟩ | hr := hcases hr
      · exact absurd hn hzero
      · exact ⟨n, hr, hn⟩
    · rintro ⟨n, hr, hn⟩
      exact ⟨n, hold hr, hn⟩
  · intro t' y a
    constructor
    · rintro ⟨n, m', ha, hne, rfl, ht', hm'⟩
      obtain ⟨rfl, rfl⟩ | hold' := hcases ha
      · obtain ⟨rfl, rfl⟩ | ht' := hcases ht'
        · exact absurd hm'.symm hself
        · exact Or.inr ⟨hunique ht' ht (hm'.trans hparent.symm), rfl, rfl⟩
      · obtain ⟨rfl, rfl⟩ | ht' := hcases ht'
        · exact absurd hm'.symm (hnew a n hold')
        · exact Or.inl ⟨n, m', hold', hne, rfl, ht', hm'⟩
    · rintro (⟨n, m', ha, hne, rfl, ht', hm'⟩ | ⟨rfl, rfl, rfl⟩)
      · exact ⟨n, m', hold ha, hne, rfl, hold ht', hm'⟩
      · exact ⟨new, m, Function.update_self .., hzero, rfl, hold ht, hparent⟩
  · intro t'
    constructor
    · rintro ⟨n, ht', hn⟩
      obtain ⟨-, rfl⟩ | ht' := hcases ht'
      · rw [hread] at hn
        cases hn
      · exact ⟨n, ht', hn⟩
    · rintro ⟨n, ht', hn⟩
      exact ⟨n, hold ht', hn⟩
  · rfl
  · rfl

/-- A node with a new name. -/
theorem indexOf_rename {a : ℕ} {n : Brief} (ha : briefs a = some n) (x : Text) :
    indexOf (Function.update briefs a (some { n with name := x })) W R =
      (indexOf briefs W R).rename a x := by
  have hsame : ∀ {b m}, Function.update briefs a (some { n with name := x }) b = some m →
      ∃ m', briefs b = some m' ∧ m'.handle = m.handle ∧ m'.parent = m.parent ∧
        m'.read = m.read ∧ (b = a → m.name = x) ∧ (b ≠ a → m'.name = m.name) := by
    intro b m hb
    by_cases hba : b = a
    · subst hba
      rw [Function.update_self, Option.some.injEq] at hb
      subst hb
      exact ⟨n, ha, rfl, rfl, rfl, fun _ => rfl, fun h => absurd rfl h⟩
    · rw [Function.update_of_ne hba] at hb
      exact ⟨m, hb, rfl, rfl, rfl, fun h => absurd h hba, fun _ => rfl⟩
  have hback : ∀ {b m}, briefs b = some m → ∃ m',
      Function.update briefs a (some { n with name := x }) b = some m' ∧
        m'.handle = m.handle ∧ m'.parent = m.parent ∧ m'.read = m.read ∧
        (b = a → m'.name = x) ∧ (b ≠ a → m'.name = m.name) := by
    intro b m hb
    by_cases hba : b = a
    · subst hba
      rw [ha, Option.some.injEq] at hb
      subst hb
      exact ⟨_, Function.update_self .., rfl, rfl, rfl, fun _ => rfl, fun h => absurd rfl h⟩
    · exact ⟨m, by rwa [Function.update_of_ne hba], rfl, rfl, rfl, fun h => absurd h hba,
        fun _ => rfl⟩
  apply index_ext
  · intro r
    constructor
    · rintro ⟨m, hr, hm⟩
      obtain ⟨m', hr', hh, -⟩ := hsame hr
      exact ⟨m', hr', hh.trans hm⟩
    · rintro ⟨m, hr, hm⟩
      obtain ⟨m', hr', hh, -⟩ := hback hr
      exact ⟨m', hr', hh.trans hm⟩
  · intro t y b
    constructor
    · rintro ⟨m, p, hb, hne, rfl, ht, hp⟩
      obtain ⟨m', hb', hmh, hmp, -, hx, hname⟩ := hsame hb
      obtain ⟨p', ht', hph, -⟩ := hsame ht
      have hparent : p'.handle = m'.parent := by rw [hph, hp, hmp]
      by_cases hba : b = a
      · exact Or.inr ⟨hba, hx hba, m'.name, m', p', hba ▸ hb', hmh ▸ hne, rfl, ht', hparent⟩
      · exact Or.inl ⟨hba, m', p', hb', hmh ▸ hne, hname hba, ht', hparent⟩
    · rintro (⟨hba, m, p, hb, hne, rfl, ht, hp⟩ | ⟨rfl, rfl, z, m, p, hb, hne, -, ht, hp⟩)
      · obtain ⟨m', hb', hmh, hmp, -, -, hname⟩ := hback hb
        obtain ⟨p', ht', hph, -⟩ := hback ht
        exact ⟨m', p', hb', hmh ▸ hne, hname hba, ht', by rw [hph, hp, hmp]⟩
      · obtain ⟨m', hb', hmh, hmp, -, hx, -⟩ := hback hb
        obtain ⟨p', ht', hph, -⟩ := hback ht
        exact ⟨m', p', hb', hmh ▸ hne, hx rfl, ht', by rw [hph, hp, hmp]⟩
  · intro t
    constructor
    · rintro ⟨m, ht, hm⟩
      obtain ⟨m', ht', -, -, hread, -⟩ := hsame ht
      exact ⟨m', ht', hread.trans hm⟩
    · rintro ⟨m, ht, hm⟩
      obtain ⟨m', ht', -, -, hread, -⟩ := hback ht
      exact ⟨m', ht', hread.trans hm⟩
  · rfl
  · rfl

/-- A node goes, with the plain files inside. -/
theorem indexOf_remove {briefs' : ℕ → Option Brief} {a : ℕ} {n : Brief} (ha : briefs a = some n)
    (hroot : n.handle ≠ 0)
    (hunique : ∀ {a b n m}, briefs a = some n → briefs b = some m → n.handle = m.handle → a = b)
    (hgone : briefs' a = none)
    (hkept : ∀ b m, briefs' b = some m → briefs b = some m)
    (hinside : ∀ b m, b ≠ a → briefs b = some m → briefs' b = none → m.parent = n.handle ∧
      m.handle ≠ 0 ∧ m.read = false ∧ ∀ d k, briefs d = some k → k.parent ≠ m.handle)
    (W' : Int32 → Option ℕ) : indexOf briefs' W' R = (indexOf briefs W R).remove a W' := by
  have hne : ∀ {b m}, briefs' b = some m → b ≠ a := by
    rintro b m hb rfl
    rw [hgone] at hb
    cases hb
  have hstays : ∀ {b m}, briefs b = some m → b ≠ a →
      (briefs' b = some m) ∨ (m.parent = n.handle ∧ m.handle ≠ 0 ∧ m.read = false ∧
        ∀ d k, briefs d = some k → k.parent ≠ m.handle) := by
    intro b m hb hba
    rcases hb' : briefs' b with _ | m'
    · exact Or.inr (hinside b m hba hb hb')
    · have hm := hkept b m' hb'
      rw [hb] at hm
      exact Or.inl hm.symm
  apply index_ext
  · intro r
    constructor
    · rintro ⟨m, hr, hm⟩
      exact ⟨m, hkept r m hr, hm⟩
    · rintro ⟨m, hr, hm⟩
      have hra : r ≠ a := by
        rintro rfl
        rw [ha, Option.some.injEq] at hr
        exact hroot (hr ▸ hm)
      obtain hr' | ⟨-, h, -⟩ := hstays hr hra
      · exact ⟨m, hr', hm⟩
      · exact absurd hm h
  · intro t x b
    constructor
    · rintro ⟨m, p, hb, hm, rfl, ht, hp⟩
      exact ⟨⟨m, p, hkept b m hb, hm, rfl, hkept t p ht, hp⟩, hne ht, hne hb⟩
    · rintro ⟨⟨m, p, hb, hm, rfl, ht, hp⟩, hta, hba⟩
      obtain ht' | ⟨-, -, -, hempty⟩ := hstays ht hta
      · obtain hb' | ⟨hparent, -⟩ := hstays hb hba
        · exact ⟨m, p, hb', hm, rfl, ht', hp⟩
        · exact absurd (hunique ht ha (hp.trans hparent)) hta
      · exact absurd hp.symm (hempty b m hb)
  · intro t
    constructor
    · rintro ⟨m, ht, hm⟩
      exact ⟨⟨m, hkept t m ht, hm⟩, hne ht⟩
    · rintro ⟨⟨m, ht, hm⟩, hta⟩
      obtain ht' | ⟨-, -, h, -⟩ := hstays ht hta
      · exact ⟨m, ht', hm⟩
      · rw [h] at hm
        cases hm
  · rfl
  · rfl

/-- A directory has been read. -/
theorem indexOf_mark {t : ℕ} {n : Brief} (ht : briefs t = some n) (w : Option Int32) :
    indexOf (Function.update briefs t (some { n with read := true }))
        (fun w' => if w = some w' then some t else W w') R =
      (indexOf briefs W R).mark t w := by
  have hsame : ∀ {b m}, Function.update briefs t (some { n with read := true }) b = some m →
      ∃ m', briefs b = some m' ∧ m'.handle = m.handle ∧ m'.parent = m.parent ∧
        m'.name = m.name ∧ (m.read = true → m'.read = true ∨ b = t) := by
    intro b m hb
    by_cases hbt : b = t
    · subst hbt
      rw [Function.update_self, Option.some.injEq] at hb
      subst hb
      exact ⟨n, ht, rfl, rfl, rfl, fun _ => Or.inr rfl⟩
    · rw [Function.update_of_ne hbt] at hb
      exact ⟨m, hb, rfl, rfl, rfl, Or.inl⟩
  have hback : ∀ {b m}, briefs b = some m → ∃ m',
      Function.update briefs t (some { n with read := true }) b = some m' ∧
        m'.handle = m.handle ∧ m'.parent = m.parent ∧ m'.name = m.name ∧
        (m.read = true ∨ b = t → m'.read = true) := by
    intro b m hb
    by_cases hbt : b = t
    · subst hbt
      rw [ht, Option.some.injEq] at hb
      subst hb
      exact ⟨_, Function.update_self .., rfl, rfl, rfl, fun _ => rfl⟩
    · exact ⟨m, by rwa [Function.update_of_ne hbt], rfl, rfl, rfl, fun h => h.resolve_right hbt⟩
  apply index_ext
  · intro r
    constructor
    · rintro ⟨m, hr, hm⟩
      obtain ⟨m', hr', hh, -⟩ := hsame hr
      exact ⟨m', hr', hh.trans hm⟩
    · rintro ⟨m, hr, hm⟩
      obtain ⟨m', hr', hh, -⟩ := hback hr
      exact ⟨m', hr', hh.trans hm⟩
  · intro t' y b
    constructor
    · rintro ⟨m, p, hb, hne, rfl, ht', hp⟩
      obtain ⟨m', hb', hmh, hmp, hname, -⟩ := hsame hb
      obtain ⟨p', ht'', hph, -⟩ := hsame ht'
      exact ⟨m', p', hb', hmh ▸ hne, hname, ht'', by rw [hph, hp, hmp]⟩
    · rintro ⟨m, p, hb, hne, rfl, ht', hp⟩
      obtain ⟨m', hb', hmh, hmp, hname, -⟩ := hback hb
      obtain ⟨p', ht'', hph, -⟩ := hback ht'
      exact ⟨m', p', hb', hmh ▸ hne, hname, ht'', by rw [hph, hp, hmp]⟩
  · intro t'
    constructor
    · rintro ⟨m, ht', hm⟩
      obtain ⟨m', ht'', -, -, -, hread⟩ := hsame ht'
      obtain h | h := hread hm
      · exact Or.inl ⟨m', ht'', h⟩
      · exact Or.inr h
    · rintro (⟨m, ht', hm⟩ | rfl)
      · obtain ⟨m', ht'', -, -, -, hread⟩ := hback ht'
        exact ⟨m', ht'', hread (Or.inl hm)⟩
      · exact ⟨_, Function.update_self .., rfl⟩
  · rfl
  · rfl

end

end BootableRecovery.Mtp
