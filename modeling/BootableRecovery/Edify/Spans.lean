import BootableRecovery.Edify.Expr
import BootableRecovery.Edify.Lexemes
import BootableRecovery.Edify.Parser

namespace BootableRecovery.Edify
open Lib Pattern

/-! The places of the expressions in a script, over all calls of the parser in a process. -/

variable {F : Type}

/-- `k` calls of `yylex`. -/
def yylexTimes : ℕ → LexState → Text → LexState × Text
  | 0, g, input => (g, input)
  | k + 1, g, input => yylexTimes k (yylex g input).2.1 (yylex g input).2.2

/-- The states between the calls of `ParseString`, each of which may stop at any token. -/
inductive Reachable : LexState → Prop
  | fresh : Reachable .fresh
  | parseString {g : LexState} (script : Text) (k : ℕ) :
      Reachable g → Reachable (yylexTimes k g (cString script)).1

/-- `a` occurs in an expression. -/
inductive Occurs (a : Node F) : Node F → Prop
  | here : Occurs a a
  | inside {fn name argv start stop} (b : Node F) :
      b ∈ argv → Occurs a b → Occurs a (.mk fn name argv start stop)

/-- The spans of the children are in that of their parent, one after the other. -/
inductive Nested : Node F → Prop
  | mk {fn name argv start stop} : start ≤ stop →
      (∀ a ∈ argv, start ≤ a.start ∧ a.stop ≤ stop) →
      argv.Pairwise (fun a b => a.stop ≤ b.start) → (∀ a ∈ argv, Nested a) →
      Nested (.mk fn name argv start stop)

def locationAt (ts : List (Token × Location)) (i : ℕ) : Location := (ts.getD i (.bad, ⟨0, 0⟩)).2

/-- The spans that the script's expressions should have. `tree` is the tree the parser built, by
the numbers of the tokens. -/
structure Exact (fns : Functions F) (g : LexState) (script : Text) (root : Node F) : Prop where
  spans : ∃ tree, Phrase fns ((tokens g (cString script)).map Prod.fst).zipIdx tree ∧
    root = tree.locate (locationAt (tokens g (cString script))) ∧
    root = tree.locate (locationAt (lexemes (cString script).length g (cString script)))
  nested : Nested root
  copied : ∀ e, Occurs e root → e.stop ≤ script.length ∧
    ∀ (value : Eval Value) (s : State), s.script = script →
      assertFailed ⟨value, e.start, e.stop⟩ s = (.null, [], { s with
        errmsg := "assert failed: ".toList ++ (script.drop e.start).take (e.stop - e.start) })

section phrases
variable {fns : Functions F} {loc : ℕ → Location} {n : ℕ}

/-- The span of a tree lies in that of its tokens. -/
def Spanned (loc : ℕ → Location) (us : List (Token × ℕ)) (a : Node F) : Prop :=
  ∃ u ∈ us, ∃ v ∈ us, a.start = (loc u.2).start ∧ a.stop ≤ (loc v.2).stop

theorem Nested.start_le_stop {a : Node F} (h : Nested a) : a.start ≤ a.stop := by
  cases h with
  | mk hle => exact hle

theorem Nested.withSpan {a : Node F} {l : Location} (h : Nested a) (hstart : l.start ≤ a.start)
    (hstop : a.stop ≤ l.stop) : Nested (a.withSpan l) := by
  cases h with
  | mk hle hin hordered hargv =>
    dsimp only [Node.start, Node.stop] at hstart hstop
    refine .mk (by omega) (fun b hb => ?_) hordered hargv
    have := hin b hb
    omega

/-- Locations in order, of the first `n` tokens. -/
structure InOrder (loc : ℕ → Location) (n : ℕ) : Prop where
  span : ∀ i < n, (loc i).start ≤ (loc i).stop
  next : ∀ i j, i < j → j < n → (loc i).stop ≤ (loc j).start

theorem InOrder.start_mono (h : InOrder loc n) {i j : ℕ} (hij : i ≤ j) (hj : j < n) :
    (loc i).start ≤ (loc j).start := by
  rcases hij.eq_or_lt with rfl | hlt
  · exact le_refl _
  · exact (h.span i (by omega)).trans (h.next i j hlt hj)

theorem InOrder.stop_mono (h : InOrder loc n) {i j : ℕ} (hij : i ≤ j) (hj : j < n) :
    (loc i).stop ≤ (loc j).stop := by
  rcases hij.eq_or_lt with rfl | hlt
  · exact le_refl _
  · exact (h.next i j hlt hj).trans (h.span j hj)

/-- Numbered tokens in order. -/
def Numbered (n : ℕ) (us : List (Token × ℕ)) : Prop :=
  us.Pairwise (fun u v => u.2 < v.2) ∧ ∀ u ∈ us, u.2 < n

theorem numbered_append {us vs : List (Token × ℕ)} : Numbered n (us ++ vs) ↔
    Numbered n us ∧ Numbered n vs ∧ ∀ u ∈ us, ∀ v ∈ vs, u.2 < v.2 := by
  simp only [Numbered, List.pairwise_append, List.mem_append]
  constructor
  · rintro ⟨⟨hus, hvs, hlt⟩, hn⟩
    exact ⟨⟨hus, fun u hu => hn u (.inl hu)⟩, ⟨hvs, fun v hv => hn v (.inr hv)⟩, hlt⟩
  · rintro ⟨⟨hus, hn⟩, ⟨hvs, hn'⟩, hlt⟩
    exact ⟨⟨hus, hvs, hlt⟩, fun u hu => hu.elim (hn u) (hn' u)⟩

theorem numbered_cons {u : Token × ℕ} {us : List (Token × ℕ)} : Numbered n (u :: us) ↔
    u.2 < n ∧ Numbered n us ∧ ∀ v ∈ us, u.2 < v.2 := by
  simp only [Numbered, List.pairwise_cons, List.forall_mem_cons]
  tauto

variable {us vs : List (Token × ℕ)} {a b : Node F} {u : Token × ℕ} {i : ℕ}

theorem Numbered.head_le (h : Numbered n us) (hu : us.head? = some u) : ∀ w ∈ us, u.2 ≤ w.2 := by
  obtain ⟨us, rfl⟩ := List.head?_eq_some_iff.mp hu
  intro w hw
  rcases List.mem_cons.mp hw with rfl | hw
  · exact le_refl _
  · exact ((numbered_cons.mp h).2.2 w hw).le

theorem Numbered.le_last (h : Numbered n us) (hu : us.getLast? = some u) : ∀ w ∈ us, w.2 ≤ u.2 := by
  obtain ⟨us, rfl⟩ := List.getLast?_eq_some_iff.mp hu
  intro w hw
  rcases List.mem_append.mp hw with hw | hw
  · exact ((numbered_append.mp h).2.2 w hw u (List.mem_singleton_self u)).le
  · rw [List.mem_singleton.mp hw]

theorem Spanned.mono (h : Spanned loc us a) (hsub : us ⊆ vs) : Spanned loc vs a := by
  obtain ⟨u, hu, v, hv, hstart, hstop⟩ := h
  exact ⟨u, hsub hu, v, hsub hv, hstart, hstop⟩

theorem Spanned.start_le (h : Spanned loc us a) (ho : InOrder loc n) (hus : ∀ u ∈ us, u.2 < n)
    (hi : ∀ u ∈ us, i ≤ u.2) : (loc i).start ≤ a.start := by
  obtain ⟨u, hu, -, -, hstart, -⟩ := h
  rw [hstart]
  exact ho.start_mono (hi u hu) (hus u hu)

theorem Spanned.le_stop (h : Spanned loc us a) (ho : InOrder loc n) (hin : i < n)
    (hi : ∀ u ∈ us, u.2 ≤ i) : a.stop ≤ (loc i).stop := by
  obtain ⟨-, -, v, hv, -, hstop⟩ := h
  exact hstop.trans (ho.stop_mono (hi v hv) hin)

theorem Spanned.stop_le_start (h : Spanned loc us a) (h' : Spanned loc vs b) (ho : InOrder loc n)
    (hvs : ∀ v ∈ vs, v.2 < n) (hlt : ∀ u ∈ us, ∀ v ∈ vs, u.2 < v.2) : a.stop ≤ b.start := by
  obtain ⟨-, -, v, hv, -, hstop⟩ := h
  obtain ⟨u, hu, -, -, hstart, -⟩ := h'
  rw [hstart]
  exact hstop.trans (ho.next v.2 u.2 (hlt v hv u hu) (hvs u hu))

/-- A span from the first token to the last one. -/
theorem spanned_ends {fn : F} {name : Text} {args : List (Node F)} {v : Token × ℕ}
    (hu : us.head? = some u) (hv : us.getLast? = some v) :
    Spanned loc us (.mk fn name args (loc u.2).start (loc v.2).stop) :=
  ⟨u, List.mem_of_head? hu, v, List.mem_of_getLast? hv, rfl, le_refl _⟩

theorem nested_mk (ho : InOrder loc n) (hus : Numbered n us) {fn : F} {name : Text}
    {args : List (Node F)} {v : Token × ℕ} (hu : us.head? = some u) (hv : us.getLast? = some v)
    (hargs : ∀ a ∈ args, Nested a ∧ Spanned loc us a)
    (hordered : args.Pairwise fun a b => a.stop ≤ b.start) :
    Nested (.mk fn name args (loc u.2).start (loc v.2).stop) := by
  have hlast : v.2 < n := hus.2 v (List.mem_of_getLast? hv)
  have hle : u.2 ≤ v.2 := hus.head_le hu v (List.mem_of_getLast? hv)
  refine .mk ((ho.start_mono hle hlast).trans (ho.span _ hlast)) (fun a ha => ?_) hordered
    fun a ha => (hargs a ha).1
  exact ⟨(hargs a ha).2.start_le ho hus.2 (hus.head_le hu),
    (hargs a ha).2.le_stop ho hlast (hus.le_last hv)⟩

theorem nested_withSpan (ho : InOrder loc n) (hus : Numbered n us) {v : Token × ℕ}
    (hu : us.head? = some u) (hv : us.getLast? = some v) (ha : Nested a)
    (hspan : Spanned loc us a) : Nested (a.withSpan ⟨(loc u.2).start, (loc v.2).stop⟩) :=
  ha.withSpan (hspan.start_le ho hus.2 (hus.head_le hu))
    (hspan.le_stop ho (hus.2 v (List.mem_of_getLast? hv)) (hus.le_last hv))

/-- The trees of phrases are nested, as far as their tokens are in order. -/
theorem phrase_nested (ho : InOrder loc n) {tree : Node F} (h : Phrase fns us tree) :
    Numbered n us → Nested (tree.locate loc) ∧ Spanned loc us (tree.locate loc) := by
  refine @Phrase.rec F fns
    (fun us e _ => Numbered n us → Nested (e.locate loc) ∧ Spanned loc us (e.locate loc))
    (fun us args _ => Numbered n us →
      (∀ a ∈ locateAll loc args, Nested a ∧ Spanned loc us a) ∧
        (locateAll loc args).Pairwise fun a b => a.stop ≤ b.start)
    ?literal ?parens ?ended ?binary ?not ?ifThen ?ifThenElse ?call ?nil ?one ?snoc us tree h
  case literal =>
    intro str i hus
    exact ⟨nested_mk ho hus rfl rfl (by simp [locateAll]) .nil,
      spanned_ends (u := (.string str, i)) (v := (.string str, i)) rfl rfl⟩
  case parens =>
    intro ts e i j _ ih hus
    obtain ⟨hnested, hspan⟩ := ih (numbered_append.mp (numbered_cons.mp hus).2.1).1
    have hlast := getLast?_closed (Token.char '(', i) ts (Token.char ')', j)
    rw [locate_withSpan]
    refine ⟨nested_withSpan ho hus rfl hlast hnested (hspan.mono (by simp)), ?_⟩
    cases e
    exact spanned_ends rfl hlast
  case ended =>
    intro ts e u v i _ hu hv ih hus
    have hts := (numbered_append.mp hus).1
    obtain ⟨hnested, hspan⟩ := ih hts
    rw [locate_withSpan]
    refine ⟨nested_withSpan ho hts hu hv hnested hspan, ?_⟩
    cases e
    exact (spanned_ends hu hv).mono (by simp)
  case binary =>
    intro ts ts' left right t i fn u v _ _ _ hu hv ih ih' hus
    obtain ⟨hts, hts', hlt⟩ := numbered_append.mp hus
    obtain ⟨hleft, hspan⟩ := ih hts
    obtain ⟨hright, hspan'⟩ := ih' (numbered_cons.mp hts').2.1
    have hfirst : (ts ++ (t, i) :: ts').head? = some u := by simp [hu]
    have hlast : (ts ++ (t, i) :: ts').getLast? = some v := by
      simp [List.getLast?_append, List.getLast?_cons, hv]
    refine ⟨nested_mk ho hus hfirst hlast ?_ ?_, spanned_ends hfirst hlast⟩
    · simp only [locateAll, List.forall_mem_cons]
      exact ⟨⟨hleft, hspan.mono (by simp)⟩, ⟨hright, hspan'.mono (by simp)⟩, by simp⟩
    · simp only [locateAll, List.pairwise_pair]
      exact hspan.stop_le_start hspan' ho (numbered_cons.mp hts').2.1.2
        fun u hu v hv => hlt u hu v (List.mem_cons_of_mem _ hv)
  case not =>
    intro ts e i v _ hv ih hus
    obtain ⟨hnested, hspan⟩ := ih (numbered_cons.mp hus).2.1
    have hlast : ((Token.char '!', i) :: ts).getLast? = some v := by simp [List.getLast?_cons, hv]
    refine ⟨nested_mk ho hus rfl hlast ?_ (List.pairwise_singleton _ _), spanned_ends rfl hlast⟩
    simp only [locateAll, List.forall_mem_cons]
    exact ⟨⟨hnested, hspan.mono (by simp)⟩, by simp⟩
  case ifThen =>
    intro ts ts' cond e i j k _ _ ih ih' hus
    obtain ⟨hts, hrest, hlt⟩ := numbered_append.mp (numbered_cons.mp hus).2.1
    obtain ⟨hts', -, -⟩ := numbered_append.mp (numbered_cons.mp hrest).2.1
    obtain ⟨hcond, hspan⟩ := ih hts
    obtain ⟨hthen, hspan'⟩ := ih' hts'
    have hlast := getLast?_closed (Token.ifToken, i) (ts ++ (.thenToken, j) :: ts')
      (Token.endifToken, k)
    simp only [List.append_assoc, List.cons_append] at hlast
    refine ⟨nested_mk ho hus rfl hlast ?_ ?_, spanned_ends rfl hlast⟩
    · simp only [locateAll, List.forall_mem_cons]
      exact ⟨⟨hcond, hspan.mono fun w hw => by simp [hw]⟩,
        ⟨hthen, hspan'.mono fun w hw => by simp [hw]⟩, by simp⟩
    · simp only [locateAll, List.pairwise_pair]
      exact hspan.stop_le_start hspan' ho hts'.2 fun u hu v hv => hlt u hu v (by simp [hv])
  case ifThenElse =>
    intro ts ts' ts'' cond e e' i j k m _ _ _ ih ih' ih'' hus
    obtain ⟨hts, hrest, hlt⟩ := numbered_append.mp (numbered_cons.mp hus).2.1
    obtain ⟨hts', hrest', hlt'⟩ := numbered_append.mp (numbered_cons.mp hrest).2.1
    obtain ⟨hts'', -, -⟩ := numbered_append.mp (numbered_cons.mp hrest').2.1
    obtain ⟨hcond, hspan⟩ := ih hts
    obtain ⟨hthen, hspan'⟩ := ih' hts'
    obtain ⟨helse, hspan''⟩ := ih'' hts''
    have hlast := getLast?_closed (Token.ifToken, i)
      (ts ++ (.thenToken, j) :: (ts' ++ (.elseToken, k) :: ts'')) (Token.endifToken, m)
    simp only [List.append_assoc, List.cons_append] at hlast
    refine ⟨nested_mk ho hus rfl hlast ?_ ?_, spanned_ends rfl hlast⟩
    · simp only [locateAll, List.forall_mem_cons]
      exact ⟨⟨hcond, hspan.mono fun w hw => by simp [hw]⟩,
        ⟨hthen, hspan'.mono fun w hw => by simp [hw]⟩,
        ⟨helse, hspan''.mono fun w hw => by simp [hw]⟩, by simp⟩
    · simp only [locateAll, List.pairwise_cons, List.forall_mem_cons]
      refine ⟨⟨?_, ?_, by simp⟩, ⟨?_, by simp⟩, by simp⟩
      · exact hspan.stop_le_start hspan' ho hts'.2 fun u hu v hv => hlt u hu v (by simp [hv])
      · exact hspan.stop_le_start hspan'' ho hts''.2 fun u hu v hv => hlt u hu v (by simp [hv])
      · exact hspan'.stop_le_start hspan'' ho hts''.2 fun u hu v hv => hlt' u hu v (by simp [hv])
  case call =>
    intro ts args name i j k fn _ _ ih hus
    obtain ⟨hts, -, -⟩ := numbered_append.mp
      (numbered_cons.mp (numbered_cons.mp hus).2.1).2.1
    obtain ⟨hargs, hordered⟩ := ih hts
    have hlast := getLast?_closed (Token.string name, i) ((.char '(', j) :: ts) (Token.char ')', k)
    exact ⟨nested_mk ho hus rfl hlast
      (fun a ha => ⟨(hargs a ha).1, (hargs a ha).2.mono fun w hw => by simp [hw]⟩) hordered,
      spanned_ends rfl hlast⟩
  case nil =>
    intro _
    exact ⟨by simp [locateAll], .nil⟩
  case one =>
    intro ts e _ ih hus
    simp only [locateAll, List.forall_mem_singleton]
    exact ⟨ih hus, List.pairwise_singleton _ _⟩
  case snoc =>
    intro ts ts' args e i _ _ ih ih' hus
    obtain ⟨hts, hrest, hlt⟩ := numbered_append.mp hus
    have hts' := (numbered_cons.mp hrest).2.1
    obtain ⟨hargs, hordered⟩ := ih hts
    obtain ⟨hnested, hspan⟩ := ih' hts'
    simp only [locateAll_append, locateAll, List.mem_append, List.mem_singleton]
    constructor
    · rintro a (ha | rfl)
      · exact ⟨(hargs a ha).1, (hargs a ha).2.mono fun w hw => by simp [hw]⟩
      · exact ⟨hnested, hspan.mono fun w hw => by simp [hw]⟩
    · refine List.pairwise_append.mpr ⟨hordered, List.pairwise_singleton _ _, fun a ha b hb => ?_⟩
      rw [List.mem_singleton.mp hb]
      exact (hargs a ha).2.stop_le_start hspan ho hts'.2 fun u hu v hv => hlt u hu v (by simp [hv])

/-- `BAD` is no token of the grammar. -/
theorem bad_not_mem {tree : Node F} (h : Phrase fns us tree) : .bad ∉ us.map Prod.fst := by
  refine @Phrase.rec F fns (fun us _ _ => .bad ∉ us.map Prod.fst)
    (fun us _ _ => .bad ∉ us.map Prod.fst)
    ?literal ?parens ?ended ?binary ?not ?ifThen ?ifThenElse ?call ?nil ?one ?snoc us tree h
  case binary =>
    intro ts ts' left right t i fn u v hfn _ _ _ _ ih ih'
    have ht : .bad ≠ t := fun h => by simp [← h, Functions.binary] at hfn
    simp only [List.map_append, List.map_cons, List.mem_append, List.mem_cons, not_or]
    exact ⟨ih, ht, ih'⟩
  case one => exact fun _ ih => ih
  all_goals simp +contextual [-List.mem_map]

theorem phrase_stop {tree : Node F} (h : Phrase fns us tree) : ∃ v ∈ us, tree.stop = v.2 := by
  cases h with
  | literal str i => exact ⟨_, List.mem_singleton_self _, rfl⟩
  | @parens ts e i j h => exact ⟨(.char ')', j), by simp, by cases e; rfl⟩
  | @ended ts e u v i h hu hv => exact ⟨v, by simp [List.mem_of_getLast? hv], by cases e; rfl⟩
  | binary t i fn u v hfn h h' hu hv => exact ⟨v, by simp [List.mem_of_getLast? hv], rfl⟩
  | not i v h hv => exact ⟨v, by simp [List.mem_of_getLast? hv], rfl⟩
  | ifThen i j k h h' => exact ⟨(.endifToken, k), by simp, rfl⟩
  | ifThenElse i j k m h h' h'' => exact ⟨(.endifToken, m), by simp, rfl⟩
  | call name i j k fn hfn h => exact ⟨(.char ')', k), by simp, rfl⟩

end phrases

section scripts
variable {fns : Functions F} {g : LexState} {script : Text} {root : Node F}

theorem numbered_zipIdx (kinds : List Token) : Numbered kinds.length kinds.zipIdx := by
  constructor
  · rw [← List.pairwise_map (f := Prod.snd) (R := (· < ·)), List.zipIdx_map_snd]
    exact List.pairwise_lt_range'
  · rintro ⟨t, i⟩ h
    simpa using (List.mem_zipIdx h).2.1

theorem eq_map_zipIdx (ts : List (Token × Location)) :
    ts = (ts.map Prod.fst).zipIdx.map fun v => (v.1, locationAt ts v.2) := by
  refine List.ext_getElem (by simp) fun i hi hi' => ?_
  simp [locationAt, hi]

/-- The parser's tree, by the numbers of the tokens. -/
theorem accepts_tree (h : Accepts fns g script root) :
    ∃ tree, Phrase fns ((tokens g (cString script)).map Prod.fst).zipIdx tree ∧
      root = tree.locate (locationAt (tokens g (cString script))) := by
  have hnone : Covers fns (locationAt (tokens g (cString script))) [] [] := rfl
  exact parses_phrase h hnone (eq_map_zipIdx _)

theorem ne_bad_of_phrase {ts : List (Token × Location)} {tree : Node F}
    (h : Phrase fns (ts.map Prod.fst).zipIdx tree) : ∀ t ∈ ts, t.1 ≠ .bad := by
  have hbad := bad_not_mem h
  rw [List.zipIdx_map_fst] at hbad
  exact fun t ht ht' => hbad (ht' ▸ List.mem_map_of_mem ht)

theorem inOrder_tokens (hg : g.startCondition = .initial) {input : Text}
    (hbad : ∀ t ∈ tokens g input, t.1 ≠ .bad) :
    InOrder (locationAt (tokens g input)) (tokens g input).length := by
  obtain ⟨hmem, hsorted⟩ := tokens_sorted hg hbad
  have hat : ∀ i (hi : i < (tokens g input).length),
      locationAt (tokens g input) i = (tokens g input)[i].2 := fun i hi => by
    simp [locationAt, hi]
  constructor
  · intro i hi
    rw [hat i hi]
    exact (hmem _ (List.getElem_mem hi)).2.1
  · intro i j hij hj
    rw [hat i (by omega), hat j hj]
    exact List.pairwise_iff_getElem.mp hsorted i j (by omega) hj hij

/-- No rule but that for `BAD` leaves the position. -/
theorem action_gPos {s : LexState} {input : Text} {r : Pattern Char} {action : Action} {n : ℕ}
    (hr : (r, action) ∈ rules s.startCondition) (hn : n ∈ r.lengths input) :
    (action s (input.take n)).1 = s ∨ s.gPos < (action s (input.take n)).1.gPos := by
  have hpos : 0 < n := pos_of_mem_lengths (rules_not_nullable hr) hn
  cases hs : s.startCondition with
  | initial =>
    rw [hs] at hr
    rcases initial_action hs hr hn with ⟨s', h, -, -, hgPos, -⟩ | ⟨s', h, -, hgPos, -⟩ |
      ⟨s', t, h, -, -, hgPos, -⟩ | h
    all_goals rw [h]
    · exact .inr (by dsimp only; omega)
    · exact .inr (by dsimp only; omega)
    · exact .inr (by dsimp only; omega)
    · exact .inl rfl
  | str =>
    rw [hs] at hr
    rcases str_action hs hr hn with ⟨s', h, -, -, hgPos⟩ | ⟨s', t, h, -, -, hgPos⟩
    all_goals
      rw [h]
      exact .inr (by dsimp only; omega)

theorem yylex_gPos (s : LexState) (input : Text) :
    (yylex s input).2.1 = s ∨ s.gPos < (yylex s input).2.1.gPos := by
  induction hlen : input.length using Nat.strongRecOn generalizing s input with
  | ind k ih =>
    rcases yylex_cases s input with ⟨-, hend⟩ | ⟨r, action, n, hr, hn, hpos, hle, hnext⟩
    · exact .inl (by rw [hend])
    · have hstep := action_gPos hr hn
      rcases hnext with ⟨s', t, haction, hyylex⟩ | ⟨s', haction, hyylex⟩
      · rw [hyylex]
        rwa [haction] at hstep
      · have hdrop : (input.drop n).length < k := by
          rw [List.length_drop]
          omega
        rw [hyylex]
        rw [haction] at hstep
        rcases hstep with rfl | hlt
        · exact ih _ hdrop _ _ rfl
        · rcases ih _ hdrop s' (input.drop n) rfl with h | h
          · exact .inr (by rw [h]; exact hlt)
          · exact .inr (hlt.trans h)

/-- Before the first byte is counted, no literal is open. -/
def Unopened (g : LexState) : Prop := g.gPos = 0 → g.startCondition = .initial

theorem Unopened.yylexTimes (h : Unopened g) (k : ℕ) (input : Text) :
    Unopened (yylexTimes k g input).1 := by
  induction k generalizing g input with
  | zero => exact h
  | succ k ih =>
    refine ih (fun hzero => ?_) _
    rcases yylex_gPos g input with heq | hlt
    · rw [heq] at hzero ⊢
      exact h hzero
    · omega

theorem reachable_unopened (h : Reachable g) : Unopened g := by
  induction h with
  | fresh => exact fun _ => rfl
  | parseString script k _ ih => exact ih.yylexTimes k _

theorem Occurs.bounds {a root : Node F} (h : Occurs a root) (hroot : Nested root) :
    a.start ≤ a.stop ∧ a.stop ≤ root.stop := by
  induction h with
  | here => exact ⟨hroot.start_le_stop, le_refl _⟩
  | inside b hb _ ih =>
    cases hroot with
    | mk _ hin _ hargv =>
      obtain ⟨hle, hstop⟩ := ih (hargv b hb)
      exact ⟨hle, hstop.trans (hin b hb).2⟩

theorem assertFailed_eq {start stop : ℕ} (hle : start ≤ stop) (hstop : stop ≤ script.length)
    (value : Eval Value) (s : State) (hs : s.script = script) :
    assertFailed ⟨value, start, stop⟩ s = (.null, [], { s with
      errmsg := "assert failed: ".toList ++ (script.drop start).take (stop - start) }) := by
  have hsubstr : substr s.script start (stop - start) =
      some ((script.drop start).take (stop - start)) := by
    rw [substr, if_neg (by rw [hs]; omega), if_neg (by omega), hs]
    have : ((stop : ℤ) - start).toNat = stop - start := by omega
    rw [this, Int.toNat_natCast]
  simp only [assertFailed, bind, Logged.follow, Logged.get, hsubstr]
  rfl

theorem tokens_zero (hg : Reachable g) (hzero : g.gPos = 0) {input : Text}
    (hbad : ∀ t ∈ tokens g input, t.1 ≠ .bad) :
    lexemes input.length g input = tokens g input :=
  lexemes_eq (reachable_unopened hg hzero) (by omega) hbad

/-- With other calls before that counted bytes, the last token of the script is somewhere else. -/
theorem locationAt_stop {input : Text} (hbad : ∀ t ∈ tokens g input, t.1 ≠ .bad) {i : ℕ}
    (hi : i < (tokens g input).length) : (locationAt (tokens g input) i).stop =
      g.gPos + (locationAt (lexemes input.length g input) i).stop := by
  have hstop := @lexemes_stop g input g.gPos _ rfl (le_refl _) hbad
  have hi' : i < (lexemes input.length g input).length := hstop.length_eq ▸ hi
  have hget := (List.forall₂_iff_get.mp hstop).2 i hi hi'
  simpa [locationAt, hi, hi'] using hget.2

/-- The spans of an accepted script are exact just when no call before has counted a byte. -/
theorem accepts_exact_iff (fns : Functions F) (g : LexState) (hg : Reachable g) (script : Text)
    (root : Node F) (h : Accepts fns g script root) : Exact fns g script root ↔ g.gPos = 0 := by
  constructor
  · rintro ⟨⟨tree, hphrase, hcode, htrue⟩, -, -⟩
    have hbad := ne_bad_of_phrase hphrase
    obtain ⟨v, hv, hstop⟩ := phrase_stop hphrase
    have hlt : v.2 < (tokens g (cString script)).length := by
      simpa using (numbered_zipIdx _).2 v hv
    have heq := congrArg Node.stop (hcode.symm.trans htrue)
    have hlocate : ∀ (loc : ℕ → Location), (tree.locate loc).stop = (loc tree.stop).stop := by
      intro loc
      cases tree
      rfl
    rw [hlocate, hlocate, hstop, locationAt_stop hbad hlt] at heq
    omega
  · intro hzero
    obtain ⟨tree, hphrase, hroot⟩ := accepts_tree h
    have hbad := ne_bad_of_phrase hphrase
    have hinitial := reachable_unopened hg hzero
    have horder := inOrder_tokens hinitial hbad
    have hnumbered := numbered_zipIdx ((tokens g (cString script)).map Prod.fst)
    rw [List.length_map] at hnumbered
    obtain ⟨hnested, hspan⟩ := phrase_nested horder hphrase hnumbered
    rw [← hroot] at hnested hspan
    have hend : root.stop ≤ script.length := by
      obtain ⟨-, -, v, hv, -, hstop⟩ := hspan
      have hlt := hnumbered.2 v hv
      have hle := ((tokens_sorted hinitial hbad).1 _ (List.getElem_mem hlt)).2.2
      have hprefix : (cString script).length ≤ script.length :=
        (List.takeWhile_prefix _).length_le
      have hat : locationAt (tokens g (cString script)) v.2 =
          (tokens g (cString script))[v.2].2 := by simp [locationAt, hlt]
      rw [hat] at hstop
      omega
    refine ⟨⟨tree, hphrase, hroot, by rw [tokens_zero hg hzero hbad, hroot]⟩, hnested, ?_⟩
    intro e he
    obtain ⟨hle, hstop⟩ := he.bounds hnested
    exact ⟨hstop.trans hend, fun value s hs => assertFailed_eq hle (hstop.trans hend) value s hs⟩

end scripts

/-- The functions of `RegisterBuiltins`. -/
def builtins : Functions Builtin where
  literal := .literal
  concatFn := .concat
  equalityFn := .equality
  inequalityFn := .inequality
  logicalAndFn := .logicalAnd
  logicalOrFn := .logicalOr
  logicalNotFn := .logicalNot
  ifElseFn := .ifElse
  sequenceFn := .sequence
  findFunction name :=
    if name = "ifelse".toList then some .ifElse
    else if name = "abort".toList then some .abort
    else if name = "assert".toList then some .assert
    else if name = "concat".toList then some .concat
    else if name = "is_substring".toList then some .substring
    else if name = "stdout".toList then some .stdout
    else if name = "sleep".toList then some .sleep
    else if name = "less_than_int".toList then some .lessThanInt
    else if name = "greater_than_int".toList then some .greaterThanInt
    else none

theorem yylex_nil (g : LexState) (hg : g.startCondition = .initial) :
    yylex g [] = (none, g, []) := by
  refine yylex_end ?_
  rw [hg]
  simp [scan, rules, initialRules, longest, lengths, plus]

theorem yylex_letter (g : LexState) (hg : g.startCondition = .initial) :
    yylex g ['a'] = (some (.string ['a']), advance g ['a'], []) := by
  have hscan : scan (rules g.startCondition) ['a'] = some (advanceReturn .string, 1) := by
    rw [hg]
    simp [scan, rules, initialRules, longest, lengths, plus, isWordChar, isOperator, isBlank,
      notNewline]
  exact yylex_return hscan rfl

theorem tokens_letter (g : LexState) (hg : g.startCondition = .initial) :
    tokens g ['a'] = [(.string ['a'], ⟨g.gPos, g.gPos + 1⟩)] := by
  rw [tokens_cons (yylex_letter g hg), tokens_nil (yylex_nil (advance g ['a']) hg)]
  rfl

/-- A script of one letter: a shift and a reduction. -/
theorem accepts_letter (g : LexState) (hg : g.startCondition = .initial) :
    Accepts builtins g ['a'] (.mk .literal ['a'] [] g.gPos (g.gPos + 1)) := by
  have htokens : tokens g (cString ['a']) = [(.string ['a'], ⟨g.gPos, g.gPos + 1⟩)] :=
    tokens_letter g hg
  rw [Accepts, htokens]
  exact .shift _ _ (@Parses.reduce _ _ _ [] _ _ _ _ rfl (.accept _ _))

/-- The state after the first script. -/
def secondCall : LexState := (yylexTimes 2 .fresh (cString ['a'])).1

theorem secondCall_eq : secondCall = advance .fresh ['a'] := by
  have hscript : cString ['a'] = ['a'] := rfl
  rw [secondCall, hscript, yylexTimes, yylex_letter .fresh rfl, yylexTimes,
    yylex_nil (advance .fresh ['a']) rfl]
  rfl

/-- The last `n` symbols of the stack are the right hand side of a rule. -/
theorem Parses.reduceLast {fns : Functions F} {bottom : Location}
    {stack : List (Item F × Location)} {input : List (Token × Location)} {root : Node F} (n : ℕ)
    {item : Item F}
    (hitem : semanticAction fns (location bottom (stack.take (stack.length - n))
      (stack.drop (stack.length - n))) (stack.drop (stack.length - n)) = some item)
    (h : Parses fns bottom (stack.take (stack.length - n) ++ [(item, location bottom
      (stack.take (stack.length - n)) (stack.drop (stack.length - n)))]) input root) :
    Parses fns bottom stack input root := by
  rw [← List.take_append_drop (stack.length - n) stack]
  exact .reduce hitem h

/-- A call with a call and a word as its arguments. -/
def nestedCall : Text := "concat(concat(a),b)".toList

def nestedRoot : Node Builtin :=
  .mk .concat "concat".toList
    [.mk .concat "concat".toList [.mk .literal ['a'] [] 14 15] 7 16, .mk .literal ['b'] [] 17 18]
    0 19

theorem tokens_nestedCall : tokens .fresh (cString nestedCall) =
    [(.string "concat".toList, ⟨0, 6⟩), (.char '(', ⟨6, 7⟩), (.string "concat".toList, ⟨7, 13⟩),
      (.char '(', ⟨13, 14⟩), (.string ['a'], ⟨14, 15⟩), (.char ')', ⟨15, 16⟩),
      (.char ',', ⟨16, 17⟩), (.string ['b'], ⟨17, 18⟩), (.char ')', ⟨18, 19⟩)] := by
  decide +kernel

theorem accepts_nestedCall : Accepts builtins .fresh nestedCall nestedRoot := by
  rw [Accepts, tokens_nestedCall]
  refine .shift _ _ (.shift _ _ (.shift _ _ (.shift _ _ (.shift _ _ ?_))))
  -- `a` is the argument list of the inner call
  refine .reduceLast 1 rfl (.reduceLast 1 rfl (.shift _ _ (.reduceLast 4 rfl ?_)))
  -- and that one is the first argument of the outer one
  refine .reduceLast 1 rfl (.shift _ _ (.shift _ _ (.reduceLast 1 rfl (.reduceLast 3 rfl ?_))))
  exact .shift _ _ (.reduceLast 4 rfl (.accept _ _))

theorem accepts_exact_nestedCall : Exact builtins .fresh nestedCall nestedRoot :=
  (accepts_exact_iff builtins .fresh .fresh nestedCall nestedRoot accepts_nestedCall).mpr rfl

/-- The second script of a process: the span is one byte on. -/
theorem not_exact_secondCall : Reachable secondCall ∧
    Accepts builtins secondCall ['a'] (.mk .literal ['a'] [] 1 2) ∧
    ¬Exact builtins secondCall ['a'] (.mk .literal ['a'] [] 1 2) := by
  refine ⟨.parseString ['a'] 2 .fresh, ?_, fun h => ?_⟩
  · rw [secondCall_eq]
    exact accepts_letter (advance .fresh ['a']) rfl
  · exact absurd (h.copied _ .here).1 (by decide)

end BootableRecovery.Edify
