import BootableRecovery.Edify.Lexer

namespace BootableRecovery.Edify
open Lib

/-! The parser of edify scripts: the rules of the grammar with their actions. Its tables are
generated from the grammar; a run here makes any shifts and reductions the grammar has. -/

/-- `Expr`, over any kind of functions. -/
inductive Node (F : Type)
  | mk (fn : F) (name : Text) (argv : List (Node F)) (start stop : ℕ)

/-- The functions that the rules name, and `FindFunction`. -/
structure Functions (F : Type) where
  literal : F
  concatFn : F
  equalityFn : F
  inequalityFn : F
  logicalAndFn : F
  logicalOrFn : F
  logicalNotFn : F
  ifElseFn : F
  sequenceFn : F
  findFunction : Text → Option F

/-- The value of a symbol on the parser's stack. -/
inductive Item (F : Type)
  | token (t : Token)
  | expr (e : Node F)
  | arglist (args : List (Node F))

variable {F : Type}

namespace Node

def start : Node F → ℕ
  | mk _ _ _ start _ => start

def stop : Node F → ℕ
  | mk _ _ _ _ stop => stop

/-- `$$->start=..; $$->end=..;` -/
def withSpan : Node F → Location → Node F
  | mk fn name argv _ _, loc => mk fn name argv loc.start loc.stop

end Node

/-- `YYLLOC_DEFAULT`: from the start of the first symbol to the end of the last one. -/
def yyllocDefault (below : Location) (rhs : List Location) : Location :=
  match rhs.head?, rhs.getLast? with
  | some first, some last => ⟨first.start, last.stop⟩
  | _, _ => below

/-- The location of a right hand side on the stack; `bottom` is the one below the stack. -/
def location (bottom : Location) (below rhs : List (Item F × Location)) : Location :=
  yyllocDefault ((below.map Prod.snd).getLastD bottom) (rhs.map Prod.snd)

/-- `Build` -/
def build (fn : F) (loc : Location) (argv : List (Node F)) : Item F :=
  .expr (.mk fn "(operator)".toList argv loc.start loc.stop)

/-- The function of an operator between two expressions. -/
def Functions.binary (fns : Functions F) : Token → Option F
  | .char ';' => some fns.sequenceFn
  | .char '+' => some fns.concatFn
  | .eq => some fns.equalityFn
  | .ne => some fns.inequalityFn
  | .and => some fns.logicalAndFn
  | .or => some fns.logicalOrFn
  | _ => none

/-- The action of the rule with this right hand side; `loc` is `@$`. There is none for an unknown
function. -/
def semanticAction (fns : Functions F) (loc : Location) :
    List (Item F × Location) → Option (Item F)
  | [(.token (.string str), _)] => some (.expr (.mk fns.literal str [] loc.start loc.stop))
  | [(.token (.char '('), _), (.expr e, _), (.token (.char ')'), _)] =>
    some (.expr (e.withSpan loc))
  | [(.expr e, loc₁), (.token (.char ';'), _)] => some (.expr (e.withSpan loc₁))
  | [(.expr left, _), (.token t, _), (.expr right, _)] =>
    (fns.binary t).map fun fn => build fn loc [left, right]
  | [(.token (.char '!'), _), (.expr e, _)] => some (build fns.logicalNotFn loc [e])
  | [(.token .ifToken, _), (.expr cond, _), (.token .thenToken, _), (.expr e, _),
      (.token .endifToken, _)] => some (build fns.ifElseFn loc [cond, e])
  | [(.token .ifToken, _), (.expr cond, _), (.token .thenToken, _), (.expr e, _),
      (.token .elseToken, _), (.expr e', _), (.token .endifToken, _)] =>
    some (build fns.ifElseFn loc [cond, e, e'])
  | [(.token (.string name), _), (.token (.char '('), _), (.arglist args, _),
      (.token (.char ')'), _)] =>
    (fns.findFunction name).map fun fn => .expr (.mk fn name args loc.start loc.stop)
  | [] => some (.arglist [])
  | [(.expr e, _)] => some (.arglist [e])
  | [(.arglist args, _), (.token (.char ','), _), (.expr e, _)] => some (.arglist (args ++ [e]))
  | _ => none

/-- A run of the parser to its end with no error: the stack, the tokens to come, and the expression
it returns. -/
inductive Parses (fns : Functions F) (bottom : Location) :
    List (Item F × Location) → List (Token × Location) → Node F → Prop
  | shift {stack input root} (t : Token) (loc : Location) :
      Parses fns bottom (stack ++ [(.token t, loc)]) input root →
      Parses fns bottom stack ((t, loc) :: input) root
  | reduce {below rhs input root item} :
      semanticAction fns (location bottom below rhs) rhs = some item →
      Parses fns bottom (below ++ [(item, location bottom below rhs)]) input root →
      Parses fns bottom (below ++ rhs) input root
  | accept (root : Node F) (loc : Location) : Parses fns bottom [(.expr root, loc)] [] root

/-- `ParseString` accepts the script: it returns 0, with no error counted. -/
def Accepts (fns : Functions F) (g : LexState) (script : Text) (root : Node F) : Prop :=
  Parses fns g.yylloc [] (tokens g (cString script)) root

/-! What the grammar derives, by the numbers of the tokens: in a tree, each expression starts at its
first token and stops at its last one. -/

mutual

inductive Phrase (fns : Functions F) : List (Token × ℕ) → Node F → Prop
  | literal (str : Text) (i : ℕ) : Phrase fns [(.string str, i)] (.mk fns.literal str [] i i)
  | parens {ts e} (i j : ℕ) : Phrase fns ts e →
      Phrase fns ((.char '(', i) :: (ts ++ [(.char ')', j)])) (e.withSpan ⟨i, j⟩)
  -- what stands before the semicolon is the text of the expression
  | ended {ts e} (u v : Token × ℕ) (i : ℕ) : Phrase fns ts e → ts.head? = some u →
      ts.getLast? = some v → Phrase fns (ts ++ [(.char ';', i)]) (e.withSpan ⟨u.2, v.2⟩)
  | binary {ts ts' left right} (t : Token) (i : ℕ) (fn : F) (u v : Token × ℕ) :
      fns.binary t = some fn → Phrase fns ts left → Phrase fns ts' right → ts.head? = some u →
      ts'.getLast? = some v →
      Phrase fns (ts ++ (t, i) :: ts') (.mk fn "(operator)".toList [left, right] u.2 v.2)
  | not {ts e} (i : ℕ) (v : Token × ℕ) : Phrase fns ts e → ts.getLast? = some v →
      Phrase fns ((.char '!', i) :: ts) (.mk fns.logicalNotFn "(operator)".toList [e] i v.2)
  | ifThen {ts ts' cond e} (i j k : ℕ) : Phrase fns ts cond → Phrase fns ts' e →
      Phrase fns ((.ifToken, i) :: (ts ++ (.thenToken, j) :: (ts' ++ [(.endifToken, k)])))
        (.mk fns.ifElseFn "(operator)".toList [cond, e] i k)
  | ifThenElse {ts ts' ts'' cond e e'} (i j k m : ℕ) : Phrase fns ts cond → Phrase fns ts' e →
      Phrase fns ts'' e' →
      Phrase fns ((.ifToken, i) :: (ts ++ (.thenToken, j) ::
          (ts' ++ (.elseToken, k) :: (ts'' ++ [(.endifToken, m)]))))
        (.mk fns.ifElseFn "(operator)".toList [cond, e, e'] i m)
  | call {ts args} (name : Text) (i j k : ℕ) (fn : F) : fns.findFunction name = some fn →
      Arguments fns ts args →
      Phrase fns ((.string name, i) :: (.char '(', j) :: (ts ++ [(.char ')', k)]))
        (.mk fn name args i k)

inductive Arguments (fns : Functions F) : List (Token × ℕ) → List (Node F) → Prop
  | nil : Arguments fns [] []
  | one {ts e} : Phrase fns ts e → Arguments fns ts [e]
  | snoc {ts ts' args e} (i : ℕ) : Arguments fns ts args → Phrase fns ts' e →
      Arguments fns (ts ++ (.char ',', i) :: ts') (args ++ [e])

end

/-! Each symbol on the stack stands for a piece of the tokens. -/

mutual

/-- The tree with the locations of its tokens. -/
def Node.locate (loc : ℕ → Location) : Node F → Node F
  | .mk fn name argv i j => .mk fn name (locateAll loc argv) (loc i).start (loc j).stop

def locateAll (loc : ℕ → Location) : List (Node F) → List (Node F)
  | [] => []
  | e :: es => e.locate loc :: locateAll loc es

end

section covers
variable {fns : Functions F} {loc : ℕ → Location}

theorem locateAll_append (es es' : List (Node F)) :
    locateAll loc (es ++ es') = locateAll loc es ++ locateAll loc es' := by
  induction es with
  | nil => rfl
  | cons e es ih => simp only [List.cons_append, locateAll, ih]

theorem locate_withSpan (e : Node F) (i j : ℕ) : (e.withSpan ⟨i, j⟩).locate loc =
    (e.locate loc).withSpan ⟨(loc i).start, (loc j).stop⟩ := by
  cases e
  rfl

variable (fns loc)

/-- The tokens `us` are what the symbol stands for. -/
def Reads (symbol : Item F × Location) (us : List (Token × ℕ)) : Prop :=
  match symbol.1 with
  | .token t => ∃ i, us = [(t, i)] ∧ symbol.2 = loc i
  | .expr e => ∃ tree u v, Phrase fns us tree ∧ e = tree.locate loc ∧ us.head? = some u ∧
      us.getLast? = some v ∧ symbol.2 = ⟨(loc u.2).start, (loc v.2).stop⟩
  | .arglist args => ∃ trees, Arguments fns us trees ∧ args = locateAll loc trees

def Covers : List (Item F × Location) → List (Token × ℕ) → Prop
  | [], us => us = []
  | symbol :: symbols, us => ∃ vs ws, us = vs ++ ws ∧ Reads fns loc symbol vs ∧ Covers symbols ws

variable {fns loc}

theorem covers_append {symbols symbols' : List (Item F × Location)} {us : List (Token × ℕ)} :
    Covers fns loc (symbols ++ symbols') us ↔
      ∃ vs ws, us = vs ++ ws ∧ Covers fns loc symbols vs ∧ Covers fns loc symbols' ws := by
  induction symbols generalizing us with
  | nil => simp [Covers]
  | cons symbol symbols ih =>
    simp only [List.cons_append, Covers, ih]
    constructor
    · rintro ⟨vs, ws, rfl, hreads, vs', ws', rfl, hleft, hright⟩
      exact ⟨vs ++ vs', ws', by rw [List.append_assoc], ⟨vs, vs', rfl, hreads, hleft⟩, hright⟩
    · rintro ⟨-, ws, rfl, ⟨vs, vs', rfl, hreads, hleft⟩, hright⟩
      exact ⟨vs, vs' ++ ws, by rw [List.append_assoc], hreads, vs', ws, rfl, hleft, hright⟩

theorem covers_singleton {symbol : Item F × Location} {us : List (Token × ℕ)} :
    Covers fns loc [symbol] us ↔ Reads fns loc symbol us := by
  simp [Covers]

theorem covers_token {t : Token} {l : Location} {symbols : List (Item F × Location)}
    {us : List (Token × ℕ)} : Covers fns loc ((.token t, l) :: symbols) us ↔
      ∃ i ws, us = (t, i) :: ws ∧ l = loc i ∧ Covers fns loc symbols ws := by
  simp only [Covers, Reads]
  constructor
  · rintro ⟨-, ws, rfl, ⟨i, rfl, hl⟩, hws⟩
    exact ⟨i, ws, rfl, hl, hws⟩
  · rintro ⟨i, ws, rfl, hl, hws⟩
    exact ⟨[(t, i)], ws, rfl, ⟨i, rfl, hl⟩, hws⟩

theorem covers_expr {e : Node F} {l : Location} {symbols : List (Item F × Location)}
    {us : List (Token × ℕ)} (h : Covers fns loc ((.expr e, l) :: symbols) us) :
    ∃ vs ws tree u v, us = vs ++ ws ∧ Phrase fns vs tree ∧ e = tree.locate loc ∧
      vs.head? = some u ∧ vs.getLast? = some v ∧ l = ⟨(loc u.2).start, (loc v.2).stop⟩ ∧
      Covers fns loc symbols ws := by
  obtain ⟨vs, ws, rfl, ⟨tree, u, v, htree, he, hu, hv, hl⟩, hws⟩ := h
  exact ⟨vs, ws, tree, u, v, rfl, htree, he, hu, hv, hl, hws⟩

theorem covers_arglist {args : List (Node F)} {l : Location} {symbols : List (Item F × Location)}
    {us : List (Token × ℕ)} (h : Covers fns loc ((.arglist args, l) :: symbols) us) :
    ∃ vs ws trees, us = vs ++ ws ∧ Arguments fns vs trees ∧ args = locateAll loc trees ∧
      Covers fns loc symbols ws := by
  obtain ⟨vs, ws, rfl, ⟨trees, htrees, hargs⟩, hws⟩ := h
  exact ⟨vs, ws, trees, rfl, htrees, hargs, hws⟩

theorem getLast?_closed {α : Type} (a : α) (as : List α) (b : α) :
    (a :: (as ++ [b])).getLast? = some b := List.getLast?_concat (l := a :: as)

/-- A reduction keeps the tokens. -/
theorem reads_semanticAction {below : Location} {rhs : List (Item F × Location)} {item : Item F}
    {us : List (Token × ℕ)}
    (h : semanticAction fns (yyllocDefault below (rhs.map Prod.snd)) rhs = some item)
    (hus : Covers fns loc rhs us) :
    Reads fns loc (item, yyllocDefault below (rhs.map Prod.snd)) us := by
  unfold semanticAction at h
  split at h
  case h_1 str l =>
    obtain rfl := Option.some.inj h
    obtain ⟨i, ws, rfl, rfl, rfl⟩ := covers_token.mp hus
    exact ⟨_, (.string str, i), (.string str, i), .literal str i, rfl, rfl, rfl, rfl⟩
  case h_2 l e l' l'' =>
    obtain rfl := Option.some.inj h
    obtain ⟨i, ws, rfl, rfl, hws₁⟩ := covers_token.mp hus
    obtain ⟨vs, ws, tree, u, v, rfl, htree, rfl, -, -, -, hws₂⟩ := covers_expr hws₁
    obtain ⟨j, ws, rfl, rfl, rfl⟩ := covers_token.mp hws₂
    exact ⟨_, (.char '(', i), (.char ')', j), .parens i j htree, (locate_withSpan _ _ _).symm,
      rfl, getLast?_closed _ _ _, rfl⟩
  case h_3 e l l' =>
    obtain rfl := Option.some.inj h
    obtain ⟨vs, ws, tree, u, v, rfl, htree, rfl, hu, hv, rfl, hws₁⟩ := covers_expr hus
    obtain ⟨i, ws, rfl, rfl, rfl⟩ := covers_token.mp hws₁
    exact ⟨_, u, (.char ';', i), .ended u v i htree hu hv, (locate_withSpan _ _ _).symm,
      by simp [hu], by simp, rfl⟩
  case h_4 left l t l' right l'' =>
    obtain ⟨fn, hfn, rfl⟩ := Option.map_eq_some_iff.mp h
    obtain ⟨vs, ws, tree, u, v, rfl, htree, rfl, hu, -, rfl, hws₁⟩ := covers_expr hus
    obtain ⟨i, ws, rfl, rfl, hws₂⟩ := covers_token.mp hws₁
    obtain ⟨vs', ws, tree', u', v', rfl, htree', rfl, -, hv', rfl, rfl⟩ := covers_expr hws₂
    have hphrase := Phrase.binary t i fn u v' hfn htree htree' hu hv'
    refine ⟨_, u, v', (List.append_nil vs').symm ▸ hphrase, rfl, by simp [hu], ?_, rfl⟩
    simp [List.getLast?_append, List.getLast?_cons, hv']
  case h_5 l e l' =>
    obtain rfl := Option.some.inj h
    obtain ⟨i, ws, rfl, rfl, hws₁⟩ := covers_token.mp hus
    obtain ⟨vs, ws, tree, u, v, rfl, htree, rfl, -, hv, rfl, rfl⟩ := covers_expr hws₁
    have hphrase := Phrase.not i v htree hv
    refine ⟨_, (.char '!', i), v, (List.append_nil vs).symm ▸ hphrase, rfl, rfl, ?_, rfl⟩
    simp [List.getLast?_cons, hv]
  case h_6 l cond l' l'' e l₃ l₄ =>
    obtain rfl := Option.some.inj h
    obtain ⟨i, ws, rfl, rfl, hws₁⟩ := covers_token.mp hus
    obtain ⟨vs, ws, tree, -, -, rfl, htree, rfl, -, -, -, hws₂⟩ := covers_expr hws₁
    obtain ⟨j, ws, rfl, rfl, hws₃⟩ := covers_token.mp hws₂
    obtain ⟨vs', ws, tree', -, -, rfl, htree', rfl, -, -, -, hws₄⟩ := covers_expr hws₃
    obtain ⟨k, ws, rfl, rfl, rfl⟩ := covers_token.mp hws₄
    exact ⟨_, (.ifToken, i), (.endifToken, k), .ifThen i j k htree htree', rfl, rfl,
      by simpa using getLast?_closed _ (vs ++ (.thenToken, j) :: vs') _, rfl⟩
  case h_7 l cond l' l'' e l₃ l₄ e' l₅ l₆ =>
    obtain rfl := Option.some.inj h
    obtain ⟨i, ws, rfl, rfl, hws₁⟩ := covers_token.mp hus
    obtain ⟨vs, ws, tree, -, -, rfl, htree, rfl, -, -, -, hws₂⟩ := covers_expr hws₁
    obtain ⟨j, ws, rfl, rfl, hws₃⟩ := covers_token.mp hws₂
    obtain ⟨vs', ws, tree', -, -, rfl, htree', rfl, -, -, -, hws₄⟩ := covers_expr hws₃
    obtain ⟨k, ws, rfl, rfl, hws₅⟩ := covers_token.mp hws₄
    obtain ⟨vs'', ws, tree'', -, -, rfl, htree'', rfl, -, -, -, hws₆⟩ := covers_expr hws₅
    obtain ⟨m, ws, rfl, rfl, rfl⟩ := covers_token.mp hws₆
    exact ⟨_, (.ifToken, i), (.endifToken, m), .ifThenElse i j k m htree htree' htree'', rfl, rfl,
      by simpa using
        getLast?_closed _ (vs ++ (.thenToken, j) :: (vs' ++ (.elseToken, k) :: vs'')) _, rfl⟩
  case h_8 name l l' args l'' l₃ =>
    obtain ⟨fn, hfn, rfl⟩ := Option.map_eq_some_iff.mp h
    obtain ⟨i, ws, rfl, rfl, hws₁⟩ := covers_token.mp hus
    obtain ⟨j, ws, rfl, rfl, hws₂⟩ := covers_token.mp hws₁
    obtain ⟨vs, ws, trees, rfl, htrees, rfl, hws₃⟩ := covers_arglist hws₂
    obtain ⟨k, ws, rfl, rfl, rfl⟩ := covers_token.mp hws₃
    exact ⟨_, (.string name, i), (.char ')', k), .call name i j k fn hfn htrees, rfl, rfl,
      getLast?_closed (.string name, i) ((.char '(', j) :: vs) (.char ')', k), rfl⟩
  case h_9 =>
    obtain rfl := Option.some.inj h
    obtain rfl : us = [] := hus
    exact ⟨[], .nil, rfl⟩
  case h_10 e l =>
    obtain rfl := Option.some.inj h
    obtain ⟨vs, ws, tree, u, v, rfl, htree, rfl, -, -, -, rfl⟩ := covers_expr hus
    rw [List.append_nil]
    exact ⟨[tree], .one htree, rfl⟩
  case h_11 args l l' e l'' =>
    obtain rfl := Option.some.inj h
    obtain ⟨vs, ws, trees, rfl, htrees, rfl, hws₁⟩ := covers_arglist hus
    obtain ⟨i, ws, rfl, rfl, hws₂⟩ := covers_token.mp hws₁
    obtain ⟨vs', ws, tree, -, -, rfl, htree, rfl, -, -, -, rfl⟩ := covers_expr hws₂
    rw [List.append_nil]
    exact ⟨trees ++ [tree], .snoc i htrees htree, by rw [locateAll_append]; rfl⟩
  case h_12 => cases h

/-- A run with no error builds the tree of a phrase, with the locations of the tokens. -/
theorem parses_phrase {bottom : Location} {stack : List (Item F × Location)}
    {input : List (Token × Location)} {root : Node F} (h : Parses fns bottom stack input root)
    {us vs : List (Token × ℕ)} (hstack : Covers fns loc stack us)
    (hinput : input = vs.map fun v => (v.1, loc v.2)) :
    ∃ tree, Phrase fns (us ++ vs) tree ∧ root = tree.locate loc := by
  induction h generalizing us vs with
  | shift t loc' _ ih =>
    cases vs with
    | nil => simp at hinput
    | cons v vs =>
      simp only [List.map_cons, List.cons.injEq, Prod.mk.injEq] at hinput
      obtain ⟨⟨rfl, rfl⟩, rfl⟩ := hinput
      have hstack' : Covers fns loc (_ ++ [(.token v.1, loc v.2)]) (us ++ [v]) := covers_append.mpr
        ⟨us, [v], rfl, hstack, covers_token.mpr ⟨v.2, [], rfl, rfl, rfl⟩⟩
      simpa using ih hstack' rfl
  | reduce haction _ ih =>
    obtain ⟨us, ws, rfl, hbelow, hrhs⟩ := covers_append.mp hstack
    exact ih (covers_append.mpr ⟨us, ws, rfl, hbelow,
      covers_singleton.mpr (reads_semanticAction haction hrhs)⟩) hinput
  | accept root loc' =>
    obtain rfl : vs = [] := by simpa using hinput
    obtain ⟨tree, -, -, hphrase, hroot, -⟩ := covers_singleton.mp hstack
    exact ⟨tree, by simpa using hphrase, hroot⟩

end covers
end BootableRecovery.Edify
