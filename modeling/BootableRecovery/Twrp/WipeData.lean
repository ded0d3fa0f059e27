import BootableRecovery.Twrp.BackupDivision

namespace BootableRecovery.Twrp
open Lib

/-! Wiping data without the media: which paths the exclusions keep, and which stay because a call
failed. -/

/-- `d_type` of an entry that is no directory. -/
inductive LeafType
  | regular
  | symlink
  | fifo
  | socket
  | block
  | character
  | unknown
  deriving DecidableEq, Repr

/-- The types that are unlinked. -/
def LeafType.deleted : LeafType → Bool
  | .regular => true
  | .symlink => true
  | .fifo => true
  | .socket => true
  | .block => false
  | .character => false
  | .unknown => false

/-- A directory: its entries as `readdir` lists them, without `.` and `..`. -/
inductive DataTree
  | nil
  | leaf (name : Text) (type : LeafType) (rest : DataTree)
  | dir (name : Text) (contents rest : DataTree)
  deriving DecidableEq, Repr

/-- The exclusions of a wipe, and which of its calls succeed. -/
structure WipeEnv where
  wipeExclusions : TWExclude
  opens : Text → Bool
  unlinks : Text → Bool
  rmdirs : Text → Bool

def TWExclude.addAbsoluteDir (ex : TWExclude) (dir : Text) : TWExclude :=
  { ex with absolutedir := ex.absolutedir ++ [removeTrailingSlashes dir] }

variable (env : WipeEnv)

/-- The loop over one directory, and what it leaves there. A directory that cannot be wiped ends the
loop; one that is wiped is removed if it is empty. -/
def wipeLoop (parent : Text) : DataTree → Bool × DataTree
  | .nil => (true, .nil)
  | .leaf name type rest =>
    let r := wipeLoop parent rest
    if env.wipeExclusions.checkSkipDirs (parent ++ name) then (r.1, .leaf name type r.2)
    else if type.deleted && env.unlinks (parent ++ name) then r
    else (r.1, .leaf name type r.2)
  | .dir name contents rest =>
    let r := wipeLoop parent rest
    if env.wipeExclusions.checkSkipDirs (parent ++ name) then (r.1, .dir name contents r.2)
    else
      let dir := parent ++ name ++ ['/']
      let inner := if env.opens dir then wipeLoop dir contents else (false, contents)
      if !inner.1 then (false, .dir name inner.2 rest)
      else if inner.2 = .nil ∧ env.rmdirs dir = true then r
      else (r.1, .dir name inner.2 r.2)

def wipeDataWithoutWipingMediaFunc (parent : Text) (tree : DataTree) : Bool × DataTree :=
  if env.opens parent then wipeLoop env parent tree else (false, tree)

/-- Everything below a directory, by the names that lead there. Directories have no leaf type. -/
def DataTree.paths : DataTree → List (List Text × Option LeafType)
  | .nil => []
  | .leaf name type rest => ([name], some type) :: rest.paths
  | .dir name contents rest =>
    ([name], none) :: (contents.paths.map fun p => (name :: p.1, p.2)) ++ rest.paths

/-- The path that the names make below `parent`, which ends in a slash. -/
def pathOf (parent : Text) (names : List Text) : Text := parent ++ ['/'].intercalate names

/-- A name on the way to the path, or its last one, is excluded. -/
def Excluded (parent : Text) (names : List Text) : Prop :=
  ∃ q, q ≠ [] ∧ q <+: names ∧ env.wipeExclusions.checkSkipDirs (pathOf parent q) = true

/-- The call that would remove the path fails. -/
def CallFails (parent : Text) (p : List Text × Option LeafType) : Prop :=
  match p.2 with
  | some _ => env.unlinks (pathOf parent p.1) = false
  | none => env.rmdirs (pathOf parent p.1 ++ ['/']) = false

/-- A directory that is not excluded can be opened. -/
def Opened (parent : Text) (p : List Text × Option LeafType) : Prop :=
  p.2 = none → ¬Excluded env parent p.1 → env.opens (pathOf parent p.1 ++ ['/']) = true

/-- Why a path is still there after a wipe that succeeded. -/
def MayRemain (parent : Text) (remaining : List (List Text × Option LeafType))
    (p : List Text × Option LeafType) : Prop :=
  Excluded env parent p.1 ∨ (∃ q ∈ remaining, p.1 <+: q.1 ∧ p.1 ≠ q.1) ∨
    (∃ type, p.2 = some type ∧ type.deleted = false) ∨ CallFails env parent p

section Paths
variable {env} {parent name : Text} {names : List Text} {tree : DataTree}
  {p : List Text × Option LeafType}

theorem pathOf_singleton (parent name : Text) : pathOf parent [name] = parent ++ name := by
  rw [pathOf, List.intercalate_singleton]

theorem pathOf_cons (h : names ≠ []) :
    pathOf parent (name :: names) = pathOf (parent ++ name ++ ['/']) names := by
  simp only [pathOf, List.intercalate_cons_of_ne_nil h, List.append_assoc]

theorem paths_ne_nil (h : p ∈ tree.paths) : p.1 ≠ [] := by
  induction tree generalizing p with
  | nil => exact absurd h List.not_mem_nil
  | leaf name type rest ih =>
    obtain rfl | h := List.mem_cons.mp h
    · exact List.cons_ne_nil _ _
    · exact ih h
  | dir name contents rest _ ih =>
    rw [DataTree.paths, List.cons_append, List.mem_cons, List.mem_append, List.mem_map] at h
    obtain rfl | ⟨q, -, rfl⟩ | h := h
    · exact List.cons_ne_nil _ _
    · exact List.cons_ne_nil _ _
    · exact ih h

theorem excluded_cons :
    Excluded env parent (name :: names) ↔
      env.wipeExclusions.checkSkipDirs (parent ++ name) = true ∨
        Excluded env (parent ++ name ++ ['/']) names := by
  constructor
  · rintro ⟨q, hne, hprefix, hskip⟩
    obtain ⟨d, q, rfl⟩ := List.exists_cons_of_ne_nil hne
    obtain ⟨rfl, hq⟩ := List.cons_prefix_cons.mp hprefix
    by_cases hnil : q = []
    · rw [hnil, pathOf_singleton] at hskip
      exact Or.inl hskip
    · rw [pathOf_cons hnil] at hskip
      exact Or.inr ⟨q, hnil, hq, hskip⟩
  · rintro (hskip | ⟨q, hne, hprefix, hskip⟩)
    · exact ⟨[name], List.cons_ne_nil _ _, List.cons_prefix_cons.mpr ⟨rfl, List.nil_prefix⟩, by
        rwa [pathOf_singleton]⟩
    · exact ⟨name :: q, List.cons_ne_nil _ _, List.cons_prefix_cons.mpr ⟨rfl, hprefix⟩, by
        rwa [pathOf_cons hne]⟩

theorem excluded_singleton :
    Excluded env parent [name] ↔ env.wipeExclusions.checkSkipDirs (parent ++ name) = true := by
  rw [excluded_cons, or_iff_left]
  rintro ⟨q, hne, hprefix, -⟩
  exact hne (List.prefix_nil.mp hprefix)

theorem callFails_cons (h : p.1 ≠ []) :
    CallFails env parent (name :: p.1, p.2) ↔ CallFails env (parent ++ name ++ ['/']) p := by
  unfold CallFails
  rw [pathOf_cons h]

theorem exists_path (h : tree ≠ .nil) : ∃ p, p ∈ tree.paths := by
  cases tree with
  | nil => exact absurd rfl h
  | leaf name type rest => exact ⟨_, List.mem_cons_self⟩
  | dir name contents rest => exact ⟨_, List.mem_cons_self⟩

theorem mem_dir_paths {contents rest : DataTree} :
    p ∈ (DataTree.dir name contents rest).paths ↔
      p = ([name], none) ∨ (∃ q ∈ contents.paths, (name :: q.1, q.2) = p) ∨ p ∈ rest.paths := by
  rw [DataTree.paths, List.cons_append, List.mem_cons, List.mem_append, List.mem_map]

theorem mem_leaf_paths {type : LeafType} {rest : DataTree} :
    p ∈ (DataTree.leaf name type rest).paths ↔ p = ([name], some type) ∨ p ∈ rest.paths := by
  rw [DataTree.paths, List.mem_cons]

/-- What is still there in a directory on the way is still there above it. -/
theorem MayRemain.cons {remaining remaining' : List (List Text × Option LeafType)}
    (hsub : ∀ q ∈ remaining', (name :: q.1, q.2) ∈ remaining) (hne : p.1 ≠ [])
    (h : MayRemain env (parent ++ name ++ ['/']) remaining' p) :
    MayRemain env parent remaining (name :: p.1, p.2) := by
  obtain hex | ⟨q, hq, hprefix, hneq⟩ | htype | hcall := h
  · exact Or.inl (excluded_cons.mpr (Or.inr hex))
  · refine Or.inr (Or.inl ⟨_, hsub q hq, List.cons_prefix_cons.mpr ⟨rfl, hprefix⟩, ?_⟩)
    exact fun heq => hneq (List.cons.inj heq).2
  · exact Or.inr (Or.inr (Or.inl htype))
  · exact Or.inr (Or.inr (Or.inr ((callFails_cons hne).mpr hcall)))

theorem MayRemain.mono {remaining remaining' : List (List Text × Option LeafType)}
    (hsub : ∀ q ∈ remaining', q ∈ remaining) (h : MayRemain env parent remaining' p) :
    MayRemain env parent remaining p := by
  obtain hex | ⟨q, hq, hprefix⟩ | hrest := h
  · exact Or.inl hex
  · exact Or.inr (Or.inl ⟨q, hsub q hq, hprefix⟩)
  · exact Or.inr (Or.inr hrest)

/-- Nothing that is excluded is removed. -/
theorem wipeLoop_keeps (h : p ∈ tree.paths) (hex : Excluded env parent p.1) :
    p ∈ (wipeLoop env parent tree).2.paths := by
  induction tree generalizing parent p with
  | nil => exact h
  | leaf name type rest ih =>
    rw [wipeLoop]
    obtain rfl | h := mem_leaf_paths.mp h
    · rw [if_pos (excluded_singleton.mp hex)]
      exact mem_leaf_paths.mpr (Or.inl rfl)
    · split_ifs
      · exact mem_leaf_paths.mpr (Or.inr (ih h hex))
      · exact ih h hex
      · exact mem_leaf_paths.mpr (Or.inr (ih h hex))
  | dir name contents rest ihContents ihRest =>
    rw [wipeLoop]
    by_cases hskip : env.wipeExclusions.checkSkipDirs (parent ++ name) = true
    · rw [if_pos hskip]
      obtain heq | hin | h := mem_dir_paths.mp h
      · exact mem_dir_paths.mpr (Or.inl heq)
      · exact mem_dir_paths.mpr (Or.inr (Or.inl hin))
      · exact mem_dir_paths.mpr (Or.inr (Or.inr (ihRest h hex)))
    rw [if_neg hskip]
    dsimp only
    have hinner : ∀ q ∈ contents.paths, Excluded env (parent ++ name ++ ['/']) q.1 →
        q ∈ (if env.opens (parent ++ name ++ ['/']) then
          wipeLoop env (parent ++ name ++ ['/']) contents else (false, contents)).2.paths := by
      intro q hq hqex
      split_ifs
      · exact ihContents hq hqex
      · exact hq
    generalize (if env.opens (parent ++ name ++ ['/']) then
      wipeLoop env (parent ++ name ++ ['/']) contents else (false, contents)) = inner at *
    obtain rfl | ⟨q, hq, rfl⟩ | h := mem_dir_paths.mp h
    · exact absurd (excluded_singleton.mp hex) hskip
    · have hqIn := hinner q hq ((excluded_cons.mp hex).resolve_left hskip)
      split_ifs with hfail hempty
      · exact mem_dir_paths.mpr (Or.inr (Or.inl ⟨q, hqIn, rfl⟩))
      · rw [hempty.1] at hqIn
        exact absurd hqIn List.not_mem_nil
      · exact mem_dir_paths.mpr (Or.inr (Or.inl ⟨q, hqIn, rfl⟩))
    · split_ifs
      · exact mem_dir_paths.mpr (Or.inr (Or.inr h))
      · exact ihRest h hex
      · exact mem_dir_paths.mpr (Or.inr (Or.inr (ihRest h hex)))

/-- A wipe that succeeds leaves nothing without a reason. -/
theorem wipeLoop_complete (hok : (wipeLoop env parent tree).1 = true)
    (h : p ∈ (wipeLoop env parent tree).2.paths) :
    MayRemain env parent (wipeLoop env parent tree).2.paths p := by
  induction tree generalizing parent p with
  | nil => exact absurd h List.not_mem_nil
  | leaf name type rest ih =>
    have hrest : ∀ q ∈ (wipeLoop env parent rest).2.paths,
        q ∈ (DataTree.leaf name type (wipeLoop env parent rest).2).paths := fun q hq =>
      mem_leaf_paths.mpr (Or.inr hq)
    rw [wipeLoop] at hok h ⊢
    split_ifs at hok h ⊢ with hskip hdelete
    · obtain rfl | h := mem_leaf_paths.mp h
      · exact Or.inl (excluded_singleton.mpr hskip)
      · exact (ih hok h).mono hrest
    · exact ih hok h
    · obtain rfl | h := mem_leaf_paths.mp h
      · rw [Bool.and_eq_true, not_and_or] at hdelete
        obtain htype | hcall := hdelete
        · exact Or.inr (Or.inr (Or.inl ⟨type, rfl, Bool.eq_false_of_not_eq_true htype⟩))
        · refine Or.inr (Or.inr (Or.inr ?_))
          rw [CallFails, pathOf_singleton]
          exact Bool.eq_false_of_not_eq_true hcall
      · exact (ih hok h).mono hrest
  | dir name contents rest ihContents ihRest =>
    have hrest : ∀ (inner : DataTree), ∀ q ∈ (wipeLoop env parent rest).2.paths,
        q ∈ (DataTree.dir name inner (wipeLoop env parent rest).2).paths := fun inner q hq =>
      mem_dir_paths.mpr (Or.inr (Or.inr hq))
    rw [wipeLoop] at hok h ⊢
    by_cases hskip : env.wipeExclusions.checkSkipDirs (parent ++ name) = true
    · rw [if_pos hskip] at hok h ⊢
      obtain rfl | ⟨q, -, rfl⟩ | h := mem_dir_paths.mp h
      · exact Or.inl (excluded_singleton.mpr hskip)
      · exact Or.inl (excluded_cons.mpr (Or.inl hskip))
      · exact (ihRest hok h).mono (hrest contents)
    rw [if_neg hskip] at hok h ⊢
    dsimp only at hok h ⊢
    by_cases hopens : env.opens (parent ++ name ++ ['/']) = true
    · rw [if_pos hopens] at hok h ⊢
      split_ifs at hok h ⊢ with hfail hempty
      · exact ihRest hok h
      · have hinner : (wipeLoop env (parent ++ name ++ ['/']) contents).1 = true := by
          simpa using hfail
        obtain rfl | ⟨q, hq, rfl⟩ | h := mem_dir_paths.mp h
        · by_cases hnil : (wipeLoop env (parent ++ name ++ ['/']) contents).2 = .nil
          · refine Or.inr (Or.inr (Or.inr ?_))
            rw [CallFails, pathOf_singleton]
            exact Bool.eq_false_of_not_eq_true fun hrmdir => hempty ⟨hnil, hrmdir⟩
          · obtain ⟨q, hq⟩ := exists_path hnil
            refine Or.inr (Or.inl ⟨(name :: q.1, q.2),
              mem_dir_paths.mpr (Or.inr (Or.inl ⟨q, hq, rfl⟩)),
              List.cons_prefix_cons.mpr ⟨rfl, List.nil_prefix⟩, ?_⟩)
            exact fun heq => paths_ne_nil hq (List.cons.inj heq).2.symm
        · exact (ihContents hinner hq).cons
            (fun q hq => mem_dir_paths.mpr (Or.inr (Or.inl ⟨q, hq, rfl⟩))) (paths_ne_nil hq)
        · exact (ihRest hok h).mono (hrest _)
    · have hfail : (!(false, contents).1) = true := rfl
      rw [if_neg hopens, if_pos hfail] at hok
      exact absurd hok Bool.false_ne_true

theorem opened_singleton (hskip : ¬env.wipeExclusions.checkSkipDirs (parent ++ name) = true) :
    Opened env parent ([name], none) ↔ env.opens (parent ++ name ++ ['/']) = true := by
  rw [Opened, excluded_singleton, pathOf_singleton]
  exact ⟨fun h => h rfl hskip, fun h _ _ => h⟩

theorem opened_cons (hskip : ¬env.wipeExclusions.checkSkipDirs (parent ++ name) = true)
    (hne : p.1 ≠ []) :
    Opened env parent (name :: p.1, p.2) ↔ Opened env (parent ++ name ++ ['/']) p := by
  rw [Opened, excluded_cons, or_iff_right hskip, pathOf_cons hne, Opened]

/-- Below an excluded directory everything is excluded. -/
theorem opened_of_skip (hskip : env.wipeExclusions.checkSkipDirs (parent ++ name) = true)
    (names : List Text) (type : Option LeafType) : Opened env parent (name :: names, type) :=
  fun _ hex => absurd (excluded_cons.mpr (Or.inl hskip)) hex

theorem wipeLoop_leaf_ok {type : LeafType} {rest : DataTree} :
    (wipeLoop env parent (.leaf name type rest)).1 = (wipeLoop env parent rest).1 := by
  rw [wipeLoop]
  split_ifs <;> rfl

theorem wipeLoop_dir_ok {contents rest : DataTree}
    (hskip : ¬env.wipeExclusions.checkSkipDirs (parent ++ name) = true) :
    (wipeLoop env parent (.dir name contents rest)).1 = true ↔
      env.opens (parent ++ name ++ ['/']) = true ∧
        (wipeLoop env (parent ++ name ++ ['/']) contents).1 = true ∧
        (wipeLoop env parent rest).1 = true := by
  rw [wipeLoop, if_neg hskip]
  dsimp only
  by_cases hopens : env.opens (parent ++ name ++ ['/']) = true
  · rw [if_pos hopens, hopens]
    cases hin : (wipeLoop env (parent ++ name ++ ['/']) contents).1 with
    | false => simp
    | true =>
      rw [if_neg (by simp)]
      split_ifs <;> simp
  · rw [if_neg hopens]
    exact iff_of_false (by simp) fun h => hopens h.1

/-- The loop succeeds if and only if every directory that it comes to can be opened. -/
theorem wipeLoop_ok_iff :
    (wipeLoop env parent tree).1 = true ↔ ∀ p ∈ tree.paths, Opened env parent p := by
  induction tree generalizing parent with
  | nil => exact iff_of_true rfl fun p h => absurd h List.not_mem_nil
  | leaf name type rest ih =>
    rw [wipeLoop_leaf_ok, ih]
    constructor
    · intro h p hp
      obtain rfl | hp := mem_leaf_paths.mp hp
      · exact fun htype => absurd htype (Option.some_ne_none type)
      · exact h p hp
    · exact fun h p hp => h p (mem_leaf_paths.mpr (Or.inr hp))
  | dir name contents rest ihContents ihRest =>
    by_cases hskip : env.wipeExclusions.checkSkipDirs (parent ++ name) = true
    · rw [wipeLoop, if_pos hskip, ihRest]
      constructor
      · intro h p hp
        obtain rfl | ⟨q, -, rfl⟩ | hp := mem_dir_paths.mp hp
        · exact opened_of_skip hskip [] none
        · exact opened_of_skip hskip q.1 q.2
        · exact h p hp
      · exact fun h p hp => h p (mem_dir_paths.mpr (Or.inr (Or.inr hp)))
    rw [wipeLoop_dir_ok hskip, ihContents, ihRest]
    constructor
    · rintro ⟨hopens, hin, hrest⟩ p hp
      obtain rfl | ⟨q, hq, rfl⟩ | hp := mem_dir_paths.mp hp
      · exact (opened_singleton hskip).mpr hopens
      · exact (opened_cons hskip (paths_ne_nil hq)).mpr (hin q hq)
      · exact hrest p hp
    · intro h
      refine ⟨?_, fun q hq => ?_, fun p hp => ?_⟩
      · exact (opened_singleton hskip).mp (h _ (mem_dir_paths.mpr (Or.inl rfl)))
      · apply (opened_cons hskip (paths_ne_nil hq)).mp
        exact h _ (mem_dir_paths.mpr (Or.inr (Or.inl ⟨q, hq, rfl⟩)))
      · exact h p (mem_dir_paths.mpr (Or.inr (Or.inr hp)))

/-- A wipe creates nothing. -/
theorem wipeLoop_sublist (env : WipeEnv) (parent : Text) (tree : DataTree) :
    (wipeLoop env parent tree).2.paths.Sublist tree.paths := by
  induction tree generalizing parent with
  | nil => exact List.Sublist.refl _
  | leaf name type rest ih =>
    rw [wipeLoop]
    split_ifs
    · exact (ih parent).cons_cons _
    · exact (ih parent).cons _
    · exact (ih parent).cons_cons _
  | dir name contents rest ihContents ihRest =>
    rw [wipeLoop]
    by_cases hskip : env.wipeExclusions.checkSkipDirs (parent ++ name) = true
    · rw [if_pos hskip]
      exact ((List.Sublist.refl _).append (ihRest parent)).cons_cons _
    rw [if_neg hskip]
    dsimp only
    have hinner : (if env.opens (parent ++ name ++ ['/']) then
        wipeLoop env (parent ++ name ++ ['/']) contents
        else (false, contents)).2.paths.Sublist contents.paths := by
      split_ifs
      · exact ihContents _
      · exact List.Sublist.refl _
    generalize (if env.opens (parent ++ name ++ ['/']) then
      wipeLoop env (parent ++ name ++ ['/']) contents else (false, contents)) = inner at *
    split_ifs
    · exact ((hinner.map _).append (List.Sublist.refl _)).cons_cons _
    · exact (ihRest parent).trans (List.sublist_append_right _ _)
    · exact ((hinner.map _).append (ihRest parent)).cons_cons _

/-- When a wipe returns true: whatever stays on the device, every directory on its way opens. -/
theorem wipeData_ok_iff : (wipeDataWithoutWipingMediaFunc env parent tree).1 = true ↔
    env.opens parent = true ∧ ∀ p ∈ tree.paths, Opened env parent p := by
  rw [wipeDataWithoutWipingMediaFunc, ← wipeLoop_ok_iff]
  split_ifs with h <;> simp [h]

theorem wipeData_keeps (h : p ∈ tree.paths) (hex : Excluded env parent p.1) :
    p ∈ (wipeDataWithoutWipingMediaFunc env parent tree).2.paths := by
  unfold wipeDataWithoutWipingMediaFunc
  split_ifs
  · exact wipeLoop_keeps h hex
  · exact h

end Paths

/-- The wipe of a mount point: what is excluded stays, and what stays without being excluded could
not be removed. -/
theorem wipeData_respects_exclusions (mountPoint : Text) (tree : DataTree) :
    (∀ p ∈ tree.paths, Excluded env (mountPoint ++ ['/']) p.1 →
      p ∈ (wipeDataWithoutWipingMediaFunc env (mountPoint ++ ['/']) tree).2.paths) ∧
    ((wipeDataWithoutWipingMediaFunc env (mountPoint ++ ['/']) tree).1 = true →
      ∀ p ∈ (wipeDataWithoutWipingMediaFunc env (mountPoint ++ ['/']) tree).2.paths,
        MayRemain env (mountPoint ++ ['/'])
          (wipeDataWithoutWipingMediaFunc env (mountPoint ++ ['/']) tree).2.paths p) ∧
    (wipeDataWithoutWipingMediaFunc env (mountPoint ++ ['/']) tree).2.paths.Sublist tree.paths := by
  refine ⟨fun p hp hex => wipeData_keeps hp hex, ?_⟩
  unfold wipeDataWithoutWipingMediaFunc
  split_ifs
  · exact ⟨fun hok p hp => wipeLoop_complete hok hp, wipeLoop_sublist env _ tree⟩
  · exact ⟨fun hok => hok.elim, List.Sublist.refl _⟩

/-- A directory that was added to the exclusions stays with everything below it, whichever calls
fail. -/
theorem wipeData_keeps_added (ex : TWExclude) (mountPoint name : Text)
    (hex : env.wipeExclusions = ex.addAbsoluteDir (mountPoint ++ '/' :: name)) (tree : DataTree)
    (below : List Text) (type : Option LeafType) (h : (name :: below, type) ∈ tree.paths) :
    (name :: below, type) ∈
      (wipeDataWithoutWipingMediaFunc env (mountPoint ++ ['/']) tree).2.paths := by
  apply wipeData_keeps h
  apply excluded_cons.mpr
  left
  rw [hex, TWExclude.checkSkipDirs, List.append_assoc, List.singleton_append]
  simp [TWExclude.addAbsoluteDir]

end BootableRecovery.Twrp
