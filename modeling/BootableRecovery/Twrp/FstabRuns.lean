import BootableRecovery.Twrp.FstabMerge

namespace BootableRecovery.Twrp
open Lib

/-! The run of `Process_Fstab` over the lines of the two files. -/

variable (env : FstabEnv) {t : FstabTable}

theorem plain_foldl_processLine (ht : t.Plain) (lines : List FstabLine) :
    (lines.foldl (fun t line => t.processLine env none line) t).Plain := by
  induction lines generalizing t with
  | nil => exact ht
  | cons line lines ih => exact ih (ht.processLine env none line)

theorem merged_of_foldl_processLine (ht : t.Plain) {lines : List FstabLine}
    (h : (lines.foldl (fun t line => t.processLine env none line) t).Merged) : t.Merged := by
  induction lines generalizing t with
  | nil => exact h
  | cons line lines ih => exact ht.merged_of_processLine (ih (ht.processLine env none line) h)

theorem merged_foldl_processLine (ht : t.Plain) (hm : t.Merged) (lines : List FstabLine) :
    ((lines.foldl (fun t line => t.processLine env none line) t).Merged ↔
        LinesMerge env t.mounted lines) ∧
      ((lines.foldl (fun t line => t.processLine env none line) t).Merged →
        (lines.foldl (fun t line => t.processLine env none line) t).mounted =
          lines.foldl (openLine false) t.mounted) := by
  induction lines generalizing t with
  | nil => exact ⟨iff_of_true hm trivial, fun _ => rfl⟩
  | cons line lines ih =>
    have hstep := ht.merged_processLine_iff env hm none line
    have hplain := ht.processLine env none line
    rw [List.foldl_cons, List.foldl_cons]
    constructor
    · constructor
      · intro h
        have hnext := merged_of_foldl_processLine env hplain h
        have hrest := (ih hplain hnext).1.mp h
        rw [ht.mounted_processLine hnext] at hrest
        exact ⟨hstep.mp hnext, hrest⟩
      · rintro ⟨hline, hrest⟩
        have hnext := hstep.mpr hline
        apply (ih hplain hnext).1.mpr
        rwa [ht.mounted_processLine hnext]
    · intro h
      have hnext := merged_of_foldl_processLine env hplain h
      rw [(ih hplain hnext).2 h, ht.mounted_processLine hnext]
      rfl

/-! ### The lines of `twrp.flags` -/

def FstabTable.addFlagsLine (env : FstabEnv) (t : FstabTable) (e : Text × FstabLine) :
    FstabTable :=
  match t.find env e.1 with
  | some _ => t
  | none => t.processLine env (some e.1) e.2

theorem foldl_addFlagsEntry (es : List (Text × Text)) :
    es.foldl (FstabTable.addFlagsEntry env) t =
      (es.filterMap fun e => (parseFstabLine e.2).map fun line => (e.1, line)).foldl
        (FstabTable.addFlagsLine env) t := by
  induction es generalizing t with
  | nil => rfl
  | cons e es ih =>
    rw [List.foldl_cons, ih, List.filterMap_cons]
    unfold FstabTable.addFlagsEntry
    rcases hline : parseFstabLine e.2 with _ | line
    · rcases t.find env e.1 with _ | i
      · rfl
      · rfl
    · rfl

/-- A line of `twrp.flags` makes the partition that the fstab lacks. -/
def FstabTable.FlagsMerged (t : FstabTable) (e : Text × FstabLine) : Prop :=
  e.2.valid → ((∃ p ∈ t.partitions, p.flagsKey = some e.1) ↔
    ¬∃ p ∈ t.partitions, p.flagsKey = none ∧ e.2.SameMountPoint p.line)

theorem plain_addFlagsLine (ht : t.Plain) (e : Text × FstabLine) :
    (t.addFlagsLine env e).Plain := by
  rw [FstabTable.addFlagsLine]
  rcases t.find env e.1 with _ | i
  · exact ht.processLine env _ _
  · exact ht

theorem merged_of_addFlagsLine (ht : t.Plain) {e : Text × FstabLine}
    (h : (t.addFlagsLine env e).Merged) : t.Merged := by
  rw [FstabTable.addFlagsLine] at h
  rcases hfind : t.find env e.1 with _ | i
  · rw [hfind] at h
    exact ht.merged_of_processLine h
  · rwa [hfind] at h

theorem exists_mounted_iff (line : FstabLine) :
    (∃ m ∈ t.mounted, m.fromFlags = false ∧ line.SameMountPoint m.line) ↔
      ∃ p ∈ t.partitions, p.flagsKey = none ∧ line.SameMountPoint p.line := by
  constructor
  · rintro ⟨m, hm, hflags, hsame⟩
    obtain ⟨p, hp, rfl⟩ := List.mem_map.mp hm
    exact ⟨p, hp, Option.not_isSome_iff_eq_none.mp (Bool.eq_false_iff.mp hflags), hsame⟩
  · rintro ⟨p, hp, hkey, hsame⟩
    refine ⟨p.mounted, List.mem_map_of_mem hp, ?_, hsame⟩
    change p.flagsKey.isSome = false
    rw [hkey]
    rfl

/-- The lines and keys behind the partitions. -/
def FstabTable.origins (t : FstabTable) : List (FstabLine × Option Text) :=
  t.partitions.map fun p => (p.line, p.flagsKey)

theorem flagsMerged_iff_origins (e : Text × FstabLine) :
    t.FlagsMerged e ↔ (e.2.valid → ((∃ o ∈ t.origins, o.2 = some e.1) ↔
      ¬∃ o ∈ t.origins, o.2 = none ∧ e.2.SameMountPoint o.1)) := by
  simp only [FstabTable.FlagsMerged, FstabTable.origins, List.mem_map, exists_exists_and_eq_and]

theorem origins_addFlagsLine (ht : t.Plain) (e : Text × FstabLine) :
    (t.addFlagsLine env e).origins = t.origins ∨
      (t.addFlagsLine env e).origins = t.origins ++ [(e.2, some e.1)] := by
  rw [FstabTable.addFlagsLine]
  rcases t.find env e.1 with _ | i
  · dsimp only
    obtain ⟨i, p, hp, -, heq⟩ | ⟨-, -, heq⟩ | ⟨p, -, -, -, heq⟩ :=
      ht.processLine_cases env (some e.1) e.2
    · rw [heq]
      exact Or.inl (map_modify_save (fun _ => rfl) ..)
    · rw [heq]
      exact Or.inl rfl
    · rw [heq]
      exact Or.inr List.map_append
  · exact Or.inl rfl

/-- Only the line of a key says whether that key has made a partition. -/
theorem flagsMerged_addFlagsLine (ht : t.Plain) {e e' : Text × FstabLine} (hne : e'.1 ≠ e.1) :
    (t.addFlagsLine env e').FlagsMerged e ↔ t.FlagsMerged e := by
  rw [flagsMerged_iff_origins, flagsMerged_iff_origins]
  obtain h | h := origins_addFlagsLine env ht e'
  · rw [h]
  · have hkey : ∀ o ∈ [(e'.2, some e'.1)], o.2 ≠ some e.1 ∧ o.2 ≠ none := by
      intro o ho
      rw [List.mem_singleton.mp ho]
      exact ⟨fun hsome => hne (Option.some.inj hsome), Option.some_ne_none _⟩
    have hsome : (∃ o ∈ t.origins ++ [(e'.2, some e'.1)], o.2 = some e.1) ↔
        ∃ o ∈ t.origins, o.2 = some e.1 := by
      constructor
      · rintro ⟨o, ho, hoe⟩
        obtain ho | ho := List.mem_append.mp ho
        · exact ⟨o, ho, hoe⟩
        · exact absurd hoe (hkey o ho).1
      · rintro ⟨o, ho, hoe⟩
        exact ⟨o, List.mem_append_left _ ho, hoe⟩
    have hnone : (∃ o ∈ t.origins ++ [(e'.2, some e'.1)],
          o.2 = none ∧ e.2.SameMountPoint o.1) ↔
        ∃ o ∈ t.origins, o.2 = none ∧ e.2.SameMountPoint o.1 := by
      constructor
      · rintro ⟨o, ho, hoe, hsame⟩
        obtain ho | ho := List.mem_append.mp ho
        · exact ⟨o, ho, hoe, hsame⟩
        · exact absurd hoe (hkey o ho).2
      · rintro ⟨o, ho, hoe⟩
        exact ⟨o, List.mem_append_left _ ho, hoe⟩
    rw [h, hsome, hnone]

/-- A key that has made no partition. -/
def FstabTable.Fresh (t : FstabTable) (key : Text) : Prop :=
  ∀ p ∈ t.partitions, p.flagsKey ≠ some key

theorem FstabTable.Fresh.flagsMerged_iff {e : Text × FstabLine} (h : t.Fresh e.1) :
    t.FlagsMerged e ↔
      (e.2.valid → ∃ m ∈ t.mounted, m.fromFlags = false ∧ e.2.SameMountPoint m.line) := by
  rw [FstabTable.FlagsMerged, exists_mounted_iff]
  apply imp_congr_right
  intro _
  have hkey : ¬∃ p ∈ t.partitions, p.flagsKey = some e.1 := by
    rintro ⟨p, hp, hkey⟩
    exact h p hp hkey
  exact (iff_false_left hkey).trans not_not

theorem fresh_save {i : ℕ} {line : FstabLine} {n : ℕ} {key : Text} (h : t.Fresh key) :
    FstabTable.Fresh ⟨t.partitions.modify i fun p => p.save line, n⟩ key := by
  intro p hp hkey
  have hkeeps : ∀ p : FstabPartition, (p.save line).flagsKey = p.flagsKey := fun _ => rfl
  have hmap := map_modify_save (g := FstabPartition.flagsKey) hkeeps t.partitions i
  have hmem := List.mem_map_of_mem (f := FstabPartition.flagsKey) hp
  rw [hmap] at hmem
  obtain ⟨q, hq, hqp⟩ := List.mem_map.mp hmem
  exact h q hq (hqp.trans hkey)

/-- One line of `twrp.flags`. -/
theorem FstabTable.Plain.merged_addFlagsLine_iff (ht : t.Plain) (hm : t.Merged)
    {e : Text × FstabLine} (hfresh : t.Fresh e.1) :
    (t.addFlagsLine env e).Merged ∧ (t.addFlagsLine env e).FlagsMerged e ↔
      EntryMerges env t.mounted e := by
  unfold FstabTable.addFlagsLine EntryMerges
  rcases hfind : t.find env e.1 with _ | i
  · rw [ht.find_none hfind]
    dsimp only
    rw [← ht.merged_processLine_iff env hm (some e.1) e.2]
    apply and_congr_right
    intro hmerged
    obtain ⟨i, p, hp, hto, heq⟩ | ⟨-, hmount, heq⟩ | ⟨p, hto, -, -, heq⟩ :=
      ht.processLine_cases env (some e.1) e.2
    · have hmem : p.mounted ∈ t.mounted := List.mem_map_of_mem (List.mem_of_getElem? hp)
      rw [heq] at hmerged ⊢
      have hsame := ((merged_save hp e.2 _).mp hmerged).2
      rw [(fresh_save hfresh).flagsMerged_iff, mounted_save, hto]
      apply imp_congr_right
      intro _
      constructor
      · rintro ⟨m, hm', hflags, hline⟩ n hn
        rw [← Option.some.inj hn, hm.apart.eq hmem hm' (hsame.symm.trans hline)]
        exact hflags
      · intro h
        exact ⟨p.mounted, hmem, h _ rfl, hsame⟩
    · have hinvalid : ¬e.2.valid = true := by
        rw [valid_iff_mountAs t.mounted, hmount]
        rintro ⟨mountPoint, h⟩
        contradiction
      exact iff_of_true (fun hvalid => absurd hvalid hinvalid) fun hvalid => absurd hvalid hinvalid
    · rw [heq] at hmerged ⊢
      have hnone := ((merged_append _ rfl _).mp hmerged).2
      refine iff_of_true (fun _ => iff_of_true ⟨_, List.mem_append_right _ List.mem_cons_self, rfl⟩
        ?_) fun _ m hsome => ?_
      · rintro ⟨q, hq, hkey, hsame⟩
        obtain hq | hq := List.mem_append.mp hq
        · exact hnone q.mounted (List.mem_map_of_mem hq) hsame
        · rw [List.mem_singleton.mp hq] at hkey
          contradiction
      · rw [hto] at hsome
        contradiction
  · obtain ⟨p, -, hp⟩ := ht.find_some hfind
    rw [hp]
    dsimp only
    rw [hfresh.flagsMerged_iff]
    exact and_iff_right hm

theorem mounted_addFlagsLine (ht : t.Plain) {e : Text × FstabLine} (hfresh : t.Fresh e.1)
    (hmerged : (t.addFlagsLine env e).Merged) (hflags : (t.addFlagsLine env e).FlagsMerged e) :
    (t.addFlagsLine env e).mounted = openLine true t.mounted e.2 := by
  unfold FstabTable.addFlagsLine at hmerged hflags ⊢
  rcases hfind : t.find env e.1 with _ | i
  · rw [hfind] at hmerged
    exact ht.mounted_processLine hmerged
  · rw [hfind] at hflags
    have hvalid := hfresh.flagsMerged_iff.mp hflags
    dsimp only
    rw [openLine]
    rcases hmount : mountAs t.mounted e.2 with _ | mountPoint
    · rfl
    · obtain ⟨m, hm, -, hsame⟩ := hvalid ((valid_iff_mountAs _ _).mpr ⟨_, hmount⟩)
      exact (if_pos ⟨m, hm, hsame⟩).symm

theorem fresh_addFlagsLine (ht : t.Plain) {e : Text × FstabLine} {key : Text}
    (h : t.Fresh key) (hne : e.1 ≠ key) : (t.addFlagsLine env e).Fresh key := by
  have hfresh : ∀ {t : FstabTable}, t.Fresh key ↔ ∀ o ∈ t.origins, o.2 ≠ some key := by
    intro t
    rw [FstabTable.origins, List.forall_mem_map]
    rfl
  rw [hfresh] at h ⊢
  obtain ho | ho := origins_addFlagsLine env ht e
  · rwa [ho]
  · rw [ho]
    intro o hmem
    obtain hmem | hmem := List.mem_append.mp hmem
    · exact h o hmem
    · rw [List.mem_singleton.mp hmem]
      exact fun hsome => hne (Option.some.inj hsome)

theorem plain_foldl_addFlagsLine (ht : t.Plain) (es : List (Text × FstabLine)) :
    (es.foldl (FstabTable.addFlagsLine env) t).Plain := by
  induction es generalizing t with
  | nil => exact ht
  | cons e es ih => exact ih (plain_addFlagsLine env ht e)

theorem merged_of_foldl_addFlagsLine (ht : t.Plain) {es : List (Text × FstabLine)}
    (h : (es.foldl (FstabTable.addFlagsLine env) t).Merged) : t.Merged := by
  induction es generalizing t with
  | nil => exact h
  | cons e es ih => exact merged_of_addFlagsLine env ht (ih (plain_addFlagsLine env ht e) h)

theorem flagsMerged_foldl (ht : t.Plain) {e : Text × FstabLine} {es : List (Text × FstabLine)}
    (hne : ∀ e' ∈ es, e'.1 ≠ e.1) :
    (es.foldl (FstabTable.addFlagsLine env) t).FlagsMerged e ↔ t.FlagsMerged e := by
  induction es generalizing t with
  | nil => exact Iff.rfl
  | cons e' es ih =>
    rw [List.foldl_cons, ih (plain_addFlagsLine env ht e') fun e'' h => hne e'' (.tail _ h),
      flagsMerged_addFlagsLine env ht (hne e' List.mem_cons_self)]

/-- The lines of `twrp.flags`, each under a key of its own. -/
theorem merged_foldl_addFlagsLine (ht : t.Plain) (hm : t.Merged) {es : List (Text × FstabLine)}
    (hkeys : es.Pairwise fun e e' => e'.1 ≠ e.1) (hfresh : ∀ e ∈ es, t.Fresh e.1) :
    ((es.foldl (FstabTable.addFlagsLine env) t).Merged ∧
        (∀ e ∈ es, (es.foldl (FstabTable.addFlagsLine env) t).FlagsMerged e) ↔
        EntriesMerge env t.mounted es) ∧
      (EntriesMerge env t.mounted es → (es.foldl (FstabTable.addFlagsLine env) t).mounted =
        es.foldl (fun ms e => openLine true ms e.2) t.mounted) := by
  induction es generalizing t with
  | nil =>
    refine ⟨iff_of_true ⟨hm, ?_⟩ trivial, fun _ => rfl⟩
    intro e he
    exact absurd he List.not_mem_nil
  | cons e es ih =>
    obtain ⟨hhead, htail⟩ := List.pairwise_cons.mp hkeys
    have he := hfresh e List.mem_cons_self
    have hstep := ht.merged_addFlagsLine_iff env hm he
    have hplain := plain_addFlagsLine env ht e
    have hrest : ∀ e' ∈ es, (t.addFlagsLine env e).Fresh e'.1 := fun e' he' =>
      fresh_addFlagsLine env ht (hfresh e' (.tail _ he')) (hhead e' he').symm
    rw [List.foldl_cons, List.foldl_cons]
    constructor
    · constructor
      · rintro ⟨hmerged, hflags⟩
        have hnext := merged_of_foldl_addFlagsLine env hplain hmerged
        have hfirst := (flagsMerged_foldl env hplain hhead).mp (hflags e List.mem_cons_self)
        refine ⟨hstep.mp ⟨hnext, hfirst⟩, ?_⟩
        rw [← mounted_addFlagsLine env ht he hnext hfirst]
        exact (ih hplain hnext htail hrest).1.mp ⟨hmerged, fun e' he' => hflags e' (.tail _ he')⟩
      · rintro ⟨hentry, hentries⟩
        obtain ⟨hnext, hfirst⟩ := hstep.mpr hentry
        rw [← mounted_addFlagsLine env ht he hnext hfirst] at hentries
        obtain ⟨hmerged, hflags⟩ := (ih hplain hnext htail hrest).1.mpr hentries
        refine ⟨hmerged, fun e' he' => ?_⟩
        obtain rfl | he' := List.mem_cons.mp he'
        · exact (flagsMerged_foldl env hplain hhead).mpr hfirst
        · exact hflags e' he'
    · rintro ⟨hentry, hentries⟩
      obtain ⟨hnext, hfirst⟩ := hstep.mpr hentry
      rw [← mounted_addFlagsLine env ht he hnext hfirst] at hentries ⊢
      exact (ih hplain hnext htail hrest).2 hentries

/-! ### The lines that open a mount point -/

theorem exists_mem_openLine_iff (flag : Bool) (earlier : List MountedLine)
    (line other : FstabLine) :
    (∃ m ∈ openLine flag earlier line, other.SameMountPoint m.line) ↔
      (∃ m ∈ earlier, other.SameMountPoint m.line) ∨ (line.valid ∧ other.SameMountPoint line) := by
  unfold openLine
  rw [valid_iff_mountAs earlier]
  rcases mountAs earlier line with _ | mountPoint
  · simp
  · dsimp only
    split_ifs with hopen
    · obtain ⟨m, hm, hsame⟩ := hopen
      refine ⟨Or.inl, ?_⟩
      rintro (h | ⟨-, h⟩)
      · exact h
      · exact ⟨m, hm, h.trans hsame⟩
    · simp [or_and_right, exists_or]

theorem countP_openLine (flag : Bool) (earlier : List MountedLine) (line : FstabLine) :
    (openLine flag earlier line).countP (fun m => m.line.isAuto) =
      earlier.countP (fun m => m.line.isAuto) + if line.isAuto then 1 else 0 := by
  unfold openLine
  rcases hmount : mountAs earlier line with _ | mountPoint
  · have hauto : ¬line.isAuto = true := by
      intro hauto
      rw [mountAs, if_pos hauto] at hmount
      contradiction
    rw [if_neg hauto]
    rfl
  · dsimp only
    split_ifs with hopen hauto hauto
    · obtain ⟨m, -, hsame⟩ := hopen
      exact absurd hauto (Bool.eq_false_iff.mp hsame.1)
    · rfl
    · rw [List.countP_append, List.countP_singleton]
      exact congrArg _ (if_pos hauto)
    · rw [List.countP_append, List.countP_singleton]
      exact congrArg _ (if_neg hauto)

theorem exists_mem_foldl_openLine_iff (flag : Bool) (lines : List FstabLine)
    (earlier : List MountedLine) (other : FstabLine) :
    (∃ m ∈ lines.foldl (openLine flag) earlier, other.SameMountPoint m.line) ↔
      (∃ m ∈ earlier, other.SameMountPoint m.line) ∨
        ∃ line ∈ lines, line.valid ∧ other.SameMountPoint line := by
  induction lines generalizing earlier with
  | nil => simp
  | cons line lines ih =>
    rw [List.foldl_cons, ih, exists_mem_openLine_iff, List.exists_mem_cons_iff, or_assoc]

theorem countP_foldl_openLine (flag : Bool) (lines : List FstabLine)
    (earlier : List MountedLine) :
    (lines.foldl (openLine flag) earlier).countP (fun m => m.line.isAuto) =
      earlier.countP (fun m => m.line.isAuto) + lines.countP FstabLine.isAuto := by
  induction lines generalizing earlier with
  | nil => rfl
  | cons line lines ih => rw [List.foldl_cons, ih, countP_openLine, List.countP_cons]; omega

/-! ### The whole run -/

variable (fstab twrpFlags : FstabText)

/-- The lines of both files that open a mount point. -/
def openedLines : List MountedLine :=
  ((flagsLines env twrpFlags).map Prod.snd).foldl (openLine true)
    ((fstabLines env fstab twrpFlags).foldl (openLine false) [])

theorem exists_mem_openedLines_iff (other : FstabLine) :
    (∃ m ∈ openedLines env fstab twrpFlags, other.SameMountPoint m.line) ↔
      ∃ line ∈ processedLines env fstab twrpFlags, line.valid ∧ other.SameMountPoint line := by
  rw [openedLines, exists_mem_foldl_openLine_iff, exists_mem_foldl_openLine_iff, processedLines]
  simp only [List.mem_append, or_and_right, exists_or]
  simp

theorem countP_openedLines :
    (openedLines env fstab twrpFlags).countP (fun m => m.line.isAuto) =
      (processedLines env fstab twrpFlags).countP FstabLine.isAuto := by
  rw [openedLines, countP_foldl_openLine, countP_foldl_openLine, processedLines,
    List.countP_append]
  exact congrArg (· + _) (Nat.zero_add _)

/-- The keys of the map are sorted. -/
theorem flagsLines_keys :
    (flagsLines env twrpFlags).Pairwise fun e e' => e'.1 ≠ e.1 := by
  have hsorted := (readTwrpFlags env.stack twrpFlags.reads OrderedMap.empty).1.sorted
  apply List.Pairwise.filterMap _ _ hsorted
  intro e e' hlt b hb b' hb'
  obtain ⟨line, -, rfl⟩ := Option.map_eq_some_iff.mp hb
  obtain ⟨line', -, rfl⟩ := Option.map_eq_some_iff.mp hb'
  exact hlt.ne'

theorem plain_empty : FstabTable.Plain ⟨[], 0⟩ :=
  ⟨rfl, fun _ h => absurd h List.not_mem_nil, fun _ h => absurd h List.not_mem_nil⟩

theorem merged_empty : FstabTable.Merged ⟨[], 0⟩ :=
  ⟨List.Pairwise.nil, fun _ h => absurd h List.not_mem_nil⟩

/-- The lines of the fstab make no partition with a key. -/
theorem fresh_foldl_processLine (ht : t.Plain) (key : Text) (h : t.Fresh key)
    (lines : List FstabLine) :
    (lines.foldl (fun t line => t.processLine env none line) t).Fresh key := by
  induction lines generalizing t with
  | nil => exact h
  | cons line lines ih =>
    apply ih (ht.processLine env none line)
    obtain ⟨i, p, -, -, heq⟩ | ⟨-, -, heq⟩ | ⟨p, -, -, -, heq⟩ :=
      ht.processLine_cases env none line
    · rw [heq]
      exact fresh_save h
    · rwa [heq]
    · rw [heq]
      intro q hq
      obtain hq | hq := List.mem_append.mp hq
      · exact h q hq
      · rw [List.mem_singleton.mp hq]
        exact fun hkey => absurd hkey (Option.some_ne_none key).symm

/-- What the two runs make of the lines. -/
theorem merged_processFstab_iff :
    ((processFstab env fstab twrpFlags).Merged ∧
        (∀ e ∈ flagsLines env twrpFlags, (processFstab env fstab twrpFlags).FlagsMerged e) ↔
        LinesMerge env [] (fstabLines env fstab twrpFlags) ∧
          EntriesMerge env ((fstabLines env fstab twrpFlags).foldl (openLine false) [])
            (flagsLines env twrpFlags)) ∧
      ((processFstab env fstab twrpFlags).Merged ∧
        (∀ e ∈ flagsLines env twrpFlags, (processFstab env fstab twrpFlags).FlagsMerged e) →
        (processFstab env fstab twrpFlags).mounted = openedLines env fstab twrpFlags) := by
  have hlines := merged_foldl_processLine env plain_empty merged_empty
    (fstabLines env fstab twrpFlags)
  have hplain := plain_foldl_processLine env plain_empty (fstabLines env fstab twrpFlags)
  have hfresh : ∀ e ∈ flagsLines env twrpFlags, FstabTable.Fresh _ e.1 := fun e _ =>
    fresh_foldl_processLine env plain_empty e.1 (fun _ h => absurd h List.not_mem_nil)
      (fstabLines env fstab twrpFlags)
  have hkeys := flagsLines_keys env twrpFlags
  have hrun : processFstab env fstab twrpFlags = (flagsLines env twrpFlags).foldl
      (FstabTable.addFlagsLine env) _ := foldl_addFlagsEntry env _
  rw [hrun]
  constructor
  · constructor
    · rintro ⟨hmerged, hflags⟩
      have hfirst := merged_of_foldl_addFlagsLine env hplain hmerged
      have hentries := (merged_foldl_addFlagsLine env hplain hfirst hkeys hfresh).1.mp
        ⟨hmerged, hflags⟩
      rw [hlines.2 hfirst] at hentries
      exact ⟨hlines.1.mp hfirst, hentries⟩
    · rintro ⟨hmerge, hentries⟩
      have hfirst := hlines.1.mpr hmerge
      have hmounted := hlines.2 hfirst
      apply (merged_foldl_addFlagsLine env hplain hfirst hkeys hfresh).1.mpr
      rw [hmounted]
      exact hentries
  · rintro ⟨hmerged, hflags⟩
    have hfirst := merged_of_foldl_addFlagsLine env hplain hmerged
    have hentries := merged_foldl_addFlagsLine env hplain hfirst hkeys hfresh
    rw [hentries.2 (hentries.1.mp ⟨hmerged, hflags⟩), hlines.2 hfirst, openedLines,
      List.foldl_map]
    rfl

theorem flagsMerged_iff_entries :
    (∀ e ∈ flagsLines env twrpFlags, t.FlagsMerged e) ↔
      ∀ e ∈ flagsEntries env twrpFlags, ∀ line, parseFstabLine e.2 = some line → line.valid →
        ((∃ p ∈ t.partitions, p.flagsKey = some e.1) ↔
          ¬∃ p ∈ t.partitions, p.flagsKey = none ∧ line.SameMountPoint p.line) := by
  constructor
  · intro h e he line hline
    refine h (e.1, line) (List.mem_filterMap.mpr ⟨e, he, ?_⟩)
    rw [hline]
    rfl
  · intro h e he
    obtain ⟨e', he', hsome⟩ := List.mem_filterMap.mp he
    obtain ⟨line, hline, rfl⟩ := Option.map_eq_some_iff.mp hsome
    exact h e' he' line hline

theorem exists_mem_mounted_iff (line : FstabLine) :
    (∃ m ∈ t.mounted, line.SameMountPoint m.line) ↔
      ∃ p ∈ t.partitions, line.SameMountPoint p.line := by
  simp only [FstabTable.mounted, List.mem_map, exists_exists_and_eq_and]
  exact Iff.rfl

/-- The table is merged by mount points exactly where the lookups tell them apart. -/
theorem processFstab_merged_iff :
    MergedByMountPoint env fstab twrpFlags (processFstab env fstab twrpFlags) ↔
      TellsMountPoints env fstab twrpFlags := by
  have hrun := merged_processFstab_iff env fstab twrpFlags
  have hplain : (processFstab env fstab twrpFlags).Plain := by
    rw [processFstab, foldl_addFlagsEntry]
    exact plain_foldl_addFlagsLine env (plain_foldl_processLine env plain_empty _) _
  have hkept : (processFstab env fstab twrpFlags).mounted = openedLines env fstab twrpFlags →
      ((∀ line ∈ validLines fstab twrpFlags, line.isAuto = false →
        ∃ p ∈ (processFstab env fstab twrpFlags).partitions, line.SameMountPoint p.line) ↔
      ∀ line ∈ validLines fstab twrpFlags, line.isAuto = false →
        ∃ other ∈ processedLines env fstab twrpFlags, other.valid ∧ line.SameMountPoint other) := by
    intro hmounted
    simp only [← exists_mem_openedLines_iff, ← hmounted, exists_mem_mounted_iff]
  have hautos : (processFstab env fstab twrpFlags).mounted = openedLines env fstab twrpFlags →
      (processFstab env fstab twrpFlags).partitions.countP (fun p => p.line.isAuto) =
        (processedLines env fstab twrpFlags).countP FstabLine.isAuto := by
    intro hmounted
    rw [← countP_openedLines, ← hmounted, FstabTable.mounted, List.countP_map]
    rfl
  constructor
  · rintro ⟨hdistinct, hfolds, hflags, hk, ha⟩
    have hmerged : (processFstab env fstab twrpFlags).Merged :=
      ⟨hplain.apart_iff.mp hdistinct, hfolds⟩
    have hentry := (flagsMerged_iff_entries env twrpFlags).mpr hflags
    have hmounted := hrun.2 ⟨hmerged, hentry⟩
    obtain ⟨hlines, hentries⟩ := hrun.1.mp ⟨hmerged, hentry⟩
    exact ⟨hlines, hentries, (hkept hmounted).mp hk, (hautos hmounted).symm.trans ha⟩
  · rintro ⟨hlines, hentries, hk, ha⟩
    have hmerged := hrun.1.mpr ⟨hlines, hentries⟩
    have hmounted := hrun.2 hmerged
    exact ⟨hplain.apart_iff.mpr hmerged.1.apart, hmerged.1.folds,
      (flagsMerged_iff_entries env twrpFlags).mp hmerged.2, (hkept hmounted).mpr hk,
      (hautos hmounted).trans ha⟩

/-! ### Two mount points with one first component -/

def plainFstabEnv : FstabEnv where
  withoutPersist := false
  stack := []
  twFlags := fun _ => ⟨none, none, none⟩
  device := fun line => ⟨true, false, line.fileSystem, []⟩

/-- The file system of the modem is mounted below that of the vendor. -/
def vendorFstab : FstabText where
  lines := ["/dev/block/by-name/vendor /vendor ext4 ro".toList,
    "/dev/block/by-name/modem /vendor/firmware_mnt vfat ro".toList]
  rest := []
  fits := by unfold LineFits; decide

def noFlags : FstabText where
  lines := []
  rest := []
  fits := by unfold LineFits; decide

def modemLine : FstabLine where
  version2 := true
  mountPoint := "/vendor/firmware_mnt".toList
  fileSystem := "vfat".toList
  blockDevice := "/dev/block/by-name/modem".toList
  fsFlags := some "ro".toList

theorem not_mergesEveryFstab :
    ¬∀ (env : FstabEnv) (fstab twrpFlags : FstabText), DistinctDevices fstab twrpFlags →
      MergedByMountPoint env fstab twrpFlags (processFstab env fstab twrpFlags) := by
  intro h
  have hdevices : DistinctDevices vendorFstab noFlags := by
    unfold DistinctDevices
    decide +kernel
  have hfolded : ((processFstab plainFstabEnv vendorFstab noFlags).partitions.map fun p =>
      (p.line.mountPoint, p.additional)) = [("/vendor".toList, [modemLine])] := by
    decide +kernel
  have hmem : ("/vendor".toList, [modemLine]) ∈
      (processFstab plainFstabEnv vendorFstab noFlags).partitions.map fun p =>
        (p.line.mountPoint, p.additional) := by
    rw [hfolded]
    exact List.mem_cons_self
  obtain ⟨p, hp, heq⟩ := List.mem_map.mp hmem
  obtain ⟨hpoint, hadd⟩ := Prod.mk.inj heq
  obtain ⟨-, -, hsame⟩ := (h plainFstabEnv vendorFstab noFlags hdevices).folds p hp modemLine (by
    rw [hadd]
    exact List.mem_cons_self)
  rw [hpoint] at hsame
  exact absurd hsame (by decide)

end BootableRecovery.Twrp
