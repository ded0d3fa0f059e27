import BootableRecovery.Twrp.DigestDriver
import BootableRecovery.Twrp.Partition
import Mathlib.Data.List.Forall2

namespace BootableRecovery.Twrp
open Lib

/-! `Run_Restore`: one pass over the selection checks digests, a second one restores. -/

/-- `restore` is `TWPartition::Restore` outside of this file: whether the partition could be
restored from its `Backup_FileName`, and the file system it has afterwards. -/
structure RestoreEnv where
  withoutPersist : Bool
  mountCurrentStorage : Bool
  checkDigest : ℤ
  digestConfig : DigestConfig
  digests : Digests
  fs : FileSystem Text
  backupFolder : Text
  restore : TWPartition → Bool × Text

/-- What the call does to the archives and to the partitions. -/
inductive RestoreEvent
  | checked (fullFilename : Text) (ok : Bool)
  | restored (partition : ℕ) (fullFilename : Text)
  deriving DecidableEq, Repr

variable (env : RestoreEnv) (partitions : Partitions)

def RestoreEnv.fullFilename (fileName : Text) : Text := env.backupFolder ++ '/' :: fileName

def RestoreEnv.digestMatches (fullFilename : Text) : Bool :=
  Twrp.checkDigest env.digestConfig env.digests env.fs fullFilename

def lookup (path : Text) : Option (ℕ × TWPartition) :=
  match findPartitionByPath env.withoutPersist partitions path with
  | none => none
  | some i => partitions[i]?.map fun p => (i, p)

/-- The check of the sub-partitions, once for each of them. The name is still the parent's. -/
def checkSubs (fullFilename : Text) : List ℕ → List RestoreEvent × Bool
  | [] => ([], true)
  | _ :: subs =>
    if env.checkDigest > 0 ∧ env.digestMatches fullFilename = false then
      ([.checked fullFilename false], false)
    else
      let own := if env.checkDigest > 0 then [RestoreEvent.checked fullFilename true] else []
      let (events, ok) := checkSubs fullFilename subs
      (own ++ events, ok)

/-- The check pass: the number of partitions to restore, or none if the call ends here. -/
def checkPass : List Text → ℕ → List RestoreEvent × Option ℕ
  | [], partitionCount => ([], some partitionCount)
  | path :: paths, partitionCount =>
    match lookup env partitions path with
    | none => checkPass paths partitionCount
    | some (_, p) =>
      if p.mountReadOnly then ([], none)
      else
        let fullFilename := env.fullFilename p.backupFileName
        if env.checkDigest > 0 ∧ env.digestMatches fullFilename = false then
          ([.checked fullFilename false], none)
        else
          let own := if env.checkDigest > 0 then [RestoreEvent.checked fullFilename true] else []
          let subs := if p.hasSubPartition then subPartitions partitions p else []
          match checkSubs env fullFilename subs with
          | (events, false) => (own ++ events, none)
          | (events, true) =>
            let (later, count) := checkPass paths (partitionCount + 1)
            (own ++ events ++ later, count)

/-- The loop of `Restore_Partition` over the table. -/
def restoreSubs (parent : TWPartition) : List ℕ → Partitions → List RestoreEvent × Bool × Partitions
  | [], ps => ([], true, ps)
  | j :: js, ps =>
    match ps[j]? with
    | none => restoreSubs parent js ps
    | some p =>
      if p.isSubPartition ∧ p.subPartitionOf = parent.mountPoint then
        let p := { p with backupFileName := p.archiveFileName }
        let (ok, fileSystem) := env.restore p
        let ps := ps.set j { p with currentFileSystem := fileSystem }
        let event := RestoreEvent.restored j (env.fullFilename p.backupFileName)
        if ok = false then ([event], false, ps)
        else
          let (events, result) := restoreSubs parent js ps
          (event :: events, result)
      else restoreSubs parent js ps

def restorePartition (i : ℕ) (p : TWPartition) (ps : Partitions) :
    List RestoreEvent × Bool × Partitions :=
  let (ok, fileSystem) := env.restore p
  let ps := ps.set i { p with currentFileSystem := fileSystem }
  let event := RestoreEvent.restored i (env.fullFilename p.backupFileName)
  if ok = false then ([event], false, ps)
  else if p.hasSubPartition then
    let (events, result) := restoreSubs env p (List.range ps.length) ps
    (event :: events, result)
  else ([event], true, ps)

def restorePass : List Text → Partitions → List RestoreEvent × Bool
  | [], _ => ([], true)
  | path :: paths, ps =>
    match lookup env ps path with
    | none => restorePass paths ps
    | some (i, p) =>
      match restorePartition env i p ps with
      | (events, false, _) => (events, false)
      | (events, true, ps) =>
        let (later, ok) := restorePass paths ps
        (events ++ later, ok)

def runRestore (restoreSelected : Text) : Bool × List RestoreEvent :=
  if env.mountCurrentStorage = false then (false, [])
  else
    match checkPass env partitions (listPaths restoreSelected) 0 with
    | (events, none) => (false, events)
    | (events, some 0) => (false, events) -- no partitions selected for restore
    | (events, some _) =>
      let (later, ok) := restorePass env (listPaths restoreSelected) partitions
      (ok, events ++ later)

/-! ### The archives of a selection -/

def selectedPartitions (paths : List Text) : List TWPartition :=
  paths.filterMap fun path => (lookup env partitions path).map Prod.snd

/-- The sub-partitions of the table that a restore of `p` goes on to. -/
def restoredSubs (p : TWPartition) : List TWPartition :=
  if p.hasSubPartition then (subPartitions partitions p).filterMap fun j => partitions[j]? else []

/-- The archives that a selection stands for. -/
def restoreNames (paths : List Text) : List Text :=
  (selectedPartitions env partitions paths).flatMap fun p =>
    env.fullFilename p.backupFileName ::
      (restoredSubs partitions p).map fun sub => env.fullFilename sub.archiveFileName

/-- No partition is touched before every archive of the selection has passed its check, and a
mismatch leaves all of them alone. -/
structure DigestsFirst (restoreSelected : Text) : Prop where
  checkedFirst : ∀ before i fullFilename after,
    (runRestore env partitions restoreSelected).2 = before ++ .restored i fullFilename :: after →
    ∀ name ∈ restoreNames env partitions (listPaths restoreSelected), .checked name true ∈ before
  mismatch : (∃ name ∈ restoreNames env partitions (listPaths restoreSelected),
      env.digestMatches name = false) →
    (runRestore env partitions restoreSelected).1 = false ∧
      ∀ i fullFilename, .restored i fullFilename ∉ (runRestore env partitions restoreSelected).2

/-- The call ends before the restore pass. -/
def Refused (restoreSelected : Text) : Prop :=
  let selected := selectedPartitions env partitions (listPaths restoreSelected)
  env.mountCurrentStorage = false ∨ selected = [] ∨
    ∃ p ∈ selected, p.mountReadOnly = true ∨
      env.digestMatches (env.fullFilename p.backupFileName) = false

/-- Each sub-partition that comes with a selected partition has the archive of a selected one. -/
def SubsSelected (restoreSelected : Text) : Prop :=
  let selected := selectedPartitions env partitions (listPaths restoreSelected)
  ∀ p ∈ selected, ∀ sub ∈ restoredSubs partitions p,
    ∃ q ∈ selected, q.backupFileName = sub.archiveFileName

section checkPass
variable {env partitions}

/-- What a check pass that goes through has checked. -/
structure Checked (names : List Text) (events : List RestoreEvent) : Prop where
  each : ∀ name ∈ names, .checked name true ∈ events
  only : ∀ event ∈ events, ∃ name ∈ names, event = .checked name true

theorem checkSubs_ok (hcheck : env.checkDigest > 0) {fullFilename : Text}
    (hok : env.digestMatches fullFilename = true) (subs : List ℕ) :
    ∃ events, checkSubs env fullFilename subs = (events, true) ∧
      ∀ event ∈ events, event = .checked fullFilename true := by
  induction subs with
  | nil => exact ⟨[], rfl, by simp⟩
  | cons j subs ih =>
    obtain ⟨events, heq, hall⟩ := ih
    refine ⟨.checked fullFilename true :: events, ?_, ?_⟩
    · rw [checkSubs, if_neg (by rw [hok]; simp), if_pos hcheck, heq]
      rfl
    · intro event hevent
      rcases List.mem_cons.mp hevent with rfl | hevent
      · rfl
      · exact hall event hevent

/-- A selected partition that stops the check pass. -/
def Stops (env : RestoreEnv) (p : TWPartition) : Prop :=
  p.mountReadOnly = true ∨ env.digestMatches (env.fullFilename p.backupFileName) = false

theorem selectedPartitions_cons (path : Text) (paths : List Text) :
    selectedPartitions env partitions (path :: paths) =
      ((lookup env partitions path).map Prod.snd).toList ++
        selectedPartitions env partitions paths := by
  rw [selectedPartitions, List.filterMap_cons]
  rcases lookup env partitions path with _ | ⟨i, p⟩ <;> rfl

theorem checkPass_ok (hcheck : env.checkDigest > 0) (paths : List Text) (count : ℕ)
    (h : ∀ p ∈ selectedPartitions env partitions paths, ¬Stops env p) :
    ∃ events, checkPass env partitions paths count =
        (events, some (count + (selectedPartitions env partitions paths).length)) ∧
      Checked ((selectedPartitions env partitions paths).map fun p =>
        env.fullFilename p.backupFileName) events := by
  induction paths generalizing count with
  | nil => exact ⟨[], rfl, by rintro _ ⟨⟩, by rintro _ ⟨⟩⟩
  | cons path paths ih =>
    rw [selectedPartitions_cons] at h ⊢
    rw [checkPass]
    rcases hlook : lookup env partitions path with _ | ⟨i, p⟩
    · rw [hlook] at h
      exact ih count h
    · rw [hlook] at h
      have hp : ¬Stops env p := h p (by simp)
      rw [Stops, not_or, Bool.not_eq_true, Bool.not_eq_false] at hp
      obtain ⟨later, heq, hlater⟩ := ih (count + 1) fun q hq => h q (List.mem_append_right _ hq)
      obtain ⟨events, hsubs, hevents⟩ := checkSubs_ok hcheck hp.2
        (if p.hasSubPartition then subPartitions partitions p else [])
      refine ⟨[.checked (env.fullFilename p.backupFileName) true] ++ events ++ later, ?_, ?_, ?_⟩
      · dsimp only
        rw [hp.1, if_neg Bool.false_ne_true, if_neg (by rw [hp.2]; simp), if_pos hcheck, hsubs, heq]
        simp [Nat.add_assoc, Nat.add_comm]
      · intro name hname
        simp only [Option.map_some, Option.toList_some, List.singleton_append, List.map_cons,
          List.mem_cons] at hname
        rcases hname with rfl | hname
        · simp
        · exact List.mem_append_right _ (hlater.each name hname)
      · intro event hevent
        simp only [Option.map_some, Option.toList_some, List.singleton_append, List.map_cons,
          List.mem_cons, exists_eq_or_imp]
        rcases List.mem_append.mp hevent with hevent | hevent
        · left
          rcases List.mem_cons.mp hevent with rfl | hevent
          · rfl
          · exact hevents event hevent
        · exact .inr (hlater.only event hevent)

theorem checkPass_stops (hcheck : env.checkDigest > 0) (paths : List Text) (count : ℕ)
    (h : ∃ p ∈ selectedPartitions env partitions paths, Stops env p) :
    ∃ events, checkPass env partitions paths count = (events, none) ∧
      ∀ i fullFilename, .restored i fullFilename ∉ events := by
  induction paths generalizing count with
  | nil =>
    obtain ⟨p, ⟨⟩, -⟩ := h
  | cons path paths ih =>
    rw [selectedPartitions_cons] at h
    rw [checkPass]
    rcases hlook : lookup env partitions path with _ | ⟨i, p⟩
    · rw [hlook] at h
      exact ih count h
    · rw [hlook] at h
      dsimp only
      by_cases hro : p.mountReadOnly = true
      · rw [if_pos hro]
        exact ⟨[], rfl, by simp⟩
      rw [if_neg hro]
      by_cases hmatch : env.digestMatches (env.fullFilename p.backupFileName) = false
      · rw [if_pos ⟨hcheck, hmatch⟩]
        exact ⟨_, rfl, by simp⟩
      rw [if_neg (fun hno => hmatch hno.2), if_pos hcheck]
      obtain ⟨events, hsubs, hevents⟩ := checkSubs_ok hcheck (by simpa using hmatch)
        (if p.hasSubPartition then subPartitions partitions p else [])
      obtain ⟨q, hq, hstop⟩ := h
      have hrest : q ∈ selectedPartitions env partitions paths := by
        rcases List.mem_append.mp hq with hq | hq
        · rw [Option.map_some, Option.toList_some, List.mem_singleton] at hq
          rw [hq] at hstop
          exact absurd hstop (not_or.mpr ⟨hro, hmatch⟩)
        · exact hq
      obtain ⟨later, heq, hlater⟩ := ih (count + 1) ⟨q, hrest, hstop⟩
      rw [hsubs, heq]
      refine ⟨_, rfl, fun j name hmem => ?_⟩
      rcases List.mem_append.mp hmem with hmem | hmem
      · rcases List.mem_cons.mp hmem with hmem | hmem
        · cases hmem
        · cases hevents _ hmem
      · exact hlater j name hmem

end checkPass

section restorePass
variable {env partitions}

theorem restorePartition_events (i : ℕ) (p : TWPartition) (ps : Partitions) :
    ∃ later, (restorePartition env i p ps).1 =
      .restored i (env.fullFilename p.backupFileName) :: later := by
  rw [restorePartition]
  dsimp only
  split_ifs
  · exact ⟨[], rfl⟩
  · exact ⟨_, rfl⟩
  · exact ⟨[], rfl⟩

/-- A restore pass with something to restore starts by restoring it. -/
theorem restorePass_events (paths : List Text)
    (h : selectedPartitions env partitions paths ≠ []) :
    ∃ i name later, (restorePass env paths partitions).1 = .restored i name :: later := by
  induction paths with
  | nil => exact absurd rfl h
  | cons path paths ih =>
    rw [selectedPartitions_cons] at h
    rw [restorePass]
    rcases hlook : lookup env partitions path with _ | ⟨i, p⟩
    · rw [hlook] at h
      exact ih h
    · obtain ⟨later, hfirst⟩ : ∃ later, (restorePartition env i p partitions).1 =
        .restored i (env.fullFilename p.backupFileName) :: later :=
        restorePartition_events i p partitions
      dsimp only
      rcases hpart : restorePartition env i p partitions with ⟨events, _ | _, ps⟩
      · rw [hpart] at hfirst
        exact ⟨i, _, later, hfirst⟩
      · rw [hpart] at hfirst
        dsimp only at hfirst ⊢
        rw [hfirst]
        exact ⟨i, _, later ++ _, rfl⟩

end restorePass

section runRestore
variable {env partitions} {restoreSelected : Text}

theorem runRestore_refused (hcheck : env.checkDigest > 0)
    (h : Refused env partitions restoreSelected) :
    (runRestore env partitions restoreSelected).1 = false ∧
      ∀ i fullFilename, .restored i fullFilename ∉
        (runRestore env partitions restoreSelected).2 := by
  rw [runRestore]
  by_cases hmount : env.mountCurrentStorage = false
  · rw [if_pos hmount]
    exact ⟨rfl, by simp⟩
  rw [if_neg hmount]
  by_cases hstop : ∃ p ∈ selectedPartitions env partitions (listPaths restoreSelected), Stops env p
  · obtain ⟨events, heq, hnone⟩ := checkPass_stops hcheck (listPaths restoreSelected) 0 hstop
    rw [heq]
    exact ⟨rfl, hnone⟩
  · have hempty : selectedPartitions env partitions (listPaths restoreSelected) = [] := by
      rcases h with h | h | h
      · exact absurd h hmount
      · exact h
      · exact absurd h hstop
    push Not at hstop
    obtain ⟨events, heq, hevents⟩ := checkPass_ok hcheck (listPaths restoreSelected) 0 hstop
    rw [heq, hempty]
    refine ⟨rfl, fun i name hmem => ?_⟩
    obtain ⟨_, -, hcontra⟩ := hevents.only _ hmem
    cases hcontra

/-- A call that is not refused runs the check pass to its end and starts to restore. -/
theorem runRestore_goes (hcheck : env.checkDigest > 0)
    (h : ¬Refused env partitions restoreSelected) : ∃ checks i name later,
      (runRestore env partitions restoreSelected).2 = checks ++ .restored i name :: later ∧
        Checked ((selectedPartitions env partitions (listPaths restoreSelected)).map fun p =>
          env.fullFilename p.backupFileName) checks := by
  rw [Refused, not_or, not_or] at h
  obtain ⟨hmount, hne, hstop⟩ := h
  push Not at hstop
  obtain ⟨checks, heq, hchecks⟩ := checkPass_ok hcheck (listPaths restoreSelected) 0 fun p hp =>
    not_or.mpr ⟨(hstop p hp).1, (hstop p hp).2⟩
  obtain ⟨i, name, later, hpass⟩ := restorePass_events (listPaths restoreSelected) hne
  obtain ⟨n, hn⟩ := Nat.exists_eq_succ_of_ne_zero (List.length_pos_iff.mpr hne).ne'
  refine ⟨checks, i, name, later, ?_, hchecks⟩
  rw [runRestore, if_neg hmount, heq, hn, Nat.zero_add]
  dsimp only
  rw [hpass]
  rfl

theorem digestsFirst_of_refused (hcheck : env.checkDigest > 0)
    (h : Refused env partitions restoreSelected) :
    DigestsFirst env partitions restoreSelected := by
  have hnone := runRestore_refused hcheck h
  refine ⟨fun before i name after heq => ?_, fun _ => hnone⟩
  exact absurd (heq ▸ List.mem_append_right before List.mem_cons_self) (hnone.2 i name)

/-- Before anything is restored the whole check pass has run. -/
theorem checks_before {names : List Text} {checks before later after : List RestoreEvent}
    {i j : ℕ} {name name' : Text} (hchecks : Checked names checks)
    (h : checks ++ .restored i name :: later = before ++ .restored j name' :: after) :
    ∀ event ∈ checks, event ∈ before := by
  intro event hevent
  rcases List.append_eq_append_iff.mp h with ⟨middle, rfl, -⟩ | ⟨middle, rfl, heq⟩
  · exact List.mem_append_left _ hevent
  · rcases middle with _ | ⟨first, middle⟩
    · simpa using hevent
    · cases heq
      obtain ⟨_, -, hcontra⟩ := hchecks.only (.restored j name') (by simp)
      cases hcontra

theorem digestsFirst_of_subsSelected (hcheck : env.checkDigest > 0)
    (h : ¬Refused env partitions restoreSelected)
    (hsubs : SubsSelected env partitions restoreSelected) :
    DigestsFirst env partitions restoreSelected := by
  have hnames : ∀ name ∈ restoreNames env partitions (listPaths restoreSelected),
      ∃ q ∈ selectedPartitions env partitions (listPaths restoreSelected),
        env.fullFilename q.backupFileName = name := by
    intro name hname
    obtain ⟨p, hp, hname⟩ := List.mem_flatMap.mp hname
    rcases List.mem_cons.mp hname with rfl | hname
    · exact ⟨p, hp, rfl⟩
    · obtain ⟨sub, hsub, rfl⟩ := List.mem_map.mp hname
      obtain ⟨q, hq, heq⟩ := hsubs p hp sub hsub
      exact ⟨q, hq, by rw [heq]⟩
  obtain ⟨checks, i, first, later, hrun, hchecks⟩ := runRestore_goes hcheck h
  constructor
  · intro before j name' after heq name hname
    rw [hrun] at heq
    obtain ⟨q, hq, rfl⟩ := hnames name hname
    exact checks_before hchecks heq _ (hchecks.each _ (List.mem_map_of_mem hq))
  · rintro ⟨name, hname, hbad⟩
    obtain ⟨q, hq, rfl⟩ := hnames name hname
    exact absurd (.inr (.inr ⟨q, hq, .inr hbad⟩)) h

theorem subsSelected_of_digestsFirst (hcheck : env.checkDigest > 0)
    (h : ¬Refused env partitions restoreSelected)
    (hfirst : DigestsFirst env partitions restoreSelected) :
    SubsSelected env partitions restoreSelected := by
  obtain ⟨checks, i, first, later, hrun, hchecks⟩ := runRestore_goes hcheck h
  intro p hp sub hsub
  have hname : env.fullFilename sub.archiveFileName ∈
      restoreNames env partitions (listPaths restoreSelected) :=
    List.mem_flatMap.mpr ⟨p, hp, List.mem_cons_of_mem _ (List.mem_map_of_mem hsub)⟩
  obtain ⟨name, hmem, heq⟩ := hchecks.only _ (hfirst.checkedFirst checks i first later hrun _ hname)
  obtain ⟨q, hq, rfl⟩ := List.mem_map.mp hmem
  simp only [RestoreEvent.checked.injEq, and_true, RestoreEnv.fullFilename,
    List.append_cancel_left_eq, List.cons.injEq, true_and] at heq
  exact ⟨q, hq, heq.symm⟩

end runRestore

/-- The sub-partitions' archives are never looked at: the order of the two passes protects a
selection exactly when it is refused or these archives are selected as well. -/
theorem digestsFirst_iff (hcheck : env.checkDigest > 0) (restoreSelected : Text) :
    DigestsFirst env partitions restoreSelected ↔
      Refused env partitions restoreSelected ∨ SubsSelected env partitions restoreSelected := by
  constructor
  · intro hfirst
    by_cases h : Refused env partitions restoreSelected
    · exact .inl h
    · exact .inr (subsSelected_of_digestsFirst hcheck h hfirst)
  · rintro (h | hsubs)
    · exact digestsFirst_of_refused hcheck h
    · by_cases h : Refused env partitions restoreSelected
      · exact digestsFirst_of_refused hcheck h
      · exact digestsFirst_of_subsSelected hcheck h hsubs

/-! ### The names that reach `Restore`

As long as a restore leaves the file system of a partition as it is, every archive that is restored
is one of the selection's. -/

section names
variable {env partitions}

/-- A partition of the table during the restore pass: only `Backup_FileName` may have changed. -/
structure Alike (env : RestoreEnv) (names : List Text) (p' p : TWPartition) : Prop where
  same : p' = { p with backupFileName := p'.backupFileName }
  file : p'.backupFileName = p.backupFileName ∨
    p'.backupFileName = p.archiveFileName ∧ env.fullFilename p.archiveFileName ∈ names

variable {names : List Text} {ps : Partitions}

theorem forall₂_get {R : TWPartition → TWPartition → Prop} {l l' : Partitions}
    (h : List.Forall₂ R l l') {i : ℕ} {p : TWPartition} (hi : l[i]? = some p) :
    ∃ q, l'[i]? = some q ∧ R p q := by
  induction h generalizing i with
  | nil => cases hi
  | cons hab _ ih =>
    cases i with
    | zero =>
      cases hi
      exact ⟨_, rfl, hab⟩
    | succ i => exact ih hi

theorem forall₂_set {R : TWPartition → TWPartition → Prop} {l l' : Partitions}
    (h : List.Forall₂ R l l') {i : ℕ} {p q : TWPartition} (hi : l'[i]? = some q) (hpq : R p q) :
    List.Forall₂ R (l.set i p) l' := by
  induction h generalizing i with
  | nil => exact .nil
  | cons hab hrest ih =>
    cases i with
    | zero =>
      cases hi
      exact .cons hpq hrest
    | succ i => exact .cons hab (ih hi)

theorem findPartitionByPath_alike (h : List.Forall₂ (Alike env names) ps partitions)
    (withoutPersist : Bool) (path : Text) :
    findPartitionByPath withoutPersist ps path =
      findPartitionByPath withoutPersist partitions path := by
  have hfind : ∀ localPath, ps.findIdx? (fun p => p.mountedAt localPath) =
      partitions.findIdx? fun p => p.mountedAt localPath := by
    intro localPath
    induction h with
    | nil => rfl
    | cons hab _ ih =>
      rw [List.findIdx?_cons, List.findIdx?_cons, ih, hab.same]
      rfl
  rw [findPartitionByPath, findPartitionByPath]
  simp only [hfind]

theorem lookup_alike (h : List.Forall₂ (Alike env names) ps partitions) {path : Text} {i : ℕ}
    {p' : TWPartition} (hlook : lookup env ps path = some (i, p')) :
    ps[i]? = some p' ∧ ∃ p, lookup env partitions path = some (i, p) ∧
      partitions[i]? = some p ∧ Alike env names p' p := by
  rw [lookup, findPartitionByPath_alike h] at hlook
  rcases hfind : findPartitionByPath env.withoutPersist partitions path with _ | j
  · rw [hfind] at hlook
    cases hlook
  · rw [hfind] at hlook
    obtain ⟨q, hq, heq⟩ := Option.map_eq_some_iff.mp hlook
    cases heq
    obtain ⟨p, hp, halike⟩ := forall₂_get h hq
    refine ⟨hq, p, ?_, hp, halike⟩
    rw [lookup, hfind]
    dsimp only
    rw [hp]
    rfl

/-- The archives restored by some events. -/
def RestoredIn (names : List Text) (events : List RestoreEvent) : Prop :=
  ∀ i name, .restored i name ∈ events → name ∈ names

variable (hkeep : ∀ p, (env.restore p).2 = p.currentFileSystem)
include hkeep

theorem restoreSubs_names {parent : TWPartition} (js : List ℕ)
    (h : List.Forall₂ (Alike env names) ps partitions)
    (hsubs : ∀ (j : ℕ) (p : TWPartition), partitions[j]? = some p → p.isSubPartition = true →
      p.subPartitionOf = parent.mountPoint → env.fullFilename p.archiveFileName ∈ names) :
    RestoredIn names (restoreSubs env parent js ps).1 ∧
      List.Forall₂ (Alike env names) (restoreSubs env parent js ps).2.2 partitions := by
  induction js generalizing ps with
  | nil => exact ⟨by rintro _ _ ⟨⟩, h⟩
  | cons j js ih =>
    rw [restoreSubs]
    rcases hj : ps[j]? with _ | p'
    · exact ih h
    dsimp only
    obtain ⟨p, hp, halike⟩ := forall₂_get h hj
    by_cases hsub : p'.isSubPartition = true ∧ p'.subPartitionOf = parent.mountPoint
    · have hname : p'.archiveFileName = p.archiveFileName := by rw [halike.same]; rfl
      have hmem : env.fullFilename p.archiveFileName ∈ names := by
        rw [halike.same] at hsub
        exact hsubs j p hp hsub.1 hsub.2
      have hset : List.Forall₂ (Alike env names) (ps.set j
          { p' with
            backupFileName := p'.archiveFileName
            currentFileSystem := (env.restore { p' with backupFileName := p'.archiveFileName }).2 })
          partitions := by
        refine forall₂_set h hp ⟨?_, .inr ⟨hname, hmem⟩⟩
        rw [hkeep]
        dsimp only
        rw [halike.same]
      rw [if_pos hsub]
      have hevent : ∀ i name,
          RestoreEvent.restored i name = .restored j (env.fullFilename p'.archiveFileName) →
          name ∈ names := by
        rintro i name ⟨⟩
        rwa [hname]
      split_ifs
      · refine ⟨fun i name hmem' => ?_, hset⟩
        exact hevent i name (List.mem_singleton.mp hmem')
      · obtain ⟨hlater, htable⟩ := ih hset
        refine ⟨fun i name hmem' => ?_, htable⟩
        rcases List.mem_cons.mp hmem' with hmem' | hmem'
        · exact hevent i name hmem'
        · exact hlater i name hmem'
    · rw [if_neg hsub]
      exact ih h

theorem restorePartition_names {i : ℕ} {p' p : TWPartition}
    (h : List.Forall₂ (Alike env names) ps partitions) (hp : partitions[i]? = some p)
    (halike : Alike env names p' p) (hown : env.fullFilename p.backupFileName ∈ names)
    (hsubs : ∀ sub ∈ restoredSubs partitions p, env.fullFilename sub.archiveFileName ∈ names) :
    RestoredIn names (restorePartition env i p' ps).1 ∧
      List.Forall₂ (Alike env names) (restorePartition env i p' ps).2.2 partitions := by
  have hset : List.Forall₂ (Alike env names)
      (ps.set i { p' with currentFileSystem := (env.restore p').2 }) partitions := by
    rw [hkeep]
    exact forall₂_set h hp halike
  have hfirst : env.fullFilename p'.backupFileName ∈ names := by
    rcases halike.file with hfile | ⟨hfile, hmem⟩ <;> rw [hfile] <;> assumption
  rw [restorePartition]
  dsimp only
  split_ifs with _ hhas
  · exact ⟨fun j name hmem => by cases List.mem_singleton.mp hmem; exact hfirst, hset⟩
  · have hsubs' : ∀ (j : ℕ) (q : TWPartition), partitions[j]? = some q → q.isSubPartition = true →
        q.subPartitionOf = p'.mountPoint → env.fullFilename q.archiveFileName ∈ names := by
      intro j q hq hsub hof
      rw [halike.same] at hhas hof
      refine hsubs q ?_
      rw [restoredSubs, if_pos hhas]
      refine List.mem_filterMap.mpr ⟨j, List.mem_filter.mpr ⟨?_, ?_⟩, hq⟩
      · exact List.mem_range.mpr (List.getElem?_eq_some_iff.mp hq).1
      · rw [hq]
        simpa using ⟨hsub, hof⟩
    obtain ⟨hlater, htable⟩ := restoreSubs_names hkeep (List.range _) hset hsubs'
    refine ⟨fun j name hmem => ?_, htable⟩
    rcases List.mem_cons.mp hmem with hmem | hmem
    · cases hmem
      exact hfirst
    · exact hlater j name hmem
  · exact ⟨fun j name hmem => by cases List.mem_singleton.mp hmem; exact hfirst, hset⟩

theorem restorePass_names (paths : List Text)
    (h : List.Forall₂ (Alike env names) ps partitions)
    (hnames : ∀ name ∈ restoreNames env partitions paths, name ∈ names) :
    RestoredIn names (restorePass env paths ps).1 := by
  induction paths generalizing ps with
  | nil => rintro _ _ ⟨⟩
  | cons path paths ih =>
    rw [restoreNames, selectedPartitions_cons, List.flatMap_append] at hnames
    have hrest := fun name hname => hnames name (List.mem_append_right _ hname)
    rw [restorePass]
    rcases hlook : lookup env ps path with _ | ⟨i, p'⟩
    · exact ih h hrest
    dsimp only
    obtain ⟨-, p, hlook', hp, halike⟩ := lookup_alike h hlook
    rw [hlook'] at hnames
    obtain ⟨hevents, htable⟩ := restorePartition_names hkeep h hp halike
      (hnames _ (by simp)) fun sub hsub => hnames _ (by
        simp only [Option.map_some, Option.toList_some, List.flatMap_singleton]
        exact List.mem_append_left _ (List.mem_cons_of_mem _ (List.mem_map_of_mem hsub)))
    rcases hpart : restorePartition env i p' ps with ⟨events, _ | _, ps'⟩
    · rw [hpart] at hevents
      exact hevents
    · rw [hpart] at hevents htable
      intro j name hmem
      rcases List.mem_append.mp hmem with hmem | hmem
      · exact hevents j name hmem
      · exact ih htable hrest j name hmem

/-- What is restored is what the selection stands for. -/
theorem runRestore_names (restoreSelected : Text) :
    RestoredIn (restoreNames env partitions (listPaths restoreSelected))
      (restorePass env (listPaths restoreSelected) partitions).1 :=
  restorePass_names hkeep _ (List.forall₂_same.mpr fun _ _ => ⟨rfl, .inl rfl⟩) fun _ h => h

end names

/-! User data with its sub-partition: the archive of the sub-partition has a digest that does not
match. -/

def dataPartition : TWPartition :=
  { mountPoint := "/data".toList
    symlinkMountPoint := []
    backupPath := "/data".toList
    backupName := "data".toList
    backupFileName := "data.ext4.win".toList
    currentFileSystem := "ext4".toList
    canBeBackedUp := true
    canBeAdvBackedUp := false
    isPresent := true
    mountReadOnly := false
    isSubPartition := false
    hasSubPartition := true
    subPartitionOf := [] }

def datadataPartition : TWPartition :=
  { dataPartition with
    mountPoint := "/datadata".toList
    backupPath := "/datadata".toList
    backupName := "datadata".toList
    backupFileName := "datadata.ext4.win".toList
    isSubPartition := true
    hasSubPartition := false
    subPartitionOf := "/data".toList }

def datadataEnv : RestoreEnv where
  withoutPersist := false
  mountCurrentStorage := true
  checkDigest := 1
  digestConfig := ⟨false, true⟩
  digests := numberDigests
  fs p :=
    if p = "/b/data.ext4.win".toList ∨ p = "/b/datadata.ext4.win".toList then some "tar".toList
    else if p = "/b/datadata.ext4.win.sha2".toList then some "0".toList
    else none
  backupFolder := "/b".toList
  restore p := (true, p.currentFileSystem)

theorem datadata_mismatch :
    datadataEnv.digestMatches "/b/datadata.ext4.win".toList = false := by
  have hfile : checkFileDigest datadataEnv.digestConfig datadataEnv.digests datadataEnv.fs
      "/b/datadata.ext4.win".toList = false := by
    rw [← Bool.not_eq_true, checkFileDigest_eq_true]
    decide
  rw [RestoreEnv.digestMatches, checkDigest, if_neg (by decide), hfile]

/-- Both partitions are restored and the call succeeds. -/
theorem datadata_restored :
    ¬DigestsFirst datadataEnv [dataPartition, datadataPartition] "/data;".toList := by
  intro h
  have hrun := (h.mismatch ⟨"/b/datadata.ext4.win".toList, by decide, datadata_mismatch⟩).1
  exact absurd hrun (by decide)

theorem digestsFirst_iff_datadata :
    DigestsFirst datadataEnv [dataPartition, datadataPartition] "/data;".toList ↔
      Refused datadataEnv [dataPartition, datadataPartition] "/data;".toList ∨
        SubsSelected datadataEnv [dataPartition, datadataPartition] "/data;".toList :=
  digestsFirst_iff _ _ (by decide) _

end BootableRecovery.Twrp
