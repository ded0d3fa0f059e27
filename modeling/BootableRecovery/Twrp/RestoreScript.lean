import BootableRecovery.Twrp.RunBackup
import BootableRecovery.Twrp.RunRestore

namespace BootableRecovery.Twrp
open Lib

/-! The `restore` command of a script: how its options get to `Run_Restore`. -/

/-- What the command finds outside of the script: the mount points of the mounted storages, the
folder of the backups on each of them, and what `Set_Restore_Files` leaves in
`tw_restore_encrypted` and `tw_restore_list`. -/
structure RestoreScriptEnv where
  mountedStorages : List Text
  backupsFolder : Text → Text
  pathExists : Text → Bool
  setRestoreFiles : Text → ℤ × Text

/-- Folder and options are cut at the last blank. -/
def splitValue (value : Text) : Text × Text :=
  if ' ' ∈ value then
    ((value.reverse.dropWhile fun c => c ≠ ' ').tail.reverse,
      (value.reverse.takeWhile fun c => c ≠ ' ').reverse)
  else (value, [])

/-- A folder without a slash in front is one of the first storage that has it. -/
def RestoreScriptEnv.locateFolder (env : RestoreScriptEnv) (folder : Text) : Text :=
  if folder.head? = some '/' then
    if folder.getLast? = some '/' then folder ++ ['.'] else folder ++ ['/', '.']
  else
    ((env.mountedStorages.map fun storage => env.backupsFolder storage ++ '/' :: folder).find?
      env.pathExists).getD folder

/-- The partition that a letter of the options stands for. -/
def restoreLetter (c : Char) : Option Text :=
  if c = 'S' ∨ c = 's' then some "/system".toList
  else if c = 'D' ∨ c = 'd' then some "/data".toList
  else if c = 'C' ∨ c = 'c' then some "/cache".toList
  else if c = 'R' ∨ c = 'r' then some "/recovery".toList
  else if c = 'B' ∨ c = 'b' then some "/boot".toList
  else if c = 'A' ∨ c = 'a' then some "/and-sec".toList
  else if c = 'E' ∨ c = 'e' then some "/sd-ext".toList
  else none

/-- The letter that announces that the digest check is skipped. -/
def skipLetter (c : Char) : Bool := c = 'M' || c = 'm'

/-- What one letter adds to the list, if the list of the folder has its path somewhere. -/
def restoreOption (partitionList : Text) (c : Char) : Text :=
  match restoreLetter c with
  | none => []
  | some path => if path ++ [';'] <:+: partitionList then path ++ [';'] else []

/-- What `Run_Restore` is started with. -/
structure RestoreStart where
  folderPath : Text
  skipDigestCheck : ℤ
  restoreSelected : Text
  deriving DecidableEq, Repr

/-- The two variables after the options. -/
def restoreOptions (folderPath partitions partitionList : Text) : RestoreStart :=
  if partitions = [] then ⟨folderPath, 0, partitionList⟩
  else
    ⟨folderPath, if partitions.any skipLetter then 1 else 0,
      partitions.flatMap (restoreOption partitionList)⟩

/-- `none` where the command ends before `Run_Restore`. -/
def restoreCommand (env : RestoreScriptEnv) (value : Text) : Option RestoreStart :=
  let folderPath := env.locateFolder (splitValue value).1
  if env.pathExists folderPath = false then none
  else if (env.setRestoreFiles folderPath).1 ≠ 0 then none
  else some (restoreOptions folderPath (splitValue value).2 (env.setRestoreFiles folderPath).2)

/-- The events of the restore that is started. -/
def RestoreStart.events (start : RestoreStart) (env : RestoreEnv) (partitions : Partitions) :
    List RestoreEvent :=
  (runRestore { env with checkDigest := start.skipDigestCheck, backupFolder := start.folderPath }
    partitions start.restoreSelected).2

/-- The paths that the options are to select. -/
def Chosen (options partitionList path : Text) : Prop :=
  path ∈ listPaths partitionList ∧
    (options = [] ∨ ∃ c ∈ options, restoreLetter c = some path)

/-- What the options announce: these paths once each, and all archives checked before anything is
restored, or none when the check is to be skipped. -/
structure OptionsHonoured (options partitionList : Text) (start : RestoreStart) : Prop where
  chosen : ∀ path, path ∈ listPaths start.restoreSelected ↔ Chosen options partitionList path
  once : (listPaths start.restoreSelected).Nodup
  verified : (∀ c ∈ options, skipLetter c = false) →
    ∀ env partitions before i fullFilename after,
      start.events env partitions = before ++ .restored i fullFilename :: after →
      ∀ p ∈ selectedPartitions env partitions (listPaths start.restoreSelected),
        .checked (start.folderPath ++ '/' :: p.backupFileName) true ∈ before
  skipped : (∃ c ∈ options, skipLetter c = true) →
    ∀ env partitions fullFilename ok, .checked fullFilename ok ∉ start.events env partitions

/-- The options leave nothing to restore. -/
def NothingToRestore (options partitionList : Text) : Prop :=
  if options = [] then listPaths partitionList = []
  else ∀ c ∈ options, ∀ path, restoreLetter c = some path → ¬path ++ [';'] <:+: partitionList

section options
variable {options partitionList path : Text} {c : Char}

theorem semicolon_not_mem_restoreLetter (h : restoreLetter c = some path) : ';' ∉ path := by
  unfold restoreLetter at h
  split_ifs at h <;> cases h <;> decide

theorem listPaths_append {a : Text} (ha : ';' ∉ a) (rest : Text) :
    listPaths (a ++ ';' :: rest) = a :: listPaths rest := by
  rw [listPaths, List.splitOn_append_cons_self_of_not_mem ha,
    List.dropLast_cons_of_ne_nil (List.splitOn_ne_nil ';' rest), listPaths]

/-- An entry of a list stands in it with its semicolon. -/
theorem infix_of_mem_listPaths (h : path ∈ listPaths partitionList) :
    path ++ [';'] <:+: partitionList := by
  induction hn : partitionList.length using Nat.strong_induction_on generalizing partitionList with
  | _ n ih =>
    by_cases hmem : ';' ∈ partitionList
    · obtain ⟨a, rest, heq, ha⟩ := List.eq_append_cons_of_mem hmem
      rw [heq, listPaths_append ha] at h
      rw [heq] at hn ⊢
      rcases List.mem_cons.mp h with rfl | h
      · exact ⟨[], rest, by simp⟩
      · have hlength : rest.length < n := by
          rw [← hn, List.length_append, List.length_cons]
          omega
        have hrest := ih rest.length hlength h rfl
        have hsuffix : rest <:+: a ++ ';' :: rest :=
          (List.suffix_cons ';' rest).isInfix.trans (List.suffix_append a _).isInfix
        exact hrest.trans hsuffix
    · rw [listPaths, List.splitOn_eq_singleton hmem] at h
      exact absurd h List.not_mem_nil

/-- The path that a letter adds, if it adds one. -/
def optionPath (partitionList : Text) (c : Char) : Option Text :=
  (restoreLetter c).filter fun path => path ++ [';'] <:+: partitionList

theorem optionPath_eq_some : optionPath partitionList c = some path ↔
    restoreLetter c = some path ∧ path ++ [';'] <:+: partitionList := by
  rw [optionPath, Option.filter_eq_some_iff, decide_eq_true_iff]

theorem restoreOption_eq (partitionList : Text) (c : Char) :
    restoreOption partitionList c = ((optionPath partitionList c).map (· ++ [';'])).getD [] := by
  unfold restoreOption optionPath
  cases restoreLetter c with
  | none => rfl
  | some path =>
    by_cases h : path ++ [';'] <:+: partitionList <;> simp [h, Option.filter]

/-- The letters of the options select in their order. -/
theorem listPaths_options (options partitionList : Text) :
    listPaths (options.flatMap (restoreOption partitionList)) =
      options.filterMap (optionPath partitionList) := by
  induction options with
  | nil => rfl
  | cons c options ih =>
    rw [List.flatMap_cons, restoreOption_eq]
    rcases hpath : optionPath partitionList c with _ | path
    · rw [List.filterMap_cons_none hpath]
      exact ih
    · have hsemicolon := semicolon_not_mem_restoreLetter (optionPath_eq_some.mp hpath).1
      rw [List.filterMap_cons_some hpath, Option.map_some, Option.getD_some, List.append_assoc,
        List.singleton_append, listPaths_append hsemicolon, ih]

/-- The list that `Run_Restore` gets is empty if, and only if, there is nothing to restore. -/
theorem nothingToRestore_iff (folderPath options partitionList : Text) :
    listPaths (restoreOptions folderPath options partitionList).restoreSelected = [] ↔
      NothingToRestore options partitionList := by
  unfold NothingToRestore restoreOptions
  by_cases hnone : options = []
  · rw [if_pos hnone, if_pos hnone]
  · rw [if_neg hnone, if_neg hnone, listPaths_options, List.filterMap_eq_nil_iff]
    refine forall₂_congr fun c hc => ?_
    rw [Option.eq_none_iff_forall_ne_some]
    refine forall_congr' fun path => ?_
    rw [ne_eq, optionPath_eq_some, not_and]

theorem not_chosen (h : NothingToRestore options partitionList) :
    ¬Chosen options partitionList path := by
  rintro ⟨hlisted, hletter⟩
  unfold NothingToRestore at h
  split_ifs at h with hnone
  · rw [h] at hlisted
    exact absurd hlisted List.not_mem_nil
  · obtain ⟨c, hc, hpath⟩ := hletter.resolve_left hnone
    exact h c hc path hpath (infix_of_mem_listPaths hlisted)

end options

section runs
variable {env : RestoreEnv} {partitions : Partitions}

theorem runRestore_nothing {restoreSelected : Text} (h : listPaths restoreSelected = []) :
    (runRestore env partitions restoreSelected).2 = [] := by
  unfold runRestore
  rw [h]
  split_ifs <;> rfl

/-- The check pass without a check goes through and has no events. -/
theorem checkSubs_unchecked (hcheck : ¬env.checkDigest > 0) (fullFilename : Text)
    (subs : List ℕ) : checkSubs env fullFilename subs = ([], true) := by
  induction subs with
  | nil => rfl
  | cons j subs ih =>
    rw [checkSubs, if_neg fun h => hcheck h.1, if_neg hcheck, ih]
    rfl

theorem checkPass_unchecked (hcheck : ¬env.checkDigest > 0) (paths : List Text) (count : ℕ)
    (h : ∀ p ∈ selectedPartitions env partitions paths, p.mountReadOnly = false) :
    checkPass env partitions paths count =
      ([], some (count + (selectedPartitions env partitions paths).length)) := by
  induction paths generalizing count with
  | nil => rfl
  | cons path paths ih =>
    rw [selectedPartitions_cons] at h ⊢
    rw [checkPass]
    rcases hlook : lookup env partitions path with _ | ⟨i, p⟩
    · rw [hlook] at h
      exact ih count h
    · rw [hlook] at h
      have hp : p.mountReadOnly = false := h p (by simp)
      dsimp only
      rw [hp, if_neg Bool.false_ne_true, if_neg fun h => hcheck h.1, if_neg hcheck,
        checkSubs_unchecked hcheck, ih (count + 1) fun q hq => h q (List.mem_append_right _ hq)]
      simp [Nat.add_assoc, Nat.add_comm]

/-- Without a check, whatever is selected is restored at once. -/
theorem runRestore_unchecked (hcheck : ¬env.checkDigest > 0) {restoreSelected : Text}
    (hmount : env.mountCurrentStorage = true)
    (hwrite : ∀ p ∈ selectedPartitions env partitions (listPaths restoreSelected),
      p.mountReadOnly = false)
    (hne : selectedPartitions env partitions (listPaths restoreSelected) ≠ []) :
    ∃ i name later,
      (runRestore env partitions restoreSelected).2 = .restored i name :: later := by
  obtain ⟨i, name, later, hpass⟩ := restorePass_events (listPaths restoreSelected) hne
  obtain ⟨n, hn⟩ := Nat.exists_eq_succ_of_ne_zero (List.length_pos_iff.mpr hne).ne'
  refine ⟨i, name, later, ?_⟩
  rw [runRestore, if_neg (by simp [hmount]),
    checkPass_unchecked hcheck _ 0 hwrite, hn, Nat.zero_add]
  exact hpass

/-- With a check, the first archive that is selected is checked. -/
theorem checkPass_checked (hcheck : env.checkDigest > 0) (paths : List Text) (count : ℕ)
    (hwrite : ∀ p ∈ selectedPartitions env partitions paths, p.mountReadOnly = false)
    (hne : selectedPartitions env partitions paths ≠ []) :
    ∃ name ok, .checked name ok ∈ (checkPass env partitions paths count).1 := by
  induction paths with
  | nil => exact absurd rfl hne
  | cons path paths ih =>
    rw [selectedPartitions_cons] at hwrite hne
    rw [checkPass]
    rcases hlook : lookup env partitions path with _ | ⟨i, p⟩
    · rw [hlook] at hwrite hne
      exact ih hwrite hne
    · rw [hlook] at hwrite
      have hp : p.mountReadOnly = false := hwrite p (by simp)
      dsimp only
      rw [hp, if_neg Bool.false_ne_true, if_pos hcheck]
      by_cases hmatch : env.checkDigest > 0 ∧
          env.digestMatches (env.fullFilename p.backupFileName) = false
      · rw [if_pos hmatch]
        exact ⟨_, false, List.mem_cons_self⟩
      · rw [if_neg hmatch]
        refine ⟨env.fullFilename p.backupFileName, true, ?_⟩
        split <;> simp

theorem runRestore_checked (hcheck : env.checkDigest > 0) {restoreSelected : Text}
    (hmount : env.mountCurrentStorage = true)
    (hwrite : ∀ p ∈ selectedPartitions env partitions (listPaths restoreSelected),
      p.mountReadOnly = false)
    (hne : selectedPartitions env partitions (listPaths restoreSelected) ≠ []) :
    ∃ name ok, .checked name ok ∈ (runRestore env partitions restoreSelected).2 := by
  obtain ⟨name, ok, hchecked⟩ := checkPass_checked hcheck _ 0 hwrite hne
  refine ⟨name, ok, ?_⟩
  rw [runRestore, if_neg (by simp [hmount])]
  rcases hpass : checkPass env partitions (listPaths restoreSelected) 0 with ⟨events, _ | _ | n⟩
  · rw [hpass] at hchecked
    exact hchecked
  · rw [hpass] at hchecked
    exact hchecked
  · rw [hpass] at hchecked
    exact List.mem_append_left _ hchecked

end runs

/-- A table whose only partition is the one that a path finds. -/
def tableOf (path : Text) : Partitions :=
  [{ dataPartition with
    mountPoint :=
      if getRootPath path = "/system".toList then androidRootPath else getRootPath path
    hasSubPartition := false }]

/-- A storage on which every restore succeeds. -/
def freshEnv : RestoreEnv where
  withoutPersist := false
  mountCurrentStorage := true
  checkDigest := 0
  digestConfig := ⟨false, true⟩
  digests := numberDigests
  fs _ := none
  backupFolder := []
  restore p := (true, p.currentFileSystem)

section honoured
variable {options partitionList value : Text} {start : RestoreStart}

theorem lookup_tableOf {env : RestoreEnv} (henv : env.withoutPersist = false) (path : Text) :
    ∃ p ∈ tableOf path, lookup env (tableOf path) path = some (0, p) := by
  have hmounted : ∀ p : TWPartition, p.mountedAt p.mountPoint = true := fun p => by
    rw [TWPartition.mountedAt, decide_eq_true rfl, Bool.true_or]
  have hfind : findPartitionByPath false (tableOf path) path = some 0 := by
    rw [findPartitionByPath, Bool.false_and, if_neg Bool.false_ne_true, tableOf,
      List.findIdx?_cons]
    exact if_pos (hmounted _)
  refine ⟨_, List.mem_singleton_self _, ?_⟩
  rw [lookup, henv, hfind]
  rfl

theorem selectedPartitions_tableOf {env : RestoreEnv} (henv : env.withoutPersist = false)
    {paths : List Text} {path : Text} (hpath : path ∈ paths) :
    selectedPartitions env (tableOf path) paths ≠ [] ∧
      ∀ p ∈ selectedPartitions env (tableOf path) paths, p.mountReadOnly = false := by
  obtain ⟨p, -, hlook⟩ := lookup_tableOf henv path
  refine ⟨List.ne_nil_of_mem (List.mem_filterMap.mpr ⟨path, hpath, by rw [hlook]; rfl⟩), ?_⟩
  intro q hq
  obtain ⟨other, -, hother⟩ := List.mem_filterMap.mp hq
  have hmem : q ∈ tableOf path := by
    rw [lookup] at hother
    split at hother
    · cases hother
    · rw [Option.map_map] at hother
      obtain ⟨r, hr, rfl⟩ := Option.map_eq_some_iff.mp hother
      exact List.mem_of_getElem? hr
  rw [List.mem_singleton.mp hmem]
  rfl

/-- The check is on where, and only where, the options ask to skip it. -/
theorem restoreOptions_skip (folderPath options partitionList : Text) :
    (restoreOptions folderPath options partitionList).skipDigestCheck > 0 ↔
      ∃ c ∈ options, skipLetter c = true := by
  rw [← List.any_eq_true]
  unfold restoreOptions
  by_cases hnone : options = []
  · simp [hnone]
  · by_cases hskip : options.any skipLetter <;> simp [hnone, hskip]

/-- Whatever the options are, they are honoured only where they leave nothing to restore: the
check is made when, and only when, it is to be skipped. -/
theorem optionsHonoured_iff (folderPath options partitionList : Text) :
    OptionsHonoured options partitionList (restoreOptions folderPath options partitionList) ↔
      NothingToRestore options partitionList := by
  have hskip := restoreOptions_skip folderPath options partitionList
  have hnothing := nothingToRestore_iff folderPath options partitionList
  generalize restoreOptions folderPath options partitionList = start at hskip hnothing ⊢
  refine ⟨fun h => ?_, fun h => ?_⟩
  · -- a table with the first path that is selected
    by_contra hne
    obtain ⟨path, hpath⟩ := List.exists_mem_of_ne_nil _ (hne ∘ hnothing.mp)
    obtain ⟨hselected, hwrite⟩ := @selectedPartitions_tableOf
      { freshEnv with checkDigest := start.skipDigestCheck, backupFolder := start.folderPath }
      rfl _ _ hpath
    by_cases hm : ∃ c ∈ options, skipLetter c = true
    · obtain ⟨name, ok, hchecked⟩ := runRestore_checked (hskip.mpr hm) rfl hwrite hselected
      exact h.skipped hm freshEnv _ name ok hchecked
    · obtain ⟨i, name, later, hevents⟩ :=
        runRestore_unchecked (hm ∘ hskip.mp) rfl hwrite hselected
      obtain ⟨p, hp⟩ := List.exists_mem_of_ne_nil _ hselected
      have hverify : ∀ c ∈ options, skipLetter c = false := fun c hc =>
        Bool.eq_false_iff.mpr fun hskip => hm ⟨c, hc, hskip⟩
      have hchecked := h.verified hverify freshEnv _ [] i name later hevents p hp
      exact absurd hchecked List.not_mem_nil
  · have hpaths := hnothing.mpr h
    have hevents : ∀ env partitions, start.events env partitions = [] := fun env partitions =>
      runRestore_nothing hpaths
    refine ⟨fun path => ?_, ?_, fun _ env partitions before i name after hrun => ?_,
      fun _ env partitions name ok hchecked => ?_⟩
    · rw [hpaths]
      exact iff_of_false List.not_mem_nil (not_chosen h)
    · rw [hpaths]
      exact List.nodup_nil
    · rw [hevents] at hrun
      exact absurd hrun (by simp)
    · rw [hevents] at hchecked
      exact absurd hchecked List.not_mem_nil

variable {env : RestoreScriptEnv}

theorem restoreCommand_eq_some (h : restoreCommand env value = some start) :
    start = restoreOptions start.folderPath (splitValue value).2
      (env.setRestoreFiles start.folderPath).2 := by
  have hfolder : ∀ folder options list,
      (restoreOptions folder options list).folderPath = folder := by
    intro folder options list
    unfold restoreOptions
    split_ifs <;> rfl
  unfold restoreCommand at h
  dsimp only at h
  split_ifs at h
  cases h
  rw [hfolder]

/-- The restore that a script starts does what its options announce if, and only if, nothing is to
be restored. -/
theorem restoreCommand_honoured_iff (h : restoreCommand env value = some start) :
    OptionsHonoured (splitValue value).2 (env.setRestoreFiles start.folderPath).2 start ↔
      NothingToRestore (splitValue value).2 (env.setRestoreFiles start.folderPath).2 := by
  have hiff := optionsHonoured_iff start.folderPath (splitValue value).2
    (env.setRestoreFiles start.folderPath).2
  rwa [← restoreCommand_eq_some h] at hiff

end honoured

/-- A folder with an archive of `/boot`. -/
def bootScript : RestoreScriptEnv where
  mountedStorages := []
  backupsFolder := id
  pathExists _ := true
  setRestoreFiles _ := (0, "/boot;".toList)

def bootStart : RestoreStart := ⟨"/b/.".toList, 0, "/boot;".toList⟩

theorem restoreCommand_boot : restoreCommand bootScript "/b B".toList = some bootStart ∧
    (OptionsHonoured ['B'] "/boot;".toList bootStart ↔
      NothingToRestore ['B'] "/boot;".toList) :=
  ⟨rfl, @restoreCommand_honoured_iff "/b B".toList bootStart bootScript rfl⟩

/-- Options without the letter: the partition is restored, and no digest is looked at. -/
theorem not_honoured_boot : restoreCommand bootScript "/b B".toList = some bootStart ∧
    ¬OptionsHonoured ['B'] "/boot;".toList bootStart := by
  refine ⟨rfl, fun h => ?_⟩
  have hverify : ∀ c ∈ ['B'], skipLetter c = false := fun c hc => by
    rw [List.mem_singleton.mp hc]
    rfl
  have hchecked := h.verified hverify freshEnv (tableOf "/boot".toList) [] 0
    "/b/./data.ext4.win".toList [] rfl _ (List.mem_singleton_self _)
  exact absurd hchecked List.not_mem_nil

end BootableRecovery.Twrp
