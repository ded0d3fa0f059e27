import BootableRecovery.Lib.Word
import BootableRecovery.Twrp.RunBackup

namespace BootableRecovery.Twrp
open Lib

/-! What `Run_Backup` announces to the computer before it backs up the first partition. -/

inductive BackupMethod
  | none
  | files
  | dd
  | flashUtils
  deriving DecidableEq, Repr

/-- A backup over ADB. `backupSize` is the `Backup_Size` of each partition as
`Update_System_Details` left it. -/
structure AdbBackup where
  env : BackupEnv
  backupMethod : ℕ → BackupMethod
  backupSize : ℕ → ℕ

variable (adb : AdbBackup) (partitions : Partitions)

/-- No digests are made, and `Backup` fails for a method it does not know. -/
def AdbBackup.run : BackupEnv :=
  { adb.env with
    generateDigest := false
    backup := fun i => if adb.backupMethod i = .none then none else adb.env.backup i }

/-! ### The calculation -/

structure Calculation where
  partitionCount : ℕ
  fileBytes : ℕ
  imgBytes : ℕ
  deriving DecidableEq, Repr

def Calculation.add (c : Calculation) (i : ℕ) : Calculation :=
  if adb.backupMethod i = .files then
    { c with
      partitionCount := c.partitionCount + 1
      fileBytes := u64 (c.fileBytes + adb.backupSize i) }
  else
    { c with
      partitionCount := c.partitionCount + 1
      imgBytes := u64 (c.imgBytes + adb.backupSize i) }

/-- The test of the calculation, which asks for the presence of the sub-partition. -/
def countsSub (parent sub : TWPartition) : Bool :=
  sub.canBeBackedUp && sub.isPresent && sub.isSubPartition &&
    sub.subPartitionOf = parent.mountPoint

def Calculation.addSubs (c : Calculation) (parent : TWPartition) : Calculation :=
  partitions.zipIdx.foldl (fun c (sub, j) => if countsSub parent sub then c.add adb j else c) c

def calculate : List Text → Calculation → Calculation
  | [], c => c
  | backupPath :: paths, c =>
    match findPartitionByPath adb.env.withoutPersist partitions backupPath with
    | none => calculate paths c
    | some i =>
      match partitions[i]? with
      | none => calculate paths c
      | some p =>
        let c := c.add adb i
        calculate paths (if p.hasSubPartition then c.addSubs adb partitions p else c)

def calculation (backupList : Text) : Calculation :=
  calculate adb partitions (listPaths backupList) ⟨0, 0, 0⟩

def Calculation.totalBytes (c : Calculation) : ℕ := u64 (c.fileBytes + c.imgBytes)

/-! ### The stream -/

inductive StreamHeader
  | twfn (fileName : Text) (size : ℕ)
  | twimg (fileName : Text) (size : ℕ)
  deriving DecidableEq, Repr

/-- What `Backup` sends for a partition; `Backup_Dump_Image` writes no header. -/
def streamHeaders (call : ℕ × Text) : List StreamHeader :=
  let fileName := adb.env.backupFolder ++ '/' :: call.2
  match adb.backupMethod call.1 with
  | .files => [.twfn fileName (adb.backupSize call.1)]
  | .dd => [.twimg fileName (adb.backupSize call.1)]
  | .flashUtils => []
  | .none => []

/-- The partition count in the header of the stream, and the streams of the partitions. -/
structure AdbRun where
  partitionCount : ℕ
  totalBytes : ℕ
  written : List (ℕ × Text)
  headers : List StreamHeader
  deriving DecidableEq, Repr

/-- A run in which the backup of every partition succeeds. -/
def runAdbBackup (backupList : Text) : Option AdbRun :=
  let c := calculation adb partitions backupList
  if c.partitionCount = 0 then none
  else
    (runBackup adb.run partitions backupList).map fun written =>
      { partitionCount := c.partitionCount
        totalBytes := c.totalBytes
        written := written
        headers := written.flatMap (streamHeaders adb) }

/-- What the computer is told is what the run sends. -/
def AdbRun.Announced (run : AdbRun) : Prop :=
  run.partitionCount = run.headers.length ∧
    run.totalBytes = u64 (run.written.map fun call => adb.backupSize call.1).sum

/-! ### What is counted and what is backed up -/

/-- The partitions that the list names. -/
def selectedParents (backupList : Text) : List ℕ :=
  (listPaths backupList).filterMap (findPartitionByPath adb.env.withoutPersist partitions)

/-- The sub-partitions of a partition that are backed up and not counted. -/
def absentMembers (i : ℕ) : List (ℕ × TWPartition) :=
  (members partitions i).tail.filter fun sub => !sub.2.isPresent

/-- The partitions that are backed up without a header. -/
def dumpedMembers (i : ℕ) : List (ℕ × TWPartition) :=
  (members partitions i).filter fun call => adb.backupMethod call.1 = .flashUtils

/-- As many partitions are dumped with the flash utilities as there are sub-partitions that are
not present, and the latter are empty. -/
def CountsMeet (backupList : Text) : Prop :=
  ((selectedParents adb partitions backupList).flatMap (dumpedMembers adb partitions)).length =
      ((selectedParents adb partitions backupList).flatMap (absentMembers partitions)).length ∧
    u64 (((selectedParents adb partitions backupList).flatMap (absentMembers partitions)).map
      fun sub => adb.backupSize sub.1).sum = 0

/-- The partitions that the calculation adds for a path. -/
def countedMembers (i : ℕ) : List ℕ :=
  ((members partitions i).take 1 ++
    (members partitions i).tail.filter fun sub => sub.2.isPresent).map Prod.fst

section
variable {adb partitions}

theorem add_partitionCount (c : Calculation) (i : ℕ) :
    (c.add adb i).partitionCount = c.partitionCount + 1 := by
  rw [Calculation.add]
  split_ifs <;> rfl

theorem add_totalBytes (c : Calculation) (i : ℕ) :
    (c.add adb i).totalBytes = u64 (c.fileBytes + c.imgBytes + adb.backupSize i) := by
  rw [Calculation.add, Calculation.totalBytes]
  unfold u64
  split_ifs <;> dsimp only <;> omega

theorem foldl_add_partitionCount (calls : List ℕ) (c : Calculation) :
    (calls.foldl (Calculation.add adb) c).partitionCount = c.partitionCount + calls.length := by
  induction calls generalizing c with
  | nil => rfl
  | cons i calls ih =>
    rw [List.foldl_cons, ih, add_partitionCount, List.length_cons]
    omega

theorem foldl_add_totalBytes (calls : List ℕ) (c : Calculation) :
    (calls.foldl (Calculation.add adb) c).totalBytes =
      u64 (c.fileBytes + c.imgBytes + (calls.map adb.backupSize).sum) := by
  induction calls generalizing c with
  | nil => rfl
  | cons i calls ih =>
    have hadd : (c.add adb i).totalBytes = _ := add_totalBytes c i
    rw [List.foldl_cons, ih, List.map_cons, List.sum_cons]
    rw [Calculation.totalBytes] at hadd
    unfold u64 at hadd ⊢
    omega

/-- The calculation adds the partitions one after the other. -/
theorem addSubs_eq (c : Calculation) {i : ℕ} {p : TWPartition} (hp : partitions[i]? = some p) :
    (if p.hasSubPartition then (c.add adb i).addSubs adb partitions p else c.add adb i) =
      (countedMembers partitions i).foldl (Calculation.add adb) c := by
  rw [countedMembers, members, hp]
  dsimp only
  split_ifs with hsub
  · rw [List.take_succ_cons, List.take_zero, List.tail_cons, List.singleton_append, List.map_cons,
      List.foldl_cons, Calculation.addSubs, List.filter_map, List.filter_filter, List.map_map,
      List.foldl_map, List.foldl_filter]
    congr 1
    funext c call
    unfold countsSub
    rw [Function.comp_apply]
    grind
  · rfl

theorem calculate_eq (paths : List Text) (c : Calculation) :
    calculate adb partitions paths c =
      ((paths.filterMap (findPartitionByPath adb.env.withoutPersist partitions)).flatMap
        (countedMembers partitions)).foldl (Calculation.add adb) c := by
  induction paths generalizing c with
  | nil => rfl
  | cons backupPath paths ih =>
    rw [calculate]
    rcases hi : findPartitionByPath adb.env.withoutPersist partitions backupPath with _ | i
    · rw [List.filterMap_cons_none hi]
      exact ih c
    · rw [List.filterMap_cons_some hi, List.flatMap_cons, List.foldl_append]
      dsimp only
      rcases hp : partitions[i]? with _ | p
      · rw [countedMembers, members, hp]
        exact ih c
      · dsimp only
        rw [ih, addSubs_eq c hp]

/-- A run that succeeds has backed up every member of every partition that was found. -/
theorem backupLoop_members {env : BackupEnv} {paths : List Text} {n : ℕ}
    {written : List (ℕ × Text)} (h : backupLoop env partitions paths n = some written) :
    written.map Prod.fst =
      ((paths.filterMap (findPartitionByPath env.withoutPersist partitions)).flatMap
        (members partitions)).map Prod.fst := by
  induction paths generalizing n written with
  | nil => rw [← Option.some.inj h]; rfl
  | cons backupPath paths ih =>
    rw [backupLoop] at h
    rcases hi : findPartitionByPath env.withoutPersist partitions backupPath with _ | i
    · rw [hi] at h
      rw [List.filterMap_cons_none hi]
      dsimp only at h
      split_ifs at h
      exact ih h
    · rw [hi] at h
      dsimp only at h
      split_ifs at h
      rcases hown : backupPartition env partitions i with _ | own
      · rw [hown] at h
        cases h
      · rw [hown] at h
        obtain ⟨later, hlater, rfl⟩ := Option.map_eq_some_iff.mp h
        rw [List.filterMap_cons_some hi, List.flatMap_cons, List.map_append, List.map_append,
          ih hlater, backupPartition_eq hown, List.map_map]
        rfl

theorem backupOne_backed {env : BackupEnv} {i : ℕ} {p : TWPartition} {w : ℕ × Text}
    (h : backupOne env i p = some w) : env.backup w.1 ≠ none := by
  have hi := congrArg Prod.fst (backupOne_eq h)
  intro hnone
  rw [hi] at hnone
  unfold backupOne at h
  rw [hnone] at h
  cases h

theorem backupPartition_backed {env : BackupEnv} {i : ℕ} {own : List (ℕ × Text)}
    (h : backupPartition env partitions i = some own) :
    ∀ call ∈ own, env.backup call.1 ≠ none := by
  rw [backupPartition] at h
  generalize members partitions i = calls at h
  induction calls generalizing own with
  | nil =>
    rw [List.mapM_nil] at h
    rw [← Option.some.inj h]
    exact fun call hcall => absurd hcall List.not_mem_nil
  | cons sub calls ih =>
    rw [List.mapM_cons] at h
    obtain ⟨w, hw, h⟩ := Option.bind_eq_some_iff.mp h
    obtain ⟨ws, hws, h⟩ := Option.bind_eq_some_iff.mp h
    rw [← Option.some.inj h]
    intro call hcall
    obtain rfl | hcall := List.mem_cons.mp hcall
    · exact backupOne_backed hw
    · exact ih hws call hcall

/-- Only a partition whose `Backup` succeeds is written. -/
theorem backupLoop_backed {env : BackupEnv} {paths : List Text} {n : ℕ}
    {written : List (ℕ × Text)} (h : backupLoop env partitions paths n = some written) :
    ∀ call ∈ written, env.backup call.1 ≠ none := by
  induction paths generalizing n written with
  | nil =>
    rw [← Option.some.inj h]
    exact fun call hcall => absurd hcall List.not_mem_nil
  | cons backupPath paths ih =>
    rw [backupLoop] at h
    rcases hi : findPartitionByPath env.withoutPersist partitions backupPath with _ | i
    · rw [hi] at h
      dsimp only at h
      split_ifs at h
      exact ih h
    · rw [hi] at h
      dsimp only at h
      split_ifs at h
      rcases hown : backupPartition env partitions i with _ | own
      · rw [hown] at h
        cases h
      · rw [hown] at h
        obtain ⟨later, hlater, rfl⟩ := Option.map_eq_some_iff.mp h
        intro call hcall
        obtain hcall | hcall := List.mem_append.mp hcall
        · exact backupPartition_backed hown call hcall
        · exact ih hlater call hcall

theorem runBackup_loop {env : BackupEnv} {backupList : Text} {written : List (ℕ × Text)}
    (h : runBackup env partitions backupList = some written) :
    backupLoop env partitions (listPaths backupList) 0 = some written := by
  rw [runBackup] at h
  split_ifs at h
  exact h

theorem written_members {backupList : Text} {written : List (ℕ × Text)}
    (h : runBackup adb.run partitions backupList = some written) :
    written.map Prod.fst =
      ((selectedParents adb partitions backupList).flatMap (members partitions)).map Prod.fst := by
  have hmembers := backupLoop_members (runBackup_loop h)
  exact hmembers

theorem written_method {backupList : Text} {written : List (ℕ × Text)}
    (h : runBackup adb.run partitions backupList = some written) :
    ∀ call ∈ written, adb.backupMethod call.1 ≠ .none := by
  intro call hcall hnone
  refine backupLoop_backed (runBackup_loop h) call hcall ?_
  exact if_pos hnone

/-- Everything that is backed up is counted, or absent. -/
theorem members_counted (partitions : Partitions) (f : ℕ → ℕ) (i : ℕ) :
    ((members partitions i).map fun call => f call.1).sum =
      ((countedMembers partitions i).map f).sum +
        ((absentMembers partitions i).map fun sub => f sub.1).sum := by
  rw [countedMembers, absentMembers]
  rcases members partitions i with _ | ⟨call, subs⟩
  · rfl
  · rw [List.tail_cons, List.take_succ_cons, List.take_zero, List.singleton_append, List.map_cons,
      List.map_cons, List.map_cons, List.map_map, List.sum_cons, List.sum_cons, Nat.add_assoc]
    congr 1
    induction subs with
    | nil => rfl
    | cons sub subs ih =>
      rw [List.map_cons, List.sum_cons, ih, List.filter_cons, List.filter_cons]
      rcases sub.2.isPresent
      · rw [if_neg Bool.false_ne_true, Bool.not_false, if_pos rfl, List.map_cons, List.sum_cons]
        omega
      · rw [if_pos rfl, Bool.not_true, if_neg Bool.false_ne_true, List.map_cons, List.sum_cons,
          Function.comp_apply]
        omega

theorem selected_counted (partitions : Partitions) (f : ℕ → ℕ) (selected : List ℕ) :
    ((selected.flatMap (members partitions)).map fun call => f call.1).sum =
      ((selected.flatMap (countedMembers partitions)).map f).sum +
        ((selected.flatMap (absentMembers partitions)).map fun sub => f sub.1).sum := by
  induction selected with
  | nil => rfl
  | cons i selected ih =>
    simp only [List.flatMap_cons, List.map_append, List.sum_append, ih,
      members_counted partitions f i]
    omega

/-- `Backup` sends one header, or dumps the partition without one. -/
theorem headers_length {written : List (ℕ × Text)}
    (h : ∀ call ∈ written, adb.backupMethod call.1 ≠ .none) :
    (written.flatMap (streamHeaders adb)).length +
      ((written.map Prod.fst).filter fun j => adb.backupMethod j = .flashUtils).length =
        written.length := by
  induction written with
  | nil => rfl
  | cons call written ih =>
    have hcall := h call List.mem_cons_self
    have htail := ih fun call' h' => h call' (List.mem_cons_of_mem _ h')
    rw [List.flatMap_cons, List.length_append, List.map_cons, List.filter_cons, List.length_cons,
      streamHeaders]
    rcases hm : adb.backupMethod call.1
    · exact absurd hm hcall
    all_goals
      simp only [List.length_nil, reduceCtorEq, decide_false, decide_true,
        Bool.false_eq_true, if_false, if_true, List.length_cons]
      omega

theorem calculation_partitionCount (backupList : Text) :
    (calculation adb partitions backupList).partitionCount =
      ((selectedParents adb partitions backupList).flatMap (countedMembers partitions)).length := by
  rw [calculation, calculate_eq, foldl_add_partitionCount, selectedParents, Nat.zero_add]

theorem calculation_totalBytes (backupList : Text) :
    (calculation adb partitions backupList).totalBytes =
      u64 (((selectedParents adb partitions backupList).flatMap
        (countedMembers partitions)).map adb.backupSize).sum := by
  rw [calculation, calculate_eq, foldl_add_totalBytes, selectedParents, Nat.zero_add, Nat.zero_add]

theorem u64_add_eq_iff (a b : ℕ) : u64 a = u64 (a + b) ↔ u64 b = 0 := by
  unfold u64
  omega

/-- The announced partitions and bytes are those sent, exactly if as many partitions are dumped
without a header as sub-partitions are absent, and these count for nothing. -/
theorem adbHeaderCount_iff {backupList : Text} {run : AdbRun}
    (h : runAdbBackup adb partitions backupList = some run) :
    run.Announced adb ↔ CountsMeet adb partitions backupList := by
  unfold runAdbBackup at h
  dsimp only at h
  split_ifs at h
  obtain ⟨written, hwritten, rfl⟩ := Option.map_eq_some_iff.mp h
  have hmembers := written_members hwritten
  have hheaders := headers_length (written_method hwritten)
  have hlength := congrArg List.length hmembers
  have hcount := selected_counted partitions (fun _ => 1)
    (selectedParents adb partitions backupList)
  have hbytes := selected_counted partitions adb.backupSize
    (selectedParents adb partitions backupList)
  have hdumped : ((written.map Prod.fst).filter fun j => adb.backupMethod j = .flashUtils).length =
      ((selectedParents adb partitions backupList).flatMap
        (dumpedMembers adb partitions)).length := by
    rw [hmembers, List.filter_map, List.length_map, List.filter_flatMap]
    rfl
  have hsizes : (written.map fun call => adb.backupSize call.1) =
      ((selectedParents adb partitions backupList).flatMap (members partitions)).map
        fun call => adb.backupSize call.1 := by
    have hmapped := congrArg (List.map adb.backupSize) hmembers
    rw [List.map_map, List.map_map] at hmapped
    exact hmapped
  rw [List.length_map, List.length_map] at hlength
  simp only [List.map_const', List.sum_replicate_nat, Nat.mul_one] at hcount
  rw [AdbRun.Announced, CountsMeet]
  dsimp only
  rw [calculation_partitionCount, calculation_totalBytes, hsizes, hbytes, u64_add_eq_iff]
  refine and_congr_left fun _ => ?_
  omega

end

/-! ### An image partition on a flash device -/

/-- `/boot mtd boot` -/
def mtdBoot : TWPartition :=
  { mountPoint := "/boot".toList
    symlinkMountPoint := []
    backupPath := "/boot".toList
    backupName := "boot".toList
    backupFileName := []
    currentFileSystem := "mtd".toList
    canBeBackedUp := true
    canBeAdvBackedUp := false
    isPresent := true
    mountReadOnly := false
    isSubPartition := false
    hasSubPartition := false
    subPartitionOf := [] }

def mtdBackup : AdbBackup where
  env :=
    { withoutPersist := false
      advBackup := false
      ready := true
      backupFolder := "/backups/now".toList
      stopBackup := fun _ => false
      backup := fun _ => some "mtd".toList
      generateDigest := false
      makeDigest := fun _ => true }
  backupMethod := fun _ => .flashUtils
  backupSize := fun _ => 8388608

/-- Every run of a backup over ADB sends what it has announced. -/
def AnnouncesEveryRun : Prop :=
  ∀ (adb : AdbBackup) (partitions : Partitions) (backupList : Text) (run : AdbRun),
    runAdbBackup adb partitions backupList = some run → run.Announced adb

theorem mtdBackup_run : runAdbBackup mtdBackup [mtdBoot] "/boot;".toList =
    some ⟨1, 8388608, [(0, "boot.mtd.win".toList)], []⟩ := by
  decide +kernel

/-- One partition is announced for a dump of `/boot`, and none is sent. -/
theorem not_announcesEveryRun : ¬AnnouncesEveryRun := by
  intro h
  have hone := (h _ _ _ _ mtdBackup_run).1
  cases hone

theorem adbHeaderCount_mtd :
    runAdbBackup mtdBackup [mtdBoot] "/boot;".toList =
        some ⟨1, 8388608, [(0, "boot.mtd.win".toList)], []⟩ ∧
      (AdbRun.Announced mtdBackup ⟨1, 8388608, [(0, "boot.mtd.win".toList)], []⟩ ↔
        CountsMeet mtdBackup [mtdBoot] "/boot;".toList) :=
  ⟨mtdBackup_run, adbHeaderCount_iff mtdBackup_run⟩

end BootableRecovery.Twrp
