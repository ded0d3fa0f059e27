import BootableRecovery.Twrp.Files
import BootableRecovery.Twrp.Partition
import Mathlib.Data.List.Basic

namespace BootableRecovery.Twrp
open Lib

/-! `Run_Backup`: every selected partition and its sub-partitions, each under its own name. -/

/-- `ready`: the storage is mounted, has the space, and the folder is made. `backup` is
`TWPartition::Backup`: none if it fails, else the file system that mounting found. -/
structure BackupEnv where
  withoutPersist : Bool
  advBackup : Bool
  ready : Bool
  backupFolder : Text
  stopBackup : ℕ → Bool
  backup : ℕ → Option Text
  generateDigest : Bool
  makeDigest : Text → Bool

variable (env : BackupEnv) (partitions : Partitions)

/-- One call of `Backup` and the digest of its archives: the partition and the name it wrote. -/
def backupOne (i : ℕ) (p : TWPartition) : Option (ℕ × Text) :=
  match env.backup i with
  | none => none
  | some fileSystem =>
    let backupFileName := { p with currentFileSystem := fileSystem }.archiveFileName
    if env.generateDigest && !env.makeDigest (env.backupFolder ++ '/' :: backupFileName) then none
    else some (i, backupFileName)

/-- A partition and the sub-partitions that are backed up along with it. -/
def members (i : ℕ) : List (ℕ × TWPartition) :=
  match partitions[i]? with
  | none => []
  | some p =>
    (i, p) ::
      if p.hasSubPartition then
        ((partitions.zipIdx.filter fun (sub, _) =>
          sub.canBeBackedUp && sub.isSubPartition && sub.subPartitionOf = p.mountPoint).map
            fun (sub, j) => (j, sub))
      else []

def backupPartition (i : ℕ) : Option (List (ℕ × Text)) :=
  (members partitions i).mapM fun (j, p) => backupOne env j p

def strstr (s t : Text) : Bool := s.tails.any fun u => t.isPrefixOf u

/-- A backup of the internal storage into a folder on it. -/
def ontoItself (backupPath : Text) : Bool :=
  (strstr backupPath "/storage".toList || strstr backupPath "/data/media/0".toList) &&
    strstr env.backupFolder "data/media/0".toList

/-- The loop over the list; `n` paths are done. A path without a partition is a message only. -/
def backupLoop : List Text → ℕ → Option (List (ℕ × Text))
  | [], _ => some []
  | backupPath :: paths, n =>
    if env.stopBackup n then none
    else
      match findPartitionByPath env.withoutPersist partitions backupPath with
      | none => backupLoop paths (n + 1)
      | some i =>
        if ontoItself env backupPath then none
        else
          match backupPartition env partitions i with
          | none => none
          | some own => (backupLoop paths (n + 1)).map fun later => own ++ later

/-- What `Run_Backup` wrote, or none where it does not succeed. -/
def runBackup (backupList : Text) : Option (List (ℕ × Text)) :=
  if env.ready = false then none
  else if (listPaths backupList).all fun backupPath =>
      (findPartitionByPath env.withoutPersist partitions backupPath).isNone then
    none -- no partitions selected for backup
  else backupLoop env partitions (listPaths backupList) 0

/-- `Get_Partition_List` for a backup. -/
def backupChoices : List (ℕ × TWPartition) :=
  (partitions.zipIdx.filter fun (p, _) =>
    (p.canBeBackedUp || (p.canBeAdvBackedUp && env.advBackup)) && !p.isSubPartition &&
      p.isPresent).map fun (p, i) => (i, p)

/-- The partitions that the user selects of these. -/
structure Selection where
  items : List (ℕ × TWPartition)
  nodup : items.Nodup
  offered : ∀ item ∈ items, item ∈ backupChoices env partitions

/-- `tw_backup_list` -/
def Selection.backupList (sel : Selection env partitions) : Text :=
  sel.items.flatMap fun (_, p) => p.backupPath ++ [';']

/-! ### What a backup of whole paths writes -/

/-- The partition as `Backup` mounts it. -/
def mounted (i : ℕ) (p : TWPartition) : TWPartition :=
  { p with currentFileSystem := (env.backup i).getD p.currentFileSystem }

/-- Every call of `Backup` that the selection asks for. -/
def archives (sel : List (ℕ × TWPartition)) : List (ℕ × TWPartition) :=
  sel.flatMap fun (i, _) => (members partitions i).map fun (j, p) => (j, mounted env j p)

/-- The path of the partition finds the partition, and stays whole in a list of paths. -/
def PathFinds (item : ℕ × TWPartition) : Prop :=
  ';' ∉ item.2.backupPath ∧
    findPartitionByPath env.withoutPersist partitions item.2.backupPath = some item.1

section
variable {env partitions}

theorem backupOne_eq {i : ℕ} {p : TWPartition} {w : ℕ × Text} (h : backupOne env i p = some w) :
    w = (i, (mounted env i p).archiveFileName) := by
  rw [backupOne] at h
  rcases hfs : env.backup i with _ | fileSystem
  · rw [hfs] at h
    cases h
  · rw [hfs] at h
    dsimp only at h
    split_ifs at h
    rw [mounted, hfs, ← Option.some.inj h]
    rfl

theorem backupPartition_eq {i : ℕ} {own : List (ℕ × Text)}
    (h : backupPartition env partitions i = some own) :
    own = (members partitions i).map fun (j, p) => (j, (mounted env j p).archiveFileName) := by
  rw [backupPartition] at h
  generalize members partitions i = calls at h ⊢
  induction calls generalizing own with
  | nil =>
    rw [List.mapM_nil] at h
    exact (Option.some.inj h).symm
  | cons call calls ih =>
    rw [List.mapM_cons] at h
    obtain ⟨w, hw, h⟩ := Option.bind_eq_some_iff.mp h
    obtain ⟨ws, hws, h⟩ := Option.bind_eq_some_iff.mp h
    rw [List.map_cons, ← ih hws, ← Option.some.inj h, backupOne_eq hw]

theorem archives_cons (item : ℕ × TWPartition) (sel : List (ℕ × TWPartition)) :
    archives env partitions (item :: sel) =
      ((members partitions item.1).map fun (j, p) => (j, mounted env j p)) ++
        archives env partitions sel := rfl

theorem backupLoop_eq (sel : List (ℕ × TWPartition)) {n : ℕ} {written : List (ℕ × Text)}
    (hsel : ∀ item ∈ sel, PathFinds env partitions item)
    (h : backupLoop env partitions (sel.map fun item => item.2.backupPath) n = some written) :
    written = (archives env partitions sel).map fun (j, p) => (j, p.archiveFileName) := by
  induction sel generalizing n written with
  | nil => exact (Option.some.inj h).symm
  | cons item sel ih =>
    rw [List.map_cons, backupLoop, (hsel item List.mem_cons_self).2] at h
    dsimp only at h
    split_ifs at h
    rcases hown : backupPartition env partitions item.1 with _ | own
    · rw [hown] at h
      cases h
    · rw [hown] at h
      obtain ⟨later, hlater, rfl⟩ := Option.map_eq_some_iff.mp h
      rw [ih (fun q hq => hsel q (List.mem_cons_of_mem _ hq)) hlater, backupPartition_eq hown,
        archives_cons, List.map_append, List.map_map]
      rfl

/-- A list of terminated paths is cut at the semicolons inside of them as well. -/
theorem listPaths_flatMap {α : Type} (items : List α) (path : α → Text) :
    listPaths (items.flatMap fun item => path item ++ [';']) =
      items.flatMap fun item => (path item).splitOn ';' := by
  have hsplit : (items.flatMap fun item => path item ++ [';']).splitOn ';' =
      (items.flatMap fun item => (path item).splitOn ';') ++ [[]] := by
    induction items with
    | nil => rfl
    | cons item items ih =>
      rw [List.flatMap_cons, List.append_assoc, List.singleton_append,
        List.splitOn_append_cons_self, ih, List.flatMap_cons, List.append_assoc]
  rw [listPaths, hsplit, List.dropLast_concat]

theorem runBackup_eq {sel : Selection env partitions} {written : List (ℕ × Text)}
    (hsel : ∀ item ∈ sel.items, PathFinds env partitions item)
    (h : runBackup env partitions sel.backupList = some written) :
    written = (archives env partitions sel.items).map fun (j, p) => (j, p.archiveFileName) := by
  have hpaths : listPaths sel.backupList = sel.items.map fun item => item.2.backupPath := by
    rw [Selection.backupList, listPaths_flatMap, List.map_eq_flatMap]
    refine List.flatMap_congr fun item hitem => ?_
    exact List.splitOn_eq_singleton (hsel item hitem).1
  rw [runBackup, hpaths] at h
  split_ifs at h
  exact backupLoop_eq _ hsel h

end

end BootableRecovery.Twrp
