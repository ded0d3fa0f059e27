import BootableRecovery.Twrp.RunBackup
import Mathlib.Data.List.Induction

namespace BootableRecovery.Twrp
open Lib

/-! `Set_Restore_Files`: the names in a backup folder, cut at their dots and looked up. -/

def untilDot (s : Text) : Text := s.takeWhile fun c => c != '.'

def afterDot (s : Text) : Option Text :=
  match s.dropWhile fun c => c != '.' with
  | [] => none
  | _ :: rest => some rest

/-- The label of a name that a restore starts from, and `Backup_FileName` for it. -/
def parseArchive (name : Text) : Option (Text × Text) :=
  match afterDot name with
  | none => none
  | some rest =>
    match afterDot rest with
    | none => none
    | some extn =>
      if name.length ≤ 2 ∨ untilDot rest = "log".toList then none
      else if extn.length ≠ 3 ∧ extn.length ≠ 6 then none
      else if extn.take 3 ≠ "win".toList then none
      else if extn.length = 6 ∧ extn.take 6 ≠ "win000".toList then none
      else
        some (untilDot name,
          if extn.length > 3 then name.take (name.length - extn.length + 3) else name)

/-- What a partition is called in `tw_restore_list`. -/
def TWPartition.restorePath (p : TWPartition) : Text :=
  if p.backupPath = androidRootPath then "/system".toList else p.backupPath

variable (withoutPersist : Bool)

/-- The loop over the folder, with the list that it has made so far. -/
def restoreLoop : List Text → Partitions → Text → Partitions × Text
  | [], partitions, restoreList => (partitions, restoreList)
  | name :: names, partitions, restoreList =>
    match parseArchive name with
    | none => restoreLoop names partitions restoreList
    | some (label, backupFileName) =>
      match findPartitionByPath withoutPersist partitions label with
      | none => restoreLoop names partitions restoreList
      | some i =>
        match partitions[i]? with
        | none => restoreLoop names partitions restoreList
        | some p =>
          restoreLoop names (partitions.set i { p with backupFileName := backupFileName })
            (if p.isSubPartition then restoreList else restoreList ++ (p.restorePath ++ [';']))

def setRestoreFiles (partitions : Partitions) (names : List Text) : Partitions × Text :=
  restoreLoop withoutPersist names partitions []

/-! ### The names that are taken -/

theorem untilDot_append {s : Text} (h : '.' ∉ s) (rest : Text) :
    untilDot (s ++ '.' :: rest) = s := by
  rw [untilDot, List.takeWhile_append_of_pos, List.takeWhile_cons_of_neg (by simp),
    List.append_nil]
  intro c hc
  exact bne_iff_ne.mpr fun heq => h (heq ▸ hc)

theorem afterDot_append {s : Text} (h : '.' ∉ s) (rest : Text) :
    afterDot (s ++ '.' :: rest) = some rest := by
  rw [afterDot, List.dropWhile_append_of_pos, List.dropWhile_cons_of_neg (by simp)]
  intro c hc
  exact bne_iff_ne.mpr fun heq => h (heq ▸ hc)

theorem dot_not_mem_untilDot (s : Text) : '.' ∉ untilDot s := fun h => by
  simpa using List.mem_takeWhile_imp h

theorem afterDot_eq_some {s rest : Text} (h : afterDot s = some rest) :
    s = untilDot s ++ '.' :: rest := by
  rw [afterDot] at h
  rcases hdrop : s.dropWhile fun c => c != '.' with _ | ⟨c, t⟩
  · rw [hdrop] at h
    cases h
  · rw [hdrop] at h
    have hc : c = '.' := by
      have := List.head_dropWhile_not (fun c => c != '.') (l := s) (by rw [hdrop]; simp)
      simpa [hdrop] using this
    rw [← Option.some.inj h, ← hc, ← hdrop]
    exact List.takeWhile_append_dropWhile.symm

section parseArchive
variable {label fstype : Text} (hlabel : '.' ∉ label) (hfstype : '.' ∉ fstype)
  (hlog : fstype ≠ "log".toList)
include hlabel hfstype hlog

theorem parseArchive_single : parseArchive (label ++ '.' :: (fstype ++ ".win".toList)) =
    some (label, label ++ '.' :: (fstype ++ ".win".toList)) := by
  have hextn : afterDot (fstype ++ ".win".toList) = some "win".toList :=
    afterDot_append hfstype "win".toList
  have huntil : untilDot (fstype ++ ".win".toList) = fstype :=
    untilDot_append hfstype "win".toList
  have hlen : ¬(label ++ '.' :: (fstype ++ ".win".toList)).length ≤ 2 := by
    simp only [List.length_append, List.length_cons, String.length_toList]
    change ¬_ + (_ + 4 + 1) ≤ 2
    omega
  rw [parseArchive, afterDot_append hlabel]
  dsimp only
  rw [hextn, huntil, untilDot_append hlabel]
  dsimp only
  rw [if_neg (not_or_intro hlen hlog), if_neg (by decide), if_neg (by decide),
    if_neg (by decide), if_neg (by decide)]

theorem parseArchive_split :
    parseArchive (label ++ '.' :: (fstype ++ ".win".toList) ++ "000".toList) =
      some (label, label ++ '.' :: (fstype ++ ".win".toList)) := by
  have hextn : afterDot (fstype ++ (".win".toList ++ "000".toList)) = some "win000".toList :=
    afterDot_append hfstype "win000".toList
  have huntil : untilDot (fstype ++ (".win".toList ++ "000".toList)) = fstype :=
    untilDot_append hfstype "win000".toList
  have hname : label ++ '.' :: (fstype ++ ".win".toList) ++ "000".toList =
      label ++ '.' :: (fstype ++ (".win".toList ++ "000".toList)) := by
    rw [List.append_assoc, List.cons_append, List.append_assoc]
  have hlen : (label ++ '.' :: (fstype ++ ".win".toList) ++ "000".toList).length =
      (label ++ '.' :: (fstype ++ ".win".toList)).length + 3 := by
    rw [List.length_append]
    rfl
  have htake : (label ++ '.' :: (fstype ++ ".win".toList) ++ "000".toList).take
      ((label ++ '.' :: (fstype ++ ".win".toList) ++ "000".toList).length -
        "win000".toList.length + 3) = label ++ '.' :: (fstype ++ ".win".toList) := by
    refine List.take_left' ?_
    rw [hlen]
    simp only [List.length_append, List.length_cons, String.length_toList]
    change _ + (_ + 4 + 1) = _ + (_ + 4 + 1) + 3 - 6 + 3
    omega
  rw [parseArchive, hname, afterDot_append hlabel]
  dsimp only
  rw [hextn, huntil, untilDot_append hlabel, ← hname]
  dsimp only
  rw [if_neg (not_or_intro (by rw [hlen]; simp) hlog), if_neg (by decide),
    if_neg (by decide), if_neg (by decide), if_pos (by decide), htake]

end parseArchive

theorem parseArchive_extn {name label backupFileName : Text}
    (h : parseArchive name = some (label, backupFileName)) :
    ∃ fstype extn, '.' ∉ label ∧ '.' ∉ fstype ∧ fstype ≠ "log".toList ∧
      (extn = "win".toList ∨ extn = "win000".toList) ∧
      name = label ++ '.' :: (fstype ++ '.' :: extn) := by
  rw [parseArchive] at h
  rcases hrest : afterDot name with _ | rest
  · rw [hrest] at h
    cases h
  rcases hextn : afterDot rest with _ | extn
  · rw [hrest] at h
    dsimp only at h
    rw [hextn] at h
    cases h
  rw [hrest] at h
  dsimp only at h
  rw [hextn] at h
  dsimp only at h
  rw [Option.ite_none_left_eq_some, Option.ite_none_left_eq_some, Option.ite_none_left_eq_some,
    Option.ite_none_left_eq_some] at h
  obtain ⟨hlog, hlen, hwin, hsix, heq⟩ := h
  have hlabel := (Prod.mk.inj (Option.some.inj heq)).1
  refine ⟨untilDot rest, extn, hlabel ▸ dot_not_mem_untilDot name, dot_not_mem_untilDot rest,
    fun heq => hlog (.inr heq), ?_, ?_⟩
  · rcases (by omega : extn.length = 3 ∨ extn.length = 6) with h3 | h6
    · left
      rw [← not_not.mp hwin, List.take_of_length_le (by omega)]
    · right
      rw [← not_not.mp fun hne => hsix ⟨h6, hne⟩, List.take_of_length_le (by omega)]
  · rw [← afterDot_eq_some hextn, ← hlabel]
    exact afterDot_eq_some hrest

/-- A name that is taken has three parts, the last one `win`, or `win000` of a split archive. -/
theorem parseArchive_eq_some {name label backupFileName : Text} :
    parseArchive name = some (label, backupFileName) ↔
      ∃ fstype, '.' ∉ label ∧ '.' ∉ fstype ∧ fstype ≠ "log".toList ∧
        backupFileName = label ++ '.' :: (fstype ++ ".win".toList) ∧
          (name = backupFileName ∨ name = backupFileName ++ "000".toList) := by
  constructor
  · intro h
    obtain ⟨fstype, extn, hlabel, hfs, hlog, rfl | rfl, rfl⟩ := parseArchive_extn h
    · have hfile := parseArchive_single hlabel hfs hlog
      have heq := (Prod.mk.inj (Option.some.inj (h.symm.trans hfile))).2
      exact ⟨fstype, hlabel, hfs, hlog, heq, .inl heq.symm⟩
    · have hname : label ++ '.' :: (fstype ++ '.' :: "win000".toList) =
          label ++ '.' :: (fstype ++ ".win".toList) ++ "000".toList := by
        rw [List.append_assoc, List.cons_append, List.append_assoc]
        rfl
      have hfile := parseArchive_split hlabel hfs hlog
      rw [hname] at h ⊢
      have heq := (Prod.mk.inj (Option.some.inj (h.symm.trans hfile))).2
      exact ⟨fstype, hlabel, hfs, hlog, heq, .inr (by rw [heq])⟩
  · rintro ⟨fstype, hlabel, hfs, hlog, rfl, rfl | rfl⟩
    · exact parseArchive_single hlabel hfs hlog
    · exact parseArchive_split hlabel hfs hlog

/-! ### What the loop makes of the folder -/

/-- The table with other backup file names in it. -/
def named (partitions : Partitions) (files : ℕ → Text) : Partitions :=
  partitions.mapIdx fun i p => { p with backupFileName := files i }

variable (partitions : Partitions)

/-- The partition that a name is taken for, and the `Backup_FileName` it gets. -/
def resolve (name : Text) : Option (ℕ × Text) :=
  (parseArchive name).bind fun (label, backupFileName) =>
    (findPartitionByPath withoutPersist partitions label).map fun i => (i, backupFileName)

/-- Later names overwrite earlier ones. -/
def assign (files : ℕ → Text) (entries : List (ℕ × Text)) : ℕ → Text :=
  entries.foldl (fun files entry => Function.update files entry.1 entry.2) files

/-- What a partition adds to the list: nothing if it is a sub-partition. -/
def listed (entry : ℕ × Text) : Option Text :=
  partitions[entry.1]?.bind fun p => if p.isSubPartition then none else some p.restorePath

section
variable {withoutPersist partitions} {files : ℕ → Text}

theorem getElem?_named (i : ℕ) : (named partitions files)[i]? =
    partitions[i]?.map fun p => { p with backupFileName := files i } := List.getElem?_mapIdx

theorem findPartitionByPath_named (path : Text) :
    findPartitionByPath withoutPersist (named partitions files) path =
      findPartitionByPath withoutPersist partitions path := by
  have hfind : ∀ localPath, (named partitions files).findIdx? (fun p => p.mountedAt localPath) =
      partitions.findIdx? fun p => p.mountedAt localPath := by
    intro localPath
    have hmap : (named partitions files).map (fun p => p.mountedAt localPath) =
        partitions.map fun p => p.mountedAt localPath := by
      apply List.ext_getElem?
      intro i
      rw [List.getElem?_map, getElem?_named, Option.map_map, List.getElem?_map]
      rfl
    have hid := congrArg (List.findIdx? id) hmap
    rwa [List.findIdx?_map, List.findIdx?_map] at hid
  rw [findPartitionByPath, findPartitionByPath]
  dsimp only
  rw [hfind]

theorem named_set {i : ℕ} {p : TWPartition} (hp : partitions[i]? = some p)
    (backupFileName : Text) :
    (named partitions files).set i { p with backupFileName := backupFileName } =
      named partitions (Function.update files i backupFileName) := by
  apply List.ext_getElem?
  intro j
  rw [List.getElem?_set, getElem?_named, getElem?_named]
  by_cases hj : i = j
  · subst hj
    have hlt := (List.getElem?_eq_some_iff.mp hp).1
    rw [if_pos rfl, if_pos (by simpa [named] using hlt), hp, Option.map_some,
      Function.update_self]
  · rw [if_neg hj, Function.update_of_ne (Ne.symm hj)]

theorem lt_of_findPartitionByPath {path : Text} {i : ℕ}
    (h : findPartitionByPath withoutPersist partitions path = some i) : i < partitions.length := by
  rw [findPartitionByPath] at h
  dsimp only at h
  split_ifs at h
  all_goals exact (List.findIdx?_eq_some_iff_getElem.mp h).1

theorem restoreLoop_eq (names : List Text) (files : ℕ → Text) (restoreList : Text) :
    restoreLoop withoutPersist names (named partitions files) restoreList =
      (named partitions (assign files (names.filterMap (resolve withoutPersist partitions))),
        restoreList ++ ((names.filterMap (resolve withoutPersist partitions)).filterMap
          (listed partitions)).flatMap fun path => path ++ [';']) := by
  induction names generalizing files restoreList with
  | nil => simp [restoreLoop, assign]
  | cons name names ih =>
    rw [restoreLoop, List.filterMap_cons]
    rcases hparse : parseArchive name with _ | ⟨label, backupFileName⟩
    · rw [resolve, hparse]
      exact ih files restoreList
    dsimp only
    rw [findPartitionByPath_named, resolve, hparse, Option.bind_some]
    dsimp only
    rcases hfind : findPartitionByPath withoutPersist partitions label with _ | i
    · exact ih files restoreList
    obtain ⟨p, hp⟩ : ∃ p, partitions[i]? = some p :=
      ⟨_, List.getElem?_eq_getElem (lt_of_findPartitionByPath hfind)⟩
    dsimp only [Option.map_some]
    rw [getElem?_named, hp, Option.map_some]
    dsimp only
    rw [named_set hp, ih, List.filterMap_cons, listed, hp, Option.bind_some]
    by_cases hsub : p.isSubPartition = true
    · rw [if_pos hsub, if_pos hsub]
      rfl
    · rw [if_neg hsub, if_neg hsub, List.flatMap_cons, List.append_assoc]
      rfl

/-- The paths of the list and the file names that the folder leaves in the table. -/
theorem setRestoreFiles_named (names : List Text) (files : ℕ → Text) :
    (setRestoreFiles withoutPersist (named partitions files) names).1 =
        named partitions (assign files (names.filterMap (resolve withoutPersist partitions))) ∧
      listPaths (setRestoreFiles withoutPersist (named partitions files) names).2 =
        ((names.filterMap (resolve withoutPersist partitions)).filterMap
          (listed partitions)).flatMap fun path => path.splitOn ';' := by
  rw [setRestoreFiles, restoreLoop_eq, List.nil_append, listPaths_flatMap]
  exact ⟨rfl, rfl⟩

theorem assign_eq_of_forall {entries : List (ℕ × Text)} {i : ℕ} {name : Text}
    (hmem : (i, name) ∈ entries) (hall : ∀ entry ∈ entries, entry.1 = i → entry.2 = name) :
    assign files entries i = name := by
  induction entries using List.reverseRecOn with
  | nil => cases hmem
  | append_singleton entries entry ih =>
    rw [assign, List.foldl_append, ← assign]
    change Function.update (assign files entries) entry.1 entry.2 i = name
    by_cases hi : entry.1 = i
    · rw [← hi, Function.update_self]
      exact hall entry (by simp) hi
    · rw [Function.update_of_ne (Ne.symm hi)]
      refine ih ?_ fun e he => hall e (List.mem_append_left _ he)
      rcases List.mem_append.mp hmem with hmem | hmem
      · exact hmem
      · exact absurd (congrArg Prod.fst (List.mem_singleton.mp hmem)).symm hi

theorem mem_of_assign_ne {entries : List (ℕ × Text)} {i : ℕ}
    (h : assign files entries i ≠ files i) : (i, assign files entries i) ∈ entries := by
  induction entries using List.reverseRecOn with
  | nil => exact absurd rfl h
  | append_singleton entries entry ih =>
    rw [assign, List.foldl_append, ← assign] at h ⊢
    change Function.update (assign files entries) entry.1 entry.2 i ≠ files i at h
    change (i, Function.update (assign files entries) entry.1 entry.2 i) ∈ _
    by_cases hi : entry.1 = i
    · rw [← hi, Function.update_self]
      simp
    · rw [Function.update_of_ne (Ne.symm hi)] at h ⊢
      exact List.mem_append_left _ (ih h)

end

end BootableRecovery.Twrp
