import BootableRecovery.Twrp.BackupDivision

namespace BootableRecovery.Twrp
open Lib

/-! The paths of a plain backup against those of an encrypted one. -/

variable (ex : TWExclude) (userdataEncryption : Bool) (cores : CoreCount) (tardir : Text)

/-- What the plain branch of `createTarFork` passes to `addFile`: one list without a target size,
in one thread. -/
def plainPaths (folder : Folder) : List Text :=
  passed (0, (generateTarList ex 0 tardir folder ⟨[], 0, 0⟩).tarList)

/-- What the threads of the encrypted branch pass to `addFile`. -/
def encryptedPaths (folder : Folder) : List Text :=
  match startThreads ex userdataEncryption cores tardir folder with
  | none => []
  | some threads => threads.flatMap passed

def Folder.dirNames : Folder → List Text
  | .nil => []
  | .file _ _ rest => rest.dirNames
  | .dir name _ rest => name :: rest.dirNames

/-- The directories of the backed up folder that are not excluded. -/
def topDirs (folder : Folder) : List Text :=
  (folder.dirNames.map (childPath tardir)).filter fun p => !ex.checkSkipDirs p

variable {ex userdataEncryption cores tardir} {folder : Folder}

theorem passed_of_ids {id : ℕ} {items : List TarListStruct}
    (h : ∀ item ∈ items, item.threadId = id) : passed (id, items) = items.map TarListStruct.fn := by
  rw [passed, threadEntries, List.filter_eq_self.mpr]
  intro item hitem
  exact decide_eq_true (h item hitem)

theorem plainPaths_eq : plainPaths ex tardir folder = listedPaths ex tardir folder := by
  have hextends := generateTarList_extends ex 0 tardir folder ⟨[], 0, 0⟩
  have hzero := hextends.noTarget rfl
  obtain ⟨items, hlist, hfn, hid⟩ := hextends.items
  rw [List.nil_append] at hlist
  rw [plainPaths, hlist, passed_of_ids, hfn]
  intro item hitem
  have hle := (hid item hitem).2
  rw [hzero] at hle
  exact Nat.le_zero.mp hle

/-- Threads with different ids share a list out among them. -/
theorem flatMap_passed_perm {ids : List ℕ} (hnodup : ids.Nodup) {items : List TarListStruct}
    (h : ∀ item ∈ items, item.threadId ∈ ids) :
    (ids.flatMap fun i => passed (i, items)).Perm (items.map TarListStruct.fn) := by
  induction ids generalizing items with
  | nil =>
    cases items with
    | nil => exact List.Perm.refl _
    | cons item items => exact absurd (h item List.mem_cons_self) List.not_mem_nil
  | cons i ids ih =>
    obtain ⟨hi, hids⟩ := List.nodup_cons.mp hnodup
    have hothers : ∀ j ∈ ids, passed (j, items) =
        passed (j, items.filter fun item => !decide (item.threadId = i)) := by
      intro j hj
      simp only [passed, threadEntries, List.filter_filter]
      congr 1
      apply List.filter_congr
      intro item _
      by_cases hitem : item.threadId = j
      · have hne : j ≠ i := fun heq => hi (heq ▸ hj)
        simp [hitem, hne]
      · simp [hitem]
    have hmem : ∀ item ∈ items.filter fun item => !decide (item.threadId = i),
        item.threadId ∈ ids := by
      intro item hitem
      rw [List.mem_filter] at hitem
      exact (List.mem_cons.mp (h item hitem.1)).resolve_left (by simpa using hitem.2)
    have hrest := ih hids hmem
    rw [List.flatMap_cons, List.flatMap_def, List.map_congr_left hothers, ← List.flatMap_def]
    have hsplit := (List.filter_append_perm (fun item => decide (item.threadId = i)) items).map
      TarListStruct.fn
    rw [List.map_append] at hsplit
    exact (hrest.append_left _).trans hsplit

/-- When the threads are started, they pass on what the two loops list. -/
theorem encryptedPaths_perm (hle : (divide ex userdataEncryption cores tardir folder).encThreadId ≤
      (divide ex userdataEncryption cores tardir folder).coreCount) :
    (encryptedPaths ex userdataEncryption cores tardir folder).Perm
      (topPaths ex userdataEncryption true tardir folder ++
        topPaths ex userdataEncryption false tardir folder) := by
  have hdiv := divided_of_le ex userdataEncryption cores tardir folder hle
  have hstart : startThreads ex userdataEncryption cores tardir folder =
      some ((divide ex userdataEncryption cores tardir folder).tarThreads userdataEncryption) :=
    if_neg (not_lt.mpr hle)
  have hregular : (if userdataEncryption then
        [(0, (divide ex userdataEncryption cores tardir folder).regularList)]
      else []).flatMap passed =
        topPaths ex userdataEncryption true tardir folder := by
    split_ifs with hu
    · rw [List.flatMap_singleton, passed_of_ids fun item hitem => (hdiv.regularIds item hitem).1,
        hdiv.regularPaths]
    · rw [topPaths_unencrypted ex userdataEncryption tardir folder (by simpa using hu)]
      rfl
  rw [encryptedPaths, hstart]
  dsimp only
  rw [Division.tarThreads, List.flatMap_append, hregular, List.flatMap_map, ← hdiv.encryptPaths]
  apply List.Perm.append_left
  apply flatMap_passed_perm List.nodup_range'
  intro item hitem
  obtain ⟨hlo, hhi⟩ := hdiv.encryptIds item hitem
  rw [List.mem_range'_1]
  omega

/-- What the walks of the encrypted branch leave out are the directories they start from. -/
theorem listedPaths_count (userdataEncryption : Bool) (p : Text) :
    (listedPaths ex tardir folder).count p = (topDirs ex tardir folder).count p +
      ((topPaths ex userdataEncryption true tardir folder).count p +
        (topPaths ex userdataEncryption false tardir folder).count p) := by
  induction folder with
  | nil => rfl
  | file name kind rest ih =>
    have hdirs : topDirs ex tardir (.file name kind rest) = topDirs ex tardir rest := rfl
    rw [listedPaths, topPaths, topPaths, hdirs, if_pos rfl, if_neg Bool.false_ne_true,
      List.nil_append, List.count_append, List.count_append, ih]
    omega
  | dir name contents rest _ ih =>
    rw [listedPaths, topPaths, topPaths, topDirs, Folder.dirNames, List.map_cons]
    by_cases hskip : ex.checkSkipDirs (childPath tardir name) = true
    · rw [if_pos hskip, if_pos hskip, if_pos hskip, List.filter_cons_of_neg (by simp [hskip])]
      exact ih
    · rw [if_neg hskip, if_neg hskip, if_neg hskip, List.filter_cons_of_pos (by simp [hskip])]
      rw [topDirs] at ih
      cases hdir : isUnencryptedDir userdataEncryption name with
      | true =>
        rw [if_pos rfl, if_neg (by decide), List.nil_append, List.cons_append, List.count_cons,
          List.count_cons, List.count_append, List.count_append, ih]
        omega
      | false =>
        rw [if_neg (by decide), if_pos rfl, List.nil_append, List.cons_append, List.count_cons,
          List.count_cons, List.count_append, List.count_append, ih]
        omega

theorem topDirs_eq_nil_iff : topDirs ex tardir folder = [] ↔
    ∀ name ∈ folder.dirNames, ex.checkSkipDirs (childPath tardir name) = true := by
  rw [topDirs, List.filter_eq_nil_iff, List.forall_mem_map]
  simp only [Bool.not_eq_true', Bool.not_eq_false]

/-- Files directly in the backed up folder do not start threads. -/
theorem divideLoop_threadId {targetSize : ℕ} {s : ListState}
    (h : ∀ name ∈ folder.dirNames, ex.checkSkipDirs (childPath tardir name) = true) :
    (divideLoop ex userdataEncryption targetSize tardir folder s).threadId = s.threadId := by
  induction folder generalizing s with
  | nil => rfl
  | file name kind rest ih =>
    unfold divideLoop
    dsimp only
    rw [ih h]
    split_ifs
    · rfl
    · cases kind <;> rfl
  | dir name contents rest _ ih =>
    unfold divideLoop
    dsimp only
    rw [ih fun n hn => h n (List.mem_cons_of_mem name hn), if_pos (h name List.mem_cons_self)]

/-- Both branches back up the same paths, and these are what is not excluded, each once. -/
structure SamePaths (ex : TWExclude) (userdataEncryption : Bool) (cores : CoreCount) (tardir : Text)
    (folder : Folder) : Prop where
  perm : (encryptedPaths ex userdataEncryption cores tardir folder).Perm
    (plainPaths ex tardir folder)
  once : (plainPaths ex tardir folder).Nodup
  all : ∀ p, p ∈ plainPaths ex tardir folder ↔ p ∈ listedPaths ex tardir folder

theorem topDirs_nil_of_perm (h : (encryptedPaths ex userdataEncryption cores tardir folder).Perm
    (plainPaths ex tardir folder)) : topDirs ex tardir folder = [] := by
  have hplain : (plainPaths ex tardir folder).Perm (topDirs ex tardir folder ++
      (topPaths ex userdataEncryption true tardir folder ++
        topPaths ex userdataEncryption false tardir folder)) := by
    rw [plainPaths_eq, List.perm_iff_count]
    intro p
    rw [List.count_append, List.count_append, listedPaths_count userdataEncryption]
  have hlength := (h.trans hplain).length_eq
  rw [List.length_append] at hlength
  by_cases hle : (divide ex userdataEncryption cores tardir folder).encThreadId ≤
      (divide ex userdataEncryption cores tardir folder).coreCount
  · rw [(encryptedPaths_perm hle).length_eq] at hlength
    exact List.length_eq_zero_iff.mp (by omega)
  · have hnone : startThreads ex userdataEncryption cores tardir folder = none :=
      if_pos (not_le.mp hle)
    rw [encryptedPaths, hnone, List.length_nil] at hlength
    exact List.length_eq_zero_iff.mp (by omega)

/-- The same paths are backed up exactly when no directory starts a walk of the encrypted branch. -/
theorem samePaths_iff_topDirs_excluded (ex : TWExclude) (userdataEncryption : Bool)
    (cores : CoreCount) (tardir : Text) (folder : Folder) (hwf : folder.WellFormed) :
    SamePaths ex userdataEncryption cores tardir folder ↔
      ∀ name ∈ folder.dirNames, ex.checkSkipDirs (childPath tardir name) = true := by
  constructor
  · intro h
    exact topDirs_eq_nil_iff.mp (topDirs_nil_of_perm h.perm)
  · intro hdirs
    have hle : (divide ex userdataEncryption cores tardir folder).encThreadId ≤
        (divide ex userdataEncryption cores tardir folder).coreCount := by
      change (divideLoop _ _ _ _ _ _).threadId ≤
        if userdataEncryption then cores.val else cores.val - 1
      rw [divideLoop_threadId hdirs]
      cases userdataEncryption with
      | true => exact cores.2.1
      | false => exact Nat.zero_le _
    refine ⟨(encryptedPaths_perm hle).trans ?_, ?_, ?_⟩
    · rw [plainPaths_eq, List.perm_iff_count]
      intro p
      rw [List.count_append, listedPaths_count userdataEncryption,
        topDirs_eq_nil_iff.mpr hdirs, List.count_nil, Nat.zero_add]
    · rw [plainPaths_eq]
      exact listedPaths_nodup ex hwf
    · intro p
      rw [plainPaths_eq]

/-- Directories at the root are left out by name or by path. -/
def excludedDirs : Folder :=
  .dir "media".toList (.dir "0".toList (.file "p.jpg".toList (.regular 7) .nil) .nil)
    (.file "a".toList (.regular 5)
      (.dir "lost+found".toList (.dir "x".toList .nil .nil) (.file "b".toList (.symlink 4) .nil)))

/-- The branches agree where all directories are left out, and not where `app` stays. -/
theorem samePaths_excludedDirs :
    SamePaths ⟨["lost+found".toList], ["/data/media".toList]⟩ true ⟨2, by decide, by decide⟩
        "/data".toList excludedDirs ∧
      ¬SamePaths ⟨["lost+found".toList], ["/data/media".toList]⟩ true ⟨2, by decide, by decide⟩
        "/data".toList nestedData := by
  have hexcluded : excludedDirs.WellFormed := by
    simp [excludedDirs, Folder.WellFormed, Folder.names]
  have hnested : nestedData.WellFormed := by simp [nestedData, Folder.WellFormed, Folder.names]
  refine ⟨(samePaths_iff_topDirs_excluded _ _ _ _ _ hexcluded).mpr (by decide), fun h => ?_⟩
  exact absurd ((samePaths_iff_topDirs_excluded _ _ _ _ _ hnested).mp h) (by decide)

/-- Whatever the tree, the exclusions and the cores, both branches back up the same paths. -/
def BranchesAgree : Prop :=
  ∀ (ex : TWExclude) (userdataEncryption : Bool) (cores : CoreCount) (tardir : Text)
    (folder : Folder), folder.WellFormed → SamePaths ex userdataEncryption cores tardir folder

/-- The entry of the directory `app` itself is missing from the encrypted backup. -/
theorem not_branchesAgree : ¬BranchesAgree := by
  intro hall
  have hwf : userData.WellFormed := by simp [userData, Folder.WellFormed, Folder.names]
  have hnil := topDirs_nil_of_perm
    (hall defaultExclude true ⟨2, by decide, by decide⟩ "/data".toList userData hwf).perm
  exact absurd hnil (by decide)

end BootableRecovery.Twrp
