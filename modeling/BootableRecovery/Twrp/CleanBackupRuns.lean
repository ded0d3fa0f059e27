import BootableRecovery.Twrp.CleanBackup

namespace BootableRecovery.Twrp.CleanBackup
open Lib

/-! A failed backup leaves nothing behind exactly where none of the files it opens is numbered or
lies in a subfolder. -/

section tarList
variable {w : TarWorld} {tar : TarThread} {P : Text → Prop} {name : Text} {f : BackupDir}

theorem createTar_changes (h : tar.toStream = false → w.opens name = true → P name) :
    WorkDir.Changes P IsGzOf f (createTar w tar name f).2 := by
  unfold createTar
  split_ifs with hstream hopen
  · exact .refl
  · exact .refl
  · simp only [Bool.not_eq_true, Bool.not_eq_false] at hstream hopen
    exact WorkDir.Changes.create (h hstream hopen)

theorem createTar_written (hstream : tar.toStream = false) (hopen : w.opens name = true) :
    name ∈ (createTar w tar name f).2.written := by
  simp [createTar, hstream, hopen]

theorem opens_of_createTar (h : (createTar w tar name f).1 = true)
    (hstream : tar.toStream = false) : w.opens name = true := by
  by_contra hopen
  rw [Bool.not_eq_true] at hopen
  simp [createTar, hstream, hopen] at h

theorem closeTar_changes (h : tar.toStream = false → name ∈ f.written) :
    WorkDir.Changes P IsGzOf f (closeTar w tar name f).2 := by
  unfold closeTar
  split_ifs with hflush hadb hgz
  · exact .refl
  · exact .refl
  · refine WorkDir.Changes.move rfl (h ?_)
    simp [TarThread.toStream, hadb]
  · exact .refl

/-- The archive that the thread is at has been opened. -/
def TarState.Open (tar : TarThread) (s : TarState) : Prop :=
  tar.toStream = false → tar.actualFilename s.archiveCount ∈ s.folder.written

/-- What a part of the loop does to the folder. -/
structure Advances (tar : TarThread) (P : Text → Prop) (s : TarState) (r : Bool × TarState) :
    Prop where
  changes : WorkDir.Changes P IsGzOf s.folder r.2.folder
  isOpen : r.1 = true → r.2.Open tar

variable {s : TarState} (hP : tar.toStream = false → ∀ i, P (tar.actualFilename i))
include hP

theorem nextArchive_advances (hs : s.Open tar) : Advances tar P s (nextArchive w tar s) := by
  have hclose : WorkDir.Changes P IsGzOf s.folder
      (closeTar w tar (tar.actualFilename s.archiveCount) s.folder).2 := closeTar_changes hs
  unfold nextArchive
  dsimp only
  split_ifs with hstop
  · exact ⟨hclose, fun h => absurd h Bool.false_ne_true⟩
  · refine ⟨hclose.trans (createTar_changes fun hstream _ => hP hstream _), ?_⟩
    intro hok hstream
    exact createTar_written hstream (opens_of_createTar hok hstream)

theorem makeRoom_advances (hs : s.Open tar) (size : ℕ) :
    Advances tar P s (makeRoom w tar s size) := by
  unfold makeRoom
  dsimp only
  split_ifs
  · have hnext := nextArchive_advances (w := w) hP hs
    exact ⟨hnext.changes, hnext.isOpen⟩
  · exact ⟨.refl, fun _ => hs⟩

theorem tarStep_advances (hs : s.Open tar) (item : TarListStruct) :
    Advances tar P s (tarStep w tar s item) := by
  unfold tarStep
  split_ifs
  · rcases w.lstat item.fn with size | _
    · have hroom := makeRoom_advances (w := w) hP hs size
      refine ⟨hroom.changes, fun h => hroom.isOpen ?_⟩
      exact (Bool.and_eq_true_iff.mp h).1
    · exact ⟨.refl, fun _ => hs⟩
  · exact ⟨.refl, fun _ => hs⟩

theorem tarLoop_changes (items : List TarListStruct) (hs : s.Open tar) :
    WorkDir.Changes P IsGzOf s.folder (tarLoop w tar items s).2 := by
  induction items generalizing s with
  | nil => exact closeTar_changes hs
  | cons item rest ih =>
    have hstep := tarStep_advances (w := w) hP hs item
    unfold tarLoop
    dsimp only
    split_ifs with hok
    · exact hstep.changes.trans (ih (hstep.isOpen hok))
    · exact hstep.changes

end tarList

section threads
variable (w : TarWorld) (tar : TarThread) (threads : List TarThread) (f : BackupDir)

/-- A thread opens no archive unless it opens the first. -/
theorem tarList_changes :
    WorkDir.Changes (fun name => tar.OpensFirst w ∧ ∃ i, name = tar.actualFilename i) IsGzOf f
      (tarList w tar f).2 := by
  have hfirst : WorkDir.Changes
      (fun name => tar.OpensFirst w ∧ ∃ i, name = tar.actualFilename i) IsGzOf f
      (createTar w tar (tar.actualFilename 0) f).2 :=
    createTar_changes fun hstream hopen => ⟨⟨hstream, hopen⟩, 0, rfl⟩
  unfold tarList
  dsimp only
  split_ifs with hok
  · refine hfirst.trans ?_
    refine tarLoop_changes (s := ⟨0, 0, _⟩) ?_ _ ?_
    · intro hstream i
      exact ⟨⟨hstream, opens_of_createTar hok hstream⟩, i, rfl⟩
    · intro hstream
      exact createTar_written hstream (opens_of_createTar hok hstream)
  · exact hfirst

variable {w tar} in
theorem tarList_written (h : tar.OpensFirst w) :
    tar.actualFilename 0 ∈ (tarList w tar f).2.written := by
  have hfirst : tar.actualFilename 0 ∈ (createTar w tar (tar.actualFilename 0) f).2.written :=
    createTar_written h.1 h.2
  unfold tarList
  dsimp only
  split_ifs with hok
  · refine WorkDir.Changes.written_subset (P := fun _ => True) (M := IsGzOf) ?_ hfirst
    exact tarLoop_changes (s := ⟨0, 0, _⟩) (fun _ _ => trivial) _ fun _ => hfirst
  · exact hfirst

theorem runThreads_changes :
    WorkDir.Changes (fun name => ThreadsOpen w threads ∧ ∃ tar ∈ threads, ∃ i,
      name = tar.actualFilename i) IsGzOf f (runThreads w threads f).2 := by
  induction threads generalizing f with
  | nil => exact .refl
  | cons tar rest ih =>
    have hrest := ih (if w.threadStarts tar.threadId then tarList w tar f else (false, f)).2
    have hothers := hrest.imp (R := fun name => ThreadsOpen w (tar :: rest) ∧
        ∃ t ∈ tar :: rest, ∃ i, name = t.actualFilename i) fun name h => by
      obtain ⟨⟨t, ht, hopen⟩, t', ht', i, hi⟩ := h
      exact ⟨⟨t, List.mem_cons_of_mem _ ht, hopen⟩, t', List.mem_cons_of_mem _ ht', i, hi⟩
    refine Relation.ReflTransGen.trans ?_ hothers
    split_ifs with hstart
    · refine (tarList_changes w tar f).imp fun name h => ?_
      exact ⟨⟨tar, List.mem_cons_self, hstart, h.1⟩, tar, List.mem_cons_self, h.2⟩
    · exact .refl

variable {w threads} in
theorem runThreads_written (h : ThreadsOpen w threads) :
    ∃ tar ∈ threads, tar.actualFilename 0 ∈ (runThreads w threads f).2.written := by
  obtain ⟨tar, hmem, hstart, hopen⟩ := h
  refine ⟨tar, hmem, ?_⟩
  induction threads generalizing f with
  | nil => cases hmem
  | cons t rest ih =>
    rcases List.mem_cons.mp hmem with rfl | hmem
    · unfold runThreads
      dsimp only
      rw [if_pos hstart]
      exact (runThreads_changes w rest _).written_subset (tarList_written f hopen)
    · exact ih _ hmem

end threads

section tarChild
variable {w : TarWorld} {s : TarSettings} {adbbackup : Bool} {tarfn infofn : Text} {f : BackupDir}

/-- What an archive of the child is called. -/
def ArchiveOf (s : TarSettings) (adbbackup : Bool) (tarfn name : Text) : Prop :=
  (s.splits adbbackup = false ∧ name = tarfn) ∨
    s.splits adbbackup = true ∧ ∃ t i, name = archiveName tarfn t i

theorem archiveOf_regularThread (i : ℕ) : ArchiveOf s adbbackup tarfn
    ((regularThread s adbbackup tarfn).actualFilename i) := by
  by_cases hs : s.splits adbbackup = true
  · exact .inr ⟨hs, 0, i, if_pos hs⟩
  · exact .inl ⟨by simpa using hs, if_neg hs⟩

theorem archiveOf_encryptedThreads {tar : TarThread} {start n : ℕ}
    (hs : s.splits adbbackup = true) (h : tar ∈ encryptedThreads s adbbackup tarfn start n)
    (i : ℕ) : ArchiveOf s adbbackup tarfn (tar.actualFilename i) := by
  obtain ⟨t, -, rfl⟩ := List.mem_map.mp h
  exact .inr ⟨hs, t, i, rfl⟩

theorem tarChild_changes : WorkDir.Changes
    (fun name => TarOpens w s adbbackup tarfn f ∧ ArchiveOf s adbbackup tarfn name) IsGzOf f
    (tarChild w s adbbackup tarfn f).2 := by
  unfold tarChild TarOpens
  split_ifs with hlists
  · exact .refl
  rw [Bool.not_eq_false] at hlists
  simp only [hlists, true_and]
  rcases hlayout : s.layout with n | n | _
  · dsimp only
    have hs : s.splits adbbackup = true := by simp [TarSettings.splits, hlayout]
    refine (runThreads_changes w _ f).imp fun name h => ?_
    obtain ⟨hopen, tar, htar, i, rfl⟩ := h
    exact ⟨hopen, archiveOf_encryptedThreads hs htar i⟩
  · dsimp only
    have hs : s.splits adbbackup = true := by simp [TarSettings.splits, hlayout]
    have hreg := (tarList_changes w (regularThread s adbbackup tarfn) f).imp
      (R := fun name => ((regularThread s adbbackup tarfn).OpensFirst w ∨
        (tarList w (regularThread s adbbackup tarfn) f).1 = true ∧
          ThreadsOpen w (encryptedThreads s adbbackup tarfn 1 n)) ∧
        ArchiveOf s adbbackup tarfn name) fun name h => by
      obtain ⟨hopen, i, rfl⟩ := h
      exact ⟨.inl hopen, archiveOf_regularThread i⟩
    split_ifs with hok
    · refine hreg.trans ?_
      refine (runThreads_changes w _ _).imp fun name h => ?_
      obtain ⟨hopen, tar, htar, i, rfl⟩ := h
      exact ⟨.inr ⟨hok, hopen⟩, archiveOf_encryptedThreads hs htar i⟩
    · exact hreg
  · dsimp only
    refine (tarList_changes w _ f).imp fun name h => ?_
    obtain ⟨hopen, i, rfl⟩ := h
    exact ⟨hopen, archiveOf_regularThread i⟩

theorem tarChild_written (h : TarOpens w s adbbackup tarfn f) :
    ∃ name ∈ (tarChild w s adbbackup tarfn f).2.written, ArchiveOf s adbbackup tarfn name := by
  obtain ⟨hlists, hopen⟩ := h
  unfold tarChild
  rw [hlists, if_neg Bool.noConfusion]
  have hsplit : ∀ start n {g : BackupDir}, s.splits adbbackup = true →
      ThreadsOpen w (encryptedThreads s adbbackup tarfn start n) →
      ∃ name ∈ (runThreads w (encryptedThreads s adbbackup tarfn start n) g).2.written,
        ArchiveOf s adbbackup tarfn name := by
    intro start n g hs h
    obtain ⟨tar, htar, hw⟩ := runThreads_written g h
    exact ⟨_, hw, archiveOf_encryptedThreads hs htar 0⟩
  rcases hlayout : s.layout with n | n | _
  · rw [hlayout] at hopen
    exact hsplit _ _ (by simp [TarSettings.splits, hlayout]) hopen
  · rw [hlayout] at hopen
    have hs : s.splits adbbackup = true := by simp [TarSettings.splits, hlayout]
    dsimp only at hopen ⊢
    rcases hopen with hopen | ⟨hok, hopen⟩
    · have hw := tarList_written f hopen
      refine ⟨_, ?_, archiveOf_regularThread 0⟩
      split_ifs
      · exact (runThreads_changes w _ _).written_subset hw
      · exact hw
    · rw [if_pos hok]
      exact hsplit _ _ hs hopen
  · rw [hlayout] at hopen
    exact ⟨_, tarList_written f hopen, archiveOf_regularThread 0⟩

/-- A child that succeeds outside of an adb backup has opened an archive. -/
theorem tarOpens_of_tarChild (h : (tarChild w s false tarfn f).1 = true) :
    TarOpens w s false tarfn f := by
  have hfirst : ∀ tar : TarThread, tar.adbbackup = false → (tarList w tar f).1 = true →
      tar.OpensFirst w := by
    intro tar hadb hok
    have hstream : tar.toStream = false := by simp [TarThread.toStream, hadb]
    refine ⟨hstream, ?_⟩
    unfold tarList at hok
    dsimp only at hok
    split_ifs at hok with hcreate
    · exact opens_of_createTar hcreate hstream
    · exact absurd hok hcreate
  unfold tarChild at h
  split_ifs at h with hlists
  rw [Bool.not_eq_false] at hlists
  refine ⟨hlists, ?_⟩
  rcases hlayout : s.layout with n | n | _
  · rw [hlayout] at h
    obtain ⟨k, hk⟩ := Nat.exists_eq_succ_of_ne_zero n.property.1.ne'
    dsimp only at h ⊢
    rw [encryptedThreads, hk, List.range'_succ, List.map_cons] at h ⊢
    unfold runThreads at h
    dsimp only at h
    split_ifs at h with hstart
    · refine ⟨_, List.mem_cons_self, hstart, hfirst _ rfl ?_⟩
      exact (Bool.and_eq_true_iff.mp h).1
    · simp at h
  · rw [hlayout] at h
    dsimp only at h ⊢
    split_ifs at h with hok
    · exact .inl (hfirst _ rfl hok)
    · exact absurd h hok
  · rw [hlayout] at h
    exact hfirst _ rfl h

end tarChild

/-! ### One partition -/

section backup
variable {env : BackupWorld} {member : ℕ × TWPartition} {f : BackupDir}

variable (env member f) in
/-- A file of the partition, if one is opened at all. -/
def Opened (name : Text) : Prop := OpensFile env member f ∧ FileName env member f name

theorem backupTar_changes (hm : (env.device member.1).method = .files) :
    WorkDir.Changes (Opened env member f) IsGzOf f (backupTar env member f).2 := by
  unfold backupTar
  dsimp only
  split_ifs with hmounts
  · exact .refl
  unfold createTarFork
  split_ifs with hforks hinfo
  · exact .refl
  all_goals
    rw [Bool.not_eq_false] at hmounts hforks
    have hchild : WorkDir.Changes (Opened env member f) IsGzOf f
        (tarChild (env.device member.1).tarWorld (env.device member.1).tarSettings env.adbbackup
          (backupFileName env member) f).2 := by
      refine tarChild_changes.imp fun name h => ⟨?_, ?_⟩
      · simp only [OpensFile, hm]
        exact ⟨hmounts, hforks, .inl h.1⟩
      · rcases h.2 with ⟨-, rfl⟩ | ⟨hs, t, i, rfl⟩
        · exact .archive
        · exact .numbered t i ⟨hm, hmounts, hforks, hs, h.1⟩
  · refine hchild.trans (WorkDir.Changes.create ⟨?_, .info⟩)
    simp only [OpensFile, hm]
    exact ⟨hmounts, hforks, .inr (by simpa using hinfo)⟩
  · exact hchild

theorem backup_changes :
    WorkDir.Changes (Opened env member f) IsGzOf f (backup env member f).2 := by
  unfold backup
  rcases hm : (env.device member.1).method
  · exact .refl
  · exact backupTar_changes hm
  · unfold backupImage
    dsimp only
    split_ifs with hadb hopen
    · exact .refl
    · refine WorkDir.Changes.create ⟨?_, .archive⟩
      simp only [OpensFile, hm]
      exact ⟨by simpa using hadb, by simpa using hopen⟩
    · exact .refl
  · unfold backupDumpImage
    rcases hd : (env.device member.1).dumped with _ | size
    · exact .refl
    · refine WorkDir.Changes.create ⟨?_, .archive⟩
      simp [OpensFile, hm, hd]

theorem backupTar_written (hmounts : (env.device member.1).tarWorld.mounts = true)
    (hforks : (env.device member.1).tarWorld.forks = true)
    (hopen : TarOpens (env.device member.1).tarWorld (env.device member.1).tarSettings
      env.adbbackup (backupFileName env member) f) :
    ∃ name ∈ (backupTar env member f).2.written,
      ArchiveOf (env.device member.1).tarSettings env.adbbackup (backupFileName env member)
        name := by
  obtain ⟨name, hw, harchive⟩ := tarChild_written hopen
  refine ⟨name, ?_, harchive⟩
  unfold backupTar createTarFork
  simp only [hmounts, hforks]
  rw [if_neg Bool.noConfusion, if_neg Bool.noConfusion]
  dsimp only
  split_ifs
  · exact WorkDir.mem_create_written.mpr (.inr hw)
  · exact hw

theorem backup_written (h : OpensFile env member f) :
    ∃ name ∈ (backup env member f).2.written, FileName env member f name := by
  unfold OpensFile at h
  dsimp only at h
  unfold backup
  rcases hm : (env.device member.1).method
  · rw [hm] at h
    exact h.elim
  · rw [hm] at h
    obtain ⟨hmounts, hforks, hopen | ⟨hadb, hinfo⟩⟩ := h
    · obtain ⟨name, hw, ⟨-, rfl⟩ | ⟨hs, t, i, rfl⟩⟩ := backupTar_written hmounts hforks hopen
      · exact ⟨_, hw, .archive⟩
      · exact ⟨_, hw, .numbered t i ⟨hm, hmounts, hforks, hs, hopen⟩⟩
    · refine ⟨_, ?_, .info⟩
      simp [backupTar, createTarFork, hmounts, hforks, hadb, hinfo]
  · rw [hm] at h
    refine ⟨_, ?_, .archive⟩
    simp [backupImage, h]
  · rw [hm] at h
    obtain ⟨size, hd⟩ := Option.isSome_iff_exists.mp h
    refine ⟨_, ?_, .archive⟩
    simp [backupDumpImage, hd]

theorem numbered_written (h : OpensNumbered env member f) :
    ∃ t i, archiveName (backupFileName env member) t i ∈ (backup env member f).2.written := by
  obtain ⟨hm, hmounts, hforks, hs, hopen⟩ := h
  obtain ⟨name, hw, ⟨hsingle, -⟩ | ⟨-, t, i, rfl⟩⟩ := backupTar_written hmounts hforks hopen
  · rw [hs] at hsingle
    exact absurd hsingle Bool.noConfusion
  · refine ⟨t, i, ?_⟩
    unfold backup
    rwa [hm]

theorem opensFile_of_backup (h : (backup env member f).1 = true) (hadb : env.adbbackup = false) :
    OpensFile env member f := by
  unfold backup at h
  unfold OpensFile
  dsimp only
  rcases hm : (env.device member.1).method
  · rw [hm] at h
    exact absurd h Bool.noConfusion
  · rw [hm] at h
    unfold backupTar createTarFork at h
    dsimp only at h
    rw [hadb] at h
    split_ifs at h with hmounts hforks
    all_goals
      rw [Bool.not_eq_false] at hmounts hforks
      have hchild := tarOpens_of_tarChild (Bool.and_eq_true_iff.mp h).1
      rw [← hadb] at hchild
      exact ⟨hmounts, hforks, .inl hchild⟩
  · rw [hm] at h
    unfold backupImage at h
    dsimp only at h
    rw [hadb, if_neg Bool.false_ne_true] at h
    split_ifs at h with hopen
    exact ⟨hadb, by simpa using hopen⟩
  · rw [hm] at h
    unfold backupDumpImage at h
    rcases hd : (env.device member.1).dumped with _ | size
    · rw [hd] at h
      exact absurd h Bool.noConfusion
    · exact Option.isSome_some

theorem writeDigest_changes {P : Text → Prop} {name : Text} {g : BackupDir}
    (h : P (name ++ (writtenDigest env.digestConfig).2)) :
    WorkDir.Changes P IsGzOf g (writeDigest env name g).2 := by
  unfold writeDigest
  dsimp only
  split_ifs
  · exact WorkDir.Changes.create h
  · exact .refl

variable (hopen : OpensFile env member f)
include hopen

theorem makeSplit_changes (n index : ℕ) (g : BackupDir) :
    WorkDir.Changes (Opened env member f) IsGzOf g
      (makeSplit env (backupFileName env member) n index g).2 := by
  induction n generalizing index g with
  | zero => exact .refl
  | succ n ih =>
    have hdigest : WorkDir.Changes (Opened env member f) IsGzOf g
        (writeDigest env (splitFilename (backupFileName env member) index) g).2 := by
      refine writeDigest_changes ⟨hopen, ?_⟩
      rw [splitFilename, List.append_assoc]
      exact .digest _ fun c hc => isDigit_of_mem_padded hc
    unfold makeSplit
    dsimp only
    split_ifs
    · exact hdigest.trans (ih _ _)
    · exact hdigest
    · exact .refl

theorem makeDigest_changes (g : BackupDir) : WorkDir.Changes (Opened env member f) IsGzOf g
    (makeDigest env (backupFileName env member) g).2 := by
  unfold makeDigest
  split_ifs
  · exact writeDigest_changes ⟨hopen, .digest [] (by simp)⟩
  · exact makeSplit_changes hopen 1000 0 g

end backup

section run
variable {env : BackupWorld} {f g : BackupDir} {partitions : Partitions}

theorem backupOne_changes (member : ℕ × TWPartition) :
    WorkDir.Changes (Opened env member f) IsGzOf f (backupOne env member f).2 := by
  unfold backupOne
  dsimp only
  split_ifs with hdigest
  · simp only [Bool.and_eq_true, Bool.not_eq_true'] at hdigest
    refine backup_changes.trans (makeDigest_changes ?_ _)
    exact opensFile_of_backup hdigest.1.1 hdigest.1.2
  · exact backup_changes

theorem backup_written_subset (member : ℕ × TWPartition) :
    (backup env member f).2.written ⊆ (backupOne env member f).2.written := by
  unfold backupOne
  dsimp only
  split_ifs with hdigest
  · simp only [Bool.and_eq_true, Bool.not_eq_true'] at hdigest
    have hopen := opensFile_of_backup hdigest.1.1 hdigest.1.2
    exact (makeDigest_changes hopen _).written_subset
  · exact Finset.Subset.refl _

theorem backupMembers_changes (calls : List (ℕ × TWPartition)) :
    WorkDir.Changes Lasting IsGzOf f (backupMembers env calls f).2 := by
  induction calls generalizing f with
  | nil => exact .refl
  | cons member rest ih =>
    have hone : WorkDir.Changes Lasting IsGzOf f (backupOne env member f).2 :=
      (backupOne_changes member).imp fun _ hn => hn.2.lasting
    unfold backupMembers
    dsimp only
    split_ifs
    · exact hone.trans ih
    · exact hone

theorem backupMembers_append (calls rest : List (ℕ × TWPartition)) :
    backupMembers env (calls ++ rest) f =
      if (backupMembers env calls f).1 then backupMembers env rest (backupMembers env calls f).2
      else backupMembers env calls f := by
  induction calls generalizing f with
  | nil => rfl
  | cons member calls ih =>
    rw [List.cons_append, backupMembers, backupMembers]
    by_cases hok : (backupOne env member f).1 = true
    · rw [if_pos hok, if_pos hok, ih]
    · rw [if_neg hok, if_neg hok, if_neg hok]

variable (env) in
/-- The folder of a failed run once it is cleaned and has its log. -/
def afterFailure (g : BackupDir) : BackupDir :=
  if env.logCopied then (cleanBackupFolder env g).create recoveryLog else cleanBackupFolder env g

/-- A failed run is that of all its partitions, and then the clean-up. -/
theorem backupPartitions_failed (calls : List ℕ)
    (h : (backupPartitions env partitions calls f).1 = false) :
    (backupMembers env (calls.flatMap (members partitions)) f).1 = false ∧
      (backupPartitions env partitions calls f).2 =
        afterFailure env (backupMembers env (calls.flatMap (members partitions)) f).2 := by
  induction calls generalizing f with
  | nil => exact absurd h Bool.noConfusion
  | cons i calls ih =>
    rw [List.flatMap_cons, backupMembers_append]
    unfold backupPartitions backupPartition at h ⊢
    dsimp only at h ⊢
    by_cases hok : (backupMembers env (members partitions i) f).1 = true
    · simp only [hok, if_true] at h ⊢
      exact ih h
    · simp only [hok, Bool.false_eq_true, if_false]
      exact ⟨trivial, rfl⟩

theorem mem_afterFailure_written {name : Text} (h : name ∈ (afterFailure env g).written) :
    name ∈ g.written ∨ name = recoveryLog := by
  unfold afterFailure cleanBackupFolder at h
  split_ifs at h
  · simpa [or_comm] using h
  · simpa [or_comm] using h
  · exact .inl h
  · exact .inl h

theorem written_subset_afterFailure : g.written ⊆ (afterFailure env g).written := by
  intro name hn
  unfold afterFailure cleanBackupFolder
  split_ifs <;> simp [hn]

theorem mem_afterFailure_of_mem {name : Text} (h : name ∈ g.names)
    (hc : ¬(env.folderOpens = true ∧ cleans env name = true)) :
    name ∈ (afterFailure env g).names := by
  unfold afterFailure cleanBackupFolder
  split_ifs with hlog hopens hopens <;> simp_all

theorem mem_afterFailure_names {name : Text} (hne : name ≠ recoveryLog) :
    name ∈ (afterFailure env g).names ↔
      name ∈ g.names ∧ ¬(env.folderOpens = true ∧ cleans env name = true) := by
  unfold afterFailure cleanBackupFolder
  split_ifs with hlog hopens hopens <;> simp [hne, hopens]

end run

/-! ### A failed run -/

section failure
variable {env : BackupWorld} {partitions : Partitions} {f : BackupDir}
  {calls : List (ℕ × TWPartition)} {member : ℕ × TWPartition}

/-- A name that stays once it has been written. -/
def Stays (env : BackupWorld) (name : Text) : Prop :=
  env.folderOpens = false ∨ cleans env name = false

theorem not_cleans_of_slash {name : Text} (h : '/' ∈ name) : cleans env name = false := by
  simp [cleans, h]

/-- A partition that is not cleanable opens a file that stays. -/
theorem exists_stays (h : ¬Cleanable env member f) :
    ∃ name ∈ (backupOne env member f).2.written, Stays env name := by
  simp only [Cleanable, Classical.not_imp] at h
  obtain ⟨hopen, hnot⟩ := h
  by_cases hn : OpensNumbered env member f
  · obtain ⟨t, i, hw⟩ := numbered_written hn
    exact ⟨_, backup_written_subset member hw, .inr (not_cleans_numbered t i)⟩
  · obtain ⟨name, hw, hname⟩ := backup_written hopen
    refine ⟨name, backup_written_subset member hw, ?_⟩
    by_cases hfolder : env.folderOpens = true
    · refine .inr (not_cleans_of_slash (hname.slash ?_))
      by_contra hs
      exact hnot ⟨hfolder, hs, hn⟩
    · exact .inl (by simpa using hfolder)

theorem allCleanable_of_gone
    (h : ∀ name ∈ (backupMembers env calls f).2.written, ¬Stays env name) :
    AllCleanable env calls f := by
  induction calls generalizing f with
  | nil => trivial
  | cons member rest ih =>
    unfold backupMembers at h
    dsimp only at h
    refine ⟨?_, fun hok => ih ?_⟩
    · by_contra hnot
      obtain ⟨name, hw, hstays⟩ := exists_stays hnot
      refine h name ?_ hstays
      split_ifs
      · exact (backupMembers_changes rest).written_subset hw
      · exact hw
    · rwa [if_pos hok] at h

theorem gone_of_allCleanable (h : AllCleanable env calls f)
    (hf : ∀ name ∈ f.written, ¬Stays env name) :
    ∀ name ∈ (backupMembers env calls f).2.written, ¬Stays env name := by
  induction calls generalizing f with
  | nil => exact hf
  | cons member rest ih =>
    have hone : ∀ name ∈ (backupOne env member f).2.written, ¬Stays env name := by
      intro name hw
      rcases (backupOne_changes member).of_written hw with hold | ⟨hopen, hname⟩
      · exact hf name hold
      · obtain ⟨hfolder, hslash, hn⟩ := h.1 hopen
        simp [Stays, hfolder, hname.cleans hslash hn]
    unfold backupMembers
    dsimp only
    split_ifs with hok
    · exact ih (h.2 hok) hone
    · exact hone

variable {names : Finset Text} {list : List ℕ}
  (hfail : (backupPartitions env partitions list ⟨names, ∅⟩).1 = false)
include hfail

/-- What a failed run wrote is there after it just if it stays. -/
theorem mem_names_iff_stays {name : Text}
    (hw : name ∈ (backupMembers env (list.flatMap (members partitions)) ⟨names, ∅⟩).2.written) :
    name ≠ recoveryLog ∧
      (name ∈ (backupPartitions env partitions list ⟨names, ∅⟩).2.names ↔ Stays env name) := by
  have hholds : (backupMembers env (list.flatMap (members partitions)) ⟨names, ∅⟩).2.Holds
      Lasting :=
    (backupMembers_changes _).holds (fun _ hn => hn) (fun _ _ => not_lasting_of_isGzOf)
      fun name hname => absurd hname (Finset.notMem_empty name)
  obtain ⟨hin, hlasting⟩ := hholds name hw
  refine ⟨hlasting.ne_recoveryLog, ?_⟩
  rw [(backupPartitions_failed list hfail).2, mem_afterFailure_names hlasting.ne_recoveryLog]
  simp only [hin, true_and, Stays, not_and_or, Bool.not_eq_true]

theorem allCleanable_of_leavesNothing
    (h : LeavesNothing ⟨names, ∅⟩ (backupPartitions env partitions list ⟨names, ∅⟩).2) :
    AllCleanable env (list.flatMap (members partitions)) ⟨names, ∅⟩ := by
  apply allCleanable_of_gone
  intro name hw hstays
  obtain ⟨hne, hiff⟩ := mem_names_iff_stays hfail hw
  refine h.gone name ?_ hne (hiff.mpr hstays)
  rw [(backupPartitions_failed list hfail).2]
  exact written_subset_afterFailure hw

theorem leavesNothing_of_allCleanable
    (h : AllCleanable env (list.flatMap (members partitions)) ⟨names, ∅⟩) :
    LeavesNothing ⟨names, ∅⟩ (backupPartitions env partitions list ⟨names, ∅⟩).2 := by
  have hgone := gone_of_allCleanable h fun name hname => absurd hname (Finset.notMem_empty name)
  have hafter := (backupPartitions_failed list hfail).2
  have hclean : ∀ name ∈ (backupPartitions env partitions list ⟨names, ∅⟩).2.written,
      name ≠ recoveryLog → name ∉ (backupPartitions env partitions list ⟨names, ∅⟩).2.names := by
    intro name hname hne
    rw [hafter] at hname
    have hw := (mem_afterFailure_written hname).resolve_right hne
    rw [(mem_names_iff_stays hfail hw).2]
    exact hgone name hw
  refine ⟨hclean, ?_, ?_⟩
  · intro name hname hin
    by_cases hlog : name = recoveryLog
    · rw [hlog]
      rfl
    · exact absurd hin (hclean name hname hlog)
  · intro name hname
    rw [hafter]
    rcases (backupMembers_changes (list.flatMap (members partitions))).kept hname with
      hin | ⟨target, hw, hgz⟩
    · by_cases hc : env.folderOpens = true ∧ cleans env name = true
      · exact .inr (.inl (afterLastDot_of_cleans hc.2))
      · exact .inl (mem_afterFailure_of_mem hin hc)
    · exact .inr (.inr ⟨target, written_subset_afterFailure hw, hgz⟩)

end failure

variable (env : BackupWorld) (partitions : Partitions)

/-- A failed run leaves nothing but its log, and none of it for a restore, just if none of the
files that it opens is an archive with a number or lies in a subfolder, and the folder can be
listed. -/
theorem leavesNothing_iff (list : List ℕ) (names : Finset Text)
    (hfail : (backupPartitions env partitions list ⟨names, ∅⟩).1 = false) :
    LeavesNothing ⟨names, ∅⟩ (backupPartitions env partitions list ⟨names, ∅⟩).2 ↔
      AllCleanable env (list.flatMap (members partitions)) ⟨names, ∅⟩ :=
  ⟨allCleanable_of_leavesNothing hfail, leavesNothing_of_allCleanable hfail⟩

/-! A backup of `/data` in which no file can be added to the archive. -/

def dataPartition : TWPartition :=
  { mountPoint := "/data".toList
    symlinkMountPoint := []
    backupPath := "/data".toList
    backupName := "data".toList
    backupFileName := []
    currentFileSystem := "ext4".toList
    canBeBackedUp := true
    canBeAdvBackedUp := false
    isPresent := true
    mountReadOnly := false
    isSubPartition := false
    hasSubPartition := false
    subPartitionOf := [] }

/-- The device is full: archives are opened and nothing can be added to them. -/
def fullDevice : TarWorld :=
  { mounts := true
    forks := true
    listsMade := true
    threadStarts := fun _ => true
    lstat := fun _ => .other
    opens := fun _ => true
    starts := fun _ => true
    adds := fun _ _ => false
    flushes := fun _ => true
    filled := fun _ => true
    exits := true
    infoSaved := true }

def dataWorld (layout : SplitLayout) : BackupWorld :=
  { backupFolder := "/b".toList
    adbbackup := false
    generateDigest := true
    digestConfig := ⟨false, true⟩
    digestReads := fun _ => true
    digestOpens := fun _ => true
    device := fun _ =>
      { method := .files
        currentFileSystem := "ext4".toList
        isWord := by decide
        tarWorld := fullDevice
        tarSettings :=
          { layout := layout
            useCompression := false
            backupSize := 1
            itemList := fun t => [⟨"/data/app".toList, t⟩] }
        streams := true
        sourceOpens := true
        destOpens := true
        copies := true
        dumped := none }
    folderOpens := true
    logCopied := true }

theorem leavesNothing_plain :
    (backupPartitions (dataWorld .plain) [dataPartition] [0] ⟨∅, ∅⟩).1 = false ∧
    LeavesNothing ⟨∅, ∅⟩ (backupPartitions (dataWorld .plain) [dataPartition] [0] ⟨∅, ∅⟩).2 := by
  refine ⟨rfl, (leavesNothing_iff (dataWorld .plain) [dataPartition] [0] ∅ rfl).mpr ⟨?_, ?_⟩⟩
  · intro _
    refine ⟨rfl, by decide, ?_⟩
    intro h
    exact absurd h.2.2.2.1 (by decide)
  · intro h
    exact absurd h (by decide)

/-- An encrypted backup leaves its first archive, which a restore takes for a whole backup. -/
theorem not_leavesNothing_encrypted :
    (backupPartitions (dataWorld (.encrypted ⟨1, by decide⟩)) [dataPartition] [0] ⟨∅, ∅⟩).1 =
      false ∧
    "data.ext4.win000".toList ∈
      (backupPartitions (dataWorld (.encrypted ⟨1, by decide⟩)) [dataPartition] [0]
        ⟨∅, ∅⟩).2.names ∧
    parseArchive "data.ext4.win000".toList = some ("data".toList, "data.ext4.win".toList) ∧
    ¬LeavesNothing ⟨∅, ∅⟩
      (backupPartitions (dataWorld (.encrypted ⟨1, by decide⟩)) [dataPartition] [0]
        ⟨∅, ∅⟩).2 := by
  refine ⟨rfl, by decide, by decide, fun h => ?_⟩
  exact h.gone "data.ext4.win000".toList (by decide) (by decide) (by decide)

end BootableRecovery.Twrp.CleanBackup
