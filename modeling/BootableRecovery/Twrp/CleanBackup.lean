import BootableRecovery.Lib.WorkDir
import BootableRecovery.Twrp.DigestDriver
import BootableRecovery.Twrp.ExtractTar
import BootableRecovery.Twrp.RestoreFiles
import Mathlib.Data.Finset.Filter

namespace BootableRecovery.Twrp.CleanBackup
open Lib

/-! `Backup_Partition`: the files that a backup opens in its folder, and those that
`Clean_Backup_Folder` takes away when it has failed. A file is named by its path under
`Backup_Folder`. -/

abbrev BackupDir := WorkDir Text

/-- What a call comes to, and the folder behind it. -/
abbrev Outcome := Bool × BackupDir

def dotGz : Text := ".gz".toList

/-- The calls that go out of the program while the archives of a partition are made. `opens` is
`open` with what `createTar` does before it, an exclusive one that finds the file included;
`starts` is what it does after it; `flushes` and `filled` are the two halves of `closeTar`. A
child that is killed adds and closes nothing more. -/
structure TarWorld where
  mounts : Bool
  forks : Bool
  listsMade : Bool
  threadStarts : ℕ → Bool
  lstat : Text → Lstat
  opens : Text → Bool
  starts : Text → Bool
  adds : Text → Text → Bool
  flushes : Text → Bool
  filled : Text → Bool
  exits : Bool
  infoSaved : Bool

/-- The members of `twrpTar` that one thread reads. -/
structure TarThread where
  tarfn : Text
  threadId : ℕ
  splitArchives : Bool
  useEncryption : Bool
  useCompression : Bool
  adbbackup : Bool
  itemList : List TarListStruct

/-- How the files of a partition are to be archived. -/
structure TarSettings where
  layout : SplitLayout
  useCompression : Bool
  backupSize : ℕ
  itemList : ℕ → List TarListStruct

section tarList
variable (w : TarWorld) (tar : TarThread)

def TarThread.actualFilename (archiveCount : ℕ) : Text :=
  if tar.splitArchives then archiveName tar.tarfn tar.threadId archiveCount else tar.tarfn

/-- The archive goes to the computer. An encrypted one is opened in the folder even then. -/
def TarThread.toStream : Bool := tar.adbbackup && !tar.useEncryption

def createTar (name : Text) (f : BackupDir) : Outcome :=
  if tar.toStream then (w.starts name, f)
  else if w.opens name = false then (false, f)
  else (w.starts name, f.create name)

def closeTar (name : Text) (f : BackupDir) : Outcome :=
  if w.flushes name = false then (false, f)
  else if tar.adbbackup then (w.filled name, f)
  else if tar.useCompression && !tar.useEncryption then
    (w.filled name, f.move (name ++ dotGz) name)
  else (w.filled name, f)

structure TarState where
  archiveCount : ℕ
  archiveCurrentSize : ℕ
  folder : BackupDir

def nextArchive (s : TarState) : Bool × TarState :=
  let closed := closeTar w tar (tar.actualFilename s.archiveCount) s.folder
  if closed.1 = false ∨ s.archiveCount + 1 > 99 then (false, { s with folder := closed.2 })
  else
    let created := createTar w tar (tar.actualFilename (s.archiveCount + 1)) closed.2
    (created.1, ⟨s.archiveCount + 1, 0, created.2⟩)

def makeRoom (s : TarState) (size : ℕ) : Bool × TarState :=
  let next :=
    if tar.splitArchives && (s.archiveCurrentSize + size) % 2 ^ 64 > maxArchiveSize then
      nextArchive w tar s
    else (true, s)
  (next.1, { next.2 with
    archiveCurrentSize := (next.2.archiveCurrentSize + size) % 2 ^ 64 })

/-- One pass of the loop. -/
def tarStep (s : TarState) (item : TarListStruct) : Bool × TarState :=
  if item.threadId = tar.threadId then
    let room :=
      match w.lstat item.fn with
      | .other => (true, s)
      | .regular size => makeRoom w tar s size
    (room.1 && w.adds (tar.actualFilename room.2.archiveCount) item.fn, room.2)
  else (true, s)

def tarLoop : List TarListStruct → TarState → Outcome
  | [], s => closeTar w tar (tar.actualFilename s.archiveCount) s.folder
  | item :: rest, s =>
    let next := tarStep w tar s item
    if next.1 then tarLoop rest next.2 else (false, next.2.folder)

def tarList (f : BackupDir) : Outcome :=
  let created := createTar w tar (tar.actualFilename 0) f
  if created.1 then tarLoop w tar tar.itemList ⟨0, 0, created.2⟩ else created

/-- Threads that run at the same time: one that fails does not undo what the others do. -/
def runThreads : List TarThread → BackupDir → Outcome
  | [], f => (true, f)
  | tar :: rest, f =>
    let own := if w.threadStarts tar.threadId then tarList w tar f else (false, f)
    let others := runThreads rest own.2
    (own.1 && others.1, others.2)

end tarList

section createTarFork
variable (w : TarWorld) (s : TarSettings) (adbbackup : Bool) (tarfn infofn : Text)

/-- The archives are numbered. -/
def TarSettings.splits : Bool :=
  match s.layout with
  | .plain => s.backupSize > maxArchiveSize && !adbbackup
  | .encrypted _ => true
  | .userdataEncrypted _ => true

def regularThread : TarThread :=
  { tarfn := tarfn
    threadId := 0
    splitArchives := s.splits adbbackup
    useEncryption := false
    useCompression := s.useCompression
    adbbackup := adbbackup
    itemList := s.itemList 0 }

def encryptedThread (threadId : ℕ) : TarThread :=
  { tarfn := tarfn
    threadId := threadId
    splitArchives := true
    useEncryption := true
    useCompression := s.useCompression
    adbbackup := adbbackup
    itemList := s.itemList threadId }

def encryptedThreads (start coreCount : ℕ) : List TarThread :=
  (List.range' start coreCount).map (encryptedThread s adbbackup tarfn)

/-- The child of `createTarFork`. -/
def tarChild (f : BackupDir) : Outcome :=
  if w.listsMade = false then (false, f)
  else
    match s.layout with
    | .plain => tarList w (regularThread s adbbackup tarfn) f
    | .encrypted coreCount => runThreads w (encryptedThreads s adbbackup tarfn 0 coreCount) f
    | .userdataEncrypted coreCount =>
      let reg := tarList w (regularThread s adbbackup tarfn) f
      if reg.1 then runThreads w (encryptedThreads s adbbackup tarfn 1 coreCount) reg.2 else reg

/-- The parent saves the info file before it asks how the child came out. -/
def createTarFork (f : BackupDir) : Outcome :=
  if w.forks = false then (false, f)
  else
    let child := tarChild w s adbbackup tarfn f
    (child.1 && w.exits,
      if !adbbackup && w.infoSaved then child.2.create infofn else child.2)

end createTarFork

inductive BackupMethod
  | none
  | files
  | dd
  | flashUtils
  deriving DecidableEq, Repr

/-- A partition on its device. `dumped` is the size of the file that `dump_image` leaves. -/
structure Device where
  method : BackupMethod
  currentFileSystem : Text
  isWord : '/' ∉ currentFileSystem
  tarWorld : TarWorld
  tarSettings : TarSettings
  streams : Bool
  sourceOpens : Bool
  destOpens : Bool
  copies : Bool
  dumped : Option ℕ

structure BackupWorld where
  backupFolder : Text
  adbbackup : Bool
  generateDigest : Bool
  digestConfig : DigestConfig
  digestReads : Text → Bool
  digestOpens : Text → Bool
  device : ℕ → Device
  folderOpens : Bool
  logCopied : Bool

variable (env : BackupWorld) (partitions : Partitions) (member : ℕ × TWPartition)

def backupFileName : Text :=
  { member.2 with currentFileSystem := (env.device member.1).currentFileSystem }.archiveFileName

def infoName (p : TWPartition) : Text := p.backupName ++ ".info".toList

def backupTar (f : BackupDir) : Outcome :=
  let device := env.device member.1
  if device.tarWorld.mounts = false then (false, f)
  else
    createTarFork device.tarWorld device.tarSettings env.adbbackup (backupFileName env member)
      (infoName member.2) f

/-- `Raw_Read_Write`, with what an adb backup sends before and after it. -/
def backupImage (f : BackupDir) : Outcome :=
  let device := env.device member.1
  if env.adbbackup then
    (device.streams && device.sourceOpens && device.destOpens && device.copies, f)
  else if device.sourceOpens && device.destOpens then
    (device.copies, f.create (backupFileName env member))
  else (false, f)

def backupDumpImage (f : BackupDir) : Outcome :=
  match (env.device member.1).dumped with
  | none => (false, f)
  | some size => (size != 0, f.create (backupFileName env member))

/-- `TWPartition::Backup` -/
def backup (f : BackupDir) : Outcome :=
  match (env.device member.1).method with
  | .none => (false, f)
  | .files => backupTar env member f
  | .dd => backupImage env member f
  | .flashUtils => backupDumpImage env member f

def writeDigest (name : Text) (f : BackupDir) : Outcome :=
  let digestName := name ++ (writtenDigest env.digestConfig).2
  if env.digestReads name && env.digestOpens digestName then (true, f.create digestName)
  else (false, f)

/-- The loop of `Make_Digest`, with `n` numbers to go: the index it stops at. -/
def makeSplit (base : Text) : ℕ → ℕ → BackupDir → Option ℕ × BackupDir
  | 0, index, f => (some index, f)
  | n + 1, index, f =>
    if splitFilename base index ∈ f.names then
      let digest := writeDigest env (splitFilename base index) f
      if digest.1 then makeSplit base n (index + 1) digest.2 else (none, digest.2)
    else (some index, f)

def makeDigest (base : Text) (f : BackupDir) : Outcome :=
  if base ∈ f.names then writeDigest env base f
  else
    let digests := makeSplit env base 1000 0 f
    (digests.1.getD 0 != 0, digests.2)

def backupOne (f : BackupDir) : Outcome :=
  let own := backup env member f
  if own.1 && !env.adbbackup && env.generateDigest then
    makeDigest env (backupFileName env member) own.2
  else own

def backupMembers : List (ℕ × TWPartition) → BackupDir → Outcome
  | [], f => (true, f)
  | member :: rest, f =>
    let own := backupOne env member f
    if own.1 then backupMembers rest own.2 else own

/-- What follows the last dot: all of the path where there is none. -/
def afterLastDot (path : Text) : Text := (path.reverse.takeWhile fun c => c != '.').reverse

def cleanExtensions : List Text :=
  ["win".toList, "md5".toList, "sha2".toList, "info".toList]

/-- The entries that are unlinked. A path with a slash is no entry of the folder. -/
def cleans (name : Text) : Bool :=
  name ≠ ".".toList && name ≠ "..".toList && '/' ∉ name &&
    cleanExtensions.any fun extension =>
      afterLastDot (env.backupFolder ++ '/' :: name) = extension

def cleanBackupFolder (f : BackupDir) : BackupDir :=
  if env.folderOpens then { f with names := f.names.filter fun name => cleans env name = false }
  else f

def recoveryLog : Text := "recovery.log".toList

/-- Where it fails it cleans the folder and leaves its log there. -/
def backupPartition (i : ℕ) (f : BackupDir) : Outcome :=
  let own := backupMembers env (members partitions i) f
  if own.1 then own
  else
    (false,
      if env.logCopied then (cleanBackupFolder env own.2).create recoveryLog
      else cleanBackupFolder env own.2)

/-- The partitions of a backup list, until one fails. -/
def backupPartitions : List ℕ → BackupDir → Outcome
  | [], f => (true, f)
  | i :: rest, f =>
    let own := backupPartition env partitions i f
    if own.1 then backupPartitions rest own.2 else own

/-- Nothing that the run wrote is left but its log, so none of it is offered. What has gone was
for the clean-up by its name, or the compressed file of an archive. -/
structure LeavesNothing (before after : BackupDir) : Prop where
  gone : ∀ name ∈ after.written, name ≠ recoveryLog → name ∉ after.names
  notOffered : ∀ name ∈ after.written, name ∈ after.names → parseArchive name = none
  kept : ∀ name ∈ before.names, name ∈ after.names ∨ afterLastDot name ∈ cleanExtensions ∨
    ∃ archive ∈ after.written, name = archive ++ dotGz

/-! ### The files that are opened -/

/-- The first archive of the thread is opened in the folder. -/
def TarThread.OpensFirst (w : TarWorld) (tar : TarThread) : Prop :=
  tar.toStream = false ∧ w.opens (tar.actualFilename 0) = true

def ThreadsOpen (w : TarWorld) (threads : List TarThread) : Prop :=
  ∃ tar ∈ threads, w.threadStarts tar.threadId = true ∧ tar.OpensFirst w

/-- The child opens an archive in the folder. -/
def TarOpens (w : TarWorld) (s : TarSettings) (adbbackup : Bool) (tarfn : Text) (f : BackupDir) :
    Prop :=
  w.listsMade = true ∧
    match s.layout with
    | .plain => (regularThread s adbbackup tarfn).OpensFirst w
    | .encrypted coreCount => ThreadsOpen w (encryptedThreads s adbbackup tarfn 0 coreCount)
    | .userdataEncrypted coreCount =>
      (regularThread s adbbackup tarfn).OpensFirst w ∨
        (tarList w (regularThread s adbbackup tarfn) f).1 = true ∧
          ThreadsOpen w (encryptedThreads s adbbackup tarfn 1 coreCount)

/-- The partition is archived under numbers, and the first such archive is opened. -/
def OpensNumbered (f : BackupDir) : Prop :=
  let device := env.device member.1
  device.method = .files ∧ device.tarWorld.mounts = true ∧ device.tarWorld.forks = true ∧
    device.tarSettings.splits env.adbbackup = true ∧
    TarOpens device.tarWorld device.tarSettings env.adbbackup (backupFileName env member) f

/-- Some file of the partition is opened in the folder. -/
def OpensFile (f : BackupDir) : Prop :=
  let device := env.device member.1
  match device.method with
  | .none => False
  | .files =>
    device.tarWorld.mounts = true ∧ device.tarWorld.forks = true ∧
      (TarOpens device.tarWorld device.tarSettings env.adbbackup (backupFileName env member) f ∨
        env.adbbackup = false ∧ device.tarWorld.infoSaved = true)
  | .dd => env.adbbackup = false ∧ device.sourceOpens = true ∧ device.destOpens = true
  | .flashUtils => device.dumped.isSome = true

/-- A partition of which a file is opened: the folder can be listed, the backup name leads into
no other, and no archive is numbered. -/
def Cleanable (f : BackupDir) : Prop :=
  OpensFile env member f →
    env.folderOpens = true ∧ '/' ∉ member.2.backupName ∧ ¬OpensNumbered env member f

/-- Every partition that the run comes to is of that kind. -/
def AllCleanable : List (ℕ × TWPartition) → BackupDir → Prop
  | [], _ => True
  | member :: rest, f =>
    Cleanable env member f ∧
      ((backupOne env member f).1 = true → AllCleanable rest (backupOne env member f).2)

/-! ### The names of a run, and which of them are cleaned -/

section names
variable {env : BackupWorld} {member : ℕ × TWPartition} {f : BackupDir} {name : Text}

/-- The moves of `closeTar`. -/
def IsGzOf (source target : Text) : Prop := source = target ++ dotGz

theorem afterLastDot_append (s : Text) {e : Text} (h : '.' ∉ e) :
    afterLastDot (s ++ '.' :: e) = e := by
  have hnot : ∀ c ∈ e.reverse, (c != '.') = true := by
    intro c hc
    rw [bne_iff_ne]
    rintro rfl
    exact h (List.mem_reverse.mp hc)
  rw [afterLastDot, List.reverse_append, List.reverse_cons, List.append_assoc,
    List.takeWhile_append_of_pos hnot]
  simp

/-- The folder's own dots do not matter: an ending has no slash. -/
theorem afterLastDot_of_path {folder : Text}
    (h : '/' ∉ afterLastDot (folder ++ '/' :: name)) :
    afterLastDot (folder ++ '/' :: name) = afterLastDot name := by
  have hrev : (folder ++ '/' :: name).reverse = name.reverse ++ '/' :: folder.reverse := by simp
  unfold afterLastDot at h ⊢
  rw [hrev, List.takeWhile_append] at h ⊢
  split_ifs at h ⊢ with hall
  · simp at h
  · rfl

theorem afterLastDot_of_cleans (h : cleans env name = true) :
    afterLastDot name ∈ cleanExtensions := by
  unfold cleans at h
  simp only [Bool.and_eq_true, decide_eq_true_eq, List.any_eq_true, exists_eq_right'] at h
  rw [afterLastDot_of_path] at h
  · exact h.2
  · have hslash : ∀ e ∈ cleanExtensions, '/' ∉ e := by decide
    exact hslash _ h.2

theorem cleans_append {s e : Text} (hslash : '/' ∉ s) (he : e ∈ cleanExtensions) :
    cleans env (s ++ '.' :: e) = true := by
  have hall : ∀ e ∈ cleanExtensions, '/' ∉ e ∧ '.' ∉ e ∧ e ≠ [] := by decide
  obtain ⟨heslash, hedot, hne⟩ := hall e he
  have hafter : ∀ t : Text, afterLastDot (t ++ '.' :: e) = e := fun t => afterLastDot_append t hedot
  have hpath : env.backupFolder ++ '/' :: (s ++ '.' :: e) =
      (env.backupFolder ++ '/' :: s) ++ '.' :: e := by simp
  have hdots : ∀ t : Text, afterLastDot t = [] → s ++ '.' :: e ≠ t := by
    rintro t ht rfl
    exact hne ((hafter s).symm.trans ht)
  have hone : s ++ '.' :: e ≠ ['.'] := hdots _ rfl
  have htwo : s ++ '.' :: e ≠ ['.', '.'] := hdots _ rfl
  unfold cleans
  rw [hpath, hafter]
  simp [he, hslash, heslash, hone, htwo]

variable (env member) in
/-- The names that a partition's files are opened under. -/
inductive FileName (f : BackupDir) : Text → Prop
  | archive : FileName f (backupFileName env member)
  | numbered (t i : ℕ) (h : OpensNumbered env member f) :
      FileName f (archiveName (backupFileName env member) t i)
  | info : FileName f (infoName member.2)
  | digest (number : Text) (h : ∀ c ∈ number, c.isDigit = true) :
      FileName f (backupFileName env member ++ (number ++ (writtenDigest env.digestConfig).2))

theorem backupFileName_eq : backupFileName env member =
    (member.2.backupName ++ '.' :: (env.device member.1).currentFileSystem) ++ '.' ::
      "win".toList := by
  simp [backupFileName, TWPartition.archiveFileName]

theorem writtenDigest_eq (cfg : DigestConfig) :
    ∃ e ∈ cleanExtensions, (writtenDigest cfg).2 = '.' :: e := by
  rcases writtenDigest_mem cfg with ⟨h, -⟩ | h
  · exact ⟨"sha2".toList, by decide, h⟩
  · exact ⟨"md5".toList, by decide, h⟩

theorem FileName.slash (h : FileName env member f name) (hs : '/' ∈ member.2.backupName) :
    '/' ∈ name := by
  have hbase : '/' ∈ backupFileName env member := by
    rw [backupFileName_eq]
    simp [hs]
  cases h with
  | archive => exact hbase
  | numbered t i _ => exact List.mem_append_left _ hbase
  | info => exact List.mem_append_left _ hs
  | digest number _ => exact List.mem_append_left _ hbase

theorem FileName.cleans (h : FileName env member f name) (hs : '/' ∉ member.2.backupName)
    (hn : ¬OpensNumbered env member f) : cleans env name = true := by
  have hstem : '/' ∉ member.2.backupName ++ '.' :: (env.device member.1).currentFileSystem := by
    simp [hs, (env.device member.1).isWord]
  have hbase : '/' ∉ backupFileName env member := by
    rw [backupFileName_eq, List.mem_append, not_or]
    exact ⟨hstem, by decide⟩
  cases h with
  | archive =>
    rw [backupFileName_eq]
    exact cleans_append hstem (by decide)
  | numbered t i h => exact absurd h hn
  | info => exact cleans_append hs (by decide)
  | digest number hdigits =>
    obtain ⟨e, he, heq⟩ := writtenDigest_eq env.digestConfig
    rw [heq, ← List.append_assoc]
    refine cleans_append ?_ he
    rw [List.mem_append, not_or]
    refine ⟨hbase, fun hmem => ?_⟩
    exact absurd (hdigits _ hmem) (by decide)

theorem isDigit_of_mem_numbers {t i : ℕ} {c : Char} (h : c ∈ decimal t ++ padded 2 i) :
    c.isDigit = true := by
  rcases List.mem_append.mp h with h | h
  · exact isDigit_of_mem_decimal h
  · exact isDigit_of_mem_padded h

/-- A number behind the ending makes another ending. -/
theorem not_cleans_numbered (t i : ℕ) :
    CleanBackup.cleans env (archiveName (backupFileName env member) t i) = false := by
  have hdot : '.' ∉ "win".toList ++ (decimal t ++ padded 2 i) := by
    rw [List.mem_append, not_or]
    refine ⟨by decide, fun h => ?_⟩
    exact absurd (isDigit_of_mem_numbers h) (by decide)
  have hname : archiveName (backupFileName env member) t i =
      (member.2.backupName ++ '.' :: (env.device member.1).currentFileSystem) ++ '.' ::
        ("win".toList ++ (decimal t ++ padded 2 i)) := by
    rw [archiveName, backupFileName_eq]
    simp
  by_contra hc
  rw [Bool.not_eq_false] at hc
  have hend := afterLastDot_of_cleans hc
  rw [hname, afterLastDot_append _ hdot] at hend
  obtain ⟨c, l, hl⟩ := List.exists_cons_of_ne_nil (decimal_ne_nil t)
  have hc : c.isDigit = true := isDigit_of_mem_decimal (n := t) (by simp [hl])
  have hfour : ∀ e ∈ cleanExtensions, e.take 3 = "win".toList → e.length = 3 := by decide
  have hlen := hfour _ hend (by simp)
  simp [hl] at hlen

/-- What no other step of the run takes away or writes. -/
def Lasting (name : Text) : Prop := ∃ c, name.getLast? = some c ∧ c ≠ 'z' ∧ c ≠ 'g'

theorem Lasting.ne_recoveryLog (h : Lasting name) : name ≠ recoveryLog := by
  rintro rfl
  obtain ⟨c, hc, -, hg⟩ := h
  exact hg (Option.some.inj hc).symm

theorem not_lasting_of_isGzOf {source target : Text} (h : IsGzOf source target) :
    ¬Lasting source := by
  rintro ⟨c, hc, hz, -⟩
  rw [h, List.getLast?_append] at hc
  exact hz (Option.some.inj hc).symm

theorem lasting_append (s : Text) {e : Text} (h : Lasting e) : Lasting (s ++ e) := by
  obtain ⟨c, hc, hne⟩ := h
  exact ⟨c, by rw [List.getLast?_append, hc]; rfl, hne⟩

theorem FileName.lasting (h : FileName env member f name) : Lasting name := by
  have hend : ∀ e ∈ cleanExtensions, Lasting ('.' :: e) := by
    intro e he
    have hlast : ∀ e ∈ cleanExtensions, ('.' :: e).getLast? ≠ none ∧
        ('.' :: e).getLast? ≠ some 'z' ∧ ('.' :: e).getLast? ≠ some 'g' := by decide
    obtain ⟨hnone, hz, hg⟩ := hlast e he
    obtain ⟨c, hc⟩ := Option.ne_none_iff_exists'.mp hnone
    rw [hc] at hz hg
    exact ⟨c, hc, fun h => hz (congrArg some h), fun h => hg (congrArg some h)⟩
  cases h with
  | archive =>
    rw [backupFileName_eq]
    exact lasting_append _ (hend _ (by decide))
  | numbered t i _ =>
    refine lasting_append _ ?_
    have hne : decimal t ++ padded 2 i ≠ [] := by simp [decimal_ne_nil]
    refine ⟨_, List.getLast?_eq_some_getLast hne, ?_⟩
    have hdigit := isDigit_of_mem_numbers (List.getLast_mem hne)
    refine ⟨?_, ?_⟩ <;> intro heq <;> rw [heq] at hdigit <;> exact absurd hdigit (by decide)
  | info => exact lasting_append _ (hend _ (by decide))
  | digest number _ =>
    obtain ⟨e, he, heq⟩ := writtenDigest_eq env.digestConfig
    rw [heq, ← List.append_assoc]
    exact lasting_append _ (hend e he)

end names

end BootableRecovery.Twrp.CleanBackup
