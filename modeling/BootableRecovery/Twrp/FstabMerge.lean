import BootableRecovery.Twrp.Fstab

namespace BootableRecovery.Twrp
open Lib

/-! When the fstab is merged by mount points: the lines alone tell. -/

instance decidableSameMountPoint (line other : FstabLine) :
    Decidable (line.SameMountPoint other) :=
  inferInstanceAs (Decidable (_ ∧ _ ∧ _))

/-- The first line with its mount point, and where its partition is mounted. -/
structure MountedLine where
  line : FstabLine
  mountPoint : Text
  fromFlags : Bool

variable (env : FstabEnv)

/-- The mount point of a new partition. -/
def mountAs (earlier : List MountedLine) (line : FstabLine) : Option Text :=
  if line.isAuto then some ("/auto".toList ++ decimal (earlier.countP fun m => m.line.isAuto))
  else if isFileSystem line.fileSystem then some (canonicalMountPoint line.mountPoint)
  else if isImage line.fileSystem then some line.mountPoint
  else none

/-- A valid line opens its mount point where no earlier line has. -/
def openLine (fromFlags : Bool) (earlier : List MountedLine) (line : FstabLine) :
    List MountedLine :=
  match mountAs earlier line with
  | none => earlier
  | some mountPoint =>
    if ∃ m ∈ earlier, line.SameMountPoint m.line then earlier
    else earlier ++ [⟨line, mountPoint, fromFlags⟩]

/-- The path that `Find_Partition_By_Path` compares the mount points with. -/
def lookedUp (path : Text) : Option Text :=
  let localPath := getRootPath path
  if env.withoutPersist && localPath = "/persist".toList then none
  else some (if localPath = "/system".toList then androidRootPath else localPath)

/-- The first earlier line that is mounted where a path is looked up. -/
def earlierLine (earlier : List MountedLine) (path : Text) : Option MountedLine :=
  (lookedUp env path).bind fun localPath => earlier.find? fun m => m.mountPoint = localPath

/-- Only a line of the second version with file system flags is looked up. -/
def additionalTo (earlier : List MountedLine) (line : FstabLine) : Option MountedLine :=
  if line.version2 && line.fsFlags.isSome then earlierLine env earlier line.mountPoint else none

/-- The lookup finds the line with the same mount point: another one never, and that one if the
line is valid. -/
def LineMerges (earlier : List MountedLine) (line : FstabLine) : Prop :=
  (∀ m, additionalTo env earlier line = some m → line.SameMountPoint m.line) ∧
    (line.valid → ∀ m ∈ earlier, line.SameMountPoint m.line →
      additionalTo env earlier line = some m)

def LinesMerge : List MountedLine → List FstabLine → Prop
  | _, [] => True
  | earlier, line :: lines =>
    LineMerges env earlier line ∧ LinesMerge (openLine false earlier line) lines

/-- A line of `twrp.flags` whose key is found has the mount point of a line of the fstab; one
whose key is not found merges as the others do, and not into a partition of `twrp.flags`. -/
def EntryMerges (earlier : List MountedLine) (e : Text × FstabLine) : Prop :=
  match earlierLine env earlier e.1 with
  | some _ => e.2.valid → ∃ m ∈ earlier, m.fromFlags = false ∧ e.2.SameMountPoint m.line
  | none => LineMerges env earlier e.2 ∧
      (e.2.valid → ∀ m, additionalTo env earlier e.2 = some m → m.fromFlags = false)

def EntriesMerge : List MountedLine → List (Text × FstabLine) → Prop
  | _, [] => True
  | earlier, e :: es => EntryMerges env earlier e ∧ EntriesMerge (openLine true earlier e.2) es

/-- The lines that the map of `twrp.flags` keeps. -/
def flagsLines (twrpFlags : FstabText) : List (Text × FstabLine) :=
  (flagsEntries env twrpFlags).filterMap fun e => (parseFstabLine e.2).map fun line => (e.1, line)

/-- The lines of both files that are processed. -/
def processedLines (fstab twrpFlags : FstabText) : List FstabLine :=
  fstabLines env fstab twrpFlags ++ (flagsLines env twrpFlags).map Prod.snd

/-- The lookups tell the mount points apart, and the lines that are left out name no mount point
of their own. -/
structure TellsMountPoints (fstab twrpFlags : FstabText) : Prop where
  lines : LinesMerge env [] (fstabLines env fstab twrpFlags)
  entries : EntriesMerge env ((fstabLines env fstab twrpFlags).foldl (openLine false) [])
    (flagsLines env twrpFlags)
  kept : ∀ line ∈ validLines fstab twrpFlags, line.isAuto = false →
    ∃ other ∈ processedLines env fstab twrpFlags, other.valid ∧ line.SameMountPoint other
  autos : (processedLines env fstab twrpFlags).countP FstabLine.isAuto =
    (validLines fstab twrpFlags).countP FstabLine.isAuto

/-! ### The lines behind a table -/

def FstabPartition.mounted (p : FstabPartition) : MountedLine :=
  ⟨p.line, p.partition.mountPoint, p.flagsKey.isSome⟩

def FstabTable.mounted (t : FstabTable) : List MountedLine :=
  t.partitions.map FstabPartition.mounted

/-- The automatic mount points are counted, and there are no symlinks. -/
structure FstabTable.Plain (t : FstabTable) : Prop where
  autoIndex : t.autoIndex = t.mounted.countP fun m => m.line.isAuto
  symlinks : ∀ p ∈ t.partitions, p.partition.symlinkMountPoint = []
  valid : ∀ p ∈ t.partitions, p.line.isAuto = false →
    canonicalMountPoint p.partition.mountPoint = canonicalMountPoint p.line.mountPoint

section
variable {env} {t : FstabTable}

theorem mountedAt_eq {p : TWPartition} (hp : p.symlinkMountPoint = []) (path : Text) :
    p.mountedAt path = decide (p.mountPoint = path) := by
  simp [TWPartition.mountedAt, hp]

theorem findIdx?_mountedAt {ps : List FstabPartition}
    (hps : ∀ p ∈ ps, p.partition.symlinkMountPoint = []) (path : Text) :
    ((ps.map FstabPartition.partition).findIdx? fun p => p.mountedAt path) =
      (ps.map FstabPartition.mounted).findIdx? fun m => m.mountPoint = path := by
  induction ps with
  | nil => rfl
  | cons p ps ih =>
    rw [List.map_cons, List.map_cons, List.findIdx?_cons, List.findIdx?_cons,
      mountedAt_eq (hps p List.mem_cons_self), ih fun q hq => hps q (List.mem_cons_of_mem p hq)]
    rfl

/-- The lookup in the table is a lookup in its lines. -/
theorem FstabTable.Plain.find_eq (ht : t.Plain) (path : Text) :
    (t.find env path).bind (fun i => t.mounted[i]?) = earlierLine env t.mounted path := by
  unfold FstabTable.find findPartitionByPath earlierLine lookedUp
  dsimp only
  split_ifs
  · rfl
  · rw [findIdx?_mountedAt ht.symlinks, ← FstabTable.mounted]
    exact List.find?_eq_bind_findIdx?_getElem?.symm
  · rw [findIdx?_mountedAt ht.symlinks, ← FstabTable.mounted]
    exact List.find?_eq_bind_findIdx?_getElem?.symm

theorem FstabTable.find_lt {path : Text} {i : ℕ} (h : t.find env path = some i) :
    i < t.partitions.length := by
  unfold FstabTable.find findPartitionByPath at h
  dsimp only at h
  split_ifs at h <;>
  · obtain ⟨hi, -⟩ := List.findIdx?_eq_some_iff_getElem.mp h
    rwa [List.length_map] at hi

theorem FstabTable.Plain.find_some (ht : t.Plain) {path : Text} {i : ℕ}
    (h : t.find env path = some i) :
    ∃ p, t.partitions[i]? = some p ∧ earlierLine env t.mounted path = some p.mounted := by
  have hi := FstabTable.find_lt h
  refine ⟨t.partitions[i], List.getElem?_eq_getElem hi, ?_⟩
  rw [← ht.find_eq, h, Option.bind_some, FstabTable.mounted, List.getElem?_map,
    List.getElem?_eq_getElem hi]
  rfl

theorem FstabTable.Plain.find_none (ht : t.Plain) {path : Text} (h : t.find env path = none) :
    earlierLine env t.mounted path = none := by
  rw [← ht.find_eq, h]
  rfl

theorem nameFileSystem_mountPoint (p : TWPartition) (isSuper : Bool) :
    (nameFileSystem p isSuper).mountPoint = canonicalMountPoint p.mountPoint ∧
      (nameFileSystem p isSuper).symlinkMountPoint = p.symlinkMountPoint := by
  rw [nameFileSystem, canonicalMountPoint]
  dsimp only
  split_ifs <;> exact ⟨rfl, rfl⟩

theorem nameImage_mountPoint (p : TWPartition) :
    (nameImage p).mountPoint = p.mountPoint ∧
      (nameImage p).symlinkMountPoint = p.symlinkMountPoint := by
  rw [nameImage]
  dsimp only
  split_ifs <;> exact ⟨rfl, rfl⟩

/-- Where the partition of a line is mounted. -/
theorem processEntry_eq_none (earlier : List MountedLine) (line : FstabLine) (autoIndex : ℕ) :
    processEntry env line autoIndex = none ↔ mountAs earlier line = none := by
  unfold processEntry processFstabLine mountAs FstabLine.isAuto
  dsimp only
  split_ifs <;> simp_all

theorem processEntry_mountPoint {earlier : List MountedLine} {line : FstabLine} {p : TWPartition}
    (h : processEntry env line (earlier.countP fun m => m.line.isAuto) = some p) :
    mountAs earlier line = some p.mountPoint ∧ p.symlinkMountPoint = [] := by
  unfold processEntry processFstabLine at h
  unfold mountAs FstabLine.isAuto
  dsimp only at h
  split_ifs at h with hauto hfs himg
  · rw [if_pos (decide_eq_true hauto), ← Option.some.inj h]
    exact ⟨rfl, rfl⟩
  · rw [if_neg (by simpa using hauto), if_pos hfs, ← Option.some.inj h]
    obtain ⟨hm, hs⟩ := nameFileSystem_mountPoint ⟨line.mountPoint, [], line.mountPoint, [], [],
      (env.device line).currentFileSystem, false, false, (env.device line).isPresent,
      (env.device line).mountReadOnly, false, false, []⟩ false
    exact ⟨congrArg some hm.symm, hs⟩
  · rw [if_neg (by simpa using hauto), if_neg hfs, if_pos himg, ← Option.some.inj h]
    obtain ⟨hm, hs⟩ := nameImage_mountPoint ⟨line.mountPoint, [], line.mountPoint, [], [],
      (env.device line).currentFileSystem, false, false, (env.device line).isPresent,
      (env.device line).mountReadOnly, false, false, []⟩
    exact ⟨congrArg some hm.symm, hs⟩

variable (env)

/-- What a line does: it is folded into a partition, left out, or makes a partition. -/
theorem FstabTable.Plain.processLine_cases (ht : t.Plain) (flagsKey : Option Text)
    (line : FstabLine) :
    (∃ i p, t.partitions[i]? = some p ∧ additionalTo env t.mounted line = some p.mounted ∧
        t.processLine env flagsKey line =
          ⟨t.partitions.modify i fun p => p.save line, t.autoIndex⟩) ∨
      (additionalTo env t.mounted line = none ∧ mountAs t.mounted line = none ∧
        t.processLine env flagsKey line = t) ∨
      (∃ p, additionalTo env t.mounted line = none ∧ mountAs t.mounted line = some p.mountPoint ∧
        p.symlinkMountPoint = [] ∧ t.processLine env flagsKey line =
          ⟨t.partitions ++ [⟨p, line, flagsKey, []⟩],
            if line.mountPoint = "auto".toList then t.autoIndex + 1 else t.autoIndex⟩) := by
  have hadd : (∃ i p, t.additionalEntry env line = some i ∧ t.partitions[i]? = some p ∧
        additionalTo env t.mounted line = some p.mounted) ∨
      (t.additionalEntry env line = none ∧ additionalTo env t.mounted line = none) := by
    unfold FstabTable.additionalEntry additionalTo
    split_ifs
    · rcases hi : t.find env line.mountPoint with _ | i
      · exact Or.inr ⟨rfl, ht.find_none hi⟩
      · obtain ⟨p, hp⟩ := ht.find_some hi
        exact Or.inl ⟨i, p, rfl, hp⟩
    · exact Or.inr ⟨rfl, rfl⟩
  unfold FstabTable.processLine
  obtain ⟨i, p, hi, hp, hto⟩ | ⟨hi, hto⟩ := hadd
  · rw [hi]
    exact Or.inl ⟨i, p, hp, hto, rfl⟩
  · rw [hi, hto]
    refine Or.inr ?_
    rcases hentry : processEntry env line t.autoIndex with _ | p
    · exact Or.inl ⟨rfl, (processEntry_eq_none ..).mp hentry, rfl⟩
    · obtain ⟨hmount, hsym⟩ := processEntry_mountPoint (ht.autoIndex ▸ hentry)
      exact Or.inr ⟨p, rfl, hmount, hsym, rfl⟩

variable {env}

theorem forall_mem_modify {α : Type*} {P : α → Prop} {f : α → α} {l : List α} {i : ℕ} {a : α}
    (ha : l[i]? = some a) (hf : ∀ b, P (f b) → P b) :
    (∀ b ∈ l.modify i f, P b) ↔ (∀ b ∈ l, P b) ∧ P (f a) := by
  obtain ⟨hi, rfl⟩ := List.getElem?_eq_some_iff.mp ha
  constructor
  · intro h
    refine ⟨fun b hb => ?_, h _ ?_⟩
    · obtain ⟨j, hj, rfl⟩ := List.getElem_of_mem hb
      by_cases hij : i = j
      · subst hij
        exact hf _ (h _ (List.mem_of_getElem? (by simp [hi] : (l.modify i f)[i]? = some (f l[i]))))
      · exact h _ (List.mem_of_getElem?
          (by simp [hj, hij] : (l.modify i f)[j]? = some l[j]))
    · exact List.mem_of_getElem? (by simp [hi] : (l.modify i f)[i]? = some (f l[i]))
  · intro h b hb
    obtain ⟨j, hj⟩ := List.mem_iff_getElem?.mp hb
    rw [List.getElem?_modify] at hj
    obtain ⟨c, hc, rfl⟩ := Option.map_eq_some_iff.mp hj
    split_ifs with hij
    · subst hij
      rw [List.getElem?_eq_getElem hi, Option.some.injEq] at hc
      exact hc ▸ h.2
    · exact h.1 c (List.mem_of_getElem? hc)

theorem map_modify_save {α : Type*} {g : FstabPartition → α} {line : FstabLine}
    (hg : ∀ p, g (p.save line) = g p) (ps : List FstabPartition) (i : ℕ) :
    (ps.modify i fun p => p.save line).map g = ps.map g := by
  apply List.ext_getElem?
  intro j
  rw [List.getElem?_map, List.getElem?_map, List.getElem?_modify]
  rcases ps[j]? with _ | p
  · rfl
  · change some _ = some _
    split_ifs
    · exact congrArg some (hg p)
    · rfl

theorem mounted_save (i : ℕ) (line : FstabLine) (n : ℕ) :
    FstabTable.mounted ⟨t.partitions.modify i fun p => p.save line, n⟩ = t.mounted :=
  map_modify_save (fun _ => rfl) ..

theorem canonicalMountPoint_idem (path : Text) :
    canonicalMountPoint (canonicalMountPoint path) = canonicalMountPoint path := by
  by_cases h : path = "/".toList ∨ path = "/system".toList ∨ path = "/system_root".toList
  · have hroot : canonicalMountPoint path = androidRootPath := if_pos h
    rw [hroot]
    decide
  · have hpath : canonicalMountPoint path = path := if_neg h
    rw [hpath, hpath]

theorem canonicalMountPoint_mountAs {earlier : List MountedLine} {line : FstabLine}
    {mountPoint : Text} (h : mountAs earlier line = some mountPoint) (hauto : line.isAuto = false) :
    canonicalMountPoint mountPoint = canonicalMountPoint line.mountPoint := by
  rw [mountAs, hauto, if_neg Bool.false_ne_true] at h
  split_ifs at h
  · rw [← Option.some.inj h]
    exact canonicalMountPoint_idem _
  · rw [← Option.some.inj h]

theorem mounted_append (ps : List FstabPartition) (p : FstabPartition) (m n : ℕ) :
    FstabTable.mounted ⟨ps ++ [p], n⟩ = FstabTable.mounted ⟨ps, m⟩ ++ [p.mounted] :=
  List.map_append

variable (env) in
theorem FstabTable.Plain.processLine (ht : t.Plain) (flagsKey : Option Text) (line : FstabLine) :
    (t.processLine env flagsKey line).Plain := by
  obtain ⟨i, p, hp, -, heq⟩ | ⟨-, -, heq⟩ | ⟨p, -, hmount, hsym, heq⟩ :=
    ht.processLine_cases env flagsKey line
  · have hmem := List.mem_of_getElem? hp
    rw [heq]
    refine ⟨?_, ?_, ?_⟩
    · rw [mounted_save]
      exact ht.autoIndex
    · apply (forall_mem_modify hp ?_).mpr ⟨ht.symlinks, ht.symlinks p hmem⟩
      intro q hq
      exact hq
    · apply (forall_mem_modify hp ?_).mpr ⟨ht.valid, ht.valid p hmem⟩
      intro q hq
      exact hq
  · rwa [heq]
  · rw [heq]
    refine ⟨?_, ?_, ?_⟩
    · rw [mounted_append _ _ t.autoIndex, List.countP_append, ← ht.autoIndex]
      rw [List.countP_singleton]
      change _ = _ + if line.isAuto = true then 1 else 0
      unfold FstabLine.isAuto
      split_ifs <;> simp_all
    · intro q hq
      obtain hq | hq := List.mem_append.mp hq
      · exact ht.symlinks q hq
      · rw [List.mem_singleton.mp hq]
        exact hsym
    · intro q hq hauto
      obtain hq | hq := List.mem_append.mp hq
      · exact ht.valid q hq hauto
      · rw [List.mem_singleton.mp hq] at hauto ⊢
        exact canonicalMountPoint_mountAs hmount hauto

theorem FstabLine.SameMountPoint.symm {line other : FstabLine} (h : line.SameMountPoint other) :
    other.SameMountPoint line :=
  ⟨h.2.1, h.1, h.2.2.symm⟩

theorem FstabLine.SameMountPoint.trans {line other third : FstabLine}
    (h : line.SameMountPoint other) (h' : other.SameMountPoint third) :
    line.SameMountPoint third :=
  ⟨h.1, h'.2.1, h.2.2.trans h'.2.2⟩

/-- No two lines with one mount point. -/
def Apart (ms : List MountedLine) : Prop :=
  ms.Pairwise fun m n => ¬m.line.SameMountPoint n.line

theorem Apart.eq {ms : List MountedLine} (h : Apart ms) {m n : MountedLine} (hm : m ∈ ms)
    (hn : n ∈ ms) (hsame : m.line.SameMountPoint n.line) : m = n := by
  by_contra hne
  have : Std.Symm fun m n : MountedLine => ¬m.line.SameMountPoint n.line :=
    ⟨fun _ _ hmn hnm => hmn hnm.symm⟩
  exact h.forall hm hn hne hsame

theorem apart_append {ms : List MountedLine} {m : MountedLine} :
    Apart (ms ++ [m]) ↔ Apart ms ∧ ∀ n ∈ ms, ¬m.line.SameMountPoint n.line := by
  unfold Apart
  rw [List.pairwise_append]
  constructor
  · rintro ⟨hms, -, h⟩
    exact ⟨hms, fun n hn hsame => h n hn m List.mem_cons_self hsame.symm⟩
  · rintro ⟨hms, h⟩
    refine ⟨hms, List.pairwise_singleton _ _, fun n hn m' hm' hsame => ?_⟩
    rw [List.mem_singleton.mp hm'] at hsame
    exact h n hn hsame.symm

/-- The part of the merge that the table alone shows. -/
structure FstabTable.Merged (t : FstabTable) : Prop where
  apart : Apart t.mounted
  folds : ∀ p ∈ t.partitions, ∀ line ∈ p.additional, line.SameMountPoint p.line

theorem FstabTable.Plain.apart_iff (ht : t.Plain) :
    (t.partitions.Pairwise fun p q => p.line.isAuto = false → q.line.isAuto = false →
      canonicalMountPoint p.partition.mountPoint ≠ canonicalMountPoint q.partition.mountPoint) ↔
    Apart t.mounted := by
  rw [Apart, FstabTable.mounted, List.pairwise_map]
  apply List.Pairwise.iff_of_mem
  intro p q hp hq
  constructor
  · rintro h ⟨hpa, hqa, hsame⟩
    apply h hpa hqa
    rw [ht.valid p hp hpa, ht.valid q hq hqa]
    exact hsame
  · intro h hpa hqa hsame
    apply h
    rw [ht.valid p hp hpa, ht.valid q hq hqa] at hsame
    exact ⟨hpa, hqa, hsame⟩

theorem merged_save {i : ℕ} {p : FstabPartition} (hp : t.partitions[i]? = some p)
    (line : FstabLine) (n : ℕ) :
    FstabTable.Merged ⟨t.partitions.modify i fun p => p.save line, n⟩ ↔
      t.Merged ∧ line.SameMountPoint p.line := by
  have hfolds := forall_mem_modify (P := fun q : FstabPartition =>
    ∀ line ∈ q.additional, line.SameMountPoint q.line) (f := fun p => p.save line) hp
    fun q hq other hother => hq other (List.mem_append_left _ hother)
  have hmem := List.mem_of_getElem? hp
  constructor
  · rintro ⟨hapart, h⟩
    obtain ⟨hall, hline⟩ := hfolds.mp h
    rw [mounted_save] at hapart
    exact ⟨⟨hapart, hall⟩, hline line (List.mem_append_right _ List.mem_cons_self)⟩
  · rintro ⟨⟨hapart, h⟩, hline⟩
    refine ⟨by rwa [mounted_save], hfolds.mpr ⟨h, fun other hother => ?_⟩⟩
    obtain hother | hother := List.mem_append.mp hother
    · exact h p hmem other hother
    · rw [List.mem_singleton.mp hother]
      exact hline

theorem merged_append (q : FstabPartition) (hq : q.additional = []) (n : ℕ) :
    FstabTable.Merged ⟨t.partitions ++ [q], n⟩ ↔
      t.Merged ∧ ∀ m ∈ t.mounted, ¬q.line.SameMountPoint m.line := by
  constructor
  · rintro ⟨hapart, h⟩
    rw [mounted_append _ _ t.autoIndex] at hapart
    obtain ⟨hms, hnone⟩ := apart_append.mp hapart
    exact ⟨⟨hms, fun p hp => h p (List.mem_append_left _ hp)⟩, hnone⟩
  · rintro ⟨⟨hapart, h⟩, hnone⟩
    refine ⟨?_, fun p hp => ?_⟩
    · rw [mounted_append _ _ t.autoIndex]
      exact apart_append.mpr ⟨hapart, hnone⟩
    · obtain hp | hp := List.mem_append.mp hp
      · exact h p hp
      · rw [List.mem_singleton.mp hp, hq]
        exact fun _ hother => absurd hother List.not_mem_nil

theorem FstabTable.Plain.merged_of_processLine (ht : t.Plain) {flagsKey : Option Text}
    {line : FstabLine} (h : (t.processLine env flagsKey line).Merged) : t.Merged := by
  obtain ⟨i, p, hp, -, heq⟩ | ⟨-, -, heq⟩ | ⟨p, -, -, -, heq⟩ :=
    ht.processLine_cases env flagsKey line
  · rw [heq] at h
    exact ((merged_save hp line _).mp h).1
  · rwa [heq] at h
  · rw [heq] at h
    exact ((merged_append _ rfl _).mp h).1

theorem valid_iff_mountAs (earlier : List MountedLine) (line : FstabLine) :
    line.valid = true ↔ ∃ mountPoint, mountAs earlier line = some mountPoint := by
  unfold FstabLine.valid mountAs
  split_ifs <;> simp_all

variable (env) in
/-- One line: the table stays merged where the lookup tells its mount point. -/
theorem FstabTable.Plain.merged_processLine_iff (ht : t.Plain) (hm : t.Merged)
    (flagsKey : Option Text) (line : FstabLine) :
    (t.processLine env flagsKey line).Merged ↔ LineMerges env t.mounted line := by
  obtain ⟨i, p, hp, hto, heq⟩ | ⟨hto, hmount, heq⟩ | ⟨p, hto, hmount, -, heq⟩ :=
    ht.processLine_cases env flagsKey line
  · have hmem : p.mounted ∈ t.mounted := List.mem_map_of_mem (List.mem_of_getElem? hp)
    rw [heq, merged_save hp]
    constructor
    · rintro ⟨-, hline⟩
      refine ⟨fun m hsome => ?_, fun _ m hm' hsame => ?_⟩
      · rw [hto, Option.some.injEq] at hsome
        rw [← hsome]
        exact hline
      · rw [hto, hm.apart.eq hmem hm' (hline.symm.trans hsame)]
    · rintro ⟨h, -⟩
      exact ⟨hm, h p.mounted hto⟩
  · rw [heq]
    refine iff_of_true hm ⟨fun m hsome => ?_, fun hvalid => ?_⟩
    · rw [hto] at hsome
      contradiction
    · obtain ⟨mountPoint, h⟩ := (valid_iff_mountAs t.mounted line).mp hvalid
      rw [hmount] at h
      contradiction
  · rw [heq, merged_append _ rfl]
    constructor
    · rintro ⟨-, hnone⟩
      refine ⟨fun m hsome => ?_, fun _ m hm' hsame => absurd hsame (hnone m hm')⟩
      rw [hto] at hsome
      contradiction
    · rintro ⟨-, h⟩
      refine ⟨hm, fun m hm' hsame => ?_⟩
      have hsome := h ((valid_iff_mountAs _ _).mpr ⟨_, hmount⟩) m hm' hsame
      rw [hto] at hsome
      contradiction

/-- The lines of a merged table are those that open a mount point. -/
theorem FstabTable.Plain.mounted_processLine (ht : t.Plain) {flagsKey : Option Text}
    {line : FstabLine} (h : (t.processLine env flagsKey line).Merged) :
    (t.processLine env flagsKey line).mounted = openLine flagsKey.isSome t.mounted line := by
  obtain ⟨i, p, hp, -, heq⟩ | ⟨-, hmount, heq⟩ | ⟨p, -, hmount, -, heq⟩ :=
    ht.processLine_cases env flagsKey line
  · have hmem : p.mounted ∈ t.mounted := List.mem_map_of_mem (List.mem_of_getElem? hp)
    rw [heq] at h ⊢
    have hsame := ((merged_save hp line _).mp h).2
    rw [mounted_save, openLine]
    rcases mountAs t.mounted line with _ | mountPoint
    · rfl
    · exact (if_pos ⟨p.mounted, hmem, hsame⟩).symm
  · rw [heq, openLine, hmount]
  · rw [heq] at h ⊢
    have hnone := ((merged_append _ rfl _).mp h).2
    rw [openLine, hmount, mounted_append _ _ t.autoIndex]
    refine (if_neg ?_).symm
    rintro ⟨m, hm, hsame⟩
    exact hnone m hm hsame

end

end BootableRecovery.Twrp
