import BootableRecovery.Twrp.Files
import BootableRecovery.Twrp.RestoreFiles
import Mathlib.Data.List.Nodup

namespace BootableRecovery.Twrp
open Lib

/-! A backup folder, from the run that wrote it to the list of a restore. -/

/-- The files of one call of `Backup`: a single archive, or those of a split. -/
def IsArchiveOf (base name : Text) : Prop := name = base ∨ ∃ t i, name = archiveName base t i

/-- What else is in a folder: the two directory links, digests, info files and the log. -/
def extraEndings : List Text :=
  [".".toList, ".sha2".toList, ".md5".toList, ".info".toList, ".log".toList]

/-- `names` is the folder after the calls `written`, in the order of `readdir`. -/
structure ProducedFolder (written : List (ℕ × Text)) (names : List Text) : Prop where
  nodup : names.Nodup
  archive : ∀ w ∈ written, w.2 ∈ names ∨ archiveName w.2 0 0 ∈ names
  oneLayout : ∀ w ∈ written, (written.map Prod.snd).count w.2 = 1 →
    ¬(w.2 ∈ names ∧ archiveName w.2 0 0 ∈ names)
  only : ∀ name ∈ names,
    (∃ w ∈ written, IsArchiveOf w.2 name) ∨ ∃ ending ∈ extraEndings, ending <:+ name

variable (withoutPersist : Bool) (partitions : Partitions)

/-- The partition was backed up, and no other call wrote over its archive. -/
def BackedUp (written : List (ℕ × Text)) (i : ℕ) (base : Text) : Prop :=
  (i, base) ∈ written ∧ (written.map Prod.snd).count base = 1

/-- Whatever the table held before, the folder brings the partition back. -/
structure ComesBack (names : List Text) (item : ℕ × TWPartition) (base : Text) : Prop where
  once : ∀ files,
    (listPaths (setRestoreFiles withoutPersist (named partitions files) names).2).count
      item.2.restorePath = 1
  resolves : findPartitionByPath withoutPersist partitions item.2.restorePath = some item.1
  fileName : ∀ files,
    ((setRestoreFiles withoutPersist (named partitions files) names).1[item.1]?).map
      TWPartition.backupFileName = some base

def FolderRoundTrip (sel : List (ℕ × TWPartition)) (written : List (ℕ × Text))
    (names : List Text) : Prop :=
  ∀ item ∈ sel, ∃ base, BackedUp written item.1 base ∧
    ComesBack withoutPersist partitions names item base

/-- The partition that an archive is restored to, going by its name. -/
def restoreTarget (p : TWPartition) : Option ℕ :=
  if '.' ∈ p.backupName ∨ '.' ∈ p.currentFileSystem ∨ p.currentFileSystem = "log".toList then none
  else findPartitionByPath withoutPersist partitions p.backupName

/-- Path and backup name of the partition lead to it, and those of no other archive do. -/
structure Traceable (env : BackupEnv) (sel : List (ℕ × TWPartition)) (item : ℕ × TWPartition) :
    Prop where
  path : PathFinds env partitions item
  name : restoreTarget env.withoutPersist partitions (mounted env item.1 item.2) = some item.1
  own : ((archives env partitions sel).map fun call => call.2.archiveFileName).count
    (mounted env item.1 item.2).archiveFileName = 1
  other : ∀ call ∈ archives env partitions sel,
    call.2.archiveFileName ≠ (mounted env item.1 item.2).archiveFileName →
    ∀ k, restoreTarget env.withoutPersist partitions call.2 = some k →
      k ≠ item.1 ∧ ∀ p, partitions[k]? = some p → p.isSubPartition = false →
        item.2.restorePath ∉ p.restorePath.splitOn ';'

section names

/-- A name without the numbers of a split. -/
def stem (name : Text) : Text := (name.reverse.dropWhile Char.isDigit).reverse

theorem stem_win (s : Text) {numbers : Text} (h : ∀ c ∈ numbers, c.isDigit = true) :
    stem (s ++ ".win".toList ++ numbers) = s ++ ".win".toList := by
  rw [stem, List.reverse_append, List.dropWhile_append_of_pos (by simpa using h),
    List.reverse_append]
  have hwin : ".win".toList.reverse = ['n', 'i', 'w', '.'] := rfl
  rw [hwin, List.cons_append, List.dropWhile_cons_of_neg (by decide), ← List.cons_append, ← hwin,
    ← List.reverse_append, List.reverse_reverse]

theorem archiveFileName_eq (p : TWPartition) :
    p.archiveFileName = (p.backupName ++ '.' :: p.currentFileSystem) ++ ".win".toList := by
  rw [TWPartition.archiveFileName, List.append_assoc, List.cons_append]

theorem stem_of_isArchiveOf {p : TWPartition} {name : Text}
    (h : IsArchiveOf p.archiveFileName name) : stem name = p.archiveFileName := by
  rw [archiveFileName_eq] at h ⊢
  rcases h with rfl | ⟨t, i, rfl⟩
  · have hwin : stem ((p.backupName ++ '.' :: p.currentFileSystem) ++ ".win".toList ++ []) = _ :=
      stem_win _ (by simp)
    rwa [List.append_nil] at hwin
  · refine stem_win _ fun c hc => ?_
    rcases List.mem_append.mp hc with hc | hc
    · exact isDigit_of_mem_decimal hc
    · exact isDigit_of_mem_padded hc

theorem stem_of_parseArchive {name label file : Text} (h : parseArchive name = some (label, file)) :
    stem name = file := by
  obtain ⟨fstype, -, -, -, rfl, hname⟩ := parseArchive_eq_some.mp h
  have heq : label ++ '.' :: (fstype ++ ".win".toList) =
      (label ++ '.' :: fstype) ++ ".win".toList := by
    rw [List.append_assoc, List.cons_append]
  rw [heq] at hname ⊢
  rcases hname with rfl | rfl
  · have hwin : stem ((label ++ '.' :: fstype) ++ ".win".toList ++ []) = _ :=
      stem_win _ (by simp)
    rwa [List.append_nil] at hwin
  · have hdigits : "000".toList.all Char.isDigit = true := rfl
    exact stem_win _ (List.all_eq_true.mp hdigits)

/-- A text with one dot is cut there in one way. -/
theorem eq_of_dot {a b c d : Text} (ha : '.' ∉ a) (hb : '.' ∉ b)
    (h : a ++ '.' :: b = c ++ '.' :: d) : a = c ∧ b = d := by
  have hcount := congrArg (List.count '.') h
  simp only [List.count_append, List.count_cons_self, List.count_eq_zero.mpr ha,
    List.count_eq_zero.mpr hb] at hcount
  have hc : '.' ∉ c := List.count_eq_zero.mp (by omega)
  have huntil := congrArg untilDot h
  rw [untilDot_append ha, untilDot_append hc] at huntil
  subst huntil
  exact ⟨rfl, (List.cons.inj (List.append_cancel_left h)).2⟩

theorem archiveName_zero (base : Text) : archiveName base 0 0 = base ++ "000".toList := rfl

/-- A restore takes the single archive or the first one of a split, if the name has three parts. -/
theorem parseArchive_archive (p : TWPartition) {name : Text}
    (h : name = p.archiveFileName ∨ name = archiveName p.archiveFileName 0 0) :
    parseArchive name =
      if '.' ∈ p.backupName ∨ '.' ∈ p.currentFileSystem ∨ p.currentFileSystem = "log".toList
      then none else some (p.backupName, p.archiveFileName) := by
  split_ifs with hdots
  · rw [Option.eq_none_iff_forall_ne_some]
    rintro ⟨label, file⟩ hparse
    have hfile : file = p.archiveFileName := by
      rw [← stem_of_parseArchive hparse]
      exact stem_of_isArchiveOf (h.imp_right fun h => ⟨0, 0, h⟩)
    obtain ⟨fstype, hlabel, hfs, hlog, heq, -⟩ := parseArchive_eq_some.mp hparse
    have hcut : label ++ '.' :: fstype = p.backupName ++ '.' :: p.currentFileSystem := by
      have heq := hfile.symm.trans heq
      rw [archiveFileName_eq, ← List.cons_append, ← List.append_assoc] at heq
      exact (List.append_cancel_right heq).symm
    obtain ⟨rfl, rfl⟩ := eq_of_dot hlabel hfs hcut
    rcases hdots with hdot | hdot | hdot
    · exact hlabel hdot
    · exact hfs hdot
    · exact hlog hdot
  · push Not at hdots
    rw [parseArchive_eq_some]
    refine ⟨p.currentFileSystem, hdots.1, hdots.2.1, hdots.2.2, rfl, ?_⟩
    rwa [archiveName_zero] at h

theorem taken_of_parseArchive {p : TWPartition} {name label file : Text}
    (harchive : IsArchiveOf p.archiveFileName name) (h : parseArchive name = some (label, file)) :
    name = p.archiveFileName ∨ name = archiveName p.archiveFileName 0 0 := by
  have hfile : file = p.archiveFileName := by
    rw [← stem_of_parseArchive h, stem_of_isArchiveOf harchive]
  obtain ⟨-, -, -, -, -, hname⟩ := parseArchive_eq_some.mp h
  rwa [hfile, ← archiveName_zero] at hname

theorem getLast?_of_suffix {s t : Text} {c : Char} (h : s ++ [c] <:+ t) : t.getLast? = some c := by
  obtain ⟨u, rfl⟩ := h
  rw [← List.append_assoc, List.getLast?_concat]

/-- Digests, info files, logs and the directory links are passed over. -/
theorem parseArchive_extra {name ending : Text} (hending : ending ∈ extraEndings)
    (h : ending <:+ name) : parseArchive name = none := by
  rw [Option.eq_none_iff_forall_ne_some]
  rintro ⟨label, file⟩ hparse
  have hlast : name.getLast? = some 'n' ∨ name.getLast? = some '0' := by
    obtain ⟨fstype, -, -, -, rfl, rfl | rfl⟩ := parseArchive_eq_some.mp hparse
    · exact .inl (getLast?_of_suffix (s := ".wi".toList)
        ⟨label ++ '.' :: fstype, by simp⟩)
    · exact .inr (getLast?_of_suffix (s := "00".toList) ⟨_, rfl⟩)
  have hother : ∃ s c, ending = s ++ [c] ∧ c ≠ 'n' ∧ c ≠ '0' := by
    simp only [extraEndings, List.mem_cons, List.not_mem_nil, or_false] at hending
    rcases hending with rfl | rfl | rfl | rfl | rfl
    · exact ⟨[], '.', rfl, by decide, by decide⟩
    · exact ⟨".sha".toList, '2', rfl, by decide, by decide⟩
    · exact ⟨".md".toList, '5', rfl, by decide, by decide⟩
    · exact ⟨".inf".toList, 'o', rfl, by decide, by decide⟩
    · exact ⟨".lo".toList, 'g', rfl, by decide, by decide⟩
  obtain ⟨s, c, rfl, hn, h0⟩ := hother
  rw [getLast?_of_suffix h] at hlast
  rcases hlast with hlast | hlast
  · exact hn (Option.some.inj hlast)
  · exact h0 (Option.some.inj hlast)

end names

section folder
variable {withoutPersist partitions} {env : BackupEnv} {sel : List (ℕ × TWPartition)}
  {names : List Text} {item : ℕ × TWPartition}

theorem resolve_archive (p : TWPartition) {name : Text}
    (h : name = p.archiveFileName ∨ name = archiveName p.archiveFileName 0 0) :
    resolve withoutPersist partitions name =
      (restoreTarget withoutPersist partitions p).map fun k => (k, p.archiveFileName) := by
  rw [resolve, parseArchive_archive p h, restoreTarget]
  split_ifs <;> rfl

theorem mem_archives {call : ℕ × TWPartition} (h : call ∈ archives env partitions sel) :
    ∃ p, partitions[call.1]? = some p ∧ call.2 = mounted env call.1 p := by
  obtain ⟨⟨i, _⟩, _, hcalls⟩ := List.mem_flatMap.mp h
  obtain ⟨⟨j, p⟩, hmem, rfl⟩ := List.mem_map.mp hcalls
  refine ⟨p, ?_, rfl⟩
  unfold members at hmem
  rcases hp : partitions[i]? with _ | parent
  · rw [hp] at hmem
    cases hmem
  rw [hp] at hmem
  rcases List.mem_cons.mp hmem with heq | hmem
  · cases heq
    exact hp
  · split_ifs at hmem
    · obtain ⟨⟨sub, k⟩, hsub, heq⟩ := List.mem_map.mp hmem
      cases heq
      exact List.mem_zipIdx_iff_getElem?.mp (List.mem_filter.mp hsub).1
    · cases hmem

/-- The names of the folder that are taken are those of the archives. -/
theorem resolve_eq_some (hfolder : ProducedFolder ((archives env partitions sel).map fun (j, p) =>
    (j, p.archiveFileName)) names) {name : Text} (hname : name ∈ names) {entry : ℕ × Text}
    (h : resolve withoutPersist partitions name = some entry) :
    ∃ call ∈ archives env partitions sel, entry.2 = call.2.archiveFileName ∧
      restoreTarget withoutPersist partitions call.2 = some entry.1 ∧
      (name = call.2.archiveFileName ∨ name = archiveName call.2.archiveFileName 0 0) := by
  obtain ⟨⟨label, file⟩, hparse, hfind⟩ := Option.bind_eq_some_iff.mp h
  rcases hfolder.only name hname with ⟨w, hw, harchive⟩ | ⟨ending, hending, hsuffix⟩
  · obtain ⟨call, hcall, rfl⟩ := List.mem_map.mp hw
    have htaken := taken_of_parseArchive harchive hparse
    rw [resolve_archive call.2 htaken] at h
    obtain ⟨k, hk, rfl⟩ := Option.map_eq_some_iff.mp h
    exact ⟨call, hcall, rfl, hk, htaken⟩
  · rw [parseArchive_extra hending hsuffix] at hparse
    cases hparse

theorem mem_entries (hfolder : ProducedFolder ((archives env partitions sel).map fun (j, p) =>
    (j, p.archiveFileName)) names) {call : ℕ × TWPartition}
    (hcall : call ∈ archives env partitions sel) {k : ℕ}
    (hk : restoreTarget withoutPersist partitions call.2 = some k) :
    ∃ name ∈ names, resolve withoutPersist partitions name = some (k, call.2.archiveFileName) := by
  have hlayout := hfolder.archive _ (List.mem_map_of_mem hcall)
  rcases hlayout with hmem | hmem
  · exact ⟨_, hmem, by rw [resolve_archive call.2 (.inl rfl), hk]; rfl⟩
  · exact ⟨_, hmem, by rw [resolve_archive call.2 (.inr rfl), hk]; rfl⟩

theorem findPartitionByPath_restorePath (p : TWPartition) :
    findPartitionByPath withoutPersist partitions p.restorePath =
      findPartitionByPath withoutPersist partitions p.backupPath := by
  rw [TWPartition.restorePath]
  split_ifs with h
  · rw [h, findPartitionByPath, findPartitionByPath]
    have hsystem : getRootPath "/system".toList = "/system".toList := by decide
    have hroot : getRootPath androidRootPath = androidRootPath := by decide
    dsimp only
    rw [hsystem, hroot, if_neg (by rw [decide_eq_false (by decide)]; simp), if_pos rfl,
      if_neg (by rw [decide_eq_false (by decide)]; simp), if_neg (by decide)]
  · rfl

/-- A path that stands in the list once, added by `entry`, is added by no other one. -/
theorem count_listed {before after : List (ℕ × Text)} {entry : ℕ × Text} {path : Text}
    (hpath : ';' ∉ path) (hentry : listed partitions entry = some path) :
    (((before ++ entry :: after).filterMap (listed partitions)).flatMap fun p =>
        p.splitOn ';').count path = 1 ↔
      ∀ e ∈ before ++ after, ∀ p, listed partitions e = some p → path ∉ p.splitOn ';' := by
  have hcount : (((before ++ entry :: after).filterMap (listed partitions)).flatMap fun p =>
      p.splitOn ';').count path =
        1 + (((before ++ after).filterMap (listed partitions)).flatMap fun p =>
          p.splitOn ';').count path := by
    rw [List.filterMap_append, List.filterMap_cons, hentry, List.flatMap_append,
      List.flatMap_cons, List.splitOn_eq_singleton hpath, List.filterMap_append,
      List.flatMap_append, List.count_append, List.count_append, List.count_append,
      List.count_singleton_self]
    omega
  rw [hcount]
  constructor
  · intro h e he p hp hmem
    have hzero : path ∉ ((before ++ after).filterMap (listed partitions)).flatMap fun p =>
        p.splitOn ';' := List.count_eq_zero.mp (by omega)
    exact hzero (List.mem_flatMap.mpr ⟨p, List.mem_filterMap.mpr ⟨e, he, hp⟩, hmem⟩)
  · intro h
    rw [List.count_eq_zero.mpr]
    intro hmem
    obtain ⟨p, hp, hmem⟩ := List.mem_flatMap.mp hmem
    obtain ⟨e, he, hp⟩ := List.mem_filterMap.mp hp
    exact h e he p hp hmem

theorem offered_item (sel : Selection env partitions) (h : item ∈ sel.items) :
    partitions[item.1]? = some item.2 ∧ item.2.isSubPartition = false := by
  obtain ⟨⟨p, i⟩, hmem, rfl⟩ := List.mem_map.mp (sel.offered item h)
  obtain ⟨hmem, hoffered⟩ := List.mem_filter.mp hmem
  refine ⟨List.mem_zipIdx_iff_getElem?.mp hmem, ?_⟩
  simp only [Bool.and_eq_true, Bool.not_eq_true'] at hoffered
  exact hoffered.1.2

theorem own_mem_archives (hpart : partitions[item.1]? = some item.2) (h : item ∈ sel) :
    (item.1, mounted env item.1 item.2) ∈ archives env partitions sel := by
  refine List.mem_flatMap.mpr ⟨item, h, List.mem_map.mpr ⟨item, ?_, rfl⟩⟩
  unfold members
  rw [hpart]
  exact List.mem_cons_self

theorem listed_own (hpart : partitions[item.1]? = some item.2)
    (hsub : item.2.isSubPartition = false) (file : Text) :
    listed partitions (item.1, file) = some item.2.restorePath := by
  rw [listed, hpart, Option.bind_some, hsub]
  rfl

theorem pathFinds_of_comesBack {base : Text}
    (h : ComesBack env.withoutPersist partitions names item base) :
    PathFinds env partitions item := by
  have hmem : item.2.restorePath ∈ listPaths
      (setRestoreFiles env.withoutPersist (named partitions fun _ => []) names).2 :=
    List.count_pos_iff.mp (by rw [h.once]; exact Nat.one_pos)
  rw [(setRestoreFiles_named names _).2] at hmem
  obtain ⟨_, -, hmem⟩ := List.mem_flatMap.mp hmem
  have hwhole := not_mem_of_mem_splitOn hmem
  refine ⟨?_, (findPartitionByPath_restorePath item.2).symm.trans h.resolves⟩
  rw [TWPartition.restorePath] at hwhole
  split_ifs at hwhole with hroot
  · rw [hroot]
    decide
  · exact hwhole

theorem fileName_named (hpart : partitions[item.1]? = some item.2) (files : ℕ → Text) :
    ((setRestoreFiles withoutPersist (named partitions files) names).1[item.1]?).map
      TWPartition.backupFileName =
        some (assign files (names.filterMap (resolve withoutPersist partitions)) item.1) := by
  rw [(setRestoreFiles_named names files).1, getElem?_named, hpart]
  rfl

variable (hfolder : ProducedFolder ((archives env partitions sel).map fun (j, p) =>
  (j, p.archiveFileName)) names)
include hfolder

theorem traceable_of_comesBack (hpart : partitions[item.1]? = some item.2)
    (hsub : item.2.isSubPartition = false) {base : Text}
    (hbacked : BackedUp ((archives env partitions sel).map fun (j, p) =>
      (j, p.archiveFileName)) item.1 base)
    (h : ComesBack env.withoutPersist partitions names item base) :
    Traceable partitions env sel item := by
  have hbase : base = (mounted env item.1 item.2).archiveFileName := by
    obtain ⟨⟨j, q⟩, hcall, heq⟩ := List.mem_map.mp hbacked.1
    obtain ⟨rfl, rfl⟩ := Prod.mk.inj heq
    obtain ⟨p, hp, hq⟩ := mem_archives hcall
    rw [hpart] at hp
    cases hp
    exact congrArg TWPartition.archiveFileName hq
  subst hbase
  -- an empty table has the name of the archive in it only if a file of the folder brings it
  have hentry : (item.1, (mounted env item.1 item.2).archiveFileName) ∈
      names.filterMap (resolve env.withoutPersist partitions) := by
    have hname := h.fileName fun _ => []
    rw [fileName_named hpart] at hname
    have hassign := Option.some.inj hname
    have hne : assign (fun _ => []) (names.filterMap (resolve env.withoutPersist partitions))
        item.1 ≠ (fun _ => []) item.1 := by
      rw [hassign, archiveFileName_eq]
      exact fun hnil => absurd (List.append_eq_nil_iff.mp hnil).2 (by decide)
    have hmem := mem_of_assign_ne hne
    rwa [hassign] at hmem
  have hpath := pathFinds_of_comesBack h
  have hpathOnce : ';' ∉ item.2.restorePath := by
    rw [TWPartition.restorePath]
    split_ifs
    · decide
    · exact hpath.1
  obtain ⟨before, after, hentries⟩ := List.append_of_mem hentry
  have honce := h.once fun _ => []
  rw [(setRestoreFiles_named names _).2, hentries,
    count_listed hpathOnce (listed_own hpart hsub _)] at honce
  refine ⟨hpath, ?_, ?_, ?_⟩
  · obtain ⟨name, hname, hresolve⟩ := List.mem_filterMap.mp hentry
    obtain ⟨call, -, hfile, htarget, htaken⟩ := resolve_eq_some hfolder hname hresolve
    dsimp only at hfile htarget
    rw [← hfile] at htaken
    rw [resolve_archive _ htaken] at hresolve
    obtain ⟨k, hk, heq⟩ := Option.map_eq_some_iff.mp hresolve
    rw [hk, (Prod.mk.inj heq).1]
  · have hcount := hbacked.2
    rwa [List.map_map] at hcount
  · intro call hcall hne k hk
    obtain ⟨name, hname, hresolve⟩ := mem_entries hfolder hcall hk
    have hmem : (k, call.2.archiveFileName) ∈ before ++ after := by
      have hmem := List.mem_filterMap.mpr ⟨name, hname, hresolve⟩
      rw [hentries] at hmem
      rcases List.mem_append.mp hmem with hmem | hmem
      · exact List.mem_append_left _ hmem
      rcases List.mem_cons.mp hmem with heq | hmem
      · exact absurd (Prod.mk.inj heq).2 hne
      · exact List.mem_append_right _ hmem
    refine ⟨?_, fun p hp hpsub => honce _ hmem _ ?_⟩
    · rintro rfl
      refine honce _ hmem _ (listed_own hpart hsub _) ?_
      rw [List.splitOn_eq_singleton hpathOnce]
      exact List.mem_singleton_self _
    · rw [listed, hp, Option.bind_some, hpsub]
      rfl

/-- The other names that are taken belong to other archives. -/
theorem others_of_own {before after : List Text} {name : Text} {call own : ℕ × TWPartition}
    (hnames : names = before ++ name :: after) (hown : own ∈ archives env partitions sel)
    (hcount : ((archives env partitions sel).map fun call => call.2.archiveFileName).count
      own.2.archiveFileName = 1)
    (htaken : name = own.2.archiveFileName ∨ name = archiveName own.2.archiveFileName 0 0)
    {other : Text} (hother : other ∈ before ++ after)
    (htaken' : other = call.2.archiveFileName ∨ other = archiveName call.2.archiveFileName 0 0) :
    call.2.archiveFileName ≠ own.2.archiveFileName := by
  subst hnames
  intro heq
  rw [heq] at htaken'
  have hmem : other ∈ before ++ name :: after := by
    rcases List.mem_append.mp hother with hother | hother
    · exact List.mem_append_left _ hother
    · exact List.mem_append_right _ (List.mem_cons_of_mem _ hother)
  have hdistinct : other ≠ name := by
    rintro rfl
    exact (List.nodup_cons.mp (List.nodup_middle.mp hfolder.nodup)).1 hother
  have hname : name ∈ before ++ name :: after := List.mem_append_right _ List.mem_cons_self
  have hone := hfolder.oneLayout _ (List.mem_map_of_mem hown) (by rwa [List.map_map])
  rcases htaken' with rfl | rfl <;> rcases htaken with rfl | rfl
  · exact hdistinct rfl
  · exact hone ⟨hmem, hname⟩
  · exact hone ⟨hname, hmem⟩
  · exact hdistinct rfl

theorem comesBack_of_traceable (hpart : partitions[item.1]? = some item.2)
    (hsub : item.2.isSubPartition = false) (hitem : item ∈ sel)
    (h : Traceable partitions env sel item) :
    ComesBack env.withoutPersist partitions names item
      (mounted env item.1 item.2).archiveFileName := by
  have hown : (item.1, mounted env item.1 item.2) ∈ archives env partitions sel :=
    own_mem_archives hpart hitem
  obtain ⟨name, hname, hresolve⟩ := mem_entries hfolder hown h.name
  have htaken : name = (mounted env item.1 item.2).archiveFileName ∨
      name = archiveName (mounted env item.1 item.2).archiveFileName 0 0 := by
    obtain ⟨_, -, hfile, -, htaken⟩ := resolve_eq_some hfolder hname hresolve
    rwa [← hfile] at htaken
  obtain ⟨before, after, hnames⟩ := List.append_of_mem hname
  have hentries : names.filterMap (resolve env.withoutPersist partitions) =
      before.filterMap (resolve env.withoutPersist partitions) ++
        (item.1, (mounted env item.1 item.2).archiveFileName) ::
          after.filterMap (resolve env.withoutPersist partitions) := by
    rw [hnames, List.filterMap_append, List.filterMap_cons, hresolve]
  have hothers : ∀ e ∈ before.filterMap (resolve env.withoutPersist partitions) ++
      after.filterMap (resolve env.withoutPersist partitions),
      e.1 ≠ item.1 ∧ ∀ p, partitions[e.1]? = some p → p.isSubPartition = false →
        item.2.restorePath ∉ p.restorePath.splitOn ';' := by
    intro e he
    rw [← List.filterMap_append] at he
    obtain ⟨other, hother, hresolve'⟩ := List.mem_filterMap.mp he
    have hmem : other ∈ names := by
      rw [hnames]
      exact (List.sublist_cons_self name after).append_left before |>.subset hother
    obtain ⟨call, hcall, -, htarget, htaken'⟩ := resolve_eq_some hfolder hmem hresolve'
    exact h.other call hcall
      (others_of_own hfolder hnames hown h.own htaken hother htaken') _ htarget
  have hwhole : ';' ∉ item.2.restorePath := by
    rw [TWPartition.restorePath]
    split_ifs
    · decide
    · exact h.path.1
  refine ⟨fun files => ?_, (findPartitionByPath_restorePath item.2).trans h.path.2,
    fun files => ?_⟩
  · rw [(setRestoreFiles_named _ files).2, hentries,
      count_listed hwhole (listed_own hpart hsub _)]
    intro e he path hpath
    obtain ⟨p, hp, hlisted⟩ := Option.bind_eq_some_iff.mp hpath
    split_ifs at hlisted with hpsub
    rw [← Option.some.inj hlisted]
    exact (hothers e he).2 p hp (Bool.not_eq_true _ ▸ hpsub)
  · rw [fileName_named hpart, hentries, assign_eq_of_forall]
    · exact List.mem_append_right _ List.mem_cons_self
    · intro e he hei
      rcases List.mem_append.mp he with he' | he'
      · exact absurd hei (hothers e (List.mem_append_left _ he')).1
      rcases List.mem_cons.mp he' with rfl | he'
      · rfl
      · exact absurd hei (hothers e (List.mem_append_right _ he')).1

end folder

/-- A backup comes back whole exactly when every selected partition can be traced by its names. -/
theorem folderRoundTrip_iff (env : BackupEnv) (partitions : Partitions)
    (sel : Selection env partitions) (written : List (ℕ × Text)) (names : List Text)
    (hrun : runBackup env partitions sel.backupList = some written)
    (hfolder : ProducedFolder written names) :
    FolderRoundTrip env.withoutPersist partitions sel.items written names ↔
      ∀ item ∈ sel.items, Traceable partitions env sel.items item := by
  constructor
  · intro h
    have hpaths : ∀ item ∈ sel.items, PathFinds env partitions item := fun item hitem => by
      obtain ⟨_, -, hback⟩ := h item hitem
      exact pathFinds_of_comesBack hback
    obtain rfl := runBackup_eq hpaths hrun
    intro item hitem
    obtain ⟨hpart, hsub⟩ := offered_item sel hitem
    obtain ⟨_, hbacked, hback⟩ := h item hitem
    exact traceable_of_comesBack hfolder hpart hsub hbacked hback
  · intro h
    obtain rfl := runBackup_eq (fun item hitem => (h item hitem).path) hrun
    intro item hitem
    obtain ⟨hpart, hsub⟩ := offered_item sel hitem
    have hown : (item.1, mounted env item.1 item.2) ∈ archives env partitions sel.items :=
      own_mem_archives hpart hitem
    refine ⟨_, ⟨List.mem_map.mpr ⟨_, hown, rfl⟩, ?_⟩,
      comesBack_of_traceable hfolder hpart hsub hitem (h item hitem)⟩
    rw [List.map_map]
    exact (h item hitem).own

/-! A `/product` that is not in super: its backup name is not its mount point. -/

def productEntry : FstabEntry := ⟨"/product".toList, "ext4".toList, false, ⟨none, none, none⟩⟩

def productTable : Partitions :=
  markParents false (processFstabLine productEntry 0 ⟨true, false, "ext4".toList, []⟩).toList

def productEnv : BackupEnv where
  withoutPersist := false
  advBackup := false
  ready := true
  backupFolder := "/sdcard1/TWRP/BACKUPS/1".toList
  stopBackup _ := false
  backup _ := some "ext4".toList
  generateDigest := false
  makeDigest _ := true

theorem product_nodup : (backupChoices productEnv productTable).Nodup := by decide

def productSelection : Selection productEnv productTable :=
  ⟨backupChoices productEnv productTable, product_nodup, fun _ h => h⟩

def productWritten : List (ℕ × Text) := [(0, "Product.ext4.win".toList)]

def productFolder : List Text :=
  [".".toList, "..".toList, "Product.ext4.win".toList, "Product.ext4.win.info".toList,
    "recovery.log".toList]

theorem product_run :
    runBackup productEnv productTable productSelection.backupList = some productWritten := by
  decide

theorem product_folder : ProducedFolder productWritten productFolder where
  nodup := by decide
  archive w hw := by
    cases List.mem_singleton.mp hw
    exact .inl (by decide)
  oneLayout w hw := by
    cases List.mem_singleton.mp hw
    decide
  only name hname := by
    simp only [productFolder, List.mem_cons, List.not_mem_nil, or_false] at hname
    rcases hname with rfl | rfl | rfl | rfl | rfl
    · exact .inr ⟨".".toList, by decide, by decide⟩
    · exact .inr ⟨".".toList, by decide, by decide⟩
    · exact .inl ⟨_, List.mem_singleton_self _, .inl rfl⟩
    · exact .inr ⟨".info".toList, by decide, by decide⟩
    · exact .inr ⟨".log".toList, by decide, by decide⟩

/-- The restore list is empty: no partition is found for the label of the archive. -/
theorem not_folderRoundTrip_product :
    runBackup productEnv productTable productSelection.backupList = some productWritten ∧
      ProducedFolder productWritten productFolder ∧
        ¬FolderRoundTrip productEnv.withoutPersist productTable productSelection.items
          productWritten productFolder := by
  refine ⟨product_run, product_folder, fun h => ?_⟩
  have hchoices : productSelection.items ≠ [] := by decide
  obtain ⟨item, hitem⟩ := List.exists_mem_of_ne_nil _ hchoices
  obtain ⟨_, -, hback⟩ := h item hitem
  have honce := hback.once fun _ => []
  have hnone : listPaths (setRestoreFiles productEnv.withoutPersist
      (named productTable fun _ => []) productFolder).2 = [] := by decide
  rw [hnone] at honce
  cases honce

theorem folderRoundTrip_iff_product :
    FolderRoundTrip productEnv.withoutPersist productTable productSelection.items productWritten
        productFolder ↔
      ∀ item ∈ productSelection.items,
        Traceable productTable productEnv productSelection.items item :=
  folderRoundTrip_iff productEnv productTable productSelection _ _ product_run product_folder

end BootableRecovery.Twrp
