import BootableRecovery.Twrp.ExtractTar

namespace BootableRecovery.Twrp
open Lib

/-! The names of files in an archive, and where they are restored. -/

/-- The names that a path goes through; slashes may be repeated. -/
def pathComponents (path : Text) : List Text := (path.splitOn '/').filter fun name => name ≠ []

/-- The paths are the same up to repeated slashes and a slash at the end. -/
def SamePath (p q : Text) : Prop :=
  (p.head? = some '/' ↔ q.head? = some '/') ∧ pathComponents p = pathComponents q

/-- Where a file is below the directory of the backup. -/
structure FilePath where
  names : List Text
  names_ne : names ≠ []
  valid : ∀ name ∈ names, name ≠ [] ∧ '/' ∉ name

/-- `FileName`, as the directories are read from the top down. -/
def backupPath (tardir : Text) (file : FilePath) : Text :=
  tardir ++ file.names.flatMap fun name => '/' :: name

/-- The path without the slash it starts with. -/
def dropSlash (path : Text) : Text := if path.head? = some '/' then path.tail else path

/-- `Strip_Root_Dir` -/
def stripRootDir (path : Text) : Text :=
  let temp := dropSlash path
  if '/' ∈ temp then temp.dropWhile fun c => c != '/' else temp

/-- The name that `addFile` gives to the library. -/
def savedName (includeRoot : Bool) (fn : Text) : Text :=
  if includeRoot then fn else stripRootDir fn

/-- What `th_get_pathname` reads back of `th_set_path`, for GNU archives: a slash is added to the
name of a directory, if there is room for it in the 100 bytes with the NUL. -/
def headerName (isDir : Bool) (pathname : Text) : Text :=
  if pathname.length < 100 then
    (pathname ++ if pathname.getLast? ≠ some '/' ∧ isDir = true then ['/'] else []).take 99
  else pathname

/-- `tar_extract_all` with a prefix -/
def extractPath (root filename : Text) : Text := root ++ '/' :: filename

/-- The directory that `extractTarFork` extracts to, if it finds archives. -/
def extractionRoot {α : Type} (adbbackup : Bool) (fs : FileSystem α) (tarfn tardir : Text) :
    Option Text :=
  if pathExists fs tarfn || adbbackup then some tardir
  else if pathExists fs (tarfn ++ "000".toList) then some []
  else none

/-- Each file is restored to its path, and no two of them have the same name. -/
structure RestoresPaths (splitArchives : Bool) (tardir root : Text) : Prop where
  same : ∀ (file : FilePath) (isDir : Bool),
    SamePath (backupPath tardir file)
      (extractPath root (headerName isDir (savedName splitArchives (backupPath tardir file))))
  distinct : ∀ (file file' : FilePath) (isDir isDir' : Bool), file.names ≠ file'.names →
    headerName isDir (savedName splitArchives (backupPath tardir file)) ≠
      headerName isDir' (savedName splitArchives (backupPath tardir file'))

/-- The directories whose files are restored to their paths. An archive that is not split leaves
out the first name of the path, which may be followed by nothing but slashes then. -/
def Restorable (adbbackup splitArchives : Bool) (tardir : Text) : Prop :=
  if splitArchives then
    if adbbackup then pathComponents tardir = [] else tardir = [] ∨ tardir.head? = some '/'
  else tardir ≠ [] ∧ ∀ c ∈ (dropSlash tardir).dropWhile fun c => c != '/', c = '/'

section components
variable {p q name : Text} {names : List Text}

theorem pathComponents_append_slash (p q : Text) :
    pathComponents (p ++ '/' :: q) = pathComponents p ++ pathComponents q := by
  rw [pathComponents, List.splitOn_append_cons_self, List.filter_append]
  rfl

theorem pathComponents_name (h : name ≠ [] ∧ '/' ∉ name) : pathComponents name = [name] := by
  rw [pathComponents, List.splitOn_eq_singleton h.2]
  simp [h.1]

@[simp]
theorem pathComponents_nil : pathComponents [] = [] := by simp [pathComponents]

theorem pathComponents_slash (p : Text) : pathComponents ('/' :: p) = pathComponents p := by
  simpa using pathComponents_append_slash [] p

theorem pathComponents_flatMap (p : Text) (h : ∀ name ∈ names, name ≠ [] ∧ '/' ∉ name) :
    pathComponents (p ++ names.flatMap fun name => '/' :: name) = pathComponents p ++ names := by
  induction names generalizing p with
  | nil => simp
  | cons name names ih =>
    rw [List.flatMap_cons, ← List.append_assoc, ih _ fun n hn => h n (List.mem_cons_of_mem _ hn),
      pathComponents_append_slash, pathComponents_name (h name List.mem_cons_self),
      List.append_assoc]
    rfl

/-- Only slashes go through no name. -/
theorem pathComponents_eq_nil : pathComponents p = [] ↔ ∀ c ∈ p, c = '/' := by
  induction p with
  | nil => simp
  | cons c p ih =>
    by_cases hc : c = '/'
    · rw [hc, pathComponents_slash, ih]
      simp
    · have hne : pathComponents (c :: p) ≠ [] := by
        obtain ⟨head, tail, hsplit⟩ := List.exists_cons_of_ne_nil (List.splitOn_ne_nil '/' p)
        simp [pathComponents, List.splitOn_cons_eq_if_modifyHead, hc, hsplit]
      simp [hne, hc]

/-- A slash added to the name of a directory changes no component. -/
theorem pathComponents_headerName (isDir : Bool) (name : Text) :
    pathComponents (headerName isDir name) = pathComponents name := by
  unfold headerName
  split_ifs with hlength hslash
  · rcases Nat.lt_or_ge name.length 99 with hlt | hge
    · rw [List.take_of_length_le (by simp; omega), pathComponents_append_slash]
      simp
    · rw [List.take_left' (by omega)]
  · rw [List.append_nil, List.take_of_length_le (by omega)]
  · rfl

end components

section names
variable {tardir root : Text} {file : FilePath}

theorem pathComponents_backupPath (tardir : Text) (file : FilePath) :
    pathComponents (backupPath tardir file) = pathComponents tardir ++ file.names :=
  pathComponents_flatMap tardir file.valid

theorem backupPath_eq (tardir : Text) (file : FilePath) :
    ∃ rel, backupPath tardir file = tardir ++ '/' :: rel := by
  obtain ⟨name, names, hnames⟩ := List.exists_cons_of_ne_nil file.names_ne
  exact ⟨name ++ names.flatMap fun name => '/' :: name, by simp [backupPath, hnames]⟩

theorem head?_backupPath :
    (backupPath tardir file).head? = some '/' ↔ tardir = [] ∨ tardir.head? = some '/' := by
  obtain ⟨rel, hrel⟩ := backupPath_eq tardir file
  rw [hrel]
  cases tardir <;> simp

/-- What the stripped name of a path keeps of the directory. -/
def keptDir (tardir : Text) : Text := (dropSlash tardir).dropWhile fun c => c != '/'

theorem stripRootDir_append (htardir : tardir ≠ []) (rel : Text) :
    stripRootDir (tardir ++ '/' :: rel) = keptDir tardir ++ '/' :: rel := by
  have hdrop : dropSlash (tardir ++ '/' :: rel) = dropSlash tardir ++ '/' :: rel := by
    obtain ⟨c, tardir, rfl⟩ := List.exists_cons_of_ne_nil htardir
    by_cases hc : c = '/' <;> simp [dropSlash, hc]
  rw [stripRootDir, hdrop, if_pos (by simp), List.dropWhile_append, keptDir]
  split_ifs with hempty
  · rw [List.isEmpty_iff.mp hempty]
    simp
  · rfl

theorem pathComponents_stripped (htardir : tardir ≠ []) (file : FilePath) :
    pathComponents (stripRootDir (backupPath tardir file)) =
      pathComponents (keptDir tardir) ++ file.names := by
  obtain ⟨name, names, hnames⟩ := List.exists_cons_of_ne_nil file.names_ne
  have hstrip : stripRootDir (backupPath tardir file) = backupPath (keptDir tardir) file := by
    simp only [backupPath, hnames, List.flatMap_cons, List.cons_append]
    exact stripRootDir_append htardir _
  rw [hstrip, pathComponents_backupPath]

theorem pathComponents_extractPath (root name : Text) (isDir : Bool) :
    pathComponents (extractPath root (headerName isDir name)) =
      pathComponents root ++ pathComponents name := by
  rw [extractPath, pathComponents_append_slash, pathComponents_headerName]

theorem head?_extractPath (name : Text) : (extractPath root name).head? = some '/' ↔
    root = [] ∨ root.head? = some '/' := by
  cases root <;> simp [extractPath]

/-- Names with the same components before the file's own differ. -/
theorem names_distinct {includeRoot : Bool} {kept : List Text}
    (h : ∀ file, pathComponents (savedName includeRoot (backupPath tardir file)) =
      kept ++ file.names) (file file' : FilePath) (isDir isDir' : Bool)
    (hne : file.names ≠ file'.names) :
    headerName isDir (savedName includeRoot (backupPath tardir file)) ≠
      headerName isDir' (savedName includeRoot (backupPath tardir file')) := by
  intro heq
  have hcomponents := congrArg pathComponents heq
  rw [pathComponents_headerName, pathComponents_headerName, h, h] at hcomponents
  exact hne (List.append_cancel_left hcomponents)

def twoNames : FilePath := ⟨[['a'], ['b']], by decide, by decide⟩

/-- An archive that is split keeps the paths. -/
theorem restoresPaths_split : RestoresPaths true tardir root ↔
    (root = [] ∨ root.head? = some '/' ↔ tardir = [] ∨ tardir.head? = some '/') ∧
      pathComponents root = [] := by
  have hcomponents : ∀ file, pathComponents (savedName true (backupPath tardir file)) =
      pathComponents tardir ++ file.names := pathComponents_backupPath tardir
  constructor
  · intro h
    obtain ⟨hhead, hsame⟩ := h.same twoNames false
    rw [head?_extractPath, head?_backupPath] at hhead
    rw [pathComponents_extractPath, hcomponents, pathComponents_backupPath] at hsame
    exact ⟨hhead.symm, by simpa using hsame⟩
  · rintro ⟨hhead, hroot⟩
    refine ⟨fun file isDir => ⟨?_, ?_⟩, names_distinct hcomponents⟩
    · rw [head?_extractPath, head?_backupPath, hhead]
    · rw [pathComponents_extractPath, hcomponents, pathComponents_backupPath, hroot,
        List.nil_append]

/-- An archive that is not split leaves out the first name. -/
theorem restoresPaths_single : RestoresPaths false tardir tardir ↔
    tardir ≠ [] ∧ pathComponents (keptDir tardir) = [] := by
  rcases eq_or_ne tardir [] with rfl | hne
  · constructor
    · intro h
      have hsame := (h.same twoNames false).2
      exact absurd hsame (by decide +kernel)
    · exact fun h => absurd rfl h.1
  · have hcomponents : ∀ file, pathComponents (savedName false (backupPath tardir file)) =
        pathComponents (keptDir tardir) ++ file.names := pathComponents_stripped hne
    constructor
    · intro h
      have hsame := (h.same twoNames false).2
      rw [pathComponents_extractPath, hcomponents, pathComponents_backupPath] at hsame
      exact ⟨hne, by simpa using hsame⟩
    · rintro ⟨-, hkept⟩
      refine ⟨fun file isDir => ⟨?_, ?_⟩, names_distinct hcomponents⟩
      · rw [head?_extractPath, head?_backupPath]
      · rw [pathComponents_extractPath, hcomponents, pathComponents_backupPath, hkept,
          List.nil_append]

theorem restoresPaths_root (adbbackup splitArchives : Bool) (tardir : Text) :
    RestoresPaths splitArchives tardir (if adbbackup || !splitArchives then tardir else []) ↔
      Restorable adbbackup splitArchives tardir := by
  cases splitArchives with
  | false =>
    have hroot : (if adbbackup || !false then tardir else []) = tardir := by simp
    rw [hroot, restoresPaths_single, pathComponents_eq_nil]
    simp [Restorable, keptDir]
  | true =>
    rw [restoresPaths_split]
    cases adbbackup <;> simp [Restorable]

end names

section archives
variable {env : TarEnv} {tar : TwrpTar} {fs fs' : FileSystem (List Text)} {s s' : TarState}

theorem tarStep_single (hsplit : tar.splitArchives = false) {item : TarListStruct}
    (h : tarStep env tar s item = .ok s') (hs : pathExists s.fs tar.tarfn = true) :
    pathExists s'.fs tar.tarfn = true := by
  have hadd : ∀ s₁ : TarState, s₁.fs = s.fs → addFile env tar s₁ item.fn = .ok s' →
      pathExists s'.fs tar.tarfn = true := by
    intro s₁ hfs h
    unfold addFile at h
    dsimp only at h
    split_ifs at h
    cases h
    exact pathExists_write _ _ _ _ (hfs ▸ hs)
  unfold tarStep at h
  split_ifs at h
  · cases hstat : env.lstat item.fn with
    | other =>
      rw [hstat] at h
      exact hadd s rfl h
    | regular size =>
      have hroom : makeRoom env tar s size =
          .ok { s with archiveCurrentSize := (s.archiveCurrentSize + size) % 2 ^ 64 } := by
        simp [makeRoom, hsplit]
      rw [hstat] at h
      dsimp only at h
      rw [hroom] at h
      exact hadd { s with archiveCurrentSize := (s.archiveCurrentSize + size) % 2 ^ 64 } rfl h
  · cases h
    exact hs

theorem tarLoop_single (hsplit : tar.splitArchives = false) {tarItems : List TarListStruct}
    (h : tarLoop env tar tarItems s = .ok fs') (hs : pathExists s.fs tar.tarfn = true) :
    pathExists fs' tar.tarfn = true := by
  induction tarItems generalizing s with
  | nil =>
    unfold tarLoop at h
    split_ifs at h
    cases h
    exact hs
  | cons item rest ih =>
    unfold tarLoop at h
    cases hstep : tarStep env tar s item with
    | error e =>
      rw [hstep] at h
      cases h
    | ok s₁ =>
      rw [hstep] at h
      exact ih h (tarStep_single hsplit hstep hs)

/-- A backup that is not split is a single archive. -/
theorem tarList_single (hsplit : tar.splitArchives = false) {tarItems : List TarListStruct}
    (h : tarList env tar tarItems fs = .ok fs') : pathExists fs' tar.tarfn = true := by
  have hname : tar.actualFilename 0 = tar.tarfn := by simp [TwrpTar.actualFilename, hsplit]
  unfold tarList at h
  cases hopen : createTar env tar (tar.actualFilename 0) fs with
  | none =>
    rw [hopen] at h
    cases h
  | some fs₁ =>
    rw [hopen] at h
    refine tarLoop_single hsplit h ?_
    rw [createTar_eq_some hopen, hname, pathExists_write_self]

/-- The layout that the writer made is the one that the reader finds. -/
theorem extractionRoot_tarList (adbbackup : Bool) (tardir : Text) {tarItems : List TarListStruct}
    (h : tarList env tar tarItems fs = .ok fs') (hthread : tar.threadId = 0)
    (hnew : pathExists fs tar.tarfn = false) : extractionRoot adbbackup fs' tar.tarfn tardir =
      some (if adbbackup || !tar.splitArchives then tardir else []) := by
  cases hsplit : tar.splitArchives with
  | false => simp [extractionRoot, tarList_single hsplit h]
  | true =>
    obtain ⟨archives, hs⟩ := tarList_ok hsplit h
    obtain ⟨entries, rest, rfl⟩ := List.exists_cons_of_ne_nil hs.nonempty
    have hsingle : pathExists fs' tar.tarfn = false := by
      rw [pathExists, hs.others _ fun i _ => (archiveName_ne_base _ _ _).symm]
      exact hnew
    have hfirst : pathExists fs' (tar.tarfn ++ "000".toList) = true := by
      have hfile := hs.files 0 entries rfl
      rw [hthread] at hfile
      exact pathExists_eq_true _ _ |>.mpr ⟨entries, hfile⟩
    rw [extractionRoot, hsingle, hfirst]
    cases adbbackup <;> rfl

end archives

/-- The directories whose archives restore to the original paths. -/
theorem restoresPaths_iff (env : TarEnv) (tar : TwrpTar) (adbbackup : Bool) (tardir : Text)
    (tarItems : List TarListStruct) (fs fs' : FileSystem (List Text))
    (h : tarList env tar tarItems fs = .ok fs') (hthread : tar.threadId = 0)
    (hnew : pathExists fs tar.tarfn = false) :
    ∃ root, extractionRoot adbbackup fs' tar.tarfn tardir = some root ∧
      (RestoresPaths tar.splitArchives tardir root ↔
        Restorable adbbackup tar.splitArchives tardir) :=
  ⟨_, extractionRoot_tarList adbbackup tardir h hthread hnew,
    restoresPaths_root adbbackup tar.splitArchives tardir⟩

/-- The archive of a directory, not split, and one file in it. -/
def singleTar : TwrpTar := ⟨['/', 'b'], 0, false, false⟩

def singleItems (tardir : Text) : List TarListStruct := [⟨tardir ++ ['/', 'x'], 0⟩]

theorem tarList_singleItems (tardir : Text) : ∃ fs', tarList smallEnv singleTar
    (singleItems tardir) (fun _ => none) = .ok fs' := ⟨_, rfl⟩

theorem restoresPaths_data : ∃ fs', tarList smallEnv singleTar (singleItems ['/', 'd'])
      (fun _ => none) = .ok fs' ∧
    ∃ root, extractionRoot false fs' ['/', 'b'] ['/', 'd'] = some root ∧
      (RestoresPaths false ['/', 'd'] root ↔ Restorable false false ['/', 'd']) := by
  obtain ⟨fs', h⟩ := tarList_singleItems ['/', 'd']
  exact ⟨fs', h, restoresPaths_iff smallEnv singleTar false ['/', 'd'] _ _ fs' h rfl rfl⟩

/-- A directory of two names. -/
theorem not_restoresPaths_nested : ∃ fs', tarList smallEnv singleTar
      (singleItems ['/', 'm', '/', 'v']) (fun _ => none) = .ok fs' ∧
    ∃ root, extractionRoot false fs' ['/', 'b'] ['/', 'm', '/', 'v'] = some root ∧
      ¬RestoresPaths false ['/', 'm', '/', 'v'] root := by
  obtain ⟨fs', h⟩ := tarList_singleItems ['/', 'm', '/', 'v']
  refine ⟨fs', h, _, extractionRoot_tarList false _ h rfl rfl, fun hrestores => ?_⟩
  exact absurd (hrestores.same ⟨[['x']], by decide, by decide⟩ false).2 (by decide +kernel)

end BootableRecovery.Twrp
