import BootableRecovery.Lib.StrictWeak
import BootableRecovery.Lib.Text
import Mathlib.Data.List.Infix
import Mathlib.Data.List.Lex

namespace BootableRecovery.Gui
open Lib

/-! The two lists of a file selector, and the order they are sorted in. -/

def lowercase (s : Text) : Text := s.map Char.toLower

/-- The sign of the first difference, without regard to case. -/
def strcasecmp : Text → Text → ℤ
  | [], [] => 0
  | [], _ :: _ => -1
  | _ :: _, [] => 1
  | a :: s, b :: t =>
    if a.toLower = b.toLower then strcasecmp s t
    else (a.toLower.toNat : ℤ) - b.toLower.toNat

/-- `d_type` -/
inductive FileType
  | unknown | fifo | chr | dir | blk | reg | lnk | sock
  deriving DecidableEq, Repr

structure FileData where
  fileName : Text
  fileExt : Text
  fileType : FileType
  fileSize : ℤ
  lastModified : ℤ
  deriving DecidableEq, Repr

def dotDot : Text := ['.', '.']

def fileSort (mSortOrder : ℤ) (d₁ d₂ : FileData) : Bool :=
  if d₁.fileName = ['.'] then true
  else if d₂.fileName = ['.'] then false
  else if d₁.fileName = dotDot then true
  else if d₂.fileName = dotDot then false
  else if mSortOrder = 3 then
    if d₁.fileSize = d₂.fileSize ∨ d₁.fileType = .dir then
      decide (strcasecmp d₁.fileName d₂.fileName < 0)
    else decide (d₁.fileSize < d₂.fileSize)
  else if mSortOrder = -3 then
    if d₁.fileSize = d₂.fileSize ∨ d₁.fileType = .dir then
      decide (strcasecmp d₁.fileName d₂.fileName > 0)
    else decide (d₁.fileSize > d₂.fileSize)
  else if mSortOrder = 2 then
    if d₁.lastModified = d₂.lastModified then
      decide (strcasecmp d₁.fileName d₂.fileName < 0)
    else decide (d₁.lastModified < d₂.lastModified)
  else if mSortOrder = -2 then
    if d₁.lastModified = d₂.lastModified then
      decide (strcasecmp d₁.fileName d₂.fileName > 0)
    else decide (d₁.lastModified > d₂.lastModified)
  else if mSortOrder = -1 then decide (strcasecmp d₁.fileName d₂.fileName > 0)
  else decide (strcasecmp d₁.fileName d₂.fileName < 0)

/-! ### `GetFileList` -/

/-- What the folder and `stat` say about an entry. `typeFromStat` is asked for where the folder
does not know the type. -/
structure DirEntry where
  name : Text
  dType : FileType
  typeFromStat : FileType
  size : ℤ
  modified : ℤ
  deriving DecidableEq, Repr

/-- The settings of the selector, the variables that it reads, and `Check_ADB_Backup_File`. -/
structure FileSelector where
  folder : Text
  mShowNavFolders : Bool
  mExtn : Text
  mFileFilterVar : Text
  filterValue : Text
  ignoreHideVar : Bool
  twHiddenFiles : Text
  checkAdbBackupFile : Text → Bool

structure FileLists where
  mFolderList : List FileData
  mFileList : List FileData
  hasFiles : Bool
  hasHiddenFiles : Bool

namespace FileSelector
variable (selector : FileSelector)

def searchString : Text :=
  if selector.mFileFilterVar = [] then [] else lowercase selector.filterValue

def showHiddenFiles : Text :=
  if selector.mFileFilterVar ≠ [] then ['1']
  else if selector.ignoreHideVar then ['0']
  else selector.twHiddenFiles

/-- The entry does not have the text that is looked for. -/
def filtered (name : Text) : Bool :=
  selector.searchString ≠ [] && selector.mFileFilterVar ≠ [] && name ≠ dotDot &&
    !decide (selector.searchString <:+: name) &&
    !decide (selector.searchString <:+: lowercase name)

def hidden (name : Text) : Bool :=
  selector.showHiddenFiles = ['0'] &&
    (selector.folder = ['/'] && (name = "twres".toList || name = "tmp".toList) ||
      name ≠ dotDot && name.head? = some '.' ||
      name = "lost+found".toList)

def fileExtOf (name : Text) : Text :=
  lowercase (name.reverse.takeWhile fun c => c ≠ '.').reverse

/-- One element of `mExtn`, and a file of the folder, which keeps its extension for the next
ones. -/
def addForExtn (acc : FileData × FileLists) (mExtnElement : Text) : FileData × FileLists :=
  let (data, lists) := acc
  let mExtnName := trim mExtnElement
  let name := data.fileName
  if mExtnName = [] ∨ (name.length > mExtnName.length ∧
      lowercase (name.drop (name.length - mExtnName.length)) = mExtnName) then
    if mExtnName = ".ab".toList ∧
        selector.checkAdbBackupFile (selector.folder ++ '/' :: name) = true then
      (data, { lists with mFolderList := lists.mFolderList ++ [data] })
    else
      let data := { data with fileExt := fileExtOf name }
      (data, { lists with mFileList := lists.mFileList ++ [data] })
  else (data, lists)

def addEntry (lists : FileLists) (entry : DirEntry) : FileLists :=
  let name := entry.name
  if name = ['.'] then lists
  else if name = dotDot ∧ selector.folder = ['/'] then lists
  else if selector.filtered name then lists
  else if selector.hidden name then { lists with hasHiddenFiles := true }
  else
    let lists := { lists with hasFiles := lists.hasFiles || name ≠ dotDot }
    let fileType := if entry.dType = .unknown then entry.typeFromStat else entry.dType
    let data : FileData := ⟨name, [], fileType, entry.size, entry.modified⟩
    if fileType = .dir then
      if selector.mShowNavFolders || name ≠ dotDot then
        { lists with mFolderList := lists.mFolderList ++ [data] }
      else lists
    else if fileType = .reg ∨ fileType = .lnk ∨ fileType = .blk then
      ((selector.mExtn.splitOn ';').foldl selector.addForExtn (data, lists)).2
    else lists

/-- The lists before they are sorted. -/
def getFileList (entries : List DirEntry) : FileLists :=
  entries.foldl selector.addEntry ⟨[], [], false, false⟩

end FileSelector

/-! ### What a sort needs -/

/-- Sorting by this order is defined, and leaves the folder above in front. -/
structure SortsWell (mSortOrder : ℤ) (l : List FileData) : Prop where
  strict : StrictWeakOn (fileSort mSortOrder) l
  sorted : ∃ l', SortedInto (fileSort mSortOrder) l l'
  dotDotFirst : ∀ l', SortedInto (fileSort mSortOrder) l l' →
    (∃ d ∈ l, d.fileName = dotDot) → ∃ d rest, l' = d :: rest ∧ d.fileName = dotDot

def byName (d₁ d₂ : FileData) : Prop := strcasecmp d₁.fileName d₂.fileName < 0

def bySize (d₁ d₂ : FileData) : Prop :=
  d₁.fileSize < d₂.fileSize ∨ d₁.fileSize = d₂.fileSize ∧ byName d₁ d₂

def byDate (d₁ d₂ : FileData) : Prop :=
  d₁.lastModified < d₂.lastModified ∨ d₁.lastModified = d₂.lastModified ∧ byName d₁ d₂

/-- The folder above is not in the list, and for the orders by size the names of the folders agree
with the sizes and names of all other entries. -/
structure SortClear (mSortOrder : ℤ) (l : List FileData) : Prop where
  noDotDot : ∀ d ∈ l, d.fileName ≠ dotDot
  bySize : mSortOrder = 3 → Agree byName bySize (fun d => d.fileType = .dir) l
  bySizeDown : mSortOrder = -3 →
    Agree (fun x y => byName y x) (fun x y => Gui.bySize y x) (fun d => d.fileType = .dir) l

section strcasecmp
variable {s t : Text}

theorem strcasecmp_swap (s t : Text) : strcasecmp t s = -strcasecmp s t := by
  induction s generalizing t with
  | nil => cases t <;> rfl
  | cons a s ih =>
    cases t with
    | nil => rfl
    | cons b t =>
      rw [strcasecmp, strcasecmp]
      by_cases h : a.toLower = b.toLower
      · rw [if_pos h, if_pos h.symm, ih]
      · rw [if_neg h, if_neg (Ne.symm h)]
        omega

theorem strcasecmp_pos_iff : strcasecmp s t > 0 ↔ strcasecmp t s < 0 := by
  rw [strcasecmp_swap s t]
  omega

/-- The letters that are compared. -/
def nameKey (s : Text) : List ℕ := s.map fun c => c.toLower.toNat

theorem strcasecmp_neg_iff : strcasecmp s t < 0 ↔ nameKey s < nameKey t := by
  induction s generalizing t with
  | nil =>
    cases t with
    | nil => simp [strcasecmp, nameKey]
    | cons b t => simp [strcasecmp, nameKey]
  | cons a s ih =>
    cases t with
    | nil => simp [strcasecmp, nameKey]
    | cons b t =>
      have hinj : a.toLower = b.toLower ↔ a.toLower.toNat = b.toLower.toNat :=
        ⟨congrArg _, fun h => Char.ext (UInt32.toNat_inj.mp h)⟩
      rw [strcasecmp, nameKey, nameKey, List.map_cons, List.map_cons, List.cons_lt_cons_iff]
      by_cases h : a.toLower = b.toLower
      · rw [if_pos h, ih]
        simp [nameKey, h]
      · rw [if_neg h]
        have hne := mt hinj.mpr h
        simp [hne]

end strcasecmp

section orders

theorem strictWeak_byName : StrictWeak byName :=
  .of_key (fun d => nameKey d.fileName) fun _ _ => strcasecmp_neg_iff

theorem strictWeak_bySize : StrictWeak bySize := strictWeak_byName.lex FileData.fileSize

theorem strictWeak_byDate : StrictWeak byDate := strictWeak_byName.lex FileData.lastModified

variable {mSortOrder : ℤ} {l : List FileData} {x y : FileData}

/-- Not the folder itself, and not the folder above. -/
def Named (d : FileData) : Prop := d.fileName ≠ ['.'] ∧ d.fileName ≠ dotDot

theorem key_iff {s t : ℤ} (p : Prop) [Decidable p] :
    (if s = t then decide p else decide (s < t)) = true ↔ s < t ∨ s = t ∧ p := by
  by_cases h : s = t
  · simp [h]
  · simp [h]

/-- The order by size asks for the type of the first one only. -/
theorem fileSort_size (hx : Named x) (hy : Named y) : fileSort 3 x y = true ↔
    if x.fileType = .dir then byName x y else bySize x y := by
  rw [fileSort, if_neg hx.1, if_neg hy.1, if_neg hx.2, if_neg hy.2, if_pos rfl]
  by_cases hdir : x.fileType = .dir
  · simp [hdir, byName]
  · simp only [hdir, or_false, if_false]
    exact key_iff _

theorem fileSort_sizeDown (hx : Named x) (hy : Named y) : fileSort (-3) x y = true ↔
    if x.fileType = .dir then byName y x else bySize y x := by
  rw [fileSort, if_neg hx.1, if_neg hy.1, if_neg hx.2, if_neg hy.2, if_neg (by decide), if_pos rfl]
  by_cases hdir : x.fileType = .dir
  · simp [hdir, byName, strcasecmp_pos_iff]
  · simp only [hdir, or_false, if_false, strcasecmp_pos_iff, eq_comm (a := x.fileSize)]
    exact key_iff _

theorem fileSort_date (hx : Named x) (hy : Named y) : fileSort 2 x y = true ↔ byDate x y := by
  rw [fileSort, if_neg hx.1, if_neg hy.1, if_neg hx.2, if_neg hy.2, if_neg (by decide),
    if_neg (by decide), if_pos rfl]
  exact key_iff _

theorem fileSort_dateDown (hx : Named x) (hy : Named y) :
    fileSort (-2) x y = true ↔ byDate y x := by
  rw [fileSort, if_neg hx.1, if_neg hy.1, if_neg hx.2, if_neg hy.2, if_neg (by decide),
    if_neg (by decide), if_neg (by decide), if_pos rfl]
  simp only [strcasecmp_pos_iff, eq_comm (a := x.lastModified)]
  exact key_iff _

theorem fileSort_nameDown (hx : Named x) (hy : Named y) :
    fileSort (-1) x y = true ↔ byName y x := by
  rw [fileSort, if_neg hx.1, if_neg hy.1, if_neg hx.2, if_neg hy.2, if_neg (by decide),
    if_neg (by decide), if_neg (by decide), if_neg (by decide), if_pos rfl, decide_eq_true_iff,
    strcasecmp_pos_iff]
  rfl

theorem fileSort_name (hx : Named x) (hy : Named y)
    (h : mSortOrder ≠ 3 ∧ mSortOrder ≠ -3 ∧ mSortOrder ≠ 2 ∧ mSortOrder ≠ -2 ∧ mSortOrder ≠ -1) :
    fileSort mSortOrder x y = true ↔ byName x y := by
  rw [fileSort, if_neg hx.1, if_neg hy.1, if_neg hx.2, if_neg hy.2, if_neg h.1, if_neg h.2.1,
    if_neg h.2.2.1, if_neg h.2.2.2.1, if_neg h.2.2.2.2, decide_eq_true_iff]
  rfl

/-- The folder above is less than itself. -/
theorem fileSort_dotDot (mSortOrder : ℤ) (h : x.fileName = dotDot) :
    fileSort mSortOrder x x = true := by
  have hdot : x.fileName ≠ ['.'] := by
    rw [h]
    decide
  rw [fileSort, if_neg hdot, if_neg hdot, if_pos h]

/-- Without the folder above, only the orders by size ask for anything. -/
theorem strictWeakOn_fileSort_iff (hnamed : ∀ d ∈ l, Named d) :
    StrictWeakOn (fileSort mSortOrder) l ↔
      (mSortOrder = 3 → Agree byName bySize (fun d => d.fileType = .dir) l) ∧
        (mSortOrder = -3 → Agree (fun x y => byName y x) (fun x y => bySize y x)
          (fun d => d.fileType = .dir) l) := by
  by_cases hsize : mSortOrder = 3
  · subst hsize
    rw [strictWeakOn_mixed_iff strictWeak_byName strictWeak_bySize fun x hx y hy =>
      fileSort_size (hnamed x hx) (hnamed y hy)]
    simp
  by_cases hsizeDown : mSortOrder = -3
  · subst hsizeDown
    rw [strictWeakOn_mixed_iff strictWeak_byName.flip strictWeak_bySize.flip fun x hx y hy =>
      fileSort_sizeDown (hnamed x hx) (hnamed y hy)]
    simp
  refine iff_of_true ?_ ⟨fun h => absurd h hsize, fun h => absurd h hsizeDown⟩
  by_cases hdate : mSortOrder = 2
  · subst hdate
    exact strictWeak_byDate.on fun x hx y hy => fileSort_date (hnamed x hx) (hnamed y hy)
  by_cases hdateDown : mSortOrder = -2
  · subst hdateDown
    exact strictWeak_byDate.flip.on fun x hx y hy =>
      fileSort_dateDown (hnamed x hx) (hnamed y hy)
  by_cases hnameDown : mSortOrder = -1
  · subst hnameDown
    exact strictWeak_byName.flip.on fun x hx y hy =>
      fileSort_nameDown (hnamed x hx) (hnamed y hy)
  exact strictWeak_byName.on fun x hx y hy => fileSort_name (hnamed x hx) (hnamed y hy)
    ⟨hsize, hsizeDown, hdate, hdateDown, hnameDown⟩

theorem sortsWell_iff (hdot : ∀ d ∈ l, d.fileName ≠ ['.']) :
    SortsWell mSortOrder l ↔ SortClear mSortOrder l := by
  constructor
  · intro h
    have hno : ∀ d ∈ l, d.fileName ≠ dotDot := fun d hd heq =>
      absurd ((fileSort_dotDot mSortOrder heq).symm.trans (h.strict.irrefl d hd)) (by decide)
    have hagree := (strictWeakOn_fileSort_iff fun d hd => ⟨hdot d hd, hno d hd⟩).mp h.strict
    exact ⟨hno, hagree.1, hagree.2⟩
  · intro h
    have hstrict := (strictWeakOn_fileSort_iff fun d hd => ⟨hdot d hd, h.noDotDot d hd⟩).mpr
      ⟨h.bySize, h.bySizeDown⟩
    refine ⟨hstrict, hstrict.exists_sorted, fun l' _ hdotDot => ?_⟩
    obtain ⟨d, hd, heq⟩ := hdotDot
    exact absurd heq (h.noDotDot d hd)

end orders

section getFileList
variable (selector : FileSelector) {lists : FileLists}

/-- The folder itself is in neither list. -/
structure FileLists.NoDot (lists : FileLists) : Prop where
  folders : ∀ d ∈ lists.mFolderList, d.fileName ≠ ['.']
  files : ∀ d ∈ lists.mFileList, d.fileName ≠ ['.']

theorem noDot_concat {l : List FileData} {data : FileData} (hl : ∀ d ∈ l, d.fileName ≠ ['.'])
    (hdata : data.fileName ≠ ['.']) : ∀ d ∈ l ++ [data], d.fileName ≠ ['.'] := by
  intro d hd
  rcases List.mem_append.mp hd with hd | hd
  · exact hl d hd
  · rwa [List.mem_singleton.mp hd]

theorem addForExtn_noDot {acc : FileData × FileLists} (hdata : acc.1.fileName ≠ ['.'])
    (h : acc.2.NoDot) (mExtnElement : Text) :
    (selector.addForExtn acc mExtnElement).1.fileName ≠ ['.'] ∧
      (selector.addForExtn acc mExtnElement).2.NoDot := by
  unfold FileSelector.addForExtn
  dsimp only
  split_ifs
  · exact ⟨hdata, noDot_concat h.folders hdata, h.files⟩
  · exact ⟨hdata, h.folders, noDot_concat h.files hdata⟩
  · exact ⟨hdata, h⟩

theorem foldl_addForExtn_noDot (elements : List Text) {acc : FileData × FileLists}
    (hdata : acc.1.fileName ≠ ['.']) (h : acc.2.NoDot) :
    (elements.foldl selector.addForExtn acc).2.NoDot := by
  induction elements generalizing acc with
  | nil => exact h
  | cons element elements ih =>
    obtain ⟨hdata', h'⟩ := addForExtn_noDot selector hdata h element
    exact ih hdata' h'

theorem addEntry_noDot (h : lists.NoDot) (entry : DirEntry) :
    (selector.addEntry lists entry).NoDot := by
  unfold FileSelector.addEntry
  dsimp only
  generalize (if entry.dType = .unknown then entry.typeFromStat else entry.dType) = fileType
  split_ifs with hdot
  · exact h
  · exact h
  · exact h
  · exact ⟨h.folders, h.files⟩
  · exact ⟨noDot_concat h.folders hdot, h.files⟩
  · exact ⟨h.folders, h.files⟩
  · apply foldl_addForExtn_noDot
    · exact hdot
    · exact ⟨h.folders, h.files⟩
  · exact ⟨h.folders, h.files⟩

theorem getFileList_noDot (entries : List DirEntry) : (selector.getFileList entries).NoDot := by
  have hfold : ∀ lists : FileLists, lists.NoDot →
      (entries.foldl selector.addEntry lists).NoDot := by
    induction entries with
    | nil => exact fun lists h => h
    | cons entry entries ih => exact fun lists h => ih _ (addEntry_noDot selector h entry)
  exact hfold _ ⟨fun d hd => absurd hd List.not_mem_nil, fun d hd => absurd hd List.not_mem_nil⟩

/-- Both lists can be sorted exactly where the folder above is in neither and, for the orders by
size, the names of the folders agree with all other entries. -/
theorem getFileList_sortsWell_iff (entries : List DirEntry) (mSortOrder : ℤ) :
    SortsWell mSortOrder (selector.getFileList entries).mFolderList ∧
        SortsWell mSortOrder (selector.getFileList entries).mFileList ↔
      SortClear mSortOrder (selector.getFileList entries).mFolderList ∧
        SortClear mSortOrder (selector.getFileList entries).mFileList := by
  have h := getFileList_noDot selector entries
  rw [sortsWell_iff h.folders, sortsWell_iff h.files]

end getFileList

/-- A selector of backups that shows folders too. -/
def backupSelector : FileSelector where
  folder := ['/', 's']
  mShowNavFolders := true
  mExtn := ['.', 'a', 'b']
  mFileFilterVar := []
  filterValue := []
  ignoreHideVar := false
  twHiddenFiles := ['1']
  checkAdbBackupFile _ := true

def upEntry : DirEntry := ⟨dotDot, .dir, .dir, 4096, 0⟩

def folderEntry : DirEntry := ⟨['a'], .dir, .dir, 4096, 0⟩

def backupEntry : DirEntry := ⟨['b', '.', 'a', 'b'], .reg, .reg, 10, 0⟩

def folderData : FileData := ⟨['a'], [], .dir, 4096, 0⟩

def backupData : FileData := ⟨['b', '.', 'a', 'b'], [], .reg, 10, 0⟩

/-- By name, the folder above is less than itself; by size, a folder is less than a small backup
and the backup less than the folder. -/
theorem not_sortsWell_backups :
    ¬SortsWell 1 (backupSelector.getFileList [upEntry]).mFolderList ∧
      (backupSelector.getFileList [folderEntry, backupEntry]).mFolderList =
        [folderData, backupData] ∧
      fileSort 3 folderData backupData = true ∧ fileSort 3 backupData folderData = true ∧
      ¬SortsWell 3 (backupSelector.getFileList [folderEntry, backupEntry]).mFolderList := by
  have hlist : (backupSelector.getFileList [folderEntry, backupEntry]).mFolderList =
      [folderData, backupData] := rfl
  refine ⟨fun h => ?_, hlist, rfl, rfl, fun h => ?_⟩
  · have hirrefl := h.strict.irrefl ⟨dotDot, [], .dir, 4096, 0⟩ (List.mem_singleton_self _)
    exact absurd hirrefl (by decide)
  · rw [hlist] at h
    have hasymm := h.strict.asymm folderData (by simp) backupData (by simp) rfl
    exact absurd hasymm (by decide)

end BootableRecovery.Gui
