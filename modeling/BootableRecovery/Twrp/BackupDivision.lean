import BootableRecovery.Twrp.ExtractTar

namespace BootableRecovery.Twrp
open Lib

/-! How `createTarFork` divides an encrypted backup into threads. -/

/-- What an entry that is no directory is, and its `st_size`. -/
inductive FileKind
  | regular (size : ℕ)
  | symlink (size : ℕ)
  | block (size : ℕ)
  | character (size : ℕ)
  | fifo (size : ℕ)
  | socket (size : ℕ)
  deriving DecidableEq, Repr

/-- A directory: its entries as `readdir` lists them, without `.` and `..`. -/
inductive Folder
  | nil
  | file (name : Text) (kind : FileKind) (rest : Folder)
  | dir (name : Text) (contents rest : Folder)
  deriving DecidableEq, Repr

def sIFREG : ℕ := 0o100000

def sIFDIR : ℕ := 0o040000

def sIFLNK : ℕ := 0o120000

def FileKind.stMode : FileKind → ℕ
  | .regular _ => sIFREG
  | .symlink _ => sIFLNK
  | .block _ => 0o060000
  | .character _ => 0o020000
  | .fifo _ => 0o010000
  | .socket _ => 0o140000

def FileKind.stSize : FileKind → ℕ
  | .regular size => size
  | .symlink size => size
  | .block size => size
  | .character size => size
  | .fifo size => size
  | .socket size => size

def FileKind.isSocket : FileKind → Bool
  | .socket _ => true
  | _ => false

structure TWExclude where
  relativedir : List Text
  absolutedir : List Text

/-- `Remove_Trailing_Slashes`: runs of slashes become one, and none stays at the end. -/
def removeTrailingSlashes (path : Text) : Text :=
  match path.splitOn '/' with
  | [] => []
  | first :: rest => first ++ (rest.filter fun c => c ≠ []).flatMap fun c => '/' :: c

def TWExclude.checkSkipDirs (ex : TWExclude) (path : Text) : Bool :=
  let normalized := removeTrailingSlashes path
  let last := getFilename normalized
  ('/' ∈ normalized ∧ last ≠ [] ∧ ex.relativedir.contains last) ∨
    ex.absolutedir.contains normalized

def childPath (path name : Text) : Text := path ++ '/' :: name

variable (ex : TWExclude) (userdataEncryption : Bool)

/-- `Get_Folder_Size`. A block device has the directory bit of its mode set; its folder cannot be
opened and counts nothing. -/
def TWExclude.getFolderSize (path : Text) : Folder → ℕ
  | .nil => 0
  | .file name kind rest =>
    let size :=
      if kind.stMode &&& sIFDIR ≠ 0 ∧ ex.checkSkipDirs (childPath path name) = false ∧
          kind.isSocket = false then 0
      else if kind.stMode &&& sIFREG ≠ 0 ∨ kind.stMode &&& sIFLNK ≠ 0 then kind.stSize
      else 0
    (size + TWExclude.getFolderSize path rest) % 2 ^ 64
  | .dir name contents rest =>
    let size :=
      if ex.checkSkipDirs (childPath path name) = false then
        TWExclude.getFolderSize (childPath path name) contents
      else 0
    (size + TWExclude.getFolderSize path rest) % 2 ^ 64

structure ListState where
  tarList : List TarListStruct
  archiveCurrentSize : ℕ
  threadId : ℕ

def ListState.push (s : ListState) (fn : Text) : ListState :=
  { s with tarList := s.tarList ++ [⟨fn, s.threadId⟩] }

def ListState.grow (s : ListState) (size : ℕ) : ListState :=
  { s with archiveCurrentSize := (s.archiveCurrentSize + size) % 2 ^ 64 }

/-- The test at the end of a file's pass: the next thread takes over. -/
def ListState.nextThread (s : ListState) (targetSize : ℕ) : ListState :=
  if s.archiveCurrentSize ≠ 0 ∧ targetSize ≠ 0 ∧ s.archiveCurrentSize > targetSize then
    { s with threadId := s.threadId + 1, archiveCurrentSize := 0 }
  else s

/-- `Generate_TarList`. -/
def generateTarList (targetSize : ℕ) (path : Text) : Folder → ListState → ListState
  | .nil, s => s
  | .file name kind rest, s =>
    let fileName := childPath path name
    let s' :=
      if ex.checkSkipDirs fileName then s
      else
        match kind with
        | .regular size => (((s.push fileName).grow size).nextThread targetSize)
        | .symlink _ => (s.push fileName).nextThread targetSize
        | .block _ => s
        | .character _ => s
        | .fifo _ => s
        | .socket _ => s
    generateTarList targetSize path rest s'
  | .dir name contents rest, s =>
    let fileName := childPath path name
    let s' :=
      if ex.checkSkipDirs fileName then s
      else generateTarList targetSize fileName contents (s.push fileName)
    generateTarList targetSize path rest s'

/-- The directories of user data that are not encrypted. -/
def isUnencryptedDir (name : Text) : Bool :=
  userdataEncryption && ("app".toList.isPrefixOf name || "dalvik".toList.isPrefixOf name)

/-- The first loop over the backed up folder: the size to encrypt, and the list of the files that
are not encrypted. -/
def sizeLoop (tardir : Text) : Folder → ℕ → ListState → ℕ × ListState
  | .nil, encryptSize, reg => (encryptSize, reg)
  | .file name kind rest, encryptSize, reg =>
    let encryptSize' :=
      if ex.checkSkipDirs (childPath tardir name) then encryptSize
      else
        match kind with
        | .regular size => (encryptSize + size) % 2 ^ 64
        | .symlink _ => encryptSize
        | .block _ => encryptSize
        | .character _ => encryptSize
        | .fifo _ => encryptSize
        | .socket _ => encryptSize
    sizeLoop tardir rest encryptSize' reg
  | .dir name contents rest, encryptSize, reg =>
    let fileName := childPath tardir name
    if ex.checkSkipDirs fileName then sizeLoop tardir rest encryptSize reg
    else if isUnencryptedDir userdataEncryption name then
      sizeLoop tardir rest encryptSize (generateTarList ex 0 fileName contents reg)
    else
      sizeLoop tardir rest ((encryptSize + ex.getFolderSize fileName contents) % 2 ^ 64) reg

/-- The second loop: the list of the files to encrypt. A regular file here counts but does not
start a thread. -/
def divideLoop (targetSize : ℕ) (tardir : Text) : Folder → ListState → ListState
  | .nil, s => s
  | .file name kind rest, s =>
    let fileName := childPath tardir name
    let s' :=
      if ex.checkSkipDirs fileName then s
      else
        match kind with
        | .regular size => (s.grow size).push fileName
        | .symlink _ => s.push fileName
        | .block _ => s
        | .character _ => s
        | .fifo _ => s
        | .socket _ => s
    divideLoop targetSize tardir rest s'
  | .dir name contents rest, s =>
    let fileName := childPath tardir name
    let s' :=
      if ex.checkSkipDirs fileName then s
      else if isUnencryptedDir userdataEncryption name then s
      else generateTarList ex targetSize fileName contents s
    divideLoop targetSize tardir rest s'

/-- What the threads are started with. -/
structure Division where
  regularList : List TarListStruct
  encryptList : List TarListStruct
  startThreadId : ℕ
  coreCount : ℕ
  encThreadId : ℕ
  deriving DecidableEq

/-- The child of `createTarFork` up to the test of the thread count. -/
def divide (cores : CoreCount) (tardir : Text) (folder : Folder) : Division :=
  let (encryptSize, reg) := sizeLoop ex userdataEncryption tardir folder 0 ⟨[], 0, 0⟩
  let targetSize := (encryptSize / cores + 1) % 2 ^ 64
  let startThreadId := if userdataEncryption then 1 else 0
  let coreCount := if userdataEncryption then cores.val else cores.val - 1
  let enc := divideLoop ex userdataEncryption targetSize tardir folder ⟨[], 0, startThreadId⟩
  { regularList := reg.tarList
    encryptList := enc.tarList
    startThreadId := startThreadId
    coreCount := coreCount
    encThreadId := enc.threadId }

/-- The threads: an id and the list each runs through. -/
def Division.tarThreads (div : Division) : List (ℕ × List TarListStruct) :=
  (if userdataEncryption then [(0, div.regularList)] else []) ++
    (List.range' div.startThreadId (div.coreCount + 1 - div.startThreadId)).map fun i =>
      (i, div.encryptList)

/-- The threads that are started, unless there are too few of them. -/
def startThreads (cores : CoreCount) (tardir : Text) (folder : Folder) :
    Option (List (ℕ × List TarListStruct)) :=
  let div := divide ex userdataEncryption cores tardir folder
  if div.encThreadId > div.coreCount then none -- "Error dividing up threads for encryption"
  else some (div.tarThreads userdataEncryption)

/-! ### What the walks list -/

def FileKind.listed : FileKind → Bool
  | .regular _ => true
  | .symlink _ => true
  | .block _ => false
  | .character _ => false
  | .fifo _ => false
  | .socket _ => false

def FileKind.regularSize : FileKind → ℕ
  | .regular size => size
  | .symlink _ => 0
  | .block _ => 0
  | .character _ => 0
  | .fifo _ => 0
  | .socket _ => 0

/-- The paths one entry that is no directory contributes, and its bytes. -/
def filePaths (fileName : Text) (kind : FileKind) : List Text :=
  if ex.checkSkipDirs fileName then [] else if kind.listed then [fileName] else []

def fileBytes (fileName : Text) (kind : FileKind) : ℕ :=
  if ex.checkSkipDirs fileName then 0 else kind.regularSize

def listedPaths (path : Text) : Folder → List Text
  | .nil => []
  | .file name kind rest => filePaths ex (childPath path name) kind ++ listedPaths path rest
  | .dir name contents rest =>
    (if ex.checkSkipDirs (childPath path name) then []
      else childPath path name :: listedPaths (childPath path name) contents) ++
      listedPaths path rest

def listedBytes (path : Text) : Folder → ℕ
  | .nil => 0
  | .file name kind rest => fileBytes ex (childPath path name) kind + listedBytes path rest
  | .dir name contents rest =>
    (if ex.checkSkipDirs (childPath path name) then 0
      else listedBytes (childPath path name) contents) + listedBytes path rest

/-- Everything in a folder. -/
def Folder.total : Folder → ℕ
  | .nil => 0
  | .file _ kind rest => kind.stSize + rest.total
  | .dir _ contents rest => contents.total + rest.total

/-- The step from one state of a list to a later one: the paths added, the bytes counted. A
thread that is left has passed the target, so threads and bytes pay for each other. -/
structure Extends (targetSize : ℕ) (paths : List Text) (bytes : ℕ) (s s' : ListState) : Prop where
  items : ∃ items, s'.tarList = s.tarList ++ items ∧ items.map TarListStruct.fn = paths ∧
    ∀ item ∈ items, s.threadId ≤ item.threadId ∧ item.threadId ≤ s'.threadId
  le : s.threadId ≤ s'.threadId
  paid : s'.threadId * (targetSize + 1) + s'.archiveCurrentSize ≤
    s.threadId * (targetSize + 1) + s.archiveCurrentSize + bytes
  noTarget : targetSize = 0 → s'.threadId = s.threadId

section Extends
variable {targetSize : ℕ} {paths paths' : List Text} {bytes bytes' : ℕ} {s s₁ s' : ListState}

theorem Extends.refl : Extends targetSize [] 0 s s :=
  ⟨⟨[], by simp, rfl, by simp⟩, le_refl _, le_refl _, fun _ => rfl⟩

theorem Extends.trans (h : Extends targetSize paths bytes s s₁)
    (h' : Extends targetSize paths' bytes' s₁ s') :
    Extends targetSize (paths ++ paths') (bytes + bytes') s s' := by
  obtain ⟨items, hlist, hfn, hid⟩ := h.items
  obtain ⟨items', hlist', hfn', hid'⟩ := h'.items
  refine ⟨⟨items ++ items', ?_, ?_, ?_⟩, h.le.trans h'.le, ?_, ?_⟩
  · rw [hlist', hlist, List.append_assoc]
  · rw [List.map_append, hfn, hfn']
  · intro item hitem
    rcases List.mem_append.mp hitem with hitem | hitem
    · exact ⟨(hid item hitem).1, (hid item hitem).2.trans h'.le⟩
    · exact ⟨h.le.trans (hid' item hitem).1, (hid' item hitem).2⟩
  · have := h.paid
    have := h'.paid
    omega
  · intro hz
    rw [h'.noTarget hz, h.noTarget hz]

theorem extends_push (fn : Text) : Extends targetSize [fn] 0 s (s.push fn) :=
  ⟨⟨[⟨fn, s.threadId⟩], rfl, rfl, by simp [ListState.push]⟩, le_refl _, le_refl _, fun _ => rfl⟩

theorem extends_grow (size : ℕ) : Extends targetSize [] size s (s.grow size) := by
  refine ⟨⟨[], by simp [ListState.grow], rfl, by simp⟩, le_refl _, ?_, fun _ => rfl⟩
  have := Nat.mod_le (s.archiveCurrentSize + size) (2 ^ 64)
  simp only [ListState.grow]
  omega

theorem extends_nextThread : Extends targetSize [] 0 s (s.nextThread targetSize) := by
  rw [ListState.nextThread]
  split_ifs with h
  · refine ⟨⟨[], by simp, rfl, by simp⟩, Nat.le_succ _, ?_, fun hz => absurd hz h.2.1⟩
    have := h.2.2
    dsimp only
    rw [Nat.add_mul]
    omega
  · exact .refl

end Extends

variable (targetSize : ℕ)

/-- `paths` and `bytes` up to how their sums are written. -/
theorem Extends.cast {targetSize : ℕ} {paths paths' : List Text} {bytes bytes' : ℕ}
    {s s' : ListState} (h : Extends targetSize paths bytes s s') (hp : paths = paths')
    (hb : bytes = bytes') : Extends targetSize paths' bytes' s s' := hp ▸ hb ▸ h

theorem generateTarList_extends (path : Text) (folder : Folder) (s : ListState) :
    Extends targetSize (listedPaths ex path folder) (listedBytes ex path folder) s
      (generateTarList ex targetSize path folder s) := by
  induction folder generalizing path s with
  | nil => exact .refl
  | file name kind rest ih =>
    refine Extends.trans ?_ (ih path _)
    rw [filePaths, fileBytes]
    by_cases hskip : ex.checkSkipDirs (childPath path name) = true
    · rw [if_pos hskip, if_pos hskip, if_pos hskip]
      exact .refl
    · rw [if_neg hskip, if_neg hskip, if_neg hskip]
      cases kind with
      | regular size =>
        exact ((extends_push _).trans ((extends_grow size).trans extends_nextThread)).cast rfl
          (Nat.zero_add _)
      | symlink size => exact (extends_push _).trans extends_nextThread
      | block size => exact .refl
      | character size => exact .refl
      | fifo size => exact .refl
      | socket size => exact .refl
  | dir name contents rest ihc ih =>
    refine Extends.trans ?_ (ih path _)
    by_cases hskip : ex.checkSkipDirs (childPath path name) = true
    · rw [if_pos hskip, if_pos hskip, if_pos hskip]
      exact .refl
    · rw [if_neg hskip, if_neg hskip, if_neg hskip]
      exact ((extends_push _).trans (ihc _ _)).cast rfl (Nat.zero_add _)

/-! ### The two loops -/

/-- The paths that a loop over the backed up folder lists: those of the unencrypted directories
or those of everything else. -/
def topPaths (unencrypted : Bool) (tardir : Text) : Folder → List Text
  | .nil => []
  | .file name kind rest =>
    (if unencrypted then [] else filePaths ex (childPath tardir name) kind) ++
      topPaths unencrypted tardir rest
  | .dir name contents rest =>
    (if ex.checkSkipDirs (childPath tardir name) then []
      else if isUnencryptedDir userdataEncryption name = unencrypted then
        listedPaths ex (childPath tardir name) contents
      else []) ++ topPaths unencrypted tardir rest

def encryptBytes (tardir : Text) : Folder → ℕ
  | .nil => 0
  | .file name kind rest => fileBytes ex (childPath tardir name) kind + encryptBytes tardir rest
  | .dir name contents rest =>
    (if ex.checkSkipDirs (childPath tardir name) then 0
      else if isUnencryptedDir userdataEncryption name = false then
        listedBytes ex (childPath tardir name) contents
      else 0) + encryptBytes tardir rest

theorem divideLoop_extends (tardir : Text) (folder : Folder) (s : ListState) :
    Extends targetSize (topPaths ex userdataEncryption false tardir folder)
      (encryptBytes ex userdataEncryption tardir folder) s
      (divideLoop ex userdataEncryption targetSize tardir folder s) := by
  induction folder generalizing s with
  | nil => exact .refl
  | file name kind rest ih =>
    refine Extends.trans ?_ (ih _)
    rw [if_neg Bool.false_ne_true, filePaths, fileBytes]
    by_cases hskip : ex.checkSkipDirs (childPath tardir name) = true
    · rw [if_pos hskip, if_pos hskip, if_pos hskip]
      exact .refl
    · rw [if_neg hskip, if_neg hskip, if_neg hskip]
      cases kind with
      | regular size => exact (extends_grow size).trans (extends_push _)
      | symlink size => exact extends_push _
      | block size => exact .refl
      | character size => exact .refl
      | fifo size => exact .refl
      | socket size => exact .refl
  | dir name contents rest ihc ih =>
    refine Extends.trans ?_ (ih _)
    by_cases hskip : ex.checkSkipDirs (childPath tardir name) = true
    · rw [if_pos hskip, if_pos hskip, if_pos hskip]
      exact .refl
    · rw [if_neg hskip, if_neg hskip, if_neg hskip]
      by_cases hdir : isUnencryptedDir userdataEncryption name = true
      · rw [if_pos hdir, hdir]
        exact .refl
      · rw [if_neg hdir, if_pos (Bool.not_eq_true _ ▸ hdir), if_pos (Bool.not_eq_true _ ▸ hdir)]
        exact generateTarList_extends ex targetSize _ contents s

theorem sizeLoop_extends (tardir : Text) (folder : Folder) (size : ℕ) (reg : ListState) :
    ∃ bytes, Extends 0 (topPaths ex userdataEncryption true tardir folder) bytes reg
      (sizeLoop ex userdataEncryption tardir folder size reg).2 := by
  induction folder generalizing size reg with
  | nil => exact ⟨0, .refl⟩
  | file name kind rest ih =>
    exact ih _ reg
  | dir name contents rest ihc ih =>
    rw [sizeLoop, topPaths]
    by_cases hskip : ex.checkSkipDirs (childPath tardir name) = true
    · rw [if_pos hskip, if_pos hskip]
      exact ih _ reg
    · rw [if_neg hskip, if_neg hskip]
      by_cases hdir : isUnencryptedDir userdataEncryption name = true
      · rw [if_pos hdir, if_pos hdir]
        obtain ⟨bytes, h⟩ := ih size (generateTarList ex 0 (childPath tardir name) contents reg)
        exact ⟨_, (generateTarList_extends ex 0 _ contents reg).trans h⟩
      · rw [if_neg hdir, if_neg hdir]
        exact ih _ reg

/-- What `Get_Folder_Size` counts for an entry that is no directory. -/
def entrySize (fileName : Text) (kind : FileKind) : ℕ :=
  if kind.stMode &&& sIFDIR ≠ 0 ∧ ex.checkSkipDirs fileName = false ∧ kind.isSocket = false then 0
  else if kind.stMode &&& sIFREG ≠ 0 ∨ kind.stMode &&& sIFLNK ≠ 0 then kind.stSize
  else 0

theorem entrySize_bounds (fileName : Text) (kind : FileKind) :
    fileBytes ex fileName kind ≤ entrySize ex fileName kind ∧
      entrySize ex fileName kind ≤ kind.stSize := by
  constructor
  · rw [fileBytes, entrySize]
    cases kind with
    | regular size =>
      have hdir : ¬((FileKind.regular size).stMode &&& sIFDIR ≠ 0 ∧
          ex.checkSkipDirs fileName = false ∧
            (FileKind.regular size).isSocket = false) := fun h =>
        h.1 (by decide : sIFREG &&& sIFDIR = 0)
      have hreg : (FileKind.regular size).stMode &&& sIFREG ≠ 0 ∨
          (FileKind.regular size).stMode &&& sIFLNK ≠ 0 :=
        .inl (by decide : sIFREG &&& sIFREG ≠ 0)
      rw [if_neg hdir, if_pos hreg]
      split_ifs
      · exact Nat.zero_le _
      · exact le_refl _
    | symlink size => split_ifs <;> exact Nat.zero_le _
    | block size => split_ifs <;> exact Nat.zero_le _
    | character size => split_ifs <;> exact Nat.zero_le _
    | fifo size => split_ifs <;> exact Nat.zero_le _
    | socket size => split_ifs <;> exact Nat.zero_le _
  · rw [entrySize]
    split_ifs
    · exact Nat.zero_le _
    · exact le_refl _
    · exact Nat.zero_le _

theorem getFolderSize_bounds (path : Text) (folder : Folder) (h : folder.total < 2 ^ 64) :
    listedBytes ex path folder ≤ ex.getFolderSize path folder ∧
      ex.getFolderSize path folder ≤ folder.total := by
  induction folder generalizing path with
  | nil => exact ⟨le_refl _, le_refl _⟩
  | file name kind rest ih =>
    rw [Folder.total] at h
    have hrest := ih path (by omega)
    have hentry := entrySize_bounds ex (childPath path name) kind
    have hsize : ex.getFolderSize path (.file name kind rest) =
        (entrySize ex (childPath path name) kind + ex.getFolderSize path rest) % 2 ^ 64 := rfl
    rw [hsize, listedBytes, Folder.total, Nat.mod_eq_of_lt (by omega)]
    omega
  | dir name contents rest ihc ih =>
    rw [Folder.total] at h
    have hrest := ih path (by omega)
    have hcontents := ihc (childPath path name) (by omega)
    rw [listedBytes, TWExclude.getFolderSize, Folder.total]
    by_cases hskip : ex.checkSkipDirs (childPath path name) = true
    · rw [if_pos hskip, if_neg (by rw [hskip]; decide), Nat.mod_eq_of_lt (by omega)]
      omega
    · rw [if_neg hskip, if_pos (by simpa using hskip), Nat.mod_eq_of_lt (by omega)]
      omega

theorem FileKind.regularSize_le (kind : FileKind) : kind.regularSize ≤ kind.stSize := by
  cases kind <;> simp [regularSize, stSize]

theorem sizeLoop_file (tardir name : Text) (kind : FileKind) (rest : Folder) (size : ℕ)
    (reg : ListState) (h : size + kind.stSize < 2 ^ 64) :
    sizeLoop ex userdataEncryption tardir (.file name kind rest) size reg =
      sizeLoop ex userdataEncryption tardir rest
        (size + fileBytes ex (childPath tardir name) kind) reg := by
  have hle := kind.regularSize_le
  have hmod : (size + kind.regularSize) % 2 ^ 64 = size + kind.regularSize :=
    Nat.mod_eq_of_lt (by omega)
  change sizeLoop ex userdataEncryption tardir rest (if _ then _ else _) reg = _
  rw [fileBytes]
  split_ifs
  · rfl
  · cases kind with
    | regular bytes => exact congrArg (fun n => sizeLoop _ _ tardir rest n reg) hmod
    | symlink bytes => rfl
    | block bytes => rfl
    | character bytes => rfl
    | fifo bytes => rfl
    | socket bytes => rfl

theorem fileBytes_le (fileName : Text) (kind : FileKind) :
    fileBytes ex fileName kind ≤ kind.stSize := by
  rw [fileBytes]
  split_ifs
  · exact Nat.zero_le _
  · exact kind.regularSize_le

/-- The first loop counts at least what the second one will. -/
theorem sizeLoop_bounds (tardir : Text) (folder : Folder) (size : ℕ) (reg : ListState)
    (h : size + folder.total < 2 ^ 64) :
    size + encryptBytes ex userdataEncryption tardir folder ≤
        (sizeLoop ex userdataEncryption tardir folder size reg).1 ∧
      (sizeLoop ex userdataEncryption tardir folder size reg).1 ≤ size + folder.total := by
  induction folder generalizing size reg with
  | nil => exact ⟨le_refl _, le_refl _⟩
  | file name kind rest ih =>
    rw [Folder.total] at h
    have hbytes := fileBytes_le ex (childPath tardir name) kind
    have hrest := ih (size + fileBytes ex (childPath tardir name) kind) reg (by omega)
    rw [encryptBytes, Folder.total, sizeLoop_file _ _ _ _ _ _ _ _ (by omega)]
    omega
  | dir name contents rest ihc ih =>
    rw [Folder.total] at h
    rw [encryptBytes, Folder.total, sizeLoop]
    have hcontents := getFolderSize_bounds ex (childPath tardir name) contents (by omega)
    by_cases hskip : ex.checkSkipDirs (childPath tardir name) = true
    · rw [if_pos hskip, if_pos hskip]
      have := ih size reg (by omega)
      omega
    · rw [if_neg hskip, if_neg hskip]
      by_cases hdir : isUnencryptedDir userdataEncryption name = true
      · rw [if_pos hdir, if_neg (by rw [hdir]; decide)]
        have := ih size (generateTarList ex 0 (childPath tardir name) contents reg) (by omega)
        omega
      · rw [if_neg hdir, if_pos (by simpa using hdir), Nat.mod_eq_of_lt (by omega)]
        have := ih (size + ex.getFolderSize (childPath tardir name) contents) reg (by omega)
        omega

/-! ### No path is listed twice -/

def Folder.names : Folder → List Text
  | .nil => []
  | .file name _ rest => name :: rest.names
  | .dir name _ rest => name :: rest.names

/-- The names of a directory's entries are distinct and hold no slash. -/
def Folder.WellFormed : Folder → Prop
  | .nil => True
  | .file name _ rest => '/' ∉ name ∧ name ∉ rest.names ∧ rest.WellFormed
  | .dir name contents rest =>
    '/' ∉ name ∧ name ∉ rest.names ∧ contents.WellFormed ∧ rest.WellFormed

/-- The entry `name` of `path`, or something inside it. -/
def Below (path name p : Text) : Prop :=
  ∃ tail, p = childPath path name ++ tail ∧ (tail = [] ∨ ∃ t, tail = '/' :: t)

theorem Folder.WellFormed.slash_not_mem {folder : Folder} (h : folder.WellFormed) {name : Text}
    (hname : name ∈ folder.names) : '/' ∉ name := by
  induction folder with
  | nil => cases hname
  | file first kind rest ih =>
    rcases List.mem_cons.mp hname with rfl | hname
    · exact h.1
    · exact ih h.2.2 hname
  | dir first contents rest _ ih =>
    rcases List.mem_cons.mp hname with rfl | hname
    · exact h.1
    · exact ih h.2.2.2 hname

theorem below_self (path name : Text) : Below path name (childPath path name) :=
  ⟨[], (List.append_nil _).symm, .inl rfl⟩

theorem Below.inner {path name inner p : Text} (h : Below (childPath path name) inner p) :
    Below path name p := by
  obtain ⟨tail, rfl, -⟩ := h
  exact ⟨'/' :: inner ++ tail, by simp [childPath], .inr ⟨inner ++ tail, rfl⟩⟩

theorem Below.ne {path name p : Text} (h : Below path name p) : p ≠ path := by
  rintro rfl
  obtain ⟨tail, heq, -⟩ := h
  have := congrArg List.length heq
  simp only [childPath, List.length_append, List.length_cons] at this
  omega

/-- A name ends at the next slash. -/
theorem Below.name_eq {path name name' p : Text} (hname : '/' ∉ name) (hname' : '/' ∉ name')
    (h : Below path name p) (h' : Below path name' p) : name = name' := by
  have hcut : ∀ (n tail : Text), '/' ∉ n → (tail = [] ∨ ∃ t, tail = '/' :: t) →
      (n ++ tail).takeWhile (fun c => c != '/') = n := by
    intro n tail hn htail
    rw [List.takeWhile_append_of_pos]
    · rcases htail with rfl | ⟨t, rfl⟩ <;> simp
    · intro c hc
      rw [bne_iff_ne]
      rintro rfl
      exact hn hc
  obtain ⟨tail, rfl, htail⟩ := h
  obtain ⟨tail', heq, htail'⟩ := h'
  simp only [childPath, List.append_assoc, List.cons_append, List.append_cancel_left_eq,
    List.cons.injEq, true_and] at heq
  rw [← hcut name tail hname htail, heq, hcut name' tail' hname' htail']

theorem mem_filePaths {fileName p : Text} {kind : FileKind} (h : p ∈ filePaths ex fileName kind) :
    p = fileName := by
  rw [filePaths] at h
  split_ifs at h
  · cases h
  · exact List.mem_singleton.mp h
  · cases h

theorem mem_listedPaths {path p : Text} {folder : Folder} (h : p ∈ listedPaths ex path folder) :
    ∃ name ∈ folder.names, Below path name p := by
  induction folder generalizing path with
  | nil => cases h
  | file name kind rest ih =>
    rcases List.mem_append.mp h with h | h
    · rw [mem_filePaths ex h]
      exact ⟨name, List.mem_cons_self, below_self path name⟩
    · obtain ⟨n, hn, hb⟩ := ih h
      exact ⟨n, List.mem_cons_of_mem _ hn, hb⟩
  | dir name contents rest ihc ih =>
    rcases List.mem_append.mp h with h | h
    · split_ifs at h
      · cases h
      · rcases List.mem_cons.mp h with rfl | h
        · exact ⟨name, List.mem_cons_self, below_self path name⟩
        · obtain ⟨n, -, hb⟩ := ihc h
          exact ⟨name, List.mem_cons_self, hb.inner⟩
    · obtain ⟨n, hn, hb⟩ := ih h
      exact ⟨n, List.mem_cons_of_mem _ hn, hb⟩

/-- Paths below an entry are none of those below the entries after it. -/
theorem disjoint_below {path name : Text} {folder : Folder} {l l' : List Text}
    (hslash : '/' ∉ name) (hname : name ∉ folder.names) (hwf : folder.WellFormed)
    (hl : ∀ p ∈ l, Below path name p) (hl' : ∀ p ∈ l', ∃ n ∈ folder.names, Below path n p) :
    l.Disjoint l' := by
  intro p hp hp'
  obtain ⟨n, hn, hb⟩ := hl' p hp'
  have heq := (hl p hp).name_eq hslash (hwf.slash_not_mem hn) hb
  exact hname (heq ▸ hn)

theorem filePaths_nodup (fileName : Text) (kind : FileKind) :
    (filePaths ex fileName kind).Nodup := by
  rw [filePaths]
  split_ifs
  · exact List.nodup_nil
  · exact List.nodup_singleton fileName
  · exact List.nodup_nil

theorem below_of_mem_filePaths {path name p : Text} {kind : FileKind}
    (h : p ∈ filePaths ex (childPath path name) kind) : Below path name p := by
  rw [mem_filePaths ex h]
  exact below_self path name

theorem listedPaths_nodup {path : Text} {folder : Folder} (h : folder.WellFormed) :
    (listedPaths ex path folder).Nodup := by
  induction folder generalizing path with
  | nil => exact List.nodup_nil
  | file name kind rest ih =>
    obtain ⟨hslash, hname, hrest⟩ := h
    exact List.Nodup.append (filePaths_nodup ex _ kind) (ih hrest)
      (disjoint_below hslash hname hrest (fun p hp => below_of_mem_filePaths ex hp)
        fun p hp => mem_listedPaths ex hp)
  | dir name contents rest ihc ih =>
    obtain ⟨hslash, hname, hcontents, hrest⟩ := h
    refine List.Nodup.append ?_ (ih hrest)
      (disjoint_below hslash hname hrest ?_ fun p hp => mem_listedPaths ex hp)
    · split_ifs
      · exact List.nodup_nil
      · rw [List.nodup_cons]
        refine ⟨fun hmem => ?_, ihc hcontents⟩
        obtain ⟨n, -, hb⟩ := mem_listedPaths ex hmem
        exact hb.ne rfl
    · intro p hp
      split_ifs at hp
      · cases hp
      · rcases List.mem_cons.mp hp with rfl | hp
        · exact below_self path name
        · obtain ⟨n, -, hb⟩ := mem_listedPaths ex hp
          exact hb.inner

/-- The paths that the first entry of the backed up folder contributes. -/
theorem below_of_mem_topDir {unencrypted : Bool} {tardir name p : Text} {contents : Folder}
    (h : p ∈ (if ex.checkSkipDirs (childPath tardir name) then []
      else if isUnencryptedDir userdataEncryption name = unencrypted then
        listedPaths ex (childPath tardir name) contents
      else [])) : isUnencryptedDir userdataEncryption name = unencrypted ∧ Below tardir name p := by
  split_ifs at h with hskip hdir
  · cases h
  · obtain ⟨n, -, hb⟩ := mem_listedPaths ex h
    exact ⟨hdir, hb.inner⟩
  · cases h

theorem below_of_mem_topFile {unencrypted : Bool} {tardir name p : Text} {kind : FileKind}
    (h : p ∈ (if unencrypted then [] else filePaths ex (childPath tardir name) kind)) :
    unencrypted = false ∧ Below tardir name p := by
  split_ifs at h with hu
  · cases h
  · exact ⟨Bool.not_eq_true _ ▸ hu, below_of_mem_filePaths ex h⟩

theorem mem_topPaths {unencrypted : Bool} {tardir p : Text} {folder : Folder}
    (h : p ∈ topPaths ex userdataEncryption unencrypted tardir folder) :
    ∃ name ∈ folder.names, Below tardir name p := by
  induction folder with
  | nil => cases h
  | file name kind rest ih =>
    rcases List.mem_append.mp h with h | h
    · exact ⟨name, List.mem_cons_self, (below_of_mem_topFile ex h).2⟩
    · obtain ⟨n, hn, hb⟩ := ih h
      exact ⟨n, List.mem_cons_of_mem _ hn, hb⟩
  | dir name contents rest _ ih =>
    rcases List.mem_append.mp h with h | h
    · exact ⟨name, List.mem_cons_self, (below_of_mem_topDir ex userdataEncryption h).2⟩
    · obtain ⟨n, hn, hb⟩ := ih h
      exact ⟨n, List.mem_cons_of_mem _ hn, hb⟩

theorem topPaths_nodup {unencrypted : Bool} {tardir : Text} {folder : Folder}
    (h : folder.WellFormed) : (topPaths ex userdataEncryption unencrypted tardir folder).Nodup := by
  induction folder with
  | nil => exact List.nodup_nil
  | file name kind rest ih =>
    obtain ⟨hslash, hname, hrest⟩ := h
    refine List.Nodup.append ?_ (ih hrest) (disjoint_below hslash hname hrest
      (fun p hp => (below_of_mem_topFile ex hp).2)
      fun p hp => mem_topPaths ex userdataEncryption hp)
    split_ifs
    · exact List.nodup_nil
    · exact filePaths_nodup ex _ kind
  | dir name contents rest _ ih =>
    obtain ⟨hslash, hname, hcontents, hrest⟩ := h
    refine List.Nodup.append ?_ (ih hrest) (disjoint_below hslash hname hrest
      (fun p hp => (below_of_mem_topDir ex userdataEncryption hp).2)
      fun p hp => mem_topPaths ex userdataEncryption hp)
    split_ifs
    · exact List.nodup_nil
    · exact listedPaths_nodup ex hcontents
    · exact List.nodup_nil

/-- No path is in both lists. -/
theorem topPaths_disjoint {tardir : Text} {folder : Folder} (h : folder.WellFormed) :
    (topPaths ex userdataEncryption true tardir folder).Disjoint
      (topPaths ex userdataEncryption false tardir folder) := by
  induction folder with
  | nil => exact List.disjoint_nil_left _
  | file name kind rest ih =>
    obtain ⟨hslash, hname, hrest⟩ := h
    simp only [topPaths, if_true, List.nil_append, Bool.false_eq_true, if_false]
    rw [List.disjoint_append_right]
    refine ⟨?_, ih hrest⟩
    exact List.disjoint_symm (disjoint_below hslash hname hrest
      (fun p hp => below_of_mem_filePaths ex hp) fun p hp => mem_topPaths ex userdataEncryption hp)
  | dir name contents rest _ ih =>
    obtain ⟨hslash, hname, hcontents, hrest⟩ := h
    rw [topPaths, topPaths, List.disjoint_append_left, List.disjoint_append_right,
      List.disjoint_append_right]
    refine ⟨⟨?_, ?_⟩, ?_, ih hrest⟩
    · intro p hp hp'
      have htrue := (below_of_mem_topDir ex userdataEncryption hp).1
      rw [(below_of_mem_topDir ex userdataEncryption hp').1] at htrue
      cases htrue
    · exact disjoint_below hslash hname hrest
        (fun p hp => (below_of_mem_topDir ex userdataEncryption hp).2)
        fun p hp => mem_topPaths ex userdataEncryption hp
    · exact List.disjoint_symm (disjoint_below hslash hname hrest
        (fun p hp => (below_of_mem_topDir ex userdataEncryption hp).2)
        fun p hp => mem_topPaths ex userdataEncryption hp)

/-! ### The division -/

/-- Each thread that is left has taken more than the target, and the target is more than an equal
share: fewer are left than there are cores. -/
theorem threads_lt_cores {cores bytes size first last current : ℕ} (hcores : 0 < cores)
    (hle : bytes ≤ size) (hsize : size < 2 ^ 64)
    (hpaid : last * ((size / cores + 1) % 2 ^ 64 + 1) + current ≤
      first * ((size / cores + 1) % 2 ^ 64 + 1) + bytes)
    (hstay : (size / cores + 1) % 2 ^ 64 = 0 → last = first) : last < first + cores := by
  by_contra hno
  have hshare : size < cores * (size / cores + 1) := Nat.lt_mul_div_succ size hcores
  have hdiv : size / cores ≤ size := Nat.div_le_self size cores
  rcases Nat.eq_zero_or_pos ((size / cores + 1) % 2 ^ 64) with hz | hpos
  · have := hstay hz
    omega
  · have hmod : (size / cores + 1) % 2 ^ 64 = size / cores + 1 := by
      apply Nat.mod_eq_of_lt
      by_contra hbig
      have heq : size / cores + 1 = 2 ^ 64 := by omega
      rw [heq, Nat.mod_self] at hpos
      exact Nat.lt_irrefl 0 hpos
    rw [hmod] at hpaid
    obtain ⟨k, rfl⟩ := Nat.exists_eq_add_of_le (not_lt.mp hno)
    have hexpand : (first + cores + k) * (size / cores + 1 + 1) =
        first * (size / cores + 1 + 1) + cores * (size / cores + 1) + cores +
          k * (size / cores + 1 + 1) := by ring
    omega

variable (cores : CoreCount) (tardir : Text) (folder : Folder)

/-- The lists of a division: what they hold, and which ids they give. -/
structure Divided (div : Division) : Prop where
  regularPaths : div.regularList.map TarListStruct.fn =
    topPaths ex userdataEncryption true tardir folder
  encryptPaths : div.encryptList.map TarListStruct.fn =
    topPaths ex userdataEncryption false tardir folder
  regularIds : ∀ item ∈ div.regularList, item.threadId = 0 ∧ userdataEncryption = true
  encryptIds : ∀ item ∈ div.encryptList,
    div.startThreadId ≤ item.threadId ∧ item.threadId ≤ div.encThreadId
  encThreadId_le : div.encThreadId ≤ div.coreCount
  start : div.startThreadId = if userdataEncryption then 1 else 0

theorem topPaths_unencrypted (h : userdataEncryption = false) :
    topPaths ex userdataEncryption true tardir folder = [] := by
  subst h
  induction folder with
  | nil => rfl
  | file name kind rest ih => exact ih
  | dir name contents rest _ ih =>
    rw [topPaths, ih, List.append_nil]
    split_ifs with hskip hdir
    · rfl
    · cases hdir
    · rfl

/-- The second loop stays within the threads there are. -/
theorem divide_le (hsum : folder.total < 2 ^ 64) :
    (divide ex userdataEncryption cores tardir folder).encThreadId ≤
      (divide ex userdataEncryption cores tardir folder).coreCount := by
  have hsize := sizeLoop_bounds ex userdataEncryption tardir folder 0 ⟨[], 0, 0⟩ (by omega)
  rw [Nat.zero_add] at hsize
  have henc := divideLoop_extends ex userdataEncryption
    (((sizeLoop ex userdataEncryption tardir folder 0 ⟨[], 0, 0⟩).1 / cores + 1) % 2 ^ 64)
    tardir folder ⟨[], 0, if userdataEncryption then 1 else 0⟩
  have hlt := threads_lt_cores cores.2.1 hsize.1 (by omega) henc.paid henc.noTarget
  change (divideLoop _ _ _ _ _ _).threadId ≤ if userdataEncryption then cores.val else cores.val - 1
  cases userdataEncryption with
  | true => exact Nat.lt_one_add_iff.mp hlt
  | false => exact Nat.le_sub_one_of_lt (lt_of_lt_of_eq hlt (Nat.zero_add cores.val))

theorem divided_of_le (hle : (divide ex userdataEncryption cores tardir folder).encThreadId ≤
      (divide ex userdataEncryption cores tardir folder).coreCount) :
    Divided ex userdataEncryption tardir folder (divide ex userdataEncryption cores tardir folder)
    := by
  obtain ⟨bytes, hreg⟩ := sizeLoop_extends ex userdataEncryption tardir folder 0 ⟨[], 0, 0⟩
  obtain ⟨regular, hlist, hfn, hid⟩ := hreg.items
  have hregular : (sizeLoop ex userdataEncryption tardir folder 0 ⟨[], 0, 0⟩).2.tarList = regular :=
    hlist
  have hzero := hreg.noTarget rfl
  obtain ⟨encrypted, hlist', hfn', hid'⟩ := (divideLoop_extends ex userdataEncryption
    (((sizeLoop ex userdataEncryption tardir folder 0 ⟨[], 0, 0⟩).1 / cores + 1) % 2 ^ 64)
    tardir folder ⟨[], 0, if userdataEncryption then 1 else 0⟩).items
  refine ⟨?_, ?_, ?_, ?_, hle, rfl⟩
  · change List.map _ (sizeLoop _ _ _ _ _ _).2.tarList = _
    rw [hregular, hfn]
  · change List.map _ (divideLoop _ _ _ _ _ _).tarList = _
    rw [hlist', List.nil_append, hfn']
  · intro item hitem
    change item ∈ (sizeLoop _ _ _ _ _ _).2.tarList at hitem
    rw [hregular] at hitem
    have := hid item hitem
    rw [hzero] at this
    refine ⟨Nat.le_zero.mp this.2, ?_⟩
    by_contra hno
    rw [topPaths_unencrypted ex userdataEncryption tardir folder (by simpa using hno),
      List.map_eq_nil_iff] at hfn
    rw [hfn] at hitem
    cases hitem
  · intro item hitem
    change item ∈ (divideLoop _ _ _ _ _ _).tarList at hitem
    rw [hlist', List.nil_append] at hitem
    exact hid' item hitem

theorem divide_divided (hsum : folder.total < 2 ^ 64) :
    Divided ex userdataEncryption tardir folder
      (divide ex userdataEncryption cores tardir folder) :=
  divided_of_le ex userdataEncryption cores tardir folder
    (divide_le ex userdataEncryption cores tardir folder hsum)

/-- The entries that a thread of `tarList` passes to `addFile`. -/
def passed (thread : ℕ × List TarListStruct) : List Text := threadEntries thread.1 thread.2

theorem mem_passed {thread : ℕ × List TarListStruct} {fn : Text} :
    fn ∈ passed thread ↔ ∃ item ∈ thread.2, item.threadId = thread.1 ∧ item.fn = fn := by
  simp [passed, threadEntries, and_assoc]

theorem mem_tarThreads {div : Division} {thread : ℕ × List TarListStruct} :
    thread ∈ div.tarThreads userdataEncryption ↔
      (userdataEncryption = true ∧ thread = (0, div.regularList)) ∨
        ∃ i, div.startThreadId ≤ i ∧
          i < div.startThreadId + (div.coreCount + 1 - div.startThreadId) ∧
          thread = (i, div.encryptList) := by
  rw [Division.tarThreads, List.mem_append]
  constructor
  · rintro (h | h)
    · split_ifs at h with hu
      · exact .inl ⟨hu, List.mem_singleton.mp h⟩
      · cases h
    · obtain ⟨i, hi, rfl⟩ := List.mem_map.mp h
      exact .inr ⟨i, (List.mem_range'_1.mp hi).1, (List.mem_range'_1.mp hi).2, rfl⟩
  · rintro (⟨hu, rfl⟩ | ⟨i, hle, hlt, rfl⟩)
    · rw [if_pos hu]
      exact .inl (List.mem_singleton_self _)
    · exact .inr (List.mem_map.mpr ⟨i, List.mem_range'_1.mpr ⟨hle, hlt⟩, rfl⟩)

theorem Divided.nodup {div : Division} (h : Divided ex userdataEncryption tardir folder div)
    (hwf : folder.WellFormed) :
    ((div.regularList ++ div.encryptList).map TarListStruct.fn).Nodup := by
  rw [List.map_append, h.regularPaths, h.encryptPaths]
  exact List.Nodup.append (topPaths_nodup ex userdataEncryption hwf)
    (topPaths_nodup ex userdataEncryption hwf) (topPaths_disjoint ex userdataEncryption hwf)

/-- One entry, one thread. -/
theorem Divided.existsUnique_thread {div : Division}
    (h : Divided ex userdataEncryption tardir folder div) (hwf : folder.WellFormed)
    {item : TarListStruct} (hitem : item ∈ div.regularList ++ div.encryptList) :
    ∃! thread, thread ∈ div.tarThreads userdataEncryption ∧ item.fn ∈ passed thread := by
  have hnodup := h.nodup ex userdataEncryption tardir folder hwf
  have hsame : ∀ other ∈ div.regularList ++ div.encryptList, other.fn = item.fn → other = item :=
    fun other hother hfn => List.inj_on_of_nodup_map hnodup hother hitem hfn
  rw [List.map_append, List.nodup_append'] at hnodup
  have hdisj : ∀ a ∈ div.regularList, ∀ b ∈ div.encryptList, a.fn ≠ b.fn := fun a ha b hb hab =>
    hnodup.2.2 (List.mem_map_of_mem ha) (hab ▸ List.mem_map_of_mem hb)
  rcases List.mem_append.mp hitem with hreg | henc
  · obtain ⟨hzero, hu⟩ := h.regularIds item hreg
    refine ⟨(0, div.regularList), ⟨(mem_tarThreads userdataEncryption).mpr (.inl ⟨hu, rfl⟩),
      mem_passed.mpr ⟨item, hreg, hzero, rfl⟩⟩, ?_⟩
    rintro thread ⟨hthread, hpass⟩
    rcases (mem_tarThreads userdataEncryption).mp hthread with ⟨-, rfl⟩ | ⟨i, -, -, rfl⟩
    · rfl
    · obtain ⟨other, hother, -, hfn⟩ := mem_passed.mp hpass
      exact absurd hfn.symm (hdisj item hreg other hother)
  · have hid := h.encryptIds item henc
    have hle := h.encThreadId_le
    refine ⟨(item.threadId, div.encryptList), ⟨(mem_tarThreads userdataEncryption).mpr
      (.inr ⟨item.threadId, hid.1, by omega, rfl⟩), mem_passed.mpr ⟨item, henc, rfl, rfl⟩⟩, ?_⟩
    rintro thread ⟨hthread, hpass⟩
    rcases (mem_tarThreads userdataEncryption).mp hthread with ⟨-, rfl⟩ | ⟨i, -, -, rfl⟩
    · obtain ⟨other, hother, -, hfn⟩ := mem_passed.mp hpass
      exact absurd hfn (hdisj other hother item henc)
    · obtain ⟨other, hother, hid', hfn⟩ := mem_passed.mp hpass
      rw [hsame other (List.mem_append_right _ hother) hfn] at hid'
      rw [hid']

/-- The division starts its threads, gives every encrypted entry the id of one of them and every
unencrypted entry thread 0, lists no path twice, and each entry is added by one thread. -/
theorem division_complete (hwf : folder.WellFormed) (hsum : folder.total < 2 ^ 64) :
    let div := divide ex userdataEncryption cores tardir folder
    (∀ item ∈ div.encryptList,
      div.startThreadId ≤ item.threadId ∧ item.threadId ≤ div.coreCount) ∧
    (∀ item ∈ div.regularList, item.threadId = 0 ∧ userdataEncryption = true) ∧
    div.encThreadId ≤ div.coreCount ∧
    startThreads ex userdataEncryption cores tardir folder =
      some (div.tarThreads userdataEncryption) ∧
    ((div.regularList ++ div.encryptList).map TarListStruct.fn).Nodup ∧
    ∀ item ∈ div.regularList ++ div.encryptList,
      ∃! thread, thread ∈ div.tarThreads userdataEncryption ∧ item.fn ∈ passed thread := by
  have h := divide_divided ex userdataEncryption cores tardir folder hsum
  refine ⟨fun item hitem => ?_, h.regularIds, h.encThreadId_le, ?_,
    h.nodup ex userdataEncryption tardir folder hwf, fun item hitem =>
    h.existsUnique_thread ex userdataEncryption tardir folder hwf hitem⟩
  · exact ⟨(h.encryptIds item hitem).1, (h.encryptIds item hitem).2.trans h.encThreadId_le⟩
  · exact if_neg (not_lt.mpr h.encThreadId_le)

/-- User data with one app and one photo. -/
def userData : Folder :=
  .dir "app".toList (.file "a.apk".toList (.regular 5) .nil)
    (.dir "media".toList (.file "p.jpg".toList (.regular 7) .nil) .nil)

def defaultExclude : TWExclude := ⟨[".".toList, "..".toList, "lost+found".toList], []⟩

/-- Apps and media with directories in them, a link, and a directory that is left out. -/
def nestedData : Folder :=
  .dir "app".toList
    (.dir "a".toList
      (.dir "lib".toList (.file "a.so".toList (.regular 3) .nil)
        (.file "base.apk".toList (.regular 5) .nil)) .nil)
    (.dir "lost+found".toList (.dir "x".toList (.file "y".toList (.regular 9) .nil) .nil)
      (.dir "media".toList
        (.dir "0".toList (.dir "DCIM".toList (.file "p.jpg".toList (.regular 7) .nil) .nil) .nil)
        (.file "link".toList (.symlink 4) .nil)))

theorem division_complete_nestedData :
    let div := divide defaultExclude true ⟨2, by decide, by decide⟩ "/data".toList nestedData
    div.encThreadId ≤ div.coreCount ∧
      ∀ item ∈ div.regularList ++ div.encryptList,
        ∃! thread, thread ∈ div.tarThreads true ∧ item.fn ∈ passed thread := by
  have hwf : nestedData.WellFormed := by simp [nestedData, Folder.WellFormed, Folder.names]
  have h := division_complete defaultExclude true ⟨2, by decide, by decide⟩ "/data".toList
    nestedData hwf (by decide)
  exact ⟨h.2.2.1, h.2.2.2.2.2⟩

/-- The app is listed under thread 0, before the first of the encrypted threads. -/
theorem userData_app_thread :
    let div := divide defaultExclude true ⟨2, by decide, by decide⟩ "/data".toList userData
    ¬∀ item ∈ div.regularList ++ div.encryptList,
      div.startThreadId ≤ item.threadId ∧ item.threadId ≤ div.coreCount := by
  decide

end BootableRecovery.Twrp
