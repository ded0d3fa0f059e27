import BootableRecovery.Mtp.StorageSteps

namespace BootableRecovery.Mtp
open Lib

/-! A storage on a device: the files, the events that are waiting, and the objects that are being
sent. -/

/-- What is in a directory. -/
structure Content where
  entries : List (Text × UInt32)
  nodup : (entries.map Prod.fst).Nodup
  plain : ∀ e ∈ entries, e.1 ≠ [] ∧ '/' ∉ e.1 ∧ e.1 ≠ ".".toList ∧ e.1 ≠ "..".toList

def Content.names (c : Content) : List Text := c.entries.map Prod.fst

/-- The directories by their paths on the storage. -/
abbrev Files := List Text → Option Content

def Files.names (files : Files) (p : List Text) : Option (Set Text) :=
  (files p).map fun c => { x | x ∈ c.names }

structure Device where
  storage : MtpStorage
  files : Files
  pending : List InotifyEvent
  sends : List MtpObjectHandle

/-- What an event tells of a directory; it tells nothing without a name. -/
def InotifyEvent.change (e : InotifyEvent) : Option (Change Int32 Text) :=
  if e.name = [] then none
  else if e.has inCreate || e.has inMovedTo then some ⟨e.wd, true, e.name⟩
  else if e.has inDelete || e.has inMovedFrom then some ⟨e.wd, false, e.name⟩
  else none

def changes (events : List InotifyEvent) : List (Change Int32 Text) :=
  events.filterMap InotifyEvent.change

/-- The names of objects with a handle among some. -/
def MtpStorage.namesOf (s : MtpStorage) (handles : List MtpObjectHandle) (t : ℕ) (x : Text) :
    Prop :=
  ∃ a n m, s.brief a = some n ∧ n.handle ≠ 0 ∧ n.name = x ∧ s.brief t = some m ∧
    m.handle = n.parent ∧ n.handle ∈ handles

/-- The names of unfinished sends are reserved. -/
def Device.index (d : Device) : Index ℕ Int32 Text :=
  d.storage.index (d.storage.namesOf d.sends)

/-- `renameObject` renames the file as well, `doDeleteObject` deletes it; other changes of the
files come in between. -/
inductive DeviceStep
  | getObjectList (parent : MtpObjectHandle) (fs : Text → Directory)
  | beginSendObject (path : Text) (format : UInt16) (parent : MtpObjectHandle)
  | endSendObject (handle : MtpObjectHandle)
  | renameObject (handle : MtpObjectHandle) (newName : Text)
      (renamed : Option (Files × List InotifyEvent))
  | deleteObject (handle : MtpObjectHandle) (files : Files) (events : List InotifyEvent)
  | inotifyEvent
  | change (files : Files) (events : List InotifyEvent)

def Device.step (d : Device) : DeviceStep → Option Device
  | .getObjectList parent fs =>
    (d.storage.getObjectList fs parent).map fun r => { d with storage := r.1 }
  | .beginSendObject path format parent =>
    (d.storage.beginSendObject path format parent).map fun r =>
      { d with
        storage := r.1
        sends := if r.2 = kInvalidObjectHandle then d.sends else r.2 :: d.sends }
  | .endSendObject handle =>
    (d.storage.endSendObject handle).map fun s =>
      { d with storage := s, sends := d.sends.filter fun h => h ≠ handle }
  | .renameObject handle newName none =>
    (d.storage.renameObject handle newName false).map fun s => { d with storage := s }
  | .renameObject handle newName (some (files, events)) =>
    (d.storage.renameObject handle newName true).map fun s =>
      { d with storage := s, files := files, pending := d.pending ++ events }
  | .deleteObject handle files events =>
    (d.storage.deleteFile handle).map fun s =>
      { d with storage := s, files := files, pending := d.pending ++ events }
  | .inotifyEvent =>
    match d.pending with
    | [] => some d
    | e :: rest =>
      (d.storage.step (.inotifyEvent e)).map fun s => { d with storage := s, pending := rest }
  | .change files events => some { d with files := files, pending := d.pending ++ events }

/-- The device when the storage has been set up. -/
def Device.start (mFilePath : Text) (useMutex : Bool) (mtpid : MtpObjectHandle)
    (inotifyInit : Int32) (fs : Text → Directory) (files : Files) : Option Device :=
  ((MtpStorage.new mFilePath useMutex mtpid).createDB fs inotifyInit).map fun s =>
    ⟨s, files, [], []⟩

/-! ### What the system does -/

/-- All entries of a directory, `.` and `..` as well if the file system has them. -/
def ListsContent (items : List (Text × Option UInt32)) (c : Content) : Prop :=
  Whole items ∧ (items.filter fun e => e.1 ≠ ".".toList ∧ e.1 ≠ "..".toList).Perm
    (c.entries.map fun e => (e.1, some e.2))

/-- The directory is opened, or not; it is listed to its end, or to an entry that `lstat` fails
for. -/
def Answers (content : Option Content) : Option (List (Text × Option UInt32)) → Prop
  | none => True
  | some items => ∃ c l, content = some c ∧ ListsContent l c ∧ (items = l ∨
      ∃ pre e rest rest', l = pre ++ e :: rest ∧ items = pre ++ (e.1, none) :: rest')

/-- The directory that a handle of the host stands for. -/
def MtpStorage.directory (s : MtpStorage) (parent : MtpObjectHandle) (t : ℕ) : Prop :=
  s.mtpmap.find? (if parent = mtpParentRoot then 0 else parent).toInt32 = some (some t)

/-- An index in which the names of an object are reserved as well. -/
def reserving (I : Index ℕ Int32 Text) (own : ℕ → Text → Prop) : Index ℕ Int32 Text :=
  { I with reserved := fun t x => I.reserved t x ∨ own t x }

/-- The file of the entry `x` of a directory is renamed to `x'`, with what is below it. -/
structure RenamesFile (I : Index ℕ Int32 Text) (t : ℕ) (p : List Text) (x x' : Text)
    (files files' : Files) (events : List InotifyEvent) : Prop where
  moved : ∀ rest, files' (p ++ x' :: rest) = files (p ++ x :: rest)
  same : ∀ p', ¬p ++ [x] <+: p' → ¬p ++ [x'] <+: p' → p' ≠ p → files' p' = files p'
  content : ∃ c c', files p = some c ∧ files' p = some c' ∧
    ∀ y, y ∈ c'.names ↔ y = x' ∨ (y ∈ c.names ∧ y ≠ x)
  reports : ∀ c c', files p = some c → files' p = some c' →
    (reserving I fun t' y => t' = t ∧ (y = x ∨ y = x')).Reports (changes events) t
      { y | y ∈ c.names } { y | y ∈ c'.names }
  others : ∀ d ∈ changes events, ∀ t', I.watch d.watch = some t' → t' = t

def PlainEvents (events : List InotifyEvent) : Prop := ∀ e ∈ events, '/' ∉ e.name

/-- Each change below a directory that has been read is reported, if the directory is watched;
without a watch only the operations of the host change it. -/
def Device.Allows (d : Device) : DeviceStep → Prop
  | .getObjectList parent fs => ∀ t p, d.storage.directory parent t → ¬d.index.read t →
      d.index.At t p →
      Answers (d.files p) (fs (pathText d.storage.mtpstorageparent p)).items ∧
        ∀ items c, (fs (pathText d.storage.mtpstorageparent p)).items = some items →
          Whole items → d.files p = some c → WatchTells d.index (changes d.pending)
            (d.storage.watchFor fs (pathText d.storage.mtpstorageparent p)) { x | x ∈ c.names }
  | .beginSendObject _ _ _ => True
  | .endSendObject _ => True
  | .renameObject _ _ none => True
  | .renameObject handle newName (some (files, events)) =>
    PlainEvents events ∧ handle ≠ mtpParentRoot ∧ ∃ a n t p, d.storage.brief a = some n ∧
      n.handle = handle ∧ d.index.entry t n.name a ∧ d.index.At t p ∧
      ('/' ∉ newName → RenamesFile d.index t p n.name newName d.files files events)
  | .deleteObject handle files events =>
    PlainEvents events ∧ ∀ s, d.storage.deleteFile handle = some s →
      (reserving (s.index (s.namesOf d.sends)) (d.storage.namesOf [handle])).Reported
        (changes d.pending) (changes events) d.files.names files.names
  | .inotifyEvent => True
  | .change files events =>
    PlainEvents events ∧
      d.index.Reported (changes d.pending) (changes events) d.files.names files.names

/-! ### What the listing is to show -/

/-- The objects of a list have the names of the entries of a directory, each once. -/
def MirrorsContent (s : MtpStorage) (list : List MtpObjectHandle) (c : Content) : Prop :=
  ∃ names : List Text, names.Perm c.names ∧ List.Forall₂ (fun handle x =>
    ∃ a node, s.heap.read a = some node ∧ node.handle = handle ∧ node.name = x) list names

/-- Where no event is waiting and nothing is being sent, the list of a directory that is there
and can be read to its end shows its content. -/
def Device.ListsTruly (d : Device) : DeviceStep → Prop
  | .getObjectList parent fs => d.pending = [] → d.sends = [] → ∀ t, d.storage.directory parent t →
      ∃ p, d.index.At t p ∧ ∀ c, d.files p = some c →
        (¬d.index.read t → ∃ items,
          (fs (pathText d.storage.mtpstorageparent p)).items = some items ∧ Whole items) →
        ∃ s list, d.storage.getObjectList fs parent = some (s, list) ∧ MirrorsContent s list c
  | _ => True

def AllowedRun : Device → List DeviceStep → Prop
  | _, [] => True
  | d, st :: sts => d.Allows st ∧ ∀ d', d.step st = some d' → AllowedRun d' sts

/-- No step follows a pointer to a deleted node, and every list is true. -/
def ListsTrulyRun : Device → List DeviceStep → Prop
  | _, [] => True
  | d, st :: sts => d.ListsTruly st ∧ ∃ d', d.step st = some d' ∧ ListsTrulyRun d' sts

/-! ### Steps that keep it so -/

/-- The steps that do not leave a name twice in the index, or a node without its file, or a file
without its node. -/
def Device.Clear (d : Device) : DeviceStep → Prop
  | .getObjectList parent fs => (Operation.getObjectList parent fs).Safe d.storage ∧
      ∀ t p items, d.storage.directory parent t → ¬d.index.read t → d.index.At t p →
        (fs (pathText d.storage.mtpstorageparent p)).items = some items →
        ∀ x a, d.index.entry t x a → x ∉ addedNames items ∧ (Whole items → d.index.reserved t x)
  | .beginSendObject path format parent =>
    (Operation.beginSendObject path format parent).Safe d.storage ∧
      ∀ t dir name, d.storage.mtpmap.find? parent.toInt32 = some (some t) →
        splitPath path = some (dir, name) → (parent = 0 ∨ d.storage.getNodePath t = some dir) →
        d.storage.mtpid + 1 ≠ kInvalidObjectHandle ∧ ∀ a, ¬d.index.entry t name a
  | .endSendObject handle => ∀ t x p c, d.storage.namesOf [handle] t x → d.index.read t →
      ¬d.index.Going (changes d.pending) t → d.index.At t p → d.files p = some c →
      handle ∈ d.sends → d.index.lastChange t x (changes d.pending) = none → x ∈ c.names
  | .renameObject _ _ none => True
  | .renameObject handle newName (some _) => '/' ∉ newName ∧
      ∀ a n t, d.storage.brief a = some n → n.handle = handle → d.index.entry t n.name a →
        (∀ b, b ≠ a → ¬d.index.entry t newName b) ∧
        ((d.index.read a ∨ ∃ y b, d.index.entry a y b) → ∀ c ∈ changes d.pending,
          c.created = false → d.index.watch c.watch = some t → c.name ≠ n.name)
  | .deleteObject handle files events => d.storage.DeleteSafe handle ∧
      ∀ t x p c, d.storage.namesOf [handle] t x → d.index.read t →
        ¬d.index.Going (changes d.pending ++ changes events) t → d.index.At t p →
        files p = some c →
        d.index.lastChange t x (changes d.pending ++ changes events) = none → x ∉ c.names
  | .inotifyEvent => ∀ e rest, d.pending = e :: rest →
      (Operation.inotifyEvent e).Safe d.storage ∧
      ∀ c t a n, e.change = some c → c.created = false → d.index.watch c.watch = some t →
        d.index.entry t c.name a → d.storage.brief a = some n →
        n.handle = d.storage.handleCurrentlySending →
        ¬d.index.read a ∧ ∀ y b, ¬d.index.entry a y b
  | .change _ _ => True

def ClearRun : Device → List DeviceStep → Prop
  | _, [] => True
  | d, st :: sts => d.Clear st ∧ ∀ d', d.step st = some d' → ClearRun d' sts

end BootableRecovery.Mtp
