import BootableRecovery.Lib.Heap
import BootableRecovery.Lib.OrderedMap
import BootableRecovery.Lib.Text

namespace BootableRecovery.Mtp
open Lib

/-! `MtpStorage`: the objects on a storage, the index of its directories by their handles, and
the inotify watches. What follows a pointer to a deleted node, or runs forever, gives none. -/

abbrev MtpObjectHandle := UInt32

structure Tree where
  entries : OrderedMap MtpObjectHandle ℕ
  alreadyRead : Bool

/-- A `Node`, with the fields of a `Tree` where it is one. -/
structure Node where
  handle : MtpObjectHandle
  parent : MtpObjectHandle
  name : Text
  tree : Option Tree

def Node.withTree (node : Node) (tree : Tree) : Node := { node with tree := some tree }

/-- `mtpid` is the counter of `addNewNode`. -/
structure MtpStorage where
  mFilePath : Text
  useMutex : Bool
  mtpid : MtpObjectHandle
  heap : Heap Node
  mtpmap : OrderedMap Int32 (Option ℕ)
  inotifymap : OrderedMap Int32 ℕ
  inotifyFd : Int32
  handleCurrentlySending : MtpObjectHandle
  mtpstorageparent : Text

/-- The storage when it has been constructed, after `mtpid` objects of other storages. -/
def MtpStorage.new (mFilePath : Text) (useMutex : Bool) (mtpid : MtpObjectHandle) : MtpStorage where
  mFilePath := mFilePath
  useMutex := useMutex
  mtpid := mtpid
  heap := Heap.empty
  mtpmap := OrderedMap.empty
  inotifymap := OrderedMap.empty
  inotifyFd := -1
  handleCurrentlySending := 0
  mtpstorageparent := []

def mtpParentRoot : MtpObjectHandle := 0xFFFFFFFF

def kInvalidObjectHandle : MtpObjectHandle := 0xFFFFFFFF

def derefTree (heap : Heap Node) (t : ℕ) : Option (Node × Tree) :=
  (heap.read t).bind fun node => node.tree.map fun tree => (node, tree)

/-! ### Lookup -/

def findNodeIn (heap : Heap Node) (handle : MtpObjectHandle) :
    List (Int32 × Option ℕ) → Option (Option ℕ)
  | [] => some none
  | (_, none) :: _ => none
  | (_, some t) :: rest =>
    match derefTree heap t with
    | none => none
    | some (_, tree) =>
      match tree.entries.find? handle with
      | some a => (heap.read a).map fun _ => some a
      | none => findNodeIn heap handle rest

def MtpStorage.findNode (s : MtpStorage) (handle : MtpObjectHandle) : Option (Option ℕ) :=
  findNodeIn s.heap handle s.mtpmap.entries

/-- One round for each node on the way to the root. -/
def MtpStorage.pathLoop (s : MtpStorage) : ℕ → ℕ → Text → Option Text
  | 0, _, _ => none
  | fuel + 1, a, path =>
    match s.heap.read a with
    | none => none
    | some node =>
      if node.parent = 0 then some ('/' :: (node.name ++ path))
      else
        match s.findNode node.parent with
        | none => none
        | some none => some ('/' :: (node.name ++ path))
        | some (some b) => pathLoop s fuel b ('/' :: (node.name ++ path))

/-- A way longer than there are handles does not end. -/
def MtpStorage.getNodePath (s : MtpStorage) (a : ℕ) : Option Text :=
  (s.pathLoop (2 ^ 32 + 1) a []).map fun path => s.mtpstorageparent ++ path

def findByNameIn (heap : Heap Node) (name : Text) :
    List (MtpObjectHandle × ℕ) → Option (Option (ℕ × Node))
  | [] => some none
  | (_, a) :: rest =>
    match heap.read a with
    | none => none
    | some node =>
      if node.name = name ∧ 0 < node.handle then some (some (a, node))
      else findByNameIn heap name rest

/-! ### New nodes -/

def Tree.addEntry (tree : Tree) (owner : MtpObjectHandle) (handle : MtpObjectHandle) (a : ℕ) :
    Tree :=
  if handle = 0 then tree
  else if handle = owner then tree
  else { tree with entries := tree.entries.insert handle a }

def MtpStorage.newNode (s : MtpStorage) (isDir : Bool) (parent : MtpObjectHandle) (name : Text) :
    Node where
  handle := s.mtpid + 1
  parent := parent
  name := name
  tree := if isDir then some ⟨OrderedMap.empty, false⟩ else none

/-- The node is at the address that was the next one. -/
def MtpStorage.addNewNode (s : MtpStorage) (isDir : Bool) (t : ℕ) (name : Text) :
    Option MtpStorage :=
  (derefTree s.heap t).map fun (node, tree) =>
    { s with
      mtpid := s.mtpid + 1
      mtpmap := if isDir then s.mtpmap.insert (s.mtpid + 1).toInt32 (some s.heap.next)
        else s.mtpmap
      heap := (s.heap.alloc (s.newNode isDir node.handle name)).write t
        (node.withTree (tree.addEntry node.handle (s.mtpid + 1) s.heap.next)) }

/-! ### Directories -/

/-- What the system answers for a path: the entries of the directory with the mode that `lstat`
gives for each, and the watch. -/
structure Directory where
  items : Option (List (Text × Option UInt32))
  watch : Int32

/-- `st_mode & S_IFDIR`, which is set for block devices and sockets as well -/
def modeIsDir (mode : UInt32) : Bool := mode &&& 0x4000 ≠ 0

/-- The storage, and whether the end of the directory was reached. -/
def MtpStorage.readLoop (t : ℕ) : MtpStorage → List (Text × Option UInt32) →
    Option (MtpStorage × Bool)
  | s, [] => some (s, true)
  | s, (_, none) :: _ => some (s, false)
  | s, (name, some mode) :: rest =>
    if name = ".".toList ∨ name = "..".toList then readLoop t s rest
    else
      match s.addNewNode (modeIsDir mode) t name with
      | none => none
      | some s' => readLoop t s' rest

def MtpStorage.setAlreadyRead (s : MtpStorage) (t : ℕ) : Option MtpStorage :=
  (derefTree s.heap t).map fun (node, tree) =>
    { s with heap := s.heap.write t (node.withTree { tree with alreadyRead := true }) }

variable (fs : Text → Directory)

def MtpStorage.addInotify (s : MtpStorage) (t : ℕ) : Option MtpStorage :=
  if s.inotifyFd < 0 then some s
  else
    (s.getNodePath t).map fun path =>
      if (fs path).watch < 0 then s
      else { s with inotifymap := s.inotifymap.insert (fs path).watch t }

def MtpStorage.readDir (s : MtpStorage) (path : Text) (t : ℕ) : Option MtpStorage :=
  match (fs path).items with
  | none => some s
  | some items =>
    match s.readLoop t items with
    | none => none
    | some (s, false) => some s
    | some (s, true) => (s.setAlreadyRead t).bind fun s => s.addInotify fs t

/-! ### Operations -/

def MtpStorage.createDB (s : MtpStorage) (inotifyInit : Int32) : Option MtpStorage :=
  let root := s.heap.next
  let s' : MtpStorage :=
    { s with
      mtpstorageparent := s.mFilePath
      heap := s.heap.alloc ⟨0, 0, [], some ⟨OrderedMap.empty, false⟩⟩
      mtpmap := s.mtpmap.insert 0 (some root)
      inotifyFd := if s.useMutex then inotifyInit else s.inotifyFd }
  s'.readDir fs s'.mtpstorageparent root

def getmtpids (heap : Heap Node) (tree : Tree) : Option (List MtpObjectHandle) :=
  tree.entries.entries.mapM fun e => (heap.read e.2).map Node.handle

def MtpStorage.getObjectList (s : MtpStorage) (parent : MtpObjectHandle) :
    Option (MtpStorage × List MtpObjectHandle) :=
  let parent := if parent = mtpParentRoot then 0 else parent
  match s.mtpmap.find? parent.toInt32 with
  | none => some (s, [])
  | some none => none
  | some (some t) =>
    match derefTree s.heap t with
    | none => none
    | some (_, tree) =>
      let s' :=
        if tree.alreadyRead then some s
        else (s.getNodePath t).bind fun path => s.readDir fs path t
      s'.bind fun s' =>
        match s'.mtpmap.find? parent.toInt32 with
        | some (some t) =>
          (derefTree s'.heap t).bind fun (_, tree) =>
            (getmtpids s'.heap tree).map fun list => (s', list)
        | _ => none

def mtpFormatAssociation : UInt16 := 0x3001

/-- `find_last_of('/')`: what is before and behind it. -/
def splitPath (path : Text) : Option (Text × Text) :=
  if path.contains '/' then
    some ((path.reverse.dropWhile fun c => c != '/').tail.reverse,
      (path.reverse.takeWhile fun c => c != '/').reverse)
  else none

def MtpStorage.beginSendObject (s : MtpStorage) (path : Text) (format : UInt16)
    (parent : MtpObjectHandle) : Option (MtpStorage × MtpObjectHandle) :=
  match s.mtpmap.find? parent.toInt32 with
  | none => some (s, kInvalidObjectHandle)
  | some none => none
  | some (some t) =>
    match splitPath path with
    | none => some (s, kInvalidObjectHandle)
    | some (parentdir, basename) =>
      (if parent = 0 then some parentdir else s.getNodePath t).bind fun treePath =>
        if parentdir ≠ treePath then some (s, kInvalidObjectHandle)
        else
          (s.addNewNode (format = mtpFormatAssociation) t basename).map fun s' =>
            ({ s' with handleCurrentlySending := s'.mtpid }, s'.mtpid)

def MtpStorage.endSendObject (s : MtpStorage) (handle : MtpObjectHandle) : Option MtpStorage :=
  (s.findNode handle).map fun node =>
    if node.isSome then { s with handleCurrentlySending := 0 } else s

/-- `renamed`: whether the rename of the file succeeds. -/
def MtpStorage.renameObject (s : MtpStorage) (handle : MtpObjectHandle) (newName : Text)
    (renamed : Bool) : Option MtpStorage :=
  if handle = mtpParentRoot then some s
  else
    match s.findNode handle with
    | none => none
    | some none => some s
    | some (some a) =>
      (s.getNodePath a).bind fun _ =>
        (s.heap.read a).map fun node =>
          if renamed then { s with heap := s.heap.write a { node with name := newName } } else s

/-- `delete`: a `Tree` deletes its entries first. -/
def destroy : ℕ → ℕ → Heap Node → Option (Heap Node)
  | 0, _, _ => none
  | fuel + 1, a, heap =>
    match heap.read a with
    | none => none
    | some node =>
      match node.tree with
      | none => some (heap.free a)
      | some tree =>
        ((tree.entries.entries.map Prod.snd).foldlM (fun heap b => destroy fuel b heap) heap).map
          fun heap => heap.free a

def MtpStorage.deleteNode (s : MtpStorage) (t : ℕ) (handle : MtpObjectHandle) :
    Option MtpStorage :=
  (derefTree s.heap t).bind fun (_, tree) =>
    match tree.entries.find? handle with
    | none => some s
    | some a =>
      (destroy (s.heap.next + 1) a s.heap).bind fun heap =>
        (derefTree heap t).map fun (node, tree) =>
          { s with
            heap := heap.write t
              (node.withTree { tree with entries := tree.entries.erase handle }) }

def MtpStorage.deleteFile (s : MtpStorage) (handle : MtpObjectHandle) : Option MtpStorage :=
  match s.findNode handle with
  | none => none
  | some none => some s
  | some (some a) =>
    (s.heap.read a).bind fun node =>
      match s.mtpmap.find? node.parent.toInt32 with
      -- operator[] makes an entry
      | none => some { s with mtpmap := s.mtpmap.insert node.parent.toInt32 none }
      | some none => some s
      | some (some t) =>
        { s with
          mtpmap := if node.tree.isSome then s.mtpmap.erase handle.toInt32
            else s.mtpmap }.deleteNode t handle

/-! ### Events -/

structure InotifyEvent where
  wd : Int32
  mask : UInt32
  name : Text

def InotifyEvent.has (e : InotifyEvent) (flags : UInt32) : Bool := e.mask &&& flags ≠ 0

def inModify : UInt32 := 0x2
def inMovedFrom : UInt32 := 0x40
def inMovedTo : UInt32 := 0x80
def inCreate : UInt32 := 0x100
def inDelete : UInt32 := 0x200
def inIsDir : UInt32 := 0x40000000

/-- `basename` -/
def basename (path : Text) : Text := (path.reverse.takeWhile fun c => c != '/').reverse

/-- The first watch of a node is removed. -/
def unwatch (watches : OrderedMap Int32 ℕ) (a : ℕ) : OrderedMap Int32 ℕ :=
  match watches.entries.find? fun w => w.2 = a with
  | none => watches
  | some w => watches.erase w.1

/-- What an event calls for: a new node in a tree, the deletion of a node, a look at the size of
a node, or nothing. -/
inductive EventAction
  | add (t : ℕ)
  | delete (a : ℕ) (handle : MtpObjectHandle)
  | update (a : ℕ)
  | ignore

def eventFor (e : InotifyEvent) (sending : MtpObjectHandle) (t : ℕ) :
    Option (ℕ × Node) → EventAction
  | none => if e.has inCreate || e.has inMovedTo then .add t else .ignore
  | some (a, node) =>
    if node.handle = sending then .ignore
    else if e.has inCreate || e.has inMovedTo then .ignore
    else if e.has inDelete || e.has inMovedFrom then .delete a node.handle
    else if e.has inModify then .update a
    else .ignore

def MtpStorage.eventAction (s : MtpStorage) (e : InotifyEvent) : Option EventAction :=
  match s.inotifymap.find? e.wd with
  | none => some .ignore
  | some t =>
    (derefTree s.heap t).bind fun (_, tree) =>
      (findByNameIn s.heap (basename e.name) tree.entries.entries).map
        (eventFor e s.handleCurrentlySending t)

def MtpStorage.handleInotifyEvent (s : MtpStorage) (e : InotifyEvent) : Option MtpStorage :=
  match s.eventAction e with
  | none => none
  | some .ignore => some s
  | some (.add t) =>
    (s.addNewNode (e.has inIsDir) t e.name).bind fun s' => (s'.getNodePath t).map fun _ => s'
  | some (.delete a handle) =>
    { s with
      inotifymap := if e.has inIsDir then unwatch s.inotifymap a
        else s.inotifymap }.deleteFile handle
  | some (.update a) => (s.getNodePath a).map fun _ => s

inductive Operation
  | createDB (inotifyInit : Int32) (fs : Text → Directory)
  | getObjectList (parent : MtpObjectHandle) (fs : Text → Directory)
  | beginSendObject (path : Text) (format : UInt16) (parent : MtpObjectHandle)
  | endSendObject (handle : MtpObjectHandle)
  | renameObject (handle : MtpObjectHandle) (newName : Text) (renamed : Bool)
  | deleteFile (handle : MtpObjectHandle)
  | inotifyEvent (e : InotifyEvent)

def MtpStorage.step (s : MtpStorage) : Operation → Option MtpStorage
  | .createDB inotifyInit fs => s.createDB fs inotifyInit
  | .getObjectList parent fs => (s.getObjectList fs parent).map Prod.fst
  | .beginSendObject path format parent => (s.beginSendObject path format parent).map Prod.fst
  | .endSendObject handle => s.endSendObject handle
  | .renameObject handle newName renamed => s.renameObject handle newName renamed
  | .deleteFile handle => s.deleteFile handle
  -- an event without a name is not handled
  | .inotifyEvent e => if e.name = [] then some s else s.handleInotifyEvent e

end BootableRecovery.Mtp
