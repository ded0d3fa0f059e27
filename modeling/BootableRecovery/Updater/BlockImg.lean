import BootableRecovery.Updater.Commands

namespace BootableRecovery.Updater
open Lib Otautil

def blockSize : ℕ := 4096

/-- What a command changes on the device, in the stash directory, or in `stash_map`. -/
inductive Effect
  | write (tgt : RangeSet) (data : Bytes)
  | zero (tgt : RangeSet)
  | erase (tgt : RangeSet)
  | newData (tgt : RangeSet)
  | patch (image : Bool) (info : PatchInfo) (source : Bytes) (tgt : RangeSet)
  | hashTree (info : HashTreeInfo) (salt : Bytes)
  | writeStash (id : Text) (data : Bytes)
  | deleteStash (id : Text)
  | saveRanges (id : Text) (src : RangeSet)
  | eraseRanges (id : Text)

inductive StashFile
  | missing
  | unusable -- of a wrong size, or not to be opened
  | file (data : Bytes) (readable : Bool)

def StashFile.found : StashFile → Bool
  | .missing => false
  | _ => true

/-- A digest as `print_sha1` gives it. -/
def IsDigest (t : Text) : Prop := t.length = 40 ∧ ∀ c ∈ t, c ∈ "0123456789abcdef".toList

/-- When a command asks for blocks or for a stash: for the target, for the source, or again for
an overlap. -/
inductive Moment
  | target
  | source
  | overlap
  deriving DecidableEq, Repr

/-- What a command finds: the device, the stashes, and the answers of the system. What is asked
again need not be answered as before. -/
structure Host where
  canwrite : Bool
  createdstash : Bool
  isRetry : Bool
  /-- Whether `fstat` shows a block device. -/
  isBlockDevice : Bool
  block : Moment → ℕ → Option Bytes
  block_length : ∀ m b data, block m b = some data → data.length = blockSize
  /-- Whether `lseek64` goes to a block. -/
  seeks : Moment → ℕ → Bool
  /-- The bytes that are read of a block that cannot be read as a whole. -/
  partRead : Moment → ℕ → ℕ
  sha1 : Bytes → Text
  sha1_digest : ∀ data, IsDigest (sha1 data)
  stashMap : Text → Option RangeSet
  stashFile : Moment → Text → StashFile
  allocates : ℕ → Bool
  freeSpace : ℕ → Bool
  succeeds : Effect → Bool
  /-- The root hash of the tree that is built, if it can be. -/
  rootHash : HashTreeInfo → Bytes → Option Text

/-- How a command ends early, whatever its tokens are. -/
inductive Fault
  | failed
  | unresumable
  | checkFailed
  | outOfMemory
  | outOfBounds
  deriving DecidableEq, Repr

/-- How a command ends early; the last two are for its tokens: -1, and a `CHECK`. -/
inductive Stop
  | fault (fault : Fault)
  | unparsed
  | tokenCheck
  deriving DecidableEq, Repr

/-- A command with its effects. -/
abbrev Perform (ε : Type) := ExceptT ε (StateM (List Effect))

def Perform.reading {ε α : Type} (result : Except ε α) : Perform ε α :=
  fun effects => (result, effects)

def Perform.add {ε : Type} (new : List Effect) : Perform ε Unit :=
  fun effects => (.ok (), effects ++ new)

/-- A step that does not look at tokens. -/
def Perform.lifted {α : Type} (x : Perform Fault α) : Perform Stop α :=
  fun effects => ((x effects).1.mapError .fault, (x effects).2)

open Perform

/-- The members of `CommandParameters` that commands change. -/
structure Params where
  buffer : Bytes
  written : ℕ
  stashed : ℕ
  foundwrites : Bool
  targetVerified : Bool

namespace Host
variable (host : Host)

def allocate (size : ℕ) (buffer : Bytes) : Except Fault Bytes :=
  if size ≤ buffer.length then .ok buffer
  else if host.allocates size then .ok (buffer ++ List.replicate (size - buffer.length) 0)
  else .error .outOfMemory

/-- The blocks from `b` on, if all of them can be read. -/
def readRange (m : Moment) (b : ℕ) : ℕ → Option Bytes
  | 0 => some []
  | n + 1 =>
    match host.block m b, readRange m (b + 1) n with
    | some data, some rest => some (data ++ rest)
    | _, _ => none

/-- The number of bytes that `ReadFully` stores, up to the first block it cannot read. -/
def bytesStored (m : Moment) (b : ℕ) : ℕ → ℕ
  | 0 => 0
  | n + 1 =>
    match host.block m b with
    | none => host.partRead m b
    | some data => data.length + bytesStored m (b + 1) n

def readRanges (m : Moment) : List Range → ℕ → Bytes → Except Fault (Bool × Bytes)
  | [], _, buffer => .ok (true, buffer)
  | r :: rs, p, buffer =>
    if host.seeks m r.1 = false then .ok (false, buffer)
    else if buffer.length < p + host.bytesStored m r.1 (r.2 - r.1) then .error .outOfBounds
    else
      match host.readRange m r.1 (r.2 - r.1) with
      | none => .ok (false, buffer)
      | some data => readRanges m rs (p + (r.2 - r.1) * blockSize) (splice buffer p data)

/-- Whether `ReadBlocks` succeeds, and the buffer. -/
def readBlocks (m : Moment) (src : RangeSet) (buffer : Bytes) : Except Fault (Bool × Bytes) :=
  host.readRanges m src.ranges 0 buffer

def verifyBlocks (expected : Text) (buffer : Bytes) (blocks : ℕ) : Except Fault Bool :=
  if buffer.length < u64 (blocks * blockSize) then .error .outOfBounds
  else .ok (host.sha1 (buffer.take (u64 (blocks * blockSize))) = expected)

/-- `PrintHashForCorruptedStashedBlocks`, with its `CHECK` on the size of the buffer. -/
def printCorruptedStash (buffer : Bytes) (src : Option RangeSet) : Except Fault Unit :=
  match src with
  | none => .ok ()
  | some src =>
    if u64 (src.blocks * blockSize) ≠ buffer.length then .error .checkFailed else .ok ()

/-- `LoadStash` where the range set was saved: the source blocks instead of the file. -/
def loadSaved (m : Moment) (id : Text) (src : RangeSet) (buffer : Bytes) :
    Except Fault (Bool × Bytes) := do
  let buffer ← host.allocate (u64 (src.blocks * blockSize)) buffer
  let (read, buffer) ← host.readBlocks m src buffer
  if read then do
    let verified ← host.verifyBlocks id buffer src.blocks
    if verified then return (true, buffer)
    else do
      printCorruptedStash buffer (if host.isRetry then none else some src)
      return (false, buffer)
  else return (false, buffer)

/-- Whether `LoadStash` succeeds, the buffer, and what is deleted. -/
def loadStash (m : Moment) (id : Text) (verify : Bool) (buffer : Bytes) :
    Except Fault (Bool × Bytes × List Effect) :=
  match if host.canwrite then none else host.stashMap id with
  | some src => (host.loadSaved m id src buffer).map fun (loaded, buffer) => (loaded, buffer, [])
  | none =>
    match host.stashFile m id with
    | .missing => .ok (false, buffer, [])
    | .unusable => .ok (false, buffer, [])
    | .file data readable => do
      let buffer ← host.allocate data.length buffer
      if readable then
        let buffer := splice buffer 0 data
        if verify then do
          let verified ← host.verifyBlocks id buffer (data.length / blockSize)
          if verified then return (true, buffer, [])
          else do
            printCorruptedStash buffer (host.stashMap id)
            return (false, buffer, [.deleteStash id])
        else return (true, buffer, [])
      else return (false, buffer, [])

/-- An effect, which takes place at least in part. -/
def perform (effect : Effect) : Perform Fault Unit := do
  add [effect]
  if host.succeeds effect then return () else throw .failed

/-- `WriteStash`, and whether the file was there; an overlap asks for space and for the file. The
blocks are so few that the `int` they are passed in holds their number. -/
def writeStash (id : Text) (blocks : ℕ) (buffer : Bytes) (overlap : Bool) : Perform Fault Bool :=
  let size := u64 (blocks * blockSize)
  if overlap = true ∧ host.freeSpace size = false then throw .failed
  else if overlap = true ∧ (host.stashFile .overlap id).found = true then return true
  else if buffer.length < size then throw .outOfBounds
  else do
    host.perform (.writeStash id (buffer.take size))
    return false

def writeBlocks (tgt : RangeSet) (buffer : Bytes) : Perform Fault Unit := do
  host.perform (.write tgt (buffer.take (tgt.blocks * blockSize)))
  if buffer.length < tgt.blocks * blockSize then throw .outOfBounds else return ()

/-- Whether the target blocks have the expected content already. -/
def targetVerified (tgt : RangeSet) (tgtHash : Text) : Except Fault Bool := do
  let buffer ← host.allocate (u64 (tgt.blocks * blockSize)) []
  let (read, buffer) ← host.readBlocks .target tgt buffer
  if read then host.verifyBlocks tgtHash buffer tgt.blocks else throw .failed

end Host

def freeStash (id : Text) : Perform Fault Unit :=
  if id = [] then throw .failed else add [.deleteStash id]

/-- What `LoadSrcTgtVersion3` leaves for the command. -/
structure Loaded where
  tgt : RangeSet
  srcBlocks : ℕ
  /-- The status 1: the target blocks have the expected content already. -/
  done : Bool
  freestash : Option Text
  params : Params

section performers
variable (parseUint : Text → ℕ → Option ℕ) (host : Host)

/-- The `stash_id:stash_range` words of `LoadSourceBlocks`. -/
def loadStashes : List Text → Bytes → Except Stop Bytes
  | [], buffer => .ok buffer
  | word :: words, buffer =>
    match word.splitOn ':' with
    | [id, location] =>
      match host.loadStash .source id false [] with
      | .error fault => .error (.fault fault)
      | .ok (false, _) => loadStashes words buffer -- the caller decides if this is fatal
      | .ok (true, stash, _) =>
        match RangeSet.parse parseUint location with
        | none => .error .tokenCheck
        | some locs =>
          match moveRange buffer locs (some stash) blockSize with
          | none => .error (.fault .outOfBounds)
          | some buffer => loadStashes words buffer
    | _ => .error .unparsed

/-- `LoadSourceBlocks`: the number of source blocks, the overlap, and the buffer. -/
def loadSourceBlocks (token src : Text) (words : List Text) (tgt : RangeSet) (buffer : Bytes) :
    Except Stop (ℕ × Bool × Bytes) :=
  match parseUint token Command.sizeT with
  | none => .error .unparsed
  | some srcBlocks =>
    match host.allocate (u64 (srcBlocks * blockSize)) buffer with
    | .error fault => .error (.fault fault)
    | .ok buffer =>
      if src = ['-'] then
        (loadStashes parseUint host words buffer).map fun buffer => (srcBlocks, false, buffer)
      else
        match RangeSet.parse parseUint src with
        | none => .error .tokenCheck
        | some src =>
          match host.readBlocks .source src buffer with
          | .error fault => .error (.fault fault)
          | .ok (false, _) => .error (.fault .failed)
          | .ok (true, buffer) =>
            match words with
            | [] => .ok (srcBlocks, src.overlaps tgt, buffer)
            | location :: words =>
              match RangeSet.parse parseUint location with
              | none => .error .tokenCheck
              | some locs =>
                match moveRange buffer locs none blockSize with
                | none => .error (.fault .outOfBounds)
                | some buffer =>
                  (loadStashes parseUint host words buffer).map
                    fun buffer => (srcBlocks, src.overlaps tgt, buffer)

/-- `PrintHashForCorruptedSourceBlocks`, which parses the tokens again. -/
def printCorruptedSource (src : Text) (words : List Text) (buffer : Bytes) : Except Stop Unit :=
  if src = ['-'] then .ok ()
  else
    match RangeSet.parse parseUint src with
    | none => .ok ()
    | some src =>
      match words with
      | [] => if buffer.length < src.blocks * blockSize then .error .tokenCheck else .ok ()
      | location :: _ =>
        let locs := (RangeSet.parse parseUint location).getD .empty
        if src.blocks ≠ locs.blocks then .error .tokenCheck
        else if ∃ b ∈ locs.expand, buffer.length < (b + 1) * blockSize then .error .tokenCheck
        else .ok ()

/-- The source blocks are as expected; an overlap is stashed before it is overwritten. -/
def keepOverlap (tgt : RangeSet) (srcHash : Text) (srcBlocks : ℕ) (overlap : Bool)
    (params : Params) : Perform Fault Loaded :=
  if overlap = true ∧ host.canwrite = true then do
    let found ← host.writeStash srcHash srcBlocks params.buffer true
    return ⟨tgt, srcBlocks, false, if found then none else some srcHash,
      { params with stashed := params.stashed + srcBlocks }⟩
  else return ⟨tgt, srcBlocks, false, none, params⟩

/-- Whether overlapping blocks were stashed by an interrupted run, and the buffer. -/
def loadOverlap (srcHash : Text) (overlap : Bool) (buffer : Bytes) :
    Perform Fault (Bool × Bytes) :=
  if overlap then do
    let (loaded, buffer, deleted) ← reading (host.loadStash .overlap srcHash true buffer)
    add deleted
    return (loaded, buffer)
  else return (false, buffer)

/-- `LoadSrcTgtVersion3` behind the hashes. -/
def loadTokens (srcHash tgtHash : Text) (tokens : List Text) (params : Params) :
    Perform Stop Loaded :=
  match tokens with
  | tgt :: token :: src :: words =>
    match RangeSet.parse parseUint tgt with
    | none => throw .tokenCheck
    | some tgt => do
      let verified ← lifted (reading (host.targetVerified tgt tgtHash))
      if verified then return ⟨tgt, 0, true, none, params⟩
      else do
        let (srcBlocks, overlap, buffer) ←
          reading (loadSourceBlocks parseUint host token src words tgt params.buffer)
        let expected ← lifted (reading (host.verifyBlocks srcHash buffer srcBlocks))
        if expected then
          lifted (keepOverlap host tgt srcHash srcBlocks overlap { params with buffer })
        else do
          let (loaded, buffer) ← lifted (loadOverlap host srcHash overlap buffer)
          if loaded then return ⟨tgt, srcBlocks, false, none, { params with buffer }⟩
          else do
            reading (printCorruptedSource parseUint src words buffer)
            throw (.fault .unresumable)
  | _ => throw .unparsed

def loadSrcTgtVersion3 (tokens : List Text) (onehash : Bool) (params : Params) :
    Perform Stop Loaded :=
  match tokens with
  | [] => throw .unparsed
  | srcHash :: tokens =>
    if onehash then loadTokens parseUint host srcHash srcHash tokens params
    else
      match tokens with
      | [] => throw .unparsed
      | tgtHash :: tokens => loadTokens parseUint host srcHash tgtHash tokens params

/-- `PerformCommandMove` and `PerformCommandDiff` behind the load; `write` is what they write. -/
def finishLoaded (loaded : Loaded) (write : Perform Fault Unit) : Perform Fault Params := do
  let params := if loaded.done then { loaded.params with targetVerified := true }
    else { loaded.params with foundwrites := true }
  if host.canwrite = true ∧ loaded.done = false then write else pure ()
  match loaded.freestash with
  | none => pure ()
  | some id => freeStash id
  return { params with written := params.written + loaded.tgt.blocks }

def finishMove (loaded : Loaded) : Perform Fault Params :=
  finishLoaded host loaded (host.writeBlocks loaded.tgt loaded.params.buffer)

def performCommandMove (args : List Text) (params : Params) : Perform Stop Params := do
  let loaded ← loadSrcTgtVersion3 parseUint host args true params
  lifted (finishMove host loaded)

def finishDiff (image : Bool) (info : PatchInfo) (loaded : Loaded) : Perform Fault Params :=
  let size := u64 (loaded.srcBlocks * blockSize)
  finishLoaded host loaded
    (if loaded.params.buffer.length < size then throw .outOfBounds
    else host.perform (.patch image info (loaded.params.buffer.take size) loaded.tgt))

def performCommandDiff (image : Bool) (args : List Text) (params : Params) : Perform Stop Params :=
  match args with
  | offset :: length :: tokens =>
    match parseUint offset Command.sizeT with
    | none => throw .unparsed
    | some offset =>
      match parseUint length Command.sizeT with
      | none => throw .unparsed
      | some length => do
        let loaded ← loadSrcTgtVersion3 parseUint host tokens false params
        lifted (finishDiff host image ⟨offset, length⟩ loaded)
  | _ => throw .unparsed

/-- `PerformCommandStash` where the stash is not there yet. -/
def stashBlocks (id : Text) (src : RangeSet) (params : Params) : Perform Fault Params := do
  let buffer ← reading (host.allocate (u64 (src.blocks * blockSize)) params.buffer)
  let (read, buffer) ← reading (host.readBlocks .source src buffer)
  if read then do
    add [.saveRanges id src]
    let verified ← reading (host.verifyBlocks id buffer src.blocks)
    if verified = true ∧ host.canwrite = true then do
      let _ ← host.writeStash id src.blocks buffer false
      return { params with buffer, stashed := params.stashed + src.blocks }
    else return { params with buffer }
  else throw .failed

/-- Whether the stash is there already, and the buffer. -/
def findStash (id : Text) (buffer : Bytes) : Perform Fault (Bool × Bytes) := do
  let (loaded, buffer, deleted) ← reading (host.loadStash .target id true buffer)
  add deleted
  return (loaded, buffer)

def performCommandStash (args : List Text) (params : Params) : Perform Stop Params :=
  match args with
  | id :: src :: _ => do
    let (loaded, buffer) ← lifted (findStash host id params.buffer)
    if loaded then return { params with buffer }
    else
      match RangeSet.parse parseUint src with
      | none => throw .tokenCheck
      | some src => lifted (stashBlocks host id src { params with buffer })
  | _ => throw .unparsed

def freeBlocks (id : Text) (params : Params) : Perform Fault Params := do
  add [.eraseRanges id]
  if host.createdstash = true ∨ host.canwrite = true then freeStash id else pure ()
  return params

def performCommandFree (args : List Text) (params : Params) : Perform Stop Params :=
  match args with
  | [] => throw .unparsed
  | id :: _ => lifted (freeBlocks host id params)

def zeroBlocks (tgt : RangeSet) (params : Params) : Perform Fault Params := do
  let buffer ← reading (host.allocate blockSize params.buffer)
  let buffer := splice buffer 0 (List.replicate blockSize 0)
  if host.canwrite then host.perform (.zero tgt) else pure ()
  return { params with buffer, written := params.written + tgt.blocks }

def newBlocks (tgt : RangeSet) (params : Params) : Perform Fault Params := do
  if host.canwrite then host.perform (.newData tgt) else pure ()
  return { params with written := params.written + tgt.blocks }

def eraseBlocks (tgt : RangeSet) (params : Params) : Perform Fault Params := do
  if host.canwrite then host.perform (.erase tgt) else pure ()
  return params

/-- The performers whose only argument is their target. -/
def performTarget (args : List Text) (command : RangeSet → Perform Fault Params) :
    Perform Stop Params :=
  match args with
  | [] => throw .unparsed
  | tgt :: _ =>
    match RangeSet.parse parseUint tgt with
    | none => throw .tokenCheck
    | some tgt => lifted (command tgt)

def performCommandZero (args : List Text) (params : Params) : Perform Stop Params :=
  performTarget parseUint args fun tgt => zeroBlocks host tgt params

def performCommandNew (args : List Text) (params : Params) : Perform Stop Params :=
  performTarget parseUint args fun tgt => newBlocks host tgt params

def performCommandErase (args : List Text) (params : Params) : Perform Stop Params :=
  if host.isBlockDevice then performTarget parseUint args fun tgt => eraseBlocks host tgt params
  else throw (.fault .failed)

def performCommandAbort : Perform Stop Params := throw (.fault .failed)

/-- The verity library: whether it knows an algorithm, and the bytes of a text. -/
structure HashTreeLib where
  hashFunction : Text → Bool
  parseBytes : Text → Option Bytes

def writeHashTree (info : HashTreeInfo) (salt : Bytes) (params : Params) :
    Perform Fault Params := do
  if host.rootHash info salt = some info.rootHash then
    if host.canwrite then host.perform (.hashTree info salt) else pure ()
  else throw .failed
  return params

variable (lib : HashTreeLib)

def performCommandComputeHashTree (args : List Text) (params : Params) : Perform Stop Params :=
  match args with
  | [hashTree, source, hashAlgorithm, saltHex, rootHash] =>
    match RangeSet.parse parseUint hashTree with
    | none => throw .unparsed
    | some hashTreeRanges =>
      if hashTreeRanges.ranges.length ≠ 1 then throw .unparsed
      else
        match RangeSet.parse parseUint source with
        | none => throw .unparsed
        | some sourceRanges =>
          if lib.hashFunction hashAlgorithm = false then throw .unparsed
          else if saltHex = [] then throw .unparsed
          else
            match lib.parseBytes saltHex with
            | none => throw .unparsed
            | some salt =>
              if rootHash = [] then throw .unparsed
              else
                lifted (writeHashTree host
                  ⟨hashTreeRanges, sourceRanges, hashAlgorithm, saltHex, rootHash⟩ salt params)
  | _ => throw .unparsed

def performer (op : CommandType) (args : List Text) (params : Params) : Perform Stop Params :=
  match op with
  | .abort => performCommandAbort
  | .bsdiff => performCommandDiff parseUint host false args params
  | .computeHashTree => performCommandComputeHashTree parseUint host lib args params
  | .erase => performCommandErase parseUint host args params
  | .free => performCommandFree host args params
  | .imgdiff => performCommandDiff parseUint host true args params
  | .move => performCommandMove parseUint host args params
  | .new => performCommandNew parseUint host args params
  | .stash => performCommandStash parseUint host args params
  | .zero => performCommandZero parseUint host args params

/-- One line of `PerformBlockImageUpdate`. -/
def performLine (abortAllowed : Bool) (line : Text) (params : Params) : Perform Stop Params :=
  let tokens := line.splitOn ' '
  match Command.parseType abortAllowed (tokens.headD []) with
  | none => throw .unparsed
  | some op => performer parseUint host lib op tokens.tail { params with targetVerified := false }

end performers

end BootableRecovery.Updater
