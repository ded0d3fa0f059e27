import BootableRecovery.Adbbu.AdbStream

namespace BootableRecovery.Adbbu

/-! `twrpback::backup`, between the fifos that TWRP writes and the adb stream. -/

/-- The `read` that `backup` makes next. -/
inductive BackupPos
  | control
  | drain -- the loop after TWEOF
  | data
  | chunkEnd (bytesLeft : ℕ)
  | returned (ok : Bool)
  deriving DecidableEq, Repr

structure Backup where
  pos : BackupPos
  adbd : Bytes
  digested : Bytes
  md5fnsize : ℕ
  fileBytes : ℕ
  dataChunkBytes : ℕ
  writedata : Bool
  compressed : Bool
  firstDataPacket : Bool

inductive ReadResult
  | bytes (bs : Bytes)
  | again -- nothing there, but the fifo has a writer
  | eof
  deriving DecidableEq, Repr

namespace Backup

/-- What `backup` sets up before its loop. -/
def start : Backup :=
  { pos := .control, adbd := [], digested := [], md5fnsize := 0, fileBytes := 0,
    dataChunkBytes := 0, writedata := true, compressed := false, firstDataPacket := true }

variable (sums : Checksums) (b : Backup)

/-- Bytes that go to the digest and to the stream. -/
def put (bs : Bytes) : Backup :=
  { b with
    adbd := b.adbd ++ bs
    digested := b.digested ++ bs
    fileBytes := b.fileBytes + bs.length
    dataChunkBytes := b.dataChunkBytes + bs.length }

/-- From the control messages on to the data loop, if there is something to write. -/
def toData : Backup := { b with pos := if b.writedata || b.compressed then .data else .control }

/-- The padding and the trailer, when the data fifo has been drained. -/
def finishFile : Backup :=
  let padding := zeros (paddingBytes b.fileBytes)
  let digested := b.digested ++ padding
  toData { b with
    adbd := b.adbd ++ padding ++ md5Trailer sums b.md5fnsize digested
    digested := digested
    writedata := false
    firstDataPacket := true
    fileBytes := 0
    dataChunkBytes := 0 }

/-- One message from the control fifo, if there is one. -/
def onControl : Option Bytes → Backup
  | none => b.toData
  | some cmd =>
    let type := getType cmd
    if type = TWERROR then { b with pos := .returned false }
    else if type = TWENDADB then { b with adbd := b.adbd ++ cmd, pos := .returned true }
    else if type = TWSTREAMHDR then
      toData { b with adbd := b.adbd ++ cmd, writedata := false, dataChunkBytes := 0 }
    else if type = TWIMG then
      toData { b with
        adbd := b.adbd ++ cmd
        digested := []
        md5fnsize := headerSize cmd
        compressed := false
        writedata := true
        dataChunkBytes := 0 }
    else if type = TWFN then
      toData { b with
        adbd := b.adbd ++ cmd
        digested := []
        md5fnsize := headerSize cmd
        compressed := headerCompressed cmd
        writedata := true
        dataChunkBytes := 0 }
    else if type = TWEOF then { b with pos := .drain }
    else toData { b with dataChunkBytes := 0 }

/-- The header of a chunk, in front of its first data. -/
def openChunk : Backup :=
  if b.firstDataPacket then
    { b with
      adbd := b.adbd ++ dataHeader sums
      fileBytes := b.fileBytes + maxAdbRead
      dataChunkBytes := b.dataChunkBytes + maxAdbRead
      firstDataPacket := false }
  else b

def closeChunk : Backup := { b with dataChunkBytes := 0, firstDataPacket := true, pos := .data }

/-- What the data loop does with bytes that it has read. -/
def onData (bs : Bytes) : Backup :=
  let b := (b.openChunk sums).put bs
  if b.dataChunkBytes = dataMaxChunkSize then b.closeChunk
  else if b.dataChunkBytes > dataMaxChunkSize - maxAdbRead then
    { b with pos := .chunkEnd (dataMaxChunkSize - b.dataChunkBytes) }
  else b

/-- One `read` of the data fifo. -/
def onRead (result : ReadResult) : Backup :=
  match b.pos, result with
  -- `bytes` is the outcome of the comparison with 0 here, so 1 for every other outcome of `read`
  | .drain, .bytes bs => b.put (bs.take 1)
  | .drain, .again => b.put [0]
  | .drain, .eof => b.finishFile sums
  | .data, .bytes bs => b.onData sums bs
  | .data, _ => { b with pos := .control }
  | .chunkEnd bytesLeft, .bytes bs =>
    let b := b.put bs
    if bytesLeft = bs.length then b.closeChunk
    else { b with pos := .chunkEnd (bytesLeft - bs.length) }
  | .chunkEnd _, .again => b
  | .chunkEnd _, .eof => b.closeChunk
  | .control, _ => b
  | .returned _, _ => b

/-- The size of the buffer of the next `read` from the data fifo. -/
def requested : ℕ :=
  match b.pos with
  | .chunkEnd bytesLeft => bytesLeft
  | _ => maxAdbRead

end Backup

/-- How far TWRP is. -/
inductive TwrpStage
  | start
  | between
  | opening (f : AdbFile)
  | writing (left : Bytes)
  | written
  | ended
  deriving DecidableEq, Repr

/-- Both sides and the two fifos; `writer`: TWRP has the data fifo open. -/
structure AdbSystem where
  backup : Backup
  control : List Bytes
  pipe : Bytes
  writer : Bool
  stage : TwrpStage
  files : List AdbFile

/-- A step of one side; `n` is how many bytes it writes or reads, where this is left open. -/
inductive AdbStep
  | twrp (n : ℕ)
  | backup (n : ℕ)
  deriving DecidableEq, Repr

namespace AdbSystem

variable (sums : Checksums)

def start (files : List AdbFile) : AdbSystem :=
  { backup := .start, control := [], pipe := [], writer := false, stage := .start, files := files }

def send (s : AdbSystem) (cmd : Bytes) : AdbSystem := { s with control := s.control ++ [cmd] }

/-- TWRP: the stream header, then for each file its header, its data, and TWEOF once the data fifo
is closed, and TWENDADB. -/
def twrpStep (n : ℕ) (s : AdbSystem) : Option AdbSystem :=
  match s.stage with
  | .start => some { s.send (streamHeader sums s.files.length) with stage := .between }
  | .between =>
    match s.files with
    | [] => some { s.send (controlBlock sums TWENDADB) with stage := .ended }
    | f :: files => some { s.send (f.header sums) with stage := .opening f, files := files }
  | .opening f => some { s with stage := .writing f.payload, writer := true }
  | .writing left =>
    if left = [] then some { s with stage := .written, writer := false }
    else if 0 < n ∧ n ≤ left.length then
      some { s with pipe := s.pipe ++ left.take n, stage := .writing (left.drop n) }
    else none
  | .written => some { s.send (controlBlock sums TWEOF) with stage := .between }
  | .ended => none

/-- A `read` of the data fifo may return fewer bytes than there are. -/
def readData (n : ℕ) (s : AdbSystem) : Option AdbSystem :=
  if s.pipe = [] then
    some { s with backup := s.backup.onRead sums (if s.writer then .again else .eof) }
  else if 0 < n ∧ n ≤ s.pipe.length ∧ n ≤ s.backup.requested then
    some { s with
      backup := s.backup.onRead sums (.bytes (s.pipe.take n))
      pipe := s.pipe.drop n }
  else none

def backupStep (n : ℕ) (s : AdbSystem) : Option AdbSystem :=
  match s.backup.pos with
  | .control =>
    some { s with backup := s.backup.onControl s.control.head?, control := s.control.tail }
  | .returned _ => none
  | .drain => s.readData sums n
  | .data => s.readData sums n
  | .chunkEnd _ => s.readData sums n

def step (s : AdbSystem) : AdbStep → Option AdbSystem
  | .twrp n => s.twrpStep sums n
  | .backup n => s.backupStep sums n

def run : List AdbStep → AdbSystem → Option AdbSystem
  | [], s => some s
  | a :: steps, s => (s.step sums a).bind (run steps)

end AdbSystem

end BootableRecovery.Adbbu
