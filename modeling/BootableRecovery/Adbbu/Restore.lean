import BootableRecovery.Adbbu.AdbStream

namespace BootableRecovery.Adbbu

/-! `twrpback::restore`, which cuts the adb stream into blocks again. -/

inductive RestoreStatus
  | running
  | closed -- the descriptors are closed in the middle of the loop
  | returned (ok : Bool)
  deriving DecidableEq, Repr

/-- `data` is what TWRP has taken from the data fifo for the file that is open. -/
structure Restore where
  status : RestoreStatus
  stream : List Bytes
  control : List Bytes
  data : List Bytes
  fifoOpen : Bool
  digested : Bytes
  md5fnsize : ℕ
  fileBytes : ℕ
  dataChunkBytes : ℕ
  readFromAdb : Bool
  md5sumdata : Bool
  tweofrcvd : Bool

/-- The adb stream as `fread` returns it. The streams that are restored have whole blocks only: of
fewer than 512 bytes at the end the code uses none. -/
def blocksOf (stream : Bytes) : List Bytes :=
  if _h : stream = [] then [] else stream.take maxAdbRead :: blocksOf (stream.drop maxAdbRead)
termination_by stream.length
decreasing_by
  rw [List.length_drop]
  exact Nat.sub_lt (List.length_pos_iff.mpr _h) (by decide)

/-- The trailer that goes to TWRP, without identity and crc. -/
def clearTrailer (block : Bytes) : Bytes := block.take 24 ++ zeros 8 ++ block.drop 32

namespace Restore

variable (sums : Checksums)

/-- The digest of what was restored, for TWRP to compare. -/
def md5Block (digested : Bytes) : Bytes :=
  startOf TWMD5 ++ zeros 8 ++ (charField 40 (sums.md5 digested) ++ zeros 440)

/-- The identity ties a trailer to the header of its file. -/
def identMatches (size : ℕ) (block : Bytes) : Bool :=
  readWord ((block.drop 28).take 4) =
    (sums.crc32 (block.take 28 ++ zeros 4 ++ block.drop 32 ++ wordField 8 size)).toNat

/-- `checkMD5Trailer`: the messages to TWRP, if the block is the trailer of the file. -/
def checkMD5Trailer (size : ℕ) (digested block : Bytes) : Option (List Bytes) :=
  if identMatches sums size block then
    let withoutIdent := block.take 28 ++ zeros 4 ++ block.drop 32
    if crcMatches sums 24 withoutIdent then some [clearTrailer block, md5Block sums digested]
    else none
  else none

variable (s : Restore)

/-- A block that calls itself a trailer; `failed` is what becomes of the call if it is none. -/
def onTrailer (failed : RestoreStatus) (block : Bytes) : Restore :=
  let s := if s.fileBytes ≥ s.md5fnsize then { s with fifoOpen := false } else s
  let s :=
    if s.tweofrcvd then { s with readFromAdb := true, tweofrcvd := false }
    else { s with readFromAdb := false } -- until TWRP sends TWEOF
  match checkMD5Trailer sums s.md5fnsize s.digested block with
  | none => { s with status := failed }
  | some messages => { s with control := s.control ++ messages }

/-- `accepts n`: TWRP has the data fifo open when it has taken `n` blocks. -/
def dataLoop (accepts : ℕ → Bool) : List Bytes → Restore → Restore
  | [], s => { s with stream := [], status := .returned false }
  | block :: stream, s =>
    let s := { s with
      stream := stream
      dataChunkBytes := s.dataChunkBytes + maxAdbRead
      fileBytes := s.fileBytes + maxAdbRead }
    if getType block = MD5TRAILER then s.onTrailer sums .closed block
    else
      let s := { s with digested := s.digested ++ block, readFromAdb := true }
      if (s.fifoOpen && accepts s.data.length) = false then { s with md5sumdata := true }
      else
        let s := { s with data := s.data ++ [block] }
        if s.dataChunkBytes = dataMaxChunkSize then
          { s with dataChunkBytes := 0, md5sumdata := false }
        else dataLoop accepts stream s

/-- The header of a file. -/
def onFileHeader (block : Bytes) : Restore :=
  if crcMatches sums 40 block then
    { s with
      control := s.control ++ [block]
      data := []
      fifoOpen := true
      digested := []
      md5fnsize := headerSize block
      fileBytes := 0
      dataChunkBytes := 0
      readFromAdb := true
      md5sumdata := false }
  else { s with status := .returned false }

/-- A block that is read at the top of the loop. -/
def onBlock (accepts : ℕ → Bool) (block : Bytes) : Restore :=
  let type := getType block
  if type = TWENDADB then
    if crcMatches sums 24 block then
      { s with
        control := s.control ++ [block.take 24 ++ zeros 4 ++ block.drop 28]
        readFromAdb := false
        md5sumdata := false }
    else { s with status := .returned false }
  else if type = TWSTREAMHDR then
    if crcMatches sums 40 block then
      { s with control := s.control ++ [block], md5sumdata := false }
    else { s with status := .returned false }
  else if type = TWIMG then s.onFileHeader sums block
  else if type = TWFN then s.onFileHeader sums block
  else if type = MD5TRAILER then
    { s with md5sumdata := false }.onTrailer sums (.returned true) block
  else if type = TWDATA then
    dataLoop sums accepts s.stream { s with dataChunkBytes := s.dataChunkBytes + maxAdbRead }
  else if s.md5sumdata then { s with digested := s.digested ++ block }
  else s

/-- A message from TWRP. -/
def onControl (cmd : Option Bytes) : Restore :=
  match cmd.map getType with
  | none => s
  | some type =>
    if type = TWEOF then { s with readFromAdb := true, tweofrcvd := true, fifoOpen := false }
    else if type = TWENDADB then { s with status := .returned true }
    else if type = TWERROR then { s with status := .returned false }
    else s

/-- One pass of the loop. -/
def step (accepts : ℕ → Bool) (cmd : Option Bytes) : Restore :=
  if s.status ≠ .running then s
  else
    let s := s.onControl cmd
    if s.status ≠ .running ∨ s.readFromAdb = false then s
    else
      match s.stream with
      | [] => s
      | block :: stream => { s with stream := stream }.onBlock sums accepts block

/-- The passes of the loop, each with the message that it finds. -/
def run (accepts : ℕ → Bool) (cmds : List (Option Bytes)) (s : Restore) : Restore :=
  cmds.foldl (fun s cmd => s.step sums accepts cmd) s

end Restore

end BootableRecovery.Adbbu
