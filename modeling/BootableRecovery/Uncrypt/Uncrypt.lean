import BootableRecovery.Lib.Ring
import BootableRecovery.Lib.Text
import BootableRecovery.Otautil.BlockMap

namespace BootableRecovery.Uncrypt
open Lib Otautil

inductive UncryptErrorCode
  | fileSyncError
  | ioctlError
  | readError
  | writeError
  deriving DecidableEq, Repr

def windowSize : ℕ := 5

def fibmapRetryLimit : ℕ := 3

instance : NeZero windowSize := ⟨by decide⟩

/-- The package file, as `stat`, `read` and the FIBMAP ioctl show it, and the device under it. -/
structure Package where
  blkDev : Text
  size : ℕ
  blksize : ℕ
  blksize_pos : 0 < blksize
  byte : ℕ → UInt8
  fibmap : ℕ → Option ℕ
  fsync : Bool
  readable : ℕ → Bool
  writable : ℕ → Bool
  encrypted : Bool

structure State where
  head : Fin windowSize
  tail : Fin windowSize
  headBlock : ℕ
  pos : ℕ
  buffers : Fin windowSize → Bytes
  ranges : List ℕ
  written : List (ℕ × Bytes)

/-- Start and end of each range, in one vector. -/
def addBlockToRanges (ranges : List ℕ) (newBlock : ℕ) : List ℕ :=
  if ranges.getLast? = some newBlock then ranges.dropLast ++ [newBlock + 1]
  else ranges ++ [newBlock, newBlock + 1]

variable (p : Package)

/-- Asks for whatever block the last answer was, which is block 0. -/
def retryFibmap : (tries block : ℕ) → Except UncryptErrorCode ℕ
  | 0, _ => .error .ioctlError
  | tries + 1, block =>
    if p.fsync = false then .error .fileSyncError
    else
      match p.fibmap block with
      | none => .error .ioctlError
      | some 0 => retryFibmap tries 0
      | some block => .ok block

def findBlock (headBlock : ℕ) : Except UncryptErrorCode ℕ :=
  match p.fibmap headBlock with
  | none => .error .ioctlError
  | some 0 => retryFibmap p fibmapRetryLimit 0
  | some block => .ok block

/-- Write out the head buffer. -/
def writeOutHead (st : State) : Except UncryptErrorCode State :=
  match findBlock p st.headBlock with
  | .error e => .error e
  | .ok block =>
    if p.encrypted = true ∧ p.writable (p.blksize * block) = false then .error .writeError
    else .ok { st with
      ranges := addBlockToRanges st.ranges block
      written :=
        if p.encrypted then st.written ++ [(p.blksize * block, st.buffers st.head)] else st.written
      head := st.head + 1
      headBlock := st.headBlock + 1 }

/-- Read the next block to the tail. What a short block leaves of the buffer stays as it was. -/
def readToTail (st : State) : Except UncryptErrorCode State :=
  if p.encrypted then
    let toRead := min p.blksize (p.size - st.pos)
    if p.readable st.pos = false then .error .readError
    else .ok { st with
      buffers := Function.update st.buffers st.tail
        (window p.byte st.pos toRead ++ (st.buffers st.tail).drop toRead)
      pos := st.pos + toRead
      tail := st.tail + 1 }
  else .ok { st with pos := st.pos + p.blksize, tail := st.tail + 1 }

def makeRoom (st : State) : Except UncryptErrorCode State :=
  if st.tail + 1 = st.head then writeOutHead p st else .ok st

variable {p}

theorem writeOutHead_ok {st st' : State} (h : writeOutHead p st = .ok st') :
    st'.pos = st.pos ∧ st'.head = st.head + 1 ∧ st'.tail = st.tail := by
  unfold writeOutHead at h
  split at h
  · cases h
  · split_ifs at h
    all_goals
      cases h
      exact ⟨rfl, rfl, rfl⟩

theorem makeRoom_pos {st st' : State} (h : makeRoom p st = .ok st') : st'.pos = st.pos := by
  unfold makeRoom at h
  split_ifs at h
  · exact (writeOutHead_ok h).1
  · cases h
    rfl

theorem readToTail_pos {st st' : State} (h : readToTail p st = .ok st') (hpos : st.pos < p.size) :
    st.pos < st'.pos := by
  have := p.blksize_pos
  unfold readToTail at h
  split_ifs at h
  · cases h
    simp only
    omega
  · cases h
    simp only
    omega

variable (p)

def mainLoop (st : State) : Except UncryptErrorCode State :=
  if hpos : st.pos < p.size then
    match hm : makeRoom p st with
    | .error e => .error e
    | .ok st1 =>
      match hr : readToTail p st1 with
      | .error e => .error e
      | .ok st2 =>
        have : p.size - st2.pos < p.size - st.pos := by
          have h1 := makeRoom_pos hm
          have h2 := readToTail_pos hr (h1 ▸ hpos)
          omega
        mainLoop st2
  else .ok st
termination_by p.size - st.pos

def drainLoop (st : State) : Except UncryptErrorCode State :=
  if hne : st.head ≠ st.tail then
    match hw : writeOutHead p st with
    | .error e => .error e
    | .ok st1 =>
      have : used st1.head st1.tail < used st.head st.tail := by
        obtain ⟨-, hh, ht⟩ := writeOutHead_ok hw
        rw [hh, ht, used_pop hne]
        exact Nat.lt_succ_self _
      drainLoop st1
  else .ok st
termination_by used st.head st.tail

def startState : State where
  head := 0
  tail := 0
  headBlock := 0
  pos := 0
  buffers := fun _ => List.replicate p.blksize 0
  ranges := []
  written := []

def rangeText : List ℕ → Text
  | start :: stop :: ranges =>
    decimal start ++ ' ' :: (decimal stop ++ '\n' :: rangeText ranges)
  | _ => []

def headerText : Text :=
  cString p.blkDev ++ '\n' :: (decimal p.size ++ ' ' :: (decimal p.blksize ++ ['\n']))

def blockMapText (ranges : List ℕ) : Text :=
  headerText p ++ (decimal (ranges.length / 2) ++ '\n' :: rangeText ranges)

/-- Writing from the start of a file that was opened without O_TRUNC. -/
def overwrite (old new : Text) : Text := new ++ old.drop new.length

/-- What `ProductBlockMap` leaves behind. -/
structure Product where
  mapFile : Text
  ranges : List ℕ
  written : List (ℕ × Bytes)

/-- `stale` is what the temporary map file holds already. -/
def productBlockMap (stale : Text) : Except UncryptErrorCode Product :=
  match mainLoop p (startState p) with
  | .error e => .error e
  | .ok st =>
    match drainLoop p st with
    | .error e => .error e
    | .ok st => .ok {
        mapFile := overwrite stale (blockMapText p st.ranges)
        ranges := st.ranges
        written := st.written }

end BootableRecovery.Uncrypt
