import BootableRecovery.Lib.Splice
import BootableRecovery.Lib.Word

namespace BootableRecovery.Twrp
open Lib

/-! The buffer between libtar and the archive file. -/

/-- `T_BLOCKSIZE` -/
def tBlockSize : ℕ := 512

/-- A block as libtar writes them. -/
abbrev TarBlock := { data : List UInt8 // data.length = tBlockSize }

/-- The globals; memory that is not allocated has no bytes. -/
structure TarWriter where
  flush : Bool
  eotCount : ℤ
  writeBuffer : List UInt8
  bufferSize : ℕ
  bufferLoc : ℕ
  bufferStatus : ℤ
  progPipe : ℤ

/-- What the archive file and the progress pipe got. -/
structure TarOutput where
  file : List UInt8
  progress : List ℕ

namespace TarWriter

def initial : TarWriter := ⟨false, -1, [], 4096, 0, 0, -1⟩

section calls
variable (pointerSize : ℕ) (w : TarWriter)

def reinitLibtarBuffer : TarWriter :=
  { w with flush := false, eotCount := -1, bufferLoc := 0, bufferStatus := 1 }

/-- `memory` is what `malloc` finds in the bytes that it gives. -/
def initLibtarBuffer (memory : ℕ → UInt8) (newBuffSize : ℕ) (pipeFd : ℤ) : TarWriter :=
  let size := if newBuffSize ≠ 0 then newBuffSize else w.bufferSize
  { w.reinitLibtarBuffer with
    bufferSize := size
    writeBuffer := (List.range (pointerSize * size)).map memory
    progPipe := pipeFd }

def freeLibtarBuffer : TarWriter :=
  { w with
    writeBuffer := if w.bufferStatus > 0 then [] else w.writeBuffer
    bufferStatus := 0
    progPipe := -1 }

def flushLibtarBuffer : TarWriter :=
  { w with eotCount := 0, bufferStatus := if w.bufferStatus ≠ 0 then 2 else w.bufferStatus }

def initLibtarNoBuffer (pipeFd : ℤ) : TarWriter :=
  { w with bufferSize := tBlockSize, progPipe := pipeFd, bufferStatus := 0 }

/-- The first half of `write_libtar_buffer`; nothing if `memcpy` leaves the buffer. -/
def fillBuffer (data : List UInt8) : Option TarWriter :=
  if w.writeBuffer.length < w.bufferLoc + data.length then none
  else
    let loc := u32 (w.bufferLoc + data.length)
    -- libtar ends an archive with two blank blocks, which are counted from the flush on
    let eot := if w.eotCount ≥ 0 ∧ w.eotCount < 2 then w.eotCount + 1 else w.eotCount
    some { w with
      writeBuffer := splice w.writeBuffer w.bufferLoc data
      bufferLoc := loc
      eotCount := eot
      flush := loc ≥ w.bufferSize ∨ eot ≥ 2 }

/-- The second half, with file descriptors that take everything. -/
def drainBuffer (out : TarOutput) (size : ℕ) : TarWriter × TarOutput × ℕ :=
  if w.flush then
    if w.bufferLoc = 0 then ({ w with flush := false }, out, 0)
    else
      ({ w with flush := false, bufferLoc := 0 },
        { file := out.file ++ w.writeBuffer.take w.bufferLoc,
          progress := out.progress ++ [w.bufferLoc] }, size)
  else (w, out, size)

/-- `write_libtar_buffer`, with what it returns. -/
def writeLibtarBuffer (out : TarOutput) (data : List UInt8) :
    Option (TarWriter × TarOutput × ℕ) :=
  if w.flush then some (w.drainBuffer out data.length)
  else (w.fillBuffer data).map fun w => w.drainBuffer out data.length

/-- Block writes of libtar, which goes on as long as they return the block size. -/
def writeBlocks : TarWriter → TarOutput → List TarBlock → Option (TarWriter × TarOutput)
  | w, out, [] => some (w, out)
  | w, out, block :: blocks =>
    match w.writeLibtarBuffer out block.val with
    | none => none
    | some (w, out, size) => if size = tBlockSize then writeBlocks w out blocks else none

end calls

/-- The globals that calls lead to; `init_libtar_buffer` is only called for the size that is set. -/
inductive Reachable (pointerSize : ℕ) : TarWriter → Prop
  | initial : Reachable pointerSize initial
  | reinit {w} : Reachable pointerSize w → Reachable pointerSize w.reinitLibtarBuffer
  | init {w} (memory : ℕ → UInt8) (pipeFd : ℤ) : Reachable pointerSize w →
      Reachable pointerSize (w.initLibtarBuffer pointerSize memory 0 pipeFd)
  | free {w} : Reachable pointerSize w → Reachable pointerSize w.freeLibtarBuffer
  | flush {w} : Reachable pointerSize w → Reachable pointerSize w.flushLibtarBuffer
  | noBuffer {w} (pipeFd : ℤ) : Reachable pointerSize w →
      Reachable pointerSize (w.initLibtarNoBuffer pipeFd)
  | write {w w' out out' size} (data : List UInt8) : Reachable pointerSize w →
      w.writeLibtarBuffer out data = some (w', out', size) → Reachable pointerSize w'

variable {pointerSize : ℕ}

theorem bufferSize_drainBuffer (w : TarWriter) (out : TarOutput) (size : ℕ) :
    (w.drainBuffer out size).1.bufferSize = w.bufferSize := by
  unfold drainBuffer
  split_ifs <;> rfl

theorem bufferSize_fillBuffer {w w' : TarWriter} {data : List UInt8}
    (h : w.fillBuffer data = some w') : w'.bufferSize = w.bufferSize := by
  rw [fillBuffer] at h
  by_cases hout : w.writeBuffer.length < w.bufferLoc + data.length
  · rw [if_pos hout] at h
    cases h
  · rw [if_neg hout] at h
    rw [← Option.some.inj h]

theorem bufferSize_writeLibtarBuffer {w w' : TarWriter} {out out' : TarOutput} {data : List UInt8}
    {size : ℕ} (h : w.writeLibtarBuffer out data = some (w', out', size)) :
    w'.bufferSize = w.bufferSize := by
  unfold writeLibtarBuffer at h
  split_ifs at h
  · have hdrain := w.bufferSize_drainBuffer out data.length
    rwa [Option.some.inj h] at hdrain
  · obtain ⟨v, hv, hdrain⟩ := Option.map_eq_some_iff.mp h
    have hsize := v.bufferSize_drainBuffer out data.length
    rw [hdrain] at hsize
    exact hsize.trans (bufferSize_fillBuffer hv)

/-- No call makes the buffer of another size than these two. -/
theorem Reachable.bufferSize {w : TarWriter} (h : Reachable pointerSize w) :
    w.bufferSize = 4096 ∨ w.bufferSize = tBlockSize := by
  induction h with
  | initial => exact .inl rfl
  | reinit _ ih => exact ih
  | init _ _ _ ih => exact ih
  | free _ ih => exact ih
  | flush _ ih => exact ih
  | noBuffer => exact .inr rfl
  | write _ _ hwrite ih => rwa [bufferSize_writeLibtarBuffer hwrite]

/-- Between two calls: `bytes` were given, what is not in the file yet is in the buffer, and there
is room for one more block. -/
structure Holds (w : TarWriter) (out : TarOutput) (bytes : List UInt8) : Prop where
  noFlush : w.flush = false
  whole : ∃ k, w.bufferSize = k * tBlockSize
  size_lt : w.bufferSize < 2 ^ 32
  allocated : w.bufferSize ≤ w.writeBuffer.length
  aligned : ∃ k, w.bufferLoc = k * tBlockSize
  room : w.bufferLoc < w.bufferSize
  content : out.file ++ w.writeBuffer.take w.bufferLoc = bytes
  counted : out.progress.sum = out.file.length

section session
variable {w : TarWriter} {out : TarOutput} {bytes : List UInt8}

theorem take_splice {buffer data : List UInt8} {loc : ℕ} (h : loc + data.length ≤ buffer.length) :
    (splice buffer loc data).take (loc + data.length) = buffer.take loc ++ data := by
  have hlen : (buffer.take loc ++ data).length = loc + data.length := by
    rw [List.length_append, List.length_take_of_le (by omega)]
  rw [splice, ← List.append_assoc, ← hlen, List.take_left]

theorem drainBuffer_of_flush (hflush : w.flush = true) (hloc : w.bufferLoc ≠ 0) (size : ℕ) :
    w.drainBuffer out size = ({ w with flush := false, bufferLoc := 0 },
      { file := out.file ++ w.writeBuffer.take w.bufferLoc,
        progress := out.progress ++ [w.bufferLoc] }, size) := by
  rw [drainBuffer, if_pos hflush, if_neg hloc]

theorem drainBuffer_of_not_flush (hflush : w.flush = false) (size : ℕ) :
    w.drainBuffer out size = (w, out, size) := by
  rw [drainBuffer, hflush, if_neg Bool.false_ne_true]

/-- A state of `Holds` in which there may be no room any more, just before the drain. -/
structure Filled (w v : TarWriter) (data : List UInt8) : Prop where
  size_eq : v.bufferSize = w.bufferSize
  length_eq : v.writeBuffer.length = w.writeBuffer.length
  loc_eq : v.bufferLoc = w.bufferLoc + data.length
  fits : v.bufferLoc ≤ v.writeBuffer.length
  eot_eq : v.eotCount =
    if w.eotCount ≥ 0 ∧ w.eotCount < 2 then w.eotCount + 1 else w.eotCount
  flush_iff : v.flush = true ↔ v.bufferLoc ≥ v.bufferSize ∨ v.eotCount ≥ 2
  content : v.writeBuffer.take v.bufferLoc = w.writeBuffer.take w.bufferLoc ++ data

theorem exists_filled {w : TarWriter} {data : List UInt8}
    (hfit : w.bufferLoc + data.length ≤ w.writeBuffer.length)
    (hsmall : w.bufferLoc + data.length < 2 ^ 32) :
    ∃ v, w.fillBuffer data = some v ∧ Filled w v data := by
  have hnext : u32 (w.bufferLoc + data.length) = w.bufferLoc + data.length := u32_of_lt hsmall
  refine ⟨_, if_neg (not_lt.mpr hfit), ⟨rfl, splice_length hfit, hnext, ?_, rfl, ?_, ?_⟩⟩
  · simp only [hnext]
    rwa [splice_length hfit]
  · simp
  · simp only [hnext]
    exact take_splice hfit

/-- One block, which the file gets when the buffer is full or the archive is at its end. -/
theorem Holds.write (h : Holds w out bytes) (block : TarBlock) :
    ∃ w' out', w.writeLibtarBuffer out block.val = some (w', out', tBlockSize) ∧
      Holds w' out' (bytes ++ block.val) ∧
      w'.eotCount = (if w.eotCount ≥ 0 ∧ w.eotCount < 2 then w.eotCount + 1 else w.eotCount) ∧
      (w'.eotCount ≥ 2 → w'.bufferLoc = 0) := by
  obtain ⟨data, hdata⟩ := block
  obtain ⟨size, hsize⟩ := h.whole
  obtain ⟨loc, hloc⟩ := h.aligned
  have hroom := h.room
  have hsmall := h.size_lt
  have halloc := h.allocated
  have hblock : tBlockSize = 512 := rfl
  rw [hblock] at hsize hloc
  have hlen : data.length = 512 := hdata
  have hfit : w.bufferLoc + data.length ≤ w.writeBuffer.length := by omega
  obtain ⟨v, hfill, hv⟩ := exists_filled hfit (by omega)
  have hvloc := hv.loc_eq
  have hvsize := hv.size_eq
  have hvlength := hv.length_eq
  have hvfits := hv.fits
  have hbytes : out.file ++ v.writeBuffer.take v.bufferLoc = bytes ++ data := by
    rw [hv.content, ← List.append_assoc, h.content]
  simp only [writeLibtarBuffer, h.noFlush, Bool.false_eq_true, if_false, hfill, Option.map_some,
    hdata]
  cases hflush : v.flush with
  | true =>
    -- the buffer goes to the file, whole
    have hnonzero : v.bufferLoc ≠ 0 := by omega
    refine ⟨_, _, congrArg some (drainBuffer_of_flush hflush hnonzero _), ⟨rfl, ⟨size, ?_⟩, ?_, ?_,
      ⟨0, ?_⟩, ?_, ?_, ?_⟩, hv.eot_eq, fun _ => rfl⟩
    · rw [hvsize, hsize, hblock]
    · rwa [hvsize]
    · rwa [hvsize, hvlength]
    · rw [Nat.zero_mul]
    · change 0 < v.bufferSize
      omega
    · rw [List.take_zero, List.append_nil]
      exact hbytes
    · rw [List.sum_append, List.sum_singleton, List.length_append, h.counted,
        List.length_take_of_le hvfits]
  | false =>
    have hnot : ¬(v.bufferLoc ≥ v.bufferSize ∨ v.eotCount ≥ 2) := fun hor => by
      rw [hv.flush_iff.mpr hor] at hflush
      cases hflush
    refine ⟨v, out, congrArg some (drainBuffer_of_not_flush hflush _), ⟨hflush, ⟨size, ?_⟩, ?_, ?_,
      ⟨loc + 1, ?_⟩, ?_, hbytes, h.counted⟩, hv.eot_eq, fun hend => absurd (.inr hend) hnot⟩
    · rw [hvsize, hsize, hblock]
    · rwa [hvsize]
    · rwa [hvsize, hvlength]
    · rw [hvloc, hloc, hlen, hblock, Nat.succ_mul]
    · omega

theorem Holds.writeBlocks (h : Holds w out bytes) (blocks : List TarBlock) :
    ∃ w' out', w.writeBlocks out blocks = some (w', out') ∧
      Holds w' out' (bytes ++ blocks.flatMap Subtype.val) := by
  induction blocks generalizing w out bytes with
  | nil => exact ⟨w, out, rfl, by simpa using h⟩
  | cons block blocks ih =>
    obtain ⟨w₁, out₁, hwrite, hholds, -, -⟩ := h.write block
    obtain ⟨w₂, out₂, hrest, hholds₂⟩ := ih hholds
    refine ⟨w₂, out₂, ?_, ?_⟩
    · rw [TarWriter.writeBlocks, hwrite]
      exact (if_pos rfl).trans hrest
    · rwa [List.flatMap_cons, ← List.append_assoc]

/-- The two blocks behind the flush empty the buffer. -/
theorem Holds.writeEnd (h : Holds w out bytes) (first last : TarBlock) :
    ∃ w' out', w.flushLibtarBuffer.writeBlocks out [first, last] = some (w', out') ∧
      Holds w' out' (bytes ++ (first.val ++ last.val)) ∧ w'.bufferLoc = 0 := by
  have hflushed : Holds w.flushLibtarBuffer out bytes :=
    ⟨h.noFlush, h.whole, h.size_lt, h.allocated, h.aligned, h.room, h.content, h.counted⟩
  obtain ⟨w₁, out₁, hwrite, hholds, heot, -⟩ := hflushed.write first
  obtain ⟨w₂, out₂, hwrite₂, hholds₂, heot₂, hempty⟩ := hholds.write last
  have hone : w₁.eotCount = 1 := heot
  rw [hone] at heot₂
  refine ⟨w₂, out₂, ?_, ?_, hempty (by rw [heot₂]; decide)⟩
  · rw [TarWriter.writeBlocks, hwrite]
    dsimp only
    rw [if_pos rfl, TarWriter.writeBlocks, hwrite₂]
    rfl
  · rwa [← List.append_assoc]

theorem holds_init (hpointer : pointerSize = 4 ∨ pointerSize = 8) (hw : Reachable pointerSize w)
    (memory : ℕ → UInt8) (pipeFd : ℤ) :
    Holds (w.initLibtarBuffer pointerSize memory 0 pipeFd) ⟨[], []⟩ [] := by
  have hsize := hw.bufferSize
  have hblock : tBlockSize = 512 := rfl
  rw [hblock] at hsize
  refine ⟨rfl, ?_, ?_, ?_, ⟨0, rfl⟩, ?_, by simp [initLibtarBuffer, reinitLibtarBuffer], rfl⟩
  · change ∃ k, w.bufferSize = k * 512
    rcases hsize with hsize | hsize
    · exact ⟨8, hsize⟩
    · exact ⟨1, hsize⟩
  · change w.bufferSize < 2 ^ 32
    omega
  · simp only [initLibtarBuffer, List.length_map, List.length_range]
    rcases hpointer with rfl | rfl <;> simp <;> omega
  · change 0 < w.bufferSize
    omega

/-- Every archive of blocks, whatever was done before: no copy leaves the buffer, what is not in the
file yet is in the buffer, and after the two blocks of the end everything is in the file. -/
theorem tarSession (hpointer : pointerSize = 4 ∨ pointerSize = 8) (hw : Reachable pointerSize w)
    (memory : ℕ → UInt8) (pipeFd : ℤ) (blocks : List TarBlock) (first last : TarBlock) :
    ∃ v vout, (w.initLibtarBuffer pointerSize memory 0 pipeFd).writeBlocks ⟨[], []⟩ blocks =
        some (v, vout) ∧
      vout.file ++ v.writeBuffer.take v.bufferLoc = blocks.flatMap Subtype.val ∧
      vout.progress.sum = vout.file.length ∧
      ∃ u out, v.flushLibtarBuffer.writeBlocks vout [first, last] = some (u, out) ∧
        out.file = (blocks ++ [first, last]).flatMap Subtype.val ∧ u.bufferLoc = 0 ∧
        out.progress.sum = out.file.length := by
  obtain ⟨v, vout, hrun, hholds⟩ := (holds_init hpointer hw memory pipeFd).writeBlocks blocks
  obtain ⟨u, out, hend, hholds', hempty⟩ := hholds.writeEnd first last
  rw [List.nil_append] at hholds hholds'
  refine ⟨v, vout, hrun, hholds.content, hholds.counted, u, out, hend, ?_, hempty, hholds'.counted⟩
  have hcontent := hholds'.content
  rw [hempty, List.take_zero, List.append_nil] at hcontent
  rw [hcontent, List.flatMap_append]
  simp

/-- The block that `tar_append_eof` writes twice. -/
def blankBlock : TarBlock := ⟨List.replicate tBlockSize 0, List.length_replicate⟩

/-- A block of a byte `n`. -/
def blockOf (n : ℕ) : TarBlock :=
  ⟨List.replicate tBlockSize (UInt8.ofNat n), List.length_replicate⟩

/-- Nine blocks do not fit into the buffer. -/
def nineBlocks : List TarBlock := (List.range 9).map blockOf

/-- An archive of nine blocks, after nothing and after an archive that was written without the
buffer. -/
theorem tarSession_nineBlocks :
    (∃ v vout u out, (initial.initLibtarBuffer 8 (fun _ => 7) 0 3).writeBlocks ⟨[], []⟩ nineBlocks =
        some (v, vout) ∧
      v.flushLibtarBuffer.writeBlocks vout [blankBlock, blankBlock] = some (u, out) ∧
      out.file = (nineBlocks ++ [blankBlock, blankBlock]).flatMap Subtype.val) ∧
    ∃ v vout u out, ((initial.initLibtarNoBuffer 5).initLibtarBuffer 4 (fun _ => 7) 0 3).writeBlocks
        ⟨[], []⟩ nineBlocks = some (v, vout) ∧
      v.flushLibtarBuffer.writeBlocks vout [blankBlock, blankBlock] = some (u, out) ∧
      out.file = (nineBlocks ++ [blankBlock, blankBlock]).flatMap Subtype.val := by
  constructor
  · obtain ⟨v, vout, hrun, -, -, u, out, hend, hfile, -⟩ :=
      tarSession (.inr rfl) .initial (fun _ => 7) 3 nineBlocks blankBlock blankBlock
    exact ⟨v, vout, u, out, hrun, hend, hfile⟩
  · obtain ⟨v, vout, hrun, -, -, u, out, hend, hfile, -⟩ :=
      tarSession (.inl rfl) (.noBuffer 5 .initial) (fun _ => 7) 3 nineBlocks blankBlock blankBlock
    exact ⟨v, vout, u, out, hrun, hend, hfile⟩

end session
end TarWriter
end BootableRecovery.Twrp
