import BootableRecovery.Otautil.BlockMap

namespace BootableRecovery.FuseSideload
open Lib Otautil

/-- The constructor's `CHECK_EQ` makes every FUSE block a whole number of source blocks. -/
structure FuseBlockDataProvider where
  map : BlockMapData
  fuseBlockSize : ℕ
  fuseBlockSize_pos : 0 < fuseBlockSize
  fuseBlockSize_lt : fuseBlockSize < 2 ^ 32
  aligned : fuseBlockSize % map.blockSize = 0

namespace FuseBlockDataProvider

/-- The loop over the sub ranges, each read at its place on the device. -/
def readRanges (dev : BlockDevice) (blksize : ℕ) : List Range → Option Bytes
  | [] => some []
  | (start, stop) :: rs =>
    match dev.readFullyAtOffset ((stop - start) * blksize) (u64 (start * blksize)) with
    | none => none
    | some bytes =>
      match readRanges dev blksize rs with
      | none => none
      | some rest => some (bytes ++ rest)

/-- `tailing_offset`: behind the last range read, or from `start_block` when none was. -/
def tailingOffset (p : FuseBlockDataProvider) (readRanges : RangeSet) (startBlock : ℕ) : ℕ :=
  match readRanges.ranges.getLast? with
  | some last => u64 (last.2 * p.map.blockSize)
  | none => u64 (startBlock * p.map.blockSize)

def readBlockAlignedData (p : FuseBlockDataProvider) (dev : BlockDevice)
    (fetchSize startBlock : ℕ) : Option Bytes :=
  let offset := u64 (startBlock * p.fuseBlockSize)
  if fetchSize > p.map.fileSize ∨ offset > p.map.fileSize - fetchSize then none
  else
    match p.map.blockRanges.getSubRanges (offset / p.map.blockSize)
        (fetchSize / p.map.blockSize) with
    | none => none
    | some sub =>
      match readRanges dev p.map.blockSize sub.ranges with
      | none => none
      | some full =>
        let tail := fetchSize % p.map.blockSize
        if tail ≠ 0 then
          match dev.readFullyAtOffset tail (p.tailingOffset sub startBlock) with
          | none => none
          | some rest => some (full ++ rest)
        else some full

/-- A request the FUSE layer can issue: inside the file, and short only at its end. -/
structure Request (p : FuseBlockDataProvider) where
  startBlock : ℕ
  fetchSize : ℕ
  startBlock_lt : startBlock < 2 ^ 32
  inBounds : startBlock * p.fuseBlockSize + fetchSize ≤ p.map.fileSize
  fetchSize_le : fetchSize ≤ p.fuseBlockSize
  short_at_end : fetchSize = p.fuseBlockSize ∨
    startBlock * p.fuseBlockSize + fetchSize = p.map.fileSize

variable {p : FuseBlockDataProvider}

/-- The index, among the blocks of the file, of the first source block of a request. -/
def Request.firstBlock (q : Request p) : ℕ := q.startBlock * (p.fuseBlockSize / p.map.blockSize)

def Request.fullBlocks (q : Request p) : ℕ := q.fetchSize / p.map.blockSize

def Request.tail (q : Request p) : ℕ := q.fetchSize % p.map.blockSize

/-- The device block the tail is read from, and the device block that holds it. -/
def Request.tailReadFrom (q : Request p) : Option ℕ :=
  if q.fullBlocks = 0 then some q.startBlock
  else (p.map.blockRanges.getBlockNumber (q.firstBlock + q.fullBlocks - 1)).map (· + 1)

def Request.tailBlock (q : Request p) : Option ℕ :=
  p.map.blockRanges.getBlockNumber (q.firstBlock + q.fullBlocks)

theorem Request.offset_eq (q : Request p) :
    q.startBlock * p.fuseBlockSize = q.firstBlock * p.map.blockSize := by
  have h := Nat.div_add_mod p.fuseBlockSize p.map.blockSize
  rw [p.aligned, Nat.add_zero] at h
  calc q.startBlock * p.fuseBlockSize
      = q.startBlock * (p.map.blockSize * (p.fuseBlockSize / p.map.blockSize)) := by rw [h]
    _ = q.firstBlock * p.map.blockSize := by rw [Request.firstBlock]; ring

theorem Request.fetchSize_eq (q : Request p) :
    q.fetchSize = q.fullBlocks * p.map.blockSize + q.tail := by
  rw [Request.fullBlocks, Request.tail, Nat.mul_comm]
  exact (Nat.div_add_mod _ _).symm

theorem Request.offset_lt (q : Request p) : q.startBlock * p.fuseBlockSize < 2 ^ 64 := by
  have h := q.inBounds
  have h' := p.map.fileSize_lt
  omega

/-- The whole blocks of a request are blocks of the file. -/
theorem Request.full_le (q : Request p) :
    q.firstBlock + q.fullBlocks ≤ p.map.blockRanges.blocks := by
  have hle := fileSize_le_blocks p.map
  have hin := q.inBounds
  rw [q.offset_eq, q.fetchSize_eq] at hin
  have : (q.firstBlock + q.fullBlocks) * p.map.blockSize ≤
      p.map.blockRanges.blocks * p.map.blockSize := by
    rw [Nat.add_mul]; omega
  exact Nat.le_of_mul_le_mul_right this p.map.blockSize_pos

theorem Request.tail_lt (q : Request p) : q.tail < p.map.blockSize :=
  Nat.mod_lt _ p.map.blockSize_pos

theorem Request.full_lt_of_tail (q : Request p) (ht : q.tail ≠ 0) :
    q.firstBlock + q.fullBlocks < p.map.blockRanges.blocks := by
  have hle := fileSize_le_blocks p.map
  have hin := q.inBounds
  rw [q.offset_eq, q.fetchSize_eq] at hin
  have : (q.firstBlock + q.fullBlocks) * p.map.blockSize <
      p.map.blockRanges.blocks * p.map.blockSize := by
    rw [Nat.add_mul]; omega
  exact Nat.lt_of_mul_lt_mul_right this

theorem readRanges_eq (dev : BlockDevice) (n : ℕ) (rs : List Range) (hp : ∀ r ∈ rs, r.1 < r.2)
    (h : ∀ r ∈ rs, r.2 * n ≤ dev.size) :
    readRanges dev n rs = some ((expandRanges rs).flatMap (dev.block n)) := by
  induction rs with
  | nil => rfl
  | cons r rs ih =>
    obtain ⟨b, e⟩ := r
    have hbe : b < e := hp (b, e) (by simp)
    have hsz : e * n ≤ dev.size := h (b, e) (by simp)
    have hlt := dev.size_lt
    have hsum : b * n + (e - b) * n = e * n := by
      rw [← Nat.add_mul]
      congr 1
      omega
    have hmod : u64 (b * n) = b * n := u64_of_lt (by omega)
    have hread : dev.readFullyAtOffset ((e - b) * n) (b * n) =
        some (window dev.byte (b * n) ((e - b) * n)) := by
      rw [BlockDevice.readFullyAtOffset, if_pos (.inr (by omega))]
    simp only [readRanges, hmod, hread,
      ih (fun q hq => hp q (List.mem_cons_of_mem _ hq))
        (fun q hq => h q (List.mem_cons_of_mem _ hq)), expandRanges_cons, List.flatMap_append,
      window_blocks dev.byte n b (e - b)]
    rfl

/-- The blocks a request reads whole. -/
def Request.full (q : Request p) (dev : BlockDevice) : Bytes :=
  ((p.map.blockRanges.expand.drop q.firstBlock).take q.fullBlocks).flatMap
    (dev.block p.map.blockSize)

theorem Request.tailReadFrom_isSome (q : Request p) : ∃ x, q.tailReadFrom = some x := by
  unfold Request.tailReadFrom
  split_ifs with h
  · exact ⟨_, rfl⟩
  · have hlt : q.firstBlock + q.fullBlocks - 1 < p.map.blockRanges.expand.length := by
      have := q.full_le
      rw [RangeSet.expand_length]
      omega
    rw [RangeSet.getBlockNumber_eq, List.getElem?_eq_getElem hlt]
    exact ⟨_, rfl⟩

theorem tailingOffset_eq (q : Request p) {sub : RangeSet} {x : ℕ}
    (hx : sub.expand = (p.map.blockRanges.expand.drop q.firstBlock).take q.fullBlocks)
    (h : q.tailReadFrom = some x) :
    p.tailingOffset sub q.startBlock = u64 (x * p.map.blockSize) := by
  have hfull := q.full_le
  have hlen : sub.expand.length = q.fullBlocks := by
    rw [hx, List.length_take, List.length_drop, RangeSet.expand_length]
    omega
  unfold Request.tailReadFrom at h
  split_ifs at h with h0
  · -- no whole block was read
    have hr : sub.ranges = [] := by
      by_contra hne
      have := sub.blocks_pos_of_ranges hne
      rw [← RangeSet.expand_length] at this
      omega
    cases h
    rw [tailingOffset, hr]
    rfl
  · rw [RangeSet.getBlockNumber_eq, Option.map_eq_some_iff] at h
    obtain ⟨b, hb, rfl⟩ := h
    have hlast : sub.expand.getLast? = some b := by
      rw [List.getLast?_eq_getElem?, hlen, hx, List.getElem?_take_of_lt (by omega),
        List.getElem?_drop, ← hb]
      congr 1
      omega
    obtain ⟨r, hr, hr2⟩ := sub.getLast?_ranges_of_expand hlast
    rw [tailingOffset, hr, ← hr2]

theorem le_of_mem_expand {dev : BlockDevice} {n b : ℕ} {rs : List Range}
    (h : ∀ r ∈ rs, r.2 * n ≤ dev.size) (hb : b ∈ expandRanges rs) : (b + 1) * n ≤ dev.size := by
  obtain ⟨r, hr, h1, h2⟩ := RangeSet.mem_expandRanges.mp hb
  exact (Nat.mul_le_mul_right n h2).trans (h r hr)

/-- On a device that holds the listed blocks a request reads its whole blocks, and then the
tail from `tailReadFrom`. -/
theorem readBlockAlignedData_eq (q : Request p) (dev : BlockDevice) {x : ℕ}
    (h : ∀ r ∈ p.map.blockRanges.ranges, r.2 * p.map.blockSize ≤ dev.size)
    (hx : q.tailReadFrom = some x) :
    p.readBlockAlignedData dev q.fetchSize q.startBlock =
      if q.tail = 0 then some (q.full dev)
      else (dev.readFullyAtOffset q.tail (u64 (x * p.map.blockSize))).map (q.full dev ++ ·) := by
  have hin := q.inBounds
  have hdiv : q.startBlock * p.fuseBlockSize / p.map.blockSize = q.firstBlock := by
    rw [q.offset_eq, Nat.mul_div_cancel _ p.map.blockSize_pos]
  obtain ⟨sub, hsub, hexp⟩ :=
    p.map.blockRanges.getSubRanges_spec q.firstBlock q.fullBlocks q.full_le
  have hranges : ∀ r ∈ sub.ranges, r.2 * p.map.blockSize ≤ dev.size := by
    intro r hr
    have hlt := sub.proper r hr
    have hmem : r.2 - 1 ∈ sub.expand := RangeSet.mem_expandRanges.mpr ⟨r, hr, by omega, by omega⟩
    rw [hexp] at hmem
    have := le_of_mem_expand h (List.mem_of_mem_drop (List.mem_of_mem_take hmem))
    rwa [show r.2 - 1 + 1 = r.2 by omega] at this
  have hfull : readRanges dev p.map.blockSize sub.ranges = some (q.full dev) := by
    rw [readRanges_eq dev _ _ sub.proper hranges, Request.full, ← hexp]
    rfl
  rw [readBlockAlignedData, u64_of_lt q.offset_lt, if_neg (by omega), hdiv]
  simp only [show q.fetchSize / p.map.blockSize = q.fullBlocks from rfl,
    show q.fetchSize % p.map.blockSize = q.tail from rfl, hsub, hfull, tailingOffset_eq q hexp hx]
  by_cases ht : q.tail = 0
  · simp [ht]
  · simp only [ht, ne_eq, not_false_eq_true, if_true, if_false]
    cases dev.readFullyAtOffset q.tail (u64 (x * p.map.blockSize)) <;> rfl

/-- The mapped file has the same whole blocks, and the tail from `tailBlock`. -/
theorem mapped_slice_eq (q : Request p) (dev : BlockDevice) {y : ℕ}
    (hy : q.tail = 0 ∨ q.tailBlock = some y) :
    (((p.map.blockRanges.expand.flatMap (dev.block p.map.blockSize)).take p.map.fileSize).drop
      (q.startBlock * p.fuseBlockSize)).take q.fetchSize =
      q.full dev ++ (dev.block p.map.blockSize y).take q.tail := by
  have hin := q.inBounds
  have huni : ∀ l : List ℕ, ∀ b ∈ l, (dev.block p.map.blockSize b).length = p.map.blockSize :=
    fun _ b _ => dev.block_length _ b
  have hfull := q.full_le
  have hlen : (q.full dev).length = q.fullBlocks * p.map.blockSize := by
    rw [Request.full, flatMap_length_uniform (huni _), List.length_take, List.length_drop,
      RangeSet.expand_length]
    congr 1
    omega
  rw [List.drop_take, List.take_take, min_eq_left (by omega), q.offset_eq,
    flatMap_drop_uniform (huni _)]
  -- cut the blocks from the first one on into the whole ones and the rest
  have hcut : (p.map.blockRanges.expand.drop q.firstBlock).flatMap (dev.block p.map.blockSize) =
      q.full dev ++ (p.map.blockRanges.expand.drop (q.firstBlock + q.fullBlocks)).flatMap
        (dev.block p.map.blockSize) := by
    rw [Request.full, ← List.flatMap_append, ← List.drop_drop, List.take_append_drop]
  rw [hcut, q.fetchSize_eq, List.take_append, List.take_of_length_le (by omega), hlen,
    Nat.add_sub_cancel_left]
  congr 1
  rcases hy with h0 | hy
  · simp [h0]
  · rw [Request.tailBlock, RangeSet.getBlockNumber_eq] at hy
    obtain ⟨hlt, hget⟩ := List.getElem?_eq_some_iff.mp hy
    rw [List.drop_eq_getElem_cons hlt, List.flatMap_cons, hget, List.take_append_of_le_length]
    rw [dev.block_length]
    exact q.tail_lt.le

/-- A device that is zero but for one byte. -/
def markedDevice (i : ℕ) : BlockDevice where
  byte j := if j = i then 1 else 0
  size := 2 ^ 63 - 1
  size_lt := by decide

/-- Where the two blocks differ, the byte that opens the right one tells them apart. -/
theorem read_marked_ne (q : Request p) {x y : ℕ}
    (h : ∀ r ∈ p.map.blockRanges.ranges, r.2 * p.map.blockSize < 2 ^ 63)
    (ht : q.tail ≠ 0) (hx : q.tailReadFrom = some x) (hy : q.tailBlock = some y) (hne : x ≠ y) :
    ∃ file, mapBlockFile (markedDevice (y * p.map.blockSize)) p.map = some file ∧
      p.readBlockAlignedData (markedDevice (y * p.map.blockSize)) q.fetchSize q.startBlock ≠
        some ((file.drop (q.startBlock * p.fuseBlockSize)).take q.fetchSize) := by
  have hpos := p.map.blockSize_pos
  have hle : ∀ r ∈ p.map.blockRanges.ranges,
      r.2 * p.map.blockSize ≤ (markedDevice (y * p.map.blockSize)).size := by
    intro r hr
    have := h r hr
    simp only [markedDevice]
    omega
  have hxlt : x * p.map.blockSize < 2 ^ 64 := by
    unfold Request.tailReadFrom at hx
    split_ifs at hx
    · cases hx
      have := Nat.mul_lt_mul'' q.startBlock_lt p.map.blockSize_lt
      omega
    · rw [RangeSet.getBlockNumber_eq, Option.map_eq_some_iff] at hx
      obtain ⟨b, hb, rfl⟩ := hx
      have := le_of_mem_expand hle (List.mem_of_getElem? hb)
      have := (markedDevice (y * p.map.blockSize)).size_lt
      omega
  refine ⟨_, mapBlockFile_eq _ _ hle, ?_⟩
  rw [readBlockAlignedData_eq q _ hle hx, if_neg ht, mapped_slice_eq q _ (.inr hy),
    u64_of_lt hxlt]
  unfold BlockDevice.readFullyAtOffset
  split_ifs with hin
  · -- the tails are one byte or more, and their first bytes are 0 and 1
    intro he
    simp only [Option.map_some, Option.some.injEq, List.append_cancel_left_eq] at he
    have h0 := congrArg (fun l : Bytes => l[0]?) he
    have hmul : x * p.map.blockSize ≠ y * p.map.blockSize :=
      fun hm => hne (Nat.eq_of_mul_eq_mul_right hpos hm)
    have htl : 0 < q.tail := Nat.pos_of_ne_zero ht
    simp only [BlockDevice.block, window_take] at h0
    rw [window_getElem? _ _ _ _ htl, window_getElem? _ _ _ _ (by have := q.tail_lt; omega)] at h0
    simp [markedDevice, hmul] at h0
  · simp

/-- The provider returns the bytes of the mapped file, whatever the device holds, exactly when
the request has no tail, or the tail is read from the block that holds it. -/
theorem readBlockAlignedData_eq_mapped_iff (q : Request p)
    (h : ∀ r ∈ p.map.blockRanges.ranges, r.2 * p.map.blockSize < 2 ^ 63) :
    (∀ dev file, mapBlockFile dev p.map = some file →
      p.readBlockAlignedData dev q.fetchSize q.startBlock =
        some ((file.drop (q.startBlock * p.fuseBlockSize)).take q.fetchSize)) ↔
      q.tail = 0 ∨ q.tailReadFrom = q.tailBlock := by
  obtain ⟨x, hx⟩ := q.tailReadFrom_isSome
  constructor
  · intro hall
    by_contra hcon
    obtain ⟨ht, hne⟩ := not_or.mp hcon
    have hlt : q.firstBlock + q.fullBlocks < p.map.blockRanges.expand.length :=
      q.full_lt_of_tail ht
    have hy : q.tailBlock = some (p.map.blockRanges.expand.get ⟨_, hlt⟩) := by
      rw [Request.tailBlock, RangeSet.getBlockNumber_eq, List.getElem?_eq_getElem hlt]
      rfl
    obtain ⟨file, hf, hread⟩ := read_marked_ne q h ht hx hy
      (fun he => hne (by rw [hx, hy, he]))
    exact hread (hall _ _ hf)
  · intro hcond dev file hfile
    have hle := le_of_mapBlockFile hfile
    rw [mapBlockFile_eq dev p.map hle, Option.some.injEq] at hfile
    rw [← hfile, readBlockAlignedData_eq q dev hle hx,
      mapped_slice_eq q dev (hcond.imp_right fun he => he ▸ hx)]
    split_ifs with ht
    · simp [ht]
    · have hmem : x ∈ p.map.blockRanges.expand := by
        have hb := (hcond.resolve_left ht).symm.trans hx
        rw [Request.tailBlock, RangeSet.getBlockNumber_eq] at hb
        exact List.mem_of_getElem? hb
      have hin := le_of_mem_expand hle hmem
      have hsz := dev.size_lt
      have htl := q.tail_lt
      have hadd : (x + 1) * p.map.blockSize = x * p.map.blockSize + p.map.blockSize := by ring
      rw [u64_of_lt (by omega), BlockDevice.readFullyAtOffset, if_pos (.inr (by omega)),
        BlockDevice.block, window_take, min_eq_left htl.le]
      rfl

/-- Two blocks of the file, apart on the device, the second one short. -/
def fragmentedMap : BlockMapData where
  path := "/dev/block/sda1".toList
  fileSize := 4196
  blockSize := 4096
  blockRanges := ⟨[(10, 11), (20, 21)], by decide, by decide⟩
  path_ne := by decide
  fileSize_pos := by decide
  fileSize_lt := by decide
  blockSize_pos := by decide
  blockSize_lt := by decide
  covers := by decide

def fragmentedProvider : FuseBlockDataProvider where
  map := fragmentedMap
  fuseBlockSize := 65536
  fuseBlockSize_pos := by decide
  fuseBlockSize_lt := by decide
  aligned := by decide

def wholeFile : Request fragmentedProvider where
  startBlock := 0
  fetchSize := 4196
  startBlock_lt := by decide
  inBounds := by decide
  fetchSize_le := by decide
  short_at_end := by decide

/-- The tail of the fragmented file comes from block 11 instead of block 20. -/
theorem fragmented_tail_misread :
    ∃ file, mapBlockFile (markedDevice (20 * 4096)) fragmentedMap = some file ∧
      fragmentedProvider.readBlockAlignedData (markedDevice (20 * 4096)) 4196 0 ≠
        some ((file.drop 0).take 4196) :=
  read_marked_ne wholeFile (x := 11) (y := 20) (by decide) (by decide) (by decide) (by decide)
    (by decide)

theorem fragmented_mapped_iff :
    (∀ dev file, mapBlockFile dev fragmentedMap = some file →
      fragmentedProvider.readBlockAlignedData dev 4196 0 =
        some ((file.drop (0 * 65536)).take 4196)) ↔
      wholeFile.tail = 0 ∨ wholeFile.tailReadFrom = wholeFile.tailBlock :=
  readBlockAlignedData_eq_mapped_iff wholeFile (by decide)

/-- The map above is what its text parses to. -/
example : (parseBlockMapFile "/dev/block/sda1\n4196 4096\n2\n10 11\n20 21\n".toList).map
    (fun m => (m.path, m.fileSize, m.blockSize, m.blockRanges.ranges)) =
    some (fragmentedMap.path, 4196, 4096, [(10, 11), (20, 21)]) := by decide

end FuseBlockDataProvider
end BootableRecovery.FuseSideload
