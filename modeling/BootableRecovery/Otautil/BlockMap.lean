import BootableRecovery.Lib.Text
import BootableRecovery.Otautil.RangeSet

namespace BootableRecovery.Otautil
open Lib

abbrev Bytes := List UInt8

/-- A block device open for reading; its offsets fit an `off64_t`. -/
structure BlockDevice where
  byte : ℕ → UInt8
  size : ℕ
  size_lt : size < 2 ^ 63

namespace BlockDevice

def block (dev : BlockDevice) (n b : ℕ) : Bytes := window dev.byte (b * n) n

def readFullyAtOffset (dev : BlockDevice) (len off : ℕ) : Option Bytes :=
  if len = 0 ∨ off + len ≤ dev.size then some (window dev.byte off len) else none

theorem block_length (dev : BlockDevice) (n b : ℕ) : (dev.block n b).length = n := by
  simp [block]

end BlockDevice

/-- The content of a block map file. -/
structure BlockMapData where
  path : Text
  fileSize : ℕ
  blockSize : ℕ
  blockRanges : RangeSet
  path_ne : path ≠ []
  fileSize_pos : 0 < fileSize
  fileSize_lt : fileSize < 2 ^ 64
  blockSize_pos : 0 < blockSize
  blockSize_lt : blockSize < 2 ^ 32
  covers : blockRanges.blocks = (fileSize - 1) / blockSize + 1

/-- `sscanf` of two unsigned numbers that must both be there. -/
def scanPair (bits bits' : ℕ) (line : Text) : Option (ℕ × ℕ) :=
  match scanUnsigned bits (cString line) with
  | none => none
  | some (a, rest) =>
    match scanUnsigned bits' rest with
    | none => none
    | some (b, _) => some (a, b)

/-- The range lines: the ranges so far and the blocks that are still missing. -/
def parseRangeLines : List Text → ℕ → RangeSet → Option (RangeSet × ℕ)
  | [], remaining, ranges => some (ranges, remaining)
  | line :: lines, remaining, ranges =>
    match scanPair 64 64 line with
    | none => none
    | some (start, stop) =>
      if stop ≤ start ∨ stop - start > remaining then none
      else
        -- the result of PushBack is not looked at
        parseRangeLines lines (remaining - (stop - start))
          ((ranges.pushBack (start, stop)).getD ranges)

theorem pushBack_getD_expand (s : RangeSet) (r : Range) (h : r.1 < r.2)
    (hb : s.blocks + (r.2 - r.1) < sizeMax) :
    ((s.pushBack r).getD s).expand = s.expand ++ List.range' r.1 (r.2 - r.1) := by
  obtain ⟨t, ht, hr⟩ := s.pushBack_of_lt r h hb
  rw [ht, Option.getD_some, RangeSet.pushBack_expand ht]

theorem parseRangeLines_blocks {lines : List Text} {remaining left : ℕ} {acc ranges : RangeSet}
    (h : parseRangeLines lines remaining acc = some (ranges, left))
    (hb : acc.blocks + remaining < sizeMax) :
    ranges.blocks + left = acc.blocks + remaining := by
  induction lines generalizing remaining acc with
  | nil =>
    simp only [parseRangeLines, Option.some.injEq, Prod.mk.injEq] at h
    rw [← h.1, ← h.2]
  | cons line lines ih =>
    simp only [parseRangeLines] at h
    split at h
    · cases h
    · next start stop _ =>
      split_ifs at h with hbad
      have hx := pushBack_getD_expand acc (start, stop) (by simp only; omega) (by simp only; omega)
      have hl : ((acc.pushBack (start, stop)).getD acc).blocks = acc.blocks + (stop - start) := by
        rw [RangeSet.blocks, hx]
        simp
      have := ih h (by omega)
      omega

theorem blockCount_lt_sizeMax {size blksize : ℕ} (h : ¬2 ^ 32 - 1 < (size - 1) / blksize + 1) :
    RangeSet.empty.blocks + ((size - 1) / blksize + 1) < sizeMax := by
  rw [RangeSet.empty_blocks, sizeMax]
  omega

theorem scanPair_lt {bits bits' a b : ℕ} {line : Text}
    (h : scanPair bits bits' line = some (a, b)) : a < 2 ^ bits ∧ b < 2 ^ bits' := by
  unfold scanPair at h
  split at h
  · cases h
  · next ha =>
    split at h
    · cases h
    · next hb =>
      simp only [Option.some.injEq, Prod.mk.injEq] at h
      rw [← h.1, ← h.2]
      exact ⟨scanUnsigned_lt ha, scanUnsigned_lt hb⟩

/-- `ParseBlockMapFile`, `none` where the result is false as a `bool`. -/
def parseBlockMapFile (content : Text) : Option BlockMapData :=
  match (trim content).splitOn '\n' with
  | blockDev :: sizes :: count :: rangeLines =>
    if rangeLines = [] then none
    else
      match hs : scanPair 64 32 sizes with
      | none => none
      | some (fileSize, blksize) =>
        if hz : fileSize = 0 ∨ blksize = 0 then none
        else
          match scanUnsigned 64 (cString count) with
          | none => none
          | some (rangeCount, _) =>
            let blocks := (fileSize - 1) / blksize + 1
            if hn : 2 ^ 32 - 1 < blocks ∨ rangeCount = 0 ∨
                3 + rangeLines.length ≠ u64 (3 + rangeCount) then none
            else
              match hr : parseRangeLines rangeLines blocks RangeSet.empty with
              | some (ranges, 0) =>
                if hp : blockDev = [] then none
                else some {
                  path := blockDev
                  fileSize := fileSize
                  blockSize := blksize
                  blockRanges := ranges
                  path_ne := hp
                  fileSize_pos := Nat.pos_of_ne_zero fun h => hz (.inl h)
                  fileSize_lt := (scanPair_lt hs).1
                  blockSize_pos := Nat.pos_of_ne_zero fun h => hz (.inr h)
                  blockSize_lt := (scanPair_lt hs).2
                  covers := by
                    have := parseRangeLines_blocks hr
                      (blockCount_lt_sizeMax fun h => hn (.inl h))
                    rwa [RangeSet.empty_blocks, Nat.zero_add, Nat.add_zero] at this }
              | _ => none
  | _ => none

theorem no_nul_decimal (n : ℕ) : '\x00' ∉ decimal n := fun h =>
  absurd (isDigit_of_mem_decimal h) (by decide)

theorem scanUnsigned_line (bits n : ℕ) (hn : n < 2 ^ 64) :
    scanUnsigned bits (cString (decimal n)) = some (n % 2 ^ bits, []) := by
  rw [cString_of_no_nul (no_nul_decimal n)]
  have := scanUnsigned_decimal bits n [] [] hn (by simp) (by simp)
  simpa using this

/-- What two numbers printed on a line are read back as. -/
theorem scanPair_decimal (bits bits' a b : ℕ) (ha : a < 2 ^ 64) (hb : b < 2 ^ 64) :
    scanPair bits bits' (decimal a ++ ' ' :: decimal b) = some (a % 2 ^ bits, b % 2 ^ bits') := by
  have hnul : '\x00' ∉ decimal a ++ ' ' :: decimal b := by
    simp [no_nul_decimal]
  have hfirst := scanUnsigned_decimal bits a [] (' ' :: decimal b) ha (by simp) (by simp)
  have hsecond := scanUnsigned_decimal bits' b [' '] [] hb (by simp [isSpace]) (by simp)
  rw [List.append_nil, List.singleton_append] at hsecond
  rw [List.nil_append] at hfirst
  simp only [scanPair, cString_of_no_nul hnul, hfirst, hsecond]

def rangeLine (r : Range) : Text := decimal r.1 ++ ' ' :: decimal r.2

/-- Printed ranges are read back, as long as they list the blocks that are missing. -/
theorem parseRangeLines_rangeLine {rs : List Range} {remaining : ℕ} {acc : RangeSet}
    (hproper : ∀ r ∈ rs, r.1 < r.2) (hlt : ∀ r ∈ rs, r.2 < 2 ^ 64)
    (hlen : (expandRanges rs).length = remaining) (hb : acc.blocks + remaining < sizeMax) :
    ∃ ranges, parseRangeLines (rs.map rangeLine) remaining acc = some (ranges, 0) ∧
      ranges.expand = acc.expand ++ expandRanges rs := by
  induction rs generalizing remaining acc with
  | nil => exact ⟨acc, by simp [parseRangeLines, ← hlen], by simp⟩
  | cons r rs ih =>
    obtain ⟨start, stop⟩ := r
    have hr : start < stop := hproper _ List.mem_cons_self
    have hstop : stop < 2 ^ 64 := hlt _ List.mem_cons_self
    simp only [expandRanges_cons, List.length_append, List.length_range'] at hlen
    have hx := pushBack_getD_expand acc (start, stop) hr (by simp only; omega)
    have hblocks :
        ((acc.pushBack (start, stop)).getD acc).blocks = acc.blocks + (stop - start) := by
      rw [RangeSet.blocks, hx]
      simp
    obtain ⟨ranges, hparse, hexpand⟩ := ih
      (fun q hq => hproper q (List.mem_cons_of_mem _ hq))
      (fun q hq => hlt q (List.mem_cons_of_mem _ hq)) (show _ = remaining - (stop - start) by omega)
      (show ((acc.pushBack (start, stop)).getD acc).blocks + _ < sizeMax by omega)
    refine ⟨ranges, ?_, by rw [hexpand, hx, expandRanges_cons, List.append_assoc]⟩
    have hscan : scanPair 64 64 (rangeLine (start, stop)) = some (start, stop) := by
      rw [rangeLine, scanPair_decimal _ _ _ _ (by simp only; omega) hstop,
        Nat.mod_eq_of_lt (by simp only; omega), Nat.mod_eq_of_lt hstop]
    rw [List.map_cons, parseRangeLines, hscan]
    simp only
    rw [if_neg (by omega)]
    exact hparse

section Parse
variable {content blockDev sizes count rest : Text} {rangeLines : List Text}
  {fileSize blksize rangeCount : ℕ}

theorem parseBlockMapFile_eq_some {ranges : RangeSet}
    (hl : (trim content).splitOn '\n' = blockDev :: sizes :: count :: rangeLines)
    (hne : rangeLines ≠ []) (hs : scanPair 64 32 sizes = some (fileSize, blksize))
    (hz : ¬(fileSize = 0 ∨ blksize = 0))
    (hc : scanUnsigned 64 (cString count) = some (rangeCount, rest))
    (hn : ¬(2 ^ 32 - 1 < (fileSize - 1) / blksize + 1 ∨ rangeCount = 0 ∨
      3 + rangeLines.length ≠ u64 (3 + rangeCount)))
    (hr : parseRangeLines rangeLines ((fileSize - 1) / blksize + 1) RangeSet.empty =
      some (ranges, 0)) (hp : blockDev ≠ []) :
    ∃ m, parseBlockMapFile content = some m ∧ m.path = blockDev ∧ m.fileSize = fileSize ∧
      m.blockSize = blksize ∧ m.blockRanges = ranges := by
  unfold parseBlockMapFile
  rw [hl]
  simp only [if_neg hne]
  split
  · next he => rw [hs] at he; cases he
  · next he =>
    rw [hs] at he
    cases he
    rw [dif_neg hz]
    simp only [hc]
    rw [dif_neg hn]
    split
    · next he =>
      rw [hr] at he
      cases he
      rw [dif_neg hp]
      exact ⟨_, rfl, rfl, rfl, rfl, rfl⟩
    · next hno => exact absurd hr (hno ranges)

theorem parseBlockMapFile_eq_none
    (hl : (trim content).splitOn '\n' = blockDev :: sizes :: count :: rangeLines)
    (hc : scanUnsigned 64 (cString count) = some (rangeCount, rest))
    (hn : 3 + rangeLines.length ≠ u64 (3 + rangeCount)) : parseBlockMapFile content = none := by
  unfold parseBlockMapFile
  rw [hl]
  by_cases hne : rangeLines = []
  · simp only [if_pos hne]
  simp only [if_neg hne]
  split
  · rfl
  · next fileSize blksize _ =>
    by_cases hz : fileSize = 0 ∨ blksize = 0
    · rw [dif_pos hz]
    · rw [dif_neg hz]
      simp only [hc]
      rw [dif_pos (.inr (.inr hn))]

end Parse

/-- The mappings `MapBlockFile` lays one after the other in the reserved space. -/
def mapRanges (dev : BlockDevice) (blksize : ℕ) : List Range → Option Bytes
  | [] => some []
  | (start, stop) :: rs =>
    if stop * blksize ≤ dev.size then
      match mapRanges dev blksize rs with
      | none => none
      | some rest => some (window dev.byte (start * blksize) ((stop - start) * blksize) ++ rest)
    else none

/-- `MapBlockFile`: `addr` holds the mapped ranges, of which `length` bytes are the file. -/
def mapBlockFile (dev : BlockDevice) (m : BlockMapData) : Option Bytes :=
  match mapRanges dev m.blockSize m.blockRanges.ranges with
  | none => none
  | some addr =>
    if addr.length = ((m.fileSize - 1) / m.blockSize + 1) * m.blockSize then
      some (addr.take m.fileSize)
    else none

theorem mapRanges_eq (dev : BlockDevice) (n : ℕ) (rs : List Range) (hp : ∀ r ∈ rs, r.1 < r.2)
    (h : ∀ r ∈ rs, r.2 * n ≤ dev.size) :
    mapRanges dev n rs = some ((expandRanges rs).flatMap (dev.block n)) := by
  induction rs with
  | nil => rfl
  | cons r rs ih =>
    obtain ⟨b, e⟩ := r
    have hbe : b < e := hp (b, e) (by simp)
    rw [mapRanges, if_pos (h (b, e) (by simp)),
      ih (fun q hq => hp q (List.mem_cons_of_mem _ hq))
        (fun q hq => h q (List.mem_cons_of_mem _ hq)),
      expandRanges_cons, List.flatMap_append]
    simp only [Option.some.injEq]
    rw [window_blocks dev.byte n b (e - b)]
    rfl

theorem le_of_mapRanges {dev : BlockDevice} {n : ℕ} {rs : List Range} {a : Bytes}
    (h : mapRanges dev n rs = some a) : ∀ r ∈ rs, r.2 * n ≤ dev.size := by
  induction rs generalizing a with
  | nil => simp
  | cons r rs ih =>
    obtain ⟨b, e⟩ := r
    simp only [mapRanges] at h
    split_ifs at h with he
    split at h
    · cases h
    · next rest hrest =>
      intro q hq
      rcases List.mem_cons.mp hq with rfl | hq
      · exact he
      · exact ih hrest q hq

theorem fileSize_le_blocks (m : BlockMapData) :
    m.fileSize ≤ m.blockRanges.blocks * m.blockSize := by
  have hpos := m.blockSize_pos
  have hdiv := Nat.div_add_mod (m.fileSize - 1) m.blockSize
  have hmod := Nat.mod_lt (m.fileSize - 1) hpos
  rw [m.covers, Nat.succ_mul, Nat.mul_comm]
  omega

/-- The mapped file is the listed blocks, in range order, cut to the file size. -/
theorem mapBlockFile_eq (dev : BlockDevice) (m : BlockMapData)
    (h : ∀ r ∈ m.blockRanges.ranges, r.2 * m.blockSize ≤ dev.size) :
    mapBlockFile dev m =
      some ((m.blockRanges.expand.flatMap (dev.block m.blockSize)).take m.fileSize) := by
  have hlen := flatMap_length_uniform (l := m.blockRanges.expand)
    fun b _ => dev.block_length m.blockSize b
  rw [RangeSet.expand_length, m.covers] at hlen
  rw [mapBlockFile, mapRanges_eq dev m.blockSize _ m.blockRanges.proper h]
  exact if_pos hlen

theorem le_of_mapBlockFile {dev : BlockDevice} {m : BlockMapData} {f : Bytes}
    (h : mapBlockFile dev m = some f) :
    ∀ r ∈ m.blockRanges.ranges, r.2 * m.blockSize ≤ dev.size := by
  unfold mapBlockFile at h
  split at h
  · cases h
  · next a ha => exact le_of_mapRanges ha

end BootableRecovery.Otautil
