import BootableRecovery.Uncrypt.CopyLoop

namespace BootableRecovery.Uncrypt
open Lib Otautil

variable {p : Package} {fib : ℕ → ℕ}

/-- The text of the block map. -/
def mapText (p : Package) (fib : ℕ → ℕ) : Text := blockMapText p (rangesOf fib p.fileBlocks)

def mapLines (p : Package) (rs : List Range) : List Text :=
  p.blkDev :: (decimal p.size ++ ' ' :: decimal p.blksize) :: decimal rs.length :: rs.map rangeLine

theorem rangeText_pairs (rs : List Range) :
    rangeText (rs.flatMap fun r => [r.1, r.2]) =
      (rs.map rangeLine).flatMap fun l => l ++ ['\n'] := by
  induction rs with
  | nil => rfl
  | cons r rs ih =>
    rw [List.flatMap_cons, List.map_cons, List.flatMap_cons, ← ih, rangeLine]
    simp [rangeText]

/-- The ranges as pairs. -/
theorem mapText_eq (h : Mapped p fib) :
    ∃ rs : List Range, mapText p fib = (mapLines p rs).flatMap (fun l => l ++ ['\n']) ∧
      expandRanges rs = (List.range p.fileBlocks).map fib ∧ ∀ r ∈ rs, r.1 < r.2 := by
  obtain ⟨rs, hrs, hexpand, hproper, -⟩ := ranges_foldl ((List.range p.fileBlocks).map fib)
  refine ⟨rs, ?_, hexpand, hproper⟩
  have hlen : (rs.flatMap fun r => [r.1, r.2]).length / 2 = rs.length := by
    rw [flatMap_length_uniform (n := 2) fun _ _ => rfl]
    omega
  have hnul : cString p.blkDev = p.blkDev :=
    cString_of_no_nul fun hc => (h.blkDev_field _ hc).2 rfl
  rw [mapText, rangesOf, hrs, blockMapText, headerText, hlen, rangeText_pairs, hnul, mapLines]
  simp

theorem mapLines_no_newline (h : Mapped p fib) (rs : List Range) :
    ∀ l ∈ mapLines p rs, '\n' ∉ l := by
  intro l hl
  simp only [mapLines, List.mem_cons, List.mem_map] at hl
  rcases hl with rfl | rfl | rfl | ⟨r, -, rfl⟩
  · intro hc
    exact absurd (h.blkDev_field _ hc).1 (by decide)
  · simp [newline_not_mem_decimal]
  · exact newline_not_mem_decimal _
  · simp [rangeLine, newline_not_mem_decimal]

/-- The text starts with a device path, so it has nothing to trim there. -/
theorem dropWhile_mapText (h : Mapped p fib) (rest : Text) :
    (mapText p fib ++ rest).dropWhile isSpace = mapText p fib ++ rest := by
  obtain ⟨rs, hrs, -⟩ := mapText_eq h
  obtain ⟨c, cs, hc⟩ := List.exists_cons_of_ne_nil h.blkDev_ne
  have hspace := (h.blkDev_field c (by simp [hc])).1
  rw [hrs, mapLines, List.flatMap_cons, hc]
  simp [List.dropWhile_cons_of_neg, hspace]

theorem trimRight_rangeLine (pre : Text) (r : Range) :
    trimRight (pre ++ rangeLine r) = pre ++ rangeLine r := by
  rcases List.eq_nil_or_concat (decimal r.2) with hd | ⟨ds, d, hd⟩
  · exact absurd hd (decimal_ne_nil _)
  · rw [List.concat_eq_append] at hd
    have hdig : d.isDigit = true := isDigit_of_mem_decimal (n := r.2) (by simp [hd])
    have he : pre ++ rangeLine r = (pre ++ (decimal r.1 ++ ' ' :: ds)) ++ [d] := by
      rw [rangeLine, hd]
      simp
    rw [he, trimRight_concat _ _ (isSpace_of_isDigit hdig)]

/-- A tail of blanks is trimmed away. -/
theorem lines_of_blank (h : Mapped p fib) {rs : List Range}
    (hrs : mapText p fib = (mapLines p rs).flatMap fun l => l ++ ['\n']) (hne : rs ≠ [])
    {tail : Text} (hb : ∀ c ∈ tail, isSpace c = true) :
    (trim (mapText p fib ++ tail)).splitOn '\n' = mapLines p rs := by
  have hl := mapLines_no_newline h rs
  obtain ⟨rs', r, rfl⟩ : ∃ rs' r, rs = rs' ++ [r] := by
    rcases List.eq_nil_or_concat rs with he | ⟨rs', r, he⟩
    · exact absurd he hne
    · exact ⟨rs', r, by rw [he, List.concat_eq_append]⟩
  have hsplit : mapLines p (rs' ++ [r]) =
      (p.blkDev :: (decimal p.size ++ ' ' :: decimal p.blksize) ::
        decimal (rs' ++ [r]).length :: rs'.map rangeLine) ++ [rangeLine r] := by
    simp [mapLines]
  rw [trim, dropWhile_mapText h, trimRight_append_of_space _ _ hb, hrs]
  rw [hsplit] at hl ⊢
  rw [List.flatMap_append, List.flatMap_singleton, ← List.append_assoc,
    trimRight_append_of_space _ _ (by simp [isSpace]), trimRight_rangeLine,
    splitOn_lines _ _ fun l hmem => hl l (List.mem_append_left _ hmem),
    List.splitOn_eq_singleton (hl _ (List.mem_append_right _ List.mem_cons_self))]

/-- Anything else adds lines. -/
theorem lines_of_not_blank (h : Mapped p fib) {rs : List Range}
    (hrs : mapText p fib = (mapLines p rs).flatMap fun l => l ++ ['\n'])
    {tail : Text} (hb : ¬∀ c ∈ tail, isSpace c = true) :
    ∃ extra, extra ≠ [] ∧ (trim (mapText p fib ++ tail)).splitOn '\n' = mapLines p rs ++ extra := by
  refine ⟨(trimRight tail).splitOn '\n', List.splitOn_ne_nil _ _, ?_⟩
  rw [trim, dropWhile_mapText h, (trimRight_append_of_not_space _ _ hb).1, hrs,
    splitOn_lines _ _ (mapLines_no_newline h rs)]

/-- The block map that recovery reads names the device, the sizes and the blocks of the file. -/
def ReadsBack (p : Package) (fib : ℕ → ℕ) (mapFile : Text) : Prop :=
  ∃ m, parseBlockMapFile mapFile = some m ∧ m.path = p.blkDev ∧ m.fileSize = p.size ∧
    m.blockSize = p.blksize ∧ m.blockRanges.expand = (List.range p.fileBlocks).map fib

theorem length_le_expandRanges {rs : List Range} (h : ∀ r ∈ rs, r.1 < r.2) :
    rs.length ≤ (expandRanges rs).length := by
  induction rs with
  | nil => simp
  | cons r rs ih =>
    have hr := h r List.mem_cons_self
    have := ih fun q hq => h q (List.mem_cons_of_mem _ hq)
    simp only [expandRanges_cons, List.length_append, List.length_range', List.length_cons]
    omega

theorem lt_of_expandRanges {rs : List Range} (h : ∀ r ∈ rs, r.1 < r.2) {b : ℕ}
    (hb : ∀ x ∈ expandRanges rs, x < b) : ∀ r ∈ rs, r.2 ≤ b := by
  intro r hr
  have hlt := h r hr
  have := hb (r.2 - 1) (RangeSet.mem_expandRanges.mpr ⟨r, hr, by omega, by omega⟩)
  omega

theorem readsBack_of_lines (h : Mapped p fib) (hblk : p.blksize < 2 ^ 32) {rs : List Range}
    (hexpand : expandRanges rs = (List.range p.fileBlocks).map fib) (hproper : ∀ r ∈ rs, r.1 < r.2)
    {mapFile : Text} (hl : (trim mapFile).splitOn '\n' = mapLines p rs) :
    ReadsBack p fib mapFile := by
  have hpos := p.blksize_pos
  have hsize := h.size_pos
  have hsize' := h.size_lt
  have hblocks := h.fileBlocks_lt
  have hlen : (expandRanges rs).length = p.fileBlocks := by simp [hexpand]
  have hcount := length_le_expandRanges hproper
  have hne : rs ≠ [] := by
    rintro rfl
    simp [Package.fileBlocks] at hlen
  have hrs := List.length_pos_of_ne_nil hne
  have hlt : ∀ r ∈ rs, r.2 < 2 ^ 64 := by
    have hb : ∀ x ∈ expandRanges rs, x < 2 ^ 31 := by
      intro x hx
      rw [hexpand] at hx
      obtain ⟨i, -, rfl⟩ := List.mem_map.mp hx
      have := h.fib_lt i
      omega
    intro r hr
    have := lt_of_expandRanges hproper hb r hr
    omega
  have hbound : RangeSet.empty.blocks + p.fileBlocks < sizeMax := by
    rw [RangeSet.empty_blocks, sizeMax]
    omega
  obtain ⟨ranges, hparse, hx⟩ := parseRangeLines_rangeLine hproper hlt hlen hbound
  have hs := scanPair_decimal 64 32 p.size p.blksize (by omega) (by omega)
  rw [Nat.mod_eq_of_lt (by omega), Nat.mod_eq_of_lt hblk] at hs
  have hc := scanUnsigned_line 64 rs.length (by omega)
  rw [Nat.mod_eq_of_lt (by omega)] at hc
  have hn : ¬(2 ^ 32 - 1 < (p.size - 1) / p.blksize + 1 ∨ rs.length = 0 ∨
      3 + (rs.map rangeLine).length ≠ u64 (3 + rs.length)) := by
    rw [List.length_map, u64_of_lt (by omega)]
    rw [Package.fileBlocks] at hblocks
    omega
  obtain ⟨m, hm, hpath, hfs, hbs, hr⟩ := parseBlockMapFile_eq_some hl (by simpa using hne) hs
    (by omega) hc hn hparse h.blkDev_ne
  exact ⟨m, hm, hpath, hfs, hbs, by rw [hr, hx, hexpand, RangeSet.empty_expand, List.nil_append]⟩

/-- The text is read back unless the old temporary file shows behind it. -/
theorem readsBack_iff (h : Mapped p fib) (stale : Text) :
    ReadsBack p fib (overwrite stale (mapText p fib)) ↔
      (∀ c ∈ stale.drop (mapText p fib).length, isSpace c = true) ∧ p.blksize < 2 ^ 32 := by
  obtain ⟨rs, hrs, hexpand, hproper⟩ := mapText_eq h
  have hlen : (expandRanges rs).length = p.fileBlocks := by simp [hexpand]
  have hcount := length_le_expandRanges hproper
  have hblocks := h.fileBlocks_lt
  constructor
  · rintro ⟨m, hm, -, -, hbs, -⟩
    refine ⟨?_, hbs ▸ m.blockSize_lt⟩
    by_contra hb
    obtain ⟨extra, hextra, hl⟩ := lines_of_not_blank h hrs hb
    have hpos := List.length_pos_of_ne_nil hextra
    have hc := scanUnsigned_line 64 rs.length (by omega)
    rw [Nat.mod_eq_of_lt (by omega)] at hc
    have hn : 3 + (rs.map rangeLine ++ extra).length ≠ u64 (3 + rs.length) := by
      rw [List.length_append, List.length_map, u64_of_lt (by omega)]
      omega
    rw [overwrite, parseBlockMapFile_eq_none hl hc hn] at hm
    cases hm
  · rintro ⟨hb, hblk⟩
    have hne : rs ≠ [] := by
      rintro rfl
      simp [Package.fileBlocks] at hlen
    exact readsBack_of_lines h hblk hexpand hproper (lines_of_blank h hrs hne hb)

theorem productBlockMap_eq (h : Mapped p fib) (stale : Text) :
    ∃ r, productBlockMap p stale = .ok r ∧ r.mapFile = overwrite stale (mapText p fib) ∧
      r.ranges = rangesOf fib p.fileBlocks ∧
      (p.encrypted = true → Written p fib p.fileBlocks r.written) := by
  have hi : Inv p fib (startState p) := inv_start
  obtain ⟨st1, hmain, hi1, hn1⟩ := hi.mainLoop h
  obtain ⟨st2, hdrain, hi2, hn2⟩ := hi1.drainLoop h
  rw [hn1] at hn2
  have hranges := hi2.ranges
  have hwritten := hi2.written
  rw [hn2] at hranges hwritten
  refine ⟨⟨overwrite stale (blockMapText p st2.ranges), st2.ranges, st2.written⟩, ?_, ?_,
    hranges, ?_⟩
  · rw [productBlockMap, hmain]
    simp only [hdrain]
  · rw [hranges, mapText]
  · intro henc
    rwa [if_pos henc] at hwritten

/-- What the product of `ProductBlockMap` should be. -/
structure Correct (p : Package) (fib : ℕ → ℕ) (r : Product) : Prop where
  ranges : Ranges r.ranges ((List.range p.fileBlocks).map fib)
  written : p.encrypted = true → Written p fib p.fileBlocks r.written
  readsBack : ReadsBack p fib r.mapFile

theorem productBlockMap_correct_iff (h : Mapped p fib) (stale : Text) :
    (∃ r, productBlockMap p stale = .ok r ∧ Correct p fib r) ↔
      (∀ c ∈ stale.drop (mapText p fib).length, isSpace c = true) ∧ p.blksize < 2 ^ 32 := by
  obtain ⟨r, hr, hmap, hranges, hwritten⟩ := productBlockMap_eq h stale
  rw [← readsBack_iff h, ← hmap]
  constructor
  · rintro ⟨r', hr', hc⟩
    cases hr.symm.trans hr'
    exact hc.readsBack
  · intro hback
    exact ⟨r, hr, hranges ▸ ranges_foldl _, hwritten, hback⟩

def sevenEight : ℕ → ℕ
  | 0 => 7
  | _ => 8

/-- A file of two blocks, next to each other on the device. -/
def twoBlocks : Package where
  blkDev := "/dev/block/sda1".toList
  size := 5000
  blksize := 4096
  blksize_pos := Nat.succ_pos _
  byte := fun _ => 7
  fibmap := fun i => some (sevenEight i)
  fsync := true
  readable := fun _ => true
  writable := fun _ => true
  encrypted := false

/-- The map of a longer file, which a run that was interrupted left in the temporary file. -/
def longerMap : Text := "/dev/block/sda1\n9000 4096\n2\n7 9\n20 21\n".toList

theorem twoBlocks_mapped : Mapped twoBlocks sevenEight where
  blkDev_ne := by decide
  blkDev_field := by
    have h : twoBlocks.blkDev.all (fun c => !isSpace c && c != '\x00') = true := by decide
    simpa using h
  fibmap := fun _ => rfl
  fib_pos := fun i => by cases i <;> simp [sevenEight]
  fib_lt := fun i => by cases i <;> simp [sevenEight]
  readable := fun _ => rfl
  writable := fun _ => rfl
  size_pos := by decide
  size_lt := by decide
  fileBlocks_lt := by decide

/-- The last line of the longer map stays behind the new text. -/
theorem twoBlocks_not_correct :
    Mapped twoBlocks sevenEight ∧
      ¬∃ r, productBlockMap twoBlocks longerMap = .ok r ∧
        Correct twoBlocks sevenEight r := by
  refine ⟨twoBlocks_mapped, ?_⟩
  rintro ⟨r, hr, hc⟩
  obtain ⟨r', hr', hmap, -⟩ := productBlockMap_eq twoBlocks_mapped longerMap
  cases hr.symm.trans hr'
  have hback := hc.readsBack
  rw [hmap, readsBack_iff twoBlocks_mapped] at hback
  exact absurd (hback.1 '2' (by decide)) (by decide)

theorem twoBlocks_correct_iff :
    (∃ r, productBlockMap twoBlocks [] = .ok r ∧ Correct twoBlocks sevenEight r) ↔
      (∀ c ∈ ([] : Text).drop (mapText twoBlocks sevenEight).length,
        isSpace c = true) ∧ twoBlocks.blksize < 2 ^ 32 :=
  productBlockMap_correct_iff twoBlocks_mapped []

example : mapText twoBlocks sevenEight =
    "/dev/block/sda1\n5000 4096\n1\n7 9\n".toList := by decide

end BootableRecovery.Uncrypt
