import BootableRecovery.Uncrypt.Uncrypt

namespace BootableRecovery.Uncrypt
open Lib Otautil

/-- The blocks of the package file, the short last one included. -/
def Package.fileBlocks (p : Package) : ℕ := (p.size - 1) / p.blksize + 1

/-- What uncrypt is given when it is called as it should be: the ioctl answers `fib`, an `int`
below INT_MAX, for every block number, block numbers are `int`s themselves, `blkDev` is a field
of the fstab, and nothing else fails. -/
structure Mapped (p : Package) (fib : ℕ → ℕ) : Prop where
  blkDev_ne : p.blkDev ≠ []
  blkDev_field : ∀ c ∈ p.blkDev, isSpace c = false ∧ c ≠ '\x00'
  fibmap : ∀ i, p.fibmap i = some (fib i)
  fib_pos : ∀ i, 0 < fib i
  fib_lt : ∀ i, fib i < 2 ^ 31 - 1
  readable : ∀ off, p.readable off = true
  writable : ∀ off, p.writable off = true
  size_pos : 0 < p.size
  size_lt : p.size + p.blksize < 2 ^ 63
  fileBlocks_lt : p.fileBlocks < 2 ^ 31

theorem Package.lt_fileBlocks_iff (p : Package) (h : 0 < p.size) (b : ℕ) :
    b < p.fileBlocks ↔ b * p.blksize < p.size := by
  rw [Package.fileBlocks, Nat.lt_succ_iff, Nat.le_div_iff_mul_le p.blksize_pos]
  omega

/-- The bytes of block `b` that are in the file. -/
def Package.blockLen (p : Package) (b : ℕ) : ℕ := min p.blksize (p.size - b * p.blksize)

/-- A buffer of one block that starts with the content of block `b`. -/
structure IsBlock (p : Package) (b : ℕ) (data : Bytes) : Prop where
  length : data.length = p.blksize
  content : data.take (p.blockLen b) = window p.byte (b * p.blksize) (p.blockLen b)

/-- Blocks 0 to `n - 1` of the file, each written once and to its own place. -/
structure Written (p : Package) (fib : ℕ → ℕ) (n : ℕ) (written : List (ℕ × Bytes)) : Prop where
  length : written.length = n
  block : ∀ i w, written[i]? = some w → w.1 = p.blksize * fib i ∧ IsBlock p i w.2

/-- A vector of starts and ends that lists `blocks` in ranges as long as can be. -/
structure Ranges (ranges : List ℕ) (blocks : List ℕ) : Prop where
  pairs : ∃ rs : List Range, ranges = rs.flatMap (fun r => [r.1, r.2]) ∧
    expandRanges rs = blocks ∧ (∀ r ∈ rs, r.1 < r.2) ∧
    rs.IsChain fun r r' => r.2 ≠ r'.1

theorem ranges_nil : Ranges [] [] := ⟨[], rfl, rfl, by simp, .nil⟩

theorem getLast?_pairs (rs : List Range) (r : Range) :
    ((rs ++ [r]).flatMap fun r => [r.1, r.2]).getLast? = some r.2 := by
  simp

/-- A block right after the last range extends it, any other one starts a new range. -/
theorem Ranges.add {ranges blocks : List ℕ} (h : Ranges ranges blocks) (b : ℕ) :
    Ranges (addBlockToRanges ranges b) (blocks ++ [b]) := by
  obtain ⟨rs, rfl, rfl, hproper, hchain⟩ := h
  rcases List.eq_nil_or_concat rs with rfl | ⟨rs, r, rfl⟩
  · refine ⟨[(b, b + 1)], rfl, ?_, by simp, .singleton _⟩
    simp
  · rw [List.concat_eq_append] at hproper hchain ⊢
    unfold addBlockToRanges
    rw [getLast?_pairs]
    have hr : r.1 < r.2 := hproper r (by simp)
    split_ifs with hb
    · have hb : r.2 = b := Option.some.inj hb
      subst hb
      refine ⟨rs ++ [(r.1, r.2 + 1)], by simp, ?_, ?_, ?_⟩
      · rw [expandRanges_append, expandRanges_append, expandRanges_cons, expandRanges_cons,
          expandRanges_nil, List.append_nil, List.append_nil, List.append_assoc,
          show r.2 + 1 - r.1 = r.2 - r.1 + 1 by omega, List.range'_concat]
        congr 3
        omega
      · intro q hq
        rcases List.mem_append.mp hq with hq | hq
        · exact hproper q (List.mem_append_left _ hq)
        · rw [List.mem_singleton.mp hq]
          simp only
          omega
      · rw [List.isChain_append] at hchain ⊢
        exact ⟨hchain.1, .singleton _, by simpa using hchain.2.2⟩
    · refine ⟨rs ++ [r] ++ [(b, b + 1)], by simp, ?_, ?_, ?_⟩
      · rw [expandRanges_append (rs ++ [r])]
        simp
      · intro q hq
        rcases List.mem_append.mp hq with hq | hq
        · exact hproper q hq
        · rw [List.mem_singleton.mp hq]
          exact Nat.lt_succ_self _
      · rw [List.isChain_append]
        refine ⟨hchain, .singleton _, ?_⟩
        simpa using hb

theorem ranges_foldl (blocks : List ℕ) : Ranges (blocks.foldl addBlockToRanges []) blocks := by
  induction blocks using List.reverseRecOn with
  | nil => exact ranges_nil
  | append_singleton blocks b ih =>
    rw [List.foldl_append, List.foldl_cons, List.foldl_nil]
    exact ih.add b

/-- The ranges of the first `n` blocks of the file. -/
def rangesOf (fib : ℕ → ℕ) (n : ℕ) : List ℕ :=
  ((List.range n).map fib).foldl addBlockToRanges []

section Loop
variable {p : Package} {fib : ℕ → ℕ} {st : State}

/-- The blocks read so far. -/
def State.nextBlock (st : State) : ℕ := st.headBlock + used st.head st.tail

/-- Blocks before `head_block` are done, those up to `nextBlock` wait in the ring. -/
structure Inv (p : Package) (fib : ℕ → ℕ) (st : State) : Prop where
  ranges : st.ranges = rangesOf fib st.headBlock
  nextBlock_le : st.nextBlock ≤ p.fileBlocks
  pos : st.pos = if p.encrypted then min (st.nextBlock * p.blksize) p.size
    else st.nextBlock * p.blksize
  buffers : ∀ i, (st.buffers i).length = p.blksize
  queued : p.encrypted = true → ∀ i data, (contents st.buffers st.head st.tail)[i]? = some data →
    IsBlock p (st.headBlock + i) data
  written : if p.encrypted then Written p fib st.headBlock st.written else st.written = []

theorem inv_start : Inv p fib (startState p) where
  ranges := rfl
  nextBlock_le := by simp [State.nextBlock, startState, used_self]
  pos := by simp [State.nextBlock, startState, used_self]
  buffers := by simp [startState]
  queued := by simp [startState, contents_self]
  written := by
    split_ifs
    · exact ⟨rfl, by simp [startState]⟩
    · rfl

/-- More is to be read exactly while blocks are missing. -/
theorem Inv.pos_lt_iff (hi : Inv p fib st) (h : Mapped p fib) :
    st.pos < p.size ↔ st.nextBlock < p.fileBlocks := by
  rw [p.lt_fileBlocks_iff h.size_pos, hi.pos]
  split_ifs
  · omega
  · rfl

theorem findBlock_eq (h : Mapped p fib) (i : ℕ) : findBlock p i = .ok (fib i) := by
  unfold findBlock
  obtain ⟨b, hb⟩ := Nat.exists_eq_succ_of_ne_zero (h.fib_pos i).ne'
  simp only [h.fibmap, hb]

theorem Inv.writeOutHead (hi : Inv p fib st) (h : Mapped p fib) (hne : st.head ≠ st.tail) :
    ∃ st', writeOutHead p st = .ok st' ∧ Inv p fib st' ∧ st'.nextBlock = st.nextBlock := by
  have hnext : st.headBlock + 1 + used (st.head + 1) st.tail = st.nextBlock := by
    rw [State.nextBlock, used_pop hne]
    omega
  have hpop := contents_pop st.buffers hne
  have hw : Uncrypt.writeOutHead p st = .ok { st with
      ranges := addBlockToRanges st.ranges (fib st.headBlock)
      written := if p.encrypted then
        st.written ++ [(p.blksize * fib st.headBlock, st.buffers st.head)] else st.written
      head := st.head + 1
      headBlock := st.headBlock + 1 } := by
    rw [Uncrypt.writeOutHead, findBlock_eq h]
    simp only [h.writable, Bool.true_eq_false, and_false, if_false]
  refine ⟨_, hw, ?_, hnext⟩
  constructor
  · simp only [hi.ranges, rangesOf, List.range_succ, List.map_append, List.foldl_append,
      List.map_cons, List.map_nil, List.foldl_cons, List.foldl_nil]
  · rw [State.nextBlock]
    simp only
    rw [hnext]
    exact hi.nextBlock_le
  · rw [State.nextBlock]
    simp only
    rw [hnext]
    exact hi.pos
  · exact hi.buffers
  · intro henc i data hd
    have := hi.queued henc (i + 1) data (by rw [hpop]; exact hd)
    rwa [show st.headBlock + 1 + i = st.headBlock + (i + 1) by omega]
  · have hw := hi.written
    simp only
    split_ifs at hw ⊢ with henc
    · obtain ⟨hlen, hblock⟩ := hw
      refine ⟨by simp [hlen], ?_⟩
      intro i w hwi
      rcases lt_trichotomy i st.headBlock with hlt | rfl | hgt
      · rw [List.getElem?_append_left (by omega)] at hwi
        exact hblock i w hwi
      · rw [List.getElem?_append_right (by omega), hlen, Nat.sub_self] at hwi
        cases hwi
        exact ⟨rfl, hi.queued henc 0 _ (by rw [hpop]; rfl)⟩
      · rw [List.getElem?_eq_none (by simp; omega)] at hwi
        cases hwi
    · exact hw

theorem Inv.readToTail (hi : Inv p fib st) (h : Mapped p fib) (hpos : st.pos < p.size)
    (hroom : st.tail + 1 ≠ st.head) :
    ∃ st', readToTail p st = .ok st' ∧ Inv p fib st' ∧ st'.nextBlock = st.nextBlock + 1 := by
  have hmore := (hi.pos_lt_iff h).mp hpos
  have hnext : st.headBlock + used st.head (st.tail + 1) = st.nextBlock + 1 := by
    rw [used_push hroom, State.nextBlock]
    omega
  have hmul : (st.nextBlock + 1) * p.blksize = st.nextBlock * p.blksize + p.blksize := by ring
  by_cases henc : p.encrypted = true
  · have hat : st.pos = st.nextBlock * p.blksize := by
      have := hi.pos
      rw [if_pos henc] at this
      omega
    have hr : Uncrypt.readToTail p st = .ok { st with
        buffers := Function.update st.buffers st.tail
          (window p.byte st.pos (min p.blksize (p.size - st.pos)) ++
            (st.buffers st.tail).drop (min p.blksize (p.size - st.pos)))
        pos := st.pos + min p.blksize (p.size - st.pos)
        tail := st.tail + 1 } := by
      rw [Uncrypt.readToTail, if_pos henc]
      simp only [h.readable, Bool.true_eq_false, if_false]
    refine ⟨_, hr, ?_, hnext⟩
    constructor
    · exact hi.ranges
    · rw [State.nextBlock]
      simp only
      omega
    · rw [State.nextBlock, if_pos henc]
      simp only
      rw [hnext, hmul]
      omega
    · intro i
      simp only
      by_cases he : i = st.tail
      · subst he
        have := hi.buffers st.tail
        rw [Function.update_self]
        simp
        omega
      · rw [Function.update_of_ne he]
        exact hi.buffers i
    · intro _ i data hd
      simp only at hd ⊢
      rw [contents_push _ _ hroom] at hd
      rcases lt_trichotomy i (used st.head st.tail) with hlt | rfl | hgt
      · rw [List.getElem?_append_left (by simpa using hlt)] at hd
        exact hi.queued henc i data hd
      · rw [List.getElem?_append_right (by simp), contents_length, Nat.sub_self] at hd
        cases hd
        have := hi.buffers st.tail
        have hlen : p.blockLen st.nextBlock = min p.blksize (p.size - st.pos) := by
          rw [Package.blockLen, hat]
        change IsBlock p st.nextBlock _
        refine ⟨by simp; omega, ?_⟩
        rw [hlen, ← hat, List.take_append_of_le_length (by simp), List.take_of_length_le (by simp)]
      · rw [List.getElem?_eq_none (by simp; omega)] at hd
        cases hd
    · exact hi.written
  · have hr : Uncrypt.readToTail p st =
        .ok { st with pos := st.pos + p.blksize, tail := st.tail + 1 } := by
      rw [Uncrypt.readToTail, if_neg henc]
    refine ⟨_, hr, ?_, hnext⟩
    constructor
    · exact hi.ranges
    · rw [State.nextBlock]
      simp only
      omega
    · rw [State.nextBlock, if_neg henc]
      simp only
      rw [hnext, hmul, hi.pos, if_neg henc]
    · exact hi.buffers
    · exact fun he => absurd he henc
    · exact hi.written

theorem next_ne_head (i : Fin windowSize) : i + 1 ≠ i := by
  revert i
  decide

theorem Inv.makeRoom (hi : Inv p fib st) (h : Mapped p fib) :
    ∃ st', makeRoom p st = .ok st' ∧ Inv p fib st' ∧ st'.nextBlock = st.nextBlock ∧
      st'.tail + 1 ≠ st'.head := by
  unfold Uncrypt.makeRoom
  split_ifs with hfull
  · obtain ⟨st', hw, hi', hn⟩ := hi.writeOutHead h fun he => next_ne_head st.tail (he ▸ hfull)
    obtain ⟨-, hh, ht⟩ := writeOutHead_ok hw
    refine ⟨st', hw, hi', hn, ?_⟩
    rw [hh, ht, hfull]
    exact fun he => next_ne_head _ he.symm
  · exact ⟨st, rfl, hi, rfl, hfull⟩

/-- The main loop ends with every block of the file read. -/
theorem Inv.mainLoop (hi : Inv p fib st) (h : Mapped p fib) :
    ∃ st', mainLoop p st = .ok st' ∧ Inv p fib st' ∧ st'.nextBlock = p.fileBlocks := by
  induction hk : p.fileBlocks - st.nextBlock generalizing st with
  | zero =>
    have hle := hi.nextBlock_le
    have hpos : ¬st.pos < p.size := by
      rw [hi.pos_lt_iff h]
      omega
    exact ⟨st, by rw [Uncrypt.mainLoop, dif_neg hpos], hi, by omega⟩
  | succ k ih =>
    have hpos : st.pos < p.size := (hi.pos_lt_iff h).mpr (by omega)
    obtain ⟨st1, hm, hi1, hn1, hroom⟩ := hi.makeRoom h
    obtain ⟨st2, hr, hi2, hn2⟩ := hi1.readToTail h (by rwa [makeRoom_pos hm]) hroom
    obtain ⟨st', hrest, hi', hn'⟩ := ih hi2 (by omega)
    refine ⟨st', ?_, hi', hn'⟩
    rw [Uncrypt.mainLoop, dif_pos hpos]
    split
    · next he => rw [hm] at he; cases he
    · next _ he =>
      rw [hm] at he
      cases he
      split
      · next he => rw [hr] at he; cases he
      · next _ he =>
        rw [hr] at he
        cases he
        exact hrest

/-- The draining loop ends with every block that was read written out. -/
theorem Inv.drainLoop (hi : Inv p fib st) (h : Mapped p fib) :
    ∃ st', drainLoop p st = .ok st' ∧ Inv p fib st' ∧ st'.headBlock = st.nextBlock := by
  induction hk : used st.head st.tail generalizing st with
  | zero =>
    have he : ¬st.head ≠ st.tail := not_not.mpr (used_eq_zero.mp hk)
    exact ⟨st, by rw [Uncrypt.drainLoop, dif_neg he], hi, by rw [State.nextBlock, hk]; rfl⟩
  | succ k ih =>
    have hne : st.head ≠ st.tail := fun he => by
      rw [used_eq_zero.mpr he] at hk
      cases hk
    obtain ⟨st1, hw, hi1, hn1⟩ := hi.writeOutHead h hne
    obtain ⟨-, hh, ht⟩ := writeOutHead_ok hw
    obtain ⟨st', hrest, hi', hn'⟩ := ih hi1 (by rw [hh, ht]; rw [used_pop hne] at hk; omega)
    refine ⟨st', ?_, hi', hn'.trans hn1⟩
    rw [Uncrypt.drainLoop, dif_pos hne]
    split
    · next he => rw [hw] at he; cases he
    · next _ he =>
      rw [hw] at he
      cases he
      exact hrest

end Loop
end BootableRecovery.Uncrypt
