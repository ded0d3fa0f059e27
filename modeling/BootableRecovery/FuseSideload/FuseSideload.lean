import BootableRecovery.Otautil.BlockMap

namespace BootableRecovery.FuseSideload
open Lib Otautil

def enoent : ℤ := 2

def eio : ℤ := 5

/-- `FUSE_ROOT_ID + 1`. -/
def packageFileId : ℕ := 2

/-- `curr_block` when no block is cached: -1 as a `uint32_t`. -/
def noBlock : ℕ := 2 ^ 32 - 1

/-- The contents of a buffer, by position. -/
abbrev Buffer := ℕ → UInt8

abbrev SHA256Digest := List UInt8

/-- A source of package data with a state of its own: two calls for one block need not agree.
A call may touch the bytes it was asked to fill, whether it succeeds or not, and no others. -/
structure FuseDataProvider (σ : Type) where
  fileSize : ℕ
  fuseBlockSize : ℕ
  readBlockAlignedData : σ → Buffer → (fetchSize startBlock : ℕ) → σ × Buffer × Bool
  frame : ∀ s buf n b i, n ≤ i → (readBlockAlignedData s buf n b).2.1 i = buf i

structure FuseData (σ : Type) where
  provider : σ
  fileSize : ℕ
  blockSize : ℕ
  fileBlocks : ℕ
  currBlock : ℕ
  blockData : Buffer
  extraBlock : Buffer
  hashes : ℕ → SHA256Digest

structure ReadRequest where
  nodeid : ℕ
  offset : ℕ
  size : ℕ

def memset (buf : Buffer) (start len : ℕ) : Buffer :=
  fun i => if start ≤ i ∧ i < start + len then 0 else buf i

theorem window_memset (buf : Buffer) (n : ℕ) :
    window (memset buf 0 n) 0 n = List.replicate n 0 := by
  rw [← window_const (0 : UInt8) 0, window_eq_iff]
  intro i hi
  exact if_pos ⟨by omega, by omega⟩

variable {σ : Type} (P : FuseDataProvider σ) (sha256 : Bytes → SHA256Digest)

/-- The blocks of a file, in the 32 bits of `file_blocks`. -/
def blockCount (fileSize blockSize : ℕ) : ℕ :=
  if fileSize = 0 then 0 else (fileSize - 1) / blockSize + 1

/-- The set-up of `run_fuse_sideload`; the buffers are as `malloc` returns them. -/
def start (s : σ) (blockData extraBlock : Buffer) : Option (FuseData σ) :=
  if P.fuseBlockSize < 4096 then none
  else if P.fuseBlockSize > 2 ^ 22 then none
  else if u32 (blockCount P.fileSize P.fuseBlockSize) > 2 ^ 18 then none
  else some {
    provider := s
    fileSize := P.fileSize
    blockSize := P.fuseBlockSize
    fileBlocks := u32 (blockCount P.fileSize P.fuseBlockSize)
    currBlock := noBlock
    blockData := blockData
    extraBlock := extraBlock
    hashes := fun _ => List.replicate 32 0 }

/-- The last block of the file may be short. -/
def isShort (fd : FuseData σ) (block : ℕ) : Bool :=
  u64 (block * fd.blockSize + fd.blockSize) > fd.fileSize

def fetchSize (fd : FuseData σ) (block : ℕ) : ℕ :=
  if isShort fd block then u32 (fd.fileSize - block * fd.blockSize) else fd.blockSize

/-- The buffer the provider is given: what a short block leaves free is zeroed beforehand. -/
def padded (fd : FuseData σ) (block : ℕ) : Buffer :=
  if isShort fd block then
    memset fd.blockData (fetchSize fd block) (fd.blockSize - fetchSize fd block)
  else fd.blockData

/-- Verify the hash of the block just received: accept it, remember it, or refuse it. -/
def verifyHash (fd : FuseData σ) (block : ℕ) : ℤ × FuseData σ :=
  let hash := sha256 (window fd.blockData 0 fd.blockSize)
  if hash = fd.hashes block then (0, fd)
  else if (fd.hashes block).any (· ≠ 0) then (-eio, { fd with currBlock := noBlock })
  else (0, { fd with hashes := fun b => if b = block then hash else fd.hashes b })

def fetchBlock (fd : FuseData σ) (block : ℕ) : ℤ × FuseData σ :=
  if block = fd.currBlock then (0, fd)
  else if block ≥ fd.fileBlocks then
    (0, { fd with blockData := memset fd.blockData 0 fd.blockSize, currBlock := block })
  else
    match P.readBlockAlignedData fd.provider (padded fd block) (fetchSize fd block) block with
    | (s, data, false) => (-eio, { fd with provider := s, blockData := data })
    | (s, data, true) =>
      verifyHash sha256 { fd with provider := s, blockData := data, currBlock := block } block

/-- `uint32_t block`. -/
def blockOf (fd : FuseData σ) (req : ReadRequest) : ℕ := u32 (req.offset / fd.blockSize)

/-- `uint32_t block_offset`; the product is taken in 32 bits. -/
def blockOffset (fd : FuseData σ) (req : ReadRequest) : ℕ :=
  u32 (req.offset + 2 ^ 32 - u32 (blockOf fd req * fd.blockSize))

/-- The rest of the first block, set aside while the second one is fetched. -/
def copyToExtra (fd : FuseData σ) (off : ℕ) : FuseData σ :=
  { fd with extraBlock := fun i =>
      if i < fd.blockSize - off then fd.blockData (off + i) else fd.extraBlock i }

def handleRead (fd : FuseData σ) (req : ReadRequest) : Except ℤ Bytes × FuseData σ :=
  if req.nodeid ≠ packageFileId then (.error (-enoent), fd)
  else
    let off := blockOffset fd req
    match fetchBlock P sha256 fd (blockOf fd req) with
    | (result, fd1) =>
      if result ≠ 0 then (.error result, fd1)
      else if u32 (req.size + off) ≤ fd.blockSize then
        (.ok (window fd1.blockData off req.size), fd1)
      else
        match fetchBlock P sha256 (copyToExtra fd1 off) (u32 (blockOf fd req + 1)) with
        | (result, fd2) =>
          if result ≠ 0 then (.error result, fd2)
          else
            (.ok (window fd2.extraBlock 0 (fd.blockSize - off) ++
              window fd2.blockData 0 (req.size - (fd.blockSize - off))), fd2)

/-- The replies to a sequence of read requests. -/
def serve (fd : FuseData σ) : List ReadRequest → List (ReadRequest × Except ℤ Bytes)
  | [] => []
  | req :: reqs =>
    (req, (handleRead P sha256 fd req).1) :: serve (handleRead P sha256 fd req).2 reqs

/-- The state a sequence of read requests leaves. -/
def serveState (fd : FuseData σ) : List ReadRequest → FuseData σ
  | [] => fd
  | req :: reqs => serveState (handleRead P sha256 fd req).2 reqs

/-- The geometry of the file, as `start` fixes it. -/
structure Geometry (fd : FuseData σ) : Prop where
  fileSize : fd.fileSize = P.fileSize
  blockSize : fd.blockSize = P.fuseBlockSize
  fileBlocks : fd.fileBlocks = u32 (blockCount P.fileSize P.fuseBlockSize)
  le_blockSize : 4096 ≤ fd.blockSize
  blockSize_le : fd.blockSize ≤ 2 ^ 22
  fileBlocks_le : fd.fileBlocks ≤ 2 ^ 18

variable {P} {sha256}

theorem geometry_start {s : σ} {b e : Buffer} {fd : FuseData σ} (h : start P s b e = some fd) :
    Geometry P fd := by
  unfold start at h
  split_ifs at h with h1 h2 h3
  cases h
  exact ⟨rfl, rfl, rfl, not_lt.mp h1, not_lt.mp h2, not_lt.mp h3⟩

theorem currBlock_start {s : σ} {b e : Buffer} {fd : FuseData σ} (h : start P s b e = some fd) :
    fd.currBlock = noBlock := by
  unfold start at h
  split_ifs at h
  cases h
  rfl

section Fetch
variable {fd : FuseData σ} {block : ℕ}

theorem fetchBlock_cached (h : block = fd.currBlock) : fetchBlock P sha256 fd block = (0, fd) := by
  rw [fetchBlock, if_pos h]

theorem fetchBlock_past (hne : block ≠ fd.currBlock) (hp : fd.fileBlocks ≤ block) :
    fetchBlock P sha256 fd block =
      (0, { fd with blockData := memset fd.blockData 0 fd.blockSize, currBlock := block }) := by
  rw [fetchBlock, if_neg hne, if_pos hp]

theorem fetchBlock_failed (hne : block ≠ fd.currBlock) (hlt : block < fd.fileBlocks)
    {s : σ} {data : Buffer}
    (hr : P.readBlockAlignedData fd.provider (padded fd block) (fetchSize fd block) block =
      (s, data, false)) :
    fetchBlock P sha256 fd block = (-eio, { fd with provider := s, blockData := data }) := by
  rw [fetchBlock, if_neg hne, if_neg (not_le.mpr hlt), hr]

theorem fetchBlock_received (hne : block ≠ fd.currBlock) (hlt : block < fd.fileBlocks)
    {s : σ} {data : Buffer}
    (hr : P.readBlockAlignedData fd.provider (padded fd block) (fetchSize fd block) block =
      (s, data, true)) :
    fetchBlock P sha256 fd block =
      verifyHash sha256 { fd with provider := s, blockData := data, currBlock := block } block := by
  rw [fetchBlock, if_neg hne, if_neg (not_le.mpr hlt), hr]

/-- The first time a block is read, its hash is kept. -/
theorem verifyHash_first (hs : sha256 (window fd.blockData 0 fd.blockSize) ≠ fd.hashes block)
    (hz : (fd.hashes block).any (· ≠ 0) = false) :
    verifyHash sha256 fd block =
      (0, { fd with hashes := fun b =>
        if b = block then sha256 (window fd.blockData 0 fd.blockSize) else fd.hashes b }) := by
  rw [verifyHash, if_neg hs, if_neg (by rw [hz]; decide)]

end Fetch

/-- What one fetch can do. -/
inductive Fetched (P : FuseDataProvider σ) (sha256 : Bytes → SHA256Digest) (fd : FuseData σ)
    (block : ℕ) : ℤ → FuseData σ → Prop
  | cached : block = fd.currBlock → Fetched P sha256 fd block 0 fd
  | past : block ≠ fd.currBlock → fd.fileBlocks ≤ block →
      Fetched P sha256 fd block 0
        { fd with blockData := memset fd.blockData 0 fd.blockSize, currBlock := block }
  | failed (s : σ) (data : Buffer) : block ≠ fd.currBlock → block < fd.fileBlocks →
      P.readBlockAlignedData fd.provider (padded fd block) (fetchSize fd block) block =
        (s, data, false) →
      Fetched P sha256 fd block (-eio) { fd with provider := s, blockData := data }
  | same (s : σ) (data : Buffer) : block ≠ fd.currBlock → block < fd.fileBlocks →
      P.readBlockAlignedData fd.provider (padded fd block) (fetchSize fd block) block =
        (s, data, true) →
      sha256 (window data 0 fd.blockSize) = fd.hashes block →
      Fetched P sha256 fd block 0 { fd with provider := s, blockData := data, currBlock := block }
  | changed (s : σ) (data : Buffer) : block ≠ fd.currBlock → block < fd.fileBlocks →
      P.readBlockAlignedData fd.provider (padded fd block) (fetchSize fd block) block =
        (s, data, true) →
      sha256 (window data 0 fd.blockSize) ≠ fd.hashes block →
      (fd.hashes block).any (· ≠ 0) = true →
      Fetched P sha256 fd block (-eio)
        { fd with provider := s, blockData := data, currBlock := noBlock }
  | first (s : σ) (data : Buffer) : block ≠ fd.currBlock → block < fd.fileBlocks →
      P.readBlockAlignedData fd.provider (padded fd block) (fetchSize fd block) block =
        (s, data, true) →
      (fd.hashes block).any (· ≠ 0) = false →
      Fetched P sha256 fd block 0
        { fd with
          provider := s, blockData := data, currBlock := block
          hashes := fun b => if b = block then sha256 (window data 0 fd.blockSize)
            else fd.hashes b }

theorem fetchBlock_fetched (fd : FuseData σ) (block : ℕ) :
    Fetched P sha256 fd block (fetchBlock P sha256 fd block).1
      (fetchBlock P sha256 fd block).2 := by
  by_cases hc : block = fd.currBlock
  · rw [fetchBlock_cached hc]
    exact .cached hc
  rcases le_or_gt fd.fileBlocks block with hp | hlt
  · rw [fetchBlock_past hc hp]
    exact .past hc hp
  rcases hr : P.readBlockAlignedData fd.provider (padded fd block) (fetchSize fd block) block
    with ⟨s, data, ok⟩
  cases ok with
  | false =>
    rw [fetchBlock_failed hc hlt hr]
    exact .failed s data hc hlt hr
  | true =>
    rw [fetchBlock_received hc hlt hr, verifyHash]
    split_ifs with hs hz
    · exact .same s data hc hlt hr hs
    · exact .changed s data hc hlt hr hs hz
    · exact .first s data hc hlt hr (by simpa using hz)

theorem fetched_of_eq {fd fd' : FuseData σ} {block : ℕ} {result : ℤ}
    (h : fetchBlock P sha256 fd block = (result, fd')) : Fetched P sha256 fd block result fd' := by
  have hf : Fetched P sha256 fd block _ _ := fetchBlock_fetched fd block
  rwa [h] at hf

/-- A fetch changes neither the sizes nor the second buffer. -/
theorem Fetched.frame {fd fd' : FuseData σ} {block : ℕ} {result : ℤ}
    (h : Fetched P sha256 fd block result fd') :
    fd'.fileSize = fd.fileSize ∧ fd'.blockSize = fd.blockSize ∧
      fd'.fileBlocks = fd.fileBlocks ∧ fd'.extraBlock = fd.extraBlock := by
  cases h <;> exact ⟨rfl, rfl, rfl, rfl⟩

theorem Geometry.fetched {fd fd' : FuseData σ} {block : ℕ} {result : ℤ} (g : Geometry P fd)
    (h : Fetched P sha256 fd block result fd') : Geometry P fd' := by
  obtain ⟨h1, h2, h3, -⟩ := h.frame
  exact ⟨h1 ▸ g.fileSize, h2 ▸ g.blockSize, h3 ▸ g.fileBlocks, h2 ▸ g.le_blockSize,
    h2 ▸ g.blockSize_le, h3 ▸ g.fileBlocks_le⟩

theorem Geometry.copy {fd : FuseData σ} (g : Geometry P fd) (off : ℕ) :
    Geometry P (copyToExtra fd off) :=
  ⟨g.fileSize, g.blockSize, g.fileBlocks, g.le_blockSize, g.blockSize_le, g.fileBlocks_le⟩

@[simp] theorem copyToExtra_blockSize (fd : FuseData σ) (off : ℕ) :
    (copyToExtra fd off).blockSize = fd.blockSize := rfl

theorem copyToExtra_extraBlock {fd : FuseData σ} {off i : ℕ} (h : i < fd.blockSize - off) :
    (copyToExtra fd off).extraBlock i = fd.blockData (off + i) := if_pos h

/-- The offset in the block is the remainder, even where the product wrapped. -/
theorem Geometry.blockOffset_eq {fd : FuseData σ} (g : Geometry P fd) (req : ReadRequest) :
    blockOffset fd req = req.offset % fd.blockSize := by
  have hpos : 0 < fd.blockSize := by have := g.le_blockSize; omega
  have hr := Nat.mod_lt req.offset hpos
  have hb := g.blockSize_le
  have hdiv :
      req.offset = req.offset / fd.blockSize * fd.blockSize + req.offset % fd.blockSize := by
    rw [Nat.mul_comm, Nat.div_add_mod]
  have h := u32_add_sub (b := req.offset / fd.blockSize * fd.blockSize)
    (a := req.offset % fd.blockSize) (by omega)
  rw [← hdiv] at h
  rwa [blockOffset, blockOf, u32_mul_u32]

/-- A read spans two blocks at most, so its end does not wrap. -/
theorem Geometry.end_eq {fd : FuseData σ} (g : Geometry P fd) {req : ReadRequest}
    (hs : req.size ≤ fd.blockSize) :
    u32 (req.size + blockOffset fd req) = req.size + req.offset % fd.blockSize := by
  have hpos : 0 < fd.blockSize := by have := g.le_blockSize; omega
  have hr := Nat.mod_lt req.offset hpos
  have hb := g.blockSize_le
  rw [g.blockOffset_eq]
  exact u32_of_lt (by omega)

/-- What one read request can do. -/
inductive Replied (P : FuseDataProvider σ) (sha256 : Bytes → SHA256Digest) (fd : FuseData σ)
    (req : ReadRequest) : Except ℤ Bytes → FuseData σ → Prop
  | badNode : req.nodeid ≠ packageFileId → Replied P sha256 fd req (.error (-enoent)) fd
  | firstFailed (result : ℤ) (fd1 : FuseData σ) : req.nodeid = packageFileId →
      fetchBlock P sha256 fd (blockOf fd req) = (result, fd1) → result ≠ 0 →
      Replied P sha256 fd req (.error result) fd1
  | oneBlock (fd1 : FuseData σ) : req.nodeid = packageFileId →
      fetchBlock P sha256 fd (blockOf fd req) = (0, fd1) →
      u32 (req.size + blockOffset fd req) ≤ fd.blockSize →
      Replied P sha256 fd req (.ok (window fd1.blockData (blockOffset fd req) req.size)) fd1
  | secondFailed (fd1 : FuseData σ) (result : ℤ) (fd2 : FuseData σ) :
      req.nodeid = packageFileId →
      fetchBlock P sha256 fd (blockOf fd req) = (0, fd1) →
      ¬u32 (req.size + blockOffset fd req) ≤ fd.blockSize →
      fetchBlock P sha256 (copyToExtra fd1 (blockOffset fd req)) (u32 (blockOf fd req + 1)) =
        (result, fd2) → result ≠ 0 →
      Replied P sha256 fd req (.error result) fd2
  | twoBlocks (fd1 fd2 : FuseData σ) : req.nodeid = packageFileId →
      fetchBlock P sha256 fd (blockOf fd req) = (0, fd1) →
      ¬u32 (req.size + blockOffset fd req) ≤ fd.blockSize →
      fetchBlock P sha256 (copyToExtra fd1 (blockOffset fd req)) (u32 (blockOf fd req + 1)) =
        (0, fd2) →
      Replied P sha256 fd req
        (.ok (window fd2.extraBlock 0 (fd.blockSize - blockOffset fd req) ++
          window fd2.blockData 0 (req.size - (fd.blockSize - blockOffset fd req)))) fd2

theorem handleRead_oneBlock (fd : FuseData σ) (req : ReadRequest) {fd1 : FuseData σ}
    (hn : req.nodeid = packageFileId)
    (h1 : fetchBlock P sha256 fd (blockOf fd req) = (0, fd1))
    (hone : u32 (req.size + blockOffset fd req) ≤ fd.blockSize) :
    handleRead P sha256 fd req =
      (.ok (window fd1.blockData (blockOffset fd req) req.size), fd1) := by
  simp only [handleRead, hn, h1, ne_eq, not_true_eq_false, if_false, if_pos hone]

theorem handleRead_replied (fd : FuseData σ) (req : ReadRequest) :
    Replied P sha256 fd req (handleRead P sha256 fd req).1 (handleRead P sha256 fd req).2 := by
  by_cases hn : req.nodeid = packageFileId
  · rcases h1 : fetchBlock P sha256 fd (blockOf fd req) with ⟨result, fd1⟩
    simp only [handleRead, hn, ne_eq, not_true_eq_false, if_false, h1]
    by_cases hr : result = 0
    · subst hr
      by_cases hone : u32 (req.size + blockOffset fd req) ≤ fd.blockSize
      · simp only [not_true_eq_false, if_false, if_pos hone]
        exact .oneBlock fd1 hn h1 hone
      · rcases h2 : fetchBlock P sha256 (copyToExtra fd1 (blockOffset fd req))
          (u32 (blockOf fd req + 1)) with ⟨result, fd2⟩
        simp only [not_true_eq_false, if_false, if_neg hone]
        by_cases hr2 : result = 0
        · subst hr2
          exact .twoBlocks fd1 fd2 hn h1 hone h2
        · simp only [hr2, not_false_eq_true, if_true]
          exact .secondFailed fd1 result fd2 hn h1 hone h2 hr2
    · simp only [hr, not_false_eq_true, if_true]
      exact .firstFailed result fd1 hn h1 hr
  · rw [handleRead, if_pos hn]
    exact .badNode hn

theorem Geometry.replied {fd fd' : FuseData σ} {req : ReadRequest} {reply : Except ℤ Bytes}
    (g : Geometry P fd) (h : Replied P sha256 fd req reply fd') : Geometry P fd' := by
  cases h with
  | badNode => exact g
  | firstFailed _ _ _ h1 => exact g.fetched (fetched_of_eq h1)
  | oneBlock _ _ h1 => exact g.fetched (fetched_of_eq h1)
  | secondFailed _ _ _ _ h1 _ h2 =>
    exact ((g.fetched (fetched_of_eq h1)).copy _).fetched (fetched_of_eq h2)
  | twoBlocks _ _ _ h1 _ h2 =>
    exact ((g.fetched (fetched_of_eq h1)).copy _).fetched (fetched_of_eq h2)

theorem Geometry.read {fd : FuseData σ} (g : Geometry P fd) (req : ReadRequest) :
    Geometry P (handleRead P sha256 fd req).2 :=
  g.replied (handleRead_replied fd req)

end BootableRecovery.FuseSideload
