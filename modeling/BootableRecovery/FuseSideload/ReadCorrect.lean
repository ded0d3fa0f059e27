import BootableRecovery.FuseSideload.FuseSideload

namespace BootableRecovery.FuseSideload
open Lib Otautil

/-- The provider of one fixed file. -/
def fileProvider (file : Bytes) (blockSize : ℕ) : FuseDataProvider Unit where
  fileSize := file.length
  fuseBlockSize := blockSize
  readBlockAlignedData _ buf n b :=
    ((), fun i => if i < n then file.getD (b * blockSize + i) 0 else buf i, true)
  frame := by
    intro s buf n b i hi
    exact if_neg (not_lt.mpr hi)

/-- Block `b` as the mount shows it: zeroes from block number `file_blocks` on. -/
def servedBlock (file : Bytes) (blockSize b : ℕ) : Buffer :=
  fun i => if b < u32 (blockCount file.length blockSize) then file.getD (b * blockSize + i) 0 else 0

def servedByte (file : Bytes) (blockSize p : ℕ) : UInt8 :=
  servedBlock file blockSize (u32 (p / blockSize)) (p % blockSize)

variable {sha256 : Bytes → SHA256Digest} {file : Bytes} {bs : ℕ}

/-- The hash table and the cached block belong to the file. Whether the buffer is zeroed while
`curr_block` is 2^32 - 1 is left open. -/
structure Holding (sha256 : Bytes → SHA256Digest) (file : Bytes) (bs : ℕ) (fd : FuseData Unit) :
    Prop where
  hashes : ∀ b, fd.hashes b = List.replicate 32 0 ∨
    fd.hashes b = sha256 (window (servedBlock file bs b) 0 bs)
  cached : fd.currBlock ≠ noBlock →
    window fd.blockData 0 bs = window (servedBlock file bs fd.currBlock) 0 bs

/-- Block 2^32 - 1, taken for cached, is in the buffer. -/
def Warm (file : Bytes) (bs : ℕ) (fd : FuseData Unit) : Prop :=
  fd.currBlock = noBlock → window fd.blockData 0 bs = window (servedBlock file bs noBlock) 0 bs

theorem servedBlock_past {b : ℕ} (h : u32 (blockCount file.length bs) ≤ b) :
    window (servedBlock file bs b) 0 bs = List.replicate bs 0 := by
  rw [← window_const (0 : UInt8) 0]
  exact window_congr fun i _ _ => if_neg (not_lt.mpr h)

section Fetch
variable {fd fd' : FuseData Unit} {block : ℕ} {result : ℤ}

/-- The blocks counted in 32 bits all start in the file. -/
theorem mul_lt_of_lt_blockCount {n b : ℕ} (h : b < u32 (blockCount n bs)) : b * bs < n := by
  have hle := u32_le (blockCount n bs)
  unfold blockCount at h hle
  split_ifs at h hle with hn
  · exact absurd h (by simp [u32])
  · have hb : b ≤ (n - 1) / bs := by omega
    have := Nat.mul_le_mul_right bs hb
    have := Nat.div_mul_le_self (n - 1) bs
    omega

/-- A whole block or the end of the file, and zeroes behind it, arrive in the buffer. -/
theorem received_window (g : Geometry (fileProvider file bs) fd) (hlt : block < fd.fileBlocks)
    {data : Buffer} (hr : (fileProvider file bs).readBlockAlignedData fd.provider
      (padded fd block) (fetchSize fd block) block = ((), data, true)) :
    window data 0 bs = window (servedBlock file bs block) 0 bs := by
  have hdata : data = fun i => if i < fetchSize fd block then file.getD (block * bs + i) 0
      else padded fd block i := (congrArg (fun r => r.2.1) hr).symm
  have hbs : fd.blockSize = bs := g.blockSize
  have hfs : fd.fileSize = file.length := g.fileSize
  have hlt' : block < u32 (blockCount file.length bs) := g.fileBlocks ▸ hlt
  have hstart := mul_lt_of_lt_blockCount hlt'
  have hin : block * bs + bs < 2 ^ 64 := by
    have h1 : block ≤ 2 ^ 18 := by have := g.fileBlocks_le; omega
    have h2 : bs ≤ 2 ^ 22 := hbs ▸ g.blockSize_le
    have := Nat.mul_le_mul h1 h2
    omega
  subst hdata
  apply window_congr
  intro i _ hi
  rw [Nat.zero_add] at hi
  rw [servedBlock, if_pos hlt']
  split_ifs with hf
  · rfl
  · -- only a short block leaves bytes of the buffer unfilled
    by_cases hs : isShort fd block = true
    · have hend : file.length < block * bs + bs := by
        rw [isShort, hbs, hfs, u64_of_lt hin] at hs
        simpa using hs
      have hsize : fetchSize fd block = file.length - block * bs := by
        have h2 : bs ≤ 2 ^ 22 := hbs ▸ g.blockSize_le
        rw [fetchSize, if_pos hs, hfs, hbs]
        exact u32_of_lt (by omega)
      rw [hsize] at hf
      rw [padded, if_pos hs, hsize, hbs, memset, if_pos ⟨by omega, by omega⟩,
        List.getD_eq_default _ _ (by omega)]
    · rw [fetchSize, if_neg hs, hbs] at hf
      exact absurd hi hf

/-- Whatever was fetched before, a fetch brings the block into the buffer. -/
theorem Fetched.holding (h : Fetched (fileProvider file bs) sha256 fd block result fd')
    (g : Geometry (fileProvider file bs) fd) (hold : Holding sha256 file bs fd)
    (hw : block = noBlock → Warm file bs fd) :
    result = 0 ∧ Holding sha256 file bs fd' ∧ fd'.currBlock = block ∧
      window fd'.blockData 0 bs = window (servedBlock file bs block) 0 bs := by
  have hbs : fd.blockSize = bs := g.blockSize
  cases h with
  | cached hc =>
    refine ⟨rfl, hold, hc.symm, ?_⟩
    by_cases hn : block = noBlock
    · rw [hw hn (hc ▸ hn), hn]
    · rw [hold.cached (hc ▸ hn), hc]
  | past _ hp =>
    have hz : window (memset fd.blockData 0 fd.blockSize) 0 bs =
        window (servedBlock file bs block) 0 bs := by
      rw [hbs, window_memset, servedBlock_past (g.fileBlocks ▸ hp)]
    exact ⟨rfl, ⟨hold.hashes, fun _ => hz⟩, rfl, hz⟩
  | failed s data _ _ hr => cases congrArg (fun r => r.2.2) hr
  | same s data _ hlt hr _ =>
    have hd := received_window g hlt hr
    exact ⟨rfl, ⟨hold.hashes, fun _ => hd⟩, rfl, hd⟩
  | changed s data _ hlt hr hs hz =>
    exfalso
    rcases hold.hashes block with h0 | h0
    · rw [h0] at hz
      exact absurd hz (by decide)
    · rw [h0, hbs, received_window g hlt hr] at hs
      exact hs rfl
  | first s data _ hlt hr _ =>
    have hd := received_window g hlt hr
    refine ⟨rfl, ⟨fun b => ?_, fun _ => hd⟩, rfl, hd⟩
    by_cases hb : b = block
    · right
      simp only [hb, if_true, hbs, hd]
    · simp only [if_neg hb]
      exact hold.hashes b

end Fetch

section Read
variable {fd fd' : FuseData Unit} {req : ReadRequest} {reply : Except ℤ Bytes}

theorem Holding.copy (h : Holding sha256 file bs fd) (off : ℕ) :
    Holding sha256 file bs (copyToExtra fd off) := ⟨h.hashes, h.cached⟩

theorem Warm.copy (h : Warm file bs fd) (off : ℕ) : Warm file bs (copyToExtra fd off) := h

/-- Whatever was read before, a reply is the bytes served at the positions asked for. -/
theorem Replied.holding (h : Replied (fileProvider file bs) sha256 fd req reply fd')
    (g : Geometry (fileProvider file bs) fd) (hold : Holding sha256 file bs fd)
    (hn : req.nodeid = packageFileId) (hs : req.size ≤ bs)
    (hw : blockOf fd req = noBlock → Warm file bs fd) :
    reply = .ok (window (servedByte file bs) req.offset req.size) ∧
      Holding sha256 file bs fd' ∧ Warm file bs fd' := by
  have hbs : fd.blockSize = bs := g.blockSize
  have hpos : 0 < bs := by have := g.le_blockSize; omega
  have hrem := Nat.mod_lt req.offset hpos
  have hoff : blockOffset fd req = req.offset % bs := by rw [g.blockOffset_eq, hbs]
  have hend := g.end_eq (hbs ▸ hs)
  rw [hbs] at hend
  have hblk : blockOf fd req = u32 (req.offset / bs) := by rw [blockOf, hbs]
  cases h with
  | badNode hn' => exact absurd hn hn'
  | firstFailed result _ _ h1 hr => exact absurd ((fetched_of_eq h1).holding g hold hw).1 hr
  | oneBlock _ _ h1 hone =>
    obtain ⟨-, hold1, hc1, hd1⟩ := (fetched_of_eq h1).holding g hold hw
    rw [hend, hbs] at hone
    refine ⟨?_, hold1, fun hn => by rw [hd1, ← hc1, hn]⟩
    rw [hoff]
    congr 1
    rw [window_eq_iff]
    intro i hi
    obtain ⟨hdiv, hmod⟩ := (block_of_position hpos (Nat.le_add_right req.offset i)).1 (by omega)
    rw [window_eq_iff] at hd1
    have := hd1 (req.offset % bs + i) (by omega)
    rw [Nat.zero_add] at this
    rw [this, servedByte, hdiv, hmod, hblk, Nat.add_sub_cancel_left]
  | secondFailed fd1 result _ _ h1 _ h2 hr =>
    obtain ⟨-, hold1, hc1, hd1⟩ := (fetched_of_eq h1).holding g hold hw
    have g1 := (g.fetched (fetched_of_eq h1)).copy (blockOffset fd req)
    have hw1 : Warm file bs fd1 := fun hn => by rw [hd1, ← hc1, hn]
    exact absurd ((fetched_of_eq h2).holding g1 (hold1.copy _) fun _ => hw1.copy _).1 hr
  | twoBlocks fd1 _ _ h1 hone h2 =>
    obtain ⟨-, hold1, hc1, hd1⟩ := (fetched_of_eq h1).holding g hold hw
    have g1 := (g.fetched (fetched_of_eq h1)).copy (blockOffset fd req)
    have hw1 : Warm file bs fd1 := fun hn => by rw [hd1, ← hc1, hn]
    have f2 := fetched_of_eq h2
    obtain ⟨-, hold2, hc2, hd2⟩ := f2.holding g1 (hold1.copy _) fun _ => hw1.copy _
    have hb1 : fd1.blockSize = bs := (fetched_of_eq h1).frame.2.1.trans hbs
    rw [hend, hbs] at hone
    refine ⟨?_, hold2, fun hn => by rw [hd2, ← hc2, hn]⟩
    have hsplit : req.size = (bs - req.offset % bs) + (req.size - (bs - req.offset % bs)) := by
      omega
    rw [window_eq_iff] at hd1 hd2
    congr 1
    rw [hsplit, ← window_append, ← hsplit, hoff, hbs, f2.frame.2.2.2]
    congr 1
    · rw [window_eq_iff]
      intro i hi
      obtain ⟨hdiv, hmod⟩ := (block_of_position hpos (Nat.le_add_right req.offset i)).1 (by omega)
      have := hd1 (req.offset % bs + i) (by omega)
      rw [Nat.zero_add] at this
      rw [Nat.zero_add, copyToExtra_extraBlock (by rw [hb1, hoff]; exact hi), hoff, this,
        servedByte, hdiv, hmod, hblk, Nat.add_sub_cancel_left]
    · rw [window_eq_iff]
      intro i hi
      obtain ⟨hdiv, hmod⟩ := (block_of_position hpos
        (Nat.le_add_right req.offset (bs - req.offset % bs + i))).2 (by omega) (by omega)
      have := hd2 i (by omega)
      rw [this, Nat.zero_add, Nat.add_assoc, servedByte, hdiv, hmod, hblk, u32_succ]
      congr 1
      omega

end Read

section Run
variable {fd : FuseData Unit} {reqs : List ReadRequest} {req : ReadRequest}
  {reply : Except ℤ Bytes} {n : ℕ}

/-- A request the kernel may send: the mount has max_read = block_size, and block numbers below
2^32 fit `uint32_t block`. -/
structure Admissible (bs : ℕ) (req : ReadRequest) : Prop where
  nodeid : req.nodeid = packageFileId
  size_le : req.size ≤ bs
  offset_lt : req.offset < bs * 2 ^ 32

theorem Admissible.blockOf_eq (h : Admissible bs req) (hbs : fd.blockSize = bs) :
    blockOf fd req = req.offset / bs := by
  rw [blockOf, hbs]
  exact u32_of_lt (Nat.div_lt_of_lt_mul h.offset_lt)

theorem serve_of_warm (g : Geometry (fileProvider file bs) fd) (hold : Holding sha256 file bs fd)
    (hw : Warm file bs fd) (hreqs : ∀ req ∈ reqs, Admissible bs req)
    (h : (req, reply) ∈ serve (fileProvider file bs) sha256 fd reqs) :
    reply = .ok (window (servedByte file bs) req.offset req.size) := by
  induction reqs generalizing fd with
  | nil => cases h
  | cons r reqs ih =>
    have hr : Replied (fileProvider file bs) sha256 fd r _ _ := handleRead_replied fd r
    have ha := hreqs r List.mem_cons_self
    obtain ⟨hreply, hold', hw'⟩ := hr.holding g hold ha.nodeid ha.size_le fun _ => hw
    rcases List.mem_cons.mp h with he | ht
    · obtain ⟨rfl, rfl⟩ := Prod.mk.inj he
      exact hreply
    · exact ih (g.replied hr) hold' hw' (fun q hq => hreqs q (List.mem_cons_of_mem _ hq)) ht

/-- An empty read of block 2^32 - 1 changes nothing while no block is cached. -/
theorem handleRead_empty (g : Geometry (fileProvider file bs) fd) (ha : Admissible bs req)
    (hcur : fd.currBlock = noBlock) (hblk : req.offset / bs = noBlock) (hsize : req.size = 0) :
    handleRead (fileProvider file bs) sha256 fd req = (.ok [], fd) := by
  have hbs : fd.blockSize = bs := g.blockSize
  have hpos : 0 < fd.blockSize := by have := g.le_blockSize; omega
  have hone : u32 (req.size + blockOffset fd req) ≤ fd.blockSize := by
    rw [g.end_eq (by omega), hsize, Nat.zero_add]
    exact (Nat.mod_lt _ hpos).le
  have hfetch : fetchBlock (fileProvider file bs) sha256 fd (blockOf fd req) = (0, fd) :=
    fetchBlock_cached (by rw [ha.blockOf_eq hbs, hblk, hcur])
  rw [handleRead_oneBlock fd req ha.nodeid hfetch hone, hsize, window_zero]

/-- The first requests must not find block 2^32 - 1 cached before anything was fetched. -/
theorem serve_of_cold (g : Geometry (fileProvider file bs) fd) (hold : Holding sha256 file bs fd)
    (hcur : fd.currBlock = noBlock) (hreqs : ∀ req ∈ reqs, Admissible bs req)
    (hfirst : ∀ req ∈ reqs.takeWhile fun r => r.offset / bs = noBlock, req.size = 0)
    (h : (req, reply) ∈ serve (fileProvider file bs) sha256 fd reqs) :
    reply = .ok (window (servedByte file bs) req.offset req.size) := by
  induction reqs with
  | nil => cases h
  | cons r reqs ih =>
    have ha := hreqs r List.mem_cons_self
    have htail : ∀ q ∈ reqs, Admissible bs q := fun q hq => hreqs q (List.mem_cons_of_mem _ hq)
    by_cases hblk : r.offset / bs = noBlock
    · rw [List.takeWhile_cons_of_pos (by simpa using hblk)] at hfirst
      have hsize := hfirst r List.mem_cons_self
      have hread : handleRead (fileProvider file bs) sha256 fd r = (.ok [], fd) :=
        handleRead_empty g ha hcur hblk hsize
      rcases List.mem_cons.mp h with he | ht
      · obtain ⟨rfl, rfl⟩ := Prod.mk.inj he
        rw [hread, hsize, window_zero]
      · rw [hread] at ht
        exact ih htail (fun q hq => hfirst q (List.mem_cons_of_mem _ hq)) ht
    · have hr : Replied (fileProvider file bs) sha256 fd r _ _ := handleRead_replied fd r
      obtain ⟨hreply, hold', hw'⟩ := hr.holding g hold ha.nodeid ha.size_le fun hn =>
        absurd (ha.blockOf_eq g.blockSize ▸ hn) hblk
      rcases List.mem_cons.mp h with he | ht
      · obtain ⟨rfl, rfl⟩ := Prod.mk.inj he
        exact hreply
      · exact serve_of_warm (g.replied hr) hold' hw' htail ht

/-- Every reply to the run is the bytes of the file, zeroes past its end: for every file of `n`
bytes and whatever the buffers hold at first. -/
def RunCorrect (sha256 : Bytes → SHA256Digest) (n bs : ℕ) (reqs : List ReadRequest) : Prop :=
  ∀ file : Bytes, file.length = n → ∀ blockData extraBlock fd,
    start (fileProvider file bs) () blockData extraBlock = some fd →
    ∀ req reply, (req, reply) ∈ serve (fileProvider file bs) sha256 fd reqs →
      reply = .ok (window (fun p => file.getD p 0) req.offset req.size)

/-- No byte of block 2^32 - 1 is asked for before any other block; every byte of the file that is
asked for lies in a block below `file_blocks`; and no request runs into block 2^32, which is
taken for block 0, unless no block is counted. -/
structure RunClear (n bs : ℕ) (reqs : List ReadRequest) : Prop where
  notFirst : ∀ req ∈ reqs.takeWhile fun r => r.offset / bs = noBlock, req.size = 0
  counted : ∀ req ∈ reqs, ∀ p, req.offset ≤ p → p < req.offset + req.size → p < n →
    p / bs < u32 (blockCount n bs)
  noWrap : ∀ req ∈ reqs, bs * 2 ^ 32 < req.offset + req.size → u32 (blockCount n bs) = 0

theorem holding_start {blockData extraBlock : Buffer}
    (h : start (fileProvider file bs) () blockData extraBlock = some fd) :
    Holding sha256 file bs fd := by
  have hcur := currBlock_start h
  unfold start at h
  split_ifs at h
  cases h
  exact ⟨fun _ => .inl rfl, fun hne => absurd hcur hne⟩

theorem mem_of_mem_serve (h : (req, reply) ∈ serve (fileProvider file bs) sha256 fd reqs) :
    req ∈ reqs := by
  induction reqs generalizing fd with
  | nil => cases h
  | cons r reqs ih =>
    rcases List.mem_cons.mp h with he | ht
    · exact (Prod.mk.inj he).1 ▸ List.mem_cons_self
    · exact List.mem_cons_of_mem _ (ih ht)

theorem RunClear.servedByte_eq (hc : RunClear file.length bs reqs)
    (hreq : req ∈ reqs) {p : ℕ} (hp : req.offset ≤ p) (hp' : p < req.offset + req.size) :
    servedByte file bs p = file.getD p 0 := by
  have hdm : p / bs * bs + p % bs = p := by rw [Nat.mul_comm, Nat.div_add_mod]
  have hcount := hc.counted req hreq p hp hp'
  unfold servedByte servedBlock
  rcases lt_or_ge p (bs * 2 ^ 32) with hlt | hge
  · rw [u32_of_lt (Nat.div_lt_of_lt_mul hlt)]
    split_ifs with hb
    · rw [hdm]
    · exact (List.getD_eq_default _ _ (by omega)).symm
  · have h0 := hc.noWrap req hreq (by omega)
    rw [h0] at hcount ⊢
    rw [if_neg (Nat.not_lt_zero _)]
    exact (List.getD_eq_default _ _ (not_lt.mp fun hlt => Nat.not_lt_zero _ (hcount hlt))).symm

theorem RunClear.runCorrect (hc : RunClear n bs reqs) (hreqs : ∀ req ∈ reqs, Admissible bs req) :
    RunCorrect sha256 n bs reqs := by
  rintro file rfl blockData extraBlock fd hstart req reply h
  have g := geometry_start hstart
  rw [serve_of_cold g (holding_start hstart) (currBlock_start hstart) hreqs hc.notFirst h]
  congr 1
  apply window_congr
  intro p hp hp'
  exact hc.servedByte_eq (mem_of_mem_serve h) hp hp'

/-- The set-up of `run_fuse_sideload` goes through. -/
structure Accepted (n bs : ℕ) : Prop where
  le_blockSize : 4096 ≤ bs
  blockSize_le : bs ≤ 2 ^ 22
  fileBlocks_le : u32 (blockCount n bs) ≤ 2 ^ 18

theorem Accepted.start (h : Accepted file.length bs) (blockData extraBlock : Buffer) :
    ∃ fd, start (fileProvider file bs) () blockData extraBlock = some fd ∧
      fd.blockData = blockData := by
  have h1 : ¬(fileProvider file bs).fuseBlockSize < 4096 := not_lt.mpr h.le_blockSize
  have h2 : ¬(fileProvider file bs).fuseBlockSize > 2 ^ 22 := not_lt.mpr h.blockSize_le
  have h3 : ¬u32 (blockCount (fileProvider file bs).fileSize
      (fileProvider file bs).fuseBlockSize) > 2 ^ 18 := not_lt.mpr h.fileBlocks_le
  unfold FuseSideload.start
  rw [if_neg h1, if_neg h2, if_neg h3]
  exact ⟨_, rfl, rfl⟩

theorem mem_serve_of_mem (sha256 : Bytes → SHA256Digest) (file : Bytes) (bs : ℕ)
    (fd : FuseData Unit) (h : req ∈ reqs) :
    ∃ reply, (req, reply) ∈ serve (fileProvider file bs) sha256 fd reqs := by
  induction reqs generalizing fd with
  | nil => cases h
  | cons r reqs ih =>
    rcases List.mem_cons.mp h with rfl | ht
    · exact ⟨_, List.mem_cons_self⟩
    · obtain ⟨reply, hr⟩ := ih (handleRead _ _ fd r).2 ht
      exact ⟨reply, List.mem_cons_of_mem _ hr⟩

/-- Over zeroed buffers, a correct run serves each byte of any file from its own place. -/
theorem RunCorrect.servedByte_eq (hc : RunCorrect sha256 file.length bs reqs)
    (hacc : Accepted file.length bs) (hreqs : ∀ req ∈ reqs, Admissible bs req)
    (hreq : req ∈ reqs) {p : ℕ} (hp : req.offset ≤ p) (hp' : p < req.offset + req.size) :
    servedByte file bs p = file.getD p 0 := by
  obtain ⟨fd, hstart, hdata⟩ := hacc.start (fun _ => 0) fun _ => 0
  obtain ⟨reply, hr⟩ := mem_serve_of_mem sha256 file bs fd hreq
  have hw : Warm file bs fd := by
    intro _
    rw [hdata, window_const, servedBlock_past]
    have := hacc.fileBlocks_le
    rw [noBlock]
    omega
  have h1 := serve_of_warm (geometry_start hstart) (holding_start hstart) hw hreqs hr
  have h2 := hc file rfl _ _ fd hstart req reply hr
  rw [h1] at h2
  have h3 := window_eq_iff.mp (Except.ok.inj h2) (p - req.offset) (by omega)
  rwa [show req.offset + (p - req.offset) = p by omega] at h3

/-- The file of `n` bytes that is zero everywhere but at `p`. -/
def marked (n p : ℕ) : Bytes := (List.replicate n 0).set p 1

theorem marked_length (n p : ℕ) : (marked n p).length = n := by simp [marked]

theorem marked_getD (n p q : ℕ) : (marked n p).getD q 0 = if p = q ∧ q < n then 1 else 0 := by
  simp only [marked, List.getD_eq_getElem?_getD, List.getElem?_set, List.length_replicate]
  split_ifs <;> simp_all

theorem RunCorrect.counted (hc : RunCorrect sha256 n bs reqs) (hacc : Accepted n bs)
    (hreqs : ∀ req ∈ reqs, Admissible bs req) (hreq : req ∈ reqs) {p : ℕ} (hp : req.offset ≤ p)
    (hp' : p < req.offset + req.size) (hn : p < n) : p / bs < u32 (blockCount n bs) := by
  by_contra hge
  have hpos : 0 < bs := by have := hacc.le_blockSize; omega
  rw [← marked_length n p] at hc hacc
  have h := hc.servedByte_eq hacc hreqs hreq hp hp'
  rw [marked_getD, if_pos ⟨rfl, hn⟩, servedByte, servedBlock, marked_length] at h
  split_ifs at h with hb
  · rw [marked_getD, if_neg] at h
    · cases h
    · rintro ⟨he, -⟩
      have hdiv : p / bs = u32 (p / bs) := by
        conv_lhs => rw [he, Nat.add_comm, Nat.add_mul_div_right _ _ hpos,
          Nat.div_eq_of_lt (Nat.mod_lt p hpos), Nat.zero_add]
      omega
  · cases h

theorem RunCorrect.noWrap (hc : RunCorrect sha256 n bs reqs) (hacc : Accepted n bs)
    (hreqs : ∀ req ∈ reqs, Admissible bs req) (hreq : req ∈ reqs)
    (hend : bs * 2 ^ 32 < req.offset + req.size) : u32 (blockCount n bs) = 0 := by
  by_contra hne
  have hpos : 0 < bs := by have := hacc.le_blockSize; omega
  have hn : 0 < n := by
    have := mul_lt_of_lt_blockCount (Nat.pos_of_ne_zero hne)
    omega
  rw [← marked_length n 0] at hc hacc
  have h := hc.servedByte_eq hacc hreqs hreq (hreqs req hreq).offset_lt.le hend
  rw [marked_getD, if_neg (by omega), servedByte, servedBlock, marked_length,
    Nat.mul_div_cancel_left _ hpos, Nat.mul_mod_right, if_pos (by
      rw [show u32 (2 ^ 32) = 0 from rfl]
      omega), marked_getD, if_pos ⟨by simp [u32], by simpa [u32] using hn⟩] at h
  cases h

/-- A read served from the untouched buffer shows it. -/
theorem Replied.size_eq_zero (h : Replied (fileProvider file bs) sha256 fd req reply fd')
    (hcur : blockOf fd req = fd.currBlock) (hdata : fd.blockData = fun _ => 7)
    (hoff : blockOffset fd req < fd.blockSize)
    (hreply : reply = .ok (window (fun _ => 0) req.offset req.size)) : req.size = 0 := by
  by_contra hsize
  have hfetch : fetchBlock (fileProvider file bs) sha256 fd (blockOf fd req) = (0, fd) :=
    fetchBlock_cached hcur
  have hzero : (window (fun _ => (0 : UInt8)) req.offset req.size)[0]? = some 0 :=
    window_getElem? _ _ _ _ (Nat.pos_of_ne_zero hsize)
  cases h with
  | badNode => cases hreply
  | firstFailed => cases hreply
  | secondFailed => cases hreply
  | oneBlock fd1 _ h1 =>
    cases h1.symm.trans hfetch
    rw [← Except.ok.inj hreply, window_getElem? _ _ _ _ (Nat.pos_of_ne_zero hsize), hdata] at hzero
    cases hzero
  | twoBlocks fd1 _ _ h1 _ h2 =>
    cases h1.symm.trans hfetch
    have hlt : 0 < fd.blockSize - blockOffset fd req := by omega
    rw [← Except.ok.inj hreply, List.getElem?_append_left (by simpa using hoff),
      window_getElem? _ _ _ _ hlt, (fetched_of_eq h2).frame.2.2.2, Nat.zero_add,
      copyToExtra_extraBlock hlt, hdata] at hzero
    cases hzero

theorem serve_cold_sizes (g : Geometry (fileProvider file bs) fd) (hcur : fd.currBlock = noBlock)
    (hdata : fd.blockData = fun _ => 7) (hreqs : ∀ req ∈ reqs, Admissible bs req)
    (h : ∀ req reply, (req, reply) ∈ serve (fileProvider file bs) sha256 fd reqs →
      reply = .ok (window (fun _ => 0) req.offset req.size)) :
    ∀ req ∈ reqs.takeWhile fun r => r.offset / bs = noBlock, req.size = 0 := by
  induction reqs with
  | nil => simp
  | cons r reqs ih =>
    by_cases hblk : r.offset / bs = noBlock
    · have ha := hreqs r List.mem_cons_self
      have hpos : 0 < fd.blockSize := by have := g.le_blockSize; omega
      have hr : Replied (fileProvider file bs) sha256 fd r _ _ := handleRead_replied fd r
      have hsize : r.size = 0 :=
        hr.size_eq_zero (by rw [ha.blockOf_eq g.blockSize, hblk, hcur]) hdata
          (by rw [g.blockOffset_eq]; exact Nat.mod_lt _ hpos) (h _ _ List.mem_cons_self)
      have hread : handleRead (fileProvider file bs) sha256 fd r = (.ok [], fd) :=
        handleRead_empty g ha hcur hblk hsize
      rw [List.takeWhile_cons_of_pos (by simpa using hblk)]
      intro q hq
      rcases List.mem_cons.mp hq with rfl | hq
      · exact hsize
      · refine ih (fun q hq => hreqs q (List.mem_cons_of_mem _ hq)) ?_ q hq
        intro q reply hmem
        refine h q reply (List.mem_cons_of_mem _ ?_)
        rwa [hread]
    · rw [List.takeWhile_cons_of_neg (by simpa using hblk)]
      simp

theorem RunCorrect.notFirst (hc : RunCorrect sha256 n bs reqs) (hacc : Accepted n bs)
    (hreqs : ∀ req ∈ reqs, Admissible bs req) :
    ∀ req ∈ reqs.takeWhile fun r => r.offset / bs = noBlock, req.size = 0 := by
  have hlen : (List.replicate n (0 : UInt8)).length = n := List.length_replicate
  rw [← hlen] at hacc
  obtain ⟨fd, hstart, hdata⟩ := hacc.start (fun _ => 7) fun _ => 7
  have hreply : ∀ req reply,
      (req, reply) ∈ serve (fileProvider (List.replicate n 0) bs) sha256 fd reqs →
      reply = .ok (window (fun _ => 0) req.offset req.size) := by
    intro req reply h
    rw [hc _ hlen _ _ fd hstart req reply h]
    congr 2
    funext p
    simp only [List.getD_eq_getElem?_getD, List.getElem?_replicate]
    split_ifs <;> rfl
  exact serve_cold_sizes (geometry_start hstart) (currBlock_start hstart) hdata hreqs hreply

/-- The runs of read requests that show the file, and no others. -/
theorem runCorrect_iff (hacc : Accepted n bs) (hreqs : ∀ req ∈ reqs, Admissible bs req) :
    RunCorrect sha256 n bs reqs ↔ RunClear n bs reqs := by
  constructor
  · intro h
    exact ⟨h.notFirst hacc hreqs,
      fun _ hreq _ hp hp' hn => h.counted hacc hreqs hreq hp hp' hn,
      fun _ hreq hend => h.noWrap hacc hreqs hreq hend⟩
  · exact fun h => h.runCorrect hreqs

/-- One byte of the last block that `curr_block` can name, read before anything else. -/
def lastBlockRead : ReadRequest := ⟨packageFileId, 4096 * (2 ^ 32 - 1), 1⟩

theorem lastBlockRead_admissible : ∀ req ∈ [lastBlockRead], Admissible 4096 req := by
  simp only [List.mem_singleton, forall_eq]
  exact ⟨rfl, by decide, by decide⟩

theorem accepted_one : Accepted 1 4096 := ⟨by decide, by decide, by decide⟩

/-- The first read of block 2^32 - 1 of a small file replies with what `malloc` left. -/
theorem lastBlockRead_not_correct :
    Accepted 1 4096 ∧ (∀ req ∈ [lastBlockRead], Admissible 4096 req) ∧
      ¬RunCorrect id 1 4096 [lastBlockRead] := by
  refine ⟨accepted_one, lastBlockRead_admissible, fun h => ?_⟩
  have hmem : lastBlockRead ∈ [lastBlockRead].takeWhile fun r => r.offset / 4096 = noBlock :=
    List.mem_cons_self
  cases h.notFirst accepted_one lastBlockRead_admissible lastBlockRead hmem

/-- A file of two blocks and a bit: a read across blocks 0 and 1, the same again, one past the end
of the file, and one of the last block that `curr_block` can name. -/
def straddlingReads : List ReadRequest :=
  [⟨packageFileId, 4000, 200⟩, ⟨packageFileId, 4000, 200⟩, ⟨packageFileId, 8000, 4096⟩,
    lastBlockRead]

theorem straddlingReads_admissible : ∀ req ∈ straddlingReads, Admissible 4096 req := by
  simp only [straddlingReads, List.mem_cons, List.not_mem_nil, or_false, forall_eq_or_imp,
    forall_eq]
  exact ⟨⟨rfl, by decide, by decide⟩, ⟨rfl, by decide, by decide⟩, ⟨rfl, by decide, by decide⟩,
    ⟨rfl, by decide, by decide⟩⟩

theorem straddlingReads_correct_iff : RunCorrect id 9000 4096 straddlingReads ∧
    (RunCorrect id 9000 4096 straddlingReads ↔ RunClear 9000 4096 straddlingReads) := by
  have hiff : RunCorrect id 9000 4096 straddlingReads ↔ RunClear 9000 4096 straddlingReads :=
    runCorrect_iff ⟨by decide, by decide, by decide⟩ straddlingReads_admissible
  have hblocks : u32 (blockCount 9000 4096) = 3 := by decide
  refine ⟨hiff.mpr ⟨?_, fun req _ p _ _ hp => ?_, fun req hreq => ?_⟩, hiff⟩
  · decide
  · rw [hblocks]
    omega
  · rw [hblocks]
    revert req
    decide

end Run
end BootableRecovery.FuseSideload
