import BootableRecovery.FuseSideload.FuseSideload

namespace BootableRecovery.FuseSideload
open Lib Otautil

variable {σ : Type} {P : FuseDataProvider σ} {sha256 : Bytes → SHA256Digest}

/-- Not the all-zero digest that stands for a block never read. -/
def IsRead (hash : SHA256Digest) : Prop := hash.any (· ≠ 0) = true

/-- Some byte of the file is read from block number `b`. -/
def HoldsFile (fd : FuseData σ) (b : ℕ) : Prop :=
  ∃ p < fd.fileSize, u32 (p / fd.blockSize) = b

/-- `block_data` is what block `b` may be: the block whose hash is stored, or zeroes past the
last block. -/
def Right (sha256 : Bytes → SHA256Digest) (fd : FuseData σ) (b : ℕ) : Prop :=
  (b < fd.fileBlocks → fd.hashes b = sha256 (window fd.blockData 0 fd.blockSize)) ∧
  (fd.fileBlocks ≤ b → window fd.blockData 0 fd.blockSize = List.replicate fd.blockSize 0)

/-- The cache invariant. It says nothing about block 2^32 - 1, which `curr_block` cannot tell
from no block. -/
def Consistent (sha256 : Bytes → SHA256Digest) (fd : FuseData σ) : Prop :=
  HoldsFile fd fd.currBlock → fd.currBlock ≠ noBlock → Right sha256 fd fd.currBlock

/-- Stored hashes stay, and so does the geometry. -/
def Grows (fd fd' : FuseData σ) : Prop :=
  fd'.blockSize = fd.blockSize ∧ fd'.fileBlocks = fd.fileBlocks ∧
    ∀ b, IsRead (fd.hashes b) → fd'.hashes b = fd.hashes b

theorem Grows.refl (fd : FuseData σ) : Grows fd fd := ⟨rfl, rfl, fun _ _ => rfl⟩

theorem Grows.trans {fd fd' fd'' : FuseData σ} (h : Grows fd fd') (h' : Grows fd' fd'') :
    Grows fd fd'' := by
  refine ⟨h'.1.trans h.1, h'.2.1.trans h.2.1, ?_⟩
  intro b hb
  have hb' : IsRead (fd'.hashes b) := by rwa [h.2.2 b hb]
  rw [h'.2.2 b hb', h.2.2 b hb]

/-- While the cached block holds bytes of the file, a call that fails leaves it in `block_data`;
and if nothing is cached, block 2^32 - 1 is not taken for cached unless the buffer is zeroed. -/
def FetchKeepsCache (P : FuseDataProvider σ) (fd : FuseData σ) (block : ℕ) : Prop :=
  HoldsFile fd fd.currBlock →
    (∀ s data, block ≠ fd.currBlock → block < fd.fileBlocks → fd.currBlock ≠ noBlock →
      P.readBlockAlignedData fd.provider (padded fd block) (fetchSize fd block) block =
        (s, data, false) →
      window data 0 fd.blockSize = window fd.blockData 0 fd.blockSize) ∧
    (block = noBlock → fd.currBlock = noBlock →
      window fd.blockData 0 fd.blockSize = List.replicate fd.blockSize 0)

/-- The same for the one or two fetches of a read request. -/
def ReadKeepsCache (P : FuseDataProvider σ) (sha256 : Bytes → SHA256Digest) (fd : FuseData σ)
    (req : ReadRequest) : Prop :=
  req.nodeid = packageFileId →
    FetchKeepsCache P fd (blockOf fd req) ∧
    ∀ fd1, fetchBlock P sha256 fd (blockOf fd req) = (0, fd1) →
      ¬u32 (req.size + blockOffset fd req) ≤ fd.blockSize →
      FetchKeepsCache P (copyToExtra fd1 (blockOffset fd req)) (u32 (blockOf fd req + 1))

def ReadsKeepCache (P : FuseDataProvider σ) (sha256 : Bytes → SHA256Digest) :
    FuseData σ → List ReadRequest → Prop
  | _, [] => True
  | fd, req :: reqs => ReadKeepsCache P sha256 fd req ∧
      ReadsKeepCache P sha256 (handleRead P sha256 fd req).2 reqs

section Fetch
variable {fd fd' : FuseData σ} {block : ℕ} {result : ℤ}

theorem right_of_past {b : ℕ} (hp : fd.fileBlocks ≤ b) :
    Right sha256 { fd with blockData := memset fd.blockData 0 fd.blockSize, currBlock := b } b :=
  ⟨fun hlt => absurd hlt (not_lt.mpr hp), fun _ => window_memset _ _⟩

theorem Fetched.consistent (h : Fetched P sha256 fd block result fd')
    (keep : FetchKeepsCache P fd block) (hc : Consistent sha256 fd) : Consistent sha256 fd' := by
  intro hcur hne
  cases h with
  | cached _ => exact hc hcur hne
  | past _ hp => exact right_of_past hp
  | failed s data hb hlt hr =>
    have hsame := (keep hcur).1 s data hb hlt hne hr
    obtain ⟨h1, h2⟩ := hc hcur hne
    rw [← hsame] at h1 h2
    exact ⟨h1, h2⟩
  | same s data _ hlt _ hs => exact ⟨fun _ => hs.symm, fun hge => absurd hlt (not_lt.mpr hge)⟩
  | changed => exact absurd rfl hne
  | first s data _ hlt => exact ⟨fun _ => if_pos rfl, fun hge => absurd hlt (not_lt.mpr hge)⟩

theorem Fetched.grows (h : Fetched P sha256 fd block result fd') : Grows fd fd' := by
  refine ⟨h.frame.2.1, h.frame.2.2.1, ?_⟩
  cases h with
  | first s data _ _ _ hz =>
    intro b hb
    by_cases he : b = block
    · subst he
      rw [IsRead, hz] at hb
      cases hb
    · exact if_neg he
  | _ => exact fun _ _ => rfl

/-- After a successful fetch of a block with bytes of the file, that block is in `block_data`. -/
theorem Fetched.right (h : Fetched P sha256 fd block 0 fd') (keep : FetchKeepsCache P fd block)
    (hc : Consistent sha256 fd) (g : Geometry P fd) (hb : HoldsFile fd block) :
    Right sha256 fd' block := by
  generalize hresult : (0 : ℤ) = result at h
  cases h with
  | cached he =>
    by_cases hn : block = noBlock
    · have hge : fd.fileBlocks ≤ block := by
        have := g.fileBlocks_le
        rw [hn, noBlock]
        omega
      exact ⟨fun hlt => absurd hlt (not_lt.mpr hge),
        fun _ => (keep (he ▸ hb)).2 hn (he ▸ hn)⟩
    · subst he
      exact hc hb hn
  | past _ hp => exact right_of_past hp
  | failed => exact absurd hresult (by decide)
  | same _ _ _ hlt _ hs => exact ⟨fun _ => hs.symm, fun hge => absurd hlt (not_lt.mpr hge)⟩
  | changed => exact absurd hresult (by decide)
  | first _ _ _ hlt => exact ⟨fun _ => if_pos rfl, fun hge => absurd hlt (not_lt.mpr hge)⟩

end Fetch

/-- Byte `v` at position `p` comes from the content whose hash is stored for its block. -/
def Served (sha256 : Bytes → SHA256Digest) (fd : FuseData σ) (p : ℕ) (v : UInt8) : Prop :=
  (u32 (p / fd.blockSize) < fd.fileBlocks → ∃ c : Buffer,
    fd.hashes (u32 (p / fd.blockSize)) = sha256 (window c 0 fd.blockSize) ∧
      v = c (p % fd.blockSize)) ∧
  (fd.fileBlocks ≤ u32 (p / fd.blockSize) → v = 0)

theorem Served.mono {fd fd' : FuseData σ} {p : ℕ} {v : UInt8} (h : Served sha256 fd p v)
    (hnz : ∀ m, IsRead (sha256 m)) (hg : Grows fd fd') : Served sha256 fd' p v := by
  obtain ⟨hin, hout⟩ := h
  obtain ⟨hbs, hfb, hh⟩ := hg
  unfold Served
  rw [hbs, hfb]
  refine ⟨?_, hout⟩
  intro hlt
  obtain ⟨c, hc, hv⟩ := hin hlt
  exact ⟨c, by rw [hh _ (by rw [hc]; exact hnz _), hc], hv⟩

theorem Served.unique {fd : FuseData σ} {p : ℕ} {v w : UInt8} (hinj : Function.Injective sha256)
    (hpos : 0 < fd.blockSize) (hv : Served sha256 fd p v) (hw : Served sha256 fd p w) : v = w := by
  rcases lt_or_ge (u32 (p / fd.blockSize)) fd.fileBlocks with hlt | hge
  · obtain ⟨c, hc, rfl⟩ := hv.1 hlt
    obtain ⟨d, hd, rfl⟩ := hw.1 hlt
    have he := window_eq_iff.mp (hinj (hc.symm.trans hd)) _ (Nat.mod_lt p hpos)
    simpa using he
  · rw [hv.2 hge, hw.2 hge]

theorem Right.served {fd : FuseData σ} {p i : ℕ} (hpos : 0 < fd.blockSize)
    (h : Right sha256 fd (u32 (p / fd.blockSize))) (hi : i = p % fd.blockSize) :
    Served sha256 fd p (fd.blockData i) := by
  subst hi
  refine ⟨fun hlt => ⟨fd.blockData, h.1 hlt, rfl⟩, fun hge => ?_⟩
  have hz := h.2 hge
  rw [← window_const (0 : UInt8) 0, window_eq_iff] at hz
  simpa using hz _ (Nat.mod_lt p hpos)

section Read
variable {fd fd' : FuseData σ} {req : ReadRequest} {reply : Except ℤ Bytes}

theorem Consistent.copy (h : Consistent sha256 fd) (off : ℕ) :
    Consistent sha256 (copyToExtra fd off) := h

theorem HoldsFile.copy {b : ℕ} (h : HoldsFile fd b) (off : ℕ) : HoldsFile (copyToExtra fd off) b :=
  h

theorem Fetched.holdsFile {block b : ℕ} {result : ℤ} (h : Fetched P sha256 fd block result fd')
    (hb : HoldsFile fd b) : HoldsFile fd' b := by
  unfold HoldsFile
  rwa [h.frame.1, h.frame.2.1]

theorem Grows.of_copy {off : ℕ} (h : Grows (copyToExtra fd off) fd') : Grows fd fd' := h

theorem Replied.grows (h : Replied P sha256 fd req reply fd') : Grows fd fd' := by
  cases h with
  | badNode => exact .refl fd
  | firstFailed _ _ _ h1 | oneBlock _ _ h1 => exact (fetched_of_eq h1).grows
  | secondFailed _ _ _ _ h1 _ h2 | twoBlocks _ _ _ h1 _ h2 =>
    exact (fetched_of_eq h1).grows.trans (fetched_of_eq h2).grows.of_copy

theorem Replied.consistent (h : Replied P sha256 fd req reply fd')
    (keep : ReadKeepsCache P sha256 fd req) (hc : Consistent sha256 fd) :
    Consistent sha256 fd' := by
  cases h with
  | badNode => exact hc
  | firstFailed _ _ hn h1 | oneBlock _ hn h1 => exact (fetched_of_eq h1).consistent (keep hn).1 hc
  | secondFailed fd1 _ _ hn h1 hone h2 | twoBlocks fd1 _ hn h1 hone h2 =>
    have hc1 := (fetched_of_eq h1).consistent (keep hn).1 hc
    exact (fetched_of_eq h2).consistent ((keep hn).2 fd1 h1 hone) (hc1.copy _)

/-- Every byte of a reply that lies in the file is a byte of the content stored for its block. -/
theorem Replied.served {bytes : Bytes} (h : Replied P sha256 fd req (.ok bytes) fd')
    (hnz : ∀ m, IsRead (sha256 m)) (keep : ReadKeepsCache P sha256 fd req)
    (hc : Consistent sha256 fd) (g : Geometry P fd) (hs : req.size ≤ fd.blockSize) {p : ℕ}
    (hp : req.offset ≤ p) (hp' : p < req.offset + req.size) (hfile : p < fd.fileSize) :
    ∃ v, bytes[p - req.offset]? = some v ∧ Served sha256 fd' p v := by
  have hpos : 0 < fd.blockSize := by have := g.le_blockSize; omega
  have hrem := Nat.mod_lt req.offset hpos
  have hoff := g.blockOffset_eq req
  obtain ⟨hsame, hnext⟩ := block_of_position hpos hp
  -- the first block is right after the first fetch, where the position is in it
  have hfirst : ∀ fd1, req.nodeid = packageFileId →
      fetchBlock P sha256 fd (blockOf fd req) = (0, fd1) →
      req.offset % fd.blockSize + (p - req.offset) < fd.blockSize →
      Served sha256 fd1 p (fd1.blockData (blockOffset fd req + (p - req.offset))) := by
    intro fd1 hn h1 hlt
    have f1 := fetched_of_eq h1
    have hb1 : fd1.blockSize = fd.blockSize := f1.frame.2.1
    have hblk : u32 (p / fd.blockSize) = blockOf fd req := by rw [(hsame hlt).1, blockOf]
    have hr := f1.right (keep hn).1 hc g ⟨p, hfile, hblk⟩
    rw [← hblk, ← hb1] at hr
    refine hr.served (by omega) ?_
    rw [hb1, hoff, (hsame hlt).2]
  cases h with
  | oneBlock _ hn h1 hone =>
    rw [g.end_eq hs] at hone
    exact ⟨_, window_getElem? _ _ _ _ (by omega), hfirst fd' hn h1 (by omega)⟩
  | twoBlocks fd1 _ hn h1 hone h2 =>
    have hsecond := (keep hn).2 fd1 h1 hone
    rw [g.end_eq hs] at hone
    have f1 := fetched_of_eq h1
    have f2 := fetched_of_eq h2
    have hb1 : fd1.blockSize = fd.blockSize := f1.frame.2.1
    have hb2 : fd'.blockSize = fd.blockSize := by
      rw [f2.frame.2.1, copyToExtra_blockSize, hb1]
    rcases lt_or_ge (p - req.offset) (fd.blockSize - blockOffset fd req) with hlt | hge
    · -- the byte was set aside in the second buffer
      refine ⟨_, by rw [List.getElem?_append_left (by simpa using hlt),
        window_getElem? _ _ _ _ hlt], ?_⟩
      rw [f2.frame.2.2.2, Nat.zero_add, copyToExtra_extraBlock (by rwa [hb1])]
      exact (hfirst fd1 hn h1 (by omega)).mono hnz f2.grows.of_copy
    · -- the byte is in the second block
      obtain ⟨hdiv, hmod⟩ := hnext (by omega) (by omega)
      have hblk : u32 (p / fd.blockSize) = u32 (blockOf fd req + 1) := by
        rw [hdiv, blockOf, u32_succ]
      have hholds := (f1.holdsFile ⟨p, hfile, hblk⟩).copy (blockOffset fd req)
      have hr :=
        f2.right hsecond ((f1.consistent (keep hn).1 hc).copy _) ((g.fetched f1).copy _) hholds
      rw [← hblk, ← hb2] at hr
      refine ⟨_, by rw [List.getElem?_append_right (by simp only [window_length]; omega),
        window_length, window_getElem? _ _ _ _ (by omega)], hr.served (by omega) ?_⟩
      rw [hb2, hmod]
      omega

end Read

theorem serveState_grows (fd : FuseData σ) (reqs : List ReadRequest) :
    Grows fd (serveState P sha256 fd reqs) := by
  induction reqs generalizing fd with
  | nil => exact .refl fd
  | cons req reqs ih => exact (handleRead_replied fd req).grows.trans (ih _)

/-- Every byte sent in a run comes from the content whose hash is stored when the run ends. -/
theorem serve_served {fd : FuseData σ} {reqs : List ReadRequest} (hnz : ∀ m, IsRead (sha256 m))
    (keep : ReadsKeepCache P sha256 fd reqs) (hc : Consistent sha256 fd) (g : Geometry P fd)
    (hs : ∀ req ∈ reqs, req.size ≤ fd.blockSize) {req : ReadRequest} {bytes : Bytes}
    (h : (req, .ok bytes) ∈ serve P sha256 fd reqs) {p : ℕ} (hp : req.offset ≤ p)
    (hp' : p < req.offset + req.size) (hfile : p < fd.fileSize) :
    ∃ v, bytes[p - req.offset]? = some v ∧ Served sha256 (serveState P sha256 fd reqs) p v := by
  induction reqs generalizing fd with
  | nil => cases h
  | cons req' reqs ih =>
    have hr : Replied P sha256 fd req' _ _ := handleRead_replied fd req'
    obtain ⟨keep1, keep2⟩ := keep
    rcases List.mem_cons.mp h with he | ht
    · obtain ⟨rfl, he⟩ := Prod.mk.inj he
      rw [← he] at hr
      obtain ⟨v, hv, hserved⟩ := hr.served hnz keep1 hc g (hs req List.mem_cons_self) hp hp' hfile
      exact ⟨v, hv, hserved.mono hnz (serveState_grows _ _)⟩
    · have g' := g.replied hr
      have hbs : (handleRead P sha256 fd req').2.blockSize = fd.blockSize := hr.grows.1
      refine ih keep2 (hr.consistent keep1 hc) g' ?_ ht ?_
      · intro r hr'
        rw [hbs]
        exact hs r (List.mem_cons_of_mem _ hr')
      · rwa [g'.fileSize, ← g.fileSize]

/-- Any two successful replies have the same byte wherever both cover a byte of the file. -/
def RepliesAgree (P : FuseDataProvider σ) (sha256 : Bytes → SHA256Digest) (fd : FuseData σ)
    (reqs : List ReadRequest) : Prop :=
  ∀ req₁ req₂ bytes₁ bytes₂, (req₁, .ok bytes₁) ∈ serve P sha256 fd reqs →
    (req₂, .ok bytes₂) ∈ serve P sha256 fd reqs →
    ∀ p < P.fileSize, req₁.offset ≤ p → p < req₁.offset + req₁.size →
      req₂.offset ≤ p → p < req₂.offset + req₂.size →
      ∃ v, bytes₁[p - req₁.offset]? = some v ∧ bytes₂[p - req₂.offset]? = some v

/-- The provider may change what it returns from call to call: the file read through the mount
does not change, unless a failed call spoils the cached block. -/
theorem repliesAgree_of_readsKeepCache (hinj : Function.Injective sha256)
    (hnz : ∀ m, IsRead (sha256 m)) {s : σ} {blockData extraBlock : Buffer} {fd : FuseData σ}
    (hstart : start P s blockData extraBlock = some fd) {reqs : List ReadRequest}
    (hs : ∀ req ∈ reqs, req.size ≤ P.fuseBlockSize) (keep : ReadsKeepCache P sha256 fd reqs) :
    RepliesAgree P sha256 fd reqs := by
  intro req₁ req₂ bytes₁ bytes₂ h₁ h₂ p hp hp₁ hp₁' hp₂ hp₂'
  have g := geometry_start hstart
  have hc : Consistent sha256 fd := fun _ hne => absurd (currBlock_start hstart) hne
  have hs' : ∀ req ∈ reqs, req.size ≤ fd.blockSize := by rwa [g.blockSize]
  obtain ⟨v, hv, hserved⟩ := serve_served hnz keep hc g hs' h₁ hp₁ hp₁' (by rwa [g.fileSize])
  obtain ⟨w, hw, hserved'⟩ := serve_served hnz keep hc g hs' h₂ hp₂ hp₂' (by rwa [g.fileSize])
  have hpos : 0 < (serveState P sha256 fd reqs).blockSize := by
    rw [(serveState_grows fd reqs).1]
    have := g.le_blockSize
    omega
  exact ⟨v, hv, hserved.unique hinj hpos hserved' ▸ hw⟩

/-- A digest that keeps the whole block. -/
def tagged (m : Bytes) : SHA256Digest := 1 :: m

/-- Two blocks of zeroes; the host stops half way through the second one. -/
def stalling : FuseDataProvider Unit where
  fileSize := 8192
  fuseBlockSize := 4096
  readBlockAlignedData _ buf n b :=
    ((), fun i => if i < n then (if b = 0 then 0 else 255) else buf i, b == 0)
  frame := by
    intro s buf n b i hi
    exact if_neg (not_lt.mpr hi)

def readAt (offset : ℕ) : ReadRequest := ⟨packageFileId, offset, 1⟩

def stallingStart : FuseData Unit where
  provider := ()
  fileSize := 8192
  blockSize := 4096
  fileBlocks := 2
  currBlock := noBlock
  blockData := fun _ => 7
  extraBlock := fun _ => 7
  hashes := fun _ => List.replicate 32 0

theorem tagged_ne (m : Bytes) : tagged m ≠ List.replicate 32 0 := by
  intro h
  cases congrArg List.head? h

/-- The state after the first byte of the file was read. -/
def stallingCached : FuseData Unit :=
  { stallingStart with
    currBlock := 0
    blockData := fun i => if i < 4096 then 0 else 7
    hashes := fun b => if b = 0 then tagged (window (fun i => if i < 4096 then 0 else 7) 0 4096)
      else List.replicate 32 0 }

/-- The state after block 1 failed to arrive. -/
def stallingSpoiled : FuseData Unit :=
  { stallingCached with
    blockData := fun i => if i < 4096 then 255 else 7 }

theorem blockOf_readAt_zero (fd : FuseData Unit) : blockOf fd (readAt 0) = 0 := by
  simp [blockOf, readAt, u32]

theorem blockOffset_readAt_zero (fd : FuseData Unit) : blockOffset fd (readAt 0) = 0 := by
  rw [blockOffset, blockOf_readAt_zero]
  simp [readAt, u32]

theorem readAt_zero_oneBlock {fd : FuseData Unit} (hbs : fd.blockSize = 4096) :
    u32 ((readAt 0).size + blockOffset fd (readAt 0)) ≤ fd.blockSize := by
  rw [blockOffset_readAt_zero, hbs]
  simp [readAt, u32]

theorem stalling_read_zero {fd fd1 : FuseData Unit} (hbs : fd.blockSize = 4096)
    (h : fetchBlock stalling tagged fd 0 = (0, fd1)) :
    handleRead stalling tagged fd (readAt 0) = (.ok [fd1.blockData 0], fd1) := by
  rw [handleRead_oneBlock fd (readAt 0) rfl (by rwa [blockOf_readAt_zero])
    (readAt_zero_oneBlock hbs), blockOffset_readAt_zero]
  rfl

theorem stalling_first_read :
    handleRead stalling tagged stallingStart (readAt 0) = (.ok [0], stallingCached) :=
  stalling_read_zero rfl <| (fetchBlock_received (by decide) (by decide) rfl).trans
    (verifyHash_first (tagged_ne _) (by decide))

theorem stalling_failed_read :
    handleRead stalling tagged stallingCached (readAt 4096) = (.error (-eio), stallingSpoiled) := by
  have hread : stalling.readBlockAlignedData stallingCached.provider (padded stallingCached 1)
      (fetchSize stallingCached 1) 1 = ((), stallingSpoiled.blockData, false) := by
    refine Prod.ext rfl (Prod.ext (funext fun i => ?_) rfl)
    -- block 0 is in the buffer, and what arrives is written over it
    show (if i < 4096 then 255 else if i < 4096 then 0 else 7) = if i < 4096 then 255 else 7
    split_ifs <;> rfl
  have h : fetchBlock stalling tagged stallingCached 1 = (-eio, stallingSpoiled) :=
    fetchBlock_failed (by decide) (by decide) hread
  rw [handleRead, if_neg (by decide)]
  simp only [show blockOf stallingCached (readAt 4096) = 1 by decide, h]
  rfl

theorem stalling_spoiled_read :
    handleRead stalling tagged stallingSpoiled (readAt 0) = (.ok [255], stallingSpoiled) :=
  stalling_read_zero rfl (fetchBlock_cached rfl)

theorem serve_stalling :
    serve stalling tagged stallingStart [readAt 0, readAt 4096, readAt 0] =
      [(readAt 0, .ok [0]), (readAt 4096, .error (-eio)), (readAt 0, .ok [255])] := by
  simp only [serve, stalling_first_read, stalling_failed_read, stalling_spoiled_read]

/-- A failed read of block 1 in between changes the first byte of the file. -/
theorem stalling_replies_differ :
    start stalling () (fun _ => 7) (fun _ => 7) = some stallingStart ∧
      ¬RepliesAgree stalling tagged stallingStart [readAt 0, readAt 4096, readAt 0] := by
  refine ⟨rfl, fun h => ?_⟩
  obtain ⟨v, h0, h255⟩ := h (readAt 0) (readAt 0) [0] [255] (by simp [serve_stalling])
    (by simp [serve_stalling]) 0 (by decide) (by decide) (by decide) (by decide) (by decide)
  cases h0
  cases h255

/-- Without the failed read, the condition holds and the two replies agree. -/
theorem stalling_cached_replies_agree :
    RepliesAgree stalling tagged stallingStart [readAt 0, readAt 0] := by
  have hinj : Function.Injective tagged := fun m m' h => (List.cons.inj h).2
  have hkeep : ∀ fd, fd.blockSize = 4096 → FetchKeepsCache stalling fd 0 →
      ReadKeepsCache stalling tagged fd (readAt 0) := by
    intro fd hbs h _
    rw [blockOf_readAt_zero]
    exact ⟨h, fun _ _ hone => absurd (readAt_zero_oneBlock hbs) hone⟩
  have hs : ∀ req ∈ [readAt 0, readAt 0], req.size ≤ stalling.fuseBlockSize := by
    simp [readAt, stalling]
  have hstart : start stalling () (fun _ => 7) (fun _ => 7) = some stallingStart := rfl
  refine repliesAgree_of_readsKeepCache hinj (fun _ => rfl) hstart hs
    ⟨hkeep _ rfl ?_, ?_, trivial⟩
  · rintro ⟨p, hp, hb⟩
    simp only [stallingStart, noBlock, u32] at hp hb
    omega
  · rw [stalling_first_read]
    exact hkeep _ rfl fun _ => ⟨fun _ _ hne => absurd rfl hne, fun hn => by cases hn⟩

end BootableRecovery.FuseSideload
