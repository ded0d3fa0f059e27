import BootableRecovery.Adbbu.BackupRun
import BootableRecovery.Adbbu.RestoreBlocks

namespace BootableRecovery.Adbbu

/-! `restore` on the stream of `backup`. -/

variable (sums : Checksums)

/-- What the messages of TWRP are while it restores `f`: nothing, or TWEOF when it has the file. -/
def Polite (f : AdbFile) (accepts : ℕ → Bool) : List (Option Bytes) → Restore → Prop
  | [], _ => True
  | cmd :: cmds, s =>
    (cmd = none ∨ cmd.map getType = some TWEOF ∧
        f.payload.length ≤ maxAdbRead * s.data.length) ∧
      Polite f accepts cmds (s.step sums accepts cmd)

/-- TWRP keeps the data fifo open until it has the file. -/
def TakesPayload (f : AdbFile) (accepts : ℕ → Bool) : Prop :=
  ∀ n, maxAdbRead * n < f.payload.length → accepts n = true

/-- TWRP has the payload, followed by zeros, and finds one digest in the trailer and in the answer
of `restore`. -/
structure Restored (f : AdbFile) (control rest : List Bytes) (t : Restore) : Prop where
  status : t.status = .running
  stream : t.stream = rest
  delivered : ∃ n, t.data.flatten = f.payload ++ zeros n
  checked : ∃ trailer md5, t.control = control ++ [f.header sums, trailer, md5] ∧
    getType trailer = MD5TRAILER ∧ getType md5 = TWMD5 ∧
      (trailer.drop 32).take 40 = (md5.drop 32).take 40

/-- However TWRP takes the file, the passes of the loop come to the end of it. -/
def Inverts (f : AdbFile) (rest : List Bytes) (s : Restore) : Prop :=
  ∀ accepts cmds, TakesPayload f accepts → Polite sums f accepts cmds (s.step sums accepts none) →
    s.stream.length ≤ cmds.length →
      ∃ k, Restored sums f s.control rest (s.run sums accepts (none :: cmds.take k))

/-- No block of the payload has the type of a trailer. -/
def NoTrailerBlock (payload : Bytes) : Prop :=
  ∀ m, getType ((payload.drop (maxAdbRead * m)).take maxAdbRead) ≠ MD5TRAILER

section trailer

theorem getType_md5Trailer (size : ℕ) (digested : Bytes) :
    getType (md5Trailer sums size digested) = MD5TRAILER := by
  simp only [md5Trailer, List.append_assoc]
  exact getType_startOf (by decide) (by decide) _

theorem identMatches_md5Trailer (size : ℕ) (digested : Bytes) :
    Restore.identMatches sums size (md5Trailer sums size digested) = true ∧
      crcMatches sums 24 ((md5Trailer sums size digested).take 28 ++ zeros 4 ++
        (md5Trailer sums size digested).drop 32) = true := by
  simp only [md5Trailer]
  generalize hfields : charField 40 (sums.md5 digested) ++ zeros 440 = fields
  generalize hcrc : wordField 4 (sums.crc32 (startOf MD5TRAILER ++ zeros 8 ++ fields)).toNat = crc
  have hstart := startOf_length MD5TRAILER
  have hcrclen : crc.length = 4 := by rw [← hcrc, wordField_length]
  have hident :
      ∀ ident : UInt32, ((startOf MD5TRAILER ++ crc ++ wordField 4 ident.toNat ++ fields).drop
      28).take 4 = wordField 4 ident.toNat := by
    intro ident
    rw [List.append_assoc, List.drop_left' (by rw [List.length_append, hstart, hcrclen]),
      List.take_left' (wordField_length 4 _)]
  have htake : ∀ ident : UInt32, (startOf MD5TRAILER ++ crc ++ wordField 4 ident.toNat ++
      fields).take 28 = startOf MD5TRAILER ++ crc := by
    intro ident
    rw [List.append_assoc, List.take_left' (by rw [List.length_append, hstart, hcrclen])]
  have hdrop : ∀ ident : UInt32, (startOf MD5TRAILER ++ crc ++ wordField 4 ident.toNat ++
      fields).drop 32 = fields := by
    intro ident
    refine List.drop_left' ?_
    rw [List.length_append, List.length_append, hstart, hcrclen, wordField_length]
  constructor
  · rw [Restore.identMatches, hident, htake, hdrop, readWord_wordField, decide_eq_true_eq]
    exact Nat.mod_eq_of_lt (UInt32.toNat_lt _)
  · rw [htake, hdrop]
    have hzeros : zeros 8 = zeros 4 ++ zeros 4 := rfl
    have hblock : startOf MD5TRAILER ++ crc ++ zeros 4 ++ fields =
        withCrc sums (startOf MD5TRAILER) (zeros 4 ++ fields) := by
      rw [withCrc, ← hcrc, hzeros]
      simp only [List.append_assoc]
    rw [hblock, ← hstart]
    exact crcMatches_withCrc sums _ _

theorem checkMD5Trailer_md5Trailer (size : ℕ) (digested restored : Bytes) :
    Restore.checkMD5Trailer sums size restored (md5Trailer sums size digested) =
      some [clearTrailer (md5Trailer sums size digested), Restore.md5Block sums restored] := by
  obtain ⟨hident, hcrc⟩ := identMatches_md5Trailer sums size digested
  rw [Restore.checkMD5Trailer, if_pos hident]
  dsimp only
  rw [if_pos hcrc]

theorem getType_md5Block (digested : Bytes) : getType (Restore.md5Block sums digested) = TWMD5 := by
  rw [Restore.md5Block, List.append_assoc]
  exact getType_startOf (by decide) (by decide) _

theorem md5Block_md5 (digested : Bytes) :
    ((Restore.md5Block sums digested).drop 32).take 40 = charField 40 (sums.md5 digested) := by
  have hlen : (startOf TWMD5 ++ zeros 8).length = 32 := by
    rw [List.length_append, startOf_length]
    rfl
  rw [Restore.md5Block, List.drop_left' hlen, List.take_left' (charField_length 40 _)]

theorem clearTrailer_spec {block : Bytes} (h : 32 ≤ block.length) :
    getType (clearTrailer block) = getType block ∧
      (clearTrailer block).drop 32 = block.drop 32 := by
  have htake : (block.take 24).length = 24 := by
    rw [List.length_take]
    omega
  constructor
  · rw [getType, getType, clearTrailer, List.append_assoc, List.drop_append_of_le_length (by omega),
      List.take_append_of_le_length (by rw [List.length_drop]; omega), List.drop_take,
      List.take_take]
    rfl
  · refine List.drop_left' ?_
    rw [List.length_append, htake]
    rfl

end trailer

section zeros

theorem mem_zeros {n : ℕ} {b : UInt8} (h : b ∈ zeros n) : b = 0 := List.eq_of_mem_replicate h

/-- Behind the payload there is padding only. -/
theorem payload_split {read left payload : Bytes} {n : ℕ} (h : read ++ left = payload ++ zeros n)
    (hlen : payload.length ≤ read.length) :
    (∃ m, read = payload ++ zeros m) ∧ ∀ b ∈ left, b = 0 := by
  obtain ⟨extra, hread, hzeros⟩ : ∃ extra, read = payload ++ extra ∧ zeros n = extra ++ left := by
    rcases List.append_eq_append_iff.mp h with ⟨extra, hpayload, hleft⟩ | hsplit
    · have hnil : extra = [] := by
        refine List.eq_nil_of_length_eq_zero ?_
        rw [hpayload, List.length_append] at hlen
        omega
      subst hnil
      rw [List.append_nil] at hpayload
      exact ⟨[], by rw [hpayload, List.append_nil], hleft.symm⟩
    · exact hsplit
  constructor
  · refine ⟨extra.length, ?_⟩
    have hextra : extra = zeros extra.length := List.eq_replicate_of_mem fun b hb =>
      mem_zeros (hzeros ▸ List.mem_append_left left hb)
    rw [hread, ← hextra]
  · intro b hb
    exact mem_zeros (hzeros ▸ List.mem_append_right extra hb)

theorem getType_zeros {block : Bytes} (h : ∀ b ∈ block, b = 0) : getType block = [] := by
  have hfield : ∀ b ∈ (block.drop 8).take 15, b = 0 :=
    fun b hb => h b (List.mem_of_mem_drop (List.mem_of_mem_take hb))
  rw [getType]
  cases hcase : (block.drop 8).take 15 with
  | nil => rfl
  | cons b bs =>
    rw [hcase] at hfield
    rw [List.takeWhile_cons_of_neg]
    rw [hfield b List.mem_cons_self]
    decide

theorem getType_append_zeros (block : Bytes) (n : ℕ) :
    getType (block ++ zeros n) = getType block := by
  have hwhile : ∀ (l : Bytes) (m : ℕ), (l ++ zeros m).takeWhile (fun b => b != 0) =
      l.takeWhile fun b => b != 0 := by
    intro l m
    rw [List.takeWhile_append]
    split_ifs with hall
    · have hnil : (zeros m).takeWhile (fun b => b != 0) = [] := by
        cases m <;> rfl
      rw [hnil, List.append_nil]
      exact (List.takeWhile_prefix _).eq_of_length hall |>.symm
    · rfl
  rw [getType, getType, List.drop_append, List.take_append, zeros, List.drop_replicate,
    List.take_replicate]
  exact hwhile _ _

/-- A block of the payload, read from the padded payload. -/
theorem getType_block (payload : Bytes) (n m : ℕ) :
    getType (((payload ++ zeros n).drop (maxAdbRead * m)).take maxAdbRead) =
      getType ((payload.drop (maxAdbRead * m)).take maxAdbRead) := by
  rw [List.drop_append, List.take_append, zeros, List.drop_replicate, List.take_replicate]
  exact getType_append_zeros _ _

end zeros

/-- Inside of a file: the loop has digested `digested` and goes on at `stream`. -/
structure Reading (f : AdbFile) (control : List Bytes) (digested : Bytes) (stream : List Bytes)
    (t : Restore) : Prop where
  status : t.status = .running
  readFromAdb : t.readFromAdb = true
  control : t.control = control ++ [f.header sums]
  digested : t.digested = digested
  md5fnsize : t.md5fnsize = headerSize (f.header sums)
  stream : t.stream = stream

/-- At the start of a chunk TWRP has all that was read of the file. -/
structure AtChunk (f : AdbFile) (control : List Bytes) (sent stream : List Bytes) (t : Restore) :
    Prop where
  reading : Reading sums f control sent.flatten stream t
  data : t.data = sent
  fifoOpen : t.fifoOpen = true
  dataChunkBytes : t.dataChunkBytes = 0

/-- The end of a file is ahead: the payload has gone to TWRP, and what is left of it is padding. -/
def Ends (f : AdbFile) (control rest : List Bytes) (accepts : ℕ → Bool)
    (cmds : List (Option Bytes)) (t : Restore) : Prop :=
  Polite sums f accepts cmds t → t.stream.length ≤ cmds.length →
    ∃ k, Restored sums f control rest (t.run sums accepts (cmds.take k))

section reading
variable {sums} {f : AdbFile} {control : List Bytes} {digested : Bytes}
  {stream rest : List Bytes} {block : Bytes} {t : Restore} {accepts : ℕ → Bool}
  {cmd : Option Bytes}

/-- A message of a polite TWRP leaves the loop where it is. -/
theorem Reading.onControl (h : Reading sums f control digested stream t)
    (hcmd : cmd = none ∨ cmd.map getType = some TWEOF) :
    Reading sums f control digested stream (t.onControl cmd) ∧
      (t.onControl cmd).data = t.data ∧ (t.onControl cmd).md5sumdata = t.md5sumdata := by
  rcases hcmd with rfl | hcmd
  · exact ⟨h, rfl, rfl⟩
  · rw [Restore.onControl, hcmd]
    dsimp only
    rw [if_pos rfl]
    exact ⟨⟨h.status, rfl, h.control, h.digested, h.md5fnsize, h.stream⟩, rfl, rfl⟩

theorem Reading.step (h : Reading sums f control digested (block :: rest) t)
    (hcmd : cmd = none ∨ cmd.map getType = some TWEOF) :
    t.step sums accepts cmd =
      { t.onControl cmd with stream := rest }.onBlock sums accepts block := by
  have hnext := (h.onControl hcmd).1
  rw [Restore.step, if_neg (not_not.mpr h.status)]
  dsimp only
  rw [if_neg, hnext.stream]
  rw [hnext.status, hnext.readFromAdb]
  simp

/-- The trailer ends the file. -/
theorem Reading.onTrailer
    (h : Reading sums f control (f.padded sums)
      (md5Trailer sums (headerSize (f.header sums)) (f.padded sums) :: rest) t)
    (hcmd : cmd = none ∨ cmd.map getType = some TWEOF)
    (hdata : ∃ n, t.data.flatten = f.payload ++ zeros n) :
    Restored sums f control rest (t.step sums accepts cmd) := by
  obtain ⟨hnext, hdata', -⟩ := h.onControl hcmd
  rw [h.step hcmd]
  generalize t.onControl cmd = u at hnext hdata'
  rw [Restore.onBlock, getType_md5Trailer]
  dsimp only
  rw [if_neg (by decide), if_neg (by decide), if_neg (by decide), if_neg (by decide), if_pos rfl,
    Restore.onTrailer]
  have hcheck : ∀ v : Restore, v.md5fnsize = u.md5fnsize → v.digested = u.digested →
      Restore.checkMD5Trailer sums v.md5fnsize v.digested
        (md5Trailer sums (headerSize (f.header sums)) (f.padded sums)) =
          some [clearTrailer (md5Trailer sums (headerSize (f.header sums)) (f.padded sums)),
            Restore.md5Block sums (f.padded sums)] := by
    intro v hsize hdigested
    rw [hsize, hdigested, hnext.md5fnsize, hnext.digested]
    exact checkMD5Trailer_md5Trailer sums _ _ _
  have hlen : 32 ≤ (md5Trailer sums (headerSize (f.header sums)) (f.padded sums)).length := by
    rw [md5Trailer_length]
    decide
  obtain ⟨htype, hfields⟩ := clearTrailer_spec hlen
  have hmessages : u.control ++
      [clearTrailer (md5Trailer sums (headerSize (f.header sums)) (f.padded sums)),
        Restore.md5Block sums (f.padded sums)] = control ++ [f.header sums,
          clearTrailer (md5Trailer sums (headerSize (f.header sums)) (f.padded sums)),
          Restore.md5Block sums (f.padded sums)] := by
    rw [hnext.control, List.append_assoc]
    rfl
  have hmd5 : ((clearTrailer (md5Trailer sums (headerSize (f.header sums)) (f.padded sums))).drop
      32).take 40 = ((Restore.md5Block sums (f.padded sums)).drop 32).take 40 := by
    rw [hfields, md5Trailer_md5, md5Block_md5]
  have hend : ∀ v : Restore, v.status = u.status → v.control = u.control → v.data = u.data →
      v.stream = rest → Restored sums f control rest { v with control := v.control ++
        [clearTrailer (md5Trailer sums (headerSize (f.header sums)) (f.padded sums)),
          Restore.md5Block sums (f.padded sums)] } := by
    intro v hstatus hcontrol hvdata hstream
    refine ⟨hstatus.trans hnext.status, hstream, ?_, _, _, (congrArg (· ++ _) hcontrol).trans
      hmessages, htype.trans (getType_md5Trailer sums _ _), getType_md5Block sums _, hmd5⟩
    change ∃ n, v.data.flatten = _
    rw [hvdata, hdata']
    exact hdata
  dsimp only
  split_ifs <;> rw [hcheck _ rfl rfl] <;> exact hend _ rfl rfl rfl rfl

/-- The data loop on the blocks of a chunk: it sends all of them on, or all before the first one
that TWRP does not take. -/
theorem dataLoop_blocks (sums : Checksums) (accepts : ℕ → Bool) (rest : List Bytes) (s : Restore)
    {blocks : List Bytes} (hne : blocks ≠ [])
    (hplain : ∀ b ∈ blocks, getType b ≠ MD5TRAILER) (hfifo : s.fifoOpen = true)
    (hroom : s.dataChunkBytes + maxAdbRead * blocks.length = dataMaxChunkSize) :
    (∃ bytes, s.dataLoop sums accepts (blocks ++ rest) = { s with
        stream := rest, dataChunkBytes := 0, fileBytes := bytes
        digested := s.digested ++ blocks.flatten, readFromAdb := true
        data := s.data ++ blocks, md5sumdata := false }) ∨
      ∃ before b after chunkBytes bytes, blocks = before ++ b :: after ∧
        accepts (s.data.length + before.length) = false ∧
        s.dataLoop sums accepts (blocks ++ rest) = { s with
          stream := after ++ rest, dataChunkBytes := chunkBytes, fileBytes := bytes
          digested := s.digested ++ (before ++ [b]).flatten, readFromAdb := true
          data := s.data ++ before, md5sumdata := true } := by
  induction blocks generalizing s with
  | nil => exact absurd rfl hne
  | cons b blocks ih =>
    have hb := hplain b List.mem_cons_self
    rw [List.length_cons, Nat.mul_succ] at hroom
    rw [List.cons_append, Restore.dataLoop]
    dsimp only
    have hwrite : (s.fifoOpen && accepts s.data.length) = accepts s.data.length := by
      rw [hfifo, Bool.true_and]
    rw [if_neg hb, hwrite]
    by_cases haccepts : accepts s.data.length = false
    · rw [if_pos haccepts]
      refine .inr ⟨[], b, blocks, s.dataChunkBytes + maxAdbRead, s.fileBytes + maxAdbRead, rfl,
        haccepts, ?_⟩
      rw [List.nil_append, List.flatten_singleton, List.append_nil]
    · rw [if_neg haccepts]
      by_cases hlast : blocks = []
      · subst hlast
        rw [List.length_nil, Nat.mul_zero, Nat.zero_add] at hroom
        rw [if_pos hroom, List.flatten_singleton]
        exact .inl ⟨s.fileBytes + maxAdbRead, rfl⟩
      · have hpos := List.length_pos_iff.mpr hlast
        have hmul : 0 < maxAdbRead * blocks.length := Nat.mul_pos (by decide) hpos
        rw [if_neg (by omega)]
        rcases ih (s := { s with
            stream := blocks ++ rest, dataChunkBytes := s.dataChunkBytes + maxAdbRead
            fileBytes := s.fileBytes + maxAdbRead, digested := s.digested ++ b
            readFromAdb := true, data := s.data ++ [b] }) hlast
            (fun c hc => hplain c (List.mem_cons_of_mem _ hc)) hfifo
            (by dsimp only; omega) with ⟨bytes, hloop⟩ |
          ⟨before, c, after, chunkBytes, bytes, hblocks, hrefused, hloop⟩
        · refine .inl ⟨bytes, hloop.trans ?_⟩
          simp only [List.flatten_cons, List.append_assoc, List.singleton_append]
        · refine .inr ⟨b :: before, c, after, chunkBytes, bytes, by rw [hblocks]; rfl, ?_,
            hloop.trans ?_⟩
          · have hlen : s.data.length + (b :: before).length =
                (s.data ++ [b]).length + before.length := by
              rw [List.length_append, List.length_singleton, List.length_cons]
              omega
            rw [hlen]
            exact hrefused
          · simp only [List.cons_append, List.nil_append, List.flatten_cons, List.append_assoc]

/-- A pass of the loop brings the end nearer. -/
theorem ends_step {cmds : List (Option Bytes)}
    (hstream : t.stream.length = stream.length + 1)
    (hstep : ∀ cmd, (cmd = none ∨ cmd.map getType = some TWEOF ∧
        f.payload.length ≤ maxAdbRead * t.data.length) →
      (t.step sums accepts cmd).stream.length ≤ stream.length ∧
        ∀ cmds, Ends sums f control rest accepts cmds (t.step sums accepts cmd)) :
    Ends sums f control rest accepts cmds t := by
  intro hpolite hlen
  cases cmds with
  | nil =>
    rw [List.length_nil] at hlen
    omega
  | cons cmd cmds =>
    obtain ⟨hcmd, hpolite⟩ := hpolite
    obtain ⟨hle, hends⟩ := hstep cmd hcmd
    obtain ⟨k, hk⟩ := hends cmds hpolite (by rw [List.length_cons] at hlen; omega)
    exact ⟨k + 1, hk⟩

/-- `Ends` at the trailer. -/
theorem Reading.ends_trailer {cmds : List (Option Bytes)}
    (h : Reading sums f control (f.padded sums)
      (md5Trailer sums (headerSize (f.header sums)) (f.padded sums) :: rest) t)
    (hdata : ∃ n, t.data.flatten = f.payload ++ zeros n) :
    Ends sums f control rest accepts cmds t := by
  intro hpolite hlen
  cases cmds with
  | nil =>
    rw [h.stream] at hlen
    exact absurd hlen (Nat.not_succ_le_zero _)
  | cons cmd cmds =>
    obtain ⟨hcmd, -⟩ := hpolite
    exact ⟨1, h.onTrailer (hcmd.imp_right And.left) hdata⟩

/-- The padding that TWRP no longer takes goes to the digest. -/
theorem Reading.ends_padding {left : List Bytes} {cmds : List (Option Bytes)}
    (h : Reading sums f control digested
      (left ++ md5Trailer sums (headerSize (f.header sums)) (f.padded sums) :: rest) t)
    (hleft : ∀ b ∈ left, getType b = []) (hdigested : digested ++ left.flatten = f.padded sums)
    (hdata : ∃ n, t.data.flatten = f.payload ++ zeros n) (hmd5 : t.md5sumdata = true) :
    Ends sums f control rest accepts cmds t := by
  induction left generalizing t digested cmds with
  | nil =>
    rw [List.flatten_nil, List.append_nil] at hdigested
    rw [hdigested] at h
    exact h.ends_trailer hdata
  | cons b left ih =>
    rw [List.flatten_cons, ← List.append_assoc] at hdigested
    rw [List.cons_append] at h
    refine ends_step (congrArg List.length h.stream) fun cmd hcmd => ?_
    have hcmd := hcmd.imp_right And.left
    obtain ⟨hnext, hdata', hmd5'⟩ := h.onControl hcmd
    rw [h.step hcmd]
    generalize t.onControl cmd = u at hnext hdata' hmd5'
    have hblock : { u with
        stream := left ++ md5Trailer sums (headerSize (f.header sums)) (f.padded sums) :: rest
        }.onBlock sums accepts b = { u with
        stream := left ++ md5Trailer sums (headerSize (f.header sums)) (f.padded sums) :: rest
        digested := digested ++ b } := by
      rw [Restore.onBlock, hleft b List.mem_cons_self]
      dsimp only
      rw [if_neg (by decide), if_neg (by decide), if_neg (by decide), if_neg (by decide),
        if_neg (by decide), if_neg (by decide), if_pos (hmd5'.trans hmd5), hnext.digested]
    rw [hblock]
    refine ⟨le_rfl, fun cmds => ih ?_ (fun c hc => hleft c (List.mem_cons_of_mem _ hc)) hdigested ?_
      (hmd5'.trans hmd5)⟩
    · exact ⟨hnext.status, hnext.readFromAdb, hnext.control, rfl, hnext.md5fnsize, rfl⟩
    · obtain ⟨n, hn⟩ := hdata
      exact ⟨n, (congrArg List.flatten hdata').trans hn⟩

/-- The padding is shorter than a chunk. -/
theorem padding_lt (sums : Checksums) (f : AdbFile) : f.padding sums < chunkData := by
  have hlt := Nat.mod_lt f.payload.length (by decide : 0 < chunkData)
  rw [padding_eq]
  split_ifs <;> omega

theorem Restore.onBlock_data (s : Restore) : s.onBlock sums accepts (dataHeader sums) =
    Restore.dataLoop sums accepts s.stream
      { s with dataChunkBytes := s.dataChunkBytes + maxAdbRead } := by
  rw [Restore.onBlock, dataHeader, getType_controlBlock (by decide) (by decide)]
  rw [if_neg (by decide), if_neg (by decide), if_neg (by decide), if_neg (by decide),
    if_neg (by decide), if_pos rfl]

/-- A chunk goes to TWRP as a whole, or the payload ends in it. -/
theorem AtChunk.step (accepts : ℕ → Bool) {sent chunk : List Bytes}
    (h : AtChunk sums f control sent (dataHeader sums :: (chunk ++ stream)) t)
    (hlen : chunk.length = chunkBlocks) (hplain : ∀ b ∈ chunk, getType b ≠ MD5TRAILER) :
    AtChunk sums f control (sent ++ chunk) stream (t.step sums accepts none) ∨
      ∃ before b after, chunk = before ++ b :: after ∧
        accepts (sent.length + before.length) = false ∧
        (t.step sums accepts none).data = sent ++ before ∧
        (t.step sums accepts none).md5sumdata = true ∧
        Reading sums f control (sent ++ before ++ [b]).flatten (after ++ stream)
          (t.step sums accepts none) := by
  have hstep : t.step sums accepts none =
      { t with stream := chunk ++ stream, dataChunkBytes := maxAdbRead }.dataLoop sums accepts
        (chunk ++ stream) := by
    rw [h.reading.step (.inl rfl), Restore.onBlock_data]
    dsimp only [Restore.onControl, Option.map_none]
    rw [h.dataChunkBytes, Nat.zero_add]
  have hne : chunk ≠ [] := by
    rintro rfl
    exact absurd hlen (by decide)
  have hfull : maxAdbRead + maxAdbRead * chunkBlocks = dataMaxChunkSize := by decide
  rw [← hlen] at hfull
  rw [hstep]
  rcases dataLoop_blocks sums accepts stream
      { t with stream := chunk ++ stream, dataChunkBytes := maxAdbRead } hne hplain h.fifoOpen
      hfull with
    ⟨bytes, hloop⟩ | ⟨before, b, after, chunkBytes, bytes, hchunk, hrefused, hloop⟩
  · refine .inl ?_
    rw [hloop]
    refine ⟨⟨h.reading.status, rfl, h.reading.control, ?_, h.reading.md5fnsize, rfl⟩, ?_,
      h.fifoOpen, rfl⟩
    · rw [List.flatten_append, ← h.reading.digested]
    · rw [← h.data]
  · refine .inr ⟨before, b, after, hchunk, ?_, ?_, ?_, ?_⟩
    · rw [← h.data]
      exact hrefused
    · rw [hloop, ← h.data]
    · rw [hloop]
    · rw [hloop]
      refine ⟨h.reading.status, rfl, h.reading.control, ?_, h.reading.md5fnsize, rfl⟩
      have hflat : (sent ++ before ++ [b]).flatten = sent.flatten ++ (before ++ [b]).flatten := by
        rw [List.append_assoc, List.flatten_append]
      rw [hflat, ← h.reading.digested]

/-- From the start of a chunk on the loop comes to the end of the file. -/
theorem AtChunk.ends (cmds : List (Option Bytes)) {sent : List Bytes} {chunks : List (List Bytes)}
    (h : AtChunk sums f control sent ((chunks.flatMap fun chunk => dataHeader sums :: chunk) ++
      md5Trailer sums (headerSize (f.header sums)) (f.padded sums) :: rest) t)
    (htakes : TakesPayload f accepts) (hsent : Whole sent)
    (hchunks : ∀ chunk ∈ chunks, chunk.length = chunkBlocks ∧ Whole chunk)
    (hplain : ∀ chunk ∈ chunks, ∀ b ∈ chunk, getType b ≠ MD5TRAILER)
    (hpadded : sent.flatten ++ chunks.flatten.flatten = f.padded sums) :
    Ends sums f control rest accepts cmds t := by
  induction chunks generalizing sent t cmds with
  | nil =>
    rw [List.flatten_nil, List.flatten_nil, List.append_nil] at hpadded
    have hreading := h.reading
    rw [hpadded] at hreading
    exact hreading.ends_trailer ⟨f.padding sums, by rw [h.data, hpadded]; rfl⟩
  | cons chunk chunks ih =>
    obtain ⟨hlen, hwhole⟩ := hchunks chunk List.mem_cons_self
    have hrest := fun c hc => hchunks c (List.mem_cons_of_mem chunk hc)
    have hrestWhole : Whole chunks.flatten := by
      intro b hb
      obtain ⟨c, hc, hbc⟩ := List.mem_flatten.mp hb
      exact (hrest c hc).2 b hbc
    have hlengths := congrArg List.length hpadded
    have hpadding := padding_lt sums f
    have hchunkData : chunkData = maxAdbRead * chunkBlocks := rfl
    rw [AdbFile.padded, List.length_append, List.length_append, List.flatten_cons,
      List.flatten_append, List.length_append, flatten_length hsent, flatten_length hwhole,
      flatten_length hrestWhole, hlen, zeros, List.length_replicate] at hlengths
    rw [List.flatMap_cons, List.append_assoc, List.cons_append] at h
    refine ends_step (congrArg List.length h.reading.stream) fun cmd hcmd => ?_
    -- TWRP does not have the file yet
    obtain rfl : cmd = none := by
      refine hcmd.resolve_right fun hlast => ?_
      rw [h.data] at hlast
      omega
    rcases h.step accepts hlen (hplain chunk List.mem_cons_self) with hnext |
      ⟨before, b, after, hchunk, hrefused, hdata, hmd5, hreading⟩
    · refine ⟨?_, fun cmds => ih cmds hnext ?_ hrest
        (fun c hc => hplain c (List.mem_cons_of_mem chunk hc)) ?_⟩
      · rw [hnext.reading.stream]
        exact (List.suffix_append chunk _).length_le
      · intro b hb
        exact (List.mem_append.mp hb).elim (hsent b) (hwhole b)
      · rw [← hpadded, List.flatten_append, List.flatten_cons, List.flatten_append,
          List.append_assoc]
    · have hread : (sent ++ before).flatten ++ (b :: after ++ chunks.flatten).flatten =
          f.payload ++ zeros (f.padding sums) := by
        rw [← AdbFile.padded, ← hpadded, List.flatten_cons, hchunk]
        simp only [List.flatten_append, List.flatten_cons, List.append_assoc]
      have hbefore : Whole (sent ++ before) := by
        intro c hc
        refine (List.mem_append.mp hc).elim (hsent c) fun hc => hwhole c ?_
        rw [hchunk]
        exact List.mem_append_left _ hc
      have henough : f.payload.length ≤ (sent ++ before).flatten.length := by
        rw [flatten_length hbefore, List.length_append]
        by_contra hless
        rw [htakes _ (not_le.mp hless)] at hrefused
        cases hrefused
      obtain ⟨⟨n, hn⟩, hzeros⟩ := payload_split hread henough
      have hlast : chunks = [] := by
        by_contra hmore
        obtain ⟨next, others, rfl⟩ := List.exists_cons_of_ne_nil hmore
        have hnextLen := (hrest next List.mem_cons_self).1
        rw [List.flatten_cons, List.length_append, hnextLen] at hlengths
        rw [flatten_length hbefore, List.length_append] at henough
        rw [hchunk, List.length_append, List.length_cons] at hlen
        have hmax : maxAdbRead = 512 := rfl
        rw [hmax] at henough hlengths hchunkData
        omega
      subst hlast
      rw [List.flatten_nil, List.append_nil] at hread hzeros
      refine ⟨?_, fun cmds => hreading.ends_padding ?_ ?_ ⟨n, by rw [hdata, hn]⟩ hmd5⟩
      · rw [hreading.stream, hchunk]
        simp only [List.flatMap_nil, List.nil_append, List.length_append, List.length_cons]
        omega
      · intro c hc
        refine getType_zeros fun x hx => hzeros x ?_
        rw [List.flatten_cons]
        exact List.mem_append_right b (List.mem_flatten_of_mem hc hx)
      · rw [AdbFile.padded, ← hread, List.flatten_cons, List.flatten_append, List.flatten_singleton,
          List.append_assoc]

end reading

section header
variable {sums} {f : AdbFile} {rest : Bytes} {s : Restore} {accepts : ℕ → Bool}

theorem crcMatches_header (f : AdbFile) : crcMatches sums 40 (f.header sums) = true := by
  have hlen : (startOf f.fileType.type ++ wordField 8 f.size ++ wordField 8 f.compressed).length =
      40 := by
    rw [List.length_append, List.length_append, startOf_length, wordField_length, wordField_length]
  rw [← hlen]
  exact crcMatches_withCrc sums _ _

theorem Restore.onBlock_header (s : Restore) (f : AdbFile) :
    s.onBlock sums accepts (f.header sums) =
      { s with
        control := s.control ++ [f.header sums], data := [], fifoOpen := true, digested := []
        md5fnsize := headerSize (f.header sums), fileBytes := 0, dataChunkBytes := 0
        readFromAdb := true, md5sumdata := false } := by
  have hheader : s.onFileHeader sums (f.header sums) = { s with
      control := s.control ++ [f.header sums], data := [], fifoOpen := true, digested := []
      md5fnsize := headerSize (f.header sums), fileBytes := 0, dataChunkBytes := 0
      readFromAdb := true, md5sumdata := false } := by
    rw [Restore.onFileHeader, if_pos (crcMatches_header f)]
  rw [Restore.onBlock, getType_header]
  cases f.fileType with
  | tar =>
    rw [if_neg (by decide), if_neg (by decide), if_neg (by decide), if_pos (by decide), hheader]
  | image => rw [if_neg (by decide), if_neg (by decide), if_pos (by decide), hheader]

/-- The header opens the file. -/
theorem atChunk_header (sums : Checksums) (accepts : ℕ → Bool) {stream : List Bytes}
    (hstatus : s.status = .running)
    (hread : s.readFromAdb = true) (hstream : s.stream = f.header sums :: stream) :
    AtChunk sums f s.control [] stream (s.step sums accepts none) := by
  have hstep : s.step sums accepts none =
      { s with stream := stream }.onBlock sums accepts (f.header sums) := by
    rw [Restore.step, if_neg (not_not.mpr hstatus)]
    dsimp only [Restore.onControl, Option.map_none]
    rw [if_neg, hstream]
    rw [hstatus, hread]
    simp
  rw [hstep, Restore.onBlock_header]
  exact ⟨⟨hstatus, rfl, rfl, rfl, rfl, rfl⟩, rfl, rfl, rfl⟩

theorem inverts_of_noTrailerBlock (hstatus : s.status = .running) (hread : s.readFromAdb = true)
    (hstream : s.stream = blocksOf (backedUp sums f ++ rest)) (hplain : NoTrailerBlock f.payload) :
    Inverts sums f (blocksOf rest) s := by
  intro accepts cmds htakes hpolite hlen
  obtain ⟨chunks, hchunks, hflat, hblocks⟩ := blocksOf_backedUp sums f rest
  rw [hblocks] at hstream
  have hopen := atChunk_header sums accepts hstatus hread hstream
  have hwhole : Whole chunks.flatten := by
    intro b hb
    obtain ⟨c, hc, hbc⟩ := List.mem_flatten.mp hb
    exact (hchunks c hc).2 b hbc
  have htypes : ∀ chunk ∈ chunks, ∀ b ∈ chunk, getType b ≠ MD5TRAILER := by
    intro chunk hchunk b hb
    obtain ⟨m, hm⟩ := List.mem_iff_getElem?.mp (List.mem_flatten_of_mem hchunk hb)
    have hblock := take_drop_flatten hwhole hm []
    rw [List.append_nil, hflat, AdbFile.padded] at hblock
    rw [← hblock, getType_block]
    exact hplain m
  have hends := hopen.ends cmds htakes (fun b hb => absurd hb List.not_mem_nil) hchunks
    htypes hflat
  obtain ⟨k, hk⟩ := hends hpolite (by
    rw [hstream, List.length_cons] at hlen
    rw [hopen.reading.stream]
    omega)
  exact ⟨k, hk⟩

end header

/-- Whatever TWRP takes, it takes in whole blocks, and no block that has the type of a trailer. -/
structure Filtered (s : Restore) : Prop where
  stream : Whole s.stream
  data : ∀ b ∈ s.data, b.length = maxAdbRead ∧ getType b ≠ MD5TRAILER

section filtered
variable {sums} {f : AdbFile} {rest : Bytes} {s : Restore} {accepts : ℕ → Bool} {block : Bytes}
  {stream : List Bytes}

theorem Filtered.onTrailer (h : Filtered s) (failed : RestoreStatus) :
    Filtered (s.onTrailer sums failed block) := by
  rw [Restore.onTrailer]
  split_ifs <;> split <;> exact ⟨h.stream, h.data⟩

theorem Filtered.dataLoop (h : Filtered s) (hstream : Whole stream) :
    Filtered (Restore.dataLoop sums accepts stream s) := by
  induction stream generalizing s with
  | nil => exact ⟨fun b hb => absurd hb List.not_mem_nil, h.data⟩
  | cons block stream ih =>
    have hblock := hstream block List.mem_cons_self
    have hrest : Whole stream := fun b hb => hstream b (List.mem_cons_of_mem _ hb)
    rw [Restore.dataLoop]
    by_cases htrailer : getType block = MD5TRAILER
    · dsimp only
      rw [if_pos htrailer]
      refine Filtered.onTrailer ?_ _
      exact ⟨hrest, h.data⟩
    · have hdata : ∀ b ∈ s.data ++ [block], b.length = maxAdbRead ∧ getType b ≠ MD5TRAILER := by
        intro b hb
        rcases List.mem_append.mp hb with hb | hb
        · exact h.data b hb
        · rw [List.mem_singleton.mp hb]
          exact ⟨hblock, htrailer⟩
      dsimp only
      rw [if_neg htrailer]
      split_ifs
      · exact ⟨hrest, h.data⟩
      · exact ⟨hrest, hdata⟩
      · refine ih ?_ hrest
        exact ⟨hrest, hdata⟩

theorem Filtered.onFileHeader (h : Filtered s) : Filtered (s.onFileHeader sums block) := by
  rw [Restore.onFileHeader]
  split_ifs
  · exact ⟨h.stream, fun b hb => absurd hb List.not_mem_nil⟩
  · exact ⟨h.stream, h.data⟩

theorem Filtered.onBlock (h : Filtered s) : Filtered (s.onBlock sums accepts block) := by
  rw [Restore.onBlock]
  by_cases hend : getType block = TWENDADB
  · rw [if_pos hend]
    split_ifs <;> exact ⟨h.stream, h.data⟩
  rw [if_neg hend]
  by_cases hheader : getType block = TWSTREAMHDR
  · rw [if_pos hheader]
    split_ifs <;> exact ⟨h.stream, h.data⟩
  rw [if_neg hheader]
  by_cases himage : getType block = TWIMG
  · rw [if_pos himage]
    exact h.onFileHeader
  rw [if_neg himage]
  by_cases hname : getType block = TWFN
  · rw [if_pos hname]
    exact h.onFileHeader
  rw [if_neg hname]
  by_cases htrailer : getType block = MD5TRAILER
  · rw [if_pos htrailer]
    refine Filtered.onTrailer ?_ _
    exact ⟨h.stream, h.data⟩
  rw [if_neg htrailer]
  by_cases hdata : getType block = TWDATA
  · rw [if_pos hdata]
    exact Filtered.dataLoop ⟨h.stream, h.data⟩ h.stream
  rw [if_neg hdata]
  split_ifs <;> exact ⟨h.stream, h.data⟩

theorem Filtered.onControl (h : Filtered s) (cmd : Option Bytes) : Filtered (s.onControl cmd) := by
  rw [Restore.onControl]
  split
  · exact h
  · split_ifs <;> exact ⟨h.stream, h.data⟩

theorem Filtered.step (h : Filtered s) (cmd : Option Bytes) :
    Filtered (s.step sums accepts cmd) := by
  have hcontrol := h.onControl cmd
  rw [Restore.step]
  by_cases hstatus : s.status ≠ .running
  · rw [if_pos hstatus]
    exact h
  rw [if_neg hstatus]
  generalize s.onControl cmd = u at hcontrol
  by_cases hwait : u.status ≠ .running ∨ u.readFromAdb = false
  · rw [if_pos hwait]
    exact hcontrol
  rw [if_neg hwait]
  split
  · exact hcontrol
  · rename_i block stream heq
    have hstream := hcontrol.stream
    rw [heq] at hstream
    exact Filtered.onBlock ⟨fun b hb => hstream b (List.mem_cons_of_mem _ hb), hcontrol.data⟩

theorem Filtered.run (sums : Checksums) (accepts : ℕ → Bool) (h : Filtered s)
    (cmds : List (Option Bytes)) : Filtered (s.run sums accepts cmds) := by
  induction cmds generalizing s with
  | nil => exact h
  | cons cmd cmds ih => exact ih (h.step cmd)

theorem whole_backedUp (sums : Checksums) (f : AdbFile) (h : Whole (blocksOf rest)) :
    Whole (blocksOf (backedUp sums f ++ rest)) := by
  obtain ⟨chunks, hchunks, -, hblocks⟩ := blocksOf_backedUp sums f rest
  rw [hblocks]
  intro b hb
  rcases List.mem_cons.mp hb with rfl | hb
  · exact header_length sums f
  rcases List.mem_append.mp hb with hb | hb
  · obtain ⟨chunk, hchunk, hb⟩ := List.mem_flatMap.mp hb
    rcases List.mem_cons.mp hb with rfl | hb
    · exact controlBlock_length sums TWDATA
    · exact (hchunks chunk hchunk).2 b hb
  · rcases List.mem_cons.mp hb with rfl | hb
    · exact md5Trailer_length sums _ _
    · exact h b hb

theorem noTrailerBlock_of_inverts (hstatus : s.status = .running) (hread : s.readFromAdb = true)
    (hstream : s.stream = blocksOf (backedUp sums f ++ rest)) (hwhole : Whole (blocksOf rest))
    (h : Inverts sums f (blocksOf rest) s) : NoTrailerBlock f.payload := by
  intro m htype
  -- the messages of a TWRP that takes everything and sends nothing
  have hpolite : ∀ (n : ℕ) (t : Restore),
      Polite sums f (fun _ => true) (List.replicate n none) t := by
    intro n
    induction n with
    | zero => exact fun _ => trivial
    | succ n ih => exact fun t => ⟨.inl rfl, ih _⟩
  obtain ⟨k, hrestored⟩ := h (fun _ => true) (List.replicate s.stream.length none)
    (fun _ _ => rfl) (hpolite _ _) (by rw [List.length_replicate])
  obtain ⟨chunks, -, -, hblocks⟩ := blocksOf_backedUp sums f rest
  have hopen := atChunk_header sums (fun _ => true) hstatus hread
    (hstream.trans hblocks)
  have hfiltered : Filtered (s.step sums (fun _ => true) none) := by
    constructor
    · rw [hopen.reading.stream]
      have hall := whole_backedUp sums f hwhole
      rw [hblocks] at hall
      exact fun b hb => hall b (List.mem_cons_of_mem _ hb)
    · rw [hopen.data]
      exact fun b hb => absurd hb List.not_mem_nil
  have hrun := hfiltered.run sums (fun _ => true)
    ((List.replicate s.stream.length none).take k)
  obtain ⟨n, hn⟩ := hrestored.delivered
  change Filtered (s.run sums (fun _ => true) (none :: _)) at hrun
  generalize s.run sums (fun _ => true)
    (none :: (List.replicate s.stream.length none).take k) = t at hn hrun
  have hdata : Whole t.data := fun b hb => (hrun.data b hb).1
  have hinside : maxAdbRead * m < f.payload.length := by
    by_contra hbeyond
    rw [List.drop_eq_nil_of_le (not_lt.mp hbeyond)] at htype
    exact absurd htype (by decide)
  have hm : m < t.data.length := by
    have hlen := congrArg List.length hn
    rw [flatten_length hdata, List.length_append] at hlen
    exact Nat.lt_of_mul_lt_mul_left (by omega : maxAdbRead * m < maxAdbRead * t.data.length)
  have hblock := take_drop_flatten hdata (List.getElem?_eq_getElem hm) []
  rw [List.append_nil, hn] at hblock
  refine (hrun.data _ (List.getElem_mem hm)).2 ?_
  rw [← hblock, getType_block, htype]

end filtered

section claim
variable {sums} {files before after : List AdbFile} {f : AdbFile} {steps : List AdbStep}
  {sys : AdbSystem} {s : Restore}

/-- The blocks from the header of a file on, of the stream of a settled run that has ended. -/
def streamFrom (sums : Checksums) (sys : AdbSystem) (count : ℕ) (before : List AdbFile) :
    List Bytes :=
  blocksOf (sys.backup.adbd.drop (streamOf sums count before).length)

/-- The stream behind the files `before`. -/
def streamAfter (sums : Checksums) (after : List AdbFile) : List Bytes :=
  blocksOf (after.flatMap (backedUp sums) ++ controlBlock sums TWENDADB)

theorem streamFrom_eq (before after : List AdbFile)
    (hrun : SettledRun sums steps (AdbSystem.start (before ++ f :: after)) sys)
    (hpos : sys.backup.pos = .returned true) :
    streamFrom sums sys (before ++ f :: after).length before =
      blocksOf (backedUp sums f ++
        (after.flatMap (backedUp sums) ++ controlBlock sums TWENDADB)) := by
  have hstream := hrun.synced.complete hpos
  have hsplit : ∀ count, streamOf sums count (before ++ f :: after) ++ controlBlock sums TWENDADB =
      streamOf sums count before ++ (backedUp sums f ++
        (after.flatMap (backedUp sums) ++ controlBlock sums TWENDADB)) := by
    intro count
    rw [streamOf, streamOf, List.flatMap_append, List.flatMap_cons]
    simp only [List.append_assoc]
  rw [streamFrom, hstream, hsplit, List.drop_left]

theorem whole_streamAfter (after : List AdbFile) : Whole (streamAfter sums after) := by
  rw [streamAfter]
  induction after with
  | nil =>
    have hend := blocksOf_cons (controlBlock_length sums TWENDADB) []
    rw [List.append_nil] at hend
    rw [List.flatMap_nil, List.nil_append, hend, blocksOf, dif_pos rfl]
    intro b hb
    rw [List.mem_singleton.mp hb]
    exact controlBlock_length sums TWENDADB
  | cons f after ih =>
    rw [List.flatMap_cons, List.append_assoc]
    exact whole_backedUp sums f ih

end claim

/-- `restore` gives TWRP the payload of a file of a settled backup, and the digest of it, if and
only if no block of the payload has the type of a trailer. -/
theorem restore_inverts_iff (sums : Checksums) (before after : List AdbFile) (f : AdbFile)
    (steps : List AdbStep) (sys : AdbSystem) (s : Restore)
    (hrun : SettledRun sums steps (AdbSystem.start (before ++ f :: after)) sys)
    (hpos : sys.backup.pos = .returned true) (hstatus : s.status = .running)
    (hread : s.readFromAdb = true)
    (hstream : s.stream = streamFrom sums sys (before ++ f :: after).length before) :
    Inverts sums f (streamAfter sums after) s ↔ NoTrailerBlock f.payload := by
  rw [streamFrom_eq before after hrun hpos] at hstream
  exact ⟨noTrailerBlock_of_inverts hstatus hread hstream (whole_streamAfter after),
    inverts_of_noTrailerBlock hstatus hread hstream⟩

/-- What `restore` sets up before its loop; `tweofrcvd` is not set there. -/
def Restore.start (stream : List Bytes) (tweofrcvd : Bool) : Restore :=
  { status := .running, stream := stream, control := [], data := [], fifoOpen := false,
    digested := [], md5fnsize := 0, fileBytes := 0, dataChunkBytes := 0, readFromAdb := true,
    md5sumdata := false, tweofrcvd := tweofrcvd }

/-- `restore` inverts `backup` on every file of every settled run. -/
def RestoresEveryPayload (sums : Checksums) : Prop :=
  ∀ (before after : List AdbFile) (f : AdbFile) (steps : List AdbStep) (sys : AdbSystem)
    (s : Restore), SettledRun sums steps (AdbSystem.start (before ++ f :: after)) sys →
      sys.backup.pos = .returned true → s.status = .running → s.readFromAdb = true →
        s.stream = streamFrom sums sys (before ++ f :: after).length before →
          Inverts sums f (streamAfter sums after) s

/-- A block of a partition that holds a saved adb backup. -/
def savedTrailer : Bytes := startOf MD5TRAILER ++ zeros 488

/-- The block is written and read in one go. -/
def settledBlockSteps : List AdbStep :=
  [.twrp 0, .backup 0, .twrp 0, .backup 0, .backup 0, .twrp 0, .twrp 512, .backup 0, .backup 512,
    .backup 0, .twrp 0, .twrp 0, .backup 0, .backup 0, .twrp 0, .backup 0]

theorem not_restoresEveryPayload : ¬RestoresEveryPayload lengthSums := by
  intro h
  have hreturned : ((AdbSystem.start [smallFile savedTrailer]).run lengthSums
      settledBlockSteps).map (fun s => s.backup.pos) = some (.returned true) := by decide +kernel
  obtain ⟨sys, hrun, hpos⟩ := Option.map_eq_some_iff.mp hreturned
  have hsettled : settledSteps lengthSums [smallFile savedTrailer] settledBlockSteps
      (AdbSystem.start [smallFile savedTrailer]) = true := by decide +kernel
  have hinverts := h [] [] (smallFile savedTrailer) settledBlockSteps sys
    (Restore.start (streamFrom lengthSums sys 1 []) false) ⟨hrun, hsettled⟩ hpos rfl rfl rfl
  have hplain := noTrailerBlock_of_inverts rfl rfl (streamFrom_eq [] []
    ⟨hrun, hsettled⟩ hpos) (whole_streamAfter []) hinverts
  exact hplain 0 (by decide +kernel)

/-- The settled run of the payload of one byte. -/
theorem restore_inverts_byte : ∃ sys, (AdbSystem.start [smallFile [7]]).run lengthSums
      settledByteSteps = some sys ∧
    (Inverts lengthSums (smallFile [7]) (streamAfter lengthSums [])
        (Restore.start (streamFrom lengthSums sys 1 []) false) ↔ NoTrailerBlock [7]) := by
  have hreturned : ((AdbSystem.start [smallFile [7]]).run lengthSums settledByteSteps).map
      (fun s => s.backup.pos) = some (.returned true) := by decide +kernel
  obtain ⟨sys, hrun, hpos⟩ := Option.map_eq_some_iff.mp hreturned
  have hsettled : settledSteps lengthSums [smallFile [7]] settledByteSteps
      (AdbSystem.start [smallFile [7]]) = true := by decide +kernel
  exact ⟨sys, hrun, restore_inverts_iff lengthSums [] [] (smallFile [7]) settledByteSteps sys _
    ⟨hrun, hsettled⟩ hpos rfl rfl rfl⟩

end BootableRecovery.Adbbu
