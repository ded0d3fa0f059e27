import BootableRecovery.Adbbu.Backup

namespace BootableRecovery.Adbbu

/-! What `backup` makes of the files, whichever side runs when and however short its reads are. -/

variable (sums : Checksums)

/-- A file on the stream; `covered` is what the digest in the trailer is about. -/
def fileStream (f : AdbFile) (padding : ℕ) (covered : Bytes) : Bytes :=
  f.header sums ++ framedPayload sums f.payload ++ zeros padding ++
    md5Trailer sums (headerSize (f.header sums)) covered

def AdbFile.padding (f : AdbFile) : ℕ := paddingBytes (framedPayload sums f.payload).length

/-- The stream of a file in which nothing is lost. -/
def backedUp (f : AdbFile) : Bytes :=
  fileStream sums f (f.padding sums) (f.payload ++ zeros (f.padding sums))

section backup
variable {sums} {b : Backup} {f : AdbFile} {read out bs : Bytes}

/-- No file is open. -/
structure Idle (b : Backup) (out : Bytes) : Prop where
  pos : b.pos = .control ∨ b.pos = .data
  adbd : b.adbd = out
  fileBytes : b.fileBytes = 0
  dataChunkBytes : b.dataChunkBytes = 0
  firstDataPacket : b.firstDataPacket = true

/-- The bytes `read` of the file are on the stream. -/
structure Carries (sums : Checksums) (b : Backup) (f : AdbFile) (read out : Bytes) : Prop where
  adbd : b.adbd = out ++ f.header sums ++ framedPayload sums read
  digested : b.digested = read
  md5fnsize : b.md5fnsize = headerSize (f.header sums)
  fileBytes : b.fileBytes = (framedPayload sums read).length
  writedata : b.writedata = true

/-- Where `backup` is in its chunk. -/
structure InChunk (b : Backup) (read : Bytes) : Prop where
  firstDataPacket : b.firstDataPacket = decide (read.length % chunkData = 0)
  dataChunkBytes : b.dataChunkBytes =
    if read.length % chunkData = 0 then 0 else maxAdbRead + read.length % chunkData
  pos : (b.pos = .control ∨ b.pos = .data) ∧ read.length % chunkData ≤ chunkData - maxAdbRead ∨
    b.pos = .chunkEnd (chunkData - read.length % chunkData) ∧
      chunkData - maxAdbRead < read.length % chunkData

/-- A file is open. An end of file in the middle of a chunk closes it; the payload is over then. -/
structure Busy (sums : Checksums) (b : Backup) (f : AdbFile) (read out : Bytes) : Prop where
  carries : Carries sums b f read out
  chunk : InChunk b read ∨ read = f.payload ∧ (b.pos = .control ∨ b.pos = .data)

theorem chunkData_eq : chunkData = 1048064 := rfl

theorem framedPayload_append (sums : Checksums) (hbs : bs ≠ [])
    (hfit : read.length % chunkData + bs.length ≤ chunkData) :
    framedPayload sums (read ++ bs) = framedPayload sums read ++
      ((if read.length % chunkData = 0 then dataHeader sums else []) ++ bs) :=
  Lib.framed_append_fit read hbs hfit

theorem mod_chunkData_append (hfit : read.length % chunkData + bs.length ≤ chunkData) :
    (read ++ bs).length % chunkData =
      if read.length % chunkData + bs.length = chunkData then 0
      else read.length % chunkData + bs.length := by
  rw [List.length_append]
  split_ifs with hfull
  · rw [Nat.add_mod, ← Nat.mod_add_mod, ← Nat.add_mod, hfull, Nat.mod_self]
  · rw [← Nat.mod_add_mod, Nat.mod_eq_of_lt (by omega)]

/-- Bytes that fit into the chunk keep the stream framed. -/
theorem Carries.put_openChunk (h : Carries sums b f read out) (hchunk : InChunk b read)
    (hbs : bs ≠ []) (hfit : read.length % chunkData + bs.length ≤ chunkData) :
    Carries sums ((b.openChunk sums).put bs) f (read ++ bs) out ∧
      ((b.openChunk sums).put bs).dataChunkBytes =
        maxAdbRead + (read.length % chunkData + bs.length) ∧
      ((b.openChunk sums).put bs).firstDataPacket = false ∧
      ((b.openChunk sums).put bs).pos = b.pos := by
  have hframed := framedPayload_append sums hbs hfit
  have hheader : (dataHeader sums).length = maxAdbRead := controlBlock_length sums TWDATA
  have hfirst := hchunk.firstDataPacket
  have hbytes := hchunk.dataChunkBytes
  by_cases hr : read.length % chunkData = 0
  · rw [if_pos hr] at hframed hbytes
    rw [decide_eq_true hr] at hfirst
    rw [Backup.openChunk, if_pos hfirst]
    refine ⟨⟨?_, ?_, h.md5fnsize, ?_, h.writedata⟩, ?_, rfl, rfl⟩
    · simp only [Backup.put, h.adbd, hframed, List.append_assoc]
    · simp only [Backup.put, h.digested]
    · simp only [Backup.put, h.fileBytes, hframed, List.length_append, hheader]
      omega
    · simp only [Backup.put, hbytes, hr]
      omega
  · rw [if_neg hr] at hframed hbytes
    rw [decide_eq_false hr] at hfirst
    rw [Backup.openChunk, if_neg (by rw [hfirst]; exact Bool.false_ne_true)]
    refine ⟨⟨?_, ?_, h.md5fnsize, ?_, h.writedata⟩, ?_, hfirst, rfl⟩
    · simp only [Backup.put, h.adbd, hframed, List.append_assoc, List.nil_append]
    · simp only [Backup.put, h.digested]
    · simp only [Backup.put, h.fileBytes, hframed, List.length_append, List.nil_append]
    · simp only [Backup.put, hbytes]
      omega

theorem Carries.closeChunk (h : Carries sums b f read out) :
    Carries sums b.closeChunk f read out :=
  ⟨h.adbd, h.digested, h.md5fnsize, h.fileBytes, h.writedata⟩

theorem inChunk_closeChunk (hfull : read.length % chunkData = 0) : InChunk b.closeChunk read := by
  refine ⟨?_, ?_, .inl ⟨.inr rfl, ?_⟩⟩
  · rw [decide_eq_true hfull]
    rfl
  · rw [if_pos hfull]
    rfl
  · rw [hfull]
    exact Nat.zero_le _

theorem Carries.onData (h : Carries sums b f read out) (hchunk : InChunk b read)
    (hpos : b.pos = .data) (hbs : bs ≠ []) (hlen : bs.length ≤ maxAdbRead) :
    Carries sums (b.onData sums bs) f (read ++ bs) out ∧
      InChunk (b.onData sums bs) (read ++ bs) := by
  have hroom : read.length % chunkData ≤ chunkData - maxAdbRead := by
    rcases hchunk.pos with ⟨-, hroom⟩ | ⟨hend, -⟩
    · exact hroom
    · rw [hpos] at hend
      cases hend
  have hmax : dataMaxChunkSize = maxAdbRead + chunkData := rfl
  have hread : maxAdbRead ≤ chunkData := by decide
  have hfit : read.length % chunkData + bs.length ≤ chunkData := by omega
  have hmod := mod_chunkData_append hfit
  obtain ⟨hcarries, hbytes, hfirst, hpos'⟩ := h.put_openChunk hchunk hbs hfit
  have hbspos := List.length_pos_iff.mpr hbs
  rw [Backup.onData, hbytes, hmax]
  split_ifs with hfull hend
  · rw [if_pos (by omega)] at hmod
    exact ⟨hcarries.closeChunk, inChunk_closeChunk hmod⟩
  · rw [if_neg (by omega)] at hmod
    refine ⟨⟨hcarries.adbd, hcarries.digested, hcarries.md5fnsize, hcarries.fileBytes,
      hcarries.writedata⟩, ?_, ?_, .inr ⟨?_, by omega⟩⟩
    · rw [hmod, decide_eq_false (by omega)]
      exact hfirst
    · rw [hmod, if_neg (by omega)]
    · exact congrArg BackupPos.chunkEnd (by rw [hmod]; omega)
  · rw [if_neg (by omega)] at hmod
    refine ⟨hcarries, ?_, ?_, .inl ⟨.inr (hpos'.trans hpos), ?_⟩⟩
    · rw [hmod, decide_eq_false (by omega)]
      exact hfirst
    · rw [hmod, if_neg (by omega)]
      exact hbytes
    · omega

theorem Carries.onChunkEnd (h : Carries sums b f read out) {bytesLeft : ℕ}
    (hchunk : InChunk b read) (hpos : b.pos = .chunkEnd bytesLeft) (hbs : bs ≠ [])
    (hlen : bs.length ≤ bytesLeft) :
    Carries sums (b.onRead sums (.bytes bs)) f (read ++ bs) out ∧
      InChunk (b.onRead sums (.bytes bs)) (read ++ bs) := by
  obtain ⟨hleft, hend⟩ : bytesLeft = chunkData - read.length % chunkData ∧
      chunkData - maxAdbRead < read.length % chunkData := by
    rcases hchunk.pos with ⟨hpos' | hpos', -⟩ | ⟨hpos', hend⟩ <;> rw [hpos] at hpos'
    · cases hpos'
    · cases hpos'
    · exact ⟨BackupPos.chunkEnd.inj hpos', hend⟩
  have hread : maxAdbRead ≤ chunkData := by decide
  have hlt := Nat.mod_lt read.length (by decide : 0 < chunkData)
  have hfit : read.length % chunkData + bs.length ≤ chunkData := by omega
  have hr : read.length % chunkData ≠ 0 := by
    have : maxAdbRead < chunkData := by decide
    omega
  have hmod := mod_chunkData_append hfit
  have hframed := framedPayload_append sums hbs hfit
  rw [if_neg hr, List.nil_append] at hframed
  have hput : Carries sums (b.put bs) f (read ++ bs) out := by
    refine ⟨?_, ?_, h.md5fnsize, ?_, h.writedata⟩
    · simp only [Backup.put, h.adbd, hframed, List.append_assoc]
    · simp only [Backup.put, h.digested]
    · simp only [Backup.put, h.fileBytes, hframed, List.length_append]
  have hbspos := List.length_pos_iff.mpr hbs
  unfold Backup.onRead
  rw [hpos]
  dsimp only
  split_ifs with hfull
  · rw [if_pos (by omega)] at hmod
    exact ⟨hput.closeChunk, inChunk_closeChunk hmod⟩
  · rw [if_neg (by omega)] at hmod
    refine ⟨⟨hput.adbd, hput.digested, hput.md5fnsize, hput.fileBytes, hput.writedata⟩, ?_, ?_,
      .inr ⟨?_, by omega⟩⟩
    · rw [hmod, decide_eq_false (by omega)]
      have hfirst := hchunk.firstDataPacket
      rwa [decide_eq_false hr] at hfirst
    · rw [hmod, if_neg (by omega)]
      have hbytes := hchunk.dataChunkBytes
      rw [if_neg hr] at hbytes
      simp only [Backup.put, hbytes]
      omega
    · exact congrArg BackupPos.chunkEnd (by rw [hmod]; omega)

/-! ### Messages -/

theorem getType_controlBlock {type : Bytes} (hlen : type.length < 15) (hzero : 0 ∉ type) :
    getType (controlBlock sums type) = type := by
  rw [controlBlock, withCrc, List.append_assoc]
  exact getType_startOf hlen hzero _

theorem getType_streamHeader (n : ℕ) : getType (streamHeader sums n) = TWSTREAMHDR := by
  rw [streamHeader, withCrc]
  simp only [List.append_assoc]
  exact getType_startOf (by decide) (by decide) _

theorem getType_header (f : AdbFile) : getType (f.header sums) = f.fileType.type := by
  rw [AdbFile.header, withCrc]
  simp only [List.append_assoc]
  rcases f.fileType with _ | _ <;> exact getType_startOf (by decide) (by decide) _

theorem toData_pos (b : Backup) : b.toData.pos = .control ∨ b.toData.pos = .data := by
  rw [Backup.toData]
  split_ifs
  · exact .inr rfl
  · exact .inl rfl

theorem idle_toData (hfile : b.fileBytes = 0) (hchunk : b.dataChunkBytes = 0)
    (hfirst : b.firstDataPacket = true) : Idle b.toData b.adbd :=
  ⟨toData_pos b, rfl, hfile, hchunk, hfirst⟩

theorem Idle.toData (h : Idle b out) : Idle b.toData out := by
  rw [← h.adbd]
  exact idle_toData h.fileBytes h.dataChunkBytes h.firstDataPacket

theorem Idle.onStreamHeader (h : Idle b out) (n : ℕ) :
    Idle (b.onControl (some (streamHeader sums n))) (out ++ streamHeader sums n) := by
  rw [Backup.onControl, getType_streamHeader, if_neg (by decide), if_neg (by decide),
    if_pos rfl, ← h.adbd]
  exact idle_toData h.fileBytes rfl h.firstDataPacket

theorem Carries.toData (h : Carries sums b f read out) : Carries sums b.toData f read out :=
  ⟨h.adbd, h.digested, h.md5fnsize, h.fileBytes, h.writedata⟩

theorem Busy.toData (h : Busy sums b f read out) (hpos : b.pos = .control) :
    Busy sums b.toData f read out := by
  refine ⟨h.carries.toData, ?_⟩
  rcases h.chunk with hchunk | ⟨hread, -⟩
  · refine .inl ⟨hchunk.firstDataPacket, hchunk.dataChunkBytes, ?_⟩
    rcases hchunk.pos with ⟨-, hroom⟩ | ⟨hend, -⟩
    · exact .inl ⟨toData_pos b, hroom⟩
    · rw [hpos] at hend
      cases hend
  · exact .inr ⟨hread, toData_pos b⟩

theorem Idle.onHeader (h : Idle b out) (f : AdbFile) :
    Busy sums (b.onControl (some (f.header sums))) f [] out := by
  have hchunk : ∀ {c : Backup}, c.firstDataPacket = true → c.dataChunkBytes = 0 →
      InChunk c.toData [] := fun hfirst hbytes =>
    ⟨hfirst, hbytes, .inl ⟨toData_pos _, Nat.zero_le _⟩⟩
  have hframed : framedPayload sums [] = [] := rfl
  rw [Backup.onControl, getType_header]
  rcases f.fileType with _ | _
  · rw [if_neg (by decide), if_neg (by decide), if_neg (by decide), if_neg (by decide),
      if_pos (by decide)]
    refine ⟨⟨?_, rfl, rfl, h.fileBytes, rfl⟩, .inl (hchunk h.firstDataPacket rfl)⟩
    rw [hframed, List.append_nil, ← h.adbd]
    rfl
  · rw [if_neg (by decide), if_neg (by decide), if_neg (by decide), if_pos (by decide)]
    refine ⟨⟨?_, rfl, rfl, h.fileBytes, rfl⟩, .inl (hchunk h.firstDataPacket rfl)⟩
    rw [hframed, List.append_nil, ← h.adbd]
    rfl

theorem onControl_eof (b : Backup) :
    b.onControl (some (controlBlock sums TWEOF)) = { b with pos := .drain } := by
  rw [Backup.onControl, getType_controlBlock (by decide) (by decide), if_neg (by decide),
    if_neg (by decide), if_neg (by decide), if_neg (by decide), if_neg (by decide), if_pos rfl]

theorem onControl_endadb (b : Backup) : b.onControl (some (controlBlock sums TWENDADB)) =
    { b with adbd := b.adbd ++ controlBlock sums TWENDADB, pos := .returned true } := by
  rw [Backup.onControl, getType_controlBlock (by decide) (by decide), if_neg (by decide),
    if_pos rfl]

/-- With the whole payload on the stream the file is complete. -/
theorem Carries.finishFile (h : Carries sums b f f.payload out) :
    Idle (b.finishFile sums) (out ++ backedUp sums f) := by
  have hpadding : paddingBytes b.fileBytes = f.padding sums := by rw [h.fileBytes, AdbFile.padding]
  have hadbd : out ++ backedUp sums f = b.adbd ++ zeros (paddingBytes b.fileBytes) ++
      md5Trailer sums b.md5fnsize (b.digested ++ zeros (paddingBytes b.fileBytes)) := by
    rw [hpadding, h.adbd, h.digested, h.md5fnsize, backedUp, fileStream]
    simp only [List.append_assoc]
  rw [hadbd]
  exact idle_toData rfl rfl rfl

end backup

end BootableRecovery.Adbbu
