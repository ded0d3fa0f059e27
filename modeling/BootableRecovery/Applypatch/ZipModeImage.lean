import BootableRecovery.Applypatch.ImageChunk

namespace BootableRecovery.Applypatch
open Lib Otautil

/-! `ZipModeImage`: the chunks of a zip file, from the entries that the zip library finds in it. -/

/-- A `ZipEntry64`; `extracted` is what `ExtractToMemory` makes of it. -/
structure ZipEntry where
  name : Text
  deflated : Bool
  offset : ℕ
  compressedLength : ℕ
  extracted : Option Bytes

/-- The zip library: the entries of an archive, unless it cannot be opened or read through. -/
structure ZipArchive where
  entries : Bytes → Option (List ZipEntry)

/-- The data of an entry stands behind a header of its own, and the central directory behind all
of them. -/
structure ZipArchive.WellFormed (zip : ZipArchive) : Prop where
  inside : ∀ {archive es}, zip.entries archive = some es → ∀ e ∈ es,
    e.offset + e.compressedLength < archive.length
  apart : ∀ {archive es}, zip.entries archive = some es → es.Pairwise fun e d =>
    e.offset + e.compressedLength < d.offset ∨ d.offset + d.compressedLength < e.offset

structure ZipModeImage where
  isSource : Bool
  limit : ℕ
  fileContent : Bytes
  chunks : List ImageChunk

/-- An unsigned number, the low byte first. -/
def littleEndian : Bytes → ℕ
  | [] => 0
  | b :: bs => b.toNat + 256 * littleEndian bs

def field (file : Bytes) (start len : ℕ) : ℕ := littleEndian ((file.drop start).take len)

/-- The last end of central directory record that starts at `i` or before. -/
def findEocd (file : Bytes) : ℕ → Option ℕ
  | 0 => if field file 0 4 = 0x06054b50 then some 0 else none
  | i + 1 => if field file (i + 1) 4 = 0x06054b50 then some (i + 1) else findEocd file i

/-- `GetZipFileSize`, also without a result when one of its `CHECK`s fails; the search starts from
an `int`. -/
def getZipFileSize (file : Bytes) : Option ℕ :=
  if file.length < 22 then none
  else
    let i := (file.length - 22) % 2 ^ 32
    if i ≥ 2 ^ 31 then none
    else
      match findEocd file i with
      | none => none
      | some i =>
        let fileSize := i + 22 + field file (i + 20) 2
        if field file (i + 4) 2 = 0 ∧ fileSize ≤ file.length then some fileSize else none

theorem splitEntry_decreases {limit compressedLen : ℕ} (h : 0 < compressedLen ∧ 0 < limit) :
    compressedLen - min limit compressedLen < compressedLen := by omega

/-- The pieces of an entry that exceeds the limit. -/
def splitEntry (limit : ℕ) (e : ZipEntry) (count compressedLen : ℕ) : List ImageChunk :=
  if _h : 0 < compressedLen ∧ 0 < limit then
    ImageChunk.ofRange .normal (e.offset + limit * count) (min limit compressedLen)
        (e.name ++ '-' :: decimal count) ::
      splitEntry limit e (count + 1) (compressedLen - min limit compressedLen)
  else []
termination_by compressedLen
decreasing_by exact splitEntry_decreases _h

/-- `AddZipEntryToChunks`: the chunks that it adds. -/
def addZipEntry (limit : ℕ) (e : ZipEntry) : Option (List ImageChunk) :=
  if e.compressedLength = 0 then some []
  else if 0 < limit ∧ limit < e.compressedLength then some (splitEntry limit e 0 e.compressedLength)
  else if e.deflated then
    e.extracted.map fun data =>
      [{ ImageChunk.ofRange .deflate e.offset e.compressedLength e.name with
        uncompressedData := data }]
  else some [ImageChunk.ofRange .normal e.offset e.compressedLength e.name]

def addZipEntries (limit : ℕ) : List ZipEntry → Option (List ImageChunk)
  | [] => some []
  | e :: es => do
    let chunks ← addZipEntry limit e
    let rest ← addZipEntries limit es
    some (chunks ++ rest)

/-- The entries of a source, and the rest of the file as a normal chunk. -/
def sourceChunks (limit : ℕ) (file : Bytes) (es : List ZipEntry) : Option (List ImageChunk) := do
  let chunks ← addZipEntries limit es
  let entriesEnd := match es.getLast? with
    | none => 0
    | some e => e.offset + e.compressedLength
  if entriesEnd < 2 ^ 64 ∧ entriesEnd < file.length then
    some (chunks ++ [ImageChunk.plain entriesEnd (file.length - entriesEnd)])
  else none

/-- The chunks of a target from `pos` on, with normal chunks between the entries; the length of
such a chunk is a difference of two `size_t`. -/
def targetChunks (limit size : ℕ) : ℕ → List ZipEntry → Option (List ImageChunk)
  | pos, [] => some (if pos < size then [ImageChunk.plain pos (size - pos)] else [])
  | pos, e :: es =>
    if pos < size then
      let gap :=
        if pos = e.offset then []
        else [ImageChunk.plain pos ((e.offset + 2 ^ 64 - pos) % 2 ^ 64)]
      if e.offset < size then
        match addZipEntry limit e with
        | none => none
        | some chunks =>
          if e.offset + e.compressedLength < 2 ^ 64 then
            (targetChunks limit size (e.offset + e.compressedLength) es).map fun rest =>
              gap ++ chunks ++ rest
          else none
      else some gap
    else some []

/-- `temp_entries`: by their offsets, and without a limit the deflated ones only. -/
def usedEntries (limit : ℕ) (es : List ZipEntry) : List ZipEntry :=
  (es.filter fun e => e.deflated || decide (0 < limit)).insertionSort fun e d => e.offset ≤ d.offset

def ZipModeImage.initializeChunks (isSource : Bool) (limit : ℕ) (file : Bytes)
    (es : List ZipEntry) : Option (List ImageChunk) :=
  if isSource then sourceChunks limit file (usedEntries limit es)
  else targetChunks limit file.length 0 (usedEntries limit es)

def ZipModeImage.initializeZip (zip : ZipArchive) (isSource : Bool) (limit : ℕ) (file : Bytes) :
    Option ZipModeImage := do
  let size ← getZipFileSize file
  let es ← zip.entries (file.take size)
  let chunks ← ZipModeImage.initializeChunks isSource limit file es
  some { isSource := isSource, limit := limit, fileContent := file, chunks := chunks }

/-- What `CheckAndProcessChunks` makes of a target chunk and of the source chunks. -/
def processChunk (zlib : Zlib) (tgtFile srcFile : Bytes) (c : ImageChunk)
    (src : List ImageChunk) : ImageChunk × List ImageChunk :=
  if c.type ≠ .deflate then (c, src)
  else
    match findChunkByName src c.entryName false with
    | none => (c.changeDeflateChunkToNormal, src)
    | some s =>
      if c.same tgtFile srcFile s then
        (c.changeDeflateChunkToNormal, changeFound c.entryName src)
      else
        match c.reconstructDeflateChunk zlib tgtFile with
        | some level => ({ c with compressLevel := level }, src)
        | none => (c.changeDeflateChunkToNormal, changeFound c.entryName src)

def processChunks (zlib : Zlib) (tgtFile srcFile : Bytes) :
    List ImageChunk → List ImageChunk → List ImageChunk × List ImageChunk
  | [], src => ([], src)
  | c :: cs, src =>
    let (c, src) := processChunk zlib tgtFile srcFile c src
    let (cs, src) := processChunks zlib tgtFile srcFile cs src
    (c :: cs, src)

def checkAndProcessChunks (zlib : Zlib) (tgt src : ZipModeImage) : ZipModeImage × ZipModeImage :=
  let (tgtChunks, srcChunks) :=
    processChunks zlib tgt.fileContent src.fileContent tgt.chunks src.chunks
  ({ tgt with
      chunks := if tgt.limit = 0 then mergeAdjacentNormalChunks tgtChunks else tgtChunks },
    { src with chunks := srcChunks })

/-! What the chunks of a zip file have in common, also once they are processed. -/

/-- The chunks of a source: pieces of the file within the limit, and the central directory. -/
structure SourceLayout (limit size : ℕ) (entries : List ImageChunk) (directory : ImageChunk) :
    Prop where
  entry : ∀ c ∈ entries, 0 < c.rawDataLen ∧ c.rawDataLen ≤ limit ∧ c.start + c.rawDataLen ≤ size
  type : directory.type = .normal
  name : directory.entryName = []
  pos : 0 < directory.rawDataLen
  stop : directory.start + directory.rawDataLen = size

section layout
variable {limit size : ℕ} {e : ZipEntry} {es : List ZipEntry} {chunks : List ImageChunk}

theorem splitEntry_contiguous (hlimit : 0 < limit) (count len : ℕ) :
    Contiguous (e.offset + limit * count) (e.offset + limit * count + len)
      (splitEntry limit e count len) := by
  induction len using Nat.strong_induction_on generalizing count with
  | h len ih =>
    rw [splitEntry]
    by_cases hlen : 0 < len ∧ 0 < limit
    · rw [dif_pos hlen]
      refine ⟨rfl, lt_min hlen.2 hlen.1, ?_⟩
      have hrest := ih _ (splitEntry_decreases hlen) (count + 1)
      rw [Nat.mul_succ, ← Nat.add_assoc] at hrest
      by_cases hmore : limit ≤ len
      · rw [Nat.min_eq_left hmore] at hrest ⊢
        rw [show e.offset + limit * count + len =
          e.offset + limit * count + limit + (len - limit) by omega]
        exact hrest
      · rw [Nat.min_eq_right (by omega), Nat.sub_self, splitEntry, dif_neg (by omega)]
        rfl
    · rw [dif_neg hlen]
      exact (Nat.add_eq_left.mpr (by omega)).symm

theorem splitEntry_le (count len : ℕ) :
    ∀ c ∈ splitEntry limit e count len, c.rawDataLen ≤ limit := by
  induction len using Nat.strong_induction_on generalizing count with
  | h len ih =>
    intro c hc
    rw [splitEntry] at hc
    by_cases hlen : 0 < len ∧ 0 < limit
    · rw [dif_pos hlen] at hc
      rcases List.mem_cons.mp hc with rfl | hc
      · exact min_le_left _ _
      · exact ih _ (splitEntry_decreases hlen) _ c hc
    · rw [dif_neg hlen] at hc
      exact absurd hc List.not_mem_nil

/-- No chunk, the pieces of the entry, or one chunk. -/
theorem addZipEntry_cases (h : addZipEntry limit e = some chunks) :
    e.compressedLength = 0 ∧ chunks = [] ∨
      (0 < limit ∧ limit < e.compressedLength) ∧
        chunks = splitEntry limit e 0 e.compressedLength ∨
      (0 < e.compressedLength ∧ ¬(0 < limit ∧ limit < e.compressedLength)) ∧
        ∃ c, chunks = [c] ∧ c.start = e.offset ∧ c.rawDataLen = e.compressedLength ∧
          c.type ≠ .raw ∧
          (c.type = .deflate → e.deflated = true ∧ e.extracted = some c.uncompressedData) := by
  rw [addZipEntry] at h
  by_cases hzero : e.compressedLength = 0
  · rw [if_pos hzero] at h
    exact .inl ⟨hzero, (Option.some.inj h).symm⟩
  rw [if_neg hzero] at h
  by_cases hlarge : 0 < limit ∧ limit < e.compressedLength
  · rw [if_pos hlarge] at h
    exact .inr (.inl ⟨hlarge, (Option.some.inj h).symm⟩)
  rw [if_neg hlarge] at h
  refine .inr (.inr ⟨⟨Nat.pos_of_ne_zero hzero, hlarge⟩, ?_⟩)
  by_cases hdeflated : e.deflated = true
  · rw [if_pos hdeflated] at h
    obtain ⟨data, hdata, hchunks⟩ := Option.map_eq_some_iff.mp h
    exact ⟨_, hchunks.symm, rfl, rfl, fun hraw => ChunkType.noConfusion hraw,
      fun _ => ⟨hdeflated, hdata⟩⟩
  · rw [if_neg hdeflated] at h
    exact ⟨_, (Option.some.inj h).symm, rfl, rfl, fun hraw => ChunkType.noConfusion hraw,
      fun hdeflate => ChunkType.noConfusion hdeflate⟩

/-- The chunks of an entry are its data. -/
theorem addZipEntry_contiguous (h : addZipEntry limit e = some chunks) :
    Contiguous e.offset (e.offset + e.compressedLength) chunks := by
  rcases addZipEntry_cases h with ⟨hzero, rfl⟩ | ⟨⟨hlimit, -⟩, rfl⟩ |
    ⟨⟨hpos, -⟩, c, rfl, hstart, hlen, -⟩
  · rw [hzero]
    rfl
  · exact splitEntry_contiguous hlimit 0 _
  · exact ⟨hstart, hlen ▸ hpos, by rw [hlen]; rfl⟩

theorem addZipEntry_le (hlimit : 0 < limit) (h : addZipEntry limit e = some chunks) :
    ∀ c ∈ chunks, c.rawDataLen ≤ limit := by
  rcases addZipEntry_cases h with ⟨-, rfl⟩ | ⟨-, rfl⟩ | ⟨⟨-, hle⟩, c, rfl, -, hlen, -⟩
  · exact fun c hc => absurd hc List.not_mem_nil
  · exact splitEntry_le 0 _
  · intro d hd
    rw [List.mem_singleton.mp hd, hlen]
    omega

theorem addZipEntries_spec (hlimit : 0 < limit)
    (hinside : ∀ e ∈ es, e.offset + e.compressedLength ≤ size)
    (h : addZipEntries limit es = some chunks) :
    ∀ c ∈ chunks, 0 < c.rawDataLen ∧ c.rawDataLen ≤ limit ∧ c.start + c.rawDataLen ≤ size := by
  induction es generalizing chunks with
  | nil =>
    rw [← Option.some.inj h]
    exact fun c hc => absurd hc List.not_mem_nil
  | cons e es ih =>
    obtain ⟨first, hfirst, h⟩ := Option.bind_eq_some_iff.mp h
    obtain ⟨rest, hrest, h⟩ := Option.bind_eq_some_iff.mp h
    have hle := addZipEntry_le hlimit hfirst
    have hbound := hinside e List.mem_cons_self
    rw [← Option.some.inj h]
    intro c hc
    rcases List.mem_append.mp hc with hc | hc
    · obtain ⟨hpos, -, hstop⟩ := (addZipEntry_contiguous hfirst).mem hc
      exact ⟨hpos, hle c hc, by omega⟩
    · exact ih (fun d hd => hinside d (List.mem_cons_of_mem e hd)) hrest c hc

theorem sourceChunks_layout {file : Bytes} (hlimit : 0 < limit)
    (hinside : ∀ e ∈ es, e.offset + e.compressedLength ≤ file.length)
    (h : sourceChunks limit file es = some chunks) :
    ∃ entries directory, chunks = entries ++ [directory] ∧
      SourceLayout limit file.length entries directory := by
  obtain ⟨entries, hentries, h⟩ := Option.bind_eq_some_iff.mp h
  generalize (match es.getLast? with
    | none => 0
    | some e => e.offset + e.compressedLength) = stop at h
  rw [Option.ite_none_right_eq_some] at h
  obtain ⟨⟨-, hstop⟩, h⟩ := h
  refine ⟨entries, _, (Option.some.inj h).symm, addZipEntries_spec hlimit hinside hentries,
    rfl, rfl, ?_, ?_⟩
  · exact Nat.sub_pos_of_lt hstop
  · exact Nat.add_sub_cancel' hstop.le

theorem targetChunks_contiguous {pos : ℕ} (hpos : pos ≤ size)
    (hinside : ∀ e ∈ es, pos ≤ e.offset ∧ e.offset + e.compressedLength < size)
    (hapart : es.Pairwise fun e d => e.offset + e.compressedLength < d.offset)
    (h : targetChunks limit size pos es = some chunks) : Contiguous pos size chunks := by
  induction es generalizing pos chunks with
  | nil =>
    rw [targetChunks] at h
    rw [← Option.some.inj h]
    by_cases hlt : pos < size
    · rw [if_pos hlt]
      exact ⟨rfl, Nat.sub_pos_of_lt hlt, Nat.add_sub_cancel' hpos⟩
    · rw [if_neg hlt]
      exact le_antisymm hpos (not_lt.mp hlt)
  | cons e es ih =>
    obtain ⟨hfrom, hstop⟩ := hinside e List.mem_cons_self
    obtain ⟨hfirst, hrest⟩ := List.pairwise_cons.mp hapart
    rw [targetChunks, if_pos (by omega)] at h
    dsimp only at h
    rw [if_pos (by omega)] at h
    cases hentry : addZipEntry limit e with
    | none =>
      rw [hentry] at h
      cases h
    | some entry =>
      rw [hentry] at h
      dsimp only at h
      rw [Option.ite_none_right_eq_some] at h
      obtain ⟨hfits, h⟩ := h
      obtain ⟨rest, htail, hchunks⟩ := Option.map_eq_some_iff.mp h
      have hbehind := ih hstop.le (fun d hd => ⟨(hfirst d hd).le,
        (hinside d (List.mem_cons_of_mem e hd)).2⟩) hrest htail
      rw [← hchunks, List.append_assoc]
      refine contiguous_append.mpr ⟨e.offset, ?_, contiguous_append.mpr
        ⟨_, addZipEntry_contiguous hentry, hbehind⟩⟩
      by_cases hgap : pos = e.offset
      · rw [if_pos hgap]
        exact hgap
      · rw [if_neg hgap, show e.offset + 2 ^ 64 - pos = e.offset - pos + 2 ^ 64 by omega,
          Nat.add_mod_right, Nat.mod_eq_of_lt (by omega)]
        exact ⟨rfl, Nat.sub_pos_of_lt (by omega), Nat.add_sub_cancel' hfrom⟩

theorem mem_usedEntries (h : e ∈ usedEntries limit es) : e ∈ es := by
  rw [usedEntries, (List.perm_insertionSort _ _).mem_iff] at h
  exact List.mem_of_mem_filter h

theorem usedEntries_apart
    (hapart : es.Pairwise fun e d => e.offset + e.compressedLength < d.offset ∨
    d.offset + d.compressedLength < e.offset) :
    (usedEntries limit es).Pairwise fun e d => e.offset + e.compressedLength < d.offset := by
  have htotal : Std.Total fun e d : ZipEntry => e.offset ≤ d.offset :=
    ⟨fun e d => Nat.le_total _ _⟩
  have htrans : IsTrans ZipEntry fun e d => e.offset ≤ d.offset := ⟨fun _ _ _ => Nat.le_trans⟩
  have hsorted := List.pairwise_insertionSort (fun e d : ZipEntry => e.offset ≤ d.offset)
    (es.filter fun e => e.deflated || decide (0 < limit))
  have hperm := List.perm_insertionSort (fun e d : ZipEntry => e.offset ≤ d.offset)
    (es.filter fun e => e.deflated || decide (0 < limit))
  have hsymm : ∀ {e d : ZipEntry}, (e.offset + e.compressedLength < d.offset ∨
      d.offset + d.compressedLength < e.offset) → (d.offset + d.compressedLength < e.offset ∨
        e.offset + e.compressedLength < d.offset) := Or.symm
  have hall := (hperm.pairwise_iff hsymm).mpr (hapart.filter _)
  rw [usedEntries]
  refine (hsorted.and hall).imp fun {e d} hed => ?_
  obtain ⟨hle, hlt | hlt⟩ := hed
  · exact hlt
  · omega

end layout

section initialised
variable {zip : ZipArchive} {isSource : Bool} {limit : ℕ} {file : Bytes} {image : ZipModeImage}

theorem initialize_cases (h : ZipModeImage.initializeZip zip isSource limit file = some image) :
    ∃ size es chunks, 0 < file.length ∧ zip.entries (file.take size) = some es ∧
      ZipModeImage.initializeChunks isSource limit file es = some chunks ∧
      image = { isSource := isSource, limit := limit, fileContent := file, chunks := chunks } := by
  obtain ⟨size, hsize, h⟩ := Option.bind_eq_some_iff.mp h
  have hpos : 0 < file.length := by
    refine List.length_pos_iff.mpr fun hnil => ?_
    rw [hnil] at hsize
    cases hsize
  obtain ⟨es, hes, h⟩ := Option.bind_eq_some_iff.mp h
  obtain ⟨chunks, hchunks, h⟩ := Option.bind_eq_some_iff.mp h
  exact ⟨size, es, chunks, hpos, hes, hchunks, (Option.some.inj h).symm⟩

theorem initialize_source (hzip : zip.WellFormed) (hlimit : 0 < limit)
    (h : ZipModeImage.initializeZip zip true limit file = some image) :
    image.fileContent = file ∧ image.limit = limit ∧ ∃ entries directory,
      image.chunks = entries ++ [directory] ∧
        SourceLayout limit file.length entries directory := by
  obtain ⟨size, es, chunks, -, hes, hchunks, rfl⟩ := initialize_cases h
  rw [ZipModeImage.initializeChunks, if_pos rfl] at hchunks
  refine ⟨rfl, rfl, sourceChunks_layout hlimit (fun e he => ?_) hchunks⟩
  have hinside := hzip.inside hes e (mem_usedEntries he)
  rw [List.length_take] at hinside
  omega

theorem initialize_target (hzip : zip.WellFormed)
    (h : ZipModeImage.initializeZip zip false limit file = some image) :
    image.fileContent = file ∧ image.limit = limit ∧ 0 < file.length ∧
      Contiguous 0 file.length image.chunks := by
  obtain ⟨size, es, chunks, hpos, hes, hchunks, rfl⟩ := initialize_cases h
  rw [ZipModeImage.initializeChunks, if_neg Bool.false_ne_true] at hchunks
  refine ⟨rfl, rfl, hpos, targetChunks_contiguous (Nat.zero_le _) (fun e he => ?_)
    (usedEntries_apart (hzip.apart hes)) hchunks⟩
  have hinside := hzip.inside hes e (mem_usedEntries he)
  rw [List.length_take] at hinside
  omega

end initialised

section process
variable {zlib : Zlib} {tgtFile srcFile : Bytes} {name : Text} {c : ImageChunk}
  {cs : List ImageChunk}

theorem changeDeflateChunkToNormal_layout (c : ImageChunk) :
    c.changeDeflateChunkToNormal.start = c.start ∧
      c.changeDeflateChunkToNormal.rawDataLen = c.rawDataLen ∧
      c.changeDeflateChunkToNormal.entryName = c.entryName := by
  rw [ImageChunk.changeDeflateChunkToNormal]
  split_ifs <;> exact ⟨rfl, rfl, rfl⟩

theorem mem_changeFound (h : c ∈ changeFound name cs) :
    ∃ d ∈ cs, c.start = d.start ∧ c.rawDataLen = d.rawDataLen := by
  induction cs with
  | nil => exact absurd h List.not_mem_nil
  | cons d cs ih =>
    rw [changeFound] at h
    split_ifs at h
    · rcases List.mem_cons.mp h with rfl | h
      · obtain ⟨hstart, hlen, -⟩ := changeDeflateChunkToNormal_layout d
        exact ⟨d, List.mem_cons_self, hstart, hlen⟩
      · exact ⟨c, List.mem_cons_of_mem d h, rfl, rfl⟩
    · rcases List.mem_cons.mp h with rfl | h
      · exact ⟨c, List.mem_cons_self, rfl, rfl⟩
      · obtain ⟨e, he, hlayout⟩ := ih h
        exact ⟨e, List.mem_cons_of_mem d he, hlayout⟩

/-- The central directory is not found among the deflate chunks. -/
theorem changeFound_append {d : ImageChunk} (hd : d.type = .normal) :
    changeFound name (cs ++ [d]) = changeFound name cs ++ [d] := by
  induction cs with
  | nil =>
    have hnamed : ¬d.isNamed name false = true := by
      rw [ImageChunk.isNamed, hd]
      exact Bool.false_ne_true
    rw [List.nil_append, changeFound, changeFound, if_neg hnamed]
    rfl
  | cons c cs ih =>
    rw [List.cons_append, changeFound, changeFound]
    split_ifs
    · rfl
    · rw [ih, List.cons_append]

theorem processChunk_cases (zlib : Zlib) (tgtFile srcFile : Bytes) (c : ImageChunk)
    (src : List ImageChunk) :
    ((processChunk zlib tgtFile srcFile c src).1.start = c.start ∧
      (processChunk zlib tgtFile srcFile c src).1.rawDataLen = c.rawDataLen) ∧
      ((processChunk zlib tgtFile srcFile c src).2 = src ∨
        (processChunk zlib tgtFile srcFile c src).2 = changeFound c.entryName src) := by
  obtain ⟨hstart, hlen, -⟩ := changeDeflateChunkToNormal_layout c
  rw [processChunk]
  split_ifs
  · exact ⟨⟨rfl, rfl⟩, .inl rfl⟩
  · split
    · exact ⟨⟨hstart, hlen⟩, .inl rfl⟩
    · split_ifs
      · exact ⟨⟨hstart, hlen⟩, .inr rfl⟩
      · split
        · exact ⟨⟨rfl, rfl⟩, .inl rfl⟩
        · exact ⟨⟨hstart, hlen⟩, .inr rfl⟩

theorem processChunks_cons (zlib : Zlib) (tgtFile srcFile : Bytes) (c : ImageChunk)
    (cs src : List ImageChunk) : processChunks zlib tgtFile srcFile (c :: cs) src =
      ((processChunk zlib tgtFile srcFile c src).1 ::
        (processChunks zlib tgtFile srcFile cs (processChunk zlib tgtFile srcFile c src).2).1,
        (processChunks zlib tgtFile srcFile cs (processChunk zlib tgtFile srcFile c src).2).2) :=
  rfl

theorem SourceLayout.processChunks {limit size : ℕ} {entries src : List ImageChunk}
    {directory : ImageChunk} (h : SourceLayout limit size entries directory)
    (hsrc : src = entries ++ [directory]) (zlib : Zlib) (tgtFile srcFile : Bytes)
    (tgt : List ImageChunk) :
    ∃ processed, (processChunks zlib tgtFile srcFile tgt src).2 = processed ++ [directory] ∧
      SourceLayout limit size processed directory := by
  induction tgt generalizing entries src with
  | nil => exact ⟨entries, hsrc, h⟩
  | cons c tgt ih =>
    rw [processChunks_cons]
    rcases (processChunk_cases zlib tgtFile srcFile c src).2 with hsame | hfound
    · exact ih h (hsame.trans hsrc)
    · have hchanged : SourceLayout limit size (changeFound c.entryName entries) directory := by
        refine ⟨fun d hd => ?_, h.type, h.name, h.pos, h.stop⟩
        obtain ⟨e, he, hstart, hlen⟩ := mem_changeFound hd
        rw [hstart, hlen]
        exact h.entry e he
      refine ih hchanged ?_
      rw [hfound, hsrc, changeFound_append h.type]

theorem processChunks_contiguous {a b : ℕ} (h : Contiguous a b cs) (src : List ImageChunk) :
    Contiguous a b (processChunks zlib tgtFile srcFile cs src).1 := by
  induction cs generalizing a src with
  | nil => exact h
  | cons c cs ih =>
    obtain ⟨hstart, hlen, hrest⟩ := h
    obtain ⟨⟨hstart', hlen'⟩, -⟩ := processChunk_cases zlib tgtFile srcFile c src
    rw [processChunks_cons]
    refine ⟨hstart'.trans hstart, hlen'.symm ▸ hlen, ?_⟩
    rw [hlen']
    exact ih hrest _

end process

end BootableRecovery.Applypatch
