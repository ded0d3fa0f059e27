import BootableRecovery.Applypatch.ImageModePatch

namespace BootableRecovery.Applypatch
open Lib

/-! imgdiff in zip mode without a limit, and what `ApplyImagePatch` makes of its patches. -/

/-- The whole file as a chunk. -/
def ZipModeImage.pseudoSource (image : ZipModeImage) : ImageChunk :=
  ImageChunk.plain 0 image.fileContent.length

/-- The source chunk that `GeneratePatchesInternal` takes for a target chunk. -/
def ZipModeImage.sourceRef (src : ZipModeImage) (t : ImageChunk) : ImageChunk :=
  if t.type ≠ .deflate then src.pseudoSource
  else (findChunkByName src.chunks t.entryName false).getD src.pseudoSource

def generatePatchesInternal (c : Codec) (tgtFile : Bytes) (src : ZipModeImage) :
    List ImageChunk → Option (List PatchChunk)
  | [] => some []
  | t :: ts => do
    let p ← makePatchChunk c tgtFile src.fileContent t (src.sourceRef t)
    let ps ← generatePatchesInternal c tgtFile src ts
    some (p :: ps)

/-- The images once they have been processed. -/
def zipImages (c : Codec) (zip : ZipArchive) (srcFile tgtFile : Bytes) :
    Option (ZipModeImage × ZipModeImage) := do
  let src ← ZipModeImage.initializeZip zip true 0 srcFile
  let tgt ← ZipModeImage.initializeZip zip false 0 tgtFile
  some (checkAndProcessChunks c.zlib tgt src)

/-- The patch chunks of `imgdiff -z`. -/
def imgdiffZip (c : Codec) (zip : ZipArchive) (srcFile tgtFile : Bytes) :
    Option (List PatchChunk) := do
  let images ← zipImages c zip srcFile tgtFile
  generatePatchesInternal c tgtFile images.2 images.1.chunks

/-! ### Zip files -/

def localSignature : Bytes := [0x50, 0x4b, 3, 4]

/-- The entries stand in an archive as they should; it starts with the header of an entry, which is
no deflated data, and a deflated entry is extracted by inflating its data. -/
structure ZipArchive.Lawful (zip : ZipArchive) (z : Inflater) : Prop where
  wellFormed : zip.WellFormed
  signed : ∀ {archive es}, zip.entries archive = some es → ∃ rest, archive = localSignature ++ rest
  refuses : ∀ rest, ∃ out, z.inflate (localSignature ++ rest) = .failed out
  extracts : ∀ {archive es}, zip.entries archive = some es → ∀ e ∈ es, e.deflated = true →
    ∀ data, e.extracted = some data → ∃ taken,
      z.inflate ((archive.drop e.offset).take e.compressedLength) = .ended taken data

/-- The entries of a file expand to less than zlib can count. -/
def EntriesFit (zip : ZipArchive) (file : Bytes) : Prop :=
  ∀ size es, zip.entries (file.take size) = some es → ∀ e ∈ es,
    ∀ data, e.extracted = some data → data.length < 2 ^ 32

/-- The lengths that imgdiff is made for. -/
structure ZipFits (zip : ZipArchive) (srcFile tgtFile : Bytes) : Prop where
  target : tgtFile.length < 2 ^ 31
  source : srcFile.length < 2 ^ 32
  targetEntries : EntriesFit zip tgtFile
  sourceEntries : EntriesFit zip srcFile

section initialised
variable {c : Codec} {zip : ZipArchive} {file tgtFile srcFile : Bytes} {limit size pos : ℕ}
  {es : List ZipEntry} {chunks src : List ImageChunk} {x t : ImageChunk} {image : ZipModeImage}
  {name : Text}

/-- Where a chunk comes from. -/
def FromEntry (es : List ZipEntry) (x : ImageChunk) : Prop :=
  x.type = .normal ∨ ∃ e ∈ es, x.start = e.offset ∧ x.rawDataLen = e.compressedLength ∧
    x.type = .deflate ∧ e.deflated = true ∧ e.extracted = some x.uncompressedData

theorem fromEntry_addZipEntry {e : ZipEntry} (h : addZipEntry 0 e = some chunks) (hx : x ∈ chunks) :
    FromEntry [e] x := by
  rcases addZipEntry_cases h with ⟨-, rfl⟩ | ⟨⟨hlimit, -⟩, -⟩ |
    ⟨-, y, rfl, hstart, hlen, hraw, hdeflate⟩
  · exact absurd hx List.not_mem_nil
  · exact absurd hlimit (lt_irrefl 0)
  · rw [List.mem_singleton.mp hx]
    cases htype : y.type with
    | normal => exact .inl htype
    | raw => exact absurd htype hraw
    | deflate =>
      exact .inr ⟨e, List.mem_singleton_self e, hstart, hlen, htype, hdeflate htype⟩

theorem FromEntry.mono {fs : List ZipEntry} (h : FromEntry fs x) (hsub : fs ⊆ es) :
    FromEntry es x :=
  h.imp_right fun ⟨e, he, hrest⟩ => ⟨e, hsub he, hrest⟩

theorem fromEntry_addZipEntries (h : addZipEntries 0 es = some chunks) (hx : x ∈ chunks) :
    FromEntry es x := by
  induction es generalizing chunks with
  | nil =>
    rw [← Option.some.inj h] at hx
    exact absurd hx List.not_mem_nil
  | cons e es ih =>
    obtain ⟨first, hfirst, h⟩ := Option.bind_eq_some_iff.mp h
    obtain ⟨rest, hrest, h⟩ := Option.bind_eq_some_iff.mp h
    rw [← Option.some.inj h] at hx
    rcases List.mem_append.mp hx with hx | hx
    · exact (fromEntry_addZipEntry hfirst hx).mono (by simp)
    · exact (ih hrest hx).mono (List.subset_cons_self e es)

theorem fromEntry_sourceChunks (h : sourceChunks 0 file es = some chunks) (hx : x ∈ chunks) :
    FromEntry es x := by
  obtain ⟨entries, hentries, h⟩ := Option.bind_eq_some_iff.mp h
  dsimp only at h
  rw [Option.ite_none_right_eq_some] at h
  rw [← Option.some.inj h.2] at hx
  rcases List.mem_append.mp hx with hx | hx
  · exact fromEntry_addZipEntries hentries hx
  · rw [List.mem_singleton.mp hx]
    exact .inl rfl

/-- What the first entry of a target adds. -/
theorem targetChunks_cons {e : ZipEntry} (h : targetChunks limit size pos (e :: es) = some chunks) :
    ∃ gap entry rest, chunks = gap ++ entry ++ rest ∧ (∀ x ∈ gap, x.type = .normal) ∧
      (entry = [] ∨ addZipEntry limit e = some entry) ∧
      (rest = [] ∨ targetChunks limit size (e.offset + e.compressedLength) es = some rest) := by
  have hgap : ∀ start len, ∀ x ∈ (if pos = e.offset then [] else [ImageChunk.plain start len]),
      x.type = .normal := by
    intro start len x hx
    split_ifs at hx
    · exact absurd hx List.not_mem_nil
    · rw [List.mem_singleton.mp hx]
      rfl
  rw [targetChunks] at h
  dsimp only at h
  by_cases hpos : pos < size
  · rw [if_pos hpos] at h
    by_cases hinside : e.offset < size
    · rw [if_pos hinside] at h
      cases hentry : addZipEntry limit e with
      | none =>
        rw [hentry] at h
        cases h
      | some entry =>
        rw [hentry] at h
        dsimp only at h
        rw [Option.ite_none_right_eq_some] at h
        obtain ⟨rest, hrest, hchunks⟩ := Option.map_eq_some_iff.mp h.2
        exact ⟨_, entry, rest, hchunks.symm, hgap _ _, .inr rfl, .inr hrest⟩
    · rw [if_neg hinside] at h
      have hnormal := hgap pos ((e.offset + 2 ^ 64 - pos) % 2 ^ 64)
      rw [Option.some.inj h] at hnormal
      exact ⟨chunks, [], [], by rw [List.append_nil, List.append_nil], hnormal, .inl rfl, .inl rfl⟩
  · rw [if_neg hpos] at h
    exact ⟨[], [], [], (Option.some.inj h).symm, fun x hx => absurd hx List.not_mem_nil, .inl rfl,
      .inl rfl⟩

theorem fromEntry_targetChunks (h : targetChunks 0 size pos es = some chunks) (hx : x ∈ chunks) :
    FromEntry es x := by
  induction es generalizing pos chunks with
  | nil =>
    rw [targetChunks] at h
    rw [← Option.some.inj h] at hx
    split_ifs at hx
    · rw [List.mem_singleton.mp hx]
      exact .inl rfl
    · exact absurd hx List.not_mem_nil
  | cons e es ih =>
    obtain ⟨gap, entry, rest, rfl, hgap, hentry, hrest⟩ := targetChunks_cons h
    rcases List.mem_append.mp hx with hx | hx
    · rcases List.mem_append.mp hx with hx | hx
      · exact .inl (hgap x hx)
      · rcases hentry with rfl | hentry
        · exact absurd hx List.not_mem_nil
        · exact (fromEntry_addZipEntry hentry hx).mono (by simp)
    · rcases hrest with rfl | hrest
      · exact absurd hx List.not_mem_nil
      · exact (ih hrest hx).mono (List.subset_cons_self e es)

/-- The deflate chunks of a file are entries of it. -/
theorem inflates_initializeZip (hzip : zip.Lawful c.inflater) (hfits : EntriesFit zip file)
    {isSource : Bool} (h : ZipModeImage.initializeZip zip isSource 0 file = some image)
    (hx : x ∈ image.chunks) :
    x.type ≠ .raw ∧
      (x.type = .deflate → Inflates c file x ∧ x.start + x.rawDataLen ≤ file.length) := by
  obtain ⟨size, es, chunks, -, hes, hchunks, rfl⟩ := initialize_cases h
  have hfrom : FromEntry (usedEntries 0 es) x := by
    rw [ZipModeImage.initializeChunks] at hchunks
    split_ifs at hchunks
    · exact fromEntry_sourceChunks hchunks hx
    · exact fromEntry_targetChunks hchunks hx
  rcases hfrom with hnormal | ⟨e, he, hstart, hlen, htype, hdeflated, hextracted⟩
  · rw [hnormal]
    exact ⟨fun h => ChunkType.noConfusion h, fun h => ChunkType.noConfusion h⟩
  · have hmem := mem_usedEntries he
    have hinside := hzip.wellFormed.inside hes e hmem
    rw [List.length_take] at hinside
    obtain ⟨taken, hinflate⟩ := hzip.extracts hes e hmem hdeflated _ hextracted
    refine ⟨fun hraw => ChunkType.noConfusion (htype.symm.trans hraw), fun _ => ⟨⟨⟨taken, ?_⟩,
      hfits size es hes e hmem _ hextracted⟩, ?_⟩⟩
    · rw [ImageChunk.rawData, hstart, hlen]
      rw [List.drop_take, List.take_take, Nat.min_eq_left (by omega)] at hinflate
      exact hinflate
    · rw [hstart, hlen]
      omega

end initialised

/-! ### The chunks once they are processed -/

section processed
variable {c : Codec} {zip : ZipArchive} {zlib : Zlib} {tgtFile srcFile : Bytes} {name : Text}
  {src cs : List ImageChunk} {x s t : ImageChunk}

theorem rebuilt_processChunk (hraw : t.type ≠ .raw)
    (hshort : t.type = .deflate → t.uncompressedData.length < 2 ^ 32) :
    Rebuilt c tgtFile (processChunk c.zlib tgtFile srcFile t src).1 := by
  rw [processChunk]
  by_cases hdeflate : t.type = .deflate
  · have hnormal : Rebuilt c tgtFile t.changeDeflateChunkToNormal :=
      rebuilt_of_normal (changed_type hdeflate)
    rw [if_neg (not_not.mpr hdeflate)]
    cases findChunkByName src t.entryName false with
    | none => exact hnormal
    | some s =>
      dsimp only
      split_ifs
      · exact hnormal
      · cases hlevel : t.reconstructDeflateChunk c.zlib tgtFile with
        | none => exact hnormal
        | some level =>
          obtain ⟨hlt, hbuilt⟩ := reconstructs hlevel
          exact ⟨hraw, hshort, fun _ => hlt, fun _ => hbuilt⟩
  · rw [if_pos hdeflate]
    exact rebuilt_of_normal (normal_of_ne hraw hdeflate)

theorem rebuilt_processChunks (h : ∀ t ∈ cs, t.type ≠ .raw ∧
      (t.type = .deflate → t.uncompressedData.length < 2 ^ 32))
    (ht : t ∈ (processChunks c.zlib tgtFile srcFile cs src).1) : Rebuilt c tgtFile t := by
  induction cs generalizing src with
  | nil => exact absurd ht List.not_mem_nil
  | cons y cs ih =>
    rw [processChunks_cons] at ht
    rcases List.mem_cons.mp ht with rfl | ht
    · obtain ⟨hraw, hshort⟩ := h y List.mem_cons_self
      exact rebuilt_processChunk hraw hshort
    · exact ih (fun z hz => h z (List.mem_cons_of_mem y hz)) ht

theorem rebuilt_merge (h : ∀ t ∈ cs, Rebuilt c tgtFile t) (ht : t ∈ mergeAdjacentNormalChunks cs) :
    Rebuilt c tgtFile t := by
  rcases mem_mergeAdjacentNormalChunks ht with hmem | hnormal
  · exact h t hmem
  · exact rebuilt_of_normal hnormal

/-- Source chunks are only changed to normal ones. -/
theorem mem_changeFound_deflate (hx : x ∈ changeFound name src) (htype : x.type = .deflate) :
    x ∈ src := by
  induction src with
  | nil => exact absurd hx List.not_mem_nil
  | cons y src ih =>
    rw [changeFound] at hx
    split_ifs at hx
    · rcases List.mem_cons.mp hx with rfl | hx
      · by_cases hy : y.type = .deflate
        · rw [changed_type hy] at htype
          cases htype
        · rw [ImageChunk.changeDeflateChunkToNormal, if_neg hy]
          exact List.mem_cons_self
      · exact List.mem_cons_of_mem y hx
    · rcases List.mem_cons.mp hx with rfl | hx
      · exact List.mem_cons_self
      · exact List.mem_cons_of_mem y (ih hx)

theorem mem_processChunks_deflate (hx : x ∈ (processChunks zlib tgtFile srcFile cs src).2)
    (htype : x.type = .deflate) : x ∈ src := by
  induction cs generalizing src with
  | nil => exact hx
  | cons y cs ih =>
    rw [processChunks_cons] at hx
    have hmem := ih hx
    rcases (processChunk_cases zlib tgtFile srcFile y src).2 with hsame | hchanged
    · rw [hsame] at hmem
      exact hmem
    · rw [hchanged] at hmem
      exact mem_changeFound_deflate hmem htype

theorem findChunkByName_deflate (h : findChunkByName src name false = some s) :
    s ∈ src ∧ s.type = .deflate := by
  rw [findChunkByName] at h
  split_ifs at h
  have hnamed := List.find?_some h
  rw [ImageChunk.isNamed, Bool.or_false, Bool.and_eq_true, decide_eq_true_eq] at hnamed
  exact ⟨List.mem_of_find?_eq_some h, hnamed.1⟩

end processed

/-! ### The patch -/

/-- A chunk that stays deflated still has a source chunk of its name, or is not longer than a patch
from the whole source file. -/
def Kept (c : Codec) (src : ZipModeImage) (t : ImageChunk) : Prop :=
  t.type = .deflate → (findChunkByName src.chunks t.entryName false).isSome = true ∨
    ∀ data, c.bsdiff src.fileContent t.uncompressedData = some data → t.rawDataLen < data.length

/-- The source region of a deflate chunk inflates to the recorded length. -/
def SourceInflates (c : Codec) (srcFile : Bytes) (p : PatchChunk) : Prop :=
  p.type = .deflate → ∃ taken out,
    c.inflater.inflate (range srcFile p.sourceStart p.sourceLen) = .ended taken out ∧
      out.length = p.sourceUncompressedLen

section patch
variable {c : Codec} {src : ZipModeImage} {tgtFile : Bytes} {i a : ℕ} {t : ImageChunk}
  {ts : List ImageChunk} {p : PatchChunk}

theorem sourceRef_normal (h : t.type = .normal) : src.sourceRef t = src.pseudoSource := by
  rw [ZipModeImage.sourceRef, if_pos]
  exact fun hdeflate => ChunkType.noConfusion (h.symm.trans hdeflate)

theorem sourceRef_deflate (h : t.type = .deflate) : src.sourceRef t =
    (findChunkByName src.chunks t.entryName false).getD src.pseudoSource :=
  if_neg (not_not.mpr h)

theorem pseudoSource_inside :
    src.pseudoSource.start + src.pseudoSource.rawDataLen ≤ src.fileContent.length :=
  (Nat.zero_add _).le

theorem pseudoSource_dataForPatch :
    src.pseudoSource.dataForPatch src.fileContent = src.fileContent := by
  change (src.fileContent.drop 0).take src.fileContent.length = _
  rw [List.drop_zero, List.take_length]

/-- The patch of a chunk that may be as long as its data. -/
theorem makePatchChunk_cases {srcFile : Bytes} {s : ImageChunk} (hdeflate : t.type = .deflate)
    (h : makePatchChunk c tgtFile srcFile t s = some p) : ∃ data,
      c.bsdiff (s.dataForPatch srcFile) t.uncompressedData = some data ∧
      (t.rawDataLen < data.length ∧ p = .ofTarget tgtFile t ∨
        data.length ≤ t.rawDataLen ∧ p = .ofChunks t s data) := by
  have hsmaller : ∀ len, PatchChunk.rawDataIsSmaller t len = decide (t.rawDataLen < len) := by
    intro len
    rw [PatchChunk.rawDataIsSmaller, hdeflate]
    exact Bool.or_false _
  rw [makePatchChunk, hsmaller, if_neg (by simp), dataForPatch_deflate hdeflate] at h
  obtain ⟨data, hdiff, hp⟩ := Option.map_eq_some_iff.mp h
  rw [hsmaller] at hp
  refine ⟨data, hdiff, ?_⟩
  by_cases hlong : t.rawDataLen < data.length
  · rw [if_pos (decide_eq_true hlong)] at hp
    exact .inl ⟨hlong, hp.symm⟩
  · rw [if_neg (by rw [decide_eq_false hlong]; exact Bool.false_ne_true)] at hp
    exact .inr ⟨not_lt.mp hlong, hp.symm⟩

section chunk
variable (hc : c.Lawful) (hbuilt : Rebuilt c tgtFile t)
  (ht : t.start + t.rawDataLen ≤ tgtFile.length) (htgt : tgtFile.length < 2 ^ 31)
  (hsrc : src.fileContent.length < 2 ^ 32)
  (hready : ∀ x ∈ src.chunks, x.type = .deflate →
    Inflates c src.fileContent x ∧ x.start + x.rawDataLen ≤ src.fileContent.length)
  (h : makePatchChunk c tgtFile src.fileContent t (src.sourceRef t) = some p)
include hc hbuilt ht htgt hsrc hready h

theorem Kept.restores (hkept : Kept c src t) :
    Restores c src.fileContent none i (t.rawData tgtFile) p ∧
      p.headerSize + p.payload.length ≤ 64 + t.rawDataLen := by
  have hbonus : ∀ s, withBonusData none i s = s := fun s => withBonusData_of_nil (ite_self _)
  have hshort : t.rawDataLen < 2 ^ 31 := ((Nat.le_add_left _ _).trans ht).trans_lt htgt
  by_cases hdeflate : t.type = .deflate
  · rw [sourceRef_deflate hdeflate] at h
    cases hfind : findChunkByName src.chunks t.entryName false with
    | some s =>
      rw [hfind, Option.getD_some, ← hbonus s] at h
      obtain ⟨hmem, hstype⟩ := findChunkByName_deflate hfind
      obtain ⟨hinflates, hinside⟩ := hready s hmem hstype
      refine makePatchChunk_restores hc ⟨hdeflate.trans hstype.symm, hbuilt, fun _ => hinflates⟩
        ht hinside hshort (((Nat.le_add_left _ _).trans hinside).trans_lt hsrc) ?_ h
      rw [hbonus]
      exact hinflates.short
    | none =>
      rw [hfind, Option.getD_none] at h
      have hlonger := (hkept hdeflate).resolve_left (by rw [hfind]; exact Bool.false_ne_true)
      obtain ⟨data, hdiff, ⟨-, rfl⟩ | ⟨hle, -⟩⟩ := makePatchChunk_cases hdeflate h
      · have hlen := rawData_length ht
        refine ⟨.raw rfl rfl (by omega), ?_⟩
        change 8 + (t.rawData tgtFile).length + 0 ≤ _
        omega
      · rw [pseudoSource_dataForPatch] at hdiff
        exact absurd (hlonger data hdiff) (not_lt.mpr hle)
  · have hnormal := normal_of_ne hbuilt.notRaw hdeflate
    rw [sourceRef_normal hnormal, ← hbonus src.pseudoSource] at h
    refine makePatchChunk_restores hc (paired_of_normal hnormal rfl) ht pseudoSource_inside hshort
      hsrc ?_ h
    rw [hbonus]
    exact Nat.two_pow_pos 32

omit hready hc ht htgt in
/-- Without a source chunk the decoder is sent to the whole file, which is no deflated data. -/
theorem breaks_of_not_kept (hfile : ∃ out, c.inflater.inflate src.fileContent = .failed out)
    (hne : src.fileContent ≠ []) (hlost : ¬Kept c src t) :
    Breaks c src.fileContent p ∧ p.headerSize + p.payload.length ≤ 64 + t.rawDataLen := by
  rw [Kept] at hlost
  push Not at hlost
  obtain ⟨hdeflate, hnone, short, hshort, hle⟩ := hlost
  rw [sourceRef_deflate hdeflate, Option.not_isSome_iff_eq_none.mp hnone, Option.getD_none] at h
  obtain ⟨data, hdiff, hcase⟩ := makePatchChunk_cases hdeflate h
  rw [pseudoSource_dataForPatch, hshort] at hdiff
  obtain rfl := Option.some.inj hdiff
  obtain ⟨-, rfl⟩ := hcase.resolve_left fun hlong => absurd hlong.1 (not_lt.mpr hle)
  have hlen : src.fileContent.length ≠ 0 := fun hzero => hne (List.length_eq_zero_iff.mp hzero)
  have hrange : range src.fileContent 0 src.fileContent.length = src.fileContent := by
    rw [range, List.drop_zero, List.take_length]
  have htarget := (dataLengthForPatch_deflate hdeflate).trans_lt (hbuilt.short hdeflate)
  refine ⟨⟨hdeflate, pseudoSource_inside, hsrc, ?_, hlen, hsrc, htarget.trans (by decide),
    hbuilt.level hdeflate⟩, ?_⟩
  · change ∃ out, c.inflater.inflate (range src.fileContent 0 src.fileContent.length) = .failed out
    rw [hrange]
    exact hfile
  · rw [PatchChunk.headerSize, PatchChunk.payload, PatchChunk.ofChunks, hdeflate]
    dsimp only
    omega

end chunk

theorem Restores.sourceInflates {old out : Bytes} (h : Restores c old none i out p) :
    SourceInflates c old p := by
  intro htype
  cases h with
  | raw hraw => exact ChunkType.noConfusion (htype.symm.trans hraw)
  | normal hnormal => exact ChunkType.noConfusion (htype.symm.trans hnormal)
  | deflate taken expanded data _ _ _ hinflate hexpanded =>
    rw [bonusOf, Option.getD_none, ite_self, List.append_nil] at hexpanded
    exact ⟨taken, expanded, hinflate, hexpanded.symm⟩

theorem Breaks.not_sourceInflates {old : Bytes} (h : Breaks c old p) : ¬SourceInflates c old p := by
  intro hinflates
  obtain ⟨taken, out, hended, -⟩ := hinflates h.type
  obtain ⟨out', hfailed⟩ := h.inflate
  rw [hended] at hfailed
  cases hfailed

/-- The patch chunks of all target chunks. -/
theorem generatePatches_outcomes {ps : List PatchChunk} (hc : c.Lawful)
    (hbuilt : ∀ t ∈ ts, Rebuilt c tgtFile t) (hts : Tiles a tgtFile.length ts)
    (htgt : tgtFile.length < 2 ^ 31) (hsrc : src.fileContent.length < 2 ^ 32)
    (hready : ∀ x ∈ src.chunks, x.type = .deflate →
      Inflates c src.fileContent x ∧ x.start + x.rawDataLen ≤ src.fileContent.length)
    (hfile : ∃ out, c.inflater.inflate src.fileContent = .failed out) (hne : src.fileContent ≠ [])
    (h : generatePatchesInternal c tgtFile src ts = some ps) :
    Chunkwise
        (fun i out p => Restores c src.fileContent none i out p ∨ Breaks c src.fileContent p) i
        (ts.map fun t => t.rawData tgtFile) ps ∧
      ((∀ t ∈ ts, Kept c src t) → Chunkwise (Restores c src.fileContent none) i
        (ts.map fun t => t.rawData tgtFile) ps) ∧
      ((∃ t ∈ ts, ¬Kept c src t) → ∃ p ∈ ps, Breaks c src.fileContent p) ∧
      ps.length = ts.length ∧
      (ps.map PatchChunk.headerSize).sum + (ps.flatMap PatchChunk.payload).length ≤
        64 * ts.length + (tgtFile.length - a) := by
  induction ts generalizing a i ps with
  | nil =>
    rw [generatePatchesInternal] at h
    rw [← Option.some.inj h]
    refine ⟨trivial, fun _ => trivial, fun hlost => ?_, rfl, Nat.zero_le _⟩
    obtain ⟨t, ht, -⟩ := hlost
    exact absurd ht List.not_mem_nil
  | cons t ts ih =>
    rw [generatePatchesInternal] at h
    obtain ⟨p, hp, h⟩ := Option.bind_eq_some_iff.mp h
    obtain ⟨qs, hqs, h⟩ := Option.bind_eq_some_iff.mp h
    have hle := hts.2.le
    have hinside := (hts.mem List.mem_cons_self).2
    have hfirst := hbuilt t List.mem_cons_self
    have hrestores : Kept c src t → _ :=
      Kept.restores (i := i) hc hfirst hinside htgt hsrc hready hp
    have hbreaks : ¬Kept c src t → _ := breaks_of_not_kept hfirst hsrc hp hfile hne
    have hsize : p.headerSize + p.payload.length ≤ 64 + t.rawDataLen := by
      by_cases hkept : Kept c src t
      · exact (hrestores hkept).2
      · exact (hbreaks hkept).2
    obtain ⟨hall, hkept, hlost, hcount, hsizes⟩ := ih (i := i + 1)
      (fun x hx => hbuilt x (List.mem_cons_of_mem t hx)) hts.2 hqs
    rw [← Option.some.inj h]
    refine ⟨⟨?_, hall⟩, fun hevery => ⟨(hrestores (hevery t List.mem_cons_self)).1,
      hkept fun x hx => hevery x (List.mem_cons_of_mem t hx)⟩, fun hsome => ?_,
      congrArg Nat.succ hcount, ?_⟩
    · by_cases hkept : Kept c src t
      · exact .inl (hrestores hkept).1
      · exact .inr (hbreaks hkept).1
    · obtain ⟨x, hx, hxlost⟩ := hsome
      rcases List.mem_cons.mp hx with rfl | hx
      · exact ⟨p, List.mem_cons_self, (hbreaks hxlost).1⟩
      · obtain ⟨q, hq, hbreak⟩ := hlost ⟨x, hx, hxlost⟩
        exact ⟨q, List.mem_cons_of_mem p hq, hbreak⟩
    · rw [List.map_cons, List.sum_cons, List.flatMap_cons, List.length_append, List.length_cons]
      omega

end patch

/-! ### The round trip -/

theorem Contiguous.tiles {a b : ℕ} {cs : List ImageChunk} (h : Contiguous a b cs) :
    Tiles a b cs := by
  induction cs generalizing a with
  | nil => exact h
  | cons x cs ih => exact ⟨h.1, ih h.2.2⟩

theorem Contiguous.count {a b : ℕ} {cs : List ImageChunk} (h : Contiguous a b cs) :
    a + cs.length ≤ b := by
  induction cs generalizing a with
  | nil => exact h.le
  | cons x cs ih =>
    have hrest := ih h.2.2
    have hpos := h.2.1
    rw [List.length_cons]
    omega

/-- The images from which the patches are made. -/
structure ZipReady (c : Codec) (srcFile tgtFile : Bytes) (tgt src : ZipModeImage) : Prop where
  source : src.fileContent = srcFile
  target : Contiguous 0 tgtFile.length tgt.chunks
  built : ∀ t ∈ tgt.chunks, Rebuilt c tgtFile t
  ready : ∀ x ∈ src.chunks, x.type = .deflate →
    Inflates c srcFile x ∧ x.start + x.rawDataLen ≤ srcFile.length
  file : ∃ out, c.inflater.inflate srcFile = .failed out
  ne : srcFile ≠ []

theorem zipReady {c : Codec} {zip : ZipArchive} {srcFile tgtFile : Bytes} {tgt src : ZipModeImage}
    (hzip : zip.Lawful c.inflater) (hfits : ZipFits zip srcFile tgtFile)
    (h : zipImages c zip srcFile tgtFile = some (tgt, src)) :
    ZipReady c srcFile tgtFile tgt src := by
  obtain ⟨src₀, hsrc, h⟩ := Option.bind_eq_some_iff.mp h
  obtain ⟨tgt₀, htgt, h⟩ := Option.bind_eq_some_iff.mp h
  obtain ⟨htgtFile, htgtLimit, -, hcontiguous⟩ := initialize_target hzip.wellFormed htgt
  have hsrcFile : src₀.fileContent = srcFile := by
    obtain ⟨size, es, chunks, -, -, -, rfl⟩ := initialize_cases hsrc
    rfl
  have hsigned : ∃ rest, srcFile = localSignature ++ rest := by
    obtain ⟨size, es, chunks, -, hes, -, -⟩ := initialize_cases hsrc
    obtain ⟨rest, hrest⟩ := hzip.signed hes
    refine ⟨rest ++ srcFile.drop size, ?_⟩
    rw [← List.append_assoc, ← hrest, List.take_append_drop]
  obtain ⟨rest, hrest⟩ := hsigned
  rw [checkAndProcessChunks, htgtFile, hsrcFile, htgtLimit] at h
  obtain ⟨rfl, rfl⟩ := Prod.mk.inj (Option.some.inj h)
  refine ⟨rfl, (processChunks_contiguous hcontiguous _).merge, fun t ht => ?_,
    fun x hx htype => ?_, hrest ▸ hzip.refuses rest, ?_⟩
  · refine rebuilt_merge (fun y hy => rebuilt_processChunks (fun z hz => ?_) hy) ht
    obtain ⟨hraw, hdeflate⟩ := inflates_initializeZip hzip hfits.targetEntries htgt hz
    exact ⟨hraw, fun htype => (hdeflate htype).1.short⟩
  · exact (inflates_initializeZip hzip hfits.sourceEntries hsrc
      (mem_processChunks_deflate hx htype)).2 htype
  · rw [hrest]
    exact List.cons_ne_nil _ _

/-- What a patch of a zip file should do. -/
structure ZipRoundTrips (c : Codec) (srcFile tgtFile : Bytes) (ps : List PatchChunk) : Prop where
  output : streamImagePatch c srcFile (PatchChunk.writePatchData ps) none = (.returned 0, tgtFile)
  inflates : ∀ p ∈ ps, SourceInflates c srcFile p

/-- No target chunk has lost its source to another one when the patches are made. -/
def SourcesKept (c : Codec) (zip : ZipArchive) (srcFile tgtFile : Bytes) : Prop :=
  ∀ tgt src, zipImages c zip srcFile tgtFile = some (tgt, src) → ∀ t ∈ tgt.chunks, Kept c src t

theorem Chunkwise.forall {R : ℕ → Bytes → PatchChunk → Prop} {P : PatchChunk → Prop} {i : ℕ}
    {outs : List Bytes} {ps : List PatchChunk} (h : Chunkwise R i outs ps)
    (himp : ∀ {i out p}, R i out p → P p) : ∀ p ∈ ps, P p := by
  induction ps generalizing i outs with
  | nil => exact fun p hp => absurd hp List.not_mem_nil
  | cons q ps ih =>
    cases outs with
    | nil => exact h.elim
    | cons out outs =>
      intro p hp
      rcases List.mem_cons.mp hp with rfl | hp
      · exact himp h.1
      · exact ih h.2 p hp

/-- The patch of a zip file gives the target, and each deflate chunk of it has a deflated source, if
and only if no source was lost; `ApplyImagePatch` returns -1 otherwise. -/
theorem zipMode_roundTrip_iff (c : Codec) (hc : c.Lawful) (zip : ZipArchive)
    (hzip : zip.Lawful c.inflater) (srcFile tgtFile : Bytes) (hfits : ZipFits zip srcFile tgtFile)
    (ps : List PatchChunk) (h : imgdiffZip c zip srcFile tgtFile = some ps) :
    (ZipRoundTrips c srcFile tgtFile ps ↔ SourcesKept c zip srcFile tgtFile) ∧
      (¬SourcesKept c zip srcFile tgtFile →
        (streamImagePatch c srcFile (PatchChunk.writePatchData ps) none).1 = .returned (-1)) := by
  obtain ⟨⟨tgt, src⟩, himages, hps⟩ := Option.bind_eq_some_iff.mp h
  obtain ⟨rfl, htiles, hbuilt, hready, hfile, hne⟩ := zipReady hzip hfits himages
  have hkeeps : SourcesKept c zip src.fileContent tgtFile ↔ ∀ t ∈ tgt.chunks, Kept c src t := by
    refine ⟨fun hall => hall tgt src himages, fun hall tgt' src' himages' => ?_⟩
    obtain ⟨rfl, rfl⟩ := Prod.mk.inj (Option.some.inj (himages.symm.trans himages'))
    exact hall
  obtain ⟨hall, hkept, hlost, hlen, hsizes⟩ := generatePatches_outcomes (i := 0) hc hbuilt
    htiles.tiles hfits.target hfits.source hready hfile hne hps
  have hcount := htiles.count
  have htarget := hfits.target
  have hsource := hfits.source
  have hpatch := writePatchData_length ps
  have hbroken : ¬SourcesKept c zip src.fileContent tgtFile →
      ∃ p ∈ ps, Breaks c src.fileContent p := by
    intro hnot
    rw [hkeeps] at hnot
    push Not at hnot
    exact hlost hnot
  refine ⟨⟨fun htrip => ?_, fun hkeep => ?_⟩, fun hnot => ?_⟩
  · by_contra hnot
    obtain ⟨p, hp, hbreak⟩ := hbroken hnot
    exact hbreak.not_sourceInflates (htrip.inflates p hp)
  · have hrestores := hkept (hkeeps.mp hkeep)
    refine ⟨?_, hrestores.forall Restores.sourceInflates⟩
    rw [streamImagePatch_writePatchData hc.eager (by omega) (by omega) (by omega) hrestores,
      ← List.flatMap_def, htiles.tiles.rawData, Nat.sub_zero, List.drop_zero, List.take_length]
  · exact streamImagePatch_breaks hc.eager (by omega) (by omega) (by omega) hall (hbroken hnot)

/-- Four zip files: an app; the app with other padding bits in its deflated data; the app with
another entry behind it, and with a copy of the first file before it. -/
def appData : Bytes := (List.range 30).map UInt8.ofNat

def zipEnd : Bytes := [0x50, 0x4b, 5, 6] ++ List.replicate 18 0

def oldZip : Bytes := localSignature ++ storedBlock appData ++ zipEnd

def paddedZip : Bytes := localSignature ++ 9 :: (storedBlock appData).tail ++ zipEnd

def updatedZip : Bytes :=
  localSignature ++ storedBlock appData ++ localSignature ++ storedBlock oldZip ++ zipEnd

def prependedZip : Bytes :=
  localSignature ++ storedBlock oldZip ++ localSignature ++ storedBlock appData ++ zipEnd

def storedEntry (name : Text) (offset : ℕ) (data : Bytes) : ZipEntry where
  name := name
  deflated := true
  offset := offset
  compressedLength := 5 + data.length
  extracted := some data

/-- The name of the copy is the name of the app with a number. -/
def appArchive : ZipArchive where
  entries archive :=
    if archive = oldZip ∨ archive = paddedZip then some [storedEntry ['a'] 4 appData]
    else if archive = updatedZip then
      some [storedEntry ['a'] 4 appData, storedEntry ['b'] 43 oldZip]
    else if archive = prependedZip then
      some [storedEntry ['a', '-', '0'] 4 oldZip, storedEntry ['a'] 74 appData]
    else none

theorem appArchive_cases {archive : Bytes} {es : List ZipEntry}
    (h : appArchive.entries archive = some es) :
    (archive = oldZip ∨ archive = paddedZip) ∧ es = [storedEntry ['a'] 4 appData] ∨
      archive = updatedZip ∧ es = [storedEntry ['a'] 4 appData, storedEntry ['b'] 43 oldZip] ∨
      archive = prependedZip ∧
        es = [storedEntry ['a', '-', '0'] 4 oldZip, storedEntry ['a'] 74 appData] := by
  simp only [appArchive] at h
  split_ifs at h with hold hupdated hprepended
  · exact .inl ⟨hold, (Option.some.inj h).symm⟩
  · exact .inr (.inl ⟨hupdated, (Option.some.inj h).symm⟩)
  · exact .inr (.inr ⟨hprepended, (Option.some.inj h).symm⟩)

/-- An entry stands in an archive. -/
def StoredIn (archive : Bytes) (e : ZipEntry) : Prop :=
  e.offset + e.compressedLength < archive.length ∧ ∃ data, e.extracted = some data ∧
    data.length < 2 ^ 32 ∧ copyCodec.inflater.inflate
      ((archive.drop e.offset).take e.compressedLength) = .ended (5 + data.length) data

theorem storedIn_appArchive {archive : Bytes} {es : List ZipEntry}
    (h : appArchive.entries archive = some es) : ∀ e ∈ es, StoredIn archive e := by
  rcases appArchive_cases h with ⟨rfl | rfl, rfl⟩ | ⟨rfl, rfl⟩ | ⟨rfl, rfl⟩
  · intro e he
    rw [List.mem_singleton.mp he]
    exact ⟨by decide, _, rfl, by decide, by decide⟩
  · intro e he
    rw [List.mem_singleton.mp he]
    exact ⟨by decide, _, rfl, by decide, by decide⟩
  · intro e he
    rcases List.mem_pair.mp he with rfl | rfl
    · exact ⟨by decide, _, rfl, by decide, by decide⟩
    · exact ⟨by decide, _, rfl, by decide, by decide⟩
  · intro e he
    rcases List.mem_pair.mp he with rfl | rfl
    · exact ⟨by decide, _, rfl, by decide, by decide⟩
    · exact ⟨by decide, _, rfl, by decide, by decide⟩

theorem appArchive_lawful : appArchive.Lawful copyCodec.inflater where
  wellFormed := by
    refine ⟨fun h e he => (storedIn_appArchive h e he).1, fun h => ?_⟩
    rcases appArchive_cases h with ⟨-, rfl⟩ | ⟨-, rfl⟩ | ⟨-, rfl⟩
    · exact List.pairwise_singleton _ _
    · exact List.pairwise_pair.mpr (by decide)
    · exact List.pairwise_pair.mpr (by decide)
  signed h := by
    rcases appArchive_cases h with ⟨rfl | rfl, -⟩ | ⟨rfl, -⟩ | ⟨rfl, -⟩
    · exact ⟨_, List.append_assoc ..⟩
    · exact ⟨_, List.append_assoc ..⟩
    · exact ⟨_, rfl⟩
    · exact ⟨_, rfl⟩
  refuses rest := ⟨[], storedInflater_failed (by decide)⟩
  extracts h e he _ data hdata := by
    obtain ⟨-, data', hdata', -, hinflate⟩ := storedIn_appArchive h e he
    obtain rfl := Option.some.inj (hdata'.symm.trans hdata)
    exact ⟨_, hinflate⟩

theorem appArchive_fits (file : Bytes) : EntriesFit appArchive file := by
  intro size es hes e he data hdata
  obtain ⟨-, data', hdata', hlen, -⟩ := storedIn_appArchive hes e he
  obtain rfl := Option.some.inj (hdata'.symm.trans hdata)
  exact hlen

/-- The app is patched in its deflated form, as its deflated data differ; the other entry is new. -/
theorem zipMode_roundTrip_updated : ∃ ps,
    imgdiffZip copyCodec appArchive paddedZip updatedZip = some ps ∧
      (ps.map fun p => p.type) = [.raw, .deflate, .raw] ∧
      ZipRoundTrips copyCodec paddedZip updatedZip ps := by
  have htypes : (imgdiffZip copyCodec appArchive paddedZip updatedZip).map
      (fun ps => ps.map fun p => p.type) = some [.raw, .deflate, .raw] := by decide +kernel
  obtain ⟨ps, hps, htypes⟩ := Option.map_eq_some_iff.mp htypes
  refine ⟨ps, hps, htypes, (zipMode_roundTrip_iff copyCodec copyCodec_lawful appArchive
    appArchive_lawful paddedZip updatedZip ⟨by decide +kernel, by decide +kernel,
      appArchive_fits _, appArchive_fits _⟩ ps hps).1.mpr ?_⟩
  have hkept : (zipImages copyCodec appArchive paddedZip updatedZip).all (fun images =>
      images.1.chunks.all fun t => t.type ≠ .deflate ||
        (findChunkByName images.2.chunks t.entryName false).isSome) = true := by decide +kernel
  intro tgt src himages t ht hdeflate
  rw [himages, Option.all_some, List.all_eq_true] at hkept
  have hfound := hkept t ht
  rw [hdeflate] at hfound
  exact .inl hfound

/-- Every patch of a zip file gives the target, and its deflate chunks have deflated sources. -/
def RoundTripsEveryZip : Prop :=
  ∀ c : Codec, c.Lawful → ∀ zip : ZipArchive, zip.Lawful c.inflater →
    ∀ (srcFile tgtFile : Bytes) (ps : List PatchChunk),
      imgdiffZip c zip srcFile tgtFile = some ps → ZipRoundTrips c srcFile tgtFile ps

/-- The copy is found under the name of the app, which the app then takes away from it. -/
theorem not_roundTripsEveryZip : ¬RoundTripsEveryZip := by
  intro h
  have hsome : (imgdiffZip copyCodec appArchive oldZip prependedZip).isSome = true := by
    decide +kernel
  obtain ⟨ps, hps⟩ := Option.isSome_iff_exists.mp hsome
  have htrip := h copyCodec copyCodec_lawful appArchive appArchive_lawful oldZip prependedZip ps hps
  have hstops : (imgdiffZip copyCodec appArchive oldZip prependedZip).all (fun ps =>
      (streamImagePatch copyCodec oldZip (PatchChunk.writePatchData ps) none).1 ≠ .returned 0) =
        true := by decide +kernel
  rw [hps, Option.all_some, htrip.output] at hstops
  exact absurd rfl (of_decide_eq_true hstops)

end BootableRecovery.Applypatch
