import BootableRecovery.Applypatch.PatchOutput

namespace BootableRecovery.Applypatch
open Lib

/-! imgdiff in image mode, and what `ApplyImagePatch` makes of its patches. -/

section imgdiff

/-- What `CheckAndProcessChunks` makes of a target chunk and the source chunk at its place. -/
def processImageChunk (zlib : Zlib) (tgtFile srcFile : Bytes) (tgt src : ImageChunk) :
    ImageChunk × ImageChunk :=
  if tgt.type ≠ .deflate then (tgt, src)
  else if tgt.same tgtFile srcFile src then
    (tgt.changeDeflateChunkToNormal, src.changeDeflateChunkToNormal)
  else
    match tgt.reconstructDeflateChunk zlib tgtFile with
    | some level => ({ tgt with compressLevel := level }, src)
    | none => (tgt.changeDeflateChunkToNormal, src.changeDeflateChunkToNormal)

def processImageChunks (zlib : Zlib) (tgtFile srcFile : Bytes) :
    List ImageChunk → List ImageChunk → List ImageChunk × List ImageChunk
  | t :: ts, s :: ss =>
    let (t, s) := processImageChunk zlib tgtFile srcFile t s
    let (ts, ss) := processImageChunks zlib tgtFile srcFile ts ss
    (t :: ts, s :: ss)
  | ts, ss => (ts, ss)

/-- `ImageModeImage::CheckAndProcessChunks` -/
def checkAndProcessImages (zlib : Zlib) (tgtFile srcFile : Bytes) (tgt src : List ImageChunk) :
    Option (List ImageChunk × List ImageChunk) :=
  let tgt := mergeAdjacentNormalChunks tgt
  let src := mergeAdjacentNormalChunks src
  if tgt.length ≠ src.length then none
  else if tgt.map ImageChunk.type ≠ src.map ImageChunk.type then none
  else
    let (tgt, src) := processImageChunks zlib tgtFile srcFile tgt src
    let tgt := mergeAdjacentNormalChunks tgt
    let src := mergeAdjacentNormalChunks src
    if tgt.length ≠ src.length then none else some (tgt, src)

/-- `SetBonusData`, of the source. -/
def setBonusData (bonus : Bytes) : List ImageChunk → Option (List ImageChunk)
  | first :: c :: cs =>
    if c.type = .deflate then
      some (first :: { c with uncompressedData := c.uncompressedData ++ bonus } :: cs)
    else none
  | _ => none

/-- It is called only when there are bonus data. -/
def addBonusData (bonus : Bytes) (src : List ImageChunk) : Option (List ImageChunk) :=
  if bonus = [] then some src else setBonusData bonus src

def makePatchChunks (c : Codec) (tgtFile srcFile : Bytes) :
    List ImageChunk → List ImageChunk → Option (List PatchChunk)
  | [], _ => some []
  | t :: ts, s :: ss => do
    let p ← makePatchChunk c tgtFile srcFile t s
    let ps ← makePatchChunks c tgtFile srcFile ts ss
    some (p :: ps)
  | _ :: _, [] => none

/-- The chunks of the target and of the source from which the patches are made. -/
def imageChunks (c : Codec) (srcFile tgtFile bonus : Bytes) :
    Option (List ImageChunk × List ImageChunk) :=
  match initializeImage c.inflater srcFile, initializeImage c.inflater tgtFile with
  | .returned true src, .returned true tgt => do
    let (tgt, src) ← checkAndProcessImages c.zlib tgtFile srcFile tgt src
    let src ← addBonusData bonus src
    some (tgt, src)
  | _, _ => none

/-- `imgdiff` without a mode; `bonus` is what the bonus file has. -/
def imgdiffImage (c : Codec) (srcFile tgtFile bonus : Bytes) : Option Bytes := do
  let (tgt, src) ← imageChunks c srcFile tgtFile bonus
  let ps ← makePatchChunks c tgtFile srcFile tgt src
  some (PatchChunk.writePatchData ps)

end imgdiff

/-! ### The chunks of a file -/

section pass
variable {z : Inflater} {file : Bytes} {pos pos' : ℕ} {chunks new result : List ImageChunk}

/-- A pass that goes on adds a chunk of data, or the three of a gzip stream. -/
theorem pass_next (hpos : pos < file.length) (h : pass z file pos = .next new pos') :
    (∃ len, 0 < len ∧ new = [ImageChunk.plain pos len] ∧ pos' = pos + len) ∨
    ∃ taken out, new = [ImageChunk.plain pos gzipHeaderLen,
        { ImageChunk.ofRange .deflate (pos + gzipHeaderLen) taken [] with uncompressedData := out },
        ImageChunk.plain (pos + gzipHeaderLen + taken) gzipFooterLen] ∧
      pos' = pos + gzipHeaderLen + taken + gzipFooterLen := by
  rw [pass] at h
  split_ifs at h with hgzip
  · have hheader : 0 < gzipHeaderLen := by decide
    by_cases hsize : file.length - pos < gzipHeaderLen + gzipFooterLen
    · rw [gzipPass, if_pos hsize] at h
      cases h
    by_cases hinit : z.init (file.drop (pos + gzipHeaderLen)) = false
    · rw [gzipPass, if_neg hsize] at h
      dsimp only at h
      rw [if_pos hinit] at h
      cases h
    cases hinflate : z.inflate (file.drop (pos + gzipHeaderLen)) with
    | failed out =>
      rw [gzipPass_failed hsize hinit hinflate] at h
      split_ifs at h
      obtain ⟨rfl, rfl⟩ := Pass.next.inj h
      exact .inl ⟨_, hheader, rfl, rfl⟩
    | ended taken out =>
      rw [gzipPass_ended hsize hinit hinflate] at h
      split_ifs at h
      · obtain ⟨rfl, rfl⟩ := Pass.next.inj h
        exact .inl ⟨_, hheader, rfl, rfl⟩
      · split at h
        · cases h
        · split_ifs at h
          · obtain ⟨rfl, rfl⟩ := Pass.next.inj h
            exact .inl ⟨_, hheader, rfl, rfl⟩
          · obtain ⟨rfl, rfl⟩ := Pass.next.inj h
            exact .inr ⟨taken, out, rfl, rfl⟩
  · obtain ⟨rfl, rfl⟩ := Pass.next.inj h
    have hlen := (scanData_spec file pos 0 (by omega)).2.2 (Bool.eq_false_iff.mpr hgzip)
      (by omega)
    exact .inl ⟨_, hlen, rfl, rfl⟩

theorem pass_stop (h : pass z file pos = .stop new) :
    new = [ImageChunk.plain pos (file.length - pos)] := by
  rw [pass] at h
  split_ifs at h with hgzip
  by_cases hsize : file.length - pos < gzipHeaderLen + gzipFooterLen
  · rw [gzipPass, if_pos hsize] at h
    exact (Pass.stop.inj h).symm
  by_cases hinit : z.init (file.drop (pos + gzipHeaderLen)) = false
  · rw [gzipPass, if_neg hsize] at h
    dsimp only at h
    rw [if_pos hinit] at h
    cases h
  cases hinflate : z.inflate (file.drop (pos + gzipHeaderLen)) with
  | failed out =>
    rw [gzipPass_failed hsize hinit hinflate] at h
    split_ifs at h
  | ended taken out =>
    rw [gzipPass_ended hsize hinit hinflate] at h
    split_ifs at h
    split at h
    · cases h
    · split_ifs at h

/-- A chunk of an image is not raw. -/
def NoRaw (chunks : List ImageChunk) : Prop := ∀ c ∈ chunks, c.type ≠ .raw

theorem noRaw_plain (start len : ℕ) : NoRaw [ImageChunk.plain start len] := by
  intro c hc
  rw [List.mem_singleton.mp hc]
  exact ChunkType.noConfusion

theorem NoRaw.append (h : NoRaw chunks) (hnew : NoRaw new) : NoRaw (chunks ++ new) :=
  fun c hc => (List.mem_append.mp hc).elim (h c) (hnew c)

theorem noRaw_next (hpos : pos < file.length) (hpass : pass z file pos = .next new pos') :
    NoRaw new := by
  rcases pass_next hpos hpass with ⟨len, -, rfl, -⟩ | ⟨taken, out, rfl, -⟩
  · exact noRaw_plain pos len
  · intro c hc
    simp only [List.mem_cons, List.not_mem_nil, or_false] at hc
    rcases hc with rfl | rfl | rfl <;> exact ChunkType.noConfusion

theorem initLoop_noRaw (h : NoRaw chunks)
    (hinit : initLoop z file pos chunks = .returned true result) : NoRaw result := by
  induction pos, chunks using initLoop.induct z file with
  | case1 pos chunks hlt new pos' hpass ih =>
    rw [initLoop_next hlt hpass] at hinit
    exact ih (h.append (noRaw_next hlt hpass)) hinit
  | case2 pos chunks hlt new hpass =>
    rw [(initLoop_last _ hlt).1 hpass] at hinit
    obtain ⟨-, rfl⟩ := InitResult.returned.inj hinit
    rw [pass_stop hpass]
    exact h.append (noRaw_plain _ _)
  | case3 pos chunks hlt hpass =>
    rw [(initLoop_last [] hlt).2.1 hpass] at hinit
    cases hinit
  | case4 pos chunks hlt hpass =>
    rw [(initLoop_last [] hlt).2.2.1 hpass] at hinit
    cases hinit
  | case5 pos chunks hlt hpass =>
    rw [(initLoop_last [] hlt).2.2.2 hpass] at hinit
    cases hinit
  | case6 pos chunks hlt =>
    rw [initLoop, dif_neg hlt] at hinit
    obtain ⟨-, rfl⟩ := InitResult.returned.inj hinit
    exact h

end pass

section merge
variable {a b a' b' : ℕ} {t s : ImageChunk} {ts ss : List ImageChunk}

theorem Tiles.le (h : Tiles a b ts) : a ≤ b := by
  induction ts generalizing a with
  | nil => exact h.le
  | cons t ts ih => exact (Nat.le_add_right _ _).trans (ih h.2)

theorem Tiles.mem (h : Tiles a b ts) (ht : t ∈ ts) : a ≤ t.start ∧ t.start + t.rawDataLen ≤ b := by
  induction ts generalizing a with
  | nil => exact absurd ht List.not_mem_nil
  | cons x xs ih =>
    obtain ⟨hstart, hrest⟩ := h
    rcases List.mem_cons.mp ht with rfl | ht
    · rw [hstart]
      exact ⟨le_rfl, hrest.le⟩
    · obtain ⟨hle, hend⟩ := ih hrest ht
      exact ⟨by omega, hend⟩

theorem Tiles.rawData {file : Bytes} (h : Tiles a b ts) :
    ts.flatMap (fun t => t.rawData file) = (file.drop a).take (b - a) := by
  induction ts generalizing a with
  | nil =>
    obtain rfl : a = b := h
    rw [Nat.sub_self, List.take_zero]
    rfl
  | cons t ts ih =>
    obtain ⟨hstart, hrest⟩ := h
    have hle := hrest.le
    have hsplit : b - a = t.rawDataLen + (b - (a + t.rawDataLen)) := by omega
    rw [List.flatMap_cons, ih hrest, ImageChunk.rawData, hstart, hsplit, List.take_add,
      List.drop_drop]

/-- Where chunks stand one behind the other, adjacent normal ones are merged. -/
theorem isAdjacentNormal_iff (h : Tiles a b (t :: s :: ts)) :
    t.isAdjacentNormal s = true ↔ t.type = .normal ∧ s.type = .normal := by
  obtain ⟨hstart, hnext, -⟩ := h
  rw [ImageChunk.isAdjacentNormal, hstart, hnext]
  simp

theorem Tiles.mergeAdjacentNormal (h : Tiles a b (t :: s :: ts)) :
    Tiles a b (t.mergeAdjacentNormal s :: ts) := by
  obtain ⟨hstart, -, hrest⟩ := h
  refine ⟨hstart, ?_⟩
  rw [ImageChunk.mergeAdjacentNormal, ← Nat.add_assoc]
  exact hrest

theorem mergeNormalFrom_tiles (h : Tiles a b (t :: ts)) : Tiles a b (mergeNormalFrom t ts) := by
  induction ts generalizing a t with
  | nil => exact h
  | cons s ts ih =>
    rw [mergeNormalFrom]
    split_ifs
    · exact ih h.mergeAdjacentNormal
    · exact ⟨h.1, ih h.2⟩

theorem Tiles.merge (h : Tiles a b ts) : Tiles a b (mergeAdjacentNormalChunks ts) := by
  cases ts with
  | nil => exact h
  | cons t ts => exact mergeNormalFrom_tiles h

theorem NoRaw.merge (h : NoRaw ts) : NoRaw (mergeAdjacentNormalChunks ts) := by
  intro c hc
  rcases mem_mergeAdjacentNormalChunks hc with hmem | hnormal
  · exact h c hmem
  · rw [hnormal]
    exact ChunkType.noConfusion

/-- A relation of chunks that says nothing about normal ones is kept by merging both sides. -/
theorem forall₂_mergeNormalFrom {R : ImageChunk → ImageChunk → Prop}
    (htype : ∀ {t s}, R t s → t.type = s.type)
    (hnormal : ∀ {t s}, t.type = .normal → s.type = .normal → R t s)
    (htiles : Tiles a b (t :: ts)) (htiles' : Tiles a' b' (s :: ss)) (hfirst : R t s)
    (hrest : List.Forall₂ R ts ss) :
    List.Forall₂ R (mergeNormalFrom t ts) (mergeNormalFrom s ss) := by
  induction hrest generalizing a a' t s with
  | nil => exact .cons hfirst .nil
  | @cons t' s' ts ss hsecond hrest ih =>
    have hmerge : t.isAdjacentNormal t' = true ↔ s.isAdjacentNormal s' = true := by
      rw [isAdjacentNormal_iff htiles, isAdjacentNormal_iff htiles', htype hfirst, htype hsecond]
    rw [mergeNormalFrom, mergeNormalFrom]
    by_cases hadjacent : t.isAdjacentNormal t' = true
    · rw [if_pos hadjacent, if_pos (hmerge.mp hadjacent)]
      obtain ⟨ht, -⟩ := (isAdjacentNormal_iff htiles).mp hadjacent
      obtain ⟨hs, -⟩ := (isAdjacentNormal_iff htiles').mp (hmerge.mp hadjacent)
      exact ih htiles.mergeAdjacentNormal htiles'.mergeAdjacentNormal (hnormal ht hs)
    · rw [if_neg hadjacent, if_neg (hmerge.not.mp hadjacent)]
      exact .cons hfirst (ih htiles.2 htiles'.2 hsecond)

theorem forall₂_merge {R : ImageChunk → ImageChunk → Prop}
    (htype : ∀ {t s}, R t s → t.type = s.type)
    (hnormal : ∀ {t s}, t.type = .normal → s.type = .normal → R t s)
    (htiles : Tiles a b ts) (htiles' : Tiles a' b' ss) (h : List.Forall₂ R ts ss) :
    List.Forall₂ R (mergeAdjacentNormalChunks ts) (mergeAdjacentNormalChunks ss) := by
  cases h with
  | nil => exact .nil
  | cons hfirst hrest =>
    exact forall₂_mergeNormalFrom htype hnormal htiles htiles' hfirst hrest

end merge

/-! ### Pairs of chunks -/

/-- A deflate chunk with the inflation of its data, of a length that zlib can count. -/
structure Inflates (c : Codec) (file : Bytes) (t : ImageChunk) : Prop where
  inflate : ∃ taken, c.inflater.inflate (t.rawData file) = .ended taken t.uncompressedData
  short : t.uncompressedData.length < 2 ^ 32

/-- A target chunk that the decoder can build, once it has the data. -/
structure Rebuilt (c : Codec) (tgtFile : Bytes) (t : ImageChunk) : Prop where
  notRaw : t.type ≠ .raw
  short : t.type = .deflate → t.uncompressedData.length < 2 ^ 32
  level : t.type = .deflate → t.compressLevel < 2 ^ 32
  deflates : t.type = .deflate →
    c.deflate (imageParams t.compressLevel) t.uncompressedData = some (t.rawData tgtFile)

/-- A target chunk and the source chunk for it. -/
structure Paired (c : Codec) (tgtFile srcFile : Bytes) (t s : ImageChunk) : Prop where
  type : t.type = s.type
  built : Rebuilt c tgtFile t
  inflates : t.type = .deflate → Inflates c srcFile s

section pairs
variable {c : Codec} {tgtFile srcFile : Bytes} {t s : ImageChunk} {ts ss : List ImageChunk}

theorem rebuilt_of_normal (h : t.type = .normal) : Rebuilt c tgtFile t := by
  have habsurd : t.type ≠ .deflate := fun hdeflate => ChunkType.noConfusion (h.symm.trans hdeflate)
  exact ⟨fun hraw => ChunkType.noConfusion (h.symm.trans hraw),
    fun hdeflate => absurd hdeflate habsurd, fun hdeflate => absurd hdeflate habsurd,
    fun hdeflate => absurd hdeflate habsurd⟩

theorem paired_of_normal (ht : t.type = .normal) (hs : s.type = .normal) :
    Paired c tgtFile srcFile t s :=
  ⟨ht.trans hs.symm, rebuilt_of_normal ht,
    fun hdeflate => ChunkType.noConfusion (ht.symm.trans hdeflate)⟩

theorem normal_of_ne (hraw : t.type ≠ .raw) (hdeflate : t.type ≠ .deflate) : t.type = .normal := by
  cases htype : t.type with
  | normal => rfl
  | deflate => exact absurd htype hdeflate
  | raw => exact absurd htype hraw

theorem reconstructs {level : ℕ} (h : t.reconstructDeflateChunk c.zlib tgtFile = some level) :
    level < 2 ^ 32 ∧
      c.deflate (imageParams level) t.uncompressedData = some (t.rawData tgtFile) := by
  rw [ImageChunk.reconstructDeflateChunk] at h
  split_ifs at h with htype hsix hnine
  · obtain rfl := Option.some.inj h
    exact ⟨by decide, hsix⟩
  · obtain rfl := Option.some.inj h
    exact ⟨by decide, hnine⟩

theorem changed_type (h : t.type = .deflate) : t.changeDeflateChunkToNormal.type = .normal := by
  rw [ImageChunk.changeDeflateChunkToNormal, if_pos h]

/-- Processing leaves two normal chunks, or a deflate chunk that can be built. -/
theorem paired_processImageChunk (htype : t.type = s.type) (hraw : t.type ≠ .raw)
    (ht : t.type = .deflate → Inflates c tgtFile t)
    (hs : s.type = .deflate → Inflates c srcFile s) :
    Paired c tgtFile srcFile (processImageChunk c.zlib tgtFile srcFile t s).1
      (processImageChunk c.zlib tgtFile srcFile t s).2 := by
  rw [processImageChunk]
  by_cases hdeflate : t.type = .deflate
  · have hnormal : Paired c tgtFile srcFile _ _ :=
      paired_of_normal (changed_type hdeflate) (changed_type (htype ▸ hdeflate))
    rw [if_neg (not_not.mpr hdeflate)]
    split_ifs
    · exact hnormal
    · cases hlevel : t.reconstructDeflateChunk c.zlib tgtFile with
      | none => exact hnormal
      | some level =>
        obtain ⟨hlt, hbuilt⟩ := reconstructs hlevel
        exact ⟨htype, ⟨hraw, fun _ => (ht hdeflate).short, fun _ => hlt, fun _ => hbuilt⟩,
          fun _ => hs (htype ▸ hdeflate)⟩
  · rw [if_pos hdeflate]
    have hnormal := normal_of_ne hraw hdeflate
    exact paired_of_normal hnormal (htype ▸ hnormal)

/-- The place of a chunk stays. -/
theorem processImageChunk_place (tgtFile srcFile : Bytes) (t s : ImageChunk) (zlib : Zlib) :
    ((processImageChunk zlib tgtFile srcFile t s).1.start = t.start ∧
        (processImageChunk zlib tgtFile srcFile t s).1.rawDataLen = t.rawDataLen) ∧
      (processImageChunk zlib tgtFile srcFile t s).2.start = s.start ∧
        (processImageChunk zlib tgtFile srcFile t s).2.rawDataLen = s.rawDataLen := by
  have hchange : ∀ x : ImageChunk, x.changeDeflateChunkToNormal.start = x.start ∧
      x.changeDeflateChunkToNormal.rawDataLen = x.rawDataLen := by
    intro x
    rw [ImageChunk.changeDeflateChunkToNormal]
    split_ifs <;> exact ⟨rfl, rfl⟩
  rw [processImageChunk]
  split_ifs
  · exact ⟨⟨rfl, rfl⟩, rfl, rfl⟩
  · exact ⟨hchange t, hchange s⟩
  · cases t.reconstructDeflateChunk zlib tgtFile with
    | none => exact ⟨hchange t, hchange s⟩
    | some level => exact ⟨⟨rfl, rfl⟩, rfl, rfl⟩

theorem processImageChunks_tiles {a b a' b' : ℕ} (zlib : Zlib) (hts : Tiles a b ts)
    (hss : Tiles a' b' ss) :
    Tiles a b (processImageChunks zlib tgtFile srcFile ts ss).1 ∧
      Tiles a' b' (processImageChunks zlib tgtFile srcFile ts ss).2 := by
  induction ts generalizing a a' ss with
  | nil => exact ⟨hts, hss⟩
  | cons t ts ih =>
    cases ss with
    | nil => exact ⟨hts, hss⟩
    | cons s ss =>
      obtain ⟨⟨ht, htlen⟩, hs, hslen⟩ := processImageChunk_place tgtFile srcFile t s zlib
      obtain ⟨htiles, htiles'⟩ := ih hts.2 hss.2
      rw [← htlen] at htiles
      rw [← hslen] at htiles'
      exact ⟨⟨ht.trans hts.1, htiles⟩, hs.trans hss.1, htiles'⟩

theorem forall₂_processImageChunks (htypes : ts.map ImageChunk.type = ss.map ImageChunk.type)
    (hts : ∀ t ∈ ts, t.type ≠ .raw ∧ (t.type = .deflate → Inflates c tgtFile t))
    (hss : ∀ s ∈ ss, s.type = .deflate → Inflates c srcFile s) :
    List.Forall₂ (Paired c tgtFile srcFile)
      (processImageChunks c.zlib tgtFile srcFile ts ss).1
      (processImageChunks c.zlib tgtFile srcFile ts ss).2 := by
  induction ts generalizing ss with
  | nil =>
    rw [List.map_eq_nil_iff.mp htypes.symm]
    exact .nil
  | cons t ts ih =>
    cases ss with
    | nil => cases htypes
    | cons s ss =>
      obtain ⟨htype, hrest⟩ := List.cons.inj htypes
      obtain ⟨hraw, ht⟩ := hts t List.mem_cons_self
      exact .cons (paired_processImageChunk htype hraw ht (hss s List.mem_cons_self))
        (ih hrest (fun x hx => hts x (List.mem_cons_of_mem t hx))
          fun x hx => hss x (List.mem_cons_of_mem s hx))

theorem littleEndian_lt (bytes : Bytes) : littleEndian bytes < 256 ^ bytes.length := by
  induction bytes with
  | nil => exact Nat.one_pos
  | cons byte bytes ih =>
    have hbyte := byte.toNat_lt
    rw [littleEndian, List.length_cons, pow_succ]
    omega

theorem field_lt (file : Bytes) (start len : ℕ) : field file start len < 256 ^ len :=
  (littleEndian_lt _).trans_le (Nat.pow_le_pow_right (by decide) (List.length_take_le _ _))

/-- The deflate chunks of a file, merged or not. -/
theorem Framed.inflates {file : Bytes} (h : Framed c.inflater file ts) (ht : t ∈ ts)
    (htype : t.type = .deflate) : Inflates c file t := by
  obtain ⟨before, after, hsplit⟩ := List.append_of_mem ht
  obtain ⟨hinflate, -, footer, _, -, -, -, hread⟩ := h before t after hsplit htype
  refine ⟨⟨_, hinflate⟩, ?_⟩
  rw [read32] at hread
  split_ifs at hread
  rw [← Option.some.inj hread]
  exact field_lt file _ 4

/-- The chunks of a whole file. -/
structure Covers (c : Codec) (file : Bytes) (cs : List ImageChunk) : Prop where
  tiles : Tiles 0 file.length cs
  types : NoRaw cs
  inflates : ∀ x ∈ cs, x.type = .deflate → Inflates c file x

theorem covers_initializeImage {file : Bytes} (hz : c.inflater.Lawful)
    (hinit : initializeImage c.inflater file = .returned true ts) : Covers c file ts := by
  have hempty : Framed c.inflater file [] := fun before _ _ hsplit =>
    absurd hsplit.symm (List.append_ne_nil_of_right_ne_nil before (List.cons_ne_nil _ _))
  have htypes := initLoop_noRaw (fun x hx => absurd hx List.not_mem_nil) hinit
  rcases initLoop_spec hz 0 [] (Nat.zero_le _) rfl hempty with ⟨⟨_, _, hloop, hcut⟩, -⟩ | ⟨hloop, -⟩
  · obtain ⟨rfl, rfl⟩ := InitResult.returned.inj (hloop.symm.trans hinit)
    obtain ⟨htiles, hframed⟩ := hcut rfl
    exact ⟨htiles, htypes, fun x hx => hframed.inflates hx⟩
  · rw [initializeImage] at hinit
    simp [hinit] at hloop

theorem Covers.merge {file : Bytes} (h : Covers c file ts) :
    Covers c file (mergeAdjacentNormalChunks ts) where
  tiles := h.tiles.merge
  types := h.types.merge
  inflates x hx htype := by
    rcases mem_mergeAdjacentNormalChunks hx with hmem | hnormal
    · exact h.inflates x hmem htype
    · rw [hnormal] at htype
      cases htype

/-- Merging does not go awry: the chunks stay in pairs. -/
theorem checkAndProcessImages_spec {us vs : List ImageChunk} (hts : Covers c tgtFile ts)
    (hss : Covers c srcFile ss)
    (h : checkAndProcessImages c.zlib tgtFile srcFile ts ss = some (us, vs)) :
    List.Forall₂ (Paired c tgtFile srcFile) us vs ∧ Tiles 0 tgtFile.length us ∧
      Tiles 0 srcFile.length vs := by
  have htgt := hts.merge
  have hsrc := hss.merge
  rw [checkAndProcessImages] at h
  dsimp only at h
  split_ifs at h with _ htypes
  obtain ⟨rfl, rfl⟩ := Prod.mk.inj (Option.some.inj h)
  obtain ⟨htiles, htiles'⟩ := processImageChunks_tiles c.zlib htgt.tiles hsrc.tiles
  have hpairs := forall₂_processImageChunks (not_not.mp htypes)
    (fun x hx => ⟨htgt.types x hx, htgt.inflates x hx⟩) hsrc.inflates
  exact ⟨forall₂_merge Paired.type paired_of_normal htiles htiles' hpairs, htiles.merge,
    htiles'.merge⟩

end pairs

/-! ### The patch -/

/-- A source chunk with the bonus data that the decoder puts behind it. -/
def withBonusData (bonusData : Option Bytes) (i : ℕ) (s : ImageChunk) : ImageChunk :=
  if s.type = .deflate then
    { s with uncompressedData := s.uncompressedData ++ bonusOf bonusData i }
  else s

def withBonusFrom (bonusData : Option Bytes) : ℕ → List ImageChunk → List ImageChunk
  | _, [] => []
  | i, s :: ss => withBonusData bonusData i s :: withBonusFrom bonusData (i + 1) ss

section patch
variable {c : Codec} {tgtFile srcFile : Bytes} {bonusData : Option Bytes} {i a b : ℕ}
  {t s : ImageChunk} {ts ss : List ImageChunk}

theorem withBonusData_of_nil (h : bonusOf bonusData i = []) : withBonusData bonusData i s = s := by
  rw [withBonusData, h, List.append_nil]
  split_ifs <;> rfl

theorem withBonusFrom_of_nil (h : ∀ j, i ≤ j → bonusOf bonusData j = []) :
    withBonusFrom bonusData i ss = ss := by
  induction ss generalizing i with
  | nil => rfl
  | cons s ss ih =>
    rw [withBonusFrom, withBonusData_of_nil (h i le_rfl), ih fun j hj => h j (Nat.le_of_succ_le hj)]

theorem bonusOf_of_ne (h : i ≠ 1) : bonusOf bonusData i = [] := if_neg h

/-- `SetBonusData` takes the chunk to which the decoder adds the bonus data. -/
theorem withBonusFrom_eq (h : addBonusData (bonusData.getD []) ss = some ts) :
    ts = withBonusFrom bonusData 0 ss := by
  rw [addBonusData] at h
  by_cases hnone : bonusData.getD [] = []
  · rw [if_pos hnone] at h
    rw [withBonusFrom_of_nil]
    · exact (Option.some.inj h).symm
    · intro j _
      rw [bonusOf, hnone, ite_self]
  · rw [if_neg hnone] at h
    obtain _ | ⟨first, _ | ⟨x, xs⟩⟩ := ss
    · cases h
    · cases h
    · rw [setBonusData, Option.ite_none_right_eq_some] at h
      obtain ⟨htype, h⟩ := h
      rw [← Option.some.inj h, withBonusFrom, withBonusFrom,
        withBonusData_of_nil (bonusOf_of_ne (by decide)),
        withBonusFrom_of_nil fun j hj => bonusOf_of_ne (by omega), withBonusData, if_pos htype]
      rfl

theorem dataForPatch_normal {file : Bytes} (h : t.type = .normal) :
    t.dataForPatch file = t.rawData file := by
  rw [ImageChunk.dataForPatch, h]

theorem dataForPatch_deflate {file : Bytes} (h : t.type = .deflate) :
    t.dataForPatch file = t.uncompressedData := by
  rw [ImageChunk.dataForPatch, h]

theorem dataLengthForPatch_deflate (h : t.type = .deflate) :
    t.dataLengthForPatch = t.uncompressedData.length := by
  rw [ImageChunk.dataLengthForPatch, h]

theorem rawData_length {file : Bytes} (h : t.start + t.rawDataLen ≤ file.length) :
    (t.rawData file).length = t.rawDataLen := by
  rw [ImageChunk.rawData, List.length_take, List.length_drop]
  omega

/-- The patch of a pair gives the target chunk back, and is not much longer. -/
theorem makePatchChunk_restores {p : PatchChunk} (hc : c.Lawful)
    (hpair : Paired c tgtFile srcFile t s) (ht : t.start + t.rawDataLen ≤ tgtFile.length)
    (hs : s.start + s.rawDataLen ≤ srcFile.length)
    (htgt : t.rawDataLen < 2 ^ 31) (hsrc : s.rawDataLen < 2 ^ 32)
    (hroom : (withBonusData bonusData i s).uncompressedData.length < 2 ^ 32)
    (h : makePatchChunk c tgtFile srcFile t (withBonusData bonusData i s) = some p) :
    Restores c srcFile bonusData i (t.rawData tgtFile) p ∧
      p.headerSize + p.payload.length ≤ 64 + t.rawDataLen := by
  have hlen := rawData_length ht
  have hraw : Restores c srcFile bonusData i (t.rawData tgtFile) (.ofTarget tgtFile t) ∧
      (PatchChunk.ofTarget tgtFile t).headerSize + (PatchChunk.ofTarget tgtFile t).payload.length ≤
        64 + t.rawDataLen := by
    refine ⟨.raw rfl rfl (by omega), ?_⟩
    change 8 + (t.rawData tgtFile).length + 0 ≤ _
    omega
  rw [makePatchChunk] at h
  split_ifs at h with hsmaller
  · obtain rfl := Option.some.inj h
    exact hraw
  obtain ⟨data, hdiff, hp⟩ := Option.map_eq_some_iff.mp h
  split_ifs at hp with hlonger
  · rw [← hp]
    exact hraw
  have hdata : data.length ≤ t.rawDataLen := by
    simp only [PatchChunk.rawDataIsSmaller, Bool.or_eq_true, decide_eq_true_eq, not_or] at hlonger
    exact not_lt.mp hlonger.1
  obtain ⟨hheader, hpatches⟩ := hc.patches hdiff
  rw [← hp]
  cases htype : t.type with
  | raw => exact absurd htype hpair.built.notRaw
  | normal =>
    have hstype : s.type = .normal := hpair.type ▸ htype
    have hsame : withBonusData bonusData i s = s := if_neg (by rw [hstype]; decide)
    rw [hsame] at hpatches ⊢
    rw [dataForPatch_normal hstype, dataForPatch_normal htype] at hpatches
    refine ⟨.normal htype hs hpatches, ?_⟩
    rw [PatchChunk.headerSize, PatchChunk.payload, PatchChunk.ofChunks, htype]
    dsimp only
    omega
  | deflate =>
    have hstype : s.type = .deflate := hpair.type ▸ htype
    have hbonus : withBonusData bonusData i s =
        { s with uncompressedData := s.uncompressedData ++ bonusOf bonusData i } := if_pos hstype
    have hexpanded : (withBonusData bonusData i s).dataLengthForPatch =
        (withBonusData bonusData i s).uncompressedData.length :=
      dataLengthForPatch_deflate (by rw [hbonus]; exact hstype)
    have hbuilt := hpair.built.deflates htype
    have hne : t.uncompressedData ≠ [] := by
      intro hnil
      rw [hnil] at hbuilt
      have hshort := hc.nothing hbuilt
      omega
    rw [hbonus] at hpatches hexpanded hroom ⊢
    rw [dataForPatch_deflate htype, dataForPatch_deflate (by exact hstype)] at hpatches
    obtain ⟨taken, hinflate⟩ := (hpair.inflates htype).inflate
    refine ⟨.deflate taken s.uncompressedData t.uncompressedData htype hs hsrc hinflate
      hexpanded (hexpanded.trans_lt hroom) hpatches (dataLengthForPatch_deflate htype) hne
      ((hpair.built.short htype).trans (by decide)) (hpair.built.level htype) hbuilt, ?_⟩
    rw [PatchChunk.headerSize, PatchChunk.payload, PatchChunk.ofChunks, htype]
    dsimp only
    omega

/-- Those of all pairs. -/
theorem makePatchChunks_restores {ps : List PatchChunk} (hc : c.Lawful)
    (hpairs : List.Forall₂ (Paired c tgtFile srcFile) ts ss) (hts : Tiles a tgtFile.length ts)
    (hss : Tiles b srcFile.length ss) (htgt : ∀ x ∈ ts, x.rawDataLen < 2 ^ 31)
    (hsrc : ∀ x ∈ ss, x.rawDataLen < 2 ^ 32)
    (hroom : ∀ x ∈ withBonusFrom bonusData i ss, x.uncompressedData.length < 2 ^ 32)
    (h : makePatchChunks c tgtFile srcFile ts (withBonusFrom bonusData i ss) = some ps) :
    Chunkwise (Restores c srcFile bonusData) i (ts.map fun t => t.rawData tgtFile) ps ∧
      ps.length = ts.length ∧
      (ps.map PatchChunk.headerSize).sum + (ps.flatMap PatchChunk.payload).length ≤
        64 * ts.length + (tgtFile.length - a) := by
  induction hpairs generalizing a b i ps with
  | nil =>
    rw [makePatchChunks] at h
    rw [← Option.some.inj h]
    exact ⟨trivial, rfl, Nat.zero_le _⟩
  | @cons t s ts ss hpair hpairs ih =>
    rw [withBonusFrom, makePatchChunks] at h
    obtain ⟨p, hp, h⟩ := Option.bind_eq_some_iff.mp h
    obtain ⟨qs, hqs, h⟩ := Option.bind_eq_some_iff.mp h
    obtain ⟨hrestores, hsize⟩ := makePatchChunk_restores hc hpair (hts.mem List.mem_cons_self).2
      (hss.mem List.mem_cons_self).2 (htgt t List.mem_cons_self) (hsrc s List.mem_cons_self)
      (hroom _ List.mem_cons_self) hp
    obtain ⟨hrest, hcount, hsizes⟩ := ih hts.2 hss.2
      (fun x hx => htgt x (List.mem_cons_of_mem _ hx))
      (fun x hx => hsrc x (List.mem_cons_of_mem _ hx))
      (fun x hx => hroom x (List.mem_cons_of_mem _ hx)) hqs
    have hle := hts.2.le
    rw [← Option.some.inj h]
    refine ⟨⟨hrestores, hrest⟩, congrArg Nat.succ hcount, ?_⟩
    rw [List.map_cons, List.sum_cons, List.flatMap_cons, List.length_append, List.length_cons]
    omega

theorem writePatchData_length (ps : List PatchChunk) :
    (PatchChunk.writePatchData ps).length =
      12 + (ps.map PatchChunk.headerSize).sum + (ps.flatMap PatchChunk.payload).length := by
  rw [PatchChunk.writePatchData]
  simp only [List.length_append, littleEndianBytes_length, PatchChunk.writeHeaders_length]
  rfl

end patch

/-- The lengths that imgdiff is made for: a chunk of the target that is written as it is has a
signed length of 32 bits, as has the number of chunks, and zlib counts its input and output in 32
bits. -/
structure ChunksFit (tgt src : List ImageChunk) : Prop where
  count : tgt.length < 2 ^ 31
  target : ∀ x ∈ tgt, x.rawDataLen < 2 ^ 31
  source : ∀ x ∈ src, x.rawDataLen < 2 ^ 32
  expanded : ∀ x ∈ src, x.uncompressedData.length < 2 ^ 32

def ImageFits (c : Codec) (srcFile tgtFile bonus : Bytes) : Prop :=
  ∀ tgt src, imageChunks c srcFile tgtFile bonus = some (tgt, src) → ChunksFit tgt src

theorem Tiles.le_mul {a b n : ℕ} {ts : List ImageChunk} (h : Tiles a b ts)
    (hlen : ∀ x ∈ ts, x.rawDataLen < n) : b ≤ a + ts.length * n := by
  induction ts generalizing a with
  | nil => exact h.ge.trans (Nat.le_add_right _ _)
  | cons t ts ih =>
    have hrest := ih h.2 fun x hx => hlen x (List.mem_cons_of_mem t hx)
    have hfirst := hlen t List.mem_cons_self
    rw [List.length_cons, Nat.succ_mul]
    omega

theorem withBonusFrom_rawDataLen {bonusData : Option Bytes} {n i : ℕ} {ss : List ImageChunk}
    (h : ∀ x ∈ withBonusFrom bonusData i ss, x.rawDataLen < n) : ∀ x ∈ ss, x.rawDataLen < n := by
  induction ss generalizing i with
  | nil => exact fun x hx => absurd hx List.not_mem_nil
  | cons s ss ih =>
    have hsame : (withBonusData bonusData i s).rawDataLen = s.rawDataLen := by
      rw [withBonusData]
      split_ifs
      · rfl
      · rfl
    rw [withBonusFrom, List.forall_mem_cons, hsame] at h
    rw [List.forall_mem_cons]
    exact ⟨h.1, ih h.2⟩

/-- `ApplyImagePatch` makes the target of the source, the patch and the bonus data. -/
theorem imageMode_roundTrip (c : Codec) (hc : c.Lawful) (srcFile tgtFile patch : Bytes)
    (bonusData : Option Bytes) (hfits : ImageFits c srcFile tgtFile (bonusData.getD []))
    (h : imgdiffImage c srcFile tgtFile (bonusData.getD []) = some patch) :
    streamImagePatch c srcFile patch bonusData = (.returned 0, tgtFile) := by
  obtain ⟨⟨us, vs⟩, hchunks, h⟩ := Option.bind_eq_some_iff.mp h
  obtain ⟨ps, hps, h⟩ := Option.bind_eq_some_iff.mp h
  obtain ⟨hcount, htarget, hsource, hexpanded⟩ := hfits us vs hchunks
  rw [← Option.some.inj h]
  rw [imageChunks] at hchunks
  split at hchunks
  case h_2 => cases hchunks
  case h_1 src tgt hsrc htgt =>
    obtain ⟨⟨ts, ss⟩, hcheck, hchunks⟩ := Option.bind_eq_some_iff.mp hchunks
    obtain ⟨vs, hbonus, hchunks⟩ := Option.bind_eq_some_iff.mp hchunks
    obtain ⟨rfl, rfl⟩ := Prod.mk.inj (Option.some.inj hchunks)
    obtain ⟨hpairs, hts, hss⟩ := checkAndProcessImages_spec
      (covers_initializeImage hc.inflater htgt) (covers_initializeImage hc.inflater hsrc) hcheck
    rw [withBonusFrom_eq hbonus] at hps hexpanded hsource
    have hsource := withBonusFrom_rawDataLen hsource
    obtain ⟨hrestores, hlen, hsizes⟩ := makePatchChunks_restores hc hpairs hts hss htarget
      hsource hexpanded hps
    have htgtSize := hts.le_mul htarget
    have hsrcSize := hss.le_mul hsource
    have hpatch := writePatchData_length ps
    rw [← hpairs.length_eq] at hsrcSize
    rw [streamImagePatch_writePatchData hc.eager (by omega) (by omega) (by omega) hrestores,
      ← List.flatMap_def, hts.rawData, Nat.sub_zero, List.drop_zero, List.take_length]

/-- A copy of the source, or the target itself with a 1 before each byte. -/
def copyDiff (src tgt : Bytes) : Bytes :=
  if tgt = src then List.replicate 32 0
  else 1 :: (List.replicate 31 0 ++ (tgt.flatMap (fun b => [1, b]) ++ [0]))

def readMarked : Bytes → Option Bytes
  | 1 :: b :: rest => (readMarked rest).map (b :: ·)
  | 0 :: _ => some []
  | _ => none

def copyPatch (src patch : Bytes) : Option Bytes :=
  match patch with
  | 0 :: _ => some src
  | 1 :: rest => readMarked (rest.drop 31)
  | _ => none

/-- One stored block. -/
def storedBlock (data : Bytes) : Bytes :=
  1 :: (littleEndianBytes 2 data.length ++ (littleEndianBytes 2 (0xffff - data.length) ++ data))

/-- A codec of copies and stored blocks. -/
def copyCodec : Codec where
  bsdiff src tgt := some (copyDiff src tgt)
  bspatch := copyPatch
  inflater := { storedInflater with eager := fun _ => true }
  deflate _ data := if data.length < 2 ^ 16 then some (storedBlock data) else none

theorem readMarked_flatMap (tgt rest : Bytes) :
    readMarked (tgt.flatMap (fun b => [1, b]) ++ ([0] ++ rest)) = some tgt := by
  induction tgt with
  | nil => rfl
  | cons b tgt ih =>
    rw [List.flatMap_cons, List.append_assoc]
    change (readMarked (tgt.flatMap (fun b => [1, b]) ++ ([0] ++ rest))).map (b :: ·) = _
    rw [ih]
    rfl

theorem copyDiff_length (src tgt : Bytes) : 32 ≤ (copyDiff src tgt).length := by
  rw [copyDiff]
  split_ifs
  · exact (List.length_replicate ..).ge
  · simp only [List.length_cons, List.length_append, List.length_replicate]
    omega

theorem lt_copyDiff_length (src : Bytes) {n : ℕ} (hn : src.length < n) :
    n < (copyDiff src (List.replicate n 0)).length := by
  have hne : List.replicate n 0 ≠ src := by
    intro heq
    rw [← heq, List.length_replicate] at hn
    exact absurd hn (lt_irrefl n)
  rw [copyDiff, if_neg hne]
  simp only [List.length_cons, List.length_append, List.length_replicate, List.length_flatMap]
  simp
  omega

theorem copyPatch_copyDiff (src tgt rest : Bytes) :
    copyPatch src (copyDiff src tgt ++ rest) = some tgt := by
  rw [copyDiff]
  split_ifs with hsame
  · rw [hsame]
    rfl
  · rw [List.cons_append, List.append_assoc, List.append_assoc]
    change readMarked (List.drop 31 (List.replicate 31 0 ++ _)) = _
    rw [List.drop_left' (List.length_replicate ..), readMarked_flatMap]

theorem copyCodec_lawful : copyCodec.Lawful where
  inflater := ⟨storedInflater_lawful.inside, storedInflater_lawful.prefix_only⟩
  eager _ := rfl
  patches h := by
    obtain rfl := Option.some.inj h
    exact ⟨copyDiff_length _ _, copyPatch_copyDiff _ _⟩
  nothing h := by
    obtain rfl := Option.some.inj h
    decide

/-- An image of one gzip stream. -/
def gzipFile (data : Bytes) : Bytes :=
  gzipHeader ++ storedBlock data ++ [0, 0, 0, 0] ++ littleEndianBytes 4 data.length

/-- The chunks of an image that is one gzip stream. -/
theorem initializeImage_stream {z : Inflater} {file : Bytes} (taken : ℕ) (out : Bytes)
    (hgzip : gzipAt file 0 = true) (hend : file.length = gzipHeaderLen + taken + gzipFooterLen)
    (hinit : z.init (file.drop gzipHeaderLen) = true)
    (hinflate : z.inflate (file.drop gzipHeaderLen) = .ended taken out)
    (hread : read32 file (gzipHeaderLen + taken + 4) = some out.length) :
    initializeImage z file = .returned true [ImageChunk.plain 0 gzipHeaderLen,
      { ImageChunk.ofRange .deflate gzipHeaderLen taken [] with uncompressedData := out },
      ImageChunk.plain (gzipHeaderLen + taken) gzipFooterLen] := by
  have hheader : gzipHeaderLen = 10 := rfl
  have hfooter : gzipFooterLen = 8 := rfl
  have hsub : ¬sizeSub file.length (gzipHeaderLen + taken + 4) < 4 := by
    rw [sizeSub, if_pos (by omega)]
    omega
  have hpass : pass z file 0 = .next [ImageChunk.plain 0 gzipHeaderLen,
      { ImageChunk.ofRange .deflate gzipHeaderLen taken [] with uncompressedData := out },
      ImageChunk.plain (gzipHeaderLen + taken) gzipFooterLen] file.length := by
    rw [pass, if_pos hgzip, gzipPass_ended (by omega) (by rw [Nat.zero_add, hinit]; decide)
      (by rw [Nat.zero_add]; exact hinflate), Nat.zero_add, if_neg hsub, hread]
    dsimp only
    rw [if_neg (not_not.mpr rfl), hend]
  rw [initializeImage, initLoop_next (by omega) hpass, initLoop, dif_neg (lt_irrefl _)]
  rfl

/-- The recovery image has the data of the boot image, and the bonus data behind it. -/
def bootImage : Bytes := gzipFile ((List.range 30).map UInt8.ofNat)

def recoveryImage : Bytes := gzipFile ((List.range 40).map UInt8.ofNat)

def recoveryBonus : Bytes := (List.range' 30 10).map UInt8.ofNat

theorem imageMode_roundTrip_recovery : ∃ patch,
    imgdiffImage copyCodec bootImage recoveryImage recoveryBonus = some patch ∧
      streamImagePatch copyCodec bootImage patch (some recoveryBonus) =
        (.returned 0, recoveryImage) := by
  have hsrc : initializeImage copyCodec.inflater bootImage = _ :=
    initializeImage_stream 35 ((List.range 30).map UInt8.ofNat) (by decide) rfl rfl (by decide)
      (by decide)
  have htgt : initializeImage copyCodec.inflater recoveryImage = _ :=
    initializeImage_stream 45 ((List.range 40).map UInt8.ofNat) (by decide) rfl rfl (by decide)
      (by decide)
  have hchunks : ∃ chunks,
      imageChunks copyCodec bootImage recoveryImage recoveryBonus = some chunks ∧
      ChunksFit chunks.1 chunks.2 ∧
      (makePatchChunks copyCodec recoveryImage bootImage chunks.1 chunks.2).isSome = true := by
    rw [imageChunks, hsrc, htgt]
    exact ⟨_, rfl, ⟨by decide, by decide, by decide, by decide⟩, rfl⟩
  obtain ⟨⟨us, vs⟩, hchunks, hfits, hsome⟩ := hchunks
  obtain ⟨ps, hps⟩ := Option.isSome_iff_exists.mp hsome
  have hpatch : imgdiffImage copyCodec bootImage recoveryImage recoveryBonus =
      some (PatchChunk.writePatchData ps) := by
    rw [imgdiffImage, hchunks]
    change (makePatchChunks _ _ _ us vs).bind _ = _
    rw [hps]
    rfl
  refine ⟨_, hpatch, imageMode_roundTrip copyCodec copyCodec_lawful bootImage recoveryImage _
    (some recoveryBonus) (fun ts ss h => ?_) hpatch⟩
  obtain ⟨rfl, rfl⟩ := Prod.mk.inj (Option.some.inj (hchunks.symm.trans h))
  exact hfits

/-! ### A patch that is too long -/

/-- An image without a gzip header. -/
theorem gzipAt_zeros (n pos : ℕ) : gzipAt (List.replicate n 0) pos = false := by
  have hzero : ∀ k, littleEndian (List.replicate k 0) = 0 := by
    intro k
    induction k with
    | zero => rfl
    | succ k ih =>
      rw [List.replicate_succ, littleEndian, ih]
      rfl
  rw [gzipAt, field, List.drop_replicate, List.take_replicate, hzero]
  exact decide_eq_false fun hall => absurd hall.2 (by decide)

theorem scanData_zeros {n k : ℕ} (hk : k ≤ n) : scanData (List.replicate n 0) 0 k = n := by
  induction k using scanData.induct (List.replicate n 0) 0 with
  | case1 k _ hgzip =>
    rw [gzipAt_zeros] at hgzip
    cases hgzip
  | case2 k hlt hgzip ih =>
    rw [List.length_replicate] at hlt
    rw [scanData, if_pos (by rw [List.length_replicate]; exact hlt), if_neg hgzip]
    exact ih hlt
  | case3 k hlt =>
    rw [List.length_replicate] at hlt
    rw [scanData, if_neg (by rw [List.length_replicate]; exact hlt)]
    omega

theorem initializeImage_zeros (z : Inflater) {n : ℕ} (hn : 0 < n) :
    initializeImage z (List.replicate n 0) = .returned true [ImageChunk.plain 0 n] := by
  have hlen : (List.replicate n (0 : UInt8)).length = n := List.length_replicate ..
  have hpass : pass z (List.replicate n 0) 0 = .next [ImageChunk.plain 0 n] n := by
    rw [pass, if_neg (by rw [gzipAt_zeros]; exact Bool.false_ne_true)]
    dsimp only
    rw [scanData_zeros (Nat.zero_le n), Nat.zero_add]
  have hpos : 0 < (List.replicate n (0 : UInt8)).length := by
    rw [hlen]
    exact hn
  rw [initializeImage, initLoop_next hpos hpass, initLoop, dif_neg (by omega)]
  rfl

/-- The target of an image without a gzip header is written as it is, where the patch is longer. -/
theorem imgdiffImage_zeros {n : ℕ} (hn : 160 < n) :
    imgdiffImage copyCodec [0] (List.replicate n 0) [] =
      some (PatchChunk.writePatchData [.ofTarget (List.replicate n 0) (ImageChunk.plain 0 n)]) := by
  have hsrc : initializeImage copyCodec.inflater [0] = .returned true [ImageChunk.plain 0 1] :=
    initializeImage_zeros _ Nat.one_pos
  have htgt : initializeImage copyCodec.inflater (List.replicate n 0) =
      .returned true [ImageChunk.plain 0 n] := initializeImage_zeros _ (by omega)
  have hchunks : imageChunks copyCodec [0] (List.replicate n 0) [] =
      some ([ImageChunk.plain 0 n], [ImageChunk.plain 0 1]) := by
    rw [imageChunks, hsrc, htgt]
    rfl
  have hpatch : makePatchChunk copyCodec (List.replicate n 0) [0] (ImageChunk.plain 0 n)
      (ImageChunk.plain 0 1) = some (.ofTarget (List.replicate n 0) (ImageChunk.plain 0 n)) := by
    have hdata : (ImageChunk.plain 0 n).dataForPatch (List.replicate n 0) = List.replicate n 0 := by
      change ((List.replicate n 0).drop 0).take n = _
      rw [List.drop_zero, List.take_of_length_le (List.length_replicate ..).le]
    have hfirst : PatchChunk.rawDataIsSmaller (ImageChunk.plain 0 n) 0 = false := by
      change (decide (n < 0) || (true && decide (n ≤ 160))) = false
      rw [decide_eq_false (Nat.not_lt_zero n), decide_eq_false (not_le.mpr hn)]
      rfl
    have hsecond : PatchChunk.rawDataIsSmaller (ImageChunk.plain 0 n)
        (copyDiff [0] (List.replicate n 0)).length = true := by
      have hlong := lt_copyDiff_length [0] (show 1 < n by omega)
      change (decide (n < _) || (true && decide (n ≤ 160))) = true
      rw [decide_eq_true hlong]
      rfl
    rw [makePatchChunk, if_neg (by rw [hfirst]; exact Bool.false_ne_true), hdata]
    change some (if PatchChunk.rawDataIsSmaller (ImageChunk.plain 0 n) (copyDiff [0] _).length
      then _ else _) = _
    rw [hsecond]
    rfl
  rw [imgdiffImage, hchunks]
  change (makePatchChunks _ _ _ [_] [_]).bind _ = _
  rw [makePatchChunks, hpatch]
  rfl

/-- The decoder takes its length for a negative one. -/
theorem streamImagePatch_long {n : ℕ} (hlong : 2 ^ 31 ≤ n) (hn : n + 20 < 2 ^ 32) (c : Codec)
    (old : Bytes) :
    streamImagePatch c old
      (PatchChunk.writePatchData [.ofTarget (List.replicate n 0) (ImageChunk.plain 0 n)]) none =
      (.returned (-1), []) := by
  have hrawData : (ImageChunk.plain 0 n).rawData (List.replicate n 0) = List.replicate n 0 := by
    change ((List.replicate n 0).drop 0).take n = _
    rw [List.drop_zero, List.take_of_length_le (List.length_replicate ..).le]
  generalize hp : PatchChunk.ofTarget (List.replicate n 0) (ImageChunk.plain 0 n) = p
  have htype : p.type = .raw := by
    rw [← hp]
    rfl
  have hdata : p.data.length = n := by
    rw [← hp]
    change ((ImageChunk.plain 0 n).rawData (List.replicate n 0)).length = n
    rw [hrawData, List.length_replicate]
  have hpatch := writePatchData_length [p]
  obtain ⟨hstream, offset, hstart, -, hdrop, -⟩ := streamImagePatch_headers c old none
    (show [p].length < 2 ^ 31 by simp)
  rw [hstream]
  have hsize : (PatchChunk.writePatchData [p]).length = 20 + n := by
    rw [hpatch, List.map_singleton, List.sum_singleton, List.flatMap_singleton,
      PatchChunk.headerSize, PatchChunk.payload, htype, ← hdata]
    simp only [List.length_nil]
    omega
  generalize PatchChunk.writePatchData [p] = patch at hdrop hsize ⊢
  rw [PatchChunk.writeHeaders, PatchChunk.writeHeader, htype] at hdrop
  simp only [List.append_assoc] at hdrop
  have hlen := drop_field hdrop rfl
  have h0 : field patch 12 4 = chunkRaw := field_of_drop hdrop (by decide)
  have h1 : field patch 16 4 = n := (field_of_drop hlen (by omega)).trans hdata
  have hsign : signExtend n = n + (2 ^ 64 - 2 ^ 32) := if_neg (not_lt.mpr hlong)
  have hraw : applyRaw (c.answers old patch none 0 12) patch 0 16 = .returned (-1) := by
    rw [applyRaw_eq (by omega) (by omega), h1, hsign, u64_of_lt (by omega), if_pos (by omega)]
  have hchunk :
      applyChunk (c.answers old patch none 0 12) old patch 0 none 12 = .returned (-1) := by
    rw [applyChunk_eq (by omega) (by omega), if_neg (by rw [h0]; decide), if_pos h0, hraw]
  rw [List.length_singleton, streamChunks, hchunk]

/-- Every patch of an image and every bonus data give the target back. -/
def RoundTripsEveryImage : Prop :=
  ∀ c : Codec, c.Lawful → ∀ (srcFile tgtFile patch : Bytes) (bonusData : Option Bytes),
    imgdiffImage c srcFile tgtFile (bonusData.getD []) = some patch →
    streamImagePatch c srcFile patch bonusData = (.returned 0, tgtFile)

theorem not_roundTripsEveryImage : ¬RoundTripsEveryImage := by
  intro h
  have htrip := h copyCodec copyCodec_lawful [0] (List.replicate (2 ^ 31) 0) _ none
    (imgdiffImage_zeros (by decide))
  rw [streamImagePatch_long le_rfl (by decide)] at htrip
  cases (Prod.mk.inj htrip).1

end BootableRecovery.Applypatch
