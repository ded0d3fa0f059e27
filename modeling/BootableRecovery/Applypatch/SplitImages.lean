import BootableRecovery.Applypatch.ZipModeImage

namespace BootableRecovery.Applypatch
open Lib Otautil

/-! `SplitZipModeImageWithLimit`: a large zip file in pieces, each with a source of its own. -/

/-- The variables of the loop. -/
structure SplitState where
  usedRanges : SortedRangeSet
  srcRanges : SortedRangeSet
  srcChunks : List ImageChunk
  tgtChunks : List ImageChunk
  tgtImages : List ZipModeImage
  srcImages : List ZipModeImage
  ranges : List SortedRangeSet

structure SplitImages where
  tgtImages : List ZipModeImage
  srcImages : List ZipModeImage
  ranges : List SortedRangeSet

/-- The chunks from the first one on that reaches beyond the block it starts in, from the end of
that block on. -/
def alignChunks : List ImageChunk → List ImageChunk
  | [] => []
  | c :: cs =>
    match alignHead c.start c.rawDataLen with
    | none => alignChunks cs
    | some (start, length) => ImageChunk.plain start length :: cs

/-- The chunks up to the end of the last block, or of the file. -/
def alignEnd (size : ℕ) (cs : List ImageChunk) : List ImageChunk :=
  match cs.getLast? with
  | none => cs
  | some c =>
    let stop := c.start + c.rawDataLen
    if stop % blockSize ≠ 0 ∧ stop < size then
      cs ++ [ImageChunk.plain stop (min (size - stop) (blockSize - stop % blockSize))]
    else cs

/-- `AddSplitImageFromChunkList`: the images that it adds, if any; no result when one of its
`CHECK`s fails. -/
def addSplitImage (tgt src : ZipModeImage) (ranges : SortedRangeSet)
    (tgtChunks srcChunks : List ImageChunk) : Option (Option (ZipModeImage × ZipModeImage)) :=
  if tgtChunks = [] then none
  else
    let aligned := alignChunks tgtChunks
    if aligned = [] then some none
    else
      let content := contentOf src.fileContent ranges.ranges
      if content = [] then none
      else
        some (some
          ({ isSource := false, limit := 0, fileContent := [],
             chunks := mergeAdjacentNormalChunks (alignEnd tgt.fileContent.length aligned) },
           { isSource := true, limit := 0, fileContent := content, chunks := srcChunks }))

/-- The state once the images of a group of chunks are added. -/
def SplitState.flush (s : SplitState) : Option (ZipModeImage × ZipModeImage) → SplitState
  | none => { s with srcRanges := .empty, srcChunks := [], tgtChunks := [] }
  | some (tgtImage, srcImage) =>
    { usedRanges := s.usedRanges.insert s.srcRanges
      srcRanges := .empty
      srcChunks := []
      tgtChunks := []
      tgtImages := s.tgtImages ++ [tgtImage]
      srcImages := s.srcImages ++ [srcImage]
      ranges := s.ranges ++ [s.srcRanges] }

/-- A target chunk without a source chunk of its own. -/
def SplitState.pushPlain (s : SplitState) (c : ImageChunk) : SplitState :=
  { s with tgtChunks := s.tgtChunks ++ [ImageChunk.plain c.start c.rawDataLen] }

/-- One pass of the loop; `true` when the same target chunk is to be handled again. -/
def splitStep (tgt src : ZipModeImage) (s : SplitState) (c : ImageChunk) :
    Option (SplitState × Bool) :=
  match findChunkByName src.chunks c.entryName true with
  | none => some (s.pushPlain c, false)
  | some d =>
    if 0 < d.rawDataLen ∧ d.rawDataLen ≤ tgt.limit then
      match removeUsedBlocks d.start d.rawDataLen s.usedRanges with
      | none => some (s.pushPlain c, false)
      | some (offset, length) =>
        if s.srcRanges.blocks * blockSize + length ≤ tgt.limit then
          let s := { s with srcRanges := s.srcRanges.insertPiece offset length }
          if d.type = .deflate ∧ length = d.rawDataLen then
            some
              ({ s with srcChunks := s.srcChunks ++ [d], tgtChunks := s.tgtChunks ++ [c] }, false)
          else some (s.pushPlain c, false)
        else
          (addSplitImage tgt src s.srcRanges s.tgtChunks s.srcChunks).map fun added =>
            (s.flush added, true)
    else none

/-- The loop from the target chunk at `i` on, which may step its iterator back, but not in front of
the first chunk. -/
def splitLoop (tgt src : ZipModeImage) : ℕ → ℕ → SplitState → Option SplitState
  | 0, _, _ => none
  | fuel + 1, i, s =>
    match tgt.chunks[i]? with
    | none => some s
    | some c =>
      match splitStep tgt src s c with
      | none => none
      | some (s, true) => if i = 0 then none else splitLoop tgt src fuel i s
      | some (s, false) => splitLoop tgt src fuel (i + 1) s

/-- The end of chunks that are one behind the other. -/
def chunksEnd (last : ℕ) : List ImageChunk → Option ℕ
  | [] => some last
  | c :: cs => if last = c.start then chunksEnd (last + c.rawDataLen) cs else none

def targetsEnd (last : ℕ) : List ZipModeImage → Option ℕ
  | [] => some last
  | t :: ts =>
    if t.chunks.head?.map (fun c => c.start) = some last ∧ last % blockSize = 0 then
      (chunksEnd last t.chunks).bind fun last => targetsEnd last ts
    else none

def rangesExclusive (used : SortedRangeSet) : List SortedRangeSet → Bool
  | [] => true
  | r :: rs => !used.overlaps r && rangesExclusive (used.insert r) rs

/-- The `CHECK`s of `ValidateSplitImages`. -/
def validateSplitImages (out : SplitImages) (totalTgtSize : ℕ) : Bool :=
  out.tgtImages.length = out.srcImages.length &&
    targetsEnd 0 out.tgtImages = some totalTgtSize &&
    out.srcImages.length = out.ranges.length && rangesExclusive .empty out.ranges

/-- The variables before the loop: the central directory is reserved for the last image. -/
def SplitState.start (directory : ImageChunk) : SplitState :=
  { usedRanges := SortedRangeSet.empty.insertPiece directory.start directory.rawDataLen
    srcRanges := .empty
    srcChunks := []
    tgtChunks := []
    tgtImages := []
    srcImages := []
    ranges := [] }

/-- What is left goes into a last pair of images, with the central directory. -/
def SplitState.finish (s : SplitState) (tgt src : ZipModeImage) (directory : ImageChunk) :
    Option SplitImages :=
  let ranges := s.srcRanges.insertPiece directory.start directory.rawDataLen
  match addSplitImage tgt src ranges s.tgtChunks s.srcChunks with
  | none => none
  | some none =>
    some { tgtImages := s.tgtImages, srcImages := s.srcImages, ranges := s.ranges }
  | some (some (tgtImage, srcImage)) =>
    some { tgtImages := s.tgtImages ++ [tgtImage], srcImages := s.srcImages ++ [srcImage],
           ranges := s.ranges ++ [ranges] }

/-- The images, unless a `CHECK` fails or `fuel` passes of the loop are too few. -/
def splitZipModeImageWithLimit (fuel : ℕ) (tgt src : ZipModeImage) : Option SplitImages :=
  if tgt.limit ≠ src.limit then none
  else
    match src.chunks.getLast? with
    | none => none
    | some directory =>
      if directory.type ≠ .normal then none
      else
        match splitLoop tgt src fuel 0 (SplitState.start directory) with
        | none => none
        | some s =>
          match s.finish tgt src directory with
          | none => none
          | some out => if validateSplitImages out tgt.fileContent.length then some out else none

/-- A source chunk is found in a split source where the ranges say that it is. -/
def LiesIn (src srcImage : ZipModeImage) (ranges : SortedRangeSet) (d : ImageChunk) : Prop :=
  ∃ p, ranges.getOffsetInRangeSet d.start = some p ∧
    (srcImage.fileContent.drop p).take d.rawDataLen = d.rawData src.fileContent

/-- A target piece with its source: what is deflated in it has its source chunk in the source. -/
structure PieceValid (src tgtImage srcImage : ZipModeImage) (ranges : SortedRangeSet) : Prop where
  aligned : ∃ c, tgtImage.chunks.head? = some c ∧ c.start % blockSize = 0
  content : srcImage.fileContent = contentOf src.fileContent ranges.ranges
  matched : ∀ c ∈ tgtImage.chunks, c.type = .deflate →
    ∃ d, findChunkByName srcImage.chunks c.entryName false = some d
  source : ∀ d ∈ srcImage.chunks, d ∈ src.chunks ∧ LiesIn src srcImage ranges d

/-- What the split images are to be. -/
structure SplitValid (tgt src : ZipModeImage) (out : SplitImages) : Prop where
  validated : validateSplitImages out tgt.fileContent.length = true
  contiguous : Contiguous 0 tgt.fileContent.length (out.tgtImages.flatMap fun t => t.chunks)
  whole : out.tgtImages.flatMap (fun t => t.chunks.flatMap fun c => c.rawData tgt.fileContent) =
    tgt.fileContent
  exclusive : out.ranges.Pairwise fun r q => ∀ b ∈ r.expand, b ∉ q.expand
  piece : ∀ (i : ℕ) (t s : ZipModeImage) (r : SortedRangeSet), out.tgtImages[i]? = some t →
    out.srcImages[i]? = some s → out.ranges[i]? = some r → PieceValid src t s r

end BootableRecovery.Applypatch
