import BootableRecovery.Lib.Splice
import BootableRecovery.Lib.Word
import BootableRecovery.Otautil.BlockMap
import BootableRecovery.Otautil.RangeText

namespace BootableRecovery.Updater
open Lib Otautil

inductive CommandType
  | abort
  | bsdiff
  | computeHashTree
  | erase
  | free
  | imgdiff
  | move
  | new
  | stash
  | zero
  deriving DecidableEq, Repr

structure TargetInfo where
  hash : Text
  ranges : RangeSet

structure StashInfo where
  id : Text
  ranges : RangeSet

/-- `location` is empty if `ranges` alone cover all the blocks. -/
structure SourceInfo where
  hash : Text
  ranges : RangeSet
  location : RangeSet
  stashes : List StashInfo

namespace SourceInfo

def blocks (s : SourceInfo) : ℕ :=
  s.stashes.foldl (fun n stash => u64 (n + stash.ranges.blocks)) s.ranges.blocks

end SourceInfo

structure PatchInfo where
  offset : ℕ
  length : ℕ
  deriving DecidableEq, Repr

structure HashTreeInfo where
  hashTreeRanges : RangeSet
  sourceRanges : RangeSet
  hashAlgorithm : Text
  saltHex : Text
  rootHash : Text

/-- What a command of each type has to say. -/
inductive CommandInfo
  | abort
  | target (target : TargetInfo) -- zero, new and erase
  | stash (stash : StashInfo) -- stash and free
  | move (target : TargetInfo) (source : SourceInfo)
  | diff (patch : PatchInfo) (target : TargetInfo) (source : SourceInfo)
  | computeHashTree (info : HashTreeInfo)

structure Command where
  type : CommandType
  index : ℕ
  cmdline : Text
  info : CommandInfo

namespace Command

def parseType (abortAllowed : Bool) (word : Text) : Option CommandType :=
  if word = "abort".toList then if abortAllowed then some .abort else none
  else if word = "bsdiff".toList then some .bsdiff
  else if word = "compute_hash_tree".toList then some .computeHashTree
  else if word = "erase".toList then some .erase
  else if word = "free".toList then some .free
  else if word = "imgdiff".toList then some .imgdiff
  else if word = "move".toList then some .move
  else if word = "new".toList then some .new
  else if word = "stash".toList then some .stash
  else if word = "zero".toList then some .zero
  else none

/-- Of the size of a `size_t` -/
def sizeT : ℕ := 2 ^ 64 - 1

section parse
variable (parseUint : Text → ℕ → Option ℕ)

/-- The `stash_id:stash_location` words. -/
def parseStashes : List Text → Except Text (List StashInfo)
  | [] => .ok []
  | word :: words =>
    match word.splitOn ':' with
    | [id, location] =>
      match RangeSet.parse parseUint location with
      | none => .error "invalid stash location".toList
      | some location =>
        match parseStashes words with
        | .error err => .error err
        | .ok stashes => .ok (⟨id, location⟩ :: stashes)
    | _ => .error "invalid stash info".toList

def mismatch (result : SourceInfo) (srcBlocks : ℕ) : Text :=
  "mismatching block count: ".toList ++ decimal result.blocks ++ " (".toList ++
    result.ranges.toText ++ ") vs ".toList ++ decimal srcBlocks

/-- The source, if the number of its blocks is the one that the line gives. -/
def counted (result : SourceInfo) (srcBlocks : ℕ) : Except Text SourceInfo :=
  if result.blocks ≠ srcBlocks then .error (mismatch result srcBlocks) else .ok result

def parseTargetInfoAndSourceInfo (tokens : List Text) (tgtHash srcHash : Text) :
    Except Text (TargetInfo × SourceInfo) :=
  match tokens with
  | tgt :: token :: src :: words =>
    match RangeSet.parse parseUint tgt with
    | none => .error "invalid target ranges".toList
    | some tgtRanges =>
      let target : TargetInfo := ⟨tgtHash, tgtRanges⟩
      match parseUint token sizeT with
      | none => .error ("invalid src_block_count \"".toList ++ token ++ ['"'])
      | some srcBlocks =>
        if src = ['-'] then
          match parseStashes parseUint words with
          | .error err => .error err
          | .ok stashes =>
            (counted ⟨srcHash, .empty, .empty, stashes⟩ srcBlocks).map fun s => (target, s)
        else
          match RangeSet.parse parseUint src with
          | none => .error "invalid source ranges".toList
          | some srcRanges =>
            match words with
            | [] => (counted ⟨srcHash, srcRanges, .empty, []⟩ srcBlocks).map fun s => (target, s)
            | location :: words =>
              match RangeSet.parse parseUint location with
              | none => .error "invalid source ranges location".toList
              | some location =>
                match parseStashes parseUint words with
                | .error err => .error err
                | .ok stashes =>
                  (counted ⟨srcHash, srcRanges, location, stashes⟩ srcBlocks).map
                    fun s => (target, s)
  | _ => .error "invalid number of args".toList

def wrongArgs (args : List Text) (expected : String) : Text :=
  "invalid number of args: ".toList ++ decimal args.length ++
    (" (expected " ++ expected ++ ")").toList

def unknownHash : Text := "unknown-hash".toList

/-- `zero/new/erase <rangeset>` -/
def parseTarget (args : List Text) : Except (Option Text) CommandInfo :=
  match args with
  | [tgt] =>
    match RangeSet.parse parseUint tgt with
    | none => .error none
    | some tgtRanges => .ok (.target ⟨unknownHash, tgtRanges⟩)
  | _ => .error (wrongArgs args "1")

/-- `<offset> <length> <srchash> <dsthash>` -/
def parseDiff (args : List Text) : Except (Option Text) CommandInfo :=
  match args with
  | offset :: length :: srcHash :: dstHash :: tokens =>
    match parseUint offset sizeT, parseUint length sizeT with
    | some offset, some length =>
      match parseTargetInfoAndSourceInfo parseUint tokens dstHash srcHash with
      | .error err => .error (some err)
      | .ok (target, source) => .ok (.diff ⟨offset, length⟩ target source)
    | _, _ => .error (some "invalid patch offset/length".toList)
  | _ => .error (wrongArgs args "4+")

/-- The arguments of a command; an error without text leaves `err` as it was. -/
def parseInfo (op : CommandType) (line : Text) (args : List Text) :
    Except (Option Text) CommandInfo :=
  match op with
  | .zero | .new | .erase => parseTarget parseUint args
  | .stash =>
    match args with
    | [id, src] =>
      match RangeSet.parse parseUint src with
      | none => .error (some "invalid token".toList)
      | some srcRanges => .ok (.stash ⟨id, srcRanges⟩)
    | _ => .error (wrongArgs args "2")
  | .free =>
    match args with
    | [id] => .ok (.stash ⟨id, .empty⟩)
    | _ => .error (wrongArgs args "1")
  | .move =>
    match args with
    | [] => .error (some "missing hash".toList)
    | hash :: tokens =>
      match parseTargetInfoAndSourceInfo parseUint tokens hash hash with
      | .error err => .error (some err)
      | .ok (target, source) => .ok (.move target source)
  | .bsdiff | .imgdiff => parseDiff parseUint args
  | .abort => if args = [] then .ok .abort else .error (wrongArgs args "0")
  | .computeHashTree =>
    match args with
    | [hashTree, source, hashAlgorithm, saltHex, rootHash] =>
      match RangeSet.parse parseUint hashTree with
      | none => .error (some ("invalid hash tree ranges in: ".toList ++ line))
      | some hashTreeRanges =>
        -- the hash tree has to be contiguous
        if hashTreeRanges.ranges.length ≠ 1 then
          .error (some ("invalid hash tree ranges in: ".toList ++ line))
        else
          match RangeSet.parse parseUint source with
          | none => .error (some ("invalid source ranges in: ".toList ++ line))
          | some sourceRanges =>
            if hashAlgorithm = [] ∨ saltHex = [] ∨ rootHash = [] then
              .error (some ("invalid hash tree arguments in ".toList ++ line))
            else
              .ok (.computeHashTree
                ⟨hashTreeRanges, sourceRanges, hashAlgorithm, saltHex, rootHash⟩)
    | _ => .error (wrongArgs args "5")

/-- `Parse` -/
def parse (abortAllowed : Bool) (line : Text) (index : ℕ) : Except (Option Text) Command :=
  let tokens := line.splitOn ' '
  match parseType abortAllowed (tokens.headD []) with
  | none => .error (some "invalid type".toList)
  | some op => (parseInfo parseUint op line tokens.tail).map fun info => ⟨op, index, line, info⟩

end parse

end Command

section parsed
variable {parseUint : Text → ℕ → Option ℕ}

theorem parseStashes_cons {word : Text} {words : List Text} {stashes : List StashInfo}
    (h : Command.parseStashes parseUint (word :: words) = .ok stashes) :
    ∃ id location locs rest, word.splitOn ':' = [id, location] ∧
      RangeSet.parse parseUint location = some locs ∧
      Command.parseStashes parseUint words = .ok rest ∧ stashes = ⟨id, locs⟩ :: rest := by
  rw [Command.parseStashes] at h
  split at h
  case h_2 => cases h
  case h_1 id location hsplit =>
    split at h
    case h_1 => cases h
    case h_2 locs hlocs =>
      split at h
      case h_1 => cases h
      case h_2 rest hrest =>
        cases h
        exact ⟨id, location, locs, rest, hsplit, hlocs, hrest, rfl⟩

/-- The words behind the block count, and the source that they give. -/
inductive ParsedSource (parseUint : Text → ℕ → Option ℕ) (hash : Text) :
    Text → List Text → SourceInfo → Prop
  | stashes {words : List Text} {stashes : List StashInfo}
      (hwords : Command.parseStashes parseUint words = .ok stashes) :
      ParsedSource parseUint hash ['-'] words ⟨hash, .empty, .empty, stashes⟩
  | ranges {src : Text} {ranges : RangeSet} (hdash : src ≠ ['-'])
      (hsrc : RangeSet.parse parseUint src = some ranges) :
      ParsedSource parseUint hash src [] ⟨hash, ranges, .empty, []⟩
  | both {src location : Text} {words : List Text} {ranges locs : RangeSet}
      {stashes : List StashInfo} (hdash : src ≠ ['-'])
      (hsrc : RangeSet.parse parseUint src = some ranges)
      (hlocs : RangeSet.parse parseUint location = some locs)
      (hwords : Command.parseStashes parseUint words = .ok stashes) :
      ParsedSource parseUint hash src (location :: words) ⟨hash, ranges, locs, stashes⟩

theorem map_counted_eq_ok {result source : SourceInfo} {srcBlocks : ℕ} {t target : TargetInfo}
    (h : (Command.counted result srcBlocks).map (fun s => (t, s)) = .ok (target, source)) :
    t = target ∧ result = source ∧ source.blocks = srcBlocks := by
  rw [Command.counted] at h
  split_ifs at h with hcount
  · cases h
  · cases h
    exact ⟨rfl, rfl, not_not.mp hcount⟩

theorem parseTargetInfoAndSourceInfo_eq_ok {tokens : List Text} {tgtHash srcHash : Text}
    {target : TargetInfo} {source : SourceInfo}
    (h : Command.parseTargetInfoAndSourceInfo parseUint tokens tgtHash srcHash =
      .ok (target, source)) :
    ∃ tgt token src words tgtRanges, tokens = tgt :: token :: src :: words ∧
      RangeSet.parse parseUint tgt = some tgtRanges ∧ target = ⟨tgtHash, tgtRanges⟩ ∧
      parseUint token Command.sizeT = some source.blocks ∧
      ParsedSource parseUint srcHash src words source := by
  unfold Command.parseTargetInfoAndSourceInfo at h
  split at h
  case h_2 => cases h
  case h_1 tgt token src words =>
    split at h
    case h_1 => cases h
    case h_2 tgtRanges htgt =>
      dsimp only at h
      split at h
      case h_1 => cases h
      case h_2 srcBlocks htoken =>
        have hdone : ∀ result, (Command.counted result srcBlocks).map
            (fun s => ((⟨tgtHash, tgtRanges⟩ : TargetInfo), s)) = .ok (target, source) →
            ParsedSource parseUint srcHash src words result →
            ∃ tgt' token' src' words' tgtRanges',
              tgt :: token :: src :: words = tgt' :: token' :: src' :: words' ∧
              RangeSet.parse parseUint tgt' = some tgtRanges' ∧ target = ⟨tgtHash, tgtRanges'⟩ ∧
              parseUint token' Command.sizeT = some source.blocks ∧
              ParsedSource parseUint srcHash src' words' source := by
          intro result hcounted hparsed
          obtain ⟨rfl, rfl, rfl⟩ := map_counted_eq_ok hcounted
          exact ⟨tgt, token, src, words, tgtRanges, rfl, htgt, rfl, htoken, hparsed⟩
        split_ifs at h with hdash
        · split at h
          case h_1 => cases h
          case h_2 stashes hstashes =>
            refine hdone _ h ?_
            rw [hdash]
            exact .stashes hstashes
        · split at h
          case h_1 => cases h
          case h_2 srcRanges hsrc =>
            split at h
            case h_1 => exact hdone _ h (.ranges hdash hsrc)
            case h_2 location words =>
              split at h
              case h_1 => cases h
              case h_2 locs hlocs =>
                split at h
                case h_1 => cases h
                case h_2 stashes hstashes => exact hdone _ h (.both hdash hsrc hlocs hstashes)

end parsed

/-! ### The source buffer -/

/-- `memmove` within a buffer, or into it from `source`; none if it leaves a buffer. -/
def memmove (dest : Bytes) (source : Option Bytes) (place start len : ℕ) : Option Bytes :=
  let source := source.getD dest
  if start + len ≤ source.length ∧ place + len ≤ dest.length then
    some (splice dest place (slice source start len))
  else none

/-- One pass of the loop of `MoveRange`: the buffer, and where the packed data end. -/
def moveStep (source : Option Bytes) (blockSize : ℕ) (r : Range) (state : Option (Bytes × ℕ)) :
    Option (Bytes × ℕ) :=
  match state with
  | none => none
  | some (dest, start) =>
    let blocks := r.2 - r.1
    let start := start - blocks
    (memmove dest source (r.1 * blockSize) (start * blockSize) (blocks * blockSize)).map
      fun dest => (dest, start)

/-- `MoveRange`, from the last range to the first; without `source` the data are in `dest`. -/
def moveRange (dest : Bytes) (locs : RangeSet) (source : Option Bytes) (blockSize : ℕ) :
    Option Bytes :=
  (locs.ranges.foldr (moveStep source blockSize) (some (dest, locs.blocks))).map Prod.fst

namespace SourceInfo

/-- The loop of `ReadAll` over the stashes. -/
def readStashes (blockSize : ℕ) (stashReader : Text → Bytes → ℤ × Bytes) :
    List StashInfo → Bytes → Option (Bool × Bytes)
  | [], buffer => some (true, buffer)
  | stash :: stashes, buffer =>
    let (ret, stashBuffer) :=
      stashReader stash.id (List.replicate (u64 (stash.ranges.blocks * blockSize)) 0)
    if ret ≠ 0 then some (false, buffer)
    else
      match moveRange buffer stash.ranges (some stashBuffer) blockSize with
      | none => none
      | some buffer => readStashes blockSize stashReader stashes buffer

/-- The result of `ReadAll` and the buffer; none if an access leaves a buffer. -/
def readAll (source : SourceInfo) (buffer : Bytes) (blockSize : ℕ)
    (blockReader : RangeSet → Bytes → ℤ × Bytes) (stashReader : Text → Bytes → ℤ × Bytes) :
    Option (Bool × Bytes) :=
  if buffer.length < u64 (source.blocks * blockSize) then some (false, buffer)
  else if source.ranges.ranges ≠ [] then
    let (ret, buffer) := blockReader source.ranges buffer
    if ret ≠ 0 then some (false, buffer)
    else if source.location.ranges ≠ [] then
      match moveRange buffer source.location none blockSize with
      | none => none
      | some buffer => readStashes blockSize stashReader source.stashes buffer
    else readStashes blockSize stashReader source.stashes buffer
  else readStashes blockSize stashReader source.stashes buffer

end SourceInfo

end BootableRecovery.Updater
