import BootableRecovery.Updater.SourceAssembly

namespace BootableRecovery.Updater
open Lib Otautil Perform

/-! What a parsed `Command` asks for, and that the performers do it for the lines that it is parsed
from. -/

namespace Perform
variable {ε α β : Type} {effects : List Effect}

theorem bind_ok {x : Perform ε α} {f : α → Perform ε β} {a : α} {effects' : List Effect}
    (h : x effects = (.ok a, effects')) : (x >>= f) effects = f a effects' := by
  change ExceptT.bindCont f (x effects).1 (x effects).2 = _
  rw [h]
  rfl

theorem bind_error {x : Perform ε α} {f : α → Perform ε β} {e : ε} {effects' : List Effect}
    (h : x effects = (.error e, effects')) : (x >>= f) effects = (.error e, effects') := by
  change ExceptT.bindCont f (x effects).1 (x effects).2 = _
  rw [h]
  rfl

theorem lifted_bind (x : Perform Fault α) (f : α → Perform Fault β) :
    lifted (x >>= f) = lifted x >>= fun a => lifted (f a) := by
  funext effects
  rcases h : x effects with ⟨_ | a, effects'⟩
  · have hx : lifted x effects = (.error (.fault ‹Fault›), effects') := by
      rw [lifted, h]
      rfl
    rw [bind_error hx, lifted, bind_error h]
    rfl
  · have hx : lifted x effects = (.ok a, effects') := by
      rw [lifted, h]
      rfl
    rw [bind_ok hx, lifted, bind_ok h]
    rfl

theorem lifted_reading (result : Except Fault α) :
    lifted (reading result) = reading (result.mapError .fault) := rfl

theorem reading_ok_bind (a : α) (f : α → Perform ε β) : reading (.ok a) >>= f = f a := rfl

theorem bind_congr {x : Perform ε α} {f g : α → Perform ε β}
    (h : ∀ effects a effects', x effects = (.ok a, effects') → f a = g a) : x >>= f = x >>= g := by
  funext effects
  rcases hx : x effects with ⟨e | a, effects'⟩
  · rw [bind_error hx, bind_error hx]
  · rw [bind_ok hx, bind_ok hx, h effects a effects' hx]

theorem lifted_ok {x : Perform Fault α} {a : α} {effects' : List Effect}
    (h : lifted x effects = (.ok a, effects')) : x effects = (.ok a, effects') := by
  rw [lifted] at h
  rcases hx : x effects with ⟨e | b, effects''⟩
  · rw [hx] at h
    cases h
  · rw [hx] at h
    cases h
    rfl

theorem lifted_ne {x : Perform Fault α} {stop : Stop} (hstop : ∀ fault, stop ≠ .fault fault) :
    (lifted x effects).1 ≠ .error stop := by
  rw [lifted]
  rcases x effects with ⟨fault | a, effects'⟩
  · intro h
    exact hstop fault (Except.error.inj h).symm
  · exact nofun

end Perform

section execute
variable (host : Host)

def executeStashes : List StashInfo → Bytes → Except Fault Bytes
  | [], buffer => .ok buffer
  | s :: stashes, buffer =>
    match host.loadStash .source s.id false [] with
    | .error fault => .error fault
    | .ok (false, _) => executeStashes stashes buffer
    | .ok (true, stash, _) =>
      match moveRange buffer s.ranges (some stash) blockSize with
      | none => .error .outOfBounds
      | some buffer => executeStashes stashes buffer

/-- The overlap and the buffer of a source. -/
def executeSource (source : SourceInfo) (tgt : RangeSet) (buffer : Bytes) :
    Except Fault (Bool × Bytes) :=
  match host.allocate (u64 (source.blocks * blockSize)) buffer with
  | .error fault => .error fault
  | .ok buffer =>
    match host.readBlocks .source source.ranges buffer with
    | .error fault => .error fault
    | .ok (false, _) => .error .failed
    | .ok (true, packed) =>
      match movedSource source packed with
      | none => .error .outOfBounds
      | some buffer =>
        (executeStashes host source.stashes buffer).map
          fun buffer => (source.ranges.overlaps tgt, buffer)

def executeLoad (target : TargetInfo) (source : SourceInfo) (params : Params) :
    Perform Fault Loaded := do
  let verified ← reading (host.targetVerified target.ranges target.hash)
  if verified then return ⟨target.ranges, 0, true, none, params⟩
  else do
    let (overlap, buffer) ← reading (executeSource host source target.ranges params.buffer)
    let expected ← reading (host.verifyBlocks source.hash buffer source.blocks)
    if expected then
      keepOverlap host target.ranges source.hash source.blocks overlap { params with buffer }
    else do
      let (loaded, buffer) ← loadOverlap host source.hash overlap buffer
      if loaded then return ⟨target.ranges, source.blocks, false, none, { params with buffer }⟩
      else throw .unresumable

def executeStash (id : Text) (src : RangeSet) (params : Params) : Perform Fault Params := do
  let (loaded, buffer) ← findStash host id params.buffer
  if loaded then return { params with buffer }
  else stashBlocks host id src { params with buffer }

def executeErase (tgt : RangeSet) (params : Params) : Perform Fault Params :=
  if host.isBlockDevice then eraseBlocks host tgt params else throw .failed

/-- A command carried out with what its object carries. -/
def execute (lib : HashTreeLib) (command : Command) (params : Params) : Perform Fault Params :=
  match command.info with
  | .abort => throw .failed
  | .target target =>
    match command.type with
    | .zero => zeroBlocks host target.ranges params
    | .new => newBlocks host target.ranges params
    | _ => executeErase host target.ranges params
  | .stash stash =>
    match command.type with
    | .free => freeBlocks host stash.id params
    | _ => executeStash host stash.id stash.ranges params
  | .move target source => do
    let loaded ← executeLoad host target source params
    finishMove host loaded
  | .diff patch target source => do
    let loaded ← executeLoad host target source params
    finishDiff host (command.type = .imgdiff) patch loaded
  | .computeHashTree info =>
    match lib.parseBytes info.saltHex with
    | none => throw .failed
    | some salt => writeHashTree host info salt params

end execute

/-- The bytes of the target can be counted in a `size_t`. -/
def TargetFits (tgt : RangeSet) : Prop := tgt.blocks * blockSize < 2 ^ 64

/-- The source has a place for each of its blocks; behind a target that cannot be loaded, that
does not matter. -/
def Command.SourceChecks (target : TargetInfo) (source : SourceInfo) : Prop :=
  TargetFits target.ranges →
    source.location.ranges = [] ∨ source.location.blocks = source.ranges.blocks

/-- What the performers check of a parsed command, and `Parse` does not. -/
def Command.Checks (lib : HashTreeLib) (command : Command) : Prop :=
  match command.info with
  | .move target source => SourceChecks target source
  | .diff _ target source => SourceChecks target source
  | .computeHashTree info =>
    lib.hashFunction info.hashAlgorithm = true ∧ lib.parseBytes info.saltHex ≠ none
  | _ => True

section accepted
variable {parseUint : Text → ℕ → Option ℕ} {host : Host}

theorem loadStashes_eq_execute {words : List Text} {stashes : List StashInfo} {buffer : Bytes}
    (h : Command.parseStashes parseUint words = .ok stashes) :
    loadStashes parseUint host words buffer =
      (executeStashes host stashes buffer).mapError .fault := by
  induction words generalizing stashes buffer with
  | nil =>
    cases h
    rfl
  | cons word words ih =>
    obtain ⟨id, location, locs, rest, hsplit, hlocs, hrest, rfl⟩ := parseStashes_cons h
    rw [loadStashes, hsplit, executeStashes]
    dsimp only
    rcases host.loadStash .source id false [] with fault | ⟨_ | _, stash, deleted⟩
    · rfl
    · exact ih hrest
    · dsimp only
      rw [hlocs]
      dsimp only
      cases moveRange buffer locs (some stash) blockSize with
      | none => rfl
      | some buffer => exact ih hrest

theorem map_mapError {ε ε' α β : Type} (f : ε → ε') (g : α → β) (x : Except ε α) :
    (x.mapError f).map g = (x.map g).mapError f := by
  cases x with
  | error => rfl
  | ok => rfl

theorem loadSourceBlocks_eq_execute {hash token src : Text} {words : List Text}
    {source : SourceInfo} {tgt : RangeSet} {buffer : Bytes}
    (htoken : parseUint token Command.sizeT = some source.blocks)
    (hparsed : ParsedSource parseUint hash src words source) :
    loadSourceBlocks parseUint host token src words tgt buffer =
      ((executeSource host source tgt buffer).map
        fun (overlap, buffer) => (source.blocks, overlap, buffer)).mapError .fault := by
  rw [loadSourceBlocks, htoken, executeSource]
  dsimp only
  cases host.allocate (u64 (source.blocks * blockSize)) buffer with
  | error => rfl
  | ok buffer =>
    dsimp only
    cases hparsed with
    | stashes hwords =>
      have hread : host.readBlocks .source .empty buffer = .ok (true, buffer) := rfl
      rw [if_pos rfl, loadStashes_eq_execute hwords, hread]
      dsimp only
      rw [movedSource, if_neg fun h => h.1 rfl, map_mapError]
      dsimp only
      cases executeStashes host _ buffer with
      | error => rfl
      | ok => rfl
    | ranges hdash hsrc =>
      rw [if_neg hdash, hsrc]
      dsimp only
      rcases host.readBlocks .source _ buffer with fault | ⟨_ | _, packed⟩
      · rfl
      · rfl
      · dsimp only
        rw [movedSource, if_neg fun h => h.2 rfl]
        rfl
    | both hdash hsrc hlocs hwords =>
      rw [if_neg hdash, hsrc]
      dsimp only
      rcases host.readBlocks .source _ buffer with fault | ⟨_ | _, packed⟩
      · rfl
      · rfl
      · dsimp only
        rw [hlocs]
        dsimp only
        rw [movedSource, if_pos ⟨RangeSet.parse_ranges_ne_nil hsrc,
          RangeSet.parse_ranges_ne_nil hlocs⟩]
        dsimp only
        cases moveRange packed _ none blockSize with
        | none => rfl
        | some buffer =>
          dsimp only
          rw [loadStashes_eq_execute hwords, map_mapError]
          cases executeStashes host _ buffer with
          | error => rfl
          | ok => rfl

/-! ### The check of the print -/

theorem memmove_length {dest result : Bytes} {source : Option Bytes} {place start len : ℕ}
    (h : memmove dest source place start len = some result) :
    place + len ≤ dest.length ∧ result.length = dest.length := by
  rw [memmove] at h
  split_ifs at h with hfit
  cases h
  have hlen := slice_length hfit.1
  exact ⟨hfit.2, splice_length (by rw [hlen]; exact hfit.2)⟩

theorem foldr_moveStep_length {source : Option Bytes} {dest result : Bytes} {bs total start : ℕ}
    {rs : List Range}
    (h : rs.foldr (moveStep source bs) (some (dest, total)) = some (result, start)) :
    result.length = dest.length ∧ ∀ r ∈ rs, r.1 * bs + (r.2 - r.1) * bs ≤ dest.length := by
  induction rs generalizing result start with
  | nil =>
    cases h
    exact ⟨rfl, nofun⟩
  | cons r rs ih =>
    rw [List.foldr_cons] at h
    rcases hrest : rs.foldr (moveStep source bs) (some (dest, total)) with _ | ⟨moved, next⟩
    · rw [hrest] at h
      cases h
    · rw [hrest] at h
      obtain ⟨hlen, hin⟩ := ih hrest
      obtain ⟨last, hlast, heq⟩ := Option.map_eq_some_iff.mp h
      obtain ⟨hfit, hsame⟩ := memmove_length hlast
      cases heq
      rw [hlen] at hfit
      exact ⟨hsame.trans hlen, List.forall_mem_cons.mpr ⟨hfit, hin⟩⟩

/-- A move that stays within the buffers keeps the length, and its places are inside. -/
theorem moveRange_inside {source : Option Bytes} {dest result : Bytes} {bs : ℕ} {locs : RangeSet}
    (h : moveRange dest locs source bs = some result) :
    result.length = dest.length ∧ ∀ b ∈ locs.expand, (b + 1) * bs ≤ dest.length := by
  obtain ⟨⟨moved, start⟩, hfold, rfl⟩ := Option.map_eq_some_iff.mp h
  obtain ⟨hlen, hin⟩ := foldr_moveStep_length hfold
  refine ⟨hlen, fun b hb => ?_⟩
  obtain ⟨r, hr, hle, hlt⟩ := RangeSet.mem_expandRanges.mp hb
  have hend := hin r hr
  rw [← Nat.add_mul, Nat.add_sub_cancel' (by omega)] at hend
  exact (Nat.mul_le_mul_right bs hlt).trans hend

theorem executeStashes_length {stashes : List StashInfo} {buffer result : Bytes}
    (h : executeStashes host stashes buffer = .ok result) : result.length = buffer.length := by
  induction stashes generalizing buffer with
  | nil =>
    cases h
    rfl
  | cons s stashes ih =>
    rw [executeStashes] at h
    rcases hload : host.loadStash .source s.id false [] with fault | ⟨_ | _, stash, deleted⟩
    · rw [hload] at h
      cases h
    · rw [hload] at h
      exact ih h
    · rw [hload] at h
      dsimp only at h
      rcases hmove : moveRange buffer s.ranges (some stash) blockSize with _ | moved
      · rw [hmove] at h
        cases h
      · rw [hmove] at h
        exact (ih h).trans (moveRange_inside hmove).1

/-- The loaded source fills its places, so that the print stays inside of the buffer. -/
theorem executeSource_inside {source : SourceInfo} {tgt : RangeSet} {buffer result : Bytes}
    {overlap : Bool} (h : executeSource host source tgt buffer = .ok (overlap, result)) :
    source.ranges.blocks * blockSize ≤ result.length ∧
      (source.ranges.ranges ≠ [] → ∀ b ∈ source.location.expand,
        (b + 1) * blockSize ≤ result.length) := by
  rw [executeSource] at h
  rcases halloc : host.allocate (u64 (source.blocks * blockSize)) buffer with fault | start
  · rw [halloc] at h
    cases h
  rw [halloc] at h
  dsimp only at h
  rcases hread : host.readBlocks .source source.ranges start with fault | ⟨_ | _, packed⟩
  · rw [hread] at h
    cases h
  · rw [hread] at h
    cases h
  rw [hread] at h
  dsimp only at h
  obtain ⟨hlen, hfit, -⟩ := readBlocks_eq hread
  rcases hmoved : movedSource source packed with _ | moved
  · rw [hmoved] at h
    cases h
  rw [hmoved] at h
  dsimp only at h
  rcases hstashes : executeStashes host source.stashes moved with fault | filled
  · rw [hstashes] at h
    cases h
  rw [hstashes] at h
  cases h
  have hfilled := executeStashes_length hstashes
  rw [movedSource] at hmoved
  split_ifs at hmoved with hboth
  · obtain ⟨hsame, hin⟩ := moveRange_inside hmoved
    rw [hfilled, hsame, hlen]
    exact ⟨hfit, fun _ b hb => (hin b hb).trans_eq hlen⟩
  · cases hmoved
    rw [hfilled, hlen]
    refine ⟨hfit, fun hranges b hb => ?_⟩
    have hnone : source.location.ranges = [] := by
      by_contra hne
      exact hboth ⟨hranges, hne⟩
    rw [RangeSet.expand, hnone] at hb
    cases hb

theorem except_bind_ok {ε α β : Type} {x : Except ε α} {f : α → Except ε β} {b : β}
    (h : x >>= f = .ok b) : ∃ a, x = .ok a ∧ f a = .ok b := by
  cases x with
  | error => cases h
  | ok a => exact ⟨a, rfl, h⟩

theorem le_allocate_length {size : ℕ} {buffer start : Bytes}
    (h : host.allocate size buffer = .ok start) : buffer.length ≤ start.length := by
  rw [Host.allocate] at h
  split_ifs at h
  · cases h
    exact le_rfl
  · cases h
    rw [List.length_append]
    exact Nat.le_add_right _ _

theorem readRanges_length {m : Moment} {rs : List Range} {p : ℕ} {buffer result : Bytes} {ok : Bool}
    (h : host.readRanges m rs p buffer = .ok (ok, result)) : result.length = buffer.length := by
  induction rs generalizing p buffer with
  | nil =>
    cases h
    rfl
  | cons r rs ih =>
    rw [Host.readRanges] at h
    split_ifs at h with hseek hfit
    · cases h
      rfl
    split at h
    case h_1 =>
      cases h
      rfl
    case h_2 data hdata =>
      rw [bytesStored_eq hdata] at hfit
      obtain ⟨hblocks, rfl⟩ := readRange_eq hdata
      have hlen : ((List.range' r.1 (r.2 - r.1)).flatMap (host.content m)).length =
          (r.2 - r.1) * blockSize := by
        rw [flatMap_length_uniform fun b hb => content_length (hblocks b hb), List.length_range']
      rw [ih h, splice_length (by omega)]

theorem loadSaved_length {m : Moment} {id : Text} {src : RangeSet} {buffer result : Bytes}
    {loaded : Bool} (h : host.loadSaved m id src buffer = .ok (loaded, result)) :
    buffer.length ≤ result.length := by
  obtain ⟨start, halloc, h⟩ := except_bind_ok h
  obtain ⟨⟨read, filled⟩, hread, h⟩ := except_bind_ok h
  have hlen : buffer.length ≤ filled.length :=
    (le_allocate_length halloc).trans_eq (readRanges_length hread).symm
  cases read with
  | false =>
    cases h
    exact hlen
  | true =>
    obtain ⟨verified, hverify, h⟩ := except_bind_ok h
    cases verified with
    | true =>
      cases h
      exact hlen
    | false =>
      obtain ⟨_, -, h⟩ := except_bind_ok h
      cases h
      exact hlen

theorem loadStash_length {m : Moment} {id : Text} {verify loaded : Bool} {buffer result : Bytes}
    {deleted : List Effect}
    (h : host.loadStash m id verify buffer = .ok (loaded, result, deleted)) :
    buffer.length ≤ result.length := by
  rw [Host.loadStash] at h
  split at h
  case h_1 src hsrc =>
    rcases hsaved : host.loadSaved m id src buffer with fault | ⟨saved, filled⟩
    · rw [hsaved] at h
      cases h
    · rw [hsaved] at h
      cases h
      exact loadSaved_length hsaved
  case h_2 =>
    split at h
    case h_1 =>
      cases h
      exact le_rfl
    case h_2 =>
      cases h
      exact le_rfl
    case h_3 data readable hfile =>
      obtain ⟨start, halloc, h⟩ := except_bind_ok h
      have hle := le_allocate_length halloc
      have hfit : 0 + data.length ≤ start.length := by
        rw [Nat.zero_add]
        exact allocate_length halloc
      have hlen := hle.trans_eq (splice_length hfit).symm
      cases readable with
      | false =>
        cases h
        exact hle
      | true =>
        cases verify with
        | false =>
          cases h
          exact hlen
        | true =>
          obtain ⟨verified, -, h⟩ := except_bind_ok h
          cases verified with
          | true =>
            cases h
            exact hlen
          | false =>
            obtain ⟨_, -, h⟩ := except_bind_ok h
            cases h
            exact hlen

theorem printCorruptedSource_eq {hash src : Text} {words : List Text} {source : SourceInfo}
    {buffer : Bytes} (hparsed : ParsedSource parseUint hash src words source)
    (hchecks : source.location.ranges = [] ∨ source.location.blocks = source.ranges.blocks)
    (hsize : source.ranges.blocks * blockSize ≤ buffer.length)
    (hin : source.ranges.ranges ≠ [] → ∀ b ∈ source.location.expand,
      (b + 1) * blockSize ≤ buffer.length) :
    printCorruptedSource parseUint src words buffer = .ok () := by
  rw [printCorruptedSource]
  cases hparsed with
  | stashes => exact if_pos rfl
  | ranges hdash hsrc =>
    rw [if_neg hdash, hsrc]
    exact if_neg (not_lt.mpr hsize)
  | both hdash hsrc hlocs =>
    rw [if_neg hdash, hsrc]
    dsimp only at hchecks hin ⊢
    have hblocks := hchecks.resolve_left (RangeSet.parse_ranges_ne_nil hlocs)
    rw [hlocs, Option.getD_some, if_neg (not_not.mpr hblocks.symm), if_neg]
    rintro ⟨b, hb, hlt⟩
    exact absurd hlt (not_lt.mpr (hin (RangeSet.parse_ranges_ne_nil hsrc) b hb))

theorem loadOverlap_length {id : Text} {overlap loaded : Bool} {buffer result : Bytes}
    {effects effects' : List Effect}
    (h : loadOverlap host id overlap buffer effects = (.ok (loaded, result), effects')) :
    buffer.length ≤ result.length := by
  cases overlap with
  | false =>
    cases h
    exact le_rfl
  | true =>
    rw [loadOverlap, if_pos rfl] at h
    rcases hload : host.loadStash .overlap id true buffer with fault | ⟨found, filled, deleted⟩
    · rw [hload] at h
      cases h
    · rw [hload] at h
      cases h
      exact loadStash_length hload

theorem ParsedSource.hash_eq {hash src : Text} {words : List Text} {source : SourceInfo}
    (h : ParsedSource parseUint hash src words source) : source.hash = hash := by
  cases h with
  | stashes => rfl
  | ranges => rfl
  | both => rfl

/-- A target that does not fit is never read as a whole. -/
theorem targetVerified_fits {tgt : RangeSet} {tgtHash : Text} {verified : Bool}
    (h : host.targetVerified tgt tgtHash = .ok verified) : TargetFits tgt := by
  obtain ⟨start, halloc, h⟩ := except_bind_ok h
  obtain ⟨⟨read, filled⟩, hread, h⟩ := except_bind_ok h
  have hlen : start.length ≤ u64 (tgt.blocks * blockSize) := by
    rw [Host.allocate] at halloc
    split_ifs at halloc
    · cases halloc
      exact Nat.zero_le _
    · cases halloc
      rw [List.nil_append, List.length_replicate]
      exact Nat.sub_le _ _
  cases read with
  | false => cases h
  | true => exact ((readBlocks_eq hread).2.1.trans hlen).trans_lt (u64_lt _)

theorem loadTokens_eq_execute {tokens : List Text} {tgtHash srcHash : Text} {target : TargetInfo}
    {source : SourceInfo} {params : Params}
    (h : Command.parseTargetInfoAndSourceInfo parseUint tokens tgtHash srcHash =
      .ok (target, source))
    (hchecks : Command.SourceChecks target source) :
    loadTokens parseUint host srcHash tgtHash tokens params =
      lifted (executeLoad host target source params) := by
  obtain ⟨tgt, token, src, words, tgtRanges, rfl, htgt, rfl, htoken, hparsed⟩ :=
    parseTargetInfoAndSourceInfo_eq_ok h
  rw [loadTokens, htgt, executeLoad, lifted_bind]
  refine bind_congr fun _ verified _ hverified => ?_
  have hplaces := hchecks (targetVerified_fits (congrArg Prod.fst (lifted_ok hverified)))
  cases verified with
  | true => rfl
  | false =>
    rw [if_neg Bool.false_ne_true, if_neg Bool.false_ne_true,
      loadSourceBlocks_eq_execute htoken hparsed, lifted_bind, lifted_reading]
    rcases hsource : executeSource host source tgtRanges params.buffer with
      fault | ⟨overlap, buffer⟩
    · rfl
    obtain ⟨hsize, hin⟩ := executeSource_inside hsource
    have hhash := hparsed.hash_eq
    subst hhash
    change (reading (.ok (source.blocks, overlap, buffer)) >>= _) =
      reading (.ok (overlap, buffer)) >>= _
    rw [reading_ok_bind, reading_ok_bind]
    dsimp only
    rw [lifted_bind]
    refine bind_congr fun _ expected _ _ => ?_
    cases expected with
    | true => rfl
    | false =>
      rw [if_neg Bool.false_ne_true, if_neg Bool.false_ne_true, lifted_bind]
      refine bind_congr fun _ result _ hresult => ?_
      obtain ⟨loaded, buffer'⟩ := result
      have hle := loadOverlap_length (lifted_ok hresult)
      cases loaded with
      | true => rfl
      | false =>
        have hprint := printCorruptedSource_eq hparsed hplaces (hsize.trans hle)
          fun hranges b hb => (hin hranges b hb).trans hle
        dsimp only
        rw [if_neg Bool.false_ne_true, if_neg Bool.false_ne_true, hprint]
        rfl

theorem parseTarget_eq_ok {args : List Text} {info : CommandInfo}
    (h : Command.parseTarget parseUint args = .ok info) :
    ∃ tgt ranges, args = [tgt] ∧ RangeSet.parse parseUint tgt = some ranges ∧
      info = .target ⟨Command.unknownHash, ranges⟩ := by
  unfold Command.parseTarget at h
  split at h
  case h_2 => cases h
  case h_1 tgt =>
    split at h
    case h_1 => cases h
    case h_2 ranges hranges =>
      cases h
      exact ⟨tgt, ranges, rfl, hranges, rfl⟩

theorem parseDiff_eq_ok {args : List Text} {info : CommandInfo}
    (h : Command.parseDiff parseUint args = .ok info) :
    ∃ offset length srcHash dstHash tokens patch target source,
      args = offset :: length :: srcHash :: dstHash :: tokens ∧
      parseUint offset Command.sizeT = some (PatchInfo.offset patch) ∧
      parseUint length Command.sizeT = some patch.length ∧
      Command.parseTargetInfoAndSourceInfo parseUint tokens dstHash srcHash =
        .ok (target, source) ∧ info = .diff patch target source := by
  unfold Command.parseDiff at h
  split at h
  case h_2 => cases h
  case h_1 offset length srcHash dstHash tokens =>
    split at h
    case h_2 => cases h
    case h_1 patchOffset patchLength hoffset hlength =>
      split at h
      case h_1 => cases h
      case h_2 target source hparse =>
        cases h
        exact ⟨offset, length, srcHash, dstHash, tokens, ⟨patchOffset, patchLength⟩, target, source,
          rfl, hoffset, hlength, hparse, rfl⟩

variable {lib : HashTreeLib}

theorem performDiff_eq_execute {image : Bool} {offset length srcHash dstHash : Text}
    {tokens : List Text} {patch : PatchInfo} {target : TargetInfo} {source : SourceInfo}
    {params : Params} (hoffset : parseUint offset Command.sizeT = some patch.offset)
    (hlength : parseUint length Command.sizeT = some patch.length)
    (hparse : Command.parseTargetInfoAndSourceInfo parseUint tokens dstHash srcHash =
      .ok (target, source))
    (hchecks : Command.SourceChecks target source) :
    performCommandDiff parseUint host image (offset :: length :: srcHash :: dstHash :: tokens)
      params = lifted (do
        let loaded ← executeLoad host target source params
        finishDiff host image patch loaded) := by
  rw [performCommandDiff, hoffset]
  dsimp only
  rw [hlength, lifted_bind, ← loadTokens_eq_execute hparse hchecks]
  rfl

/-- A performer does what the parsed command says. -/
theorem performer_eq_execute {op : CommandType} {index : ℕ} {line : Text} {args : List Text}
    {info : CommandInfo} {params : Params} (h : Command.parseInfo parseUint op line args = .ok info)
    (hchecks : Command.Checks lib ⟨op, index, line, info⟩) :
    performer parseUint host lib op args params =
      lifted (execute host lib ⟨op, index, line, info⟩ params) := by
  cases op with
  | abort =>
    rw [Command.parseInfo] at h
    split_ifs at h with hargs
    cases h
    rfl
  | bsdiff =>
    obtain ⟨_, _, _, _, _, _, _, _, rfl, hoffset, hlength, hparse, rfl⟩ := parseDiff_eq_ok h
    exact performDiff_eq_execute hoffset hlength hparse hchecks
  | imgdiff =>
    obtain ⟨_, _, _, _, _, _, _, _, rfl, hoffset, hlength, hparse, rfl⟩ := parseDiff_eq_ok h
    exact performDiff_eq_execute hoffset hlength hparse hchecks
  | computeHashTree =>
    unfold Command.parseInfo at h
    dsimp only at h
    split at h
    case h_2 => cases h
    case h_1 hashTree source hashAlgorithm saltHex rootHash =>
      split at h
      case h_1 => cases h
      case h_2 hashTreeRanges htree =>
        by_cases hcontiguous : hashTreeRanges.ranges.length ≠ 1
        · rw [if_pos hcontiguous] at h
          cases h
        rw [if_neg hcontiguous] at h
        split at h
        case h_1 => cases h
        case h_2 sourceRanges hsource =>
          by_cases hempty : hashAlgorithm = [] ∨ saltHex = [] ∨ rootHash = []
          · rw [if_pos hempty] at h
            cases h
          rw [if_neg hempty] at h
          cases h
          obtain ⟨hfunction, hbytes⟩ := hchecks
          obtain ⟨-, hrest⟩ := not_or.mp hempty
          obtain ⟨hsalt, hroot⟩ := not_or.mp hrest
          obtain ⟨salt, hparsed⟩ := Option.ne_none_iff_exists'.mp hbytes
          dsimp only at hfunction hparsed
          have hknown : ¬lib.hashFunction hashAlgorithm = false := by
            rw [hfunction]
            exact Bool.noConfusion
          rw [performer, performCommandComputeHashTree, htree]
          dsimp only
          rw [if_neg hcontiguous, hsource]
          dsimp only
          rw [if_neg hknown, if_neg hsalt, hparsed, execute]
          dsimp only
          rw [if_neg hroot, hparsed]
  | erase =>
    obtain ⟨tgt, ranges, rfl, hranges, rfl⟩ := parseTarget_eq_ok h
    rw [performer, performCommandErase, performTarget, hranges, execute]
    dsimp only
    rw [executeErase]
    split_ifs
    · rfl
    · rfl
  | free =>
    unfold Command.parseInfo at h
    dsimp only at h
    split at h
    case h_2 => cases h
    case h_1 id =>
      cases h
      rfl
  | move =>
    unfold Command.parseInfo at h
    dsimp only at h
    split at h
    case h_1 => cases h
    case h_2 hash tokens =>
      split at h
      case h_1 => cases h
      case h_2 target source hparse =>
        cases h
        rw [execute, lifted_bind, ← loadTokens_eq_execute hparse hchecks]
        rfl
  | new =>
    obtain ⟨tgt, ranges, rfl, hranges, rfl⟩ := parseTarget_eq_ok h
    rw [performer, performCommandNew, performTarget, hranges]
    rfl
  | stash =>
    unfold Command.parseInfo at h
    dsimp only at h
    split at h
    case h_2 => cases h
    case h_1 id src =>
      split at h
      case h_1 => cases h
      case h_2 ranges hranges =>
        cases h
        rw [performer, performCommandStash, execute]
        dsimp only
        rw [executeStash, lifted_bind, hranges]
        refine bind_congr fun _ result _ _ => ?_
        obtain ⟨loaded, buffer⟩ := result
        cases loaded with
        | true => rfl
        | false => rfl
  | zero =>
    obtain ⟨tgt, ranges, rfl, hranges, rfl⟩ := parseTarget_eq_ok h
    rw [performer, performCommandZero, performTarget, hranges]
    rfl

theorem performLine_eq_execute {abortAllowed : Bool} {line : Text} {index : ℕ} {command : Command}
    {params : Params} (h : Command.parse parseUint abortAllowed line index = .ok command)
    (hchecks : command.Checks lib) :
    performLine parseUint host lib abortAllowed line params =
      lifted (execute host lib command { params with targetVerified := false }) := by
  rw [Command.parse] at h
  rw [performLine]
  rcases hop : Command.parseType abortAllowed ((line.splitOn ' ').headD []) with _ | op
  · simp only [hop] at h
    cases h
  · simp only [hop] at h ⊢
    rcases hinfo : Command.parseInfo parseUint op line (line.splitOn ' ').tail with err | info
    · rw [hinfo] at h
      cases h
    · rw [hinfo] at h
      cases h
      exact performer_eq_execute hinfo hchecks

end accepted

end BootableRecovery.Updater
