import BootableRecovery.Updater.CommandExecute

namespace BootableRecovery.Updater
open Lib Otautil Perform

/-! The tokens that a performer acts on; without them it has no effect. -/

def StashWords (words : List Text) : Prop := ∀ word ∈ words, (word.splitOn ':').length = 2

/-- The words of a source that `LoadSourceBlocks` can go through, and the overlap with the target.
A stash that is not loaded is not looked at any further. -/
inductive SourceTokens (parseUint : Text → ℕ → Option ℕ) (tgt : RangeSet) :
    Text → List Text → Bool → Prop
  | stashes {words : List Text} (hwords : StashWords words) :
      SourceTokens parseUint tgt ['-'] words false
  | ranges {src : Text} {ranges : RangeSet} (hdash : src ≠ ['-'])
      (hsrc : RangeSet.parse parseUint src = some ranges) :
      SourceTokens parseUint tgt src [] (ranges.overlaps tgt)
  | both {src location : Text} {words : List Text} {ranges locs : RangeSet} (hdash : src ≠ ['-'])
      (hsrc : RangeSet.parse parseUint src = some ranges)
      (hlocs : RangeSet.parse parseUint location = some locs) (hwords : StashWords words) :
      SourceTokens parseUint tgt src (location :: words) (ranges.overlaps tgt)

section effective
variable (parseUint : Text → ℕ → Option ℕ)

/-- With these tokens a source can be verified, or its overlap looked for in a stash. -/
def SourceEffective (srcHash : Text) (tokens : List Text) : Prop :=
  ∃ tgt token src words tgtRanges overlap, tokens = tgt :: token :: src :: words ∧
    RangeSet.parse parseUint tgt = some tgtRanges ∧ TargetFits tgtRanges ∧
    parseUint token Command.sizeT ≠ none ∧ SourceTokens parseUint tgtRanges src words overlap ∧
    (IsDigest srcHash ∨ overlap = true)

/-- With these arguments a performer can have an effect. -/
def Effective (op : CommandType) (args : List Text) : Prop :=
  match op with
  | .zero | .new | .erase =>
    ∃ tgt rest, args = tgt :: rest ∧ RangeSet.parse parseUint tgt ≠ none
  | .free => args ≠ []
  | .stash => 2 ≤ args.length
  | .move => ∃ hash tokens, args = hash :: tokens ∧ SourceEffective parseUint hash tokens
  | .bsdiff | .imgdiff => ∃ offset length srcHash tgtHash tokens,
      args = offset :: length :: srcHash :: tgtHash :: tokens ∧
      parseUint offset Command.sizeT ≠ none ∧ parseUint length Command.sizeT ≠ none ∧
      SourceEffective parseUint srcHash tokens
  | .abort | .computeHashTree => False

end effective

namespace Perform
variable {ε α β : Type} {P : α → Prop} {Q : β → Prop}

/-- A step without effects, which goes on only with what satisfies `P`. -/
def Quiet (x : Perform ε α) (P : α → Prop) : Prop :=
  ∀ effects, (x effects).2 = effects ∧ ∀ a, (x effects).1 = .ok a → P a

theorem quiet_pure {a : α} (h : P a) : Quiet (pure a : Perform ε α) P :=
  fun _ => ⟨rfl, fun _ heq => Except.ok.inj heq ▸ h⟩

theorem quiet_throw (e : ε) : Quiet (throw e : Perform ε α) P := fun _ => ⟨rfl, nofun⟩

theorem quiet_reading {result : Except ε α} (h : ∀ a, result = .ok a → P a) :
    Quiet (reading result) P := fun _ => ⟨rfl, h⟩

theorem quiet_lifted {x : Perform Fault α} (h : Quiet x P) : Quiet (lifted x) P := by
  intro effects
  obtain ⟨hsame, hok⟩ := h effects
  refine ⟨hsame, fun a heq => hok a ?_⟩
  exact congrArg Prod.fst (lifted_ok (Prod.ext heq rfl))

theorem quiet_bind {x : Perform ε α} {f : α → Perform ε β} (hx : Quiet x P)
    (hf : ∀ a, P a → Quiet (f a) Q) : Quiet (x >>= f) Q := by
  intro effects
  obtain ⟨hsame, hok⟩ := hx effects
  rcases hrun : x effects with ⟨e | a, effects'⟩
  · rw [hrun] at hsame
    rw [bind_error hrun]
    exact ⟨hsame, nofun⟩
  · rw [hrun] at hsame hok
    obtain rfl : effects' = effects := hsame
    rw [bind_ok hrun]
    exact hf a (hok a rfl) effects'

/-- A step that keeps the effects so far. -/
def Grows (x : Perform ε α) : Prop := ∀ effects, effects <+: (x effects).2

theorem grows_pure (a : α) : Grows (pure a : Perform ε α) := fun _ => List.prefix_rfl

theorem grows_throw (e : ε) : Grows (throw e : Perform ε α) := fun _ => List.prefix_rfl

theorem grows_reading (result : Except ε α) : Grows (reading result) := fun _ => List.prefix_rfl

theorem grows_add (new : List Effect) : Grows (add new : Perform ε Unit) :=
  fun effects => List.prefix_append effects new

theorem grows_lifted {x : Perform Fault α} (h : Grows x) : Grows (lifted x) := h

theorem grows_bind {x : Perform ε α} {f : α → Perform ε β} (hx : Grows x) (hf : ∀ a, Grows (f a)) :
    Grows (x >>= f) := by
  intro effects
  have hle := hx effects
  rcases hrun : x effects with ⟨e | a, effects'⟩
  · rw [hrun] at hle
    rw [bind_error hrun]
    exact hle
  · rw [hrun] at hle
    rw [bind_ok hrun]
    exact hle.trans (hf a effects')

end Perform

section quiet
variable {parseUint : Text → ℕ → Option ℕ} {host : Host} {params : Params}

theorem loadStashes_words {words : List Text} {buffer result : Bytes}
    (h : loadStashes parseUint host words buffer = .ok result) : StashWords words := by
  induction words generalizing buffer with
  | nil => exact nofun
  | cons word words ih =>
    rw [loadStashes] at h
    split at h
    case h_2 => cases h
    case h_1 id location hsplit =>
      refine List.forall_mem_cons.mpr ⟨by rw [hsplit]; rfl, ?_⟩
      split at h
      case h_1 => cases h
      case h_2 => exact ih h
      case h_3 =>
        split at h
        case h_1 => cases h
        case h_2 =>
          split at h
          case h_1 => cases h
          case h_2 => exact ih h

/-- What is loaded was gone through. -/
theorem loadSourceBlocks_tokens {token src : Text} {words : List Text} {tgt : RangeSet}
    {buffer result : Bytes} {srcBlocks : ℕ} {overlap : Bool}
    (h : loadSourceBlocks parseUint host token src words tgt buffer =
      .ok (srcBlocks, overlap, result)) :
    parseUint token Command.sizeT ≠ none ∧ SourceTokens parseUint tgt src words overlap := by
  have hmap : ∀ (rest : List Text) (start : Bytes) (flag : Bool) (n : ℕ),
      (loadStashes parseUint host rest start).map (fun buffer => (n, flag, buffer)) =
        .ok (srcBlocks, overlap, result) → StashWords rest ∧ flag = overlap := by
    intro rest start flag n hload
    rcases hstashes : loadStashes parseUint host rest start with stop | filled
    · rw [hstashes] at hload
      cases hload
    · rw [hstashes] at hload
      cases hload
      exact ⟨loadStashes_words hstashes, rfl⟩
  rw [loadSourceBlocks] at h
  split at h
  case h_1 => cases h
  case h_2 count htoken =>
    refine ⟨by rw [htoken]; exact Option.some_ne_none _, ?_⟩
    split at h
    case h_1 => cases h
    case h_2 start halloc =>
      by_cases hdash : src = ['-']
      · rw [if_pos hdash] at h
        obtain ⟨hwords, rfl⟩ := hmap _ _ _ _ h
        rw [hdash]
        exact .stashes hwords
      rw [if_neg hdash] at h
      split at h
      case h_1 => cases h
      case h_2 ranges hsrc =>
        split at h
        case h_1 => cases h
        case h_2 => cases h
        case h_3 packed hread =>
          split at h
          case h_1 =>
            cases h
            exact .ranges hdash hsrc
          case h_2 location rest =>
            split at h
            case h_1 => cases h
            case h_2 locs hlocs =>
              split at h
              case h_1 => cases h
              case h_2 moved hmove =>
                obtain ⟨hwords, rfl⟩ := hmap _ _ _ _ h
                exact .both hdash hsrc hlocs hwords

theorem verifyBlocks_of_not_digest {expected : Text} {buffer : Bytes} {blocks : ℕ} {verified : Bool}
    (hdigest : ¬IsDigest expected) (h : host.verifyBlocks expected buffer blocks = .ok verified) :
    verified = false := by
  rw [Host.verifyBlocks] at h
  split_ifs at h
  cases h
  refine decide_eq_false fun heq => hdigest ?_
  rw [← heq]
  exact host.sha1_digest _

/-- Without effective tokens only a target that is complete already lets a command go on. -/
theorem quiet_loadTokens {srcHash tgtHash : Text} {tokens : List Text}
    (h : ¬SourceEffective parseUint srcHash tokens) :
    Quiet (loadTokens parseUint host srcHash tgtHash tokens params)
      fun loaded => loaded.done = true ∧ loaded.freestash = none := by
  unfold loadTokens
  split
  case h_2 => exact quiet_throw _
  case h_1 tgt token src words =>
    split
    case h_1 => exact quiet_throw _
    case h_2 tgtRanges htgt =>
      refine quiet_bind (quiet_lifted (quiet_reading fun _ => targetVerified_fits))
        fun verified hfits => ?_
      cases verified with
      | true => exact quiet_pure ⟨rfl, rfl⟩
      | false =>
        rw [if_neg Bool.false_ne_true]
        refine quiet_bind (quiet_reading fun a ha => loadSourceBlocks_tokens ha) ?_
        rintro ⟨srcBlocks, overlap, buffer⟩ ⟨htoken, hsource⟩
        have hneither : ¬(IsDigest srcHash ∨ overlap = true) := fun heither =>
          h ⟨tgt, token, src, words, tgtRanges, overlap, rfl, htgt, hfits, htoken, hsource, heither⟩
        obtain ⟨hdigest, hoverlap⟩ := not_or.mp hneither
        refine quiet_bind (quiet_lifted (quiet_reading fun a ha =>
          verifyBlocks_of_not_digest hdigest ha)) ?_
        rintro _ rfl
        rw [if_neg Bool.false_ne_true, loadOverlap, if_neg hoverlap]
        change Quiet (reading (printCorruptedSource parseUint src words buffer) >>=
          fun _ => throw (.fault .unresumable)) _
        refine quiet_bind (P := fun _ => True) (quiet_reading fun _ _ => trivial) fun _ _ => ?_
        exact quiet_throw _

theorem quiet_finishLoaded {loaded : Loaded} {write : Perform Fault Unit}
    (h : loaded.done = true ∧ loaded.freestash = none) :
    Quiet (finishLoaded host loaded write) fun _ => True := by
  obtain ⟨tgt, srcBlocks, done, freestash, params⟩ := loaded
  obtain ⟨rfl, rfl⟩ := h
  rw [finishLoaded, if_neg fun h => Bool.false_ne_true h.2.symm]
  exact fun _ => ⟨rfl, fun _ _ => trivial⟩

/-- A performer whose arguments are not effective has no effect. -/
theorem quiet_performer {lib : HashTreeLib} {op : CommandType} {args : List Text}
    (hop : op ≠ .abort ∧ op ≠ .computeHashTree) (h : ¬Effective parseUint op args) :
    Quiet (performer parseUint host lib op args params) fun _ => True := by
  have htarget : ∀ command, (¬∃ tgt rest, args = tgt :: rest ∧
      RangeSet.parse parseUint tgt ≠ none) →
        Quiet (performTarget parseUint args command) fun _ => True := by
    intro command hnone
    unfold performTarget
    split
    case h_1 => exact quiet_throw _
    case h_2 tgt rest =>
      split
      case h_1 => exact quiet_throw _
      case h_2 ranges hranges =>
        exact absurd ⟨tgt, rest, rfl, by rw [hranges]; exact Option.some_ne_none _⟩ hnone
  have hdiff : ∀ image, (¬∃ offset length srcHash tgtHash tokens,
      args = offset :: length :: srcHash :: tgtHash :: tokens ∧
      parseUint offset Command.sizeT ≠ none ∧ parseUint length Command.sizeT ≠ none ∧
      SourceEffective parseUint srcHash tokens) →
        Quiet (performCommandDiff parseUint host image args params) fun _ => True := by
    intro image hnone
    unfold performCommandDiff
    split
    case h_2 => exact quiet_throw _
    case h_1 offset length tokens =>
      split
      case h_1 => exact quiet_throw _
      case h_2 patchOffset hoffset =>
        split
        case h_1 => exact quiet_throw _
        case h_2 patchLength hlength =>
          have hload : Quiet (loadSrcTgtVersion3 parseUint host tokens false params)
              fun loaded => loaded.done = true ∧ loaded.freestash = none := by
            unfold loadSrcTgtVersion3
            split
            case h_1 => exact quiet_throw _
            case h_2 srcHash tokens =>
              rw [if_neg Bool.false_ne_true]
              split
              case h_1 => exact quiet_throw _
              case h_2 tgtHash tokens =>
                refine quiet_loadTokens fun heffective => hnone ?_
                exact ⟨offset, length, srcHash, tgtHash, tokens, rfl,
                  by rw [hoffset]; exact Option.some_ne_none _,
                  by rw [hlength]; exact Option.some_ne_none _, heffective⟩
          exact quiet_bind hload fun loaded hdone => quiet_lifted (quiet_finishLoaded hdone)
  cases op with
  | abort => exact absurd rfl hop.1
  | computeHashTree => exact absurd rfl hop.2
  | bsdiff => exact hdiff false h
  | imgdiff => exact hdiff true h
  | erase =>
    rw [performer, performCommandErase]
    split_ifs
    · exact htarget _ h
    · exact quiet_throw _
  | new => exact htarget _ h
  | zero => exact htarget _ h
  | free =>
    obtain rfl := not_not.mp h
    exact quiet_throw _
  | stash =>
    rcases args with _ | ⟨id, _ | ⟨src, rest⟩⟩
    · exact quiet_throw _
    · exact quiet_throw _
    · exact absurd (Nat.le_add_left 2 rest.length) h
  | move =>
    have hload : Quiet (loadSrcTgtVersion3 parseUint host args true params)
        fun loaded => loaded.done = true ∧ loaded.freestash = none := by
      unfold loadSrcTgtVersion3
      split
      case h_1 => exact quiet_throw _
      case h_2 hash tokens =>
        exact quiet_loadTokens fun heffective => h ⟨hash, tokens, rfl, heffective⟩
    exact quiet_bind hload fun loaded hdone => quiet_lifted (quiet_finishLoaded hdone)

end quiet

end BootableRecovery.Updater
