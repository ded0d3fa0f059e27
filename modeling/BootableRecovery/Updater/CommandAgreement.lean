import BootableRecovery.Updater.CommandTokens

namespace BootableRecovery.Updater
open Lib Otautil Perform

/-! The two parsers of a transfer list: where the performers and `Command::Parse` agree. -/

/-! ### A host on which effective tokens have effects -/

theorem isDigest_replicate {c : Char} (h : c ∈ "0123456789abcdef".toList) :
    IsDigest (List.replicate 40 c) :=
  ⟨List.length_replicate, fun d hd => by rwa [List.eq_of_mem_replicate hd]⟩

/-- A digest apart from two texts -/
theorem exists_digest (s t : Text) : ∃ d, IsDigest d ∧ d ≠ s ∧ d ≠ t := by
  have hne : ∀ c d : Char, c ≠ d → List.replicate 40 c ≠ List.replicate 40 d := fun c d hcd heq =>
    hcd (List.replicate_right_injective (by decide) heq)
  by_cases h0 : List.replicate 40 '0' ≠ s ∧ List.replicate 40 '0' ≠ t
  · exact ⟨_, isDigest_replicate (by decide), h0⟩
  by_cases h1 : List.replicate 40 '1' ≠ s ∧ List.replicate 40 '1' ≠ t
  · exact ⟨_, isDigest_replicate (by decide), h1⟩
  refine ⟨List.replicate 40 '2', isDigest_replicate (by decide), ?_⟩
  have h01 := hne '0' '1' (by decide)
  have h02 := hne '0' '2' (by decide)
  have h12 := hne '1' '2' (by decide)
  grind

/-- The target holds zeros and the source ones; `other` is the digest of what starts with a zero. -/
def boldHost (expected other : Text) (hexpected : IsDigest expected) (hother : IsDigest other) :
    Host where
  canwrite := true
  createdstash := true
  isRetry := false
  isBlockDevice := true
  block m _ := some (List.replicate blockSize (if m = .target then 0 else 1))
  block_length := fun m b data hdata => by
    cases hdata
    exact List.length_replicate
  seeks _ _ := true
  partRead _ _ := 0
  sha1 data := if data.head? = some 0 then other else expected
  sha1_digest := fun data => by
    split_ifs
    · exact hother
    · exact hexpected
  stashMap _ := none
  stashFile m _ := if m = .source then .missing else .file [] true
  allocates _ := true
  freeSpace _ := true
  succeeds _ := true
  rootHash _ _ := none

/-- All the bytes are `x`. -/
def Filled (x : UInt8) (buffer : Bytes) : Prop := ∀ a ∈ buffer, a = x

section bold
variable {parseUint : Text → ℕ → Option ℕ} {expected other : Text} {hexpected : IsDigest expected}
  {hother : IsDigest other}

theorem Filled.splice {x : UInt8} {buffer data : Bytes} {start : ℕ} (h : Filled x buffer)
    (hdata : Filled x data) : Filled x (splice buffer start data) := by
  intro a ha
  rcases List.mem_append.mp ha with ha | ha
  · exact h a (List.mem_of_mem_take ha)
  · exact (List.mem_append.mp ha).elim (hdata a) fun ha => h a (List.mem_of_mem_drop ha)

theorem Filled.slice {x : UInt8} {buffer : Bytes} {start n : ℕ} (h : Filled x buffer) :
    Filled x (slice buffer start n) :=
  fun a ha => h a (List.mem_of_mem_drop (List.mem_of_mem_take ha))

theorem filled_replicate (n : ℕ) (x : UInt8) : Filled x (List.replicate n x) :=
  fun _ ha => List.eq_of_mem_replicate ha

theorem bold_readRange (m : Moment) (b n : ℕ) :
    ∃ data, (boldHost expected other hexpected hother).readRange m b n = some data := by
  induction n generalizing b with
  | zero => exact ⟨[], rfl⟩
  | succ n ih =>
    obtain ⟨rest, hrest⟩ := ih (b + 1)
    refine ⟨List.replicate blockSize (if m = .target then 0 else 1) ++ rest, ?_⟩
    rw [Host.readRange, hrest]
    rfl

theorem bold_readRanges (m : Moment) {rs : List Range} {p : ℕ} {buffer : Bytes}
    (hfit : p + (expandRanges rs).length * blockSize ≤ buffer.length)
    (hfill : Filled (if m = .target then 0 else 1) buffer) :
    ∃ packed, (boldHost expected other hexpected hother).readRanges m rs p buffer =
        .ok (true, packed) ∧ packed.length = buffer.length ∧
      Filled (if m = .target then 0 else 1) packed := by
  induction rs generalizing p buffer with
  | nil => exact ⟨buffer, rfl, rfl, hfill⟩
  | cons r rs ih =>
    rw [expandRanges_cons, List.length_append, List.length_range', Nat.add_mul] at hfit
    obtain ⟨data, hdata⟩ := @bold_readRange expected other hexpected hother m r.1 (r.2 - r.1)
    obtain ⟨hblocks, heq⟩ := readRange_eq hdata
    have hlen : data.length = (r.2 - r.1) * blockSize := by
      rw [heq, flatMap_length_uniform fun b hb => content_length (hblocks b hb),
        List.length_range']
    have hone : Filled (if m = .target then 0 else 1) data := by
      rw [heq]
      intro a ha
      obtain ⟨b, -, hb⟩ := List.mem_flatMap.mp ha
      exact List.eq_of_mem_replicate hb
    have hsplice : (Lib.splice buffer p data).length = buffer.length := splice_length (by omega)
    obtain ⟨packed, hread, hpacked, hfilled⟩ :=
      @ih (p + (r.2 - r.1) * blockSize) (Lib.splice buffer p data) (by omega) (hfill.splice hone)
    refine ⟨packed, ?_, hpacked.trans hsplice, hfilled⟩
    have hseek : ¬(boldHost expected other hexpected hother).seeks m r.1 = false :=
      Bool.false_ne_true.symm
    rw [Host.readRanges, if_neg hseek, bytesStored_eq hdata, if_neg (by omega), hdata]
    exact hread

/-- A move in one buffer succeeds if all of its places are inside. -/
theorem exists_moveRange {x : UInt8} {dest : Bytes} {locs : RangeSet} {bs : ℕ}
    (hin : ∀ r ∈ locs.ranges, r.1 * bs + (r.2 - r.1) * bs ≤ dest.length)
    (hfit : locs.blocks * bs ≤ dest.length) (hfill : Filled x dest) :
    ∃ result, moveRange dest locs none bs = some result ∧ result.length = dest.length ∧
      Filled x result := by
  have hfold : ∀ (rs : List Range) (start : ℕ),
      (∀ r ∈ rs, r.1 * bs + (r.2 - r.1) * bs ≤ dest.length) →
      (start + (expandRanges rs).length) * bs ≤ dest.length →
      ∃ result, rs.foldr (moveStep none bs) (some (dest, start + (expandRanges rs).length)) =
        some (result, start) ∧ result.length = dest.length ∧ Filled x result := by
    intro rs
    induction rs with
    | nil => exact fun start _ _ => ⟨dest, rfl, rfl, hfill⟩
    | cons r rs ih =>
      intro start hrs hsize
      have htotal : start + (expandRanges (r :: rs)).length =
          start + (r.2 - r.1) + (expandRanges rs).length := by
        rw [expandRanges_cons, List.length_append, List.length_range', Nat.add_assoc]
      rw [htotal] at hsize ⊢
      obtain ⟨moved, hmoved, hlen, hfilled⟩ := ih (start + (r.2 - r.1))
        (fun s hs => hrs s (List.mem_cons_of_mem _ hs)) hsize
      have hpacked : start * bs + (r.2 - r.1) * bs ≤ moved.length := by
        rw [← Nat.add_mul, hlen]
        exact (Nat.mul_le_mul_right bs (Nat.le_add_right _ _)).trans hsize
      have hplace : r.1 * bs + (r.2 - r.1) * bs ≤ moved.length :=
        (hrs r List.mem_cons_self).trans_eq hlen.symm
      have hslice := slice_length hpacked
      refine ⟨Lib.splice moved (r.1 * bs) (Lib.slice moved (start * bs) ((r.2 - r.1) * bs)), ?_, ?_,
        hfilled.splice hfilled.slice⟩
      · rw [List.foldr_cons, hmoved, moveStep, Nat.add_sub_cancel, memmove]
        exact congrArg (Option.map _) (if_pos ⟨hpacked, hplace⟩)
      · rw [splice_length (by rw [hslice]; exact hplace), hlen]
  obtain ⟨result, hresult, hlen, hfilled⟩ :=
    hfold locs.ranges 0 hin ((congrArg (· * bs) (Nat.zero_add _)).trans_le hfit)
  rw [Nat.zero_add] at hresult
  refine ⟨result, ?_, hlen, hfilled⟩
  rw [moveRange, RangeSet.blocks, RangeSet.expand, hresult]
  rfl

theorem bold_verifyBlocks {buffer : Bytes} {id : Text} {blocks : ℕ} (hfill : Filled 1 buffer)
    (hlen : 2 ^ 64 ≤ buffer.length) :
    (boldHost expected other hexpected hother).verifyBlocks id buffer blocks =
      .ok (decide (expected = id)) := by
  have hhead : ¬(buffer.take (u64 (blocks * blockSize))).head? = some 0 := by
    intro hzero
    have hone := hfill 0 (List.mem_of_mem_take (List.mem_of_mem_head? hzero))
    exact absurd hone (by decide)
  have hdigest : (boldHost expected other hexpected hother).sha1
      (buffer.take (u64 (blocks * blockSize))) = expected := if_neg hhead
  rw [Host.verifyBlocks, if_neg (not_lt.mpr ((u64_lt _).le.trans hlen)), hdigest]

theorem bold_targetVerified {tgt : RangeSet} {tgtHash : Text} (hne : other ≠ tgtHash)
    (hfits : TargetFits tgt) (hpos : 0 < tgt.blocks) :
    (boldHost expected other hexpected hother).targetVerified tgt tgtHash = .ok false := by
  have hsize : u64 (tgt.blocks * blockSize) = tgt.blocks * blockSize := u64_of_lt hfits
  have hbytes : 0 < tgt.blocks * blockSize := Nat.mul_pos hpos (by decide)
  have halloc : (boldHost expected other hexpected hother).allocate (tgt.blocks * blockSize) [] =
      .ok (List.replicate (tgt.blocks * blockSize) 0) := if_neg (not_le.mpr hbytes)
  have hlen : (List.replicate (tgt.blocks * blockSize) (0 : UInt8)).length =
      tgt.blocks * blockSize := List.length_replicate
  have hfit : 0 + (expandRanges tgt.ranges).length * blockSize ≤
      (List.replicate (tgt.blocks * blockSize) (0 : UInt8)).length := by
    rw [hlen, Nat.zero_add]
    exact le_rfl
  obtain ⟨packed, hread, hpacked, hfill⟩ := @bold_readRanges expected other hexpected hother .target
    tgt.ranges 0 _ hfit (filled_replicate _ _)
  have hhead : (packed.take (tgt.blocks * blockSize)).head? = some 0 := by
    rw [List.take_of_length_le (hpacked.trans hlen).le]
    obtain ⟨a, rest, hcons⟩ :=
      List.exists_cons_of_length_pos (hbytes.trans_eq (hpacked.trans hlen).symm)
    rw [hcons, List.head?_cons, hfill a (by rw [hcons]; exact List.mem_cons_self)]
    rfl
  have hdigest : (boldHost expected other hexpected hother).sha1
      (packed.take (tgt.blocks * blockSize)) = other := if_pos hhead
  rw [Host.targetVerified, hsize, halloc]
  change ((boldHost expected other hexpected hother).readBlocks .target tgt _ >>= _) = _
  rw [Host.readBlocks, hread]
  change (boldHost expected other hexpected hother).verifyBlocks tgtHash packed tgt.blocks = _
  rw [Host.verifyBlocks, hsize, if_neg (not_lt.mpr (hpacked.trans hlen).ge), hdigest,
    decide_eq_false hne]

theorem bold_loadStashes {words : List Text} {buffer : Bytes} (h : StashWords words) :
    loadStashes parseUint (boldHost expected other hexpected hother) words buffer = .ok buffer := by
  induction words with
  | nil => rfl
  | cons word words ih =>
    obtain ⟨hword, hrest⟩ := List.forall_mem_cons.mp h
    obtain ⟨id, location, hsplit⟩ := List.length_eq_two.mp hword
    rw [loadStashes, hsplit]
    exact ih hrest

theorem exists_bound {α : Type} (f : α → ℕ) (l : List α) : ∃ m, ∀ a ∈ l, f a ≤ m := by
  induction l with
  | nil => exact ⟨0, fun a ha => absurd ha List.not_mem_nil⟩
  | cons a l ih =>
    obtain ⟨m, hm⟩ := ih
    refine ⟨f a + m, List.forall_mem_cons.mpr ⟨Nat.le_add_right _ _, fun b hb => ?_⟩⟩
    exact (hm b hb).trans (Nat.le_add_left _ _)

/-- In a buffer that is large enough, the source is loaded. -/
theorem bold_loadSourceBlocks {tgt : RangeSet} {token src : Text} {words : List Text}
    {overlap : Bool} {n : ℕ} (htoken : parseUint token Command.sizeT = some n)
    (hsource : SourceTokens parseUint tgt src words overlap) :
    ∃ size, ∀ buffer : Bytes, size ≤ buffer.length → Filled 1 buffer → ∃ loaded,
      loadSourceBlocks parseUint (boldHost expected other hexpected hother) token src words tgt
        buffer = .ok (n, overlap, loaded) ∧ loaded.length = buffer.length ∧ Filled 1 loaded := by
  have halloc : ∀ buffer : Bytes, 2 ^ 64 ≤ buffer.length →
      (boldHost expected other hexpected hother).allocate (u64 (n * blockSize)) buffer =
        .ok buffer :=
    fun buffer hle => if_pos ((u64_lt _).le.trans hle)
  have hread : ∀ (ranges : RangeSet) (buffer : Bytes), ranges.blocks * blockSize ≤ buffer.length →
      Filled 1 buffer → ∃ packed,
        (boldHost expected other hexpected hother).readBlocks .source ranges buffer =
          .ok (true, packed) ∧ packed.length = buffer.length ∧ Filled 1 packed :=
    fun ranges buffer hfit hfill =>
      bold_readRanges .source ((Nat.zero_add _).trans_le hfit) hfill
  cases hsource with
  | stashes hwords =>
    refine ⟨2 ^ 64, fun buffer hle hfill => ⟨buffer, ?_, rfl, hfill⟩⟩
    rw [loadSourceBlocks, htoken]
    dsimp only
    rw [halloc buffer hle]
    dsimp only
    rw [if_pos rfl, bold_loadStashes hwords]
    rfl
  | @ranges src ranges hdash hsrc =>
    refine ⟨2 ^ 64 + ranges.blocks * blockSize, fun buffer hle hfill => ?_⟩
    obtain ⟨packed, hpacked, hlen, hfilled⟩ := hread ranges buffer (by omega) hfill
    refine ⟨packed, ?_, hlen, hfilled⟩
    rw [loadSourceBlocks, htoken]
    dsimp only
    rw [halloc buffer (by omega)]
    dsimp only
    rw [if_neg hdash, hsrc]
    dsimp only
    rw [hpacked]
  | @both src location words ranges locs hdash hsrc hlocs hwords =>
    obtain ⟨m, hm⟩ := exists_bound (fun r : Range => r.1 * blockSize + (r.2 - r.1) * blockSize)
      locs.ranges
    refine ⟨2 ^ 64 + ranges.blocks * blockSize + locs.blocks * blockSize + m,
      fun buffer hle hfill => ?_⟩
    obtain ⟨packed, hpacked, hlen, hfilled⟩ := hread ranges buffer (by omega) hfill
    obtain ⟨moved, hmove, hmovedLen, hmoved⟩ := exists_moveRange
      (fun r hr => (hm r hr).trans (by omega)) (by omega) hfilled
    refine ⟨moved, ?_, hmovedLen.trans hlen, hmoved⟩
    rw [loadSourceBlocks, htoken]
    dsimp only
    rw [halloc buffer (by omega)]
    dsimp only
    rw [if_neg hdash, hsrc]
    dsimp only
    rw [hpacked]
    dsimp only
    rw [hlocs]
    dsimp only
    rw [hmove]
    dsimp only
    rw [bold_loadStashes hwords]
    rfl

/-- Outside of a source the host has an empty stash, which is deleted if its digest is not the
expected one. -/
theorem bold_loadStash {m : Moment} {id : Text} {buffer : Bytes} (hm : m ≠ .source)
    (hne : expected ≠ id) :
    (boldHost expected other hexpected hother).loadStash m id true buffer =
      .ok (false, buffer, [.deleteStash id]) := by
  have hfile : (boldHost expected other hexpected hother).stashFile m id = .file [] true :=
    if_neg hm
  have halloc : (boldHost expected other hexpected hother).allocate 0 buffer = .ok buffer :=
    if_pos (Nat.zero_le _)
  have hverify : (boldHost expected other hexpected hother).verifyBlocks id buffer 0 =
      .ok false := by
    have hdigest : (boldHost expected other hexpected hother).sha1 (buffer.take 0) = expected := rfl
    rw [Host.verifyBlocks, if_neg (by exact Nat.not_lt_zero _)]
    change Except.ok (decide ((boldHost expected other hexpected hother).sha1 (buffer.take 0) =
      id)) = _
    rw [hdigest, decide_eq_false hne]
  have hwrite : (boldHost expected other hexpected hother).canwrite = true := rfl
  rw [Host.loadStash, if_pos hwrite]
  dsimp only
  rw [hfile]
  change ((boldHost expected other hexpected hother).allocate 0 buffer >>= fun buffer =>
    (boldHost expected other hexpected hother).verifyBlocks id (splice buffer 0 []) 0 >>=
      fun verified => if verified then pure (true, splice buffer 0 [], [])
        else pure (false, splice buffer 0 [], [Effect.deleteStash id])) = _
  rw [halloc]
  change ((boldHost expected other hexpected hother).verifyBlocks id (splice buffer 0 []) 0 >>=
      fun verified => if verified then pure (true, splice buffer 0 [], [])
        else pure (false, splice buffer 0 [], [Effect.deleteStash id])) = _
  rw [splice_nil, hverify]
  rfl

theorem bold_loadOverlap {srcHash : Text} {buffer : Bytes} {effects : List Effect}
    (hne : expected ≠ srcHash) :
    loadOverlap (boldHost expected other hexpected hother) srcHash true buffer effects =
      (.ok (false, buffer), effects ++ [.deleteStash srcHash]) := by
  have hload :=
    @bold_loadStash expected other hexpected hother .overlap srcHash buffer (by simp) hne
  rw [loadOverlap, if_pos rfl, hload]
  rfl

section load
variable {srcHash tgtHash tgt token src : Text} {words : List Text} {tgtRanges : RangeSet}
  {overlap : Bool} {n : ℕ} {params : Params} {loaded : Bytes} {effects : List Effect}

/-- Where the source has the expected digest, the command goes on. -/
theorem bold_loadTokens {hsrcHash : IsDigest srcHash} (hother' : other ≠ tgtHash)
    (htgt : RangeSet.parse parseUint tgt = some tgtRanges) (hfits : TargetFits tgtRanges)
    (hload : loadSourceBlocks parseUint (boldHost srcHash other hsrcHash hother) token src words
      tgtRanges params.buffer = .ok (n, overlap, loaded))
    (hlen : 2 ^ 64 ≤ loaded.length) (hfill : Filled 1 loaded) :
    ∃ stashed, loadTokens parseUint (boldHost srcHash other hsrcHash hother) srcHash tgtHash
        (tgt :: token :: src :: words) params effects =
      (.ok ⟨tgtRanges, n, false, none, { params with buffer := loaded, stashed }⟩, effects) := by
  have hverified := @bold_targetVerified srcHash other hsrcHash hother tgtRanges tgtHash hother'
    hfits (RangeSet.parse_blocks_pos htgt)
  have hverify := @bold_verifyBlocks srcHash other hsrcHash hother loaded srcHash n hfill hlen
  rw [decide_eq_true rfl] at hverify
  rw [loadTokens, htgt]
  dsimp only
  rw [hverified, hload]
  change ∃ stashed, (lifted (reading ((boldHost srcHash other hsrcHash hother).verifyBlocks srcHash
    loaded n)) >>= _) effects = _
  rw [hverify]
  change ∃ stashed, lifted (keepOverlap (boldHost srcHash other hsrcHash hother) tgtRanges srcHash n
    overlap { params with buffer := loaded }) effects = _
  cases overlap with
  | false => exact ⟨params.stashed, rfl⟩
  | true => exact ⟨params.stashed + n, rfl⟩

/-- Where it has not, the source is printed, and an overlap has been looked for. -/
theorem bold_loadTokens_print (hother' : other ≠ tgtHash) (hne : expected ≠ srcHash)
    (htgt : RangeSet.parse parseUint tgt = some tgtRanges) (hfits : TargetFits tgtRanges)
    (hload : loadSourceBlocks parseUint (boldHost expected other hexpected hother) token src words
      tgtRanges params.buffer = .ok (n, overlap, loaded))
    (hlen : 2 ^ 64 ≤ loaded.length) (hfill : Filled 1 loaded) :
    loadTokens parseUint (boldHost expected other hexpected hother) srcHash tgtHash
        (tgt :: token :: src :: words) params effects =
      (reading (printCorruptedSource parseUint src words loaded) >>= fun _ =>
        (throw (.fault .unresumable) : Perform Stop Loaded))
          (effects ++ if overlap then [.deleteStash srcHash] else []) := by
  have hverified := @bold_targetVerified expected other hexpected hother tgtRanges tgtHash hother'
    hfits (RangeSet.parse_blocks_pos htgt)
  have hverify := @bold_verifyBlocks expected other hexpected hother loaded srcHash n hfill hlen
  rw [decide_eq_false hne] at hverify
  rw [loadTokens, htgt]
  dsimp only
  rw [hverified, hload]
  change (lifted (reading ((boldHost expected other hexpected hother).verifyBlocks srcHash
    loaded n)) >>= _) effects = _
  rw [hverify]
  change (lifted (loadOverlap (boldHost expected other hexpected hother) srcHash overlap loaded) >>=
    _) effects = _
  cases overlap with
  | false =>
    rw [if_neg Bool.false_ne_true, List.append_nil]
    rfl
  | true =>
    rw [if_pos rfl]
    have hoverlap := @bold_loadOverlap expected other hexpected hother srcHash loaded effects hne
    have hrun : lifted (loadOverlap (boldHost expected other hexpected hother) srcHash true loaded)
        effects = (.ok (false, loaded), effects ++ [.deleteStash srcHash]) := by
      rw [lifted, hoverlap]
      rfl
    rw [bind_ok hrun]
    rfl

end load

end bold

/-! ### Effects -/

theorem effect_bind {ε α β : Type} {x : Perform ε α} {f : α → Perform ε β} {effects : List Effect}
    (hx : (x effects).2 ≠ []) (hf : ∀ a, Grows (f a)) : ((x >>= f) effects).2 ≠ [] := by
  rcases hrun : x effects with ⟨e | a, effects'⟩
  · rw [bind_error hrun]
    rwa [hrun] at hx
  · rw [bind_ok hrun]
    rw [hrun] at hx
    intro hnil
    have hprefix := hf a effects'
    rw [hnil] at hprefix
    exact hx (List.prefix_nil.mp hprefix)

theorem grows_perform (host : Host) (effect : Effect) : Grows (host.perform effect) := by
  refine grows_bind (grows_add _) fun _ => ?_
  split_ifs
  · exact grows_pure _
  · exact grows_throw _

theorem effect_perform (host : Host) (effect : Effect) (effects : List Effect) :
    ((host.perform effect) effects).2 ≠ [] := by
  refine effect_bind (List.append_ne_nil_of_right_ne_nil _ (List.cons_ne_nil _ _)) fun _ => ?_
  split_ifs
  · exact grows_pure _
  · exact grows_throw _

theorem grows_freeStash (id : Text) : Grows (freeStash id) := by
  rw [freeStash]
  split_ifs
  · exact grows_throw _
  · exact grows_add _

theorem grows_writeStash (host : Host) (id : Text) (blocks : ℕ) (buffer : Bytes) (overlap : Bool) :
    Grows (host.writeStash id blocks buffer overlap) := by
  unfold Host.writeStash
  dsimp only
  split_ifs
  · exact grows_throw _
  · exact grows_pure _
  · exact grows_throw _
  · exact grows_bind (grows_perform host _) fun _ => grows_pure _

theorem grows_stashBlocks (host : Host) (id : Text) (src : RangeSet) (params : Params) :
    Grows (stashBlocks host id src params) := by
  refine grows_bind (grows_reading _) fun _ => grows_bind (grows_reading _) fun result => ?_
  obtain ⟨read, buffer⟩ := result
  cases read with
  | false => exact grows_throw _
  | true =>
    refine grows_bind (grows_add _) fun _ => grows_bind (grows_reading _) fun verified => ?_
    split_ifs
    · exact grows_bind (grows_writeStash host _ _ _ _) fun _ => grows_pure _
    · exact grows_pure _

theorem effect_finishLoaded {host : Host} {loaded : Loaded} {write : Perform Fault Unit}
    {effects : List Effect} (hcanwrite : host.canwrite = true) (hdone : loaded.done = false)
    (hwrite : (write effects).2 ≠ []) : ((finishLoaded host loaded write) effects).2 ≠ [] := by
  rw [finishLoaded, if_pos ⟨hcanwrite, hdone⟩]
  refine effect_bind hwrite fun _ => ?_
  dsimp only
  split
  · exact grows_pure _
  · exact grows_bind (grows_freeStash _) fun _ => grows_pure _

def startParams (buffer : Bytes) : Params := ⟨buffer, 0, 0, false, false⟩

section effects
variable {parseUint : Text → ℕ → Option ℕ} {lib : HashTreeLib}

/-- On some host, effective tokens are loaded for a write, or a stash is deleted for them. -/
theorem exists_load {srcHash : Text} {tokens : List Text}
    (h : SourceEffective parseUint srcHash tokens) (tgtHash : Text) :
    ∃ host buffer, host.canwrite = true ∧
      ((∃ loaded, loadTokens parseUint host srcHash tgtHash tokens (startParams buffer) [] =
          (.ok loaded, []) ∧ loaded.done = false ∧ 2 ^ 64 ≤ loaded.params.buffer.length) ∨
        ∃ stop effects, loadTokens parseUint host srcHash tgtHash tokens (startParams buffer) [] =
          (.error stop, effects) ∧ effects ≠ []) := by
  obtain ⟨tgt, token, src, words, tgtRanges, overlap, rfl, htgt, hfits, htoken, hsource,
    heither⟩ := h
  obtain ⟨n, hn⟩ := Option.ne_none_iff_exists'.mp htoken
  obtain ⟨other, hother, -, hne⟩ := exists_digest srcHash tgtHash
  by_cases hdigest : IsDigest srcHash
  · obtain ⟨size, hload⟩ := @bold_loadSourceBlocks parseUint srcHash other hdigest hother tgtRanges
      token src words overlap n hn hsource
    have hlen : (List.replicate (2 ^ 64 + size) (1 : UInt8)).length = 2 ^ 64 + size :=
      List.length_replicate
    obtain ⟨loaded, hloaded, hsame, hfill⟩ := hload (List.replicate (2 ^ 64 + size) 1)
      (by omega) (filled_replicate _ _)
    have hlarge : 2 ^ 64 ≤ loaded.length := by omega
    obtain ⟨stashed, hrun⟩ := @bold_loadTokens parseUint other hother srcHash tgtHash tgt token src
      words tgtRanges overlap n (startParams (List.replicate (2 ^ 64 + size) 1)) loaded [] hdigest
      hne htgt hfits hloaded hlarge hfill
    exact ⟨boldHost srcHash other hdigest hother, _, rfl, .inl ⟨_, hrun, rfl, hlarge⟩⟩
  · obtain rfl := heither.resolve_left hdigest
    obtain ⟨size, hload⟩ := @bold_loadSourceBlocks parseUint other other hother hother tgtRanges
      token src words true n hn hsource
    have hlen : (List.replicate (2 ^ 64 + size) (1 : UInt8)).length = 2 ^ 64 + size :=
      List.length_replicate
    obtain ⟨loaded, hloaded, hsame, hfill⟩ := hload (List.replicate (2 ^ 64 + size) 1)
      (by omega) (filled_replicate _ _)
    have hlarge : 2 ^ 64 ≤ loaded.length := by omega
    have hother' : other ≠ srcHash := fun heq => hdigest (heq ▸ hother)
    have hrun :=
      @bold_loadTokens_print parseUint other other hother hother srcHash tgtHash tgt token
      src words tgtRanges true n (startParams (List.replicate (2 ^ 64 + size) 1)) loaded []
      hne hother' htgt hfits hloaded hlarge hfill
    refine ⟨boldHost other other hother hother, List.replicate (2 ^ 64 + size) 1, rfl, .inr ?_⟩
    rw [hrun]
    cases printCorruptedSource parseUint src words loaded with
    | error stop => exact ⟨stop, _, rfl, List.cons_ne_nil _ _⟩
    | ok => exact ⟨_, _, rfl, List.cons_ne_nil _ _⟩

theorem parseStashes_words {words : List Text} {stashes : List StashInfo}
    (h : Command.parseStashes parseUint words = .ok stashes) : StashWords words := by
  induction words generalizing stashes with
  | nil => exact fun word hword => absurd hword List.not_mem_nil
  | cons word words ih =>
    obtain ⟨id, location, locs, rest, hsplit, -, hrest, -⟩ := parseStashes_cons h
    exact List.forall_mem_cons.mpr ⟨by rw [hsplit]; rfl, ih hrest⟩

/-- A location with another number of blocks than the source ends in a `CHECK` on some host. -/
theorem exists_tokenCheck {tokens : List Text} {tgtHash srcHash : Text} {target : TargetInfo}
    {source : SourceInfo}
    (h : Command.parseTargetInfoAndSourceInfo parseUint tokens tgtHash srcHash =
      .ok (target, source))
    (hchecks : ¬Command.SourceChecks target source) :
    ∃ host buffer effects,
    loadTokens parseUint host srcHash tgtHash tokens (startParams buffer) [] =
      (.error .tokenCheck, effects) := by
  obtain ⟨tgt, token, src, words, tgtRanges, rfl, htgt, rfl, htoken, hparsed⟩ :=
    parseTargetInfoAndSourceInfo_eq_ok h
  obtain ⟨hfits, hlocation⟩ := Classical.not_imp.mp hchecks
  obtain ⟨hne, hblocks⟩ := not_or.mp hlocation
  cases hparsed with
  | stashes => exact absurd rfl hne
  | ranges => exact absurd rfl hne
  | @both src location words ranges locs stashes hdash hsrc hlocs hwords =>
    obtain ⟨other, hother, hsrcHash, htgtHash⟩ := exists_digest srcHash tgtHash
    obtain ⟨size, hload⟩ := @bold_loadSourceBlocks parseUint other other hother hother tgtRanges
      token src (location :: words) (ranges.overlaps tgtRanges) _ htoken
      (.both hdash hsrc hlocs (parseStashes_words hwords))
    have hlen : (List.replicate (2 ^ 64 + size) (1 : UInt8)).length = 2 ^ 64 + size :=
      List.length_replicate
    obtain ⟨loaded, hloaded, hsame, hfill⟩ := hload (List.replicate (2 ^ 64 + size) 1)
      (by omega) (filled_replicate _ _)
    have hrun :=
      @bold_loadTokens_print parseUint other other hother hother srcHash tgtHash tgt token
      src (location :: words) tgtRanges _ _ (startParams (List.replicate (2 ^ 64 + size) 1)) loaded
      [] htgtHash hsrcHash htgt hfits hloaded (by omega) hfill
    have hprint : printCorruptedSource parseUint src (location :: words) loaded =
        .error .tokenCheck := by
      rw [printCorruptedSource, if_neg hdash, hsrc]
      dsimp only
      rw [hlocs, Option.getD_some, if_pos fun heq => hblocks heq.symm]
    rw [hprint] at hrun
    exact ⟨_, _, _, hrun⟩

/-- Effective arguments have an effect on some host. -/
theorem exists_effect {op : CommandType} {args : List Text} (h : Effective parseUint op args) :
    ∃ host buffer, ((performer parseUint host lib op args (startParams buffer)) []).2 ≠ [] := by
  obtain ⟨d, hd, -⟩ := exists_digest [] []
  have htarget : ∀ (command : Host → RangeSet → Perform Fault Params),
      (∀ tgt, ((command (boldHost d d hd hd) tgt) []).2 ≠ []) →
      (∃ tgt rest, args = tgt :: rest ∧ RangeSet.parse parseUint tgt ≠ none) →
        ((performTarget parseUint args (command (boldHost d d hd hd))) []).2 ≠ [] := by
    rintro command hcommand ⟨tgt, rest, rfl, htgt⟩
    obtain ⟨ranges, hranges⟩ := Option.ne_none_iff_exists'.mp htgt
    rw [performTarget, hranges]
    exact hcommand ranges
  have hfinish : ∀ (load : Host → Bytes → Perform Stop Loaded)
      (finish : Host → Loaded → Perform Fault Params),
      (∃ host buffer, host.canwrite = true ∧
        ((∃ loaded, load host buffer [] = (.ok loaded, []) ∧ loaded.done = false ∧
            2 ^ 64 ≤ loaded.params.buffer.length) ∨
          ∃ stop effects, load host buffer [] = (.error stop, effects) ∧ effects ≠ [])) →
      (∀ host loaded, host.canwrite = true → loaded.done = false →
        2 ^ 64 ≤ loaded.params.buffer.length → ((finish host loaded) []).2 ≠ []) →
      ∃ host buffer,
        ((load host buffer >>= fun loaded => lifted (finish host loaded)) []).2 ≠ [] := by
    rintro load finish ⟨host, buffer, hcanwrite, hload⟩ hfinish
    refine ⟨host, buffer, ?_⟩
    rcases hload with ⟨loaded, hrun, hdone, hlen⟩ | ⟨stop, effects, hrun, hne⟩
    · rw [bind_ok hrun]
      exact hfinish host loaded hcanwrite hdone hlen
    · rw [bind_error hrun]
      exact hne
  have hdiff : ∀ image, (∃ offset length srcHash tgtHash tokens,
      args = offset :: length :: srcHash :: tgtHash :: tokens ∧
      parseUint offset Command.sizeT ≠ none ∧ parseUint length Command.sizeT ≠ none ∧
      SourceEffective parseUint srcHash tokens) →
        ∃ host buffer,
          ((performCommandDiff parseUint host image args (startParams buffer)) []).2 ≠ [] := by
    rintro image ⟨offset, length, srcHash, tgtHash, tokens, rfl, hoffset, hlength, hsource⟩
    obtain ⟨patchOffset, hpatchOffset⟩ := Option.ne_none_iff_exists'.mp hoffset
    obtain ⟨patchLength, hpatchLength⟩ := Option.ne_none_iff_exists'.mp hlength
    obtain ⟨host, buffer, hrun⟩ := hfinish
      (fun host buffer => loadTokens parseUint host srcHash tgtHash tokens (startParams buffer))
      (fun host => finishDiff host image ⟨patchOffset, patchLength⟩)
      (exists_load hsource tgtHash) fun host loaded hcanwrite hdone hlen => by
        refine effect_finishLoaded hcanwrite hdone ?_
        rw [if_neg (not_lt.mpr ((u64_lt _).le.trans hlen))]
        exact effect_perform host _ []
    refine ⟨host, buffer, ?_⟩
    rw [performCommandDiff, hpatchOffset]
    dsimp only
    rw [hpatchLength]
    exact hrun
  cases op with
  | abort => exact h.elim
  | computeHashTree => exact h.elim
  | bsdiff => exact hdiff false h
  | imgdiff => exact hdiff true h
  | erase =>
    refine ⟨boldHost d d hd hd, [], ?_⟩
    refine htarget (fun host tgt => eraseBlocks host tgt (startParams [])) (fun tgt => ?_) h
    exact effect_bind (effect_perform _ _ _) fun _ => grows_pure _
  | new =>
    refine ⟨boldHost d d hd hd, [], ?_⟩
    refine htarget (fun host tgt => newBlocks host tgt (startParams [])) (fun tgt => ?_) h
    exact effect_bind (effect_perform _ _ _) fun _ => grows_pure _
  | zero =>
    refine ⟨boldHost d d hd hd, [], ?_⟩
    refine htarget (fun host tgt => zeroBlocks host tgt (startParams [])) (fun tgt => ?_) h
    have halloc : (boldHost d d hd hd).allocate blockSize [] = .ok (List.replicate blockSize 0) :=
      if_neg (by decide)
    change ((reading ((boldHost d d hd hd).allocate blockSize []) >>= _) []).2 ≠ []
    rw [halloc, reading_ok_bind]
    exact effect_bind (effect_perform _ _ _) fun _ => grows_pure _
  | free =>
    obtain ⟨id, rest, rfl⟩ := List.exists_cons_of_ne_nil h
    refine ⟨boldHost d d hd hd, [], ?_⟩
    change ((freeBlocks (boldHost d d hd hd) id (startParams [])) []).2 ≠ []
    refine effect_bind (x := add [.eraseRanges id]) (List.cons_ne_nil _ _) fun _ => ?_
    split_ifs
    · exact grows_bind (grows_freeStash _) fun _ => grows_pure _
    · exact grows_pure _
  | stash =>
    rcases args with _ | ⟨id, _ | ⟨src, rest⟩⟩
    · exact absurd (show 2 ≤ 0 from h) (by decide)
    · exact absurd (show 2 ≤ 1 from h) (by decide)
    obtain ⟨e, he, hne, -⟩ := exists_digest id id
    refine ⟨boldHost e e he he, [], ?_⟩
    have hload := @bold_loadStash e e he he .target id [] (by simp) hne
    have hfind : ((lifted (findStash (boldHost e e he he) id [])) []).2 ≠ [] := by
      change ((findStash (boldHost e e he he) id []) []).2 ≠ []
      rw [findStash, hload]
      exact List.cons_ne_nil _ _
    refine effect_bind hfind fun result => ?_
    obtain ⟨loaded, buffer⟩ := result
    cases loaded with
    | true => exact grows_pure _
    | false =>
      dsimp only
      rw [if_neg Bool.false_ne_true]
      split
      · exact grows_throw _
      · exact grows_lifted (grows_stashBlocks _ _ _ _)
  | move =>
    obtain ⟨hash, tokens, rfl, hsource⟩ := h
    exact hfinish
      (fun host buffer => loadTokens parseUint host hash hash tokens (startParams buffer))
      (fun host => finishMove host) (exists_load hsource hash)
      fun host loaded hcanwrite hdone hlen => effect_finishLoaded hcanwrite hdone
        (effect_bind (effect_perform host _ []) fun _ => by
          split_ifs
          · exact grows_throw _
          · exact grows_pure _)

/-- What `Parse` accepts and the performers do not check ends for its tokens on some host. -/
theorem exists_token_stop {op : CommandType} {index : ℕ} {line : Text} {args : List Text}
    {info : CommandInfo} (h : Command.parseInfo parseUint op line args = .ok info)
    (hchecks : ¬Command.Checks lib ⟨op, index, line, info⟩) :
    ∃ host buffer effects stop, performer parseUint host lib op args (startParams buffer) [] =
      (.error stop, effects) ∧ (stop = .unparsed ∨ stop = .tokenCheck) := by
  have hdiff : ∀ image, Command.parseDiff parseUint args = .ok info →
      ∃ host buffer effects stop, performCommandDiff parseUint host image args (startParams buffer)
        [] = (.error stop, effects) ∧ (stop = .unparsed ∨ stop = .tokenCheck) := by
    intro image hparse
    obtain ⟨offset, length, srcHash, dstHash, tokens, patch, target, source, rfl, hoffset, hlength,
      hsource, rfl⟩ := parseDiff_eq_ok hparse
    obtain ⟨host, buffer, effects, hrun⟩ := exists_tokenCheck hsource hchecks
    refine ⟨host, buffer, effects, .tokenCheck, ?_, .inr rfl⟩
    rw [performCommandDiff, hoffset]
    dsimp only
    rw [hlength]
    exact bind_error hrun
  cases op with
  | abort =>
    unfold Command.parseInfo at h
    dsimp only at h
    split_ifs at h
    cases h
    exact absurd trivial hchecks
  | bsdiff => exact hdiff false h
  | imgdiff => exact hdiff true h
  | computeHashTree =>
    unfold Command.parseInfo at h
    dsimp only at h
    split at h
    case h_2 => cases h
    case h_1 hashTree source hashAlgorithm saltHex rootHash =>
      split at h
      case h_1 => cases h
      case h_2 hashTreeRanges htree =>
        by_cases hcontiguous : hashTreeRanges.ranges.length ≠ 1
        · rw [if_pos hcontiguous] at h
          cases h
        rw [if_neg hcontiguous] at h
        split at h
        case h_1 => cases h
        case h_2 sourceRanges hsource =>
          by_cases hempty : hashAlgorithm = [] ∨ saltHex = [] ∨ rootHash = []
          · rw [if_pos hempty] at h
            cases h
          rw [if_neg hempty] at h
          cases h
          obtain ⟨-, hrest⟩ := not_or.mp hempty
          have hneither : ¬(lib.hashFunction hashAlgorithm = true ∧
              lib.parseBytes saltHex ≠ none) := hchecks
          obtain ⟨d, hd, -⟩ := exists_digest [] []
          refine ⟨boldHost d d hd hd, [], [], .unparsed, ?_, .inl rfl⟩
          rw [performer, performCommandComputeHashTree, htree]
          dsimp only
          rw [if_neg hcontiguous, hsource]
          dsimp only
          by_cases hknown : lib.hashFunction hashAlgorithm = false
          · rw [if_pos hknown]
            rfl
          · have hbytes : lib.parseBytes saltHex = none := by
              by_contra hsome
              exact hneither ⟨Bool.eq_true_of_not_eq_false hknown, hsome⟩
            rw [if_neg hknown, if_neg (not_or.mp hrest).1, hbytes]
            rfl
  | erase =>
    obtain ⟨_, _, -, -, rfl⟩ := parseTarget_eq_ok h
    exact absurd trivial hchecks
  | new =>
    obtain ⟨_, _, -, -, rfl⟩ := parseTarget_eq_ok h
    exact absurd trivial hchecks
  | zero =>
    obtain ⟨_, _, -, -, rfl⟩ := parseTarget_eq_ok h
    exact absurd trivial hchecks
  | free =>
    unfold Command.parseInfo at h
    dsimp only at h
    split at h
    case h_2 => cases h
    case h_1 =>
      cases h
      exact absurd trivial hchecks
  | stash =>
    unfold Command.parseInfo at h
    dsimp only at h
    split at h
    case h_2 => cases h
    case h_1 =>
      split at h
      case h_1 => cases h
      case h_2 =>
        cases h
        exact absurd trivial hchecks
  | move =>
    unfold Command.parseInfo at h
    dsimp only at h
    split at h
    case h_1 => cases h
    case h_2 hash tokens =>
      split at h
      case h_1 => cases h
      case h_2 target source hparse =>
        cases h
        obtain ⟨host, buffer, effects, hrun⟩ := exists_tokenCheck hparse hchecks
        exact ⟨host, buffer, effects, .tokenCheck, bind_error hrun, .inr rfl⟩

end effects

/-- `Command::Parse` and the performers agree about a line: what is parsed is carried out, without
an end for the tokens, and what is rejected has no effect. -/
def Agrees (parseUint : Text → ℕ → Option ℕ) (lib : HashTreeLib) (abortAllowed : Bool) (line : Text)
    (index : ℕ) : Prop :=
  ∀ host params effects,
    let run := performLine parseUint host lib abortAllowed line params effects
    match Command.parse parseUint abortAllowed line index with
    | .ok command =>
      run = lifted (execute host lib command { params with targetVerified := false }) effects ∧
        run.1 ≠ .error .unparsed ∧ run.1 ≠ .error .tokenCheck
    | .error _ =>
      ∀ op, Command.parseType abortAllowed ((line.splitOn ' ').headD []) = some op →
        op ≠ .abort → op ≠ .computeHashTree → run.2 = effects

/-- A parsed command gives each source block one place, and a hash tree the library's terms; a
rejected line has no arguments that a performer acts on. -/
def AgreesWhen (parseUint : Text → ℕ → Option ℕ) (lib : HashTreeLib) (abortAllowed : Bool)
    (line : Text) (index : ℕ) : Prop :=
  match Command.parse parseUint abortAllowed line index with
  | .ok command => command.Checks lib
  | .error _ =>
    ∀ op, Command.parseType abortAllowed ((line.splitOn ' ').headD []) = some op →
      ¬Effective parseUint op (line.splitOn ' ').tail

theorem performLine_eq {parseUint : Text → ℕ → Option ℕ} {lib : HashTreeLib} {abortAllowed : Bool}
    {line : Text} {host : Host} {params : Params} {op : CommandType}
    (h : Command.parseType abortAllowed ((line.splitOn ' ').headD []) = some op) :
    performLine parseUint host lib abortAllowed line params =
      performer parseUint host lib op (line.splitOn ' ').tail
        { params with targetVerified := false } := by
  unfold performLine
  dsimp only
  rw [h]

theorem agrees_iff (parseUint : Text → ℕ → Option ℕ) (lib : HashTreeLib) (abortAllowed : Bool)
    (line : Text) (index : ℕ) :
    Agrees parseUint lib abortAllowed line index ↔
      AgreesWhen parseUint lib abortAllowed line index := by
  unfold Agrees AgreesWhen
  rcases hparse : Command.parse parseUint abortAllowed line index with err | command
  · dsimp only
    constructor
    · intro hagrees op hop heffective
      obtain ⟨host, buffer, heffect⟩ := @exists_effect parseUint lib op _ heffective
      have hops : op ≠ .abort ∧ op ≠ .computeHashTree := by
        constructor
        · rintro rfl
          exact heffective
        · rintro rfl
          exact heffective
      have hquiet := hagrees host (startParams buffer) [] op hop hops.1 hops.2
      rw [performLine_eq hop] at hquiet
      exact heffect hquiet
    · intro hwhen host params effects op hop habort htree
      rw [performLine_eq hop]
      exact (quiet_performer ⟨habort, htree⟩ (hwhen op hop) effects).1
  · dsimp only
    constructor
    · intro hagrees
      by_contra hchecks
      unfold Command.parse at hparse
      dsimp only at hparse
      split at hparse
      case h_1 => cases hparse
      case h_2 op hop =>
        rcases hinfo : Command.parseInfo parseUint op line (line.splitOn ' ').tail with err | info
        · rw [hinfo] at hparse
          cases hparse
        · rw [hinfo] at hparse
          cases hparse
          obtain ⟨host, buffer, effects, stop, hrun, hstop⟩ := exists_token_stop hinfo hchecks
          obtain ⟨-, hunparsed, hcheck⟩ := hagrees host (startParams buffer) []
          rw [performLine_eq hop] at hunparsed hcheck
          rcases hstop with rfl | rfl
          · exact hunparsed (congrArg Prod.fst hrun)
          · exact hcheck (congrArg Prod.fst hrun)
    · intro hchecks host params effects
      rw [performLine_eq_execute hparse hchecks]
      exact ⟨rfl, lifted_ne nofun, lifted_ne nofun⟩

/-- `ParseUint` for decimal digits -/
def decimalUint (text : Text) (max : ℕ) : Option ℕ :=
  let value := Nat.ofDigitChars 10 text 0
  if text ≠ [] ∧ text.all Char.isDigit = true ∧ value ≤ max then some value else none

/-- `Parse` rejects the word behind the range, and the performer zeroes the block. -/
def trailingLine : Text := "zero 2,0,1 junk".toList

theorem not_agrees : ¬∀ parseUint lib abortAllowed line index,
    Agrees parseUint lib abortAllowed line index := by
  intro hall
  have hsplit : trailingLine.splitOn ' ' = ["zero".toList, "2,0,1".toList, "junk".toList] := by
    decide +kernel
  have hranges : RangeSet.parse decimalUint "2,0,1".toList ≠ none := by
    decide +kernel
  have hagrees := hall decimalUint ⟨fun _ => false, fun _ => none⟩ false trailingLine 0
  have hop : Command.parseType false ((trailingLine.splitOn ' ').headD []) = some .zero := by
    rw [hsplit]
    decide
  have hparse : Command.parse decimalUint false trailingLine 0 =
      .error (some (Command.wrongArgs ["2,0,1".toList, "junk".toList] "1")) := by
    unfold Command.parse
    dsimp only
    rw [hop, hsplit]
    rfl
  unfold Agrees at hagrees
  rw [hparse] at hagrees
  obtain ⟨host, buffer, heffect⟩ := @exists_effect decimalUint ⟨fun _ => false, fun _ => none⟩ .zero
    ["2,0,1".toList, "junk".toList] ⟨_, _, rfl, hranges⟩
  refine heffect ?_
  have hquiet := hagrees host (startParams buffer) [] .zero hop nofun nofun
  rw [performLine_eq hop, hsplit] at hquiet
  exact hquiet

end BootableRecovery.Updater
