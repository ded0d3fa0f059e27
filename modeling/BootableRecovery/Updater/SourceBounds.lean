import BootableRecovery.Updater.CommandAgreement

namespace BootableRecovery.Updater
open Lib Otautil

/-! Whether the source buffer is large enough: it is sized by one token, and filled by the ranges
and by the stashes that the others name. -/

namespace Host
variable (host : Host)

/-- The ranges are found, and all their blocks can be read. -/
def Reads (m : Moment) (rs : List Range) : Prop :=
  ∀ r ∈ rs, host.seeks m r.1 = true ∧ host.readRange m r.1 (r.2 - r.1) ≠ none

/-- What is read of the ranges fits, up to and including the first one that cannot be read; where
`lseek64` fails nothing is read. -/
def ReadsInside (m : Moment) (rs : List Range) (size : ℕ) : Prop :=
  ∀ front r back, rs = front ++ r :: back → host.Reads m front → host.seeks m r.1 = true →
    (expandRanges front).length * blockSize + host.bytesStored m r.1 (r.2 - r.1) ≤ size

/-- A buffer of `old` bytes can be made one of at least `size`. -/
def Allocates (size old : ℕ) : Prop := size ≤ old ∨ host.allocates size = true

/-- The range set that was saved for a stash fits into the buffer that is made for it. -/
def LoadsInside (id : Text) : Prop :=
  ∀ src, host.canwrite = false → host.stashMap id = some src →
    host.Allocates (u64 (src.blocks * blockSize)) 0 →
      host.ReadsInside .source src.ranges (u64 (src.blocks * blockSize))

end Host

/-- The places are in a buffer of `dest` bytes, and the packed data in one of `source` bytes. -/
def PlacesInside (bs : ℕ) (locs : RangeSet) (dest source : ℕ) : Prop :=
  (∀ r ∈ locs.ranges, r.2 * bs ≤ dest) ∧ locs.blocks * bs ≤ source

section conditions
variable (parseUint : Text → ℕ → Option ℕ) (host : Host)

/-- A word that lets the loop over the stashes go on. -/
def WordPasses (word : Text) : Prop :=
  ∃ id location loaded stash deleted, word.splitOn ':' = [id, location] ∧
    host.loadStash .source id false [] = .ok (loaded, stash, deleted) ∧
    (loaded = true → RangeSet.parse parseUint location ≠ none)

/-- The stash has a block for each place, and the places are in the buffer. -/
def WordInside (size : ℕ) (word : Text) : Prop :=
  ∀ id location, word.splitOn ':' = [id, location] → host.LoadsInside id ∧
    ∀ stash deleted locs, host.loadStash .source id false [] = .ok (true, stash, deleted) →
      RangeSet.parse parseUint location = some locs → PlacesInside blockSize locs size stash.length

/-- So it is for each word that the loop comes to. -/
def WordsInside (size : ℕ) (words : List Text) : Prop :=
  ∀ front word back, words = front ++ word :: back →
    (∀ w ∈ front, WordPasses parseUint host w) → WordInside parseUint host size word

/-- What the tokens behind the source ranges ask for. -/
def LocationInside (size : ℕ) (words : List Text) : Prop :=
  ∀ location rest locs, words = location :: rest → RangeSet.parse parseUint location = some locs →
    PlacesInside blockSize locs size size ∧ WordsInside parseUint host size rest

/-- The buffer, of `old` bytes before, is large enough for all that the tokens ask for. -/
def SourceInside (token src : Text) (words : List Text) (old : ℕ) : Prop :=
  ∀ srcBlocks, parseUint token Command.sizeT = some srcBlocks →
    host.Allocates (u64 (srcBlocks * blockSize)) old →
      (src = ['-'] →
        WordsInside parseUint host (max old (u64 (srcBlocks * blockSize))) words) ∧
      ∀ ranges, src ≠ ['-'] → RangeSet.parse parseUint src = some ranges →
        host.ReadsInside .source ranges.ranges (max old (u64 (srcBlocks * blockSize))) ∧
        (host.Reads .source ranges.ranges →
          LocationInside parseUint host (max old (u64 (srcBlocks * blockSize))) words)

end conditions

section steps
variable (host : Host) (m : Moment)

theorem readsInside_cons {host : Host} {m : Moment} {r : Range} {rs : List Range} {p size : ℕ} :
    (∀ front s back, r :: rs = front ++ s :: back → host.Reads m front →
      host.seeks m s.1 = true → p + ((expandRanges front).length * blockSize +
        host.bytesStored m s.1 (s.2 - s.1)) ≤ size) ↔
    (host.seeks m r.1 = true → p + host.bytesStored m r.1 (r.2 - r.1) ≤ size) ∧
    (host.seeks m r.1 = true → host.readRange m r.1 (r.2 - r.1) ≠ none →
      ∀ front s back, rs = front ++ s :: back → host.Reads m front → host.seeks m s.1 = true →
        p + (r.2 - r.1) * blockSize + ((expandRanges front).length * blockSize +
          host.bytesStored m s.1 (s.2 - s.1)) ≤ size) := by
  constructor
  · intro h
    refine ⟨fun hseek => ?_, fun hseek hread front s back heq hfront hs => ?_⟩
    · have hfirst := h [] r rs rfl (fun t ht => absurd ht List.not_mem_nil) hseek
      rwa [expandRanges_nil, List.length_nil, Nat.zero_mul, Nat.zero_add] at hfirst
    · have hreads : host.Reads m (r :: front) := by
        intro t ht
        rcases List.mem_cons.mp ht with rfl | ht
        · exact ⟨hseek, hread⟩
        · exact hfront t ht
      have hnext := h (r :: front) s back (by rw [heq]; rfl) hreads hs
      rw [expandRanges_cons, List.length_append, List.length_range', Nat.add_mul] at hnext
      omega
  · intro h front s back heq hfront hs
    cases front with
    | nil =>
      obtain ⟨rfl, -⟩ := List.cons.inj heq
      rw [expandRanges_nil, List.length_nil, Nat.zero_mul, Nat.zero_add]
      exact h.1 hs
    | cons t front =>
      obtain ⟨rfl, hrest⟩ := List.cons.inj heq
      obtain ⟨hseek, hread⟩ := hfront r List.mem_cons_self
      have hnext := h.2 hseek hread front s back hrest
        (fun u hu => hfront u (List.mem_cons_of_mem _ hu)) hs
      rw [expandRanges_cons, List.length_append, List.length_range', Nat.add_mul]
      omega

/-- `ReadBlocks` stays inside exactly if what it reads fits. -/
theorem readRanges_inside (rs : List Range) (p : ℕ) (buffer : Bytes) :
    (host.readRanges m rs p buffer ≠ .error .outOfBounds ↔
      ∀ front r back, rs = front ++ r :: back → host.Reads m front → host.seeks m r.1 = true →
        p + ((expandRanges front).length * blockSize + host.bytesStored m r.1 (r.2 - r.1)) ≤
          buffer.length) ∧
    ∀ read result, host.readRanges m rs p buffer = .ok (read, result) →
      result.length = buffer.length ∧ (read = true ↔ host.Reads m rs) := by
  induction rs generalizing p buffer with
  | nil =>
    refine ⟨iff_of_true (fun h => by cases h) fun front r back h => by simp at h,
      fun read result h => ?_⟩
    cases h
    exact ⟨rfl, iff_of_true rfl fun r hr => absurd hr List.not_mem_nil⟩
  | cons r rs ih =>
    rw [readsInside_cons]
    unfold Host.readRanges
    cases hseek : host.seeks m r.1 with
    | false =>
      -- nothing is read, and the buffer stays as it is
      rw [if_pos rfl]
      refine ⟨iff_of_true (fun h => by cases h) ⟨fun h => absurd h Bool.false_ne_true,
        fun h => absurd h Bool.false_ne_true⟩, fun read result h => ?_⟩
      cases h
      refine ⟨rfl, iff_of_false Bool.false_ne_true fun h => ?_⟩
      have hfound := (h r List.mem_cons_self).1
      rw [hseek] at hfound
      cases hfound
    | true =>
      rw [if_neg Bool.false_ne_true.symm]
      by_cases hfit : buffer.length < p + host.bytesStored m r.1 (r.2 - r.1)
      · rw [if_pos hfit]
        refine ⟨iff_of_false (not_not.mpr rfl) fun h => absurd (h.1 rfl) (not_le.mpr hfit),
          fun read result h => by cases h⟩
      · rw [if_neg hfit]
        cases hdata : host.readRange m r.1 (r.2 - r.1) with
        | none =>
          refine ⟨iff_of_true (fun h => by cases h)
            ⟨fun _ => not_lt.mp hfit, fun _ h => absurd rfl h⟩, fun read result h => ?_⟩
          cases h
          exact ⟨rfl, iff_of_false Bool.false_ne_true
            fun h => (h r List.mem_cons_self).2 hdata⟩
        | some data =>
          have hstored := bytesStored_eq hdata
          have hlen : (splice buffer p data).length = buffer.length := by
            obtain ⟨hblocks, rfl⟩ := readRange_eq hdata
            apply splice_length
            rw [flatMap_length_uniform fun b hb => content_length (hblocks b hb),
              List.length_range', ← hstored]
            exact not_lt.mp hfit
          obtain ⟨hin, hread⟩ := ih (p + (r.2 - r.1) * blockSize) (splice buffer p data)
          rw [hlen] at hin hread
          refine ⟨?_, fun read result h => ?_⟩
          · rw [hin]
            exact ⟨fun h => ⟨fun _ => not_lt.mp hfit, fun _ _ => h⟩,
              fun h => h.2 rfl (Option.some_ne_none _)⟩
          · obtain ⟨hlen', hiff⟩ := hread read result h
            refine ⟨hlen', hiff.trans ⟨fun h s hs => ?_,
              fun h s hs => h s (List.mem_cons_of_mem _ hs)⟩⟩
            rcases List.mem_cons.mp hs with rfl | hs
            · exact ⟨hseek, by rw [hdata]; exact Option.some_ne_none _⟩
            · exact h s hs

theorem readRanges_error {rs : List Range} {p : ℕ} {buffer : Bytes} {fault : Fault}
    (h : host.readRanges m rs p buffer = .error fault) : fault = .outOfBounds := by
  induction rs generalizing p buffer with
  | nil => cases h
  | cons r rs ih =>
    unfold Host.readRanges at h
    split_ifs at h
    · exact (Except.error.inj h).symm
    · cases hdata : host.readRange m r.1 (r.2 - r.1) with
      | none =>
        rw [hdata] at h
        cases h
      | some data =>
        rw [hdata] at h
        exact ih h

theorem readBlocks_inside (src : RangeSet) (buffer : Bytes) :
    (host.readBlocks m src buffer ≠ .error .outOfBounds ↔
      host.ReadsInside m src.ranges buffer.length) ∧
    ∀ read result, host.readBlocks m src buffer = .ok (read, result) →
      result.length = buffer.length ∧ (read = true ↔ host.Reads m src.ranges) := by
  have hinside := readRanges_inside host m src.ranges 0 buffer
  simp only [Nat.zero_add] at hinside
  exact hinside

theorem allocate_cases (size : ℕ) (buffer : Bytes) :
    (∃ start, host.allocate size buffer = .ok start ∧ start.length = max buffer.length size ∧
      host.Allocates size buffer.length) ∨
    host.allocate size buffer = .error .outOfMemory ∧ ¬host.Allocates size buffer.length := by
  unfold Host.allocate Host.Allocates
  split_ifs with hlen halloc
  · exact Or.inl ⟨buffer, rfl, (max_eq_left hlen).symm, Or.inl hlen⟩
  · refine Or.inl ⟨_, rfl, ?_, Or.inr halloc⟩
    rw [List.length_append, List.length_replicate]
    omega
  · exact Or.inr ⟨rfl, by tauto⟩

theorem except_bind_ne_iff {ε α β : Type} {x : Except ε α} {f : α → Except ε β} {e : ε}
    (h : ∀ a, x = .ok a → f a ≠ .error e) : (x >>= f) ≠ .error e ↔ x ≠ .error e := by
  cases x with
  | error e' => exact ⟨fun hne heq => hne (congrArg Except.error (Except.error.inj heq)),
      fun hne heq => hne (congrArg Except.error (Except.error.inj heq))⟩
  | ok a => exact iff_of_true (h a rfl) fun h => by cases h

theorem printCorruptedStash_ne (buffer : Bytes) (src : Option RangeSet) :
    Host.printCorruptedStash buffer src ≠ .error .outOfBounds := by
  cases src with
  | none => exact fun h => by cases h
  | some src =>
    rw [Host.printCorruptedStash]
    split_ifs
    · intro h
      cases h
    · exact fun h => by cases h

theorem loadSaved_inside (id : Text) (src : RangeSet) :
    host.loadSaved m id src [] ≠ .error .outOfBounds ↔
      (host.Allocates (u64 (src.blocks * blockSize)) 0 →
        host.ReadsInside m src.ranges (u64 (src.blocks * blockSize))) := by
  unfold Host.loadSaved
  rcases allocate_cases host (u64 (src.blocks * blockSize)) [] with
    ⟨start, halloc, hlen, hcan⟩ | ⟨halloc, hcan⟩
  · have hsize : start.length = u64 (src.blocks * blockSize) := hlen.trans (Nat.zero_max _)
    have hcan : host.Allocates (u64 (src.blocks * blockSize)) 0 := hcan
    obtain ⟨hin, hread⟩ := readBlocks_inside host m src start
    rw [halloc, imp_iff_right hcan, ← hsize, ← hin]
    change (host.readBlocks m src start >>= _) ≠ _ ↔ _
    apply except_bind_ne_iff
    intro result hresult
    obtain ⟨read, filled⟩ := result
    obtain ⟨hfilled, -⟩ := hread read filled hresult
    cases read with
    | false => exact fun h => by cases h
    | true =>
      dsimp only
      rw [if_pos rfl, Host.verifyBlocks, if_neg (by rw [hfilled, hsize]; exact lt_irrefl _)]
      refine (except_bind_ne_iff fun verified _ => ?_).mpr fun h => by cases h
      cases verified with
      | true => exact fun h => by cases h
      | false =>
        have hpure : ∀ a : Unit, (pure (false, filled) : Except Fault (Bool × Bytes)) ≠
            .error .outOfBounds := fun _ h => by cases h
        exact (except_bind_ne_iff fun a _ => hpure a).mpr (printCorruptedStash_ne _ _)
  · rw [halloc]
    exact iff_of_true (fun h => by cases h) fun h => absurd h hcan

/-- `LoadStash` stays inside of the buffer that it makes. -/
theorem loadStash_inside (id : Text) :
    host.loadStash .source id false [] ≠ .error .outOfBounds ↔ host.LoadsInside id := by
  cases hsaved : if host.canwrite then none else host.stashMap id with
  | some src =>
    have hmap : host.canwrite = false ∧ host.stashMap id = some src := by
      cases hwrite : host.canwrite with
      | true => simp [hwrite] at hsaved
      | false => exact ⟨rfl, by simpa [hwrite] using hsaved⟩
    have hinside := loadSaved_inside host .source id src
    have hiff : host.LoadsInside id ↔ (host.Allocates (u64 (src.blocks * blockSize)) 0 →
        host.ReadsInside .source src.ranges (u64 (src.blocks * blockSize))) := by
      constructor
      · exact fun h => h src hmap.1 hmap.2
      · intro h src' _ hsrc'
        rw [hmap.2, Option.some_inj] at hsrc'
        rw [← hsrc']
        exact h
    rw [Host.loadStash, hsaved, hiff, ← hinside]
    dsimp only
    cases host.loadSaved .source id src [] with
    | error fault =>
      exact not_congr (Except.error.injEq fault _ ▸ Except.error.injEq fault _ ▸ Iff.rfl)
    | ok result => exact iff_of_true (fun h => by cases h) fun h => by cases h
  | none =>
    have hvacuous : host.LoadsInside id := by
      intro src hwrite hsrc
      rw [hwrite, hsrc] at hsaved
      cases hsaved
    refine iff_of_true ?_ hvacuous
    rw [Host.loadStash, hsaved]
    dsimp only
    cases host.stashFile .source id with
    | missing => exact fun h => by cases h
    | unusable => exact fun h => by cases h
    | file data readable =>
      refine (except_bind_ne_iff fun start _ => ?_).mpr ?_
      · cases readable with
        | true => exact fun h => by cases h
        | false => exact fun h => by cases h
      · rcases allocate_cases host data.length [] with ⟨start, halloc, -⟩ | ⟨halloc, -⟩
        · rw [halloc]
          exact fun h => by cases h
        · rw [halloc]
          exact fun h => by cases h

theorem foldr_moveStep_none (source : Option Bytes) (bs : ℕ) (rs : List Range) :
    rs.foldr (moveStep source bs) none = none := by
  induction rs with
  | nil => rfl
  | cons r rs ih => rw [List.foldr_cons, ih, moveStep]

/-- `MoveRange` stays inside exactly if the places and the packed data are in their buffers. -/
theorem moveRange_inside_iff (bs : ℕ) (source : Option Bytes) (dest : Bytes) (locs : RangeSet) :
    moveRange dest locs source bs ≠ none ↔
      PlacesInside bs locs dest.length (source.getD dest).length := by
  have hend : ∀ r ∈ locs.ranges, r.1 * bs + (r.2 - r.1) * bs = r.2 * bs := by
    intro r hr
    have := locs.proper r hr
    rw [← Nat.add_mul, Nat.add_sub_cancel' (by omega)]
  constructor
  · intro h
    obtain ⟨result, hresult⟩ := Option.ne_none_iff_exists'.mp h
    obtain ⟨⟨moved, start⟩, hfold, -⟩ := Option.map_eq_some_iff.mp hresult
    refine ⟨fun r hr => ?_, ?_⟩
    · rw [← hend r hr]
      exact (foldr_moveStep_length hfold).2 r hr
    · -- the last range is moved first, and its data end where the packed data end
      rcases List.eq_nil_or_concat' locs.ranges with hnil | ⟨front, last, hlast⟩
      · rw [RangeSet.blocks, RangeSet.expand, hnil, expandRanges_nil, List.length_nil, Nat.zero_mul]
        exact Nat.zero_le _
      · have hblocks : locs.blocks = (expandRanges front).length + (last.2 - last.1) := by
          simp [RangeSet.blocks, RangeSet.expand, hlast, expandRanges_append, expandRanges_cons,
            expandRanges_nil]
        rw [hlast, List.foldr_append, List.foldr_cons, List.foldr_nil] at hfold
        have hmove : memmove dest source (last.1 * bs)
            ((expandRanges front).length * bs) ((last.2 - last.1) * bs) ≠ none := by
          intro hnone
          have hstep : moveStep source bs last (some (dest, locs.blocks)) = none := by
            rw [moveStep, hblocks, Nat.add_sub_cancel, hnone]
            rfl
          rw [hstep, foldr_moveStep_none] at hfold
          cases hfold
        rw [memmove] at hmove
        have hfit : (expandRanges front).length * bs + (last.2 - last.1) * bs ≤
            (source.getD dest).length := by
          by_contra hout
          exact hmove (if_neg fun h => hout h.1)
        rw [hblocks, Nat.add_mul]
        exact hfit
  · intro h
    have hfit : ∀ p ∈ pieces bs locs.ranges, p.1 + p.2 ≤ dest.length := by
      intro p hp
      obtain ⟨r, hr, rfl⟩ := List.mem_map.mp hp
      exact (hend r hr).trans_le (h.1 r hr)
    have hfold := foldr_moveStep hfit 0 ((congrArg (· * bs) (Nat.zero_add _)).trans_le h.2)
    rw [Nat.zero_add] at hfold
    rw [moveRange, RangeSet.blocks, RangeSet.expand, hfold]
    exact Option.some_ne_none _

end steps

section words
variable (parseUint : Text → ℕ → Option ℕ) (host : Host)

theorem wordsInside_nil (size : ℕ) : WordsInside parseUint host size [] := by
  intro front word back h
  simp at h

theorem wordsInside_cons {size : ℕ} {word : Text} {words : List Text} :
    WordsInside parseUint host size (word :: words) ↔ WordInside parseUint host size word ∧
      (WordPasses parseUint host word → WordsInside parseUint host size words) := by
  constructor
  · intro h
    refine ⟨h [] word words rfl (by simp), fun hpass front w back heq hfront => ?_⟩
    refine h (word :: front) w back (by rw [heq]; rfl) fun u hu => ?_
    rcases List.mem_cons.mp hu with rfl | hu
    · exact hpass
    · exact hfront u hu
  · intro h front w back heq hfront
    cases front with
    | nil =>
      obtain ⟨rfl, -⟩ := List.cons.inj heq
      exact h.1
    | cons u front =>
      obtain ⟨rfl, hrest⟩ := List.cons.inj heq
      exact h.2 (hfront word List.mem_cons_self) front w back hrest
        fun v hv => hfront v (List.mem_cons_of_mem _ hv)

section word
variable {parseUint host} {word id location : Text}

theorem wordInside_iff (hsplit : word.splitOn ':' = [id, location]) {size : ℕ} :
    WordInside parseUint host size word ↔ host.LoadsInside id ∧
      ∀ stash deleted locs, host.loadStash .source id false [] = .ok (true, stash, deleted) →
        RangeSet.parse parseUint location = some locs →
          PlacesInside blockSize locs size stash.length := by
  constructor
  · exact fun h => h id location hsplit
  · intro h id' location' hsplit'
    rw [hsplit] at hsplit'
    simp only [List.cons.injEq, and_true] at hsplit'
    rw [← hsplit'.1, ← hsplit'.2]
    exact h

theorem wordPasses_iff (hsplit : word.splitOn ':' = [id, location]) :
    WordPasses parseUint host word ↔ ∃ loaded stash deleted,
      host.loadStash .source id false [] = .ok (loaded, stash, deleted) ∧
        (loaded = true → RangeSet.parse parseUint location ≠ none) := by
  constructor
  · intro h
    obtain ⟨id', location', loaded, stash, deleted, hsplit', hload, hparse⟩ := h
    rw [hsplit] at hsplit'
    simp only [List.cons.injEq, and_true] at hsplit'
    rw [hsplit'.1, hsplit'.2]
    exact ⟨loaded, stash, deleted, hload, hparse⟩
  · intro h
    obtain ⟨loaded, stash, deleted, hload, hparse⟩ := h
    exact ⟨id, location, loaded, stash, deleted, hsplit, hload, hparse⟩

end word

/-- What the buffer must have room for, word by word. -/
theorem loadStashes_inside (words : List Text) (buffer : Bytes) :
    loadStashes parseUint host words buffer ≠ .error (.fault .outOfBounds) ↔
      WordsInside parseUint host buffer.length words := by
  induction words generalizing buffer with
  | nil => exact iff_of_true (fun h => by cases h) (wordsInside_nil parseUint host _)
  | cons word words ih =>
    rw [wordsInside_cons]
    by_cases hsplit : ∃ id location, word.splitOn ':' = [id, location]
    · obtain ⟨id, location, hsplit⟩ := hsplit
      have hload := loadStash_inside host id
      rw [loadStashes, hsplit, wordInside_iff hsplit, wordPasses_iff hsplit]
      dsimp only
      rcases hresult : host.loadStash .source id false [] with fault | ⟨loaded, stash, deleted⟩
      · rw [hresult] at hload
        rw [← hload]
        simp
      have hloads : host.LoadsInside id := hload.mp (by rw [hresult]; exact fun h => by cases h)
      cases loaded with
      | false =>
        -- the stash is left out
        dsimp only
        rw [ih buffer]
        simp [hloads]
      | true =>
        dsimp only
        cases hlocs : RangeSet.parse parseUint location with
        | none => simp [hloads]
        | some locs =>
          dsimp only
          have hmoves := moveRange_inside_iff blockSize (some stash) buffer locs
          cases hmove : moveRange buffer locs (some stash) blockSize with
          | none =>
            have hout : ¬PlacesInside blockSize locs buffer.length stash.length := by
              intro hin
              exact hmoves.mpr hin hmove
            simp [hout]
          | some moved =>
            have hin : PlacesInside blockSize locs buffer.length stash.length :=
              hmoves.mp (by rw [hmove]; exact Option.some_ne_none _)
            dsimp only
            rw [ih moved, (moveRange_inside hmove).1]
            simp [hloads, hin]
    · have hunparsed : loadStashes parseUint host (word :: words) buffer = .error .unparsed := by
        rw [loadStashes]
        split
        case h_1 id location heq => exact absurd ⟨id, location, heq⟩ hsplit
        case h_2 => rfl
      rw [hunparsed]
      refine iff_of_true (fun h => by cases h)
        ⟨fun id location heq => absurd ⟨id, location, heq⟩ hsplit, ?_⟩
      rintro ⟨id, location, -, -, -, heq, -⟩
      exact absurd ⟨id, location, heq⟩ hsplit

end words
section source
variable (parseUint : Text → ℕ → Option ℕ) (host : Host)

theorem map_ne_iff {ε α β : Type} (x : Except ε α) (f : α → β) (e : ε) :
    x.map f ≠ .error e ↔ x ≠ .error e := by
  cases x with
  | error e' => simp [Except.map]
  | ok a => simp [Except.map]

theorem locationInside_nil (size : ℕ) : LocationInside parseUint host size [] := by
  intro location rest locs h
  simp at h

theorem locationInside_cons {location : Text} {rest : List Text} {size : ℕ} :
    LocationInside parseUint host size (location :: rest) ↔
      ∀ locs, RangeSet.parse parseUint location = some locs →
        PlacesInside blockSize locs size size ∧ WordsInside parseUint host size rest := by
  constructor
  · exact fun h locs => h location rest locs rfl
  · intro h location' rest' locs heq
    obtain ⟨rfl, rfl⟩ := List.cons.inj heq
    exact h locs

/-- The condition for the number of blocks that the token is parsed to. -/
theorem sourceInside_iff {token src : Text} {words : List Text} {srcBlocks old : ℕ}
    (htoken : parseUint token Command.sizeT = some srcBlocks) :
    SourceInside parseUint host token src words old ↔
      (host.Allocates (u64 (srcBlocks * blockSize)) old →
        (src = ['-'] →
          WordsInside parseUint host (max old (u64 (srcBlocks * blockSize))) words) ∧
        ∀ ranges, src ≠ ['-'] → RangeSet.parse parseUint src = some ranges →
          host.ReadsInside .source ranges.ranges (max old (u64 (srcBlocks * blockSize))) ∧
          (host.Reads .source ranges.ranges →
            LocationInside parseUint host (max old (u64 (srcBlocks * blockSize))) words)) := by
  constructor
  · exact fun h => h srcBlocks htoken
  · intro h srcBlocks' htoken'
    rw [htoken, Option.some_inj] at htoken'
    rw [← htoken']
    exact h

/-- Moving the blocks read to their places, and then the stashes to theirs. -/
theorem located_inside {α : Type} (filled : Bytes) (locs : RangeSet) (words : List Text)
    (f : Bytes → α) :
    (match moveRange filled locs none blockSize with
      | none => .error (.fault .outOfBounds)
      | some buffer => (loadStashes parseUint host words buffer).map f : Except Stop α) ≠
        .error (.fault .outOfBounds) ↔
      PlacesInside blockSize locs filled.length filled.length ∧
        WordsInside parseUint host filled.length words := by
  have hmoves := moveRange_inside_iff blockSize none filled locs
  rw [Option.getD_none] at hmoves
  cases hmove : moveRange filled locs none blockSize with
  | none =>
    have hout : ¬PlacesInside blockSize locs filled.length filled.length := by
      intro hin
      exact hmoves.mpr hin hmove
    simp [hout]
  | some moved =>
    have hin : PlacesInside blockSize locs filled.length filled.length :=
      hmoves.mp (by rw [hmove]; exact Option.some_ne_none _)
    dsimp only
    rw [map_ne_iff, loadStashes_inside, (moveRange_inside hmove).1]
    simp [hin]

/-- `LoadSourceBlocks` leaves none of its buffers exactly if the buffer is large enough for the
source ranges, for the places behind them, and for each stash, which must itself be as large as its
places; what the command does not come to does not count. -/
theorem loadSourceBlocks_inside_iff (token src : Text) (words : List Text) (tgt : RangeSet)
    (buffer : Bytes) :
    loadSourceBlocks parseUint host token src words tgt buffer ≠ .error (.fault .outOfBounds) ↔
      SourceInside parseUint host token src words buffer.length := by
  unfold loadSourceBlocks
  cases htoken : parseUint token Command.sizeT with
  | none =>
    refine iff_of_true (fun h => by cases h) fun srcBlocks h => ?_
    rw [htoken] at h
    cases h
  | some srcBlocks =>
    rw [sourceInside_iff parseUint host htoken]
    dsimp only
    rcases allocate_cases host (u64 (srcBlocks * blockSize)) buffer with
      ⟨start, halloc, hlen, hcan⟩ | ⟨halloc, hcan⟩
    · rw [halloc, imp_iff_right hcan, ← hlen]
      dsimp only
      by_cases hdash : src = ['-']
      · rw [if_pos hdash, map_ne_iff, loadStashes_inside]
        simp [hdash]
      rw [if_neg hdash]
      cases hranges : RangeSet.parse parseUint src with
      | none => simp [hdash]
      | some ranges =>
        obtain ⟨hin, hread⟩ := readBlocks_inside host .source ranges start
        dsimp only
        rcases hresult : host.readBlocks .source ranges start with fault | ⟨read, filled⟩
        · obtain rfl := readRanges_error host .source hresult
          rw [hresult] at hin
          simp [hdash, ← hin]
        obtain ⟨hfilled, hreads⟩ := hread read filled hresult
        have hfits : host.ReadsInside .source ranges.ranges start.length :=
          hin.mp (by rw [hresult]; exact fun h => by cases h)
        cases read with
        | false =>
          have hstops : ¬host.Reads .source ranges.ranges := fun h => by simpa using hreads.mpr h
          simp [hdash, hfits, hstops]
        | true =>
          have hall : host.Reads .source ranges.ranges := hreads.mp rfl
          cases words with
          | nil => simp [hdash, hfits, locationInside_nil]
          | cons location rest =>
            rw [locationInside_cons]
            dsimp only
            cases hlocs : RangeSet.parse parseUint location with
            | none => simp [hdash, hfits]
            | some locs =>
              dsimp only
              refine (located_inside parseUint host filled locs rest _).trans ?_
              rw [hfilled]
              simp [hdash, hfits, hall]
    · rw [halloc]
      exact iff_of_true (fun h => by cases h) fun h => absurd h hcan

end source

def SourceAlwaysInside : Prop :=
  ∀ (parseUint : Text → ℕ → Option ℕ) (host : Host) (token src : Text) (words : List Text)
    (tgt : RangeSet) (buffer : Bytes),
      loadSourceBlocks parseUint host token src words tgt buffer ≠ .error (.fault .outOfBounds)

/-- One block is announced, and two are read. -/
theorem not_sourceAlwaysInside : ¬SourceAlwaysInside ∧
    loadSourceBlocks decimalUint numberedHost ['1'] "2,0,2".toList [] .empty [] =
      .error (.fault .outOfBounds) := by
  have hparse : (RangeSet.parse decimalUint "2,0,2".toList).map RangeSet.ranges =
      some [(0, 2)] := by
    decide +kernel
  obtain ⟨src, hsrc, hranges⟩ := Option.map_eq_some_iff.mp hparse
  have htoken : decimalUint ['1'] Command.sizeT = some 1 := by decide +kernel
  have halloc : numberedHost.allocate (u64 (1 * blockSize)) [] =
      .ok (List.replicate blockSize 0) := if_neg (by decide)
  have hread : numberedHost.readBlocks .source src (List.replicate blockSize 0) =
      .error .outOfBounds := by
    have hseek : ¬numberedHost.seeks .source 0 = false := Bool.false_ne_true.symm
    have htwo : numberedHost.readRange .source 0 (2 - 0) =
        some (numberedHost.content .source 0 ++ (numberedHost.content .source 1 ++ [])) := rfl
    rw [Host.readBlocks, hranges, Host.readRanges, if_neg hseek, bytesStored_eq htwo,
      List.length_replicate, if_pos (by decide)]
  have hout : loadSourceBlocks decimalUint numberedHost ['1'] "2,0,2".toList [] .empty [] =
      .error (.fault .outOfBounds) := by
    rw [loadSourceBlocks, htoken]
    dsimp only
    rw [halloc]
    dsimp only
    rw [if_neg (by decide), hsrc]
    dsimp only
    rw [hread]
  exact ⟨fun h => h decimalUint numberedHost ['1'] "2,0,2".toList [] .empty [] hout, hout⟩

end BootableRecovery.Updater
