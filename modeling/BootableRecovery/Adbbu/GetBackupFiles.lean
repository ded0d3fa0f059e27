import BootableRecovery.Adbbu.RestoreRun

namespace BootableRecovery.Adbbu

/-! `Get_ADB_Backup_Files`, which looks for the headers in a saved adb stream. -/

inductive ListOutcome
  | returned (adbPartitions : List Bytes)
  | overrun -- `twfilehdr.name` holds no NUL
  deriving DecidableEq, Repr

/-- Between two calls of `read`; `left` is the file from the offset of `fd` on. -/
structure Listing where
  buf : Bytes
  left : Bytes
  adbPartitions : List Bytes
  outcome : Option ListOutcome
  deriving DecidableEq, Repr

/-- The bytes of a C string. -/
def cString (bs : Bytes) : Bytes := bs.takeWhile fun b => b != 0

/-- `cmdstr` runs on behind the field; `substr` keeps 15 bytes of it. -/
def cmdType (block : Bytes) : Bytes := (cString (block.drop 8)).take 15

/-- The part of a path behind the last slash. -/
def fileName (path : Bytes) : Bytes := (path.reverse.takeWhile fun b => b != 47).reverse

namespace Listing

variable (sums : Checksums) (s : Listing)

/-- What the loop does with a block. -/
def onBlock (block : Bytes) : Listing :=
  let cmdtype := cmdType block
  if cmdtype = TWENDADB then
    if crcMatches sums 24 block then { s with outcome := some (.returned s.adbPartitions) }
    else { s with outcome := some (.returned []) }
  else if cmdtype = TWIMG ∨ cmdtype = TWFN then
    if crcMatches sums 40 block then
      let name := block.drop 44
      if name.contains 0 then
        { s with adbPartitions := s.adbPartitions ++ [fileName (cString name)] }
      else { s with outcome := some .overrun }
    else { s with outcome := some (.returned []) }
  else s

/-- One pass of the loop. At the end of the file `read` returns 0, and the loop goes on. -/
def step : Listing :=
  if s.outcome ≠ none then s
  else if s.left = [] then s
  else
    let bytes := s.left.take maxAdbRead
    let buf := bytes ++ s.buf.drop bytes.length -- a short read leaves the end of the last block
    { s with buf := buf, left := s.left.drop maxAdbRead }.onBlock sums buf

def run (n : ℕ) : Listing := (step sums)^[n] s

/-- `fd` is open, and `buf` holds anything. -/
def start (buf content : Bytes) : Listing :=
  { buf := buf, left := content, adbPartitions := [], outcome := none }

end Listing

/-- `Get_ADB_Backup_Files` returns these names for a file. -/
def Returns (sums : Checksums) (buf content : Bytes) (names : List Bytes) : Prop :=
  ∃ n, ((Listing.start buf content).run sums n).outcome = some (.returned names)

/-- The blocks that the passes see. -/
def readBlocks (buf content : Bytes) : List Bytes :=
  if _h : content = [] then []
  else
    let block := content.take maxAdbRead ++ buf.drop (content.take maxAdbRead).length
    block :: readBlocks block (content.drop maxAdbRead)
termination_by content.length
decreasing_by
  rw [List.length_drop]
  exact Nat.sub_lt (List.length_pos_iff.mpr _h) (by decide)

/-- What the type of a block makes of it. -/
def isEnd (block : Bytes) : Bool := cmdType block = TWENDADB

def isFile (block : Bytes) : Bool := cmdType block = TWIMG ∨ cmdType block = TWFN

def recognised (block : Bytes) : Bool := isEnd block || isFile block

theorem isFile_of_isEnd {block : Bytes} (h : isEnd block = true) : isFile block = false := by
  rw [isEnd, decide_eq_true_eq] at h
  rw [isFile, h]
  decide

section blocks
variable (sums : Checksums)

/-- A block with the type of a header, but without its crc. -/
def unsealed (block : Bytes) : Bool :=
  if isEnd block then !crcMatches sums 24 block else isFile block && !crcMatches sums 40 block

/-- A block that `Get_ADB_Backup_Files` takes the name of a file from. -/
def Lists (block : Bytes) : Prop :=
  isFile block = true ∧ crcMatches sums 40 block = true ∧ 0 ∈ block.drop 44

/-- A header whose name runs out of the structure. -/
def Overruns (block : Bytes) : Prop :=
  isFile block = true ∧ crcMatches sums 40 block = true ∧ 0 ∉ block.drop 44

/-- A block that ends the loop. -/
def Stops (block : Bytes) : Prop := isEnd block = true ∨ unsealed sums block = true

def listedName (block : Bytes) : Bytes := fileName (cString (block.drop 44))

/-- The outcome of the passes over some blocks. -/
def scan : List Bytes → List Bytes → Option ListOutcome
  | _, [] => none
  | names, block :: blocks =>
    let s := Listing.onBlock sums ⟨[], [], names, none⟩ block
    match s.outcome with
    | some outcome => some outcome
    | none => scan s.adbPartitions blocks

end blocks

section cases
variable (sums : Checksums) (s : Listing) (block : Bytes)

/-- Everything that a block can do. -/
theorem Listing.onBlock_cases :
    recognised block = false ∧ s.onBlock sums block = s ∨
    Lists sums block ∧ s.onBlock sums block =
      { s with adbPartitions := s.adbPartitions ++ [listedName block] } ∨
    Overruns sums block ∧ s.onBlock sums block = { s with outcome := some .overrun } ∨
    (isEnd block = true ∧ crcMatches sums 24 block = true) ∧
      s.onBlock sums block = { s with outcome := some (.returned s.adbPartitions) } ∨
    unsealed sums block = true ∧
      s.onBlock sums block = { s with outcome := some (.returned []) } := by
  rw [Listing.onBlock]
  by_cases hend : cmdType block = TWENDADB
  · have hisEnd : isEnd block = true := decide_eq_true hend
    rw [if_pos hend]
    by_cases hcrc : crcMatches sums 24 block = true
    · rw [if_pos hcrc]
      exact .inr (.inr (.inr (.inl ⟨⟨hisEnd, hcrc⟩, rfl⟩)))
    · rw [if_neg hcrc]
      refine .inr (.inr (.inr (.inr ⟨?_, rfl⟩)))
      rw [unsealed, if_pos hisEnd, Bool.eq_false_iff.mpr hcrc]
      rfl
  have hisEnd : isEnd block = false := decide_eq_false hend
  dsimp only
  rw [if_neg hend]
  by_cases hfile : cmdType block = TWIMG ∨ cmdType block = TWFN
  · have hisFile : isFile block = true := decide_eq_true hfile
    rw [if_pos hfile]
    by_cases hcrc : crcMatches sums 40 block = true
    · rw [if_pos hcrc]
      by_cases hname : (block.drop 44).contains 0 = true
      · rw [if_pos hname]
        exact .inr (.inl ⟨⟨hisFile, hcrc, List.contains_iff_mem.mp hname⟩, rfl⟩)
      · rw [if_neg hname]
        exact .inr (.inr (.inl
          ⟨⟨hisFile, hcrc, fun h => hname (List.contains_iff_mem.mpr h)⟩, rfl⟩))
    · rw [if_neg hcrc]
      refine .inr (.inr (.inr (.inr ⟨?_, rfl⟩)))
      rw [unsealed, hisEnd, hisFile, Bool.eq_false_iff.mpr hcrc]
      rfl
  · have hisFile : isFile block = false := decide_eq_false hfile
    rw [if_neg hfile]
    refine .inl ⟨?_, rfl⟩
    rw [recognised, hisEnd, hisFile]
    rfl

theorem isEnd_of_isFile {block : Bytes} (h : isFile block = true) : isEnd block = false := by
  rw [Bool.eq_false_iff]
  intro hend
  rw [isFile_of_isEnd hend] at h
  cases h

theorem unsealed_of_file {sums : Checksums} {block : Bytes} (hfile : isFile block = true)
    (hcrc : crcMatches sums 40 block = true) : unsealed sums block = false := by
  rw [unsealed, isEnd_of_isFile hfile, hcrc, Bool.not_true, Bool.and_false]
  rfl

theorem unsealed_of_end {sums : Checksums} {block : Bytes} (hend : isEnd block = true)
    (hcrc : crcMatches sums 24 block = true) : unsealed sums block = false := by
  rw [unsealed, if_pos hend, hcrc]
  rfl

theorem recognised_of_unsealed {sums : Checksums} {block : Bytes}
    (h : unsealed sums block = true) : recognised block = true := by
  rw [unsealed] at h
  rw [recognised]
  split_ifs at h with hend
  · rw [hend, Bool.true_or]
  · rw [(Bool.and_eq_true_iff.mp h).1, Bool.or_true]

end cases

section scan
variable {sums : Checksums} {names r : List Bytes} {block : Bytes} {blocks : List Bytes}

theorem scan_skip (h : recognised block = false) :
    scan sums names (block :: blocks) = scan sums names blocks := by
  rw [scan]
  rcases Listing.onBlock_cases sums ⟨[], [], names, none⟩ block with
    ⟨-, heq⟩ | ⟨hlists, -⟩ | ⟨hover, -⟩ | ⟨⟨hend, -⟩, -⟩ | ⟨hbad, -⟩
  · rw [heq]
  · rw [recognised, hlists.1, Bool.or_true] at h
    cases h
  · rw [recognised, hover.1, Bool.or_true] at h
    cases h
  · rw [recognised, hend, Bool.true_or] at h
    cases h
  · rw [recognised_of_unsealed hbad] at h
    cases h

/-- What the passes return, by the first block that they do not take a name from. -/
theorem scan_returned_iff : scan sums names blocks = some (.returned r) ↔
    ∃ before block after, blocks.filter recognised = before ++ block :: after ∧
      (∀ b ∈ before, Lists sums b) ∧
      ((isEnd block = true ∧ crcMatches sums 24 block = true) ∧
          r = names ++ before.map listedName ∨
        unsealed sums block = true ∧ r = []) := by
  induction blocks generalizing names with
  | nil =>
    constructor
    · intro h
      cases h
    · rintro ⟨before, block, after, hsplit, -⟩
      exact absurd hsplit.symm (List.append_ne_nil_of_right_ne_nil before (List.cons_ne_nil _ _))
  | cons block blocks ih =>
    by_cases hknown : recognised block = true
    · rw [List.filter_cons_of_pos hknown, scan]
      rcases Listing.onBlock_cases sums ⟨[], [], names, none⟩ block with
        ⟨hskip, -⟩ | ⟨hlists, heq⟩ | ⟨hover, heq⟩ | ⟨hend, heq⟩ | ⟨hbad, heq⟩
      · rw [hskip] at hknown
        cases hknown
      · rw [heq]
        refine ih.trans ⟨?_, ?_⟩
        · rintro ⟨before, b, after, hsplit, hbefore, hr⟩
          refine ⟨block :: before, b, after, by rw [hsplit, List.cons_append],
            List.forall_mem_cons.mpr ⟨hlists, hbefore⟩, ?_⟩
          rwa [List.append_assoc] at hr
        · rintro ⟨before, b, after, hsplit, hbefore, hr⟩
          cases before with
          | nil =>
            obtain ⟨rfl, -⟩ := List.cons.inj hsplit
            rcases hr with ⟨⟨hend, -⟩, -⟩ | ⟨hbad, -⟩
            · rw [isEnd_of_isFile hlists.1] at hend
              cases hend
            · rw [unsealed_of_file hlists.1 hlists.2.1] at hbad
              cases hbad
          | cons first before =>
            obtain ⟨rfl, htail⟩ := List.cons.inj hsplit
            refine ⟨before, b, after, htail, fun c hc => hbefore c (List.mem_cons_of_mem _ hc), ?_⟩
            rwa [List.map_cons, ← List.singleton_append, ← List.append_assoc] at hr
      · rw [heq]
        refine ⟨(fun h => by cases h), ?_⟩
        rintro ⟨before, b, after, hsplit, hbefore, hr⟩
        cases before with
        | nil =>
          obtain ⟨rfl, -⟩ := List.cons.inj hsplit
          rcases hr with ⟨⟨hend, -⟩, -⟩ | ⟨hbad, -⟩
          · rw [isEnd_of_isFile hover.1] at hend
            cases hend
          · rw [unsealed_of_file hover.1 hover.2.1] at hbad
            cases hbad
        | cons first before =>
          obtain ⟨rfl, -⟩ := List.cons.inj hsplit
          exact absurd (hbefore _ List.mem_cons_self).2.2 hover.2.2
      · rw [heq]
        constructor
        · intro h
          cases h
          exact ⟨[], block, _, rfl, fun _ hb => absurd hb List.not_mem_nil,
            .inl ⟨hend, (List.append_nil _).symm⟩⟩
        · rintro ⟨before, b, after, hsplit, hbefore, hr⟩
          cases before with
          | nil =>
            obtain ⟨rfl, -⟩ := List.cons.inj hsplit
            rcases hr with ⟨-, rfl⟩ | ⟨hbad, -⟩
            · rw [List.map_nil, List.append_nil]
            · rw [unsealed_of_end hend.1 hend.2] at hbad
              cases hbad
          | cons first before =>
            obtain ⟨rfl, -⟩ := List.cons.inj hsplit
            have hfile := (hbefore _ List.mem_cons_self).1
            rw [isFile_of_isEnd hend.1] at hfile
            cases hfile
      · rw [heq]
        constructor
        · intro h
          cases h
          exact ⟨[], block, _, rfl, fun _ hb => absurd hb List.not_mem_nil, .inr ⟨hbad, rfl⟩⟩
        · rintro ⟨before, b, after, hsplit, hbefore, hr⟩
          cases before with
          | nil =>
            obtain ⟨rfl, -⟩ := List.cons.inj hsplit
            rcases hr with ⟨hend, -⟩ | ⟨-, rfl⟩
            · rw [unsealed_of_end hend.1 hend.2] at hbad
              cases hbad
            · rfl
          | cons first before =>
            obtain ⟨rfl, -⟩ := List.cons.inj hsplit
            have hlists := hbefore _ List.mem_cons_self
            rw [unsealed_of_file hlists.1 hlists.2.1] at hbad
            cases hbad
    · rw [List.filter_cons_of_neg hknown, scan_skip (Bool.eq_false_iff.mpr hknown)]
      exact ih

end scan

section passes
variable {sums : Checksums} {s : Listing} {buf content : Bytes} {blocks : List Bytes}
  {outcome : ListOutcome}

theorem Listing.run_outcome (h : s.outcome ≠ none) (n : ℕ) : s.run sums n = s :=
  Function.iterate_fixed (by rw [Listing.step, if_pos h]) n

theorem Listing.run_end (h : s.left = []) (n : ℕ) : s.run sums n = s := by
  refine Function.iterate_fixed ?_ n
  rw [Listing.step]
  split_ifs <;> rfl

/-- The block of a pass changes nothing but the names and the outcome. -/
theorem Listing.onBlock_frame (sums : Checksums) (s : Listing) (block : Bytes) :
    s.onBlock sums block = { s with
      adbPartitions :=
        (Listing.onBlock sums ⟨[], [], s.adbPartitions, s.outcome⟩ block).adbPartitions
      outcome := (Listing.onBlock sums ⟨[], [], s.adbPartitions, s.outcome⟩ block).outcome } := by
  unfold Listing.onBlock
  dsimp only
  split_ifs <;> rfl

theorem Listing.run_iff (hnone : s.outcome = none) :
    (∃ n, (s.run sums n).outcome = some outcome) ↔
      scan sums s.adbPartitions (readBlocks s.buf s.left) = some outcome := by
  obtain ⟨buf, left, names, _⟩ := s
  obtain rfl := hnone
  dsimp only
  induction buf, left using readBlocks.induct generalizing names with
  | case1 buf =>
    rw [readBlocks, dif_pos rfl]
    constructor
    · rintro ⟨n, h⟩
      rw [Listing.run_end rfl] at h
      cases h
    · intro h
      cases h
  | case2 buf left hne block ih =>
    have hblocks : readBlocks buf left = block :: readBlocks block (left.drop maxAdbRead) := by
      rw [readBlocks, dif_neg hne]
    have hstep : Listing.step sums ⟨buf, left, names, none⟩ =
        Listing.onBlock sums ⟨block, left.drop maxAdbRead, names, none⟩ block := by
      rw [Listing.step, if_neg (not_not.mpr rfl), if_neg hne]
    -- the first pass returns nothing
    have hshift : (∃ n, (Listing.run sums ⟨buf, left, names, none⟩ n).outcome = some outcome) ↔
        ∃ n, ((Listing.onBlock sums ⟨block, left.drop maxAdbRead, names, none⟩ block).run
          sums n).outcome = some outcome := by
      rw [← hstep]
      constructor
      · rintro ⟨n, h⟩
        cases n with
        | zero => cases h
        | succ n => exact ⟨n, h⟩
      · rintro ⟨n, h⟩
        exact ⟨n + 1, h⟩
    rw [hshift, hblocks, scan, Listing.onBlock_frame]
    dsimp only
    cases hout : (Listing.onBlock sums ⟨[], [], names, none⟩ block).outcome with
    | none => exact ih _
    | some result =>
      constructor
      · rintro ⟨n, h⟩
        rwa [Listing.run_outcome (by exact Option.some_ne_none _)] at h
      · exact fun h => ⟨0, h⟩

theorem returns_iff {names : List Bytes} : Returns sums buf content names ↔
    scan sums [] (readBlocks buf content) = some (.returned names) :=
  Listing.run_iff rfl

/-- Whole blocks are read one after the other. -/
theorem readBlocks_flatten (buf : Bytes) (hbuf : buf.length = maxAdbRead) (h : Whole blocks) :
    readBlocks buf blocks.flatten = blocks := by
  induction blocks generalizing buf with
  | nil =>
    rw [List.flatten_nil, readBlocks, dif_pos rfl]
  | cons block blocks ih =>
    have hblock := h block List.mem_cons_self
    have hne : (block :: blocks).flatten ≠ [] := List.append_ne_nil_of_left_ne_nil
      (List.ne_nil_of_length_pos (by rw [hblock]; decide)) _
    rw [readBlocks, dif_neg hne]
    dsimp only
    rw [List.flatten_cons, List.take_left' hblock, List.drop_left' hblock,
      List.drop_eq_nil_of_le (by rw [hbuf, hblock]), List.append_nil,
      ih block hblock fun b hb => h b (List.mem_cons_of_mem _ hb)]

/-- The loop ends with a list at the first block that stops it, if no name runs out of its block
before. -/
theorem exists_returned_iff {names : List Bytes} :
    (∃ r, scan sums names blocks = some (.returned r)) ↔
      ∃ before block after, blocks = before ++ block :: after ∧ Stops sums block ∧
        ∀ b ∈ before, ¬Overruns sums b := by
  induction blocks generalizing names with
  | nil =>
    constructor
    · rintro ⟨r, h⟩
      cases h
    · rintro ⟨before, block, after, hsplit, -⟩
      exact absurd hsplit.symm (List.append_ne_nil_of_right_ne_nil before (List.cons_ne_nil _ _))
  | cons block blocks ih =>
    -- a block that neither stops the loop nor runs over leaves the question to the rest
    have hnext : ¬Stops sums block → ¬Overruns sums block →
        ((∃ before b after, blocks = before ++ b :: after ∧ Stops sums b ∧
            ∀ c ∈ before, ¬Overruns sums c) ↔
          ∃ before b after, block :: blocks = before ++ b :: after ∧ Stops sums b ∧
            ∀ c ∈ before, ¬Overruns sums c) := by
      intro hstops hover
      constructor
      · rintro ⟨before, b, after, rfl, hb, hbefore⟩
        exact ⟨block :: before, b, after, rfl, hb, List.forall_mem_cons.mpr ⟨hover, hbefore⟩⟩
      · rintro ⟨before, b, after, hsplit, hb, hbefore⟩
        cases before with
        | nil =>
          obtain ⟨rfl, -⟩ := List.cons.inj hsplit
          exact absurd hb hstops
        | cons first before =>
          obtain ⟨rfl, htail⟩ := List.cons.inj hsplit
          exact ⟨before, b, after, htail, hb, fun c hc => hbefore c (List.mem_cons_of_mem _ hc)⟩
    have hstop : Stops sums block → ∃ before b after, block :: blocks = before ++ b :: after ∧
        Stops sums b ∧ ∀ c ∈ before, ¬Overruns sums c := fun hb =>
      ⟨[], block, blocks, rfl, hb, fun _ hc => absurd hc List.not_mem_nil⟩
    rw [scan]
    rcases Listing.onBlock_cases sums ⟨[], [], names, none⟩ block with
      ⟨hskip, heq⟩ | ⟨hlists, heq⟩ | ⟨hover, heq⟩ | ⟨hend, heq⟩ | ⟨hbad, heq⟩
    · rw [heq]
      refine ih.trans (hnext ?_ ?_)
      · rintro (hend | hbad)
        · rw [recognised, hend] at hskip
          cases hskip
        · rw [recognised_of_unsealed hbad] at hskip
          cases hskip
      · intro hover
        rw [recognised, hover.1, Bool.or_true] at hskip
        cases hskip
    · rw [heq]
      refine ih.trans (hnext ?_ fun hover => hover.2.2 hlists.2.2)
      rintro (hend | hbad)
      · rw [isEnd_of_isFile hlists.1] at hend
        cases hend
      · rw [unsealed_of_file hlists.1 hlists.2.1] at hbad
        cases hbad
    · rw [heq]
      constructor
      · rintro ⟨r, h⟩
        cases h
      · rintro ⟨before, b, after, hsplit, hb, hbefore⟩
        cases before with
        | nil =>
          obtain ⟨rfl, -⟩ := List.cons.inj hsplit
          rcases hb with hend | hbad
          · rw [isEnd_of_isFile hover.1] at hend
            cases hend
          · rw [unsealed_of_file hover.1 hover.2.1] at hbad
            cases hbad
        | cons first before =>
          obtain ⟨rfl, -⟩ := List.cons.inj hsplit
          exact absurd hover (hbefore _ List.mem_cons_self)
    · rw [heq]
      exact ⟨fun _ => hstop (.inl hend.1), fun _ => ⟨names, rfl⟩⟩
    · rw [heq]
      exact ⟨fun _ => hstop (.inr hbad), fun _ => ⟨[], rfl⟩⟩

end passes

section stream
variable (sums : Checksums)

theorem cmdType_eq (block : Bytes) : cmdType block = getType block := by
  rw [cmdType, getType, cString]
  exact List.take_takeWhile

/-- The blocks of a payload and of the zeros behind it. -/
def AdbFile.payloadBlocks (f : AdbFile) : List Bytes := blocksOf (f.padded sums)

/-- The file of a header, without its path. -/
def AdbFile.listed (f : AdbFile) : Bytes := fileName (cString (charField 468 f.name))

/-- What of a stream `Get_ADB_Backup_Files` does not skip. -/
def marked (files : List AdbFile) : List Bytes :=
  files.flatMap fun f => f.header sums :: (f.payloadBlocks sums).filter recognised

variable {sums}

theorem recognised_of_getType {block type : Bytes} (h : getType block = type)
    (hend : type ≠ TWENDADB) (himage : type ≠ TWIMG) (hname : type ≠ TWFN) :
    recognised block = false := by
  rw [recognised, isEnd, isFile, cmdType_eq, h, decide_eq_false hend,
    decide_eq_false (not_or.mpr ⟨himage, hname⟩)]
  rfl

theorem isFile_header (f : AdbFile) : isFile (f.header sums) = true := by
  rw [isFile, cmdType_eq, getType_header]
  cases f.fileType <;> decide

theorem header_drop (f : AdbFile) : (f.header sums).drop 44 = charField 468 f.name := by
  refine List.drop_left' ?_
  rw [List.length_append, List.length_append, List.length_append, startOf_length, wordField_length,
    wordField_length, wordField_length]

theorem listedName_header (f : AdbFile) : listedName (f.header sums) = f.listed := by
  rw [listedName, header_drop, AdbFile.listed]

theorem lists_header {f : AdbFile} : Lists sums (f.header sums) ↔ 0 ∈ charField 468 f.name := by
  rw [Lists, header_drop]
  exact ⟨fun h => h.2.2, fun h => ⟨isFile_header f, crcMatches_header f, h⟩⟩

theorem sealed_end : isEnd (controlBlock sums TWENDADB) = true ∧
    crcMatches sums 24 (controlBlock sums TWENDADB) = true := by
  constructor
  · rw [isEnd, cmdType_eq, getType_controlBlock (by decide) (by decide)]
    decide
  · rw [controlBlock, ← startOf_length TWENDADB]
    exact crcMatches_withCrc sums _ _

theorem blocksOf_nil : blocksOf [] = [] := by rw [blocksOf, dif_pos rfl]

theorem blocksOf_whole {blocks : List Bytes} (h : Whole blocks) :
    blocksOf blocks.flatten = blocks := by
  have hblocks := blocksOf_flatten h []
  rwa [List.append_nil, blocksOf_nil, List.append_nil] at hblocks

theorem flatten_blocksOf (l : Bytes) : (blocksOf l).flatten = l := by
  induction l using blocksOf.induct with
  | case1 => rw [blocksOf_nil, List.flatten_nil]
  | case2 l hne ih => rw [blocksOf, dif_neg hne, List.flatten_cons, ih, List.take_append_drop]

theorem filter_chunks (chunks : List (List Bytes)) :
    (chunks.flatMap fun chunk => dataHeader sums :: chunk).filter recognised =
      chunks.flatten.filter recognised := by
  have hheader : recognised (dataHeader sums) = false :=
    recognised_of_getType (getType_controlBlock (by decide) (by decide)) (by decide) (by decide)
      (by decide)
  induction chunks with
  | nil => rfl
  | cons chunk chunks ih =>
    rw [List.flatMap_cons, List.cons_append, List.filter_cons_of_neg (by rw [hheader]; decide),
      List.filter_append, ih, List.flatten_cons, List.filter_append]

/-- The stream of some files and the end behind it. -/
theorem blocksOf_files (sums : Checksums) (files : List AdbFile) :
    Whole (blocksOf (files.flatMap (backedUp sums) ++ controlBlock sums TWENDADB)) ∧
      (blocksOf (files.flatMap (backedUp sums) ++ controlBlock sums TWENDADB)).filter recognised =
        marked sums files ++ [controlBlock sums TWENDADB] := by
  refine ⟨whole_streamAfter files, ?_⟩
  induction files with
  | nil =>
    have hend := blocksOf_cons (controlBlock_length sums TWENDADB) []
    have hknown : recognised (controlBlock sums TWENDADB) = true := by
      rw [recognised, sealed_end.1, Bool.true_or]
    rw [List.append_nil, blocksOf_nil] at hend
    rw [List.flatMap_nil, List.nil_append, hend, List.filter_cons_of_pos hknown]
    rfl
  | cons f files ih =>
    obtain ⟨chunks, hchunks, hflat, hblocks⟩ := blocksOf_backedUp sums f
      (files.flatMap (backedUp sums) ++ controlBlock sums TWENDADB)
    have hpayload : f.payloadBlocks sums = chunks.flatten := by
      rw [AdbFile.payloadBlocks, ← hflat]
      refine blocksOf_whole fun b hb => ?_
      obtain ⟨chunk, hchunk, hbc⟩ := List.mem_flatten.mp hb
      exact (hchunks chunk hchunk).2 b hbc
    have htrailer : recognised (md5Trailer sums (headerSize (f.header sums)) (f.padded sums)) =
        false :=
      recognised_of_getType (getType_md5Trailer sums _ _) (by decide) (by decide) (by decide)
    have hheader : recognised (f.header sums) = true := by
      rw [recognised, isFile_header, Bool.or_true]
    rw [List.flatMap_cons, List.append_assoc, hblocks, List.filter_cons_of_pos hheader,
      List.filter_append, filter_chunks, List.filter_cons_of_neg (by rw [htrailer]; decide), ih,
      marked, marked, List.flatMap_cons, hpayload]
    simp only [List.cons_append, List.append_assoc]

/-- The stream of a backup, cut into blocks. -/
theorem exists_streamBlocks (sums : Checksums) (files : List AdbFile) :
    ∃ blocks : List Bytes, Whole blocks ∧
      blocks.flatten = streamOf sums files.length files ++ controlBlock sums TWENDADB ∧
      blocks.filter recognised = marked sums files ++ [controlBlock sums TWENDADB] := by
  obtain ⟨hwhole, hfilter⟩ := blocksOf_files sums files
  have hlen : (streamHeader sums files.length).length = maxAdbRead := by
    rw [streamHeader, withCrc_length, List.length_append, List.length_append, startOf_length,
      wordField_length, wordField_length, zeros, List.length_replicate]
    rfl
  have hheader : recognised (streamHeader sums files.length) = false :=
    recognised_of_getType (getType_streamHeader _) (by decide) (by decide) (by decide)
  refine ⟨streamHeader sums files.length ::
    blocksOf (files.flatMap (backedUp sums) ++ controlBlock sums TWENDADB),
    List.forall_mem_cons.mpr ⟨hlen, hwhole⟩, ?_, ?_⟩
  · rw [List.flatten_cons, flatten_blocksOf, streamOf, List.append_assoc]
  · rw [List.filter_cons_of_neg (by rw [hheader]; decide), hfilter]

end stream

/-- `Get_ADB_Backup_Files` returns the files of a backup, and blocks without their crc change
nothing in that. -/
structure ListsBackup (sums : Checksums) (files : List AdbFile) (buf content : Bytes) : Prop where
  names : Returns sums buf content (files.map AdbFile.listed)
  ignored : ∀ r, Returns sums buf ((blocksOf content).filter fun b => !unsealed sums b).flatten r ↔
    Returns sums buf content r

/-- No block of a payload has the type of a header or of the end, and no name fills its field. -/
structure PlainPayload (files : List AdbFile) : Prop where
  names : ∀ f ∈ files, 0 ∈ charField 468 f.name
  blocks : ∀ f ∈ files, ∀ m,
    recognised ((f.payload.drop (maxAdbRead * m)).take maxAdbRead) = false

/-- A payload ends the stream, and the headers up to there have the names of all files. -/
def EndsEarly (sums : Checksums) (files : List AdbFile) : Prop :=
  ∃ before block after, marked sums files = before ++ block :: after ∧
    (isEnd block = true ∧ crcMatches sums 24 block = true) ∧ (∀ b ∈ before, Lists sums b) ∧
      before.map listedName = files.map AdbFile.listed

section lists
variable {sums : Checksums} {files : List AdbFile} {blocks before after : List Bytes}
  {block : Bytes}

theorem length_marked (sums : Checksums) (files : List AdbFile) : (marked sums files).length =
    files.length + (files.map fun f => ((f.payloadBlocks sums).filter recognised).length).sum := by
  induction files with
  | nil => rfl
  | cons f files ih =>
    rw [marked, List.flatMap_cons, List.length_append, List.length_cons, ← marked, ih,
      List.length_cons, List.map_cons, List.sum_cons]
    omega

/-- As many marked blocks as files: they are the headers. -/
theorem plain_of_length (h : (marked sums files).length = files.length) :
    ∀ f ∈ files, ∀ b ∈ f.payloadBlocks sums, recognised b = false := by
  rw [length_marked] at h
  have hsum : (files.map fun f => ((f.payloadBlocks sums).filter recognised).length).sum = 0 := by
    omega
  intro f hf b hb
  have hzero := List.sum_eq_zero_iff_forall_eq_nat.mp hsum _ (List.mem_map_of_mem hf)
  rw [Bool.eq_false_iff]
  exact List.filter_eq_nil_iff.mp (List.eq_nil_of_length_eq_zero hzero) b hb

theorem marked_plain (h : ∀ f ∈ files, ∀ b ∈ f.payloadBlocks sums, recognised b = false) :
    marked sums files = files.map fun f => f.header sums := by
  induction files with
  | nil => rfl
  | cons f files ih =>
    have hnone : (f.payloadBlocks sums).filter recognised = [] := by
      refine List.filter_eq_nil_iff.mpr fun b hb => ?_
      rw [h f List.mem_cons_self b hb]
      exact Bool.false_ne_true
    rw [marked, List.flatMap_cons, ← marked, hnone,
      ih fun g hg => h g (List.mem_cons_of_mem _ hg), List.map_cons, List.singleton_append]

/-- The padding makes no difference to the types. -/
theorem payloadBlocks_types (sums : Checksums) (f : AdbFile) :
    (∀ b ∈ f.payloadBlocks sums, ∃ m,
      cmdType b = cmdType ((f.payload.drop (maxAdbRead * m)).take maxAdbRead)) ∧
    ∀ m, maxAdbRead * m < f.payload.length → ∃ b ∈ f.payloadBlocks sums,
      cmdType b = cmdType ((f.payload.drop (maxAdbRead * m)).take maxAdbRead) := by
  obtain ⟨chunks, hchunks, hflat, -⟩ := blocksOf_backedUp sums f []
  have hwhole : Whole chunks.flatten := by
    intro b hb
    obtain ⟨chunk, hchunk, hbc⟩ := List.mem_flatten.mp hb
    exact (hchunks chunk hchunk).2 b hbc
  have hpayload : f.payloadBlocks sums = chunks.flatten := by
    rw [AdbFile.payloadBlocks, ← hflat]
    exact blocksOf_whole hwhole
  have hat : ∀ {m : ℕ} {b : Bytes}, chunks.flatten[m]? = some b →
      cmdType b = cmdType ((f.payload.drop (maxAdbRead * m)).take maxAdbRead) := by
    intro m b hm
    have hblock := take_drop_flatten hwhole hm []
    rw [List.append_nil, hflat, AdbFile.padded] at hblock
    rw [cmdType_eq, cmdType_eq, ← hblock, getType_block]
  rw [hpayload]
  constructor
  · intro b hb
    obtain ⟨m, hm⟩ := List.mem_iff_getElem?.mp hb
    exact ⟨m, hat hm⟩
  · intro m hm
    have hlen := flatten_length hwhole
    rw [hflat, AdbFile.padded, List.length_append] at hlen
    have hlt : m < chunks.flatten.length :=
      Nat.lt_of_mul_lt_mul_left (by omega : maxAdbRead * m < maxAdbRead * chunks.flatten.length)
    exact ⟨_, List.getElem_mem hlt, hat (List.getElem?_eq_getElem hlt)⟩

theorem plainBlocks_iff {f : AdbFile} : (∀ b ∈ f.payloadBlocks sums, recognised b = false) ↔
    ∀ m, recognised ((f.payload.drop (maxAdbRead * m)).take maxAdbRead) = false := by
  obtain ⟨hblock, hpayload⟩ := payloadBlocks_types sums f
  have htype : ∀ {b c : Bytes}, cmdType b = cmdType c → recognised b = recognised c := by
    intro b c h
    rw [recognised, recognised, isEnd, isEnd, isFile, isFile, h]
  constructor
  · intro h m
    by_cases hm : maxAdbRead * m < f.payload.length
    · obtain ⟨b, hb, heq⟩ := hpayload m hm
      rw [← htype heq]
      exact h b hb
    · rw [List.drop_eq_nil_of_le (not_lt.mp hm)]
      decide
  · intro h b hb
    obtain ⟨m, heq⟩ := hblock b hb
    rw [htype heq]
    exact h m

theorem header_mem_marked {f : AdbFile} (hf : f ∈ files) : f.header sums ∈ marked sums files :=
  List.mem_flatMap.mpr ⟨f, hf, List.mem_cons_self⟩

/-- Blocks that do not stop the loop with a bad crc are all it needs. -/
theorem scan_ignored (hsplit : blocks.filter recognised = before ++ block :: after)
    (hbefore : ∀ b ∈ before, Lists sums b)
    (hend : isEnd block = true ∧ crcMatches sums 24 block = true) :
    scan sums [] (blocks.filter fun b => !unsealed sums b) =
      some (.returned (before.map listedName)) := by
  refine scan_returned_iff.mpr ⟨before, block, after.filter fun b => !unsealed sums b, ?_, hbefore,
    .inl ⟨hend, (List.nil_append _).symm⟩⟩
  have hkeep : before.filter (fun b => !unsealed sums b) = before := by
    refine List.filter_eq_self.mpr fun b hb => ?_
    rw [unsealed_of_file (hbefore b hb).1 (hbefore b hb).2.1]
    rfl
  have hswap : (blocks.filter fun b => !unsealed sums b).filter recognised =
      (blocks.filter recognised).filter fun b => !unsealed sums b := by
    rw [List.filter_filter, List.filter_filter]
    exact List.filter_congr fun b _ => Bool.and_comm _ _
  rw [hswap, hsplit, List.filter_append, hkeep, List.filter_cons_of_pos]
  rw [unsealed_of_end hend.1 hend.2]
  rfl

/-- The list ends with the end of the stream or with one that a payload fakes. -/
theorem ends_iff (hfilter : blocks.filter recognised =
      marked sums files ++ [controlBlock sums TWENDADB]) :
    (∃ before block after, blocks.filter recognised = before ++ block :: after ∧
      (∀ b ∈ before, Lists sums b) ∧
      (isEnd block = true ∧ crcMatches sums 24 block = true) ∧
      before.map listedName = files.map AdbFile.listed) ↔
    PlainPayload files ∨ EndsEarly sums files := by
  rw [hfilter]
  constructor
  · rintro ⟨before, block, after, hsplit, hbefore, hend, hnames⟩
    rcases List.append_eq_append_iff.mp hsplit with ⟨extra, hbefore', htail⟩ |
      ⟨extra, hmarked, htail⟩
    · -- all marked blocks have been read
      have hextra : extra = [] := by
        cases extra with
        | nil => rfl
        | cons x extra =>
          have hlen := congrArg List.length htail
          simp only [List.length_append, List.length_cons, List.length_nil] at hlen
          omega
      subst hextra
      rw [List.append_nil] at hbefore'
      subst hbefore'
      have hlen := congrArg List.length hnames
      rw [List.length_map, List.length_map] at hlen
      exact .inl ⟨fun f hf => lists_header.mp (hbefore _ (header_mem_marked hf)),
        fun f hf => plainBlocks_iff.mp (plain_of_length hlen f hf)⟩
    · cases extra with
      | nil =>
        rw [List.append_nil] at hmarked
        have hlen := congrArg List.length hnames
        rw [List.length_map, List.length_map, ← hmarked] at hlen
        exact .inl ⟨fun f hf => lists_header.mp (hbefore _ (hmarked ▸ header_mem_marked hf)),
          fun f hf => plainBlocks_iff.mp (plain_of_length hlen f hf)⟩
      | cons x extra =>
        obtain ⟨rfl, -⟩ := List.cons.inj htail
        exact .inr ⟨before, _, extra, hmarked, hend, hbefore, hnames⟩
  · rintro (⟨hnames, hplain'⟩ | ⟨before, block, after, hmarked, hend, hbefore, hnames⟩)
    · have hplain : ∀ f ∈ files, ∀ b ∈ f.payloadBlocks sums, recognised b = false :=
        fun f hf => plainBlocks_iff.mpr (hplain' f hf)
      refine ⟨marked sums files, controlBlock sums TWENDADB, [], rfl, fun b hb => ?_,
        sealed_end, ?_⟩
      · rw [marked_plain hplain] at hb
        obtain ⟨f, hf, rfl⟩ := List.mem_map.mp hb
        exact lists_header.mpr (hnames f hf)
      · rw [marked_plain hplain, List.map_map]
        exact List.map_congr_left fun f _ => listedName_header f
    · refine ⟨before, block, after ++ [controlBlock sums TWENDADB], ?_, hbefore, hend, hnames⟩
      rw [hmarked, List.append_assoc, List.cons_append]

/-- The list of a stream, cut into blocks. -/
theorem listsBackup_blocks {buf : Bytes} (hbuf : buf.length = maxAdbRead) (hwhole : Whole blocks)
    (hfilter : blocks.filter recognised = marked sums files ++ [controlBlock sums TWENDADB]) :
    ListsBackup sums files buf blocks.flatten ↔ PlainPayload files ∨ EndsEarly sums files := by
  have hread : ∀ {r : List Bytes}, Returns sums buf blocks.flatten r ↔
      scan sums [] blocks = some (.returned r) := by
    intro r
    rw [returns_iff, readBlocks_flatten buf hbuf hwhole]
  constructor
  · intro h
    obtain ⟨before, block, after, hsplit, hbefore, hstop⟩ := scan_returned_iff.mp (hread.mp h.names)
    rcases hstop with ⟨hend, hnames⟩ | ⟨hbad, hnil⟩
    · exact (ends_iff hfilter).mp ⟨before, block, after, hsplit, hbefore, hend, hnames.symm⟩
    · -- without files there is the end of the stream only
      obtain rfl := List.map_eq_nil_iff.mp hnil
      rw [hfilter, marked, List.flatMap_nil, List.nil_append] at hsplit
      cases before with
      | nil =>
        obtain ⟨rfl, -⟩ := List.cons.inj hsplit
        rw [unsealed_of_end sealed_end.1 sealed_end.2] at hbad
        cases hbad
      | cons first before =>
        exact absurd (List.cons.inj hsplit).2.symm
          (List.append_ne_nil_of_right_ne_nil before (List.cons_ne_nil _ _))
  · intro h
    obtain ⟨before, block, after, hsplit, hbefore, hend, hnames⟩ := (ends_iff hfilter).mpr h
    have hscan : scan sums [] blocks = some (.returned (before.map listedName)) :=
      scan_returned_iff.mpr ⟨before, block, after, hsplit, hbefore,
        .inl ⟨hend, (List.nil_append _).symm⟩⟩
    refine ⟨?_, fun r => ?_⟩
    · rw [hread, hscan, hnames]
    · rw [hread, hscan, blocksOf_whole hwhole, returns_iff, readBlocks_flatten buf hbuf fun b hb =>
        hwhole b (List.mem_filter.mp hb).1, scan_ignored hsplit hbefore hend]

end lists

/-- `Get_ADB_Backup_Files` returns if and only if a block stops it, and for a settled backup it
returns the files if and only if no payload is taken for a header, or one is taken for the end once
the names are complete. -/
theorem getBackupFiles_iff (sums : Checksums) :
    (∀ buf content, (∃ names, Returns sums buf content names) ↔
      ∃ before block after, readBlocks buf content = before ++ block :: after ∧
        Stops sums block ∧ ∀ b ∈ before, ¬Overruns sums b) ∧
    ∀ (files : List AdbFile) (steps : List AdbStep) (sys : AdbSystem) (buf : Bytes),
      SettledRun sums steps (AdbSystem.start files) sys → sys.backup.pos = .returned true →
        buf.length = maxAdbRead →
          (ListsBackup sums files buf sys.backup.adbd ↔
            PlainPayload files ∨ EndsEarly sums files) := by
  constructor
  · intro buf content
    simp only [returns_iff]
    exact exists_returned_iff
  · intro files steps sys buf hrun hpos hbuf
    obtain ⟨blocks, hwhole, hflat, hfilter⟩ := exists_streamBlocks sums files
    rw [hrun.synced.complete hpos, ← hflat]
    exact listsBackup_blocks hbuf hwhole hfilter

/-- The backup of a file with a payload of one byte. -/
theorem getBackupFiles_byte : ∃ sys, (AdbSystem.start [smallFile [7]]).run lengthSums
      settledByteSteps = some sys ∧
    ListsBackup lengthSums [smallFile [7]] (zeros maxAdbRead) sys.backup.adbd := by
  have hreturned : ((AdbSystem.start [smallFile [7]]).run lengthSums settledByteSteps).map
      (fun s => s.backup.pos) = some (.returned true) := by decide +kernel
  obtain ⟨sys, hrun, hpos⟩ := Option.map_eq_some_iff.mp hreturned
  have hsettled : settledSteps lengthSums [smallFile [7]] settledByteSteps
      (AdbSystem.start [smallFile [7]]) = true := by decide +kernel
  refine ⟨sys, hrun, ((getBackupFiles_iff lengthSums).2 [smallFile [7]] settledByteSteps sys
    (zeros maxAdbRead) ⟨hrun, hsettled⟩ hpos List.length_replicate).mpr (.inl ⟨?_, ?_⟩)⟩
  · intro f hf
    obtain rfl := List.mem_singleton.mp hf
    decide
  · intro f hf m
    obtain rfl := List.mem_singleton.mp hf
    cases m with
    | zero => decide
    | succ m =>
      rw [List.drop_eq_nil_of_le]
      · decide
      · rw [Nat.mul_succ]
        exact (by decide : [(7 : UInt8)].length ≤ maxAdbRead).trans (Nat.le_add_left _ _)

/-- `Get_ADB_Backup_Files` returns for every file. -/
def ReturnsOnEveryFile (sums : Checksums) : Prop :=
  ∀ buf content : Bytes, buf.length = maxAdbRead → ∃ names, Returns sums buf content names

/-- It returns the files of every backup. -/
def ListsEveryBackup (sums : Checksums) : Prop :=
  ∀ (files : List AdbFile) (steps : List AdbStep) (sys : AdbSystem) (buf : Bytes),
    (AdbSystem.start files).run sums steps = some sys → sys.backup.pos = .returned true →
      buf.length = maxAdbRead → ListsBackup sums files buf sys.backup.adbd

/-- A block of a partition with the type of an image header and another crc. -/
def savedHeader : Bytes := startOf TWIMG ++ zeros 16 ++ [1, 0, 0, 0] ++ zeros 468

theorem not_listsEveryBackup :
    ¬ReturnsOnEveryFile lengthSums ∧ ¬ListsEveryBackup lengthSums := by
  constructor
  · intro h
    -- an empty file
    obtain ⟨names, n, hn⟩ := h (zeros maxAdbRead) [] List.length_replicate
    rw [Listing.run_end rfl] at hn
    cases hn
  · intro h
    have hreturned : ((AdbSystem.start [smallFile savedHeader]).run lengthSums
        settledBlockSteps).map (fun s => s.backup.pos) = some (.returned true) := by decide +kernel
    obtain ⟨sys, hrun, hpos⟩ := Option.map_eq_some_iff.mp hreturned
    have hsettled : settledSteps lengthSums [smallFile savedHeader] settledBlockSteps
        (AdbSystem.start [smallFile savedHeader]) = true := by decide +kernel
    have hlists := h [smallFile savedHeader] settledBlockSteps sys (zeros maxAdbRead) hrun hpos
      List.length_replicate
    obtain ⟨blocks, hwhole, hflat, hfilter⟩ := exists_streamBlocks lengthSums
      [smallFile savedHeader]
    rw [((synced_start _).run hrun hsettled).complete hpos, ← hflat] at hlists
    have hmiss : ∀ m, isEnd ((savedHeader.drop (maxAdbRead * m)).take maxAdbRead) = false := by
      intro m
      cases m with
      | zero => decide +kernel
      | succ m =>
        have hlen : savedHeader.length = maxAdbRead := by decide +kernel
        rw [List.drop_eq_nil_of_le]
        · decide
        · rw [Nat.mul_succ, hlen]
          exact Nat.le_add_left _ _
    rcases (listsBackup_blocks List.length_replicate hwhole hfilter).mp hlists with
      hplain | ⟨before, block, after, hmarked, ⟨hend, -⟩, -⟩
    · have htype := hplain.blocks _ List.mem_cons_self 0
      exact absurd htype (by decide +kernel)
    · have hblock : block ∈ marked lengthSums [smallFile savedHeader] :=
        hmarked ▸ List.mem_append_right before List.mem_cons_self
      obtain ⟨f, hf, hblock⟩ := List.mem_flatMap.mp hblock
      obtain rfl := List.mem_singleton.mp hf
      rcases List.mem_cons.mp hblock with rfl | hblock
      · rw [isEnd_of_isFile (isFile_header _)] at hend
        cases hend
      · obtain ⟨m, hm⟩ := (payloadBlocks_types lengthSums _).1 block (List.mem_filter.mp hblock).1
        have hfalse := hmiss m
        rw [isEnd, decide_eq_false_iff_not] at hfalse
        rw [isEnd, decide_eq_true_eq, hm] at hend
        exact hfalse hend

end BootableRecovery.Adbbu
