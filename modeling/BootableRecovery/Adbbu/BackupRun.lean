import BootableRecovery.Adbbu.BackupStream

namespace BootableRecovery.Adbbu

/-! Runs of `backup` with TWRP at the other end of the fifos. -/

variable (sums : Checksums)

/-- The part of the payload that TWRP has still to write. -/
def TwrpStage.left : TwrpStage → Bytes
  | .opening f => f.payload
  | .writing left => left
  | .start | .between | .written | .ended => []

/-- The payloads as far as `backup` has not read them. -/
def AdbSystem.unread (s : AdbSystem) : Bytes :=
  s.pipe ++ s.stage.left ++ s.files.flatMap AdbFile.payload

def isHeader (msg : Bytes) : Bool := getType msg = TWIMG || getType msg = TWFN

/-- The files whose headers `backup` has not read. -/
def AdbSystem.unannounced (files : List AdbFile) (s : AdbSystem) : List AdbFile :=
  files.drop (files.length - (s.files.length + s.control.countP isHeader))

/-- Nothing synchronises the two fifos. In a settled run no data of a file is read before its
header, and all that the loop after TWEOF finds in the data fifo is its end. -/
def settled (files : List AdbFile) (s : AdbSystem) : AdbStep → Bool
  | .twrp _ => true
  | .backup n =>
    match s.backup.pos with
    | .control => true
    | .drain => s.pipe.isEmpty && !s.writer
    | .returned _ => true
    | _ => s.pipe.isEmpty ||
      ((s.unannounced files).flatMap AdbFile.payload).length + n ≤ s.unread.length

def settledSteps (files : List AdbFile) : List AdbStep → AdbSystem → Bool
  | [], _ => true
  | a :: steps, s =>
    settled files s a &&
      match s.step sums a with
      | none => true
      | some t => settledSteps files steps t

def SettledRun (steps : List AdbStep) (s t : AdbSystem) : Prop :=
  s.run sums steps = some t ∧ settledSteps sums s.files steps s = true

/-- What TWRP does in one step: the messages and the bytes that it writes. -/
inductive Turn : TwrpStage → Bool → List AdbFile → List Bytes → Bytes →
    TwrpStage → Bool → List AdbFile → Prop
  | header (writer : Bool) (f : AdbFile) (files : List AdbFile) :
    Turn .between writer (f :: files) [f.header sums] [] (.opening f) writer files
  | last (writer : Bool) : Turn .between writer [] [controlBlock sums TWENDADB] [] .ended writer []
  | opens (writer : Bool) (f : AdbFile) (files : List AdbFile) :
    Turn (.opening f) writer files [] [] (.writing f.payload) true files
  | writes (writer : Bool) (bs left : Bytes) (files : List AdbFile) :
    Turn (.writing (bs ++ left)) writer files [] bs (.writing left) writer files
  | closes (writer : Bool) (files : List AdbFile) :
    Turn (.writing []) writer files [] [] .written false files
  | eof (writer : Bool) (files : List AdbFile) :
    Turn .written writer files [controlBlock sums TWEOF] [] .between writer files

/-- What TWRP has sent and written of the files `remaining`, and the files that it has left: it may
be any number of files ahead. -/
inductive Ahead : (remaining : List AdbFile) → List Bytes → Bytes →
    TwrpStage → Bool → List AdbFile → Prop
  | between (files : List AdbFile) : Ahead files [] [] .between false files
  | opening (f : AdbFile) (files : List AdbFile) :
    Ahead (f :: files) [f.header sums] [] (.opening f) false files
  | writing (f : AdbFile) (files : List AdbFile) (written left : Bytes)
    (h : written ++ left = f.payload) :
    Ahead (f :: files) [f.header sums] written (.writing left) true files
  | written (f : AdbFile) (files : List AdbFile) :
    Ahead (f :: files) [f.header sums] f.payload .written false files
  | ended : Ahead [] [controlBlock sums TWENDADB] [] .ended false []
  | file (f : AdbFile) {remaining files : List AdbFile} {control : List Bytes} {pipe : Bytes}
    {stage : TwrpStage} {writer : Bool} (h : Ahead remaining control pipe stage writer files) :
    Ahead (f :: remaining) (f.header sums :: controlBlock sums TWEOF :: control)
      (f.payload ++ pipe) stage writer files

/-- The stream header and the files that are complete. -/
def streamOf (count : ℕ) (finished : List AdbFile) : Bytes :=
  streamHeader sums count ++ finished.flatMap (backedUp sums)

/-- What a settled run keeps, by the message that `backup` reads next. -/
inductive Synced (files : List AdbFile) (s : AdbSystem) : Prop
  | fresh (hstage : s.stage = .start) (hfiles : s.files = files) (hcontrol : s.control = [])
    (hpipe : s.pipe = []) (hwriter : s.writer = false) (hidle : Idle s.backup [])
  | greeting (next : List Bytes)
    (hcontrol : s.control = streamHeader sums files.length :: next)
    (hahead : Ahead sums files next s.pipe s.stage s.writer s.files) (hidle : Idle s.backup [])
  | idle (finished remaining : List AdbFile) (hfiles : files = finished ++ remaining)
    (hahead : Ahead sums remaining s.control s.pipe s.stage s.writer s.files)
    (hidle : Idle s.backup (streamOf sums files.length finished))
  | busy (finished : List AdbFile) (f : AdbFile) (remaining : List AdbFile) (read : Bytes)
    (hfiles : files = finished ++ f :: remaining)
    (hahead : Ahead sums (f :: remaining) (f.header sums :: s.control) (read ++ s.pipe) s.stage
      s.writer s.files)
    (hread : read <+: f.payload)
    (hbusy : Busy sums s.backup f read (streamOf sums files.length finished))
  | draining (finished : List AdbFile) (f : AdbFile) (remaining : List AdbFile) (read rest : Bytes)
    (hfiles : files = finished ++ f :: remaining)
    (hahead : Ahead sums remaining s.control rest s.stage s.writer s.files)
    (hpipe : read ++ s.pipe = f.payload ++ rest) (hread : read <+: f.payload)
    (hpos : s.backup.pos = .drain)
    (hcarries : Carries sums s.backup f read (streamOf sums files.length finished))
  | returned (hpos : s.backup.pos = .returned true)
    (hadbd : s.backup.adbd = streamOf sums files.length files ++ controlBlock sums TWENDADB)

variable {sums} {s t : AdbSystem} {files remaining : List AdbFile} {n : ℕ}

section ahead
variable {control msgs : List Bytes} {pipe bs : Bytes} {stage stage' : TwrpStage}
  {writer writer' : Bool} {left rest : List AdbFile} {f : AdbFile}

theorem isHeader_header (f : AdbFile) : isHeader (f.header sums) = true := by
  rw [isHeader, getType_header]
  cases f.fileType <;> decide

theorem isHeader_controlBlock {type : Bytes} (h : type = TWEOF ∨ type = TWENDADB) :
    isHeader (controlBlock sums type) = false := by
  rcases h with rfl | rfl <;> rw [isHeader, getType_controlBlock (by decide) (by decide)] <;> decide

/-- TWRP going on leaves `backup` behind by what it writes. -/
theorem Ahead.turn (h : Ahead sums remaining control pipe stage writer left)
    (hturn : Turn sums stage writer left msgs bs stage' writer' rest) :
    Ahead sums remaining (control ++ msgs) (pipe ++ bs) stage' writer' rest := by
  induction h with
  | between files =>
    cases hturn with
    | header _ f => exact .opening f _
    | last => exact .ended
  | opening f files =>
    cases hturn
    exact .writing f _ [] f.payload rfl
  | writing f files written left hall =>
    cases hturn with
    | writes _ bs left =>
      refine .writing f _ (written ++ bs) left ?_
      rw [List.append_assoc]
      exact hall
    | closes =>
      rw [List.append_nil] at hall
      rw [List.append_nil, List.append_nil, hall]
      exact .written f _
  | written f files =>
    cases hturn
    exact .file f (.between _)
  | ended => cases hturn
  | file f h ih =>
    rw [List.append_assoc]
    exact .file f (ih hturn)

/-- The payloads of the remaining files are in the data fifo or have still to be written. -/
theorem Ahead.unread (h : Ahead sums remaining control pipe stage writer left) :
    pipe ++ stage.left ++ left.flatMap AdbFile.payload = remaining.flatMap AdbFile.payload := by
  induction h with
  | between files => rfl
  | opening f files => rfl
  | writing f files written left hall => rw [TwrpStage.left, hall, List.flatMap_cons]
  | written f files => rw [TwrpStage.left, List.append_nil, List.flatMap_cons]
  | ended => rfl
  | file f h ih =>
    rw [List.append_assoc f.payload, List.append_assoc f.payload, ih, List.flatMap_cons]

theorem Ahead.count (h : Ahead sums remaining control pipe stage writer left) :
    left.length + control.countP isHeader = remaining.length := by
  induction h with
  | between files => rfl
  | opening | writing | written => simp [isHeader_header]
  | ended => simp [isHeader_controlBlock]
  | file f h ih =>
    simp only [List.countP_cons, isHeader_header, isHeader_controlBlock (.inl rfl),
      List.length_cons, ← ih, if_true, Bool.false_eq_true, if_false]
    omega

/-- The message behind the header of a file is its TWEOF. -/
theorem Ahead.afterHeader
    (h : Ahead sums (f :: remaining) (f.header sums :: control) pipe stage writer left) :
    control = [] ∨ ∃ next rest, control = controlBlock sums TWEOF :: next ∧
      pipe = f.payload ++ rest ∧ Ahead sums remaining next rest stage writer left := by
  cases h with
  | opening | writing | written => exact .inl rfl
  | file f h => exact .inr ⟨_, _, rfl, rfl, h⟩

/-- Once the data fifo is closed, all of a file has been written. -/
theorem Ahead.payload_of_closed
    (h : Ahead sums (f :: remaining) (f.header sums :: control) pipe stage false left)
    (hpart : pipe <+: f.payload) (hne : pipe ≠ []) : pipe = f.payload := by
  cases h with
  | opening => exact absurd rfl hne
  | written => rfl
  | file f h => exact hpart.eq_of_length_le (by simp)

/-- The first message: none, the header of the next file, or the end. -/
theorem Ahead.next (h : Ahead sums remaining control pipe stage writer left) :
    control = [] ∨ (∃ f files msgs, remaining = f :: files ∧ control = f.header sums :: msgs) ∨
      remaining = [] ∧ control = [controlBlock sums TWENDADB] := by
  cases h with
  | between => exact .inl rfl
  | ended => exact .inr (.inr ⟨rfl, rfl⟩)
  | opening f | writing f | written f | file f => exact .inr (.inl ⟨f, _, _, rfl, rfl⟩)

end ahead

section twrp

theorem twrpStep_turn (hstage : s.stage ≠ .start) (hstep : s.twrpStep sums n = some t) :
    ∃ msgs bs, Turn sums s.stage s.writer s.files msgs bs t.stage t.writer t.files ∧
      t.control = s.control ++ msgs ∧ t.pipe = s.pipe ++ bs ∧ t.backup = s.backup := by
  unfold AdbSystem.twrpStep at hstep
  rcases hs : s.stage with _ | _ | f | left | _ | _ <;> rw [hs] at hstep
  · exact absurd hs hstage
  · rcases hfiles : s.files with _ | ⟨f, files⟩ <;> rw [hfiles] at hstep <;>
      rw [← Option.some.inj hstep]
    · refine ⟨_, [], ?_, rfl, (List.append_nil _).symm, rfl⟩
      change Turn sums .between s.writer [] _ _ .ended s.writer s.files
      rw [hfiles]
      exact .last _
    · exact ⟨_, [], .header _ f files, rfl, (List.append_nil _).symm, rfl⟩
  · rw [← Option.some.inj hstep]
    exact ⟨[], [], .opens _ f _, (List.append_nil _).symm, (List.append_nil _).symm, rfl⟩
  · dsimp only at hstep
    split_ifs at hstep with hnil hn
    · rw [← Option.some.inj hstep, hnil]
      exact ⟨[], [], .closes _ _, (List.append_nil _).symm, (List.append_nil _).symm, rfl⟩
    · rw [← Option.some.inj hstep]
      refine ⟨[], left.take n, ?_, (List.append_nil _).symm, rfl, rfl⟩
      conv in TwrpStage.writing left => rw [← List.take_append_drop n left]
      exact .writes _ _ _ _
  · rw [← Option.some.inj hstep]
    exact ⟨_, [], .eof _ _, rfl, (List.append_nil _).symm, rfl⟩
  · cases hstep

theorem twrpStep_backup (hstep : s.twrpStep sums n = some t) : t.backup = s.backup := by
  by_cases hstage : s.stage = .start
  · unfold AdbSystem.twrpStep at hstep
    rw [hstage] at hstep
    rw [← Option.some.inj hstep]
    rfl
  · obtain ⟨_, _, -, -, -, hbackup⟩ := twrpStep_turn hstage hstep
    exact hbackup

theorem Ahead.stage_ne {control : List Bytes} {pipe : Bytes} {writer : Bool}
    {left : List AdbFile} (h : Ahead sums remaining control pipe s.stage writer left) :
    s.stage ≠ .start := by
  generalize s.stage = stage at h
  rintro rfl
  generalize hstart : TwrpStage.start = stage at h
  induction h with
  | between | opening | writing | written | ended => cases hstart
  | file f h ih => exact ih hstart

theorem Synced.twrp (h : Synced sums files s) (hstep : s.twrpStep sums n = some t) :
    Synced sums files t := by
  rcases h with ⟨hstage, hfiles, hcontrol, hpipe, hwriter, hidle⟩ |
    ⟨next, hcontrol, hahead, hidle⟩ | ⟨finished, remaining, hfiles, hahead, hidle⟩ |
    ⟨finished, f, remaining, read, hfiles, hahead, hread, hbusy⟩ |
    ⟨finished, f, remaining, read, rest, hfiles, hahead, hpipe, hread, hpos, hcarries⟩ |
    ⟨hpos, hadbd⟩
  · unfold AdbSystem.twrpStep at hstep
    rw [hstage] at hstep
    rw [← Option.some.inj hstep]
    refine .greeting [] ?_ ?_ hidle
    · change s.control ++ [streamHeader sums s.files.length] = _
      rw [hcontrol, hfiles]
      rfl
    · change Ahead sums files [] s.pipe .between s.writer s.files
      rw [hpipe, hwriter, hfiles]
      exact .between files
  · obtain ⟨msgs, bs, hturn, hcontrol', hpipe', hbackup⟩ := twrpStep_turn hahead.stage_ne hstep
    refine .greeting (next ++ msgs) ?_ ?_ (hbackup ▸ hidle)
    · rw [hcontrol', hcontrol]
      rfl
    · rw [hpipe']
      exact hahead.turn hturn
  · obtain ⟨msgs, bs, hturn, hcontrol', hpipe', hbackup⟩ := twrpStep_turn hahead.stage_ne hstep
    refine .idle finished remaining hfiles ?_ (hbackup ▸ hidle)
    rw [hcontrol', hpipe']
    exact hahead.turn hturn
  · obtain ⟨msgs, bs, hturn, hcontrol', hpipe', hbackup⟩ := twrpStep_turn hahead.stage_ne hstep
    refine .busy finished f remaining read hfiles ?_ hread (hbackup ▸ hbusy)
    rw [hcontrol', hpipe', ← List.append_assoc]
    exact hahead.turn hturn
  · obtain ⟨msgs, bs, hturn, hcontrol', hpipe', hbackup⟩ := twrpStep_turn hahead.stage_ne hstep
    refine .draining finished f remaining read (rest ++ bs) hfiles ?_ ?_ hread (hbackup ▸ hpos)
      (hbackup ▸ hcarries)
    · rw [hcontrol']
      exact hahead.turn hturn
    · rw [hpipe', ← List.append_assoc, hpipe, List.append_assoc]
  · have hbackup := twrpStep_backup hstep
    exact .returned (hbackup ▸ hpos) (hbackup ▸ hadbd)

end twrp

section backup
variable {b : Backup} {f : AdbFile} {read out : Bytes}

theorem readData_cases (h : s.readData sums n = some t) :
    s.pipe = [] ∧
        t = { s with backup := s.backup.onRead sums (if s.writer then .again else .eof) } ∨
      ∃ bs rest, bs ≠ [] ∧ bs.length = n ∧ n ≤ s.backup.requested ∧ s.pipe = bs ++ rest ∧
        t = { s with backup := s.backup.onRead sums (.bytes bs), pipe := rest } := by
  rw [AdbSystem.readData] at h
  by_cases hpipe : s.pipe = []
  · rw [if_pos hpipe] at h
    exact .inl ⟨hpipe, (Option.some.inj h).symm⟩
  · rw [if_neg hpipe, Option.ite_none_right_eq_some] at h
    obtain ⟨hn, h⟩ := h
    have hlen : (s.pipe.take n).length = n := by
      rw [List.length_take]
      omega
    exact .inr ⟨s.pipe.take n, s.pipe.drop n, List.ne_nil_of_length_pos (by omega), hlen, hn.2.2,
      (List.take_append_drop n s.pipe).symm, (Option.some.inj h).symm⟩

theorem backupStep_control (hpos : s.backup.pos = .control)
    (h : s.backupStep sums n = some t) :
    t = { s with backup := s.backup.onControl s.control.head?, control := s.control.tail } := by
  unfold AdbSystem.backupStep at h
  rw [hpos] at h
  exact (Option.some.inj h).symm

theorem backupStep_data (hpos : s.backup.pos ≠ .control) (h : s.backupStep sums n = some t) :
    s.readData sums n = some t := by
  unfold AdbSystem.backupStep at h
  rcases hp : s.backup.pos with _ | _ | _ | left | ok <;> rw [hp] at h
  · exact absurd hp hpos
  · exact h
  · exact h
  · exact h
  · cases h

theorem Idle.onNothing (h : Idle b out) (hpos : b.pos = .data) {result : ReadResult}
    (hresult : ∀ bs, result ≠ .bytes bs) : Idle (b.onRead sums result) out := by
  unfold Backup.onRead
  rw [hpos]
  rcases result with bs | _ | _
  · exact absurd rfl (hresult bs)
  · exact ⟨.inl rfl, h.adbd, h.fileBytes, h.dataChunkBytes, h.firstDataPacket⟩
  · exact ⟨.inl rfl, h.adbd, h.fileBytes, h.dataChunkBytes, h.firstDataPacket⟩

theorem Busy.pos (h : Busy sums b f read out) :
    b.pos = .control ∨ b.pos = .data ∨ ∃ left, b.pos = .chunkEnd left := by
  rcases h.chunk with hchunk | ⟨-, hpos | hpos⟩
  · rcases hchunk.pos with ⟨hpos | hpos, -⟩ | ⟨hpos, -⟩
    · exact .inl hpos
    · exact .inr (.inl hpos)
    · exact .inr (.inr ⟨_, hpos⟩)
  · exact .inl hpos
  · exact .inr (.inl hpos)

theorem Busy.atData (h : Busy sums b f read out) (hpos : b.pos = .data) :
    InChunk b read ∧ read.length % chunkData ≤ chunkData - maxAdbRead ∨ read = f.payload := by
  rcases h.chunk with hchunk | ⟨hread, -⟩
  · rcases hchunk.pos with ⟨-, hroom⟩ | ⟨hend, -⟩
    · exact .inl ⟨hchunk, hroom⟩
    · rw [hpos] at hend
      cases hend
  · exact .inr hread

theorem Busy.atChunkEnd (h : Busy sums b f read out) {left : ℕ} (hpos : b.pos = .chunkEnd left) :
    InChunk b read ∧ left = chunkData - read.length % chunkData ∧ read ≠ [] := by
  rcases h.chunk with hchunk | ⟨-, hpos' | hpos'⟩
  · rcases hchunk.pos with ⟨hpos' | hpos', -⟩ | ⟨hpos', hend⟩
    · rw [hpos] at hpos'
      cases hpos'
    · rw [hpos] at hpos'
      cases hpos'
    · rw [hpos] at hpos'
      refine ⟨hchunk, BackupPos.chunkEnd.inj hpos', ?_⟩
      rintro rfl
      exact absurd hend (Nat.not_lt_zero _)
  · rw [hpos] at hpos'
    cases hpos'
  · rw [hpos] at hpos'
    cases hpos'

/-- An end of file in the middle of a chunk comes after the whole payload only. -/
theorem Busy.onNothing (h : Busy sums b f read out) (hpos : b.pos ≠ .control)
    {result : ReadResult} (hresult : ∀ bs, result ≠ .bytes bs)
    (heof : result = .eof → read ≠ [] → read = f.payload) :
    Busy sums (b.onRead sums result) f read out := by
  have hcarries := h.carries
  unfold Backup.onRead
  rcases h.pos with hp | hp | ⟨left, hp⟩
  · exact absurd hp hpos
  · have hnext : Busy sums { b with pos := .control } f read out := by
      refine ⟨⟨hcarries.adbd, hcarries.digested, hcarries.md5fnsize, hcarries.fileBytes,
        hcarries.writedata⟩, ?_⟩
      rcases h.atData hp with ⟨hchunk, hroom⟩ | hread
      · exact .inl ⟨hchunk.firstDataPacket, hchunk.dataChunkBytes, .inl ⟨.inl rfl, hroom⟩⟩
      · exact .inr ⟨hread, .inl rfl⟩
    rw [hp]
    rcases result with bs | _ | _
    · exact absurd rfl (hresult bs)
    · exact hnext
    · exact hnext
  · rw [hp]
    rcases result with bs | _ | _
    · exact absurd rfl (hresult bs)
    · exact h
    · exact ⟨hcarries.closeChunk, .inr ⟨heof rfl (h.atChunkEnd hp).2.2, .inr rfl⟩⟩

theorem Busy.onBytes (h : Busy sums b f read out) (hpos : b.pos ≠ .control) {bs : Bytes}
    (hbs : bs ≠ []) (hlen : bs.length ≤ b.requested) (hread : read ≠ f.payload) :
    Busy sums (b.onRead sums (.bytes bs)) f (read ++ bs) out := by
  rw [Backup.requested] at hlen
  rcases h.pos with hp | hp | ⟨left, hp⟩
  · exact absurd hp hpos
  · rcases h.atData hp with ⟨hchunk, -⟩ | hread'
    · rw [hp] at hlen
      obtain ⟨hcarries, hchunk'⟩ := h.carries.onData hchunk hp hbs hlen
      unfold Backup.onRead
      rw [hp]
      exact ⟨hcarries, .inl hchunk'⟩
    · exact absurd hread' hread
  · rw [hp] at hlen
    obtain ⟨hcarries, hchunk'⟩ := h.carries.onChunkEnd (h.atChunkEnd hp).1 hp hbs hlen
    exact ⟨hcarries, .inl hchunk'⟩

/-- A settled read finds nothing, or data of files whose header has been read. -/
theorem settled_read (h : settled files s (.backup n) = true)
    (hpos : s.backup.pos = .data ∨ ∃ left, s.backup.pos = .chunkEnd left)
    {finished : List AdbFile} (hfiles : files = finished ++ remaining)
    (hcount : s.files.length + s.control.countP isHeader = remaining.length) :
    s.pipe = [] ∨ (remaining.flatMap AdbFile.payload).length + n ≤ s.unread.length := by
  have hunannounced : s.unannounced files = remaining := by
    rw [AdbSystem.unannounced, hcount, hfiles, List.length_append, Nat.add_sub_cancel,
      List.drop_left]
  rcases hpos with hpos | ⟨left, hpos⟩ <;>
  · rw [settled, hpos, hunannounced] at h
    dsimp only at h
    rwa [Bool.or_eq_true, List.isEmpty_iff, decide_eq_true_eq] at h

theorem settled_drain (h : settled files s (.backup n) = true) (hpos : s.backup.pos = .drain) :
    s.pipe = [] ∧ s.writer = false := by
  rw [settled, hpos] at h
  dsimp only at h
  rwa [Bool.and_eq_true, List.isEmpty_iff, Bool.not_eq_true'] at h

/-- While no file is open, a settled read finds nothing. -/
theorem Idle.readData (h : Idle s.backup out) (hpos : s.backup.pos ≠ .control)
    (hsettled : settled files s (.backup n) = true) {finished : List AdbFile}
    (hfiles : files = finished ++ remaining)
    (hcount : s.files.length + s.control.countP isHeader = remaining.length)
    (hunread : s.unread = remaining.flatMap AdbFile.payload)
    (hstep : s.readData sums n = some t) :
    Idle t.backup out ∧ t = { s with backup := t.backup } := by
  rcases readData_cases hstep with ⟨-, rfl⟩ | ⟨bs, rest, hbs, hlen, -, hpipe, -⟩
  · refine ⟨h.onNothing (h.pos.resolve_left hpos) fun bs => ?_, rfl⟩
    split_ifs <;> exact ReadResult.noConfusion
  · have hpos' := List.length_pos_iff.mpr hbs
    rcases settled_read hsettled (.inl (h.pos.resolve_left hpos)) hfiles hcount with hnil | hle
    · rw [hpipe] at hnil
      exact absurd (List.append_eq_nil_iff.mp hnil).1 hbs
    · rw [hunread] at hle
      omega

/-- A settled read while a file is open finds nothing, or data of this file. -/
theorem Busy.readData (h : Busy sums s.backup f read out) (hpos : s.backup.pos ≠ .control)
    (hsettled : settled files s (.backup n) = true) {finished : List AdbFile}
    (hfiles : files = finished ++ f :: remaining)
    (hahead : Ahead sums (f :: remaining) (f.header sums :: s.control) (read ++ s.pipe) s.stage
      s.writer s.files)
    (hread : read <+: f.payload) (hstep : s.readData sums n = some t) :
    ∃ bs, Busy sums t.backup f (read ++ bs) out ∧ read ++ bs <+: f.payload ∧
      s.pipe = bs ++ t.pipe ∧ t.control = s.control ∧ t.stage = s.stage ∧ t.files = s.files ∧
        t.writer = s.writer := by
  rcases readData_cases hstep with ⟨hpipe, rfl⟩ | ⟨bs, rest, hbs, hlen, hn, hpipe, rfl⟩
  · refine ⟨[], ?_, ?_, rfl, rfl, rfl, rfl, rfl⟩
    · rw [List.append_nil]
      refine h.onNothing hpos (fun bs => ?_) fun hresult hne => ?_
      · split_ifs <;> exact ReadResult.noConfusion
      · have hwriter : s.writer = false := by
          by_contra hwriter
          rw [if_pos (Bool.not_eq_false _ ▸ hwriter)] at hresult
          cases hresult
        rw [hpipe, List.append_nil, hwriter] at hahead
        exact hahead.payload_of_closed hread hne
    · rw [List.append_nil]
      exact hread
  · have hcount := hahead.count
    rw [List.countP_cons, if_pos (isHeader_header f), List.length_cons] at hcount
    have hunread : read ++ s.unread = f.payload ++ remaining.flatMap AdbFile.payload := by
      have hall := hahead.unread
      rw [List.append_assoc, List.append_assoc, ← List.append_assoc s.pipe] at hall
      exact hall
    have hown : read ++ bs <+: f.payload := by
      rcases settled_read hsettled (h.pos.resolve_left hpos)
        (hfiles.trans (List.append_cons finished f remaining)) (by omega) with hnil | hle
      · rw [hpipe] at hnil
        exact absurd (List.append_eq_nil_iff.mp hnil).1 hbs
      -- the bytes begin what has not been read, and all behind the file's own is of other files
      have hwhole : read ++ bs <+: f.payload ++ remaining.flatMap AdbFile.payload := by
        rw [← hunread, AdbSystem.unread, hpipe]
        simp only [List.append_assoc, List.prefix_append_right_inj, List.prefix_append]
      refine List.prefix_of_prefix_length_le hwhole (List.prefix_append _ _) ?_
      have htotal := congrArg List.length hunread
      simp only [List.length_append] at htotal ⊢
      omega
    refine ⟨bs, h.onBytes hpos hbs (hlen ▸ hn) ?_, hown, hpipe, rfl, rfl, rfl, rfl⟩
    rintro rfl
    have hle := hown.length_le
    rw [List.length_append] at hle
    exact hbs (List.length_eq_zero_iff.mp (by omega))

/-- `backup` reads the next message while no file is open. -/
theorem Ahead.onControl {finished : List AdbFile} (hfiles : files = finished ++ remaining)
    (h : Ahead sums remaining s.control s.pipe s.stage s.writer s.files)
    (hidle : Idle s.backup (streamOf sums files.length finished)) :
    Synced sums files
      { s with backup := s.backup.onControl s.control.head?, control := s.control.tail } := by
  rcases h.next with hnone | ⟨f, rest, msgs, rfl, hmsgs⟩ | ⟨rfl, hend⟩
  · rw [hnone] at h ⊢
    exact .idle finished remaining hfiles h hidle.toData
  · rw [hmsgs] at h ⊢
    exact .busy finished f rest [] hfiles h List.nil_prefix (hidle.onHeader f)
  · rw [List.append_nil] at hfiles
    rw [hend, List.head?_cons, onControl_endadb]
    refine .returned rfl ?_
    change s.backup.adbd ++ controlBlock sums TWENDADB = _
    rw [hidle.adbd, hfiles]

/-- The last read of a file closes it. -/
theorem Synced.drained {finished : List AdbFile} {f : AdbFile} {read rest : Bytes}
    (hfiles : files = finished ++ f :: remaining)
    (hahead : Ahead sums remaining s.control rest s.stage s.writer s.files)
    (hpipe : read ++ s.pipe = f.payload ++ rest) (hread : read <+: f.payload)
    (hpos : s.backup.pos = .drain)
    (hcarries : Carries sums s.backup f read (streamOf sums files.length finished))
    (hsettled : settled files s (.backup n) = true) (hstep : s.backupStep sums n = some t) :
    Synced sums files t := by
  -- the data fifo is empty and closed, so the payload is complete
  obtain ⟨hnil, hwriter⟩ := settled_drain hsettled hpos
  rw [hnil, List.append_nil] at hpipe
  have hall : read = f.payload :=
    hread.eq_of_length_le (by rw [hpipe, List.length_append]; exact Nat.le_add_right _ _)
  rw [hall, List.self_eq_append_right] at hpipe
  rw [hall] at hcarries
  have hstep := backupStep_data (by rw [hpos]; exact BackupPos.noConfusion) hstep
  rcases readData_cases hstep with ⟨-, rfl⟩ | ⟨bs, rest, hbs, -, -, hpipe', -⟩
  · refine .idle (finished ++ [f]) remaining (by rw [hfiles]; simp) ?_ ?_
    · change Ahead sums remaining s.control s.pipe s.stage s.writer s.files
      rw [hnil, ← hpipe]
      exact hahead
    · have hidle := hcarries.finishFile
      rw [streamOf, List.flatMap_append, List.flatMap_singleton, ← List.append_assoc, ← streamOf]
      unfold Backup.onRead
      rw [hpos, hwriter]
      exact hidle
  · rw [hnil] at hpipe'
    exact absurd (List.append_eq_nil_iff.mp hpipe'.symm).1 hbs

theorem Synced.backup (h : Synced sums files s) (hsettled : settled files s (.backup n) = true)
    (hstep : s.backupStep sums n = some t) : Synced sums files t := by
  rcases h with ⟨hstage, hfiles, hcontrol, hpipe, hwriter, hidle⟩ |
    ⟨next, hcontrol, hahead, hidle⟩ | ⟨finished, remaining, hfiles, hahead, hidle⟩ |
    ⟨finished, f, remaining, read, hfiles, hahead, hread, hbusy⟩ |
    ⟨finished, f, remaining, read, rest, hfiles, hahead, hpipe, hread, hpos, hcarries⟩ |
    ⟨hpos, hadbd⟩
  · by_cases hpos : s.backup.pos = .control
    · rw [backupStep_control hpos hstep, hcontrol]
      exact .fresh hstage hfiles rfl hpipe hwriter hidle.toData
    · have hunread : s.unread = files.flatMap AdbFile.payload := by
        rw [AdbSystem.unread, hpipe, hstage, hfiles]
        rfl
      obtain ⟨hidle', ht⟩ := hidle.readData hpos hsettled (List.nil_append files).symm
        (by rw [hfiles, hcontrol]; rfl) hunread (backupStep_data hpos hstep)
      rw [ht]
      exact .fresh hstage hfiles hcontrol hpipe hwriter hidle'
  · by_cases hpos : s.backup.pos = .control
    · rw [backupStep_control hpos hstep, hcontrol]
      refine .idle [] files rfl hahead ?_
      rw [streamOf, List.flatMap_nil, List.append_nil]
      exact hidle.onStreamHeader files.length
    · have hcount : s.files.length + s.control.countP isHeader = files.length := by
        rw [hcontrol, List.countP_cons_of_neg (by rw [isHeader, getType_streamHeader]; decide)]
        exact hahead.count
      obtain ⟨hidle', ht⟩ := hidle.readData hpos hsettled (List.nil_append files).symm hcount
        hahead.unread (backupStep_data hpos hstep)
      rw [ht]
      exact .greeting next hcontrol hahead hidle'
  · by_cases hpos : s.backup.pos = .control
    · rw [backupStep_control hpos hstep]
      exact hahead.onControl hfiles hidle
    · obtain ⟨hidle', ht⟩ := hidle.readData hpos hsettled hfiles hahead.count hahead.unread
        (backupStep_data hpos hstep)
      rw [ht]
      exact .idle finished remaining hfiles hahead hidle'
  · by_cases hpos : s.backup.pos = .control
    · rw [backupStep_control hpos hstep]
      rcases hahead.afterHeader with hnone | ⟨next, rest, heof, hpipe, hahead'⟩
      · rw [hnone] at hahead ⊢
        exact .busy finished f remaining read hfiles hahead hread (hbusy.toData hpos)
      · have hcarries := hbusy.carries
        rw [heof, List.head?_cons, onControl_eof]
        exact .draining finished f remaining read rest hfiles hahead' hpipe hread rfl
          ⟨hcarries.adbd, hcarries.digested, hcarries.md5fnsize, hcarries.fileBytes,
            hcarries.writedata⟩
    · obtain ⟨bs, hbusy', hread', hpipe, hcontrol, hstage, hleft, hwriter⟩ :=
        hbusy.readData hpos hsettled hfiles hahead hread (backupStep_data hpos hstep)
      refine .busy finished f remaining (read ++ bs) hfiles ?_ hread' hbusy'
      rw [hcontrol, hstage, hleft, hwriter, List.append_assoc, ← hpipe]
      exact hahead
  · exact .drained hfiles hahead hpipe hread hpos hcarries hsettled hstep
  · unfold AdbSystem.backupStep at hstep
    rw [hpos] at hstep
    cases hstep

/-- A settled run keeps `backup` and TWRP in step, however they take turns. -/
theorem Synced.run {steps : List AdbStep} (h : Synced sums files s)
    (hrun : s.run sums steps = some t) (hall : settledSteps sums files steps s = true) :
    Synced sums files t := by
  induction steps generalizing s with
  | nil => exact Option.some.inj hrun ▸ h
  | cons a steps ih =>
    obtain ⟨u, hstep, hrest⟩ := Option.bind_eq_some_iff.mp hrun
    rw [settledSteps, hstep, Bool.and_eq_true] at hall
    rcases a with n | n
    · exact ih (h.twrp hstep) hrest hall.2
    · exact ih (h.backup hall.1 hstep) hrest hall.2

theorem synced_start (files : List AdbFile) : Synced sums files (AdbSystem.start files) :=
  .fresh rfl rfl rfl rfl rfl ⟨.inl rfl, rfl, rfl, rfl, rfl⟩

theorem SettledRun.synced {steps : List AdbStep}
    (h : SettledRun sums steps (AdbSystem.start files) s) : Synced sums files s :=
  (synced_start files).run h.1 h.2

end backup

/-- What a stream holds after the files that are complete: nothing, or a file of which `read` has
come through, or the end of the stream. -/
inductive StreamTail (sums : Checksums) : List AdbFile → Bytes → Prop
  | nothing (rest : List AdbFile) : StreamTail sums rest []
  | part (f : AdbFile) (rest : List AdbFile) (read : Bytes) (hread : read <+: f.payload) :
    StreamTail sums (f :: rest) (f.header sums ++ framedPayload sums read)
  | endadb : StreamTail sums [] (controlBlock sums TWENDADB)

theorem Synced.stream (h : Synced sums files s) :
    s.backup.adbd = [] ∨ ∃ finished rest tail, files = finished ++ rest ∧
      s.backup.adbd = streamOf sums files.length finished ++ tail ∧ StreamTail sums rest tail := by
  rcases h with ⟨-, -, -, -, -, hidle⟩ | ⟨_, -, -, hidle⟩ |
    ⟨finished, remaining, hfiles, -, hidle⟩ |
    ⟨finished, f, remaining, read, hfiles, -, hread, hbusy⟩ |
    ⟨finished, f, remaining, read, _, hfiles, -, -, hread, -, hcarries⟩ | ⟨-, hadbd⟩
  · exact .inl hidle.adbd
  · exact .inl hidle.adbd
  · refine .inr ⟨finished, remaining, [], hfiles, ?_, .nothing _⟩
    rw [hidle.adbd, List.append_nil]
  · refine .inr ⟨finished, _, _, hfiles, ?_, .part f remaining read hread⟩
    rw [hbusy.carries.adbd, List.append_assoc]
  · refine .inr ⟨finished, _, _, hfiles, ?_, .part f remaining read hread⟩
    rw [hcarries.adbd, List.append_assoc]
  · exact .inr ⟨files, [], _, (List.append_nil _).symm, hadbd, .endadb⟩

theorem Synced.complete (h : Synced sums files s) (hpos : s.backup.pos = .returned true) :
    s.backup.adbd = streamOf sums files.length files ++ controlBlock sums TWENDADB := by
  have hopen : ∀ {f : AdbFile} {read out : Bytes}, ¬Busy sums s.backup f read out := by
    intro f read out hbusy
    rcases hbusy.pos with hpos' | hpos' | ⟨_, hpos'⟩ <;> rw [hpos] at hpos' <;> cases hpos'
  have hnone : ∀ {out : Bytes}, ¬Idle s.backup out := by
    intro out hidle
    rcases hidle.pos with hpos' | hpos' <;> rw [hpos] at hpos' <;> cases hpos'
  rcases h with ⟨-, -, -, -, -, hidle⟩ | ⟨_, -, -, hidle⟩ | ⟨_, _, -, -, hidle⟩ |
    ⟨_, _, _, _, -, -, -, hbusy⟩ | ⟨_, _, _, _, _, -, -, -, -, hdrain, -⟩ | ⟨-, hadbd⟩
  · exact absurd hidle hnone
  · exact absurd hidle hnone
  · exact absurd hidle hnone
  · exact absurd hbusy hopen
  · rw [hpos] at hdrain
    cases hdrain
  · exact hadbd

/-- In a settled run the stream holds the files in their order, every payload once, whole and
framed, and its digest with the padding behind it. -/
theorem backup_stream (sums : Checksums) (files : List AdbFile) (steps : List AdbStep)
    (s : AdbSystem) (hrun : SettledRun sums steps (AdbSystem.start files) s) :
    (s.backup.adbd = [] ∨ ∃ finished rest tail, files = finished ++ rest ∧
        s.backup.adbd = streamOf sums files.length finished ++ tail ∧ StreamTail sums rest tail) ∧
      (s.backup.pos = .returned true →
        s.backup.adbd = streamOf sums files.length files ++ controlBlock sums TWENDADB) := by
  exact ⟨hrun.synced.stream, hrun.synced.complete⟩

/-- In every run that ends well, the digest in each trailer is that of the payload alone. -/
def LosesNothing (sums : Checksums) (files : List AdbFile) : Prop :=
  ∀ steps s, (AdbSystem.start files).run sums steps = some s → s.backup.pos = .returned true →
    ∃ padding : AdbFile → ℕ, s.backup.adbd =
      streamHeader sums files.length ++
        files.flatMap (fun f => fileStream sums f (padding f) f.payload) ++
        controlBlock sums TWENDADB

/-! A payload of one byte in a settled run, and two runs that are not settled. -/

/-- A digest that tells the payload from the padded payload. -/
def lengthSums : Checksums where
  crc32 _ := 0
  md5 digested := if digested.length = 1 then [1] else [2]

def smallFile (payload : Bytes) : AdbFile := ⟨.image, [], payload.length, 0, payload⟩

/-- Each message and the byte are read before the next one is written. -/
def settledByteSteps : List AdbStep :=
  [.twrp 0, .backup 0, .twrp 0, .backup 0, .backup 0, .twrp 0, .twrp 1, .backup 0, .backup 1,
    .backup 0, .twrp 0, .twrp 0, .backup 0, .backup 0, .twrp 0, .backup 0]

theorem not_losesNothing : ¬LosesNothing lengthSums [smallFile [7]] := by
  intro h
  have hreturned : ((AdbSystem.start [smallFile [7]]).run lengthSums settledByteSteps).map
      (fun s => s.backup.pos) = some (.returned true) := by decide +kernel
  obtain ⟨s, hrun, hpos⟩ := Option.map_eq_some_iff.mp hreturned
  have hsettled : settledSteps lengthSums [smallFile [7]] settledByteSteps
      (AdbSystem.start [smallFile [7]]) = true := by decide +kernel
  have hstream := ((synced_start _).run hrun hsettled).complete hpos
  obtain ⟨padding, hclaimed⟩ := h _ s hrun hpos
  rw [hstream] at hclaimed
  have hfiles := List.append_cancel_right hclaimed
  rw [streamOf, List.flatMap_singleton, List.flatMap_singleton] at hfiles
  have htrailer := (List.append_inj' (List.append_cancel_left hfiles) (by
    rw [md5Trailer_length, md5Trailer_length])).2
  have hdigest := congrArg (fun l : Bytes => (l.drop 32).take 40) htrailer
  simp only [md5Trailer_md5] at hdigest
  have hpadding : (smallFile [7]).padding lengthSums = 1048063 := by decide +kernel
  have hpadded : lengthSums.md5 ((smallFile [7]).payload ++
      zeros ((smallFile [7]).padding lengthSums)) = [2] := by
    have hmd5 : ∀ l : Bytes, l.length ≠ 1 → lengthSums.md5 l = [2] := fun l hl => if_neg hl
    refine hmd5 _ ?_
    rw [hpadding, List.length_append, zeros, List.length_replicate]
    exact Nat.ne_of_gt (Nat.lt_add_left _ (by decide))
  rw [hpadded] at hdigest
  exact absurd hdigest (by decide)

/-- TWEOF is read while two bytes are in the data fifo: the drain loop writes one of them. -/
def drainSteps : List AdbStep :=
  [.twrp 0, .backup 0, .twrp 0, .backup 0, .backup 0, .twrp 0, .twrp 2, .twrp 0, .twrp 0, .backup 0,
    .backup 2, .backup 0, .twrp 0, .backup 0]

theorem drained_byte_lost : ∃ s, (AdbSystem.start [smallFile [7, 9]]).run lengthSums drainSteps =
      some s ∧ s.backup.pos = .returned true ∧
    s.backup.adbd ≠ streamOf lengthSums 1 [smallFile [7, 9]] ++
      controlBlock lengthSums TWENDADB := by
  have hrun : ((AdbSystem.start [smallFile [7, 9]]).run lengthSums drainSteps).map
      (fun s => (s.backup.pos, (s.backup.adbd.drop 1024).take 2)) =
        some (.returned true, [7, 0]) := by decide +kernel
  obtain ⟨s, hs, hrest⟩ := Option.map_eq_some_iff.mp hrun
  obtain ⟨hpos, hadbd⟩ := Prod.mk.inj hrest
  refine ⟨s, hs, hpos, fun heq => ?_⟩
  rw [heq] at hadbd
  have hstream : ((streamOf lengthSums 1 [smallFile [7, 9]] ++
      controlBlock lengthSums TWENDADB).drop 1024).take 2 = [84, 87] := by decide +kernel
  rw [hstream] at hadbd
  exact absurd hadbd (by decide)

/-- The second file is in the data fifo before the TWEOF of the first one is read. -/
def earlySteps : List AdbStep :=
  [.twrp 0, .backup 0, .twrp 0, .backup 0, .twrp 0, .twrp 1, .twrp 0, .twrp 0, .twrp 0, .twrp 0,
    .twrp 1, .backup 1, .backup 1, .backup 0, .backup 0, .twrp 0, .backup 0, .twrp 0, .backup 0,
    .backup 0, .backup 0, .backup 0, .twrp 0, .backup 0]

theorem early_byte_misplaced : ∃ s, (AdbSystem.start [smallFile [7], smallFile [9]]).run lengthSums
      earlySteps = some s ∧ s.backup.pos = .returned true ∧
    s.backup.adbd ≠ streamOf lengthSums 2 [smallFile [7], smallFile [9]] ++
      controlBlock lengthSums TWENDADB := by
  have hrun : ((AdbSystem.start [smallFile [7], smallFile [9]]).run lengthSums earlySteps).map
      (fun s => (s.backup.pos, (s.backup.adbd.drop 1536).take 2)) =
        some (.returned true, [7, 9]) := by decide +kernel
  obtain ⟨s, hs, hrest⟩ := Option.map_eq_some_iff.mp hrun
  obtain ⟨hpos, hadbd⟩ := Prod.mk.inj hrest
  refine ⟨s, hs, hpos, fun heq => ?_⟩
  rw [heq] at hadbd
  have hstream : ((streamOf lengthSums 2 [smallFile [7], smallFile [9]] ++
      controlBlock lengthSums TWENDADB).drop 1536).take 2 = [7, 0] := by decide +kernel
  rw [hstream] at hadbd
  exact absurd hadbd (by decide)

/-- TWRP writes the first file before its header is read, and sends the header of the second one
before the TWEOF of the first one is read. -/
def aheadSteps : List AdbStep :=
  [.twrp 0, .twrp 0, .twrp 0, .twrp 1, .backup 0, .backup 0, .twrp 2, .backup 1, .twrp 0, .twrp 0,
    .twrp 0, .backup 2, .backup 0, .backup 0, .backup 0, .backup 0, .twrp 0, .twrp 1, .backup 1,
    .backup 0, .twrp 0, .twrp 0, .backup 0, .backup 0, .twrp 0, .backup 0]

/-- The settled run of two files. -/
theorem backup_stream_byte : ∃ s, (AdbSystem.start [smallFile [7, 8, 9], smallFile [5]]).run
      lengthSums aheadSteps = some s ∧ s.backup.pos = .returned true ∧
    ((s.backup.adbd = [] ∨ ∃ finished rest tail,
        [smallFile [7, 8, 9], smallFile [5]] = finished ++ rest ∧
        s.backup.adbd = streamOf lengthSums 2 finished ++ tail ∧ StreamTail lengthSums rest tail) ∧
      (s.backup.pos = .returned true →
        s.backup.adbd = streamOf lengthSums 2 [smallFile [7, 8, 9], smallFile [5]] ++
          controlBlock lengthSums TWENDADB)) := by
  have hreturned : ((AdbSystem.start [smallFile [7, 8, 9], smallFile [5]]).run lengthSums
      aheadSteps).map (fun s => s.backup.pos) = some (.returned true) := by decide +kernel
  obtain ⟨s, hrun, hpos⟩ := Option.map_eq_some_iff.mp hreturned
  have hsettled : settledSteps lengthSums [smallFile [7, 8, 9], smallFile [5]] aheadSteps
      (AdbSystem.start [smallFile [7, 8, 9], smallFile [5]]) = true := by decide +kernel
  exact ⟨s, hrun, hpos, backup_stream lengthSums _ aheadSteps s ⟨hrun, hsettled⟩⟩

end BootableRecovery.Adbbu
