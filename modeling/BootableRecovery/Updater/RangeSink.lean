import BootableRecovery.Lib.BlockBytes
import BootableRecovery.Otautil.RangeFormat
import BootableRecovery.Updater.BlockImg

namespace BootableRecovery.Updater
open Lib Otautil

/-! `RangeSinkWriter` on a device whose calls succeed. -/

/-- Bytes are written at an offset, or a part of the device is discarded. -/
inductive DeviceEvent
  | write (offset : ℕ) (data : List UInt8)
  | discard (offset size : ℕ)
deriving DecidableEq

/-- The members of the class, the file offset of its descriptor, and what was done so far. -/
structure RangeSinkWriter where
  nextRange : ℕ
  currentRangeLeft : ℕ
  bytesWritten : ℕ
  cursor : ℕ
  events : List DeviceEvent

namespace RangeSinkWriter

/-- The constructor, with the descriptor anywhere. -/
def start (cursor : ℕ) : RangeSinkWriter := ⟨0, 0, 0, cursor, []⟩

section writer
variable (isRetry : Bool) (tgt : RangeSet)

def finished (w : RangeSinkWriter) : Bool :=
  w.nextRange = tgt.ranges.length && w.currentRangeLeft = 0

def availableSpace (w : RangeSinkWriter) : ℕ :=
  u64 (u64 (tgt.blocks * blockSize) + (2 ^ 64 - w.bytesWritten))

/-- Blocks are discarded in a retry run only. -/
def discardBlocks (events : List DeviceEvent) (offset size : ℕ) : List DeviceEvent :=
  if isRetry then events ++ [.discard offset size] else events

/-- Moves to a range, which is discarded first in a retry run. -/
def openRange (w : RangeSinkWriter) (range : Range) : RangeSinkWriter :=
  let offset := u64 (range.1 * blockSize)
  let left := u64 ((range.2 - range.1) * blockSize)
  { w with
    nextRange := w.nextRange + 1
    currentRangeLeft := left
    cursor := offset
    events := discardBlocks isRetry w.events offset left }

def seekToOutputRange (w : RangeSinkWriter) : Option RangeSinkWriter :=
  if w.currentRangeLeft ≠ 0 then some w
  else (tgt.ranges[w.nextRange]?).map (w.openRange isRetry)

/-- `WriteFully` of the next bytes of a range. -/
def writeNow (w : RangeSinkWriter) (data : List UInt8) : RangeSinkWriter :=
  { w with
    currentRangeLeft := w.currentRangeLeft - data.length
    cursor := w.cursor + data.length
    events := w.events ++ [.write w.cursor data] }

theorem seek_decreases {w w' : RangeSinkWriter} (h : w.seekToOutputRange isRetry tgt = some w') :
    w'.currentRangeLeft ≠ 0 ∨
      tgt.ranges.length - w'.nextRange < tgt.ranges.length - w.nextRange := by
  unfold seekToOutputRange at h
  split_ifs at h with hleft
  · exact Or.inl (Option.some.inj h ▸ hleft)
  · obtain ⟨range, hrange, rfl⟩ := Option.map_eq_some_iff.mp h
    have hlt := (List.getElem?_eq_some_iff.mp hrange).1
    right
    simp only [openRange]
    omega

/-- The loop of `Write`. -/
def writeLoop (w : RangeSinkWriter) (data : List UInt8) (written : ℕ) : RangeSinkWriter × ℕ :=
  if _hdata : data = [] then (w, written)
  else
    match _hseek : w.seekToOutputRange isRetry tgt with
    | none => (w, written)
    | some w' =>
      let count := if w'.currentRangeLeft < data.length then w'.currentRangeLeft else data.length
      writeLoop (w'.writeNow (data.take count)) (data.drop count) (written + count)
termination_by (data.length, tgt.ranges.length - w.nextRange)
decreasing_by
  have hpos := List.length_pos_iff.mpr _hdata
  simp only [Prod.lex_def, List.length_drop, writeNow]
  rcases seek_decreases isRetry tgt _hseek with h | h
  · left
    split_ifs <;> omega
  · -- a range without bytes was opened, or bytes were taken
    split_ifs <;> omega

/-- `Write`, with the number of bytes that it returns. -/
def write (w : RangeSinkWriter) (data : List UInt8) : RangeSinkWriter × ℕ :=
  if w.finished tgt then (w, 0)
  else
    let result := w.writeLoop isRetry tgt data 0
    ({ result.1 with bytesWritten := u64 (result.1.bytesWritten + result.2) }, result.2)

/-- Successive calls of `Write`. -/
def writes (w : RangeSinkWriter) (chunks : List (List UInt8)) : RangeSinkWriter :=
  chunks.foldl (fun w data => (w.write isRetry tgt data).1) w

end writer

/-- The bytes that were written, with their offsets, in order. -/
def writtenBytes (events : List DeviceEvent) : List (ℕ × UInt8) :=
  events.flatMap fun
    | .write offset data => (List.range' offset data.length).zip data
    | .discard _ _ => []

/-- What an event leaves of a content; `erased` is what a discarded byte reads as. -/
def applyEvent (erased : ℕ → UInt8) (content : ℕ → UInt8) : DeviceEvent → ℕ → UInt8
  | .write offset data => fun p =>
    if offset ≤ p ∧ p < offset + data.length then data.getD (p - offset) 0 else content p
  | .discard offset size => fun p =>
    if offset ≤ p ∧ p < offset + size then erased p else content p

def contentAfter (erased content : ℕ → UInt8) (events : List DeviceEvent) : ℕ → UInt8 :=
  events.foldl (applyEvent erased) content

/-- The offsets of a target's bytes, in the order of its ranges. -/
def targetBytes (tgt : RangeSet) : List ℕ := blockBytes blockSize tgt.expand

section specs
variable {isRetry : Bool} {tgt : RangeSet} {erased content : ℕ → UInt8}

/-- The offsets that are still to be written. -/
def left (tgt : RangeSet) (w : RangeSinkWriter) : List ℕ :=
  List.range' w.cursor w.currentRangeLeft ++
    blockBytes blockSize (expandRanges (tgt.ranges.drop w.nextRange))

@[simp] theorem contentAfter_append (events more : List DeviceEvent) :
    contentAfter erased content (events ++ more) =
      contentAfter erased (contentAfter erased content events) more := by
  simp [contentAfter]

theorem contentAfter_discard {events : List DeviceEvent} {offset size p : ℕ}
    (hp : p ∉ List.range' offset size) :
    contentAfter erased content (discardBlocks isRetry events offset size) p =
      contentAfter erased content events p := by
  rw [List.mem_range'_1] at hp
  unfold discardBlocks
  split_ifs
  · rw [contentAfter_append]
    exact if_neg hp
  · rfl

@[simp] theorem writtenBytes_discard (events : List DeviceEvent) (offset size : ℕ) :
    writtenBytes (discardBlocks isRetry events offset size) = writtenBytes events := by
  unfold discardBlocks
  split_ifs
  · simp [writtenBytes]
  · rfl

/-- Everything is written exactly when no range is left, and none is open. -/
theorem left_eq_nil_iff {w : RangeSinkWriter} :
    left tgt w = [] ↔ w.currentRangeLeft = 0 ∧ tgt.ranges.length ≤ w.nextRange := by
  have hexpand : ∀ {rs : List Range}, (∀ r ∈ rs, r.1 < r.2) →
      (blockBytes blockSize (expandRanges rs) = [] ↔ rs = []) := by
    intro rs hproper
    cases rs with
    | nil => simp
    | cons r rs =>
      have hr := hproper r List.mem_cons_self
      have hpos : 0 < (r.2 - r.1) * blockSize := Nat.mul_pos (by omega) (by decide)
      rw [← List.length_eq_zero_iff, blockBytes_length, expandRanges_cons, List.length_append,
        List.length_range', Nat.add_mul]
      simp only [reduceCtorEq, iff_false]
      omega
  rw [left, List.append_eq_nil_iff, hexpand fun r hr => tgt.proper r (List.mem_of_mem_drop hr),
    List.drop_eq_nil_iff, ← List.length_eq_zero_iff, List.length_range']

theorem seek_none {w : RangeSinkWriter} (hleft : left tgt w = []) :
    w.seekToOutputRange isRetry tgt = none := by
  obtain ⟨hcur, hall⟩ := left_eq_nil_iff.mp hleft
  rw [seekToOutputRange, if_neg (not_not.mpr hcur), List.getElem?_eq_none hall, Option.map_none]

theorem zip_append_right {α β : Type*} (l : List α) (m n : List β) :
    l.zip (m ++ n) = l.zip m ++ (l.drop m.length).zip n := by
  induction m generalizing l with
  | nil => simp
  | cons b m ih =>
    cases l with
    | nil => simp
    | cons a l => simp [ih]

/-- What `Write` does with some bytes, from one state of the writer to another. -/
structure Wrote (tgt : RangeSet) (erased content : ℕ → UInt8) (w w' : RangeSinkWriter)
    (data : List UInt8) : Prop where
  left_eq : left tgt w' = (left tgt w).drop data.length
  written : writtenBytes w'.events = writtenBytes w.events ++ (left tgt w).zip data
  frame : ∀ p ∉ left tgt w,
    contentAfter erased content w'.events p = contentAfter erased content w.events p
  lands : (left tgt w).Nodup → ∀ q ∈ (left tgt w).zip data,
    contentAfter erased content w'.events q.1 = q.2

theorem Wrote.nothing {w : RangeSinkWriter} {data : List UInt8} (h : data = [] ∨ left tgt w = []) :
    Wrote tgt erased content w w data := by
  have hdrop : (left tgt w).drop data.length = left tgt w := by
    obtain rfl | h := h
    · rfl
    · rw [h, List.drop_nil]
  have hzip : (left tgt w).zip data = [] := by
    obtain rfl | h := h
    · exact List.zip_nil_right
    · rw [h, List.zip_nil_left]
  exact ⟨hdrop.symm, by rw [hzip, List.append_nil], fun p _ => rfl,
    fun _ q hq => by simp [hzip] at hq⟩

theorem Wrote.trans {w w' w'' : RangeSinkWriter} {first rest : List UInt8}
    (h : Wrote tgt erased content w w' first) (h' : Wrote tgt erased content w' w'' rest) :
    Wrote tgt erased content w w'' (first ++ rest) := by
  refine ⟨?_, ?_, fun p hp => ?_, fun hnodup q hq => ?_⟩
  · rw [h'.left_eq, h.left_eq, List.drop_drop, List.length_append]
  · rw [h'.written, h.written, h.left_eq, zip_append_right, List.append_assoc]
  · have hp' : p ∉ left tgt w' := fun hmem => hp (List.mem_of_mem_drop (h.left_eq ▸ hmem))
    rw [h'.frame p hp', h.frame p hp]
  · rw [zip_append_right, List.mem_append] at hq
    rcases hq with hq | hq
    · -- what was written first is no longer among what is left
      have hnot : q.1 ∉ left tgt w' := by
        rw [h.left_eq]
        have htake : q.1 ∈ (left tgt w).take first.length := by
          obtain ⟨i, hi, hget⟩ := List.getElem_of_mem hq
          rw [List.length_zip] at hi
          rw [← hget, List.getElem_zip]
          exact List.mem_take_iff_getElem.mpr ⟨i, by omega, rfl⟩
        rw [← List.take_append_drop first.length (left tgt w)] at hnodup
        exact fun hdrop => List.disjoint_of_nodup_append hnodup htake hdrop
      rw [h'.frame _ hnot]
      exact h.lands hnodup q hq
    · rw [← h.left_eq] at hq
      exact h'.lands (h.left_eq ▸ hnodup.sublist (List.drop_sublist _ _)) q hq

/-- Writing into the range that is open. -/
theorem Wrote.writeNow {w : RangeSinkWriter} {data : List UInt8}
    (hfit : data.length ≤ w.currentRangeLeft) :
    Wrote tgt erased content w (w.writeNow data) data := by
  have hsplit : left tgt w = List.range' w.cursor data.length ++ left tgt (w.writeNow data) := by
    simp only [left, RangeSinkWriter.writeNow, ← List.append_assoc]
    rw [List.range'_append_1, Nat.add_sub_cancel' hfit]
  have hzip : (left tgt w).zip data = (List.range' w.cursor data.length).zip data := by
    rw [hsplit, ← List.append_nil data, List.zip_append (by simp)]
    simp
  refine ⟨?_, ?_, fun p hp => ?_, fun _ q hq => ?_⟩
  · rw [hsplit, List.drop_append]
    simp
  · rw [hzip]
    simp [RangeSinkWriter.writeNow, writtenBytes]
  · rw [hsplit, List.mem_append, not_or, List.mem_range'_1] at hp
    simp only [RangeSinkWriter.writeNow, contentAfter_append]
    exact if_neg hp.1
  · rw [hzip] at hq
    obtain ⟨i, hi, rfl⟩ := List.getElem_of_mem hq
    rw [List.length_zip, List.length_range', Nat.min_self] at hi
    simp only [RangeSinkWriter.writeNow, contentAfter_append, List.getElem_zip,
      List.getElem_range']
    refine (if_pos (by omega)).trans ?_
    simp [hi]

/-- Unless everything was written there is a range to write to, and moving there writes nothing. -/
theorem seek_spec {w : RangeSinkWriter} (hends : ∀ r ∈ tgt.ranges, r.2 ≤ intMax)
    (hw : w.nextRange ≤ tgt.ranges.length) (hleft : left tgt w ≠ []) :
    ∃ w', w.seekToOutputRange isRetry tgt = some w' ∧ Wrote tgt erased content w w' [] ∧
      w'.currentRangeLeft ≠ 0 ∧ w'.bytesWritten = w.bytesWritten ∧
      w'.nextRange ≤ tgt.ranges.length := by
  rw [seekToOutputRange]
  by_cases hcur : w.currentRangeLeft ≠ 0
  · exact ⟨w, if_pos hcur, .nothing (.inl rfl), hcur, rfl, hw⟩
  rw [if_neg hcur]
  rw [not_not] at hcur
  cases hrest : tgt.ranges.drop w.nextRange with
  | nil => exact absurd (left_eq_nil_iff.mpr ⟨hcur, List.drop_eq_nil_iff.mp hrest⟩) hleft
  | cons range rest =>
    have hget : tgt.ranges[w.nextRange]? = some range := by
      rw [← List.head?_drop, hrest]
      rfl
    have hdrop : tgt.ranges.drop (w.nextRange + 1) = rest := by
      rw [← List.tail_drop, hrest]
      rfl
    have hlt := (List.getElem?_eq_some_iff.mp hget).1
    have hmem : range ∈ tgt.ranges := List.mem_of_getElem? hget
    have hproper := tgt.proper range hmem
    have hend : range.2 ≤ 2 ^ 31 - 1 := hends range hmem
    have hoffset : u64 (range.1 * blockSize) = range.1 * blockSize := by
      apply u64_of_lt
      unfold blockSize
      omega
    have hsize : u64 ((range.2 - range.1) * blockSize) = (range.2 - range.1) * blockSize := by
      apply u64_of_lt
      unfold blockSize
      omega
    have hbytes : left tgt w =
        List.range' (range.1 * blockSize) ((range.2 - range.1) * blockSize) ++
          blockBytes blockSize (expandRanges rest) := by
      simp [left, hcur, hrest, blockBytes_range]
    have hopened : left tgt (w.openRange isRetry range) = left tgt w := by
      rw [hbytes]
      simp only [left, openRange, hoffset, hsize, hdrop]
    refine ⟨w.openRange isRetry range, by rw [hget, Option.map_some], ⟨hopened, ?_, fun p hp => ?_,
      fun _ q hq => ?_⟩, ?_, rfl, hlt⟩
    · rw [List.zip_nil_right, List.append_nil]
      exact writtenBytes_discard _ _ _
    · rw [hbytes, List.mem_append, not_or] at hp
      simp only [openRange, hoffset, hsize]
      exact contentAfter_discard hp.1
    · rw [List.zip_nil_right] at hq
      exact absurd hq List.not_mem_nil
    · simp only [openRange, hsize]
      unfold blockSize
      omega

theorem writeLoop_none {w : RangeSinkWriter} {data : List UInt8} {written : ℕ}
    (hseek : w.seekToOutputRange isRetry tgt = none) :
    w.writeLoop isRetry tgt data written = (w, written) := by
  rw [writeLoop]
  split_ifs
  · rfl
  · split
    · rfl
    · rename_i hsome
      rw [hseek] at hsome
      cases hsome

theorem writeLoop_some {w w' : RangeSinkWriter} {data : List UInt8} {written : ℕ}
    (hdata : data ≠ []) (hseek : w.seekToOutputRange isRetry tgt = some w') :
    w.writeLoop isRetry tgt data written =
      (w'.writeNow (data.take (min w'.currentRangeLeft data.length))).writeLoop isRetry tgt
        (data.drop (min w'.currentRangeLeft data.length))
        (written + min w'.currentRangeLeft data.length) := by
  have hmin : (if w'.currentRangeLeft < data.length then w'.currentRangeLeft else data.length) =
      min w'.currentRangeLeft data.length := by
    split_ifs <;> omega
  rw [writeLoop, dif_neg hdata]
  split
  · rename_i hnone
    rw [hseek] at hnone
    cases hnone
  · rename_i hsome
    rw [hseek] at hsome
    cases hsome
    simp only [hmin]

theorem finished_iff {w : RangeSinkWriter} (hw : w.nextRange ≤ tgt.ranges.length) :
    w.finished tgt = true ↔ left tgt w = [] := by
  rw [left_eq_nil_iff, finished, Bool.and_eq_true, decide_eq_true_iff, decide_eq_true_iff]
  omega

theorem writeLoop_spec (isRetry : Bool) (erased content : ℕ → UInt8)
    (hends : ∀ r ∈ tgt.ranges, r.2 ≤ intMax) (w : RangeSinkWriter)
    (data : List UInt8) (written : ℕ) (hw : w.nextRange ≤ tgt.ranges.length) :
    Wrote tgt erased content w (w.writeLoop isRetry tgt data written).1 data ∧
      (w.writeLoop isRetry tgt data written).2 = written + min data.length (left tgt w).length ∧
      (w.writeLoop isRetry tgt data written).1.bytesWritten = w.bytesWritten ∧
      (w.writeLoop isRetry tgt data written).1.nextRange ≤ tgt.ranges.length := by
  -- by the bytes that are left to write: the range that is open takes at least one of them
  induction hn : data.length using Nat.strong_induction_on generalizing w data written with
  | h n ih =>
    by_cases hleft : left tgt w = []
    · rw [writeLoop_none (seek_none hleft)]
      exact ⟨.nothing (.inr hleft), by simp [hleft], rfl, hw⟩
    by_cases hdata : data = []
    · rw [writeLoop, dif_pos hdata]
      exact ⟨.nothing (.inl hdata), by simp [← hn, hdata], rfl, hw⟩
    obtain ⟨w', hseek, hwrote, hopen, hbytes, hw'⟩ := seek_spec hends hw hleft
    rw [writeLoop_some hdata hseek]
    have hpos := List.length_pos_iff.mpr hdata
    obtain ⟨count, hcount⟩ : ∃ count, count = min w'.currentRangeLeft data.length := ⟨_, rfl⟩
    rw [← hcount]
    have htake : (data.take count).length = count := by
      rw [List.length_take]
      omega
    have hnow : Wrote tgt erased content w' (w'.writeNow (data.take count)) (data.take count) :=
      .writeNow (by omega)
    obtain ⟨hrest, hreturn, hbytes', hnext⟩ := ih (data.drop count).length
      (by rw [List.length_drop]; omega) (w'.writeNow (data.take count)) (data.drop count)
      (written + count) hw' rfl
    have hall := hwrote.trans (hnow.trans hrest)
    rw [List.nil_append, List.take_append_drop] at hall
    refine ⟨hall, ?_, hbytes'.trans hbytes, hnext⟩
    have hlen : (left tgt w').length = (left tgt w).length := by rw [hwrote.left_eq]; rfl
    have hroom : w'.currentRangeLeft ≤ (left tgt w').length := by simp [left]
    rw [hlen] at hroom
    have hle : count ≤ min data.length (left tgt w).length := by
      rw [hcount, Nat.min_comm]
      exact min_le_min_left _ hroom
    rw [hreturn, hnow.left_eq, List.length_drop, List.length_drop, htake, hlen,
      Nat.sub_min_sub_right, Nat.add_assoc, Nat.add_sub_cancel' hle, hn]

theorem min_add_min_sub (i d t : ℕ) : min i t + min d (t - i) = min (i + d) t := by omega

/-- The writer after some calls, whose data is in `input`. -/
structure Accepted (tgt : RangeSet) (erased content : ℕ → UInt8) (w : RangeSinkWriter)
    (input : List UInt8) : Prop where
  wrote : ∃ cursor, Wrote tgt erased content (start cursor) w input
  bytesWritten : w.bytesWritten = u64 (min input.length (targetBytes tgt).length)
  nextRange_le : w.nextRange ≤ tgt.ranges.length

theorem Accepted.left_eq {w : RangeSinkWriter} {input : List UInt8}
    (h : Accepted tgt erased content w input) :
    left tgt w = (targetBytes tgt).drop input.length := by
  obtain ⟨cursor, hwrote⟩ := h.wrote
  exact hwrote.left_eq

theorem accepted_start (cursor : ℕ) : Accepted tgt erased content (start cursor) [] :=
  ⟨⟨cursor, .nothing (.inl rfl)⟩, by simp [start, u64], Nat.zero_le _⟩

/-- One call takes as much as there is room for. -/
theorem Accepted.write (isRetry : Bool) (hends : ∀ r ∈ tgt.ranges, r.2 ≤ intMax)
    {w : RangeSinkWriter} {input : List UInt8} (h : Accepted tgt erased content w input)
    (data : List UInt8) :
    Accepted tgt erased content (w.write isRetry tgt data).1 (input ++ data) ∧
      (w.write isRetry tgt data).2 =
        min data.length ((targetBytes tgt).length - input.length) := by
  obtain ⟨cursor, hwrote⟩ := h.wrote
  have hleft := h.left_eq
  rw [RangeSinkWriter.write]
  by_cases hfinished : w.finished tgt = true
  · have hnil := (finished_iff h.nextRange_le).mp hfinished
    have hfull : (targetBytes tgt).length ≤ input.length :=
      List.drop_eq_nil_iff.mp (hleft.symm.trans hnil)
    rw [if_pos hfinished]
    refine ⟨⟨⟨cursor, hwrote.trans (.nothing (.inr hnil))⟩, ?_, h.nextRange_le⟩, ?_⟩
    · rw [h.bytesWritten, List.length_append, Nat.min_eq_right hfull, Nat.min_eq_right (by omega)]
    · simp only
      omega
  · rw [if_neg hfinished]
    obtain ⟨hdata, hreturn, hbytes, hnext⟩ := writeLoop_spec isRetry erased content
      hends w data 0 h.nextRange_le
    rw [Nat.zero_add, hleft, List.length_drop] at hreturn
    refine ⟨⟨⟨cursor, hwrote.trans ?_⟩, ?_, hnext⟩, hreturn⟩
    · exact ⟨hdata.left_eq, hdata.written, hdata.frame, hdata.lands⟩
    · simp only
      rw [hbytes, hreturn, h.bytesWritten, List.length_append]
      unfold u64
      rw [Nat.mod_add_mod, min_add_min_sub]

theorem Accepted.writes (hends : ∀ r ∈ tgt.ranges, r.2 ≤ intMax) {w : RangeSinkWriter}
    {input : List UInt8} (h : Accepted tgt erased content w input) (chunks : List (List UInt8)) :
    Accepted tgt erased content (w.writes isRetry tgt chunks) (input ++ chunks.flatten) := by
  induction chunks generalizing w input with
  | nil => simpa [RangeSinkWriter.writes] using h
  | cons data chunks ih =>
    have hnext := ih (h.write isRetry hends data).1
    rwa [List.append_assoc] at hnext

theorem targetBytes_length (tgt : RangeSet) :
    (targetBytes tgt).length = tgt.blocks * blockSize := by
  rw [targetBytes, blockBytes_length, RangeSet.expand_length]

theorem Accepted.availableSpace {w : RangeSinkWriter} {input : List UInt8}
    (h : Accepted tgt erased content w input) :
    w.availableSpace tgt = u64 ((targetBytes tgt).length - input.length) := by
  rw [RangeSinkWriter.availableSpace, h.bytesWritten, ← targetBytes_length]
  unfold u64
  omega

theorem Accepted.finished_iff {w : RangeSinkWriter} {input : List UInt8}
    (h : Accepted tgt erased content w input) :
    w.finished tgt = true ↔ (targetBytes tgt).length - input.length = 0 := by
  rw [RangeSinkWriter.finished_iff h.nextRange_le, h.left_eq, List.drop_eq_nil_iff,
    Nat.sub_eq_zero_iff_le]

end specs

/-- After any calls: what was written and where, what the members say, and what the next call
takes. A target of 2 ^ 64 bytes or more has its space modulo 2 ^ 64. -/
theorem rangeSinkWriter_writes (parseUint : Text → ℕ → Option ℕ)
    (hmax : ∀ word maximum n, parseUint word maximum = some n → n ≤ maximum) {text : Text}
    {tgt : RangeSet} (hparse : RangeSet.parse parseUint text = some tgt) (isRetry : Bool)
    (cursor : ℕ) (erased content : ℕ → UInt8) (chunks : List (List UInt8)) (data : List UInt8) :
    let w := (start cursor).writes isRetry tgt chunks
    let next := w.write isRetry tgt data
    let unwritten := (targetBytes tgt).length - chunks.flatten.length
    writtenBytes w.events = (targetBytes tgt).zip chunks.flatten ∧
    (∀ p ∉ targetBytes tgt, contentAfter erased content w.events p = content p) ∧
    (tgt.expand.Nodup → ∀ q ∈ (targetBytes tgt).zip chunks.flatten,
      contentAfter erased content w.events q.1 = q.2) ∧
    w.availableSpace tgt = u64 unwritten ∧
    (tgt.blocks * blockSize < 2 ^ 64 → w.availableSpace tgt = unwritten) ∧
    (w.finished tgt = true ↔ unwritten = 0) ∧
    next.2 = min data.length unwritten ∧
    (next.2 < data.length → next.1.finished tgt = true) := by
  intro w next unwritten
  have hends := RangeSet.spells_ends (RangeSet.parse_eq_some.mp hparse) hmax
  have hw : Accepted tgt erased content w chunks.flatten :=
    (accepted_start cursor).writes hends chunks
  obtain ⟨hnext, htaken⟩ := hw.write isRetry hends data
  obtain ⟨_, hwrote⟩ := hw.wrote
  refine ⟨hwrote.written, fun p hp => hwrote.frame p hp, fun hnodup => ?_, hw.availableSpace,
    fun hsize => ?_, hw.finished_iff, htaken, fun hshort => ?_⟩
  · exact hwrote.lands (nodup_blockBytes hnodup)
  · rw [← targetBytes_length] at hsize
    rw [hw.availableSpace]
    exact u64_of_lt (lt_of_le_of_lt (Nat.sub_le _ _) hsize)
  · rw [hnext.finished_iff, List.length_append]
    have hshort : min data.length unwritten < data.length := htaken ▸ hshort
    omega

/-- A text that repeats the largest range. -/
theorem exists_repeated {n : ℕ} (hn : n ≠ 0) (hlen : 2 * n ≤ intMax) :
    ∃ text tgt, RangeSet.parse RangeSet.decimalOrHex text = some tgt ∧ tgt.blocks = n * intMax := by
  have hmem : ∀ r ∈ List.replicate n ((0, intMax) : Range), r = (0, intMax) := fun r hr =>
    List.eq_of_mem_replicate hr
  obtain ⟨tgt, htgt⟩ : ∃ tgt : RangeSet, tgt.ranges = List.replicate n (0, intMax) :=
    RangeSet.exists_rangeSet (fun r hr => hmem r hr ▸ by decide) (fun r hr => hmem r hr ▸ le_rfl)
      (by rwa [List.length_replicate])
  refine ⟨tgt.toText, tgt, RangeSet.parse_eq_some.mpr (RangeSet.spells_toText ?_ ?_ ?_
    RangeSet.decimalOrHex_decimal), ?_⟩
  · rw [htgt]
    simpa using hn
  · rwa [htgt, List.length_replicate]
  · rw [htgt]
    exact fun r hr => hmem r hr ▸ le_rfl
  · rw [RangeSet.blocks, RangeSet.expand, htgt, expandRanges_length, List.map_replicate,
      List.sum_replicate_nat]
    rfl

/-- A byte, and 5000 more, which go on into the second range. -/
def crossingChunks : List (List UInt8) := [[1], List.replicate 5000 2]

theorem rangeSinkWriter_writes_crossing : ∃ tgt,
    RangeSet.parse RangeSet.decimalOrHex "4,0,1,5,7".toList = some tgt ∧
    tgt.ranges = [(0, 1), (5, 7)] ∧
    writtenBytes ((start 0).writes true tgt crossingChunks).events =
      (targetBytes tgt).zip crossingChunks.flatten ∧
    ((start 0).writes true tgt crossingChunks).availableSpace tgt = 7287 := by
  have hparse : (RangeSet.parse RangeSet.decimalOrHex "4,0,1,5,7".toList).map
      (fun tgt => tgt.ranges) = some [(0, 1), (5, 7)] := by decide +kernel
  obtain ⟨tgt, hparse, hranges⟩ := Option.map_eq_some_iff.mp hparse
  obtain ⟨hwritten, -, -, -, hspace, -⟩ := rangeSinkWriter_writes RangeSet.decimalOrHex
    RangeSet.decimalOrHex_le hparse true 0 (fun _ => 0) (fun _ => 0) crossingChunks []
  have hblocks : tgt.blocks = 3 := by
    rw [RangeSet.blocks, RangeSet.expand, hranges]
    rfl
  have hlength : crossingChunks.flatten.length = 5001 := by
    rw [crossingChunks, List.flatten_cons, List.flatten_cons, List.flatten_nil, List.append_nil,
      List.length_append, List.length_replicate]
    rfl
  refine ⟨tgt, hparse, hranges, hwritten, (hspace (by rw [hblocks]; decide)).trans ?_⟩
  rw [targetBytes_length, hblocks, hlength]
  rfl

/-- Four million copies of the largest range have more bytes than `size_t` can say. -/
theorem not_spaceExact : ¬∀ text tgt, RangeSet.parse RangeSet.decimalOrHex text = some tgt →
    ∀ isRetry cursor (chunks : List (List UInt8)),
      ((start cursor).writes isRetry tgt chunks).availableSpace tgt =
        (targetBytes tgt).length - chunks.flatten.length := by
  intro hall
  have hlen : 2 * 2 ^ 22 ≤ intMax := by decide
  obtain ⟨text, tgt, hparse, hblocks⟩ := exists_repeated (by decide : (2 : ℕ) ^ 22 ≠ 0) hlen
  have hspace := hall text tgt hparse false 0 []
  have hlt : ((start 0).writes false tgt []).availableSpace tgt < 2 ^ 64 := u64_lt _
  rw [hspace, targetBytes_length, hblocks] at hlt
  exact absurd hlt (by decide)

end RangeSinkWriter
end BootableRecovery.Updater
