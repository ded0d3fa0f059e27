import BootableRecovery.Lib.Tokens
import BootableRecovery.Twrp.Fstab

namespace BootableRecovery.Twrp
open Lib

/-! The one buffer through which `Process_Fstab` reads the lines of `twrp.flags` and those of the
fstab. -/

namespace FstabBuffer

/-! ### Reading -/

/-- What `fgets` reads at once: up to a newline, and never more than the buffer holds. -/
def fgetsRead (content : Text) : Text :=
  content.take (min (maxFstabLineLength - 1) ((content.takeWhile (· ≠ '\n')).length + 1))

theorem fgetsRead_length {content : Text} (h : content ≠ []) : 0 < (fgetsRead content).length := by
  have hpos := List.length_pos_iff.mpr h
  simp [fgetsRead, maxFstabLineLength]
  omega

def reads (content : Text) : List Text :=
  if h : content = [] then []
  else
    have := fgetsRead_length h
    fgetsRead content :: reads (content.drop (fgetsRead content).length)
termination_by content.length
decreasing_by
  have hpos := List.length_pos_iff.mpr h
  rw [List.length_drop]
  omega

@[simp] theorem reads_nil : reads [] = [] := by
  rw [reads, dif_pos rfl]

theorem reads_cons {content : Text} (h : content ≠ []) :
    reads content = fgetsRead content :: reads (content.drop (fgetsRead content).length) := by
  rw [reads, dif_neg h]

/-- The array of the function before it is used, and the memory on both of its sides. -/
structure Memory where
  stack : Text
  before : Char
  behind : Text
  size : stack.length = maxFstabLineLength

/-- What is read into the buffer, which still holds what it held behind it. -/
structure Read where
  buffer : Text
  chunk : Text
  deriving DecidableEq, Repr

/-- The buffer after `fgets`. -/
def Read.filled (r : Read) : Text := fgetsInto r.buffer r.chunk

def lineSize (buffer : Text) : ℕ := (cString buffer).length

variable (mem : Memory)

/-- `fstab_line[line_size - 1]` -/
def lastByte (buffer : Text) : Char :=
  if lineSize buffer = 0 then mem.before else buffer.getD (lineSize buffer - 1) '\x00'

/-- The newline that the line lacks is put over its end. -/
def patchNewline (buffer : Text) : Text :=
  if lastByte mem buffer = '\n' then buffer else buffer.set (lineSize buffer) '\n'

/-- The string that starts in the buffer; it goes on behind a buffer without an end. -/
def handed (r : Read) : Text := cString (patchNewline mem r.filled ++ mem.behind)

/-- The string ends in the buffer. -/
def Terminated (r : Read) : Prop := '\x00' ∈ patchNewline mem r.filled

/-! ### The lines of the fstab -/

/-- Swap and comments. -/
def skipped (chunk : Text) : Bool :=
  strstr (cString chunk) "swap".toList || chunk.head? = some '#'

/-- The reads whose lines are processed. The buffer is cleared after these and not after the
others. -/
def fstabReads : Text → List Text → List Read
  | _, [] => []
  | buffer, chunk :: chunks =>
    if skipped chunk then fstabReads (fgetsInto buffer chunk) chunks
    else ⟨buffer, chunk⟩ :: fstabReads clearedBuffer chunks

/-! ### The lines of `twrp.flags` -/

def flagsReads : Text → List Text → List Read
  | _, [] => []
  | buffer, chunk :: chunks => ⟨buffer, chunk⟩ :: flagsReads clearedBuffer chunks

structure FlagsMap where
  primaryBlockDevice : Text := []
  alternateBlockDevice : Text := []
  fileSystem : Text := []
  flags : Text := []
  fstabLine : Text := []
  deriving DecidableEq, Repr

def isBlank (c : Char) : Bool := c.toNat ≤ 32

/-- What a pointer into the line points to after the scan: up to a blank that has been scanned. -/
def item (scanned tail : Text) : Text :=
  if scanned.any isBlank then scanned.takeWhile (!isBlank ·) else scanned ++ tail

/-- The scan of the first `line_size` bytes; `tail` is what follows them. -/
def scanItems (tail : Text) : Bool → ℕ → Text → FlagsMap → FlagsMap
  | _, _, [], m => m
  | foundSeparator, itemIndex, c :: rest, m =>
    if isBlank c then scanItems tail true itemIndex rest m
    else if foundSeparator then
      if itemIndex = 0 then
        scanItems tail false 1 rest { m with fileSystem := item (c :: rest) tail }
      else if itemIndex = 1 then
        scanItems tail false 2 rest { m with primaryBlockDevice := item (c :: rest) tail }
      else if c = '/' then
        scanItems tail false (itemIndex + 1) rest
          { m with alternateBlockDevice := c :: rest ++ tail }
      else if "flags=".toList.length < (c :: rest ++ tail).length ∧
          strncmp (c :: rest ++ tail) "flags=".toList "flags=".toList.length then
        { m with flags := c :: rest ++ tail }
      else scanItems tail false (itemIndex + 1) rest m
    else scanItems tail false itemIndex rest m

/-- The mount point and the entry that the map gets for a line. -/
def storeFlags (line : Text) (size : ℕ) : Text × FlagsMap :=
  (item (line.take size) (line.drop size),
    scanItems (line.drop size) false 0 (line.take size) { fstabLine := line })

def stored (r : Read) : Text × FlagsMap := storeFlags (handed mem r) (lineSize r.filled)

/-- The reads of the two files, `twrp.flags` first. -/
def twrpFlagsReads (twrpFlags : Option Text) : List Read :=
  flagsReads mem.stack (reads (twrpFlags.getD []))

def fstabReadsOf (twrpFlags : Option Text) (fstab : Text) : List Read :=
  fstabReads (if reads (twrpFlags.getD []) = [] then mem.stack else clearedBuffer) (reads fstab)

/-! ### What a line alone gives -/

/-- The line of a read, without its newline. -/
def Read.line (r : Read) : Text :=
  if r.chunk.getLast? = some '\n' then r.chunk.dropLast else r.chunk

/-- The line and its newline, in a buffer with nothing else. -/
def alone (line : Text) : Text := line ++ ['\n', '\x00']

def lineBytes (line : Text) : Text := cString (patchNewline mem (alone line))

def lineFlags (line : Text) : Text × FlagsMap :=
  storeFlags (lineBytes mem line) (lineSize (alone line))

/-- Every line that is processed is handed over as it would be alone. -/
structure Independent (twrpFlags : Option Text) (fstab : Text) : Prop where
  lines : ∀ r ∈ fstabReadsOf mem twrpFlags fstab,
    handed mem r = lineBytes mem r.line ∧ Terminated mem r
  flags : ∀ r ∈ twrpFlagsReads mem twrpFlags,
    stored mem r = lineFlags mem r.line ∧ Terminated mem r

/-! ### When a line is handed over as it is -/

/-- The line has its newline; or the buffer ends behind the newline that is put there, unless the
line has an end of its own. -/
def KeepsLine (r : Read) : Prop :=
  r.chunk.getLast? = some '\n' ∨
    if '\x00' ∈ r.chunk then
      2 ≤ r.chunk.count '\x00' ∨ (r.chunk.head? = some '\x00' ∧ mem.before = '\n')
    else r.buffer[r.chunk.length + 1]? = some '\x00'

/-- What `fgets` can leave. -/
structure IsRead (r : Read) : Prop where
  size : r.buffer.length = maxFstabLineLength
  fits : r.chunk.length < maxFstabLineLength
  nonempty : r.chunk ≠ []
  newline : '\n' ∉ r.chunk.dropLast

section bytes
variable {mem} {s t u v rest : Text} {c : Char}

theorem cString_append (h : '\x00' ∉ s) : cString (s ++ t) = s ++ cString t := by
  rw [cString, cString, List.takeWhile_append_of_pos]
  intro c hc
  simpa using fun heq : c = '\x00' => h (heq ▸ hc)

theorem cString_append_of_mem (h : '\x00' ∈ s) : cString (s ++ t) = cString s := by
  obtain ⟨u, v, rfl, hu⟩ := List.eq_append_cons_of_mem h
  rw [List.append_assoc, cString_append hu, cString_append hu]
  rfl

theorem cString_nul (h : '\x00' ∉ s) : cString (s ++ '\x00' :: t) = s := by
  rw [cString_append h]
  exact List.append_nil s

theorem lineSize_nul (h : '\x00' ∉ s) : lineSize (s ++ '\x00' :: t) = s.length := by
  rw [lineSize, cString_nul h]

theorem lastByte_concat (h : '\x00' ∉ s ++ [c]) : lastByte mem (s ++ [c] ++ '\x00' :: t) = c := by
  rw [lastByte, lineSize_nul h]
  simp

/-- A newline that is there is left alone. -/
theorem patchNewline_newline (h : '\x00' ∉ s) :
    patchNewline mem (s ++ '\n' :: '\x00' :: t) = s ++ '\n' :: '\x00' :: t := by
  have hlast := @lastByte_concat mem s t '\n' (by simpa using h)
  rw [List.append_assoc, List.singleton_append] at hlast
  rw [patchNewline, if_pos hlast]

/-- The first end of a string without a newline is written over. -/
theorem patchNewline_nul (hnul : '\x00' ∉ s) (hline : '\n' ∉ s) :
    patchNewline mem (s ++ '\x00' :: t) =
      if s = [] ∧ mem.before = '\n' then s ++ '\x00' :: t else s ++ '\n' :: t := by
  have hset : (s ++ '\x00' :: t).set (lineSize (s ++ '\x00' :: t)) '\n' = s ++ '\n' :: t := by
    rw [lineSize_nul hnul]
    simp [List.set_append_right]
  obtain rfl | ⟨s, c, rfl⟩ := List.eq_nil_or_concat s
  · rw [patchNewline, hset]
    simp [lastByte]
    rfl
  · have hc : c ≠ '\n' := fun heq => hline (by simp [heq])
    rw [List.concat_eq_append] at hset hnul ⊢
    rw [patchNewline, lastByte_concat hnul, if_neg hc, if_neg (by simp), hset]

/-- With its newline, a line is patched alike whatever is behind it. -/
theorem patchNewline_alone (h : '\n' ∉ s) :
    patchNewline mem (alone s ++ t) = patchNewline mem (alone s) ++ t ∧
      '\x00' ∈ patchNewline mem (alone s) := by
  by_cases hnul : '\x00' ∈ s
  · obtain ⟨u, v, rfl, hu⟩ := List.eq_append_cons_of_mem hnul
    have hline : '\n' ∉ u := fun hmem => h (by simp [hmem])
    have halone : alone (u ++ '\x00' :: v) = u ++ '\x00' :: (v ++ ['\n', '\x00']) := by
      simp [alone]
    rw [halone, List.append_assoc, List.cons_append, patchNewline_nul hu hline,
      patchNewline_nul hu hline]
    split_ifs <;> simp
  · have hplain := @patchNewline_newline mem s t hnul
    have hplain' := @patchNewline_newline mem s [] hnul
    rw [alone, List.append_assoc, hplain', List.cons_append, List.cons_append, List.nil_append,
      hplain]
    simp

theorem lineBytes_plain (hnul : '\x00' ∉ s) : lineBytes mem s = s ++ ['\n'] := by
  rw [lineBytes, alone, patchNewline_newline hnul, ← List.singleton_append, ← List.append_assoc,
    cString_nul (by simpa using hnul)]

end bytes

section reads
variable {mem} {r : Read}

theorem Read.filled_eq (r : Read) :
    r.filled = r.chunk ++ '\x00' :: r.buffer.drop (r.chunk.length + 1) := rfl

theorem filled_newline (hnewline : r.chunk.getLast? = some '\n') :
    r.filled = alone r.line ++ r.buffer.drop (r.chunk.length + 1) := by
  rw [r.filled_eq, Read.line, if_pos hnewline, alone, List.append_assoc]
  nth_rw 1 [← List.dropLast_append_getLast? _ hnewline]
  simp

theorem handed_newline (h : IsRead r) (hnewline : r.chunk.getLast? = some '\n') :
    handed mem r = lineBytes mem r.line ∧ Terminated mem r := by
  have hline : r.line = r.chunk.dropLast := if_pos hnewline
  have hfilled := filled_newline hnewline
  obtain ⟨hpatch, hend⟩ := @patchNewline_alone mem r.line (r.buffer.drop (r.chunk.length + 1))
    (by rw [hline]; exact h.newline)
  constructor
  · rw [handed, hfilled, hpatch, lineBytes, List.append_assoc, cString_append_of_mem hend]
  · rw [Terminated, hfilled, hpatch]
    exact List.mem_append_left _ hend

/-- The string of a read without a newline. -/
theorem handed_rest (hnewline : '\n' ∉ r.chunk) (hne : r.chunk ≠ []) (hnul : '\x00' ∉ r.chunk) :
    patchNewline mem r.filled = r.chunk ++ '\n' :: r.buffer.drop (r.chunk.length + 1) := by
  rw [r.filled_eq, patchNewline_nul hnul hnewline, if_neg (by simp [hne])]

theorem cString_cons_newline (s : Text) : cString ('\n' :: s) = '\n' :: cString s := rfl

/-- A line without a newline and without an end of its own ends where the buffer does. -/
theorem keeps_plain (h : IsRead r) (hnewline : '\n' ∉ r.chunk) (hnul : '\x00' ∉ r.chunk) :
    handed mem r = lineBytes mem r.chunk ∧ Terminated mem r ↔
      r.buffer[r.chunk.length + 1]? = some '\x00' := by
  rw [lineBytes_plain hnul, handed, Terminated, handed_rest hnewline h.nonempty hnul,
    List.append_assoc, List.cons_append, cString_append hnul, cString_cons_newline,
    List.append_cancel_left_eq, ← List.head?_drop]
  cases r.buffer.drop (r.chunk.length + 1) with
  | nil => simp [hnul]
  | cons c rest =>
    by_cases hc : c = '\x00' <;> simp [cString, hc]

/-- A line with an end of its own is told by what follows that. -/
theorem keeps_nul {u v : Text} (hline : '\n' ∉ u ++ '\x00' :: v) (hu : '\x00' ∉ u)
    (hchunk : r.chunk = u ++ '\x00' :: v) :
    handed mem r = lineBytes mem r.chunk ∧ Terminated mem r ↔
      (u = [] ∧ mem.before = '\n') ∨ '\x00' ∈ v := by
  have hu' : '\n' ∉ u := fun hmem => hline (by simp [hmem])
  have hfilled : r.filled =
      u ++ '\x00' :: (v ++ '\x00' :: r.buffer.drop (r.chunk.length + 1)) := by
    rw [r.filled_eq, hchunk]
    simp
  have halone : alone r.chunk = u ++ '\x00' :: (v ++ ['\n', '\x00']) := by
    simp [alone, hchunk]
  rw [handed, Terminated, lineBytes, hfilled, halone, patchNewline_nul hu hu',
    patchNewline_nul hu hu']
  by_cases hp : u = [] ∧ mem.before = '\n'
  · simp only [hp, and_self, if_true, true_or, iff_true, List.nil_append, List.cons_append]
    exact ⟨rfl, by simp⟩
  · rw [if_neg hp, if_neg hp, or_iff_right hp, List.append_assoc, List.cons_append,
      cString_append hu, cString_append hu, cString_cons_newline, cString_cons_newline,
      List.append_assoc, List.append_cancel_left_eq]
    by_cases hv : '\x00' ∈ v
    · rw [cString_append_of_mem hv, cString_append_of_mem hv]
      simp [hv]
    · have hlast : cString (v ++ ['\n', '\x00']) = v ++ ['\n'] := by
        rw [cString_append hv]
        rfl
      rw [hlast, List.cons_append, cString_nul hv]
      simp [hv]

theorem keepsLine_iff (h : IsRead r) :
    handed mem r = lineBytes mem r.line ∧ Terminated mem r ↔ KeepsLine mem r := by
  by_cases hnewline : r.chunk.getLast? = some '\n'
  · exact iff_of_true (handed_newline h hnewline) (Or.inl hnewline)
  have hfree : '\n' ∉ r.chunk := by
    obtain ⟨s, c, hsc⟩ := (List.eq_nil_or_concat r.chunk).resolve_left h.nonempty
    have hdrop := h.newline
    rw [hsc] at hnewline hdrop ⊢
    simp_all
    tauto
  have hline : r.line = r.chunk := if_neg hnewline
  rw [KeepsLine, or_iff_right hnewline, hline]
  by_cases hnul : '\x00' ∈ r.chunk
  · obtain ⟨u, v, huv, hu⟩ := List.eq_append_cons_of_mem hnul
    rw [if_pos hnul, keeps_nul (huv ▸ hfree) hu huv, huv, or_comm]
    have hcount : u.count '\x00' = 0 := List.count_eq_zero_of_not_mem hu
    have hpos : 0 < v.count '\x00' ↔ '\x00' ∈ v := List.count_pos_iff
    have hhead : (u ++ '\x00' :: v).head? = some '\x00' ↔ u = [] := by
      cases u with
      | nil => simp
      | cons c u => simpa using fun heq : c = '\x00' => hu (by simp [heq])
    rw [hhead, List.count_append, hcount, List.count_cons_self, ← hpos]
    refine or_congr_left ?_
    omega
  · rw [if_neg hnul, keeps_plain h hfree hnul]

/-- What one `fgets` leaves in a chunk. -/
def IsChunk (chunk : Text) : Prop :=
  chunk.length < maxFstabLineLength ∧ chunk ≠ [] ∧ '\n' ∉ chunk.dropLast

theorem isChunk_fgetsRead {content : Text} (h : content ≠ []) : IsChunk (fgetsRead content) := by
  have hpos := fgetsRead_length h
  refine ⟨?_, List.length_pos_iff.mp hpos, ?_⟩
  · simp [fgetsRead, maxFstabLineLength]
  · have hpre : content.takeWhile (· ≠ '\n') <+: content := List.takeWhile_prefix _
    have hbefore : (fgetsRead content).dropLast <+: content.takeWhile (· ≠ '\n') := by
      rw [List.prefix_iff_eq_take.mp hpre, List.dropLast_eq_take, fgetsRead, List.take_take]
      apply List.take_prefix_take_left
      simp
    intro hmem
    have hp := List.mem_takeWhile_imp (hbefore.subset hmem)
    simp at hp

theorem isChunk_of_mem_reads {content chunk : Text} (h : chunk ∈ reads content) :
    IsChunk chunk := by
  induction hn : content.length using Nat.strongRecOn generalizing content with
  | ind n ih =>
    by_cases hcontent : content = []
    · simp [hcontent] at h
    · rw [reads_cons hcontent] at h
      obtain rfl | h := List.mem_cons.mp h
      · exact isChunk_fgetsRead hcontent
      · have hpos := fgetsRead_length hcontent
        have hlength := List.length_pos_iff.mpr hcontent
        exact ih _ (by rw [List.length_drop]; omega) h rfl

theorem fgetsInto_length {buffer chunk : Text} (hbuffer : buffer.length = maxFstabLineLength)
    (hchunk : IsChunk chunk) : (fgetsInto buffer chunk).length = maxFstabLineLength := by
  have hfits := hchunk.1
  simp [fgetsInto, hbuffer]
  omega

theorem clearedBuffer_length : clearedBuffer.length = maxFstabLineLength :=
  List.length_replicate

theorem isRead_of_mem_fstabReads {buffer : Text} {chunks : List Text}
    (hbuffer : buffer.length = maxFstabLineLength) (hchunks : ∀ chunk ∈ chunks, IsChunk chunk)
    (h : r ∈ fstabReads buffer chunks) : IsRead r := by
  induction chunks generalizing buffer with
  | nil => simp [fstabReads] at h
  | cons chunk chunks ih =>
    have hchunk := hchunks chunk (by simp)
    have hrest := fun c hc => hchunks c (List.mem_cons_of_mem _ hc)
    rw [fstabReads] at h
    split_ifs at h
    · exact ih (fgetsInto_length hbuffer hchunk) hrest h
    · obtain rfl | h := List.mem_cons.mp h
      · exact ⟨hbuffer, hchunk.1, hchunk.2.1, hchunk.2.2⟩
      · exact ih clearedBuffer_length hrest h

theorem isRead_of_mem_flagsReads {buffer : Text} {chunks : List Text}
    (hbuffer : buffer.length = maxFstabLineLength) (hchunks : ∀ chunk ∈ chunks, IsChunk chunk)
    (h : r ∈ flagsReads buffer chunks) : IsRead r := by
  induction chunks generalizing buffer with
  | nil => simp [flagsReads] at h
  | cons chunk chunks ih =>
    have hchunk := hchunks chunk (by simp)
    obtain rfl | h := List.mem_cons.mp h
    · exact ⟨hbuffer, hchunk.1, hchunk.2.1, hchunk.2.2⟩
    · exact ih clearedBuffer_length (fun c hc => hchunks c (List.mem_cons_of_mem _ hc)) h

end reads

/-! ### When an entry of `twrp.flags` is the one of its line -/

/-- The item that runs up to the end of a text, by its number. -/
def lastItem : Bool → ℕ → Text → Option ℕ
  | _, _, [] => none
  | foundSeparator, itemIndex, c :: rest =>
    if isBlank c then lastItem true itemIndex rest
    else if foundSeparator then
      if rest.any isBlank then lastItem false (itemIndex + 1) rest else some itemIndex
    else lastItem false itemIndex rest

/-- The line has its newline, or an end of its own, or neither its mount point nor the file system
nor the block device runs up to its end. -/
def KeepsItems (r : Read) : Prop :=
  r.chunk.getLast? = some '\n' ∨ '\x00' ∈ r.chunk ∨
    (r.chunk.any isBlank ∧ lastItem false 0 r.chunk ≠ some 0 ∧ lastItem false 0 r.chunk ≠ some 1)

section items
variable {s tail : Text} {found : Bool} {k : ℕ} {m m' : FlagsMap}

theorem item_newline : item s ['\n'] = item (s ++ ['\n']) [] ↔ s.any isBlank := by
  have hblank : isBlank '\n' = true := by decide
  have hsplit : item (s ++ ['\n']) [] = s.takeWhile (!isBlank ·) := by
    rw [item, if_pos (by simp [hblank]), List.takeWhile_append]
    split_ifs with hlength
    · simpa [hblank] using ((List.takeWhile_prefix _).eq_of_length hlength).symm
    · rfl
  rw [hsplit, item]
  cases hany : s.any isBlank with
  | true => simp
  | false =>
    have hlength : (s.takeWhile (!isBlank ·)).length ≤ s.length :=
      (List.takeWhile_prefix _).length_le
    simp only [Bool.false_eq_true, if_false, iff_false]
    intro heq
    have hlong := congrArg List.length heq
    rw [List.length_append, List.length_singleton] at hlong
    omega

theorem scanItems_fileSystem (hk : 1 ≤ k) :
    (scanItems tail found k s m).fileSystem = m.fileSystem := by
  induction s generalizing found k m with
  | nil => rfl
  | cons c rest ih =>
    rw [scanItems]
    split_ifs
    · exact ih hk
    · omega
    · rw [ih (by omega)]
    · rw [ih (by omega)]
    · rfl
    · exact ih (by omega)
    · exact ih hk

theorem scanItems_primary (hk : 2 ≤ k) :
    (scanItems tail found k s m).primaryBlockDevice = m.primaryBlockDevice := by
  induction s generalizing found k m with
  | nil => rfl
  | cons c rest ih =>
    rw [scanItems]
    split_ifs
    · exact ih hk
    · omega
    · omega
    · rw [ih (by omega)]
    · rfl
    · exact ih (by omega)
    · exact ih hk

/-- Behind the block device the newline is part of every item. -/
theorem scanItems_rest (hk : 2 ≤ k) :
    scanItems ['\n'] found k s m = scanItems [] found k (s ++ ['\n']) m := by
  induction s generalizing found k m with
  | nil => rfl
  | cons c rest ih =>
    rw [List.cons_append, scanItems, scanItems]
    simp only [ih hk, ih (show 2 ≤ k + 1 by omega), List.append_nil, List.cons_append,
      show k ≠ 0 by omega, show k ≠ 1 by omega, if_false]

theorem lastItem_ge {j : ℕ} (h : lastItem found k s = some j) : k ≤ j := by
  induction s generalizing found k with
  | nil => simp [lastItem] at h
  | cons c rest ih =>
    rw [lastItem] at h
    split_ifs at h
    · exact ih h
    · exact Nat.le_of_succ_le (ih h)
    · simp at h
      omega
    · exact ih h

/-- The newline is seen in the file system or the block device when one of these is last. -/
theorem scanItems_newline :
    scanItems ['\n'] found k s m = scanItems [] found k (s ++ ['\n']) m ↔
      lastItem found k s ≠ some 0 ∧ lastItem found k s ≠ some 1 := by
  induction s generalizing found k m with
  | nil => simp [scanItems, lastItem, show isBlank '\n' = true by decide]
  | cons c rest ih =>
    by_cases hk : 2 ≤ k
    · refine iff_of_true (scanItems_rest hk) ⟨fun h => ?_, fun h => ?_⟩
      · have hge := lastItem_ge h
        omega
      · have hge := lastItem_ge h
        omega
    rw [List.cons_append, scanItems, scanItems, lastItem]
    by_cases hc : isBlank c = true
    · rw [if_pos hc, if_pos hc, if_pos hc, ih]
    rw [if_neg hc, if_neg hc, if_neg hc]
    cases found with
    | false => simpa using ih
    | true =>
      have hitem := @item_newline (c :: rest)
      have hany : (c :: rest).any isBlank = rest.any isBlank := by simp [hc]
      rw [hany] at hitem
      obtain rfl | rfl : k = 0 ∨ k = 1 := by omega
      · simp only [if_true, List.append_nil]
        cases hrest : rest.any isBlank with
        | true =>
          rw [hitem.mpr hrest, if_pos rfl]
          exact ih
        | false =>
          refine iff_of_false (fun heq => ?_) (by simp)
          have hfield := congrArg FlagsMap.fileSystem heq
          rw [scanItems_fileSystem le_rfl, scanItems_fileSystem le_rfl] at hfield
          simpa [hrest] using hitem.mp hfield
      · simp only [if_true, one_ne_zero, if_false, List.append_nil]
        cases hrest : rest.any isBlank with
        | true =>
          rw [hitem.mpr hrest, if_pos rfl]
          exact ih
        | false =>
          refine iff_of_false (fun heq => ?_) (by simp)
          have hfield := congrArg FlagsMap.primaryBlockDevice heq
          rw [scanItems_primary le_rfl, scanItems_primary le_rfl] at hfield
          simpa [hrest] using hitem.mp hfield

theorem scanItems_fstabLine : (scanItems tail found k s m).fstabLine = m.fstabLine := by
  induction s generalizing found k m with
  | nil => rfl
  | cons c rest ih =>
    rw [scanItems]
    split_ifs <;> simp [ih]

variable {mem} {r : Read}

theorem stored_fstabLine : (stored mem r).2.fstabLine = handed mem r := scanItems_fstabLine

theorem lineFlags_fstabLine {line : Text} :
    (lineFlags mem line).2.fstabLine = lineBytes mem line := scanItems_fstabLine

/-- The size with which the line is scanned, with the newline it lacks. -/
theorem storeFlags_plain {line : Text} :
    storeFlags (line ++ ['\n']) line.length = storeFlags (line ++ ['\n']) (line.length + 1) ↔
      line.any isBlank ∧ lastItem false 0 line ≠ some 0 ∧ lastItem false 0 line ≠ some 1 := by
  have hwhole : (line ++ ['\n']).length = line.length + 1 := by simp
  rw [storeFlags, storeFlags, List.take_left, List.drop_left, ← hwhole, List.take_length,
    List.drop_length, Prod.mk.injEq, item_newline, scanItems_newline]

theorem stored_iff (h : IsRead r) :
    stored mem r = lineFlags mem r.line ∧ Terminated mem r ↔ KeepsLine mem r ∧ KeepsItems r := by
  rw [← keepsLine_iff h]
  by_cases hkeeps : handed mem r = lineBytes mem r.line ∧ Terminated mem r
  · obtain ⟨hhanded, hend⟩ := hkeeps
    rw [stored, lineFlags, hhanded, and_iff_left hend, and_iff_right ⟨rfl, hend⟩]
    by_cases hnewline : r.chunk.getLast? = some '\n'
    · have hsize : lineSize r.filled = lineSize (alone r.line) := by
        rw [lineSize, filled_newline hnewline, cString_append_of_mem (by simp [alone]), lineSize]
      rw [hsize]
      exact iff_of_true rfl (Or.inl hnewline)
    · have hline : r.line = r.chunk := if_neg hnewline
      rw [KeepsItems, or_iff_right hnewline, hline]
      by_cases hnul : '\x00' ∈ r.chunk
      · have hsize : lineSize r.filled = lineSize (alone r.chunk) := by
          rw [lineSize, r.filled_eq, cString_append_of_mem hnul, lineSize, alone,
            cString_append_of_mem hnul]
        rw [hsize]
        exact iff_of_true rfl (Or.inl hnul)
      · have halone : lineSize (alone r.chunk) = r.chunk.length + 1 := by
          have hsize := @lineSize_nul (r.chunk ++ ['\n']) [] (by simpa using hnul)
          rw [List.append_assoc] at hsize
          rw [alone]
          simpa using hsize
        rw [or_iff_right hnul, r.filled_eq, lineSize_nul hnul, halone, lineBytes_plain hnul]
        exact storeFlags_plain
  · refine iff_of_false (fun hstored => hkeeps ⟨?_, hstored.2⟩) fun hboth => hkeeps hboth.1
    rw [← stored_fstabLine, hstored.1, lineFlags_fstabLine]

end items

/-! ### The files -/

theorem isRead_fstabReadsOf {mem : Memory} {twrpFlags : Option Text} {fstab : Text} {r : Read}
    (h : r ∈ fstabReadsOf mem twrpFlags fstab) : IsRead r := by
  refine isRead_of_mem_fstabReads ?_ (fun _ => isChunk_of_mem_reads) h
  split_ifs
  · exact mem.size
  · exact clearedBuffer_length

theorem isRead_twrpFlagsReads {mem : Memory} {twrpFlags : Option Text} {r : Read}
    (h : r ∈ twrpFlagsReads mem twrpFlags) : IsRead r :=
  isRead_of_mem_flagsReads mem.size (fun _ => isChunk_of_mem_reads) h

/-- Every line is handed over as it would be alone just when the newlines that are put there do not
show. -/
theorem independent_iff (twrpFlags : Option Text) (fstab : Text) :
    Independent mem twrpFlags fstab ↔
      (∀ r ∈ fstabReadsOf mem twrpFlags fstab, KeepsLine mem r) ∧
        ∀ r ∈ twrpFlagsReads mem twrpFlags, KeepsLine mem r ∧ KeepsItems r := by
  constructor
  · intro h
    constructor
    · intro r hr
      exact (keepsLine_iff (isRead_fstabReadsOf hr)).mp (h.lines r hr)
    · intro r hr
      exact (stored_iff (isRead_twrpFlagsReads hr)).mp (h.flags r hr)
  · intro ⟨hlines, hflags⟩
    constructor
    · intro r hr
      exact (keepsLine_iff (isRead_fstabReadsOf hr)).mpr (hlines r hr)
    · intro r hr
      exact (stored_iff (isRead_twrpFlagsReads hr)).mpr (hflags r hr)

theorem reads_line {line rest : Text} (hline : '\n' ∉ line)
    (hfits : line.length + 1 < maxFstabLineLength) :
    reads (line ++ '\n' :: rest) = (line ++ ['\n']) :: reads rest := by
  have hread : fgetsRead (line ++ '\n' :: rest) = line ++ ['\n'] := by
    have htake : (line ++ '\n' :: rest).takeWhile (· ≠ '\n') = line := by
      rw [List.takeWhile_append_of_pos]
      · simp
      · intro c hc
        simpa using fun heq : c = '\n' => hline (heq ▸ hc)
    have hparts : line ++ '\n' :: rest = (line ++ ['\n']) ++ rest := by simp
    rw [fgetsRead, htake, hparts, List.take_left' (by simp; omega)]
  have hparts : line ++ '\n' :: rest = (line ++ ['\n']) ++ rest := by simp
  rw [reads_cons (by simp), hread, hparts, List.drop_left]

theorem reads_last {line : Text} (hline : '\n' ∉ line) (hfits : line.length < maxFstabLineLength) :
    reads line = if line = [] then [] else [line] := by
  have hread : fgetsRead line = line := by
    have htake : line.takeWhile (· ≠ '\n') = line := by
      rw [List.takeWhile_eq_self_iff]
      intro c hc
      simpa using fun heq : c = '\n' => hline (heq ▸ hc)
    rw [fgetsRead, htake, List.take_of_length_le (by omega)]
  split_ifs with hempty
  · rw [hempty, reads_nil]
  · rw [reads_cons hempty, hread, List.drop_length, reads_nil]

/-- A comment of twenty characters stands before the last line, which has no newline. -/
theorem not_independent_comment : ¬Independent
    ⟨clearedBuffer, '\x00', [], clearedBuffer_length⟩ none
    ("#-------------------".toList ++ '\n' :: "/boot emmc /dev/b".toList) := by
  intro h
  have hreads : fstabReadsOf ⟨clearedBuffer, '\x00', [], clearedBuffer_length⟩ none
      ("#-------------------".toList ++ '\n' :: "/boot emmc /dev/b".toList) =
      [⟨fgetsInto clearedBuffer ("#-------------------".toList ++ ['\n']),
        "/boot emmc /dev/b".toList⟩] := by
    rw [fstabReadsOf, Option.getD_none, if_pos reads_nil, reads_line (by decide) (by decide),
      reads_last (by decide) (by decide)]
    decide +kernel
  have hhanded := (h.lines _ (by rw [hreads]; exact List.mem_cons_self)).1
  revert hhanded
  decide +kernel

end FstabBuffer
end BootableRecovery.Twrp
