import BootableRecovery.Lib.Records
import BootableRecovery.Libtar.ExtendedHeaders

namespace BootableRecovery.Libtar

/-! What `th_read` finds of the attributes that `th_write` has written. -/

open Lib

/-- The attributes of a file: a context is a line, and the structures have their sizes. -/
structure Metadata (version : PolicyVersion) where
  attributes : Attributes
  contextLine : ∀ context ∈ attributes.selinuxContext, '\n' ∉ context ∧ '\x00' ∉ context
  contextFits : ∀ context ∈ attributes.selinuxContext, recordSize .selinux context < tBlockSize
  fepSize : ∀ policy ∈ attributes.fep, policy.length = version.size
  capSize : ∀ cap ∈ attributes.capData, cap.length = capDataSize

/-- The header of a file, which is not an extended one. -/
def OrdinaryHeader (α : Type) := { h : ThBuf α // isExtended h = false }

/-- What is written is read again, up to the data of the file. -/
def RoundTrips {α : Type} (codec : HeaderCodec α) (version : PolicyVersion) (allocated : Text)
    (h : OrdinaryHeader α) (a : Attributes) : Prop :=
  ∀ data, ∃ blocks, thWrite codec h.1 a = some blocks ∧
    thRead version allocated codec (blocks ++ data) = some (h.1, a, data)

/-! ### The attributes as records -/

abbrev ExtRecord := ExtTag × Text

def ExtTag.all : List ExtTag :=
  [.selinux, .fscrypt, .capabilities, .userDefault, .userCache, .userCodeCache]

namespace Attributes

/-- What the record of a tag holds. -/
def value (a : Attributes) : ExtTag → Option Text
  | .selinux => a.selinuxContext
  | .fscrypt => a.fep.map ('0' :: ·)
  | .capabilities => a.capData
  | .userDefault => flag a.hasUserDefault
  | .userCache => flag a.hasUserCache
  | .userCodeCache => flag a.hasUserCodeCache

def records (a : Attributes) : List ExtRecord :=
  ExtTag.all.filterMap fun tag => (a.value tag).map (tag, ·)

theorem flag_injective : Function.Injective flag := by
  intro b c h
  cases b <;> cases c <;> simp_all [flag]

theorem ext_value {a b : Attributes} (h : ∀ tag, a.value tag = b.value tag) : a = b := by
  have hfep : a.fep = b.fep :=
    Option.map_injective (List.cons_injective (a := '0')) (h .fscrypt)
  have hdefault := flag_injective (h .userDefault)
  have hcache := flag_injective (h .userCache)
  have hcode := flag_injective (h .userCodeCache)
  cases a
  cases b
  have hcontext := h .selinux
  have hcap := h .capabilities
  simp_all [value]

theorem value_cleared (tag : ExtTag) : Attributes.cleared.value tag = none := by
  cases tag <;> rfl

end Attributes

def ExtRecord.size (r : ExtRecord) : ℕ := recordSize r.1 r.2

def ExtRecord.text (r : ExtRecord) : Text := recordText r.1 r.2

def groupSize (g : List ExtRecord) : ℕ := (g.map ExtRecord.size).sum

def groupText (g : List ExtRecord) : Text := g.flatMap ExtRecord.text

/-- The records of each block. -/
def Attributes.groups (a : Attributes) : List (List ExtRecord) :=
  pack ExtRecord.size tBlockSize a.records

/-- The text of a tag stands in the value of another one, in front of its own record and of the
first zero byte. -/
def shown (t : ExtTag) : List ExtRecord → Prop
  | [] => False
  | r :: g => if r.1 = t then False else t.text <:+: cString r.2 ∨ ('\x00' ∉ r.2 ∧ shown t g)

/-- What stands in a block behind the first text of a tag. -/
def foundIn (version : PolicyVersion) (allocated : Text) (t : ExtTag) (g : List ExtRecord) :
    Option Text :=
  let buf := paddedBlock (groupText g)
  let text := cString buf
  match t with
  | .selinux => (valueStart t text).bind fun start =>
    if '\n' ∈ text.drop start then some ((text.drop start).takeWhile (· ≠ '\n')) else none
  | .fscrypt => (valueStart t text).map fun start =>
    '0' :: if (text.drop start).head? = some '0' then (buf.drop (start + 1)).take version.size
      else allocated
  | .capabilities => (valueStart t text).map fun start => (buf.drop start).take capDataSize
  | _ => (searchFirst t.text text).map fun _ => []

/-- The last of what stands so in some blocks. -/
def found (version : PolicyVersion) (allocated : Text) (t : ExtTag) :
    List (List ExtRecord) → Option Text
  | [] => none
  | g :: gs => (found version allocated t gs).or (foundIn version allocated t g)

section metadata
variable {version : PolicyVersion} (m : Metadata version)

/-- The search for a tag finds its text in the value of another one. -/
def Metadata.Foreign (t : ExtTag) : Prop := ∃ g ∈ m.attributes.groups, shown t g

/-- The capabilities do not start with a zero byte, and no value with one stands before another
record in its block; what is found in the value of another tag is the own value nevertheless. -/
structure Metadata.Readable (allocated : Text) : Prop where
  capabilities : ¬m.Foreign .capabilities → ∀ cap ∈ m.attributes.capData, cap.head? ≠ some '\x00'
  reached : ∀ t, ¬m.Foreign t → ∀ g ∈ m.attributes.groups, ∀ front v back,
    g = front ++ (t, v) :: back → ∀ r ∈ front, '\x00' ∉ r.2
  foreign : ∀ t, m.Foreign t →
    found version allocated t m.attributes.groups = m.attributes.value t

end metadata

/-! ### The tags -/

theorem ExtTag.mem_all (tag : ExtTag) : tag ∈ ExtTag.all := by cases tag <;> decide

/-- The tags by their characters. -/
def ExtTag.letters : ExtTag → Text
  | selinux => ['R', 'H', 'T', '.', 's', 'e', 'c', 'u', 'r', 'i', 't', 'y', '.', 's', 'e', 'l', 'i',
    'n', 'u', 'x', '=']
  | fscrypt => ['T', 'W', 'R', 'P', '.', 's', 'e', 'c', 'u', 'r', 'i', 't', 'y', '.', 'f', 's', 'c',
    'r', 'y', 'p', 't', '=']
  | capabilities => ['S', 'C', 'H', 'I', 'L', 'Y', '.', 'x', 'a', 't', 't', 'r', '.', 's', 'e', 'c',
    'u', 'r', 'i', 't', 'y', '.', 'c', 'a', 'p', 'a', 'b', 'i', 'l', 'i', 't', 'y', '=']
  | userDefault => ['A', 'N', 'D', 'R', 'O', 'I', 'D', '.', 'u', 's', 'e', 'r', '.', 'd', 'e', 'f',
    'a', 'u', 'l', 't']
  | userCache => ['A', 'N', 'D', 'R', 'O', 'I', 'D', '.', 'u', 's', 'e', 'r', '.', 'i', 'n', 'o',
    'd', 'e', '_', 'c', 'a', 'c', 'h', 'e']
  | userCodeCache => ['A', 'N', 'D', 'R', 'O', 'I', 'D', '.', 'u', 's', 'e', 'r', '.', 'i', 'n',
    'o', 'd', 'e', '_', 'c', 'o', 'd', 'e', '_', 'c', 'a', 'c', 'h', 'e']

theorem ExtTag.text_eq (t : ExtTag) : t.text = t.letters := by
  cases t <;> exact String.toList_ofList

theorem ExtTag.letters_facts : ∀ t ∈ ExtTag.all, ('\n' ∉ t.letters ∧ ' ' ∉ t.letters ∧
    '\x00' ∉ t.letters ∧ '.' ∈ t.letters ∧ '=' ∉ t.letters.dropLast ∧
    20 ≤ t.letters.length ∧ t.letters.length ≤ 33) ∧
    ∀ u ∈ ExtTag.all, t ≠ u → ¬t.letters <:+: u.letters := by
  decide +kernel

theorem ExtTag.texts : ∀ t ∈ ExtTag.all, ('\n' ∉ t.text ∧ ' ' ∉ t.text ∧ '\x00' ∉ t.text ∧
    '.' ∈ t.text ∧ '=' ∉ t.text.dropLast ∧ 20 ≤ t.text.length ∧ t.text.length ≤ 33) ∧
    ∀ u ∈ ExtTag.all, t ≠ u → ¬t.text <:+: u.text := by
  simpa only [ExtTag.text_eq] using ExtTag.letters_facts

section tags
variable (t : ExtTag)

theorem ExtTag.newline_not_mem : '\n' ∉ t.text := (ExtTag.texts t t.mem_all).1.1

theorem ExtTag.blank_not_mem : ' ' ∉ t.text := (ExtTag.texts t t.mem_all).1.2.1

theorem ExtTag.nul_not_mem : '\x00' ∉ t.text := (ExtTag.texts t t.mem_all).1.2.2.1

theorem ExtTag.dot_mem : '.' ∈ t.text := (ExtTag.texts t t.mem_all).1.2.2.2.1

/-- A tag ends in the only `=` that it has. -/
theorem ExtTag.text_closed : ClosedBy '=' t.text :=
  closedBy_of_not_mem_dropLast (ExtTag.texts t t.mem_all).1.2.2.2.2.1

theorem ExtTag.text_length : 20 ≤ t.text.length ∧ t.text.length ≤ 33 :=
  (ExtTag.texts t t.mem_all).1.2.2.2.2.2

variable {t}

theorem ExtTag.text_apart {u : ExtTag} (h : t ≠ u) : ¬t.text <:+: u.text :=
  (ExtTag.texts t t.mem_all).2 u u.mem_all h

end tags

/-! ### The text of a record -/

theorem decimal_length {n : ℕ} (h : 10 ≤ n) (h' : n < 1000) :
    (decimal n).length = if 100 ≤ n then 3 else 2 := by
  rw [decimal_step h, List.length_append, List.length_singleton]
  split_ifs with hn
  · rw [decimal_step (by omega), decimal_digit (by omega)]
    rfl
  · rw [decimal_digit (by omega)]
    rfl

theorem recordText_length {tag : ExtTag} {value : Text} (h : recordSize tag value < tBlockSize) :
    (recordText tag value).length = recordSize tag value := by
  have htag := tag.text_length
  have hlow : 10 ≤ recordSize tag value := by
    unfold recordSize
    dsimp only
    split_ifs <;> omega
  rw [recordText, List.length_append, decimal_length hlow (h.trans (by decide))]
  simp only [List.length_cons, List.length_append, List.length_nil]
  unfold recordSize
  dsimp only
  split_ifs <;> omega

theorem groupText_length {g : List ExtRecord} (h : ∀ r ∈ g, r.size < tBlockSize) :
    (groupText g).length = groupSize g := by
  induction g with
  | nil => rfl
  | cons r g ih =>
    have hr : r.text.length = r.size := recordText_length (h r List.mem_cons_self)
    have hg := ih fun x hx => h x (List.mem_cons_of_mem r hx)
    rw [groupText, List.flatMap_cons, List.length_append, hr, ← groupText, hg, groupSize,
      groupSize, List.map_cons, List.sum_cons]

/-! ### Writing -/

section write
variable {α : Type} (codec : HeaderCodec α) (h : ThBuf α)

/-- The blocks of a group: a header with its size, and its records. -/
def groupBlocks (g : List ExtRecord) : List Text :=
  [codec.finish { h with typeflag := 'x', size := groupSize g }, paddedBlock (groupText g)]

def finishWrite (s : ExtBuf) : Option (List Text) :=
  (if 0 < s.totalSz then thWriteExtended codec h s else some s.blocks).bind
    fun blocks => some (blocks ++ [codec.finish h])

/-- The buffer holds a group, behind the blocks of others. -/
structure Filled (s : ExtBuf) (done : List (List ExtRecord)) (g : List ExtRecord) : Prop where
  blocks : s.blocks = done.flatMap (groupBlocks codec h)
  buf : s.buf = groupText g
  totalSz : s.totalSz = groupSize g
  fits : groupSize g < tBlockSize

variable {codec h} {s : ExtBuf} {done : List (List ExtRecord)} {g rs : List ExtRecord}

theorem Filled.flush (hs : Filled codec h s done g) :
    thWriteExtended codec h s = some ((done ++ [g]).flatMap (groupBlocks codec h)) := by
  have hfits := hs.fits
  rw [thWriteExtended, hs.totalSz, hs.buf, hs.blocks, if_neg (by omega), List.flatMap_append,
    List.flatMap_singleton, groupBlocks]

theorem Filled.write (hs : Filled codec h s done g) (hsize : ∀ r ∈ rs, r.size < tBlockSize) :
    (rs.foldlM (fun s r => putRecord codec h r.1 (some r.2) s) s).bind (finishWrite codec h) =
      some ((done ++ packFrom ExtRecord.size tBlockSize g (groupSize g) rs).flatMap
        (groupBlocks codec h) ++ [codec.finish h]) := by
  induction rs generalizing s done g with
  | nil =>
    rw [List.foldlM_nil, Option.pure_def, Option.bind_some, finishWrite, packFrom, hs.totalSz]
    split_ifs
    · rw [hs.flush, Option.bind_some]
    · rw [hs.blocks, Option.bind_some, List.append_nil]
  | cons r rs ih =>
    have hr : recordSize r.1 r.2 < tBlockSize := hsize r List.mem_cons_self
    have hrest := fun x hx => hsize x (List.mem_cons_of_mem r hx)
    have hsingle : groupSize [r] = r.size := by simp [groupSize]
    rw [List.foldlM_cons, packFrom, putRecord, hs.totalSz]
    by_cases hfull : tBlockSize ≤ groupSize g + recordSize r.1 r.2
    · have hnext : Filled codec h ⟨(done ++ [g]).flatMap (groupBlocks codec h),
          recordText r.1 r.2, recordSize r.1 r.2⟩ (done ++ [g]) [r] :=
        ⟨rfl, by simp [groupText, ExtRecord.text], hsingle.symm, hsingle ▸ hr⟩
      have hrun := ih hnext hrest
      rw [if_pos hfull, hs.flush, Option.map_some]
      rw [if_pos (show tBlockSize ≤ groupSize g + r.size from hfull)]
      rw [hsingle, List.append_assoc] at hrun
      exact hrun
    · have hlast : groupSize (g ++ [r]) = groupSize g + r.size := by simp [groupSize]
      have hnext : Filled codec h ⟨s.blocks, s.buf ++ recordText r.1 r.2,
          groupSize g + recordSize r.1 r.2⟩ done (g ++ [r]) :=
        ⟨hs.blocks, by simp [hs.buf, groupText, ExtRecord.text], hlast.symm, by
          rw [hlast]
          exact not_le.mp hfull⟩
      have hrun := ih hnext hrest
      rw [if_neg hfull]
      rw [if_neg (show ¬tBlockSize ≤ groupSize g + r.size from hfull)]
      rw [hlast] at hrun
      exact hrun

/-- The steps of `th_write` are those for the records. -/
theorem thWrite_eq {a : Attributes}
    (hcontext : ∀ context ∈ a.selinuxContext, recordSize .selinux context < tBlockSize) :
    thWrite codec h a = (a.records.foldlM (fun s r => putRecord codec h r.1 (some r.2) s)
      ⟨[], [], 0⟩).bind (finishWrite codec h) := by
  have hfold : a.records.foldlM (fun s r => putRecord codec h r.1 (some r.2) s) ⟨[], [], 0⟩ =
      ExtTag.all.foldlM (fun s tag => putRecord codec h tag (a.value tag) s) ⟨[], [], 0⟩ := by
    rw [Attributes.records, List.foldlM_filterMap]
    congr 1
    funext s tag
    cases a.value tag <;> rfl
  have hfirst : putRecord codec h .selinux a.selinuxContext ⟨[], [], 0⟩ =
      some (putContext a.selinuxContext) := by
    cases hvalue : a.selinuxContext with
    | none => rfl
    | some context =>
      have hsize := hcontext context hvalue
      rw [putRecord, putContext]
      dsimp only
      rw [if_neg (by omega), List.nil_append, Nat.zero_add]
  rw [hfold, ExtTag.all]
  simp only [List.foldlM_cons, List.foldlM_nil, Attributes.value, Option.bind_eq_bind]
  rw [hfirst]
  have hfinish : ∀ s, finishWrite codec h s = if 0 < s.totalSz then
      (thWriteExtended codec h s).bind fun blocks => some (blocks ++ [codec.finish h])
      else some (s.blocks ++ [codec.finish h]) := by
    intro s
    rw [finishWrite]
    split_ifs <;> rfl
  simp only [thWrite, hfinish, Option.bind_eq_bind, Option.bind_some, Option.bind_assoc,
    Option.pure_def]

end write

/-! ### Reading -/

section read
variable {α : Type} {codec : HeaderCodec α} {version : PolicyVersion} {allocated : Text}

/-- The next header, and what `readExtended` makes of it. -/
def readNext (version : PolicyVersion) (allocated : Text) (codec : HeaderCodec α)
    (a : Attributes) : List Text → Option (ThBuf α × Attributes × List Text)
  | [] => none
  | block :: rest =>
    (codec.readInternal block).bind fun h => readExtended version allocated codec h a rest

theorem thRead_eq (stream : List Text) :
    thRead version allocated codec stream = readNext version allocated codec .cleared stream := by
  cases stream <;> rfl

/-- The attributes after the blocks of some groups. -/
def readGroups (version : PolicyVersion) (allocated : Text) (gs : List (List ExtRecord))
    (a : Attributes) : Attributes :=
  gs.foldl (fun a g => readBlock version allocated (paddedBlock (groupText g)) a) a

theorem readNext_groups (h : OrdinaryHeader α) (data : List Text) {gs : List (List ExtRecord)}
    (hsize : ∀ g ∈ gs, groupSize g < tBlockSize) (a : Attributes) :
    readNext version allocated codec a
        (gs.flatMap (groupBlocks codec h.1) ++ codec.finish h.1 :: data) =
      some (h.1, readGroups version allocated gs a, data) := by
  have hordinary : ¬isExtended h.1 = true := by simp [h.2]
  induction gs generalizing a with
  | nil =>
    rw [List.flatMap_nil, List.nil_append, readNext, codec.readInternal_finish, Option.bind_some]
    cases data with
    | nil =>
      rw [readExtended.eq_def]
      exact if_neg hordinary
    | cons block rest =>
      rw [readExtended.eq_def]
      exact if_neg hordinary
  | cons g gs ih =>
    have hg := hsize g List.mem_cons_self
    have hrest := ih (fun x hx => hsize x (List.mem_cons_of_mem g hx))
      (readBlock version allocated (paddedBlock (groupText g)) a)
    rw [List.flatMap_cons, groupBlocks, List.append_assoc, List.cons_append, List.cons_append,
      List.nil_append, readNext, codec.readInternal_finish, Option.bind_some, readExtended.eq_def]
    dsimp only
    rw [if_pos (by rfl), if_neg (not_le.mpr hg)]
    -- what follows the block starts with a header
    cases hnext : gs.flatMap (groupBlocks codec h.1) ++ codec.finish h.1 :: data with
    | nil => simp at hnext
    | cons header rest =>
      rw [hnext] at hrest
      exact hrest

end read

/-! ### The search for a tag -/

section search
variable {t : ExtTag} {r : ExtRecord} {g : List ExtRecord}

/-- The value for a tag, unless it stands behind a zero byte. -/
def seen (t : ExtTag) : List ExtRecord → Option Text
  | [] => none
  | r :: g => if r.1 = t then some r.2 else if '\x00' ∈ r.2 then none else seen t g

/-- Only a tag with a `=` has a value. -/
def Valued (r : ExtRecord) : Prop := r.2 = [] ∨ r.1.text.getLast? = some '='

theorem cString_append (s rest : Text) :
    cString (s ++ rest) = if '\x00' ∈ s then cString s else s ++ cString rest := by
  induction s with
  | nil => simp
  | cons c s ih =>
    unfold cString at ih ⊢
    rw [List.cons_append, List.takeWhile_cons, List.takeWhile_cons, ih]
    by_cases hc : c = '\x00'
    · simp [hc]
    · have hne : '\x00' ≠ c := fun heq => hc heq.symm
      by_cases hs : '\x00' ∈ s <;> simp [hc, hne, hs]

theorem not_infix_digits (t : ExtTag) (n : ℕ) : ¬t.text <:+: decimal n ++ [' '] := by
  intro h
  rcases List.mem_append.mp (h.subset t.dot_mem) with hdot | hdot
  · exact absurd (isDigit_of_mem_decimal hdot) (by decide)
  · exact absurd (List.mem_singleton.mp hdot) (by decide)

/-- The own tag stands behind the size. -/
theorem search_own (t : ExtTag) (n : ℕ) (rest : Text) :
    searchFirst t.text (decimal n ++ ' ' :: (t.text ++ rest)) =
      some (decimal n ++ [' ']).length := by
  rw [(closedBy_of_not_mem t.blank_not_mem).searchFirst (not_infix_digits t n),
    searchFirst_of_prefixed ⟨rest, rfl⟩]
  rfl

/-- No other tag stands in a record, or in the beginning of one. -/
theorem not_infix_other (hne : t ≠ r.1) {w : Text} (hclear : ¬t.text <:+: w)
    (hvalued : w = [] ∨ r.1.text.getLast? = some '=') (n : ℕ) :
    ¬t.text <:+: decimal n ++ ' ' :: (r.1.text ++ w) := by
  rw [(closedBy_of_not_mem t.blank_not_mem).infix_iff, not_or]
  refine ⟨not_infix_digits t n, ?_⟩
  rcases hvalued with rfl | hlast
  · rw [List.append_nil]
    exact ExtTag.text_apart hne
  · obtain ⟨n, hn⟩ := List.getLast?_eq_some_iff.mp hlast
    have hsplit : r.1.text ++ w = n ++ '=' :: w := by rw [hn]; simp
    rw [hsplit, t.text_closed.infix_iff, ← hn, not_or]
    exact ⟨ExtTag.text_apart hne, hclear⟩

theorem nul_not_mem_digits (t : ExtTag) (n : ℕ) : '\x00' ∉ decimal n ++ ' ' :: t.text := by
  rw [List.mem_append, List.mem_cons, not_or, not_or]
  refine ⟨fun h => absurd (isDigit_of_mem_decimal h) (by decide), by decide, t.nul_not_mem⟩

/-- A block holds the value of a tag where the search finds it. -/
def FoundIn (t : ExtTag) (block v : Text) : Prop :=
  ∃ front back, block = front ++ (t.text ++ (v ++ '\n' :: back)) ∧ '\x00' ∉ front ∧
    searchFirst t.text (cString block) = some front.length

theorem search_group (hg : ∀ r ∈ g, Valued r) (hshown : ¬shown t g) (k : ℕ) :
    match seen t g with
    | some v => FoundIn t (groupText g ++ List.replicate k '\x00') v
    | none => searchFirst t.text (cString (groupText g ++ List.replicate k '\x00')) = none := by
  induction g with
  | nil =>
    rw [seen, groupText, List.flatMap_nil, List.nil_append, searchFirst_eq_none_iff]
    intro h
    have hdot := h.subset t.dot_mem
    have hzero := List.eq_of_mem_replicate (List.takeWhile_subset _ hdot)
    exact absurd hzero (by decide)
  | cons r g ih =>
    have hr := hg r List.mem_cons_self
    have hwhole : groupText (r :: g) ++ List.replicate k '\x00' =
        (decimal (recordSize r.1 r.2) ++ ' ' :: r.1.text) ++
          (r.2 ++ '\n' :: (groupText g ++ List.replicate k '\x00')) := by
      simp [groupText, ExtRecord.text, recordText]
    have hvisible : cString (groupText (r :: g) ++ List.replicate k '\x00') =
        (decimal (recordSize r.1 r.2) ++ ' ' :: r.1.text) ++
          cString (r.2 ++ '\n' :: (groupText g ++ List.replicate k '\x00')) := by
      rw [hwhole, cString_append, if_neg (nul_not_mem_digits r.1 _)]
    rw [seen]
    by_cases hown : r.1 = t
    · rw [if_pos hown]
      dsimp only
      refine ⟨decimal (recordSize r.1 r.2) ++ [' '], groupText g ++ List.replicate k '\x00',
        ?_, ?_, ?_⟩
      · rw [hwhole, hown]
        simp
      · exact fun h => nul_not_mem_digits r.1 _ (by
          rcases List.mem_append.mp h with h | h
          · exact List.mem_append_left _ h
          · exact List.mem_append_right _ (List.mem_cons.mpr (Or.inl (List.mem_singleton.mp h))))
      · rw [hvisible, hown, List.append_assoc, List.cons_append]
        exact search_own t _ _
    rw [if_neg hown]
    rw [shown, if_neg hown, not_or, not_and] at hshown
    obtain ⟨hclear, hbehind⟩ := hshown
    have hne : t ≠ r.1 := fun heq => hown heq.symm
    by_cases hnul : '\x00' ∈ r.2
    · rw [if_pos hnul]
      dsimp only
      rw [hvisible, cString_append, if_pos hnul, searchFirst_eq_none_iff, List.append_assoc,
        List.cons_append]
      refine not_infix_other hne hclear ?_ _
      rcases hr with hnil | hlast
      · rw [hnil] at hnul
        cases hnul
      · exact Or.inr hlast
    · rw [if_neg hnul]
      have hrest := ih (fun x hx => hg x (List.mem_cons_of_mem r hx)) (hbehind hnul)
      rw [cString_of_no_nul hnul] at hclear
      have hmore : cString (groupText (r :: g) ++ List.replicate k '\x00') =
          (decimal (recordSize r.1 r.2) ++ ' ' :: (r.1.text ++ r.2)) ++
            '\n' :: cString (groupText g ++ List.replicate k '\x00') := by
        rw [hvisible, cString_append, if_neg hnul]
        simp [cString]
      have hskip := not_infix_other hne hclear hr (recordSize r.1 r.2)
      have hclosed := closedBy_of_not_mem t.newline_not_mem
      have hfront : ¬t.text <:+:
          (decimal (recordSize r.1 r.2) ++ ' ' :: (r.1.text ++ r.2)) ++ ['\n'] := by
        rwa [infix_concat_iff_of_not_mem t.newline_not_mem]
      have hfind := @ClosedBy.searchFirst _ _ _ _
        (cString (groupText g ++ List.replicate k '\x00')) _ hclosed hfront
      rw [← hmore] at hfind
      cases hseen : seen t g with
      | none =>
        rw [hseen] at hrest
        dsimp only at hrest ⊢
        rw [hfind, hrest, Option.map_none]
      | some v =>
        rw [hseen] at hrest
        dsimp only at hrest ⊢
        obtain ⟨front, back, hblock, hzero, hat⟩ := hrest
        refine ⟨(decimal (recordSize r.1 r.2) ++ ' ' :: (r.1.text ++ r.2)) ++ '\n' :: front, back,
          ?_, ?_, ?_⟩
        · rw [hwhole, hblock]
          simp
        · rw [List.mem_append, List.mem_cons, not_or, not_or]
          refine ⟨?_, by decide, hzero⟩
          have hdigits := nul_not_mem_digits r.1 (recordSize r.1 r.2)
          simp only [List.mem_append, List.mem_cons, not_or] at hdigits ⊢
          exact ⟨hdigits.1, hdigits.2.1, hdigits.2.2, hnul⟩
        · rw [hfind, hat, Option.map_some]
          simp only [List.length_append, List.length_cons, List.length_nil]
          congr 1
          omega

end search

section blocks
variable {t : ExtTag} {g : List ExtRecord} {version : PolicyVersion} {allocated : Text}
  {block v : Text} {a : Attributes}

/-- The value of a tag has its form. -/
def ValueOf (version : PolicyVersion) : ExtTag → Text → Prop
  | .selinux, v => '\n' ∉ v ∧ '\x00' ∉ v
  | .fscrypt, v => ∃ policy, v = '0' :: policy ∧ policy.length = version.size
  | .capabilities, v => v.length = capDataSize
  | _, v => v = []

/-- Where a value was found, the string ends behind its tag or goes on with it. -/
theorem FoundIn.valueStart (h : FoundIn t block v) :
    ∃ start rest, block.drop start = v ++ '\n' :: rest ∧
      (cString block).drop start = cString (v ++ '\n' :: rest) ∧
      valueStart t (cString block) = if v.head? = some '\x00' then none else some start := by
  obtain ⟨front, back, hblock, hzero, hfind⟩ := h
  have hzero' : '\x00' ∉ front ++ t.text := by simp [hzero, t.nul_not_mem]
  have hassoc : block = (front ++ t.text) ++ (v ++ '\n' :: back) := by rw [hblock]; simp
  have hvisible : cString block = (front ++ t.text) ++ cString (v ++ '\n' :: back) := by
    rw [hassoc, cString_append, if_neg hzero']
  refine ⟨(front ++ t.text).length, back, ?_, ?_, ?_⟩
  · rw [hassoc, List.drop_left]
  · rw [hvisible, List.drop_left]
  · have hlength : (cString block).length =
        front.length + t.text.length + (cString (v ++ '\n' :: back)).length := by
      rw [hvisible, List.length_append, List.length_append]
    rw [Libtar.valueStart, hfind, Option.bind_some, hlength, List.length_append]
    have hempty : cString (v ++ '\n' :: back) = [] ↔ v.head? = some '\x00' := by
      cases v with
      | nil => simp [cString]
      | cons c v => by_cases hc : c = '\x00' <;> simp [cString, hc]
    by_cases hhead : v.head? = some '\x00'
    · rw [if_pos hhead, hempty.mpr hhead]
      simp
    · have hpos := List.length_pos_iff.mpr (hhead ∘ hempty.mp)
      rw [if_neg hhead, if_pos (by omega)]

theorem valueStart_none (h : searchFirst t.text (cString block) = none) :
    valueStart t (cString block) = none := by
  rw [valueStart, h]
  rfl

/-- The value that `th_read` takes from a block for a tag. -/
def taken (t : ExtTag) (g : List ExtRecord) : Option Text :=
  (seen t g).filter fun v => !(t = .capabilities && v.head? = some '\x00')

theorem foundIn_of_found (hv : ValueOf version t v) (h : FoundIn t (paddedBlock (groupText g)) v) :
    foundIn version allocated t g =
      if t = .capabilities ∧ v.head? = some '\x00' then none else some v := by
  obtain ⟨start, rest, hblock, hstring, hstart⟩ := h.valueStart
  obtain ⟨front, back, -, -, hfind⟩ := h
  cases t with
  | selinux =>
    obtain ⟨hline, hnul⟩ := hv
    have hhead : ¬v.head? = some '\x00' := fun h => hnul (List.mem_of_mem_head? h)
    have htext : (cString (paddedBlock (groupText g))).drop start = v ++ '\n' :: cString rest := by
      rw [hstring, cString_append, if_neg hnul]
      rfl
    rw [if_neg hhead] at hstart
    have hmem : '\n' ∈ v ++ '\n' :: cString rest := by simp
    have hline' : (v ++ '\n' :: cString rest).takeWhile (· ≠ '\n') = v := by
      rw [List.takeWhile_append_of_pos]
      · simp
      · intro c hc
        simpa using fun heq : c = '\n' => hline (heq ▸ hc)
    rw [if_neg (by simp)]
    simp only [foundIn, hstart, htext, Option.bind_some, if_pos hmem, hline']
  | fscrypt =>
    obtain ⟨policy, rfl, hsize⟩ := hv
    have htext : ((cString (paddedBlock (groupText g))).drop start).head? = some '0' := by
      rw [hstring]
      simp [cString]
    have hpolicy : ((paddedBlock (groupText g)).drop (start + 1)).take version.size = policy := by
      rw [← List.drop_drop, hblock, ← hsize]
      simp
    rw [if_neg (by simp)] at hstart
    rw [if_neg (by simp)]
    simp only [foundIn, hstart, htext, if_true, hpolicy, Option.map_some]
  | capabilities =>
    have htake : ((paddedBlock (groupText g)).drop start).take capDataSize = v := by
      rw [hblock, List.take_left' hv]
    by_cases hhead : v.head? = some '\x00'
    · rw [if_pos hhead] at hstart
      rw [if_pos ⟨rfl, hhead⟩]
      simp only [foundIn, hstart, Option.map_none]
    · rw [if_neg hhead] at hstart
      rw [if_neg (fun h => hhead h.2)]
      simp only [foundIn, hstart, htake, Option.map_some]
  | userDefault | userCache | userCodeCache =>
    obtain rfl : v = [] := hv
    rw [if_neg (by simp)]
    simp only [foundIn, hfind, Option.map_some]

theorem foundIn_none (h : searchFirst t.text (cString (paddedBlock (groupText g))) = none) :
    foundIn version allocated t g = none := by
  have hstart := valueStart_none h
  cases t with
  | selinux | fscrypt | capabilities =>
    simp only [foundIn, hstart, Option.bind_none, Option.map_none]
  | userDefault | userCache | userCodeCache =>
    simp only [foundIn, h, Option.map_none]

/-- The last byte of a block is free. -/
theorem paddedBlock_set {s : Text} (h : s.length < tBlockSize) :
    (paddedBlock s).set (tBlockSize - 1) '\x00' = paddedBlock s := by
  rw [paddedBlock, List.set_append_right _ _ (by omega), List.set_replicate_self]

/-- The records of a block have the form of their tags. -/
structure PlainGroup (version : PolicyVersion) (g : List ExtRecord) : Prop where
  valued : ∀ r ∈ g, Valued r
  form : ∀ r ∈ g, ValueOf version r.1 r.2
  sizes : ∀ r ∈ g, r.size < tBlockSize
  fits : groupSize g < tBlockSize

theorem mem_of_seen (h : seen t g = some v) : (t, v) ∈ g := by
  induction g with
  | nil => cases h
  | cons r g ih =>
    rw [seen] at h
    split_ifs at h with htag hnul
    · cases h
      exact htag ▸ List.mem_cons_self
    · exact List.mem_cons_of_mem r (ih h)

/-- What a block changes. -/
theorem readBlock_value (hg : PlainGroup version g) :
    (readBlock version allocated (paddedBlock (groupText g)) a).value t =
      (foundIn version allocated t g).or (a.value t) := by
  have hlast : (paddedBlock (groupText g)).set (tBlockSize - 1) '\x00' =
      paddedBlock (groupText g) := by
    apply paddedBlock_set
    rw [groupText_length hg.sizes]
    exact hg.fits
  cases t with
  | selinux =>
    simp only [readBlock, Attributes.value, hlast, foundIn]
    cases valueStart .selinux (cString (paddedBlock (groupText g))) with
    | none => rfl
    | some start =>
      rw [Option.bind_some]
      dsimp only
      split_ifs
      · rfl
      · rfl
  | fscrypt =>
    simp only [readBlock, Attributes.value, hlast, foundIn]
    cases valueStart .fscrypt (cString (paddedBlock (groupText g))) with
    | none => rfl
    | some start =>
      simp only [Option.map_some, Option.some_or]
      split_ifs
      · rfl
      · rfl
  | capabilities =>
    simp only [readBlock, Attributes.value, hlast, foundIn]
    cases valueStart .capabilities (cString (paddedBlock (groupText g))) with
    | none => rfl
    | some start => rfl
  | userDefault | userCache | userCodeCache =>
    simp only [readBlock, Attributes.value, hlast, foundIn]
    cases searchFirst _ (cString (paddedBlock (groupText g))) with
    | none => rfl
    | some start => rfl

/-- The own record is found where the text of its tag stands in no other value. -/
theorem foundIn_eq_taken (hg : PlainGroup version g) (hshown : ¬shown t g) :
    foundIn version allocated t g = taken t g := by
  have hsearch := search_group hg.valued hshown (tBlockSize - (groupText g).length)
  rw [taken]
  cases hseen : seen t g with
  | none =>
    rw [hseen] at hsearch
    rw [foundIn_none hsearch]
    rfl
  | some v =>
    rw [hseen] at hsearch
    rw [foundIn_of_found (hg.form (t, v) (mem_of_seen hseen)) hsearch]
    by_cases hcap : t = .capabilities ∧ v.head? = some '\x00'
    · rw [if_pos hcap]
      simp [Option.filter, hcap]
    · have hkeep := not_and_or.mp hcap
      rw [if_neg hcap]
      simp [Option.filter, hkeep]

end blocks

section groups
variable {t : ExtTag} {g : List ExtRecord} {gs : List (List ExtRecord)} {version : PolicyVersion}
  {allocated : Text} {a : Attributes}

theorem taken_none (h : ∀ r ∈ g, r.1 ≠ t) : taken t g = none := by
  rw [taken]
  cases hseen : seen t g with
  | none => rfl
  | some v => exact absurd rfl (h (t, v) (mem_of_seen hseen))

/-- What the blocks change. -/
theorem readGroups_value (hgs : ∀ g ∈ gs, PlainGroup version g) :
    (readGroups version allocated gs a).value t =
      (found version allocated t gs).or (a.value t) := by
  induction gs generalizing a with
  | nil => rfl
  | cons g gs ih =>
    have hrest := @ih (readBlock version allocated (paddedBlock (groupText g)) a)
      fun x hx => hgs x (List.mem_cons_of_mem g hx)
    rw [readBlock_value (hgs g List.mem_cons_self), ← Option.or_assoc] at hrest
    exact hrest

theorem found_none (h : ∀ g ∈ gs, foundIn version allocated t g = none) :
    found version allocated t gs = none := by
  induction gs with
  | nil => rfl
  | cons g gs ih =>
    rw [found, h g List.mem_cons_self, Option.or_none]
    exact ih fun x hx => h x (List.mem_cons_of_mem g hx)

theorem found_append (before after : List (List ExtRecord)) :
    found version allocated t (before ++ after) =
      (found version allocated t after).or (found version allocated t before) := by
  induction before with
  | nil => rw [List.nil_append, found, Option.or_none]
  | cons g before ih => rw [List.cons_append, found, found, ih, Option.or_assoc]

/-- A tag that stands in no other value is read from the one group that has it. -/
theorem found_eq_taken (hgs : ∀ g ∈ gs, PlainGroup version g) (hshown : ∀ g ∈ gs, ¬shown t g)
    (hnodup : (gs.flatten.map Prod.fst).Nodup) (hg : g ∈ gs) {v : Text} (hv : (t, v) ∈ g) :
    found version allocated t gs = taken t g := by
  have htaken : ∀ x ∈ gs, foundIn version allocated t x = taken t x := fun x hx =>
    foundIn_eq_taken (hgs x hx) (hshown x hx)
  obtain ⟨before, after, rfl⟩ := List.append_of_mem hg
  rw [List.flatten_append, List.flatten_cons, List.map_append, List.map_append] at hnodup
  have htag : t ∈ g.map Prod.fst := List.mem_map.mpr ⟨(t, v), hv, rfl⟩
  have hother : ∀ x ∈ before ++ after, taken t x = none := by
    intro x hx
    apply taken_none
    rintro r hr rfl
    obtain ⟨-, hrest, hfront⟩ := List.nodup_append.mp hnodup
    have hback := (List.nodup_append.mp hrest).2.2
    rcases List.mem_append.mp hx with hx | hx
    · have hmem : r.1 ∈ before.flatten.map Prod.fst :=
        List.mem_map.mpr ⟨r, List.mem_flatten.mpr ⟨x, hx, hr⟩, rfl⟩
      exact hfront _ hmem _ (List.mem_append_left _ htag) rfl
    · have hmem : r.1 ∈ after.flatten.map Prod.fst :=
        List.mem_map.mpr ⟨r, List.mem_flatten.mpr ⟨x, hx, hr⟩, rfl⟩
      exact hback _ htag _ hmem rfl
  have hbefore : found version allocated t before = none := by
    apply found_none
    intro x hx
    rw [htaken x (List.mem_append_left _ hx)]
    exact hother x (List.mem_append_left _ hx)
  have hafter : found version allocated t after = none := by
    apply found_none
    intro x hx
    rw [htaken x (List.mem_append_right _ (List.mem_cons_of_mem g hx))]
    exact hother x (List.mem_append_right _ hx)
  rw [found_append, found, hbefore, hafter, Option.or_none, Option.none_or,
    htaken g (List.mem_append_right _ List.mem_cons_self)]

/-- A record is seen exactly if no value in front of it in its block has a zero byte. -/
theorem seen_iff {v : Text} {front back : List ExtRecord}
    (hnodup : ((front ++ (t, v) :: back).map Prod.fst).Nodup) :
    seen t (front ++ (t, v) :: back) = some v ↔ ∀ r ∈ front, '\x00' ∉ r.2 := by
  induction front with
  | nil => simp [seen]
  | cons r front ih =>
    rw [List.cons_append, List.map_cons, List.nodup_cons] at hnodup
    have hmem : (t, v) ∈ front ++ (t, v) :: back := List.mem_append_right front List.mem_cons_self
    have hne : r.1 ≠ t := fun heq => hnodup.1 (List.mem_map.mpr ⟨(t, v), hmem, heq.symm⟩)
    rw [List.cons_append, seen, if_neg hne, List.forall_mem_cons]
    by_cases hnul : '\x00' ∈ r.2
    · simp [hnul]
    · rw [if_neg hnul, ih hnodup.2, and_iff_right hnul]

theorem taken_iff {v : Text} {front back : List ExtRecord}
    (hnodup : ((front ++ (t, v) :: back).map Prod.fst).Nodup) :
    taken t (front ++ (t, v) :: back) = some v ↔
      (t = .capabilities → v.head? ≠ some '\x00') ∧ ∀ r ∈ front, '\x00' ∉ r.2 := by
  rw [← seen_iff hnodup, taken, Option.filter_eq_some_iff]
  simp
  tauto

end groups

section metadata
variable {version : PolicyVersion} (m : Metadata version)

theorem Attributes.mem_records {a : Attributes} {r : ExtRecord} :
    r ∈ a.records ↔ a.value r.1 = some r.2 := by
  rw [Attributes.records, List.mem_filterMap]
  constructor
  · rintro ⟨tag, -, htag⟩
    obtain ⟨v, hv, rfl⟩ := Option.map_eq_some_iff.mp htag
    exact hv
  · intro h
    exact ⟨r.1, r.1.mem_all, by rw [h]; rfl⟩

theorem map_fst_filterMap (f : ExtTag → Option Text) (tags : List ExtTag) :
    ((tags.filterMap fun tag => (f tag).map (tag, ·)).map Prod.fst).Sublist tags := by
  induction tags with
  | nil => exact List.Sublist.slnil
  | cons tag tags ih =>
    cases h : f tag with
    | none => simpa [List.filterMap_cons, h] using ih.cons tag
    | some v => simpa [List.filterMap_cons, h] using ih

theorem Attributes.records_nodup (a : Attributes) : (a.records.map Prod.fst).Nodup :=
  (map_fst_filterMap a.value ExtTag.all).nodup (by decide)

theorem Metadata.form : ∀ r ∈ m.attributes.records, ValueOf version r.1 r.2 := by
  intro r hr
  have hvalue := Attributes.mem_records.mp hr
  obtain ⟨tag, v⟩ := r
  cases tag with
  | selinux => exact m.contextLine v hvalue
  | fscrypt =>
    obtain ⟨policy, hpolicy, rfl⟩ := Option.map_eq_some_iff.mp hvalue
    exact ⟨policy, rfl, m.fepSize policy hpolicy⟩
  | capabilities => exact m.capSize v hvalue
  | userDefault | userCache | userCodeCache =>
    simp only [Attributes.value, flag] at hvalue
    split_ifs at hvalue
    exact (Option.some.inj hvalue).symm

theorem Metadata.size_lt : ∀ r ∈ m.attributes.records, r.size < tBlockSize := by
  intro r hr
  have hform := m.form r hr
  have hvalue := Attributes.mem_records.mp hr
  obtain ⟨tag, v⟩ := r
  have hshort : v.length ≤ 25 → recordSize tag v < tBlockSize := by
    intro hv
    have htag := tag.text_length
    unfold recordSize tBlockSize
    dsimp only
    split_ifs <;> omega
  cases tag with
  | selinux => exact m.contextFits v hvalue
  | fscrypt =>
    obtain ⟨policy, rfl, hsize⟩ := hform
    apply hshort
    rw [List.length_cons, hsize]
    cases version <;> decide
  | capabilities =>
    apply hshort
    rw [show v.length = capDataSize from hform]
    decide
  | userDefault | userCache | userCodeCache =>
    apply hshort
    rw [show v = [] from hform]
    decide

theorem Metadata.valued : ∀ r ∈ m.attributes.records, Valued r := by
  intro r hr
  have hform := m.form r hr
  obtain ⟨tag, v⟩ := r
  cases tag with
  | selinux | fscrypt | capabilities =>
    right
    rw [ExtTag.text_eq]
    rfl
  | userDefault | userCache | userCodeCache => exact Or.inl hform

theorem recordSize_pos (r : ExtRecord) : 0 < r.size := by
  unfold ExtRecord.size recordSize
  dsimp only
  split_ifs <;> omega

theorem Metadata.flatten_groups : m.attributes.groups.flatten = m.attributes.records :=
  flatten_packFrom (fun r _ => recordSize_pos r) fun _ => rfl

theorem Metadata.mem_of_group {g : List ExtRecord} (hg : g ∈ m.attributes.groups) :
    ∀ r ∈ g, r ∈ m.attributes.records := by
  intro r hr
  rw [← m.flatten_groups]
  exact List.mem_flatten.mpr ⟨g, hg, hr⟩

theorem Metadata.plainGroup : ∀ g ∈ m.attributes.groups, PlainGroup version g := by
  intro g hg
  have hmem := m.mem_of_group hg
  refine ⟨fun r hr => m.valued r (hmem r hr), fun r hr => m.form r (hmem r hr),
    fun r hr => m.size_lt r (hmem r hr), ?_⟩
  exact sum_of_mem_packFrom m.size_lt (by decide) rfl g hg

theorem Metadata.groups_nodup : (m.attributes.groups.flatten.map Prod.fst).Nodup := by
  rw [m.flatten_groups]
  exact m.attributes.records_nodup

variable {α : Type} (codec : HeaderCodec α) (h : OrdinaryHeader α)

theorem Metadata.thWrite : thWrite codec h.1 m.attributes =
    some (m.attributes.groups.flatMap (groupBlocks codec h.1) ++ [codec.finish h.1]) := by
  have hempty : Filled codec h.1 ⟨[], [], 0⟩ [] [] := ⟨rfl, rfl, rfl, by decide⟩
  rw [thWrite_eq m.contextFits]
  exact hempty.write m.size_lt

/-- The round trip, tag by tag. -/
theorem roundTrips_iff_found (allocated : Text) :
    RoundTrips codec version allocated h m.attributes ↔
      ∀ t, found version allocated t m.attributes.groups = m.attributes.value t := by
  have hsize : ∀ g ∈ m.attributes.groups, groupSize g < tBlockSize := fun g hg =>
    sum_of_mem_packFrom m.size_lt (by decide) rfl g hg
  have hread : ∀ data, thRead version allocated codec
      ((m.attributes.groups.flatMap (groupBlocks codec h.1) ++ [codec.finish h.1]) ++ data) =
        some (h.1, readGroups version allocated m.attributes.groups .cleared, data) := by
    intro data
    rw [thRead_eq, List.append_assoc]
    exact readNext_groups h data hsize .cleared
  have hvalue : ∀ t, (readGroups version allocated m.attributes.groups .cleared).value t =
      found version allocated t m.attributes.groups := by
    intro t
    rw [readGroups_value m.plainGroup, Attributes.value_cleared, Option.or_none]
  constructor
  · intro hround t
    obtain ⟨blocks, hblocks, hsame⟩ := hround []
    rw [m.thWrite codec h] at hblocks
    cases hblocks
    rw [hread] at hsame
    rw [← hvalue]
    exact congrArg (Attributes.value · t) (by simpa using hsame)
  · intro hsame data
    have hall := Attributes.ext_value fun t => (hvalue t).trans (hsame t)
    exact ⟨_, m.thWrite codec h, by rw [hread, hall]⟩

variable {t : ExtTag}

/-- What is not stored is not found, if its tag stands in no value. -/
theorem Metadata.found_none (allocated : Text) (hforeign : ¬m.Foreign t)
    (hvalue : m.attributes.value t = none) :
    found version allocated t m.attributes.groups = none := by
  apply Libtar.found_none
  intro g hg
  rw [foundIn_eq_taken (m.plainGroup g hg) fun hshown => hforeign ⟨g, hg, hshown⟩]
  apply taken_none
  rintro r hr rfl
  rw [Attributes.mem_records.mp (m.mem_of_group hg r hr)] at hvalue
  cases hvalue

/-- What is stored is found exactly if its record is reached, if its tag stands in no value. -/
theorem Metadata.found_iff (allocated : Text) (hforeign : ¬m.Foreign t) {v : Text}
    {front back : List ExtRecord} (hg : front ++ (t, v) :: back ∈ m.attributes.groups) :
    found version allocated t m.attributes.groups = some v ↔
      (t = .capabilities → v.head? ≠ some '\x00') ∧ ∀ r ∈ front, '\x00' ∉ r.2 := by
  have hnodup := ((List.sublist_flatten_of_mem hg).map Prod.fst).nodup m.groups_nodup
  have hshown : ∀ g ∈ m.attributes.groups, ¬shown t g := fun g hg hshown =>
    hforeign ⟨g, hg, hshown⟩
  have hmem : (t, v) ∈ front ++ (t, v) :: back := List.mem_append_right front List.mem_cons_self
  rw [found_eq_taken m.plainGroup hshown m.groups_nodup hg hmem, taken_iff hnodup]

end metadata

/-! ### A file with capabilities -/

theorem shown_dot {t : ExtTag} {g : List ExtRecord} (h : shown t g) : ∃ r ∈ g, '.' ∈ r.2 := by
  induction g with
  | nil => exact h.elim
  | cons r g ih =>
    rw [shown] at h
    split_ifs at h
    rcases h with hin | ⟨-, hbehind⟩
    · exact ⟨r, List.mem_cons_self, List.takeWhile_subset _ (hin.subset t.dot_mem)⟩
    · obtain ⟨x, hx, hdot⟩ := ih hbehind
      exact ⟨x, List.mem_cons_of_mem r hx, hdot⟩

/-- Headers that are their type and as many characters as their size says. -/
def plainHeaders : HeaderCodec Unit where
  finish h := h.typeflag :: List.replicate h.size '0'
  readInternal
    | [] => none
    | c :: rest => some ⟨c, rest.length, ()⟩
  readInternal_finish h := by simp

def plainFile : OrdinaryHeader Unit := ⟨⟨'0', 3, ()⟩, rfl⟩

/-- `CAP_NET_RAW` is permitted; the first byte is the one that tells if it is effective. -/
def netRaw (effective : Char) : Text :=
  [effective, '\x00', '\x00', '\x02', '\x00', ' '] ++ List.replicate 14 '\x00'

def netRawFile (effective : Char) : Metadata .v2 where
  attributes := ⟨none, none, some (netRaw effective), false, false, false⟩
  contextLine := by simp
  contextFits := by simp
  fepSize := by simp
  capSize := by
    intro cap hcap
    cases hcap
    rfl

theorem netRawFile_records (c : Char) :
    (netRawFile c).attributes.records = [(.capabilities, netRaw c)] := rfl

theorem netRawFile_groups (c : Char) :
    (netRawFile c).attributes.groups = [[(.capabilities, netRaw c)]] := by
  have hsize : ExtRecord.size (.capabilities, netRaw c) = 57 := by
    rw [ExtRecord.size, recordSize, ExtTag.text_eq]
    rfl
  rw [Attributes.groups, netRawFile_records, pack, packFrom, hsize, if_neg (by decide), packFrom,
    if_pos (by decide), List.nil_append]

theorem netRawFile_not_foreign {c : Char} (hc : c ≠ '.') (t : ExtTag) :
    ¬(netRawFile c).Foreign t := by
  rintro ⟨g, hg, hshown⟩
  rw [netRawFile_groups] at hg
  obtain ⟨r, hr, hdot⟩ := shown_dot hshown
  rw [List.mem_singleton.mp hg] at hr
  rw [List.mem_singleton.mp hr] at hdot
  rcases List.mem_cons.mp hdot with heq | hdot
  · exact hc heq.symm
  · exact absurd hdot (by decide)

end BootableRecovery.Libtar
