import BootableRecovery.Libtar.HeaderLaws

namespace BootableRecovery.Libtar

/-! Headers that were written: what is read from them, and what damage is found. -/

open Lib

/-! ### What is read from a header that was written -/

namespace HeaderBlock

section written
variable {b : HeaderBlock} {f : Field} {num : Int64} {n : ℕ} {gnu : Bool}

theorem intToOctEx_length (hlow : 8 ≤ n) : (intToOctEx num n).length = n := by
  rw [intToOctEx]
  split_ifs
  · have hlength : (binaryBytes num n).length = n := by
      simp [binaryBytes]
      omega
    cases hbytes : binaryBytes num n with
    | nil => rw [hbytes] at hlength; exact hlength
    | cons first rest => rw [hbytes] at hlength; exact hlength
  · rw [intToOct_eq (by omega)]
    simp
    omega

theorem intToOct_length (hlow : 0 < n) : (intToOct num n).length = n := by
  rw [intToOct_eq hlow]
  simp
  omega

theorem octToIntEx_text (h : b.field f = intToOctEx num f.length) (hlow : 9 ≤ f.length) :
    octToIntEx (b.text f) f.length = num := by
  rw [text_eq, h, octToIntEx_intToOctEx hlow]

theorem octToInt_text (h : b.field f = intToOct num f.length) (hlow : 2 ≤ f.length) :
    octToInt (b.text f) = (UInt64.ofNat (unsigned num % 8 ^ (f.length - 1))).toInt64 := by
  rw [text_eq, h, octToInt_places hlow]

theorem field_thFinish (h : f ≠ .magic ∧ f ≠ .version ∧ f ≠ .chksum) :
    (thFinish gnu b).field f = b.field f := by
  obtain ⟨hmagic, hversion, hchksum⟩ := h
  cases gnu <;> simp [thFinish, hmagic, hversion, hchksum]

/-- Storing the checksum does not change it. -/
theorem field_put_crc (b : HeaderBlock) :
    (b.put .chksum (intToOct (Int64.ofInt (thCrcCalc b)) 8)).field .chksum =
      intToOct (Int64.ofInt (thCrcCalc
        (b.put .chksum (intToOct (Int64.ofInt (thCrcCalc b)) 8)))) 8 := by
  have hlength : (intToOct (Int64.ofInt (thCrcCalc b)) 8).length = 8 :=
    intToOct_length (by decide)
  rw [field_put_same hlength]
  exact congrArg (fun crc => intToOct (Int64.ofInt crc) 8) (crcCalc_put _ hlength).symm

theorem thFinish_chksum : (thFinish gnu b).field .chksum =
    intToOct (Int64.ofInt (thCrcCalc (thFinish gnu b))) 8 := field_put_crc _

theorem toInt_ofInt_crc (b : HeaderBlock) : (Int64.ofInt (thCrcCalc b)).toInt = thCrcCalc b := by
  have hcrc := thCrcCalc_mem b
  apply Int64.toInt_ofInt_of_le
  · norm_num at hcrc ⊢
    omega
  · norm_num at hcrc ⊢
    omega

/-- The stored checksum is read, whatever stands behind its field. -/
theorem octToInt_chksum (b : HeaderBlock) (rest : Bytes) :
    (octToInt (intToOct (Int64.ofInt (thCrcCalc b)) 8 ++ rest)).toInt = thCrcCalc b := by
  have hcrc := thCrcCalc_mem b
  have hvalue := toInt_ofInt_crc b
  rw [octToInt_intToOct (by decide), hvalue]
  · rw [Int64.lt_iff_toInt_lt, hvalue]
    simpa using hcrc.1
  · rw [hvalue]
    exact hcrc.2

theorem thGetCrc_thFinish : (thGetCrc (thFinish gnu b)).toInt = thCrcCalc (thFinish gnu b) := by
  rw [thGetCrc, text_eq, thFinish_chksum, octToInt_chksum]

theorem thCrcOk_thFinish : thCrcOk (thFinish gnu b) = true := by
  rw [thCrcOk, thGetCrc_thFinish]
  simp

end written

/-! ### Damage -/

/-- One byte of the block is another one. -/
def setByte (b : HeaderBlock) (i : ℕ) (v : UInt8) : HeaderBlock :=
  ⟨b.bytes.set i v, by rw [List.length_set, b.size]⟩

section damage
variable {b : HeaderBlock} {gnu : Bool} {i : ℕ} {v : UInt8}

theorem sum_set (s : Bytes) (h : i < s.length) : ((s.set i v).map unsignedChar).sum =
    (s.map unsignedChar).sum - unsignedChar s[i] + unsignedChar v := by
  induction s generalizing i with
  | nil => simp at h
  | cons x s ih =>
    cases i with
    | zero =>
      rw [List.set_cons_zero, List.map_cons, List.map_cons, List.sum_cons, List.sum_cons,
        List.getElem_cons_zero]
      ring
    | succ i =>
      have hi : i < s.length := by simpa using h
      rw [List.set_cons_succ, List.map_cons, List.map_cons, List.sum_cons, List.sum_cons, ih hi]
      simp only [List.getElem_cons_succ]
      ring

theorem sum_take_set (s : Bytes) {k : ℕ} (h : i < k) (hi : i < s.length) :
    (((s.set i v).take k).map unsignedChar).sum =
      ((s.take k).map unsignedChar).sum - unsignedChar s[i] + unsignedChar v := by
  have hlength : i < (s.take k).length := by
    rw [List.length_take]
    omega
  rw [List.take_set, sum_set _ hlength, List.getElem_take]

theorem sum_drop_set (s : Bytes) {k : ℕ} (h : k ≤ i) (hi : i < s.length) :
    (((s.set i v).drop k).map unsignedChar).sum =
      ((s.drop k).map unsignedChar).sum - unsignedChar s[i] + unsignedChar v := by
  have hlength : i - k < (s.drop k).length := by
    rw [List.length_drop]
    omega
  have helem : (s.drop k)[i - k] = s[i] := by
    rw [List.getElem_drop]
    congr 1
    omega
  rw [List.drop_set, if_neg (Nat.not_lt.mpr h), sum_set _ hlength, helem]

theorem thCrcCalc_setByte (h : i < 148 ∨ 156 ≤ i) (hi : i < b.bytes.length) :
    thCrcCalc (b.setByte i v) = thCrcCalc b - unsignedChar b.bytes[i] + unsignedChar v := by
  have hbytes : (b.setByte i v).bytes = b.bytes.set i v := rfl
  rw [thCrcCalc, thCrcCalc, crcCalc_eq, crcCalc_eq, hbytes]
  rcases h with h | h
  · rw [sum_take_set _ h hi, List.drop_set, if_pos (Nat.lt_trans h (by decide))]
    ring
  · rw [List.take_set_of_le (Nat.le_trans (by decide) h), sum_drop_set _ h hi]
    ring

theorem field_setByte (h : i < 148 ∨ 156 ≤ i) :
    (b.setByte i v).field .chksum = b.field .chksum := by
  apply List.ext_getElem?
  intro j
  have hlength : Field.length .chksum = 8 := rfl
  have hoffset : Field.offset .chksum = 148 := rfl
  rw [field, field, text, text, setByte, hlength, hoffset]
  rcases Nat.lt_or_ge j 8 with hj | hj
  · have hne : i ≠ 148 + j := by omega
    rw [List.getElem?_take_of_lt hj, List.getElem?_take_of_lt hj, List.getElem?_drop,
      List.getElem?_drop]
    exact List.getElem?_set_ne hne
  · rw [List.getElem?_take_eq_none hj, List.getElem?_take_eq_none hj]

/-- No other value of one byte outside the checksum passes, not even as the signed sum. -/
theorem thCrcOk_setByte (h : i < 148 ∨ 156 ≤ i) (hi : i < (thFinish gnu b).bytes.length)
    (hv : v ≠ (thFinish gnu b).bytes[i]) : thCrcOk ((thFinish gnu b).setByte i v) = false := by
  have hcrc : (thGetCrc ((thFinish gnu b).setByte i v)).toInt = thCrcCalc (thFinish gnu b) := by
    rw [thGetCrc, text_eq, field_setByte h, thFinish_chksum, octToInt_chksum]
  have hsum := @thCrcCalc_setByte (thFinish gnu b) i v h hi
  obtain ⟨k, hk⟩ := thSignedCrcCalc_eq ((thFinish gnu b).setByte i v)
  have hnew := v.toNat_lt
  have hold := ((thFinish gnu b).bytes[i]).toNat_lt
  have hne : v.toNat ≠ ((thFinish gnu b).bytes[i]).toNat := fun h => hv (UInt8.toNat_inj.mp h)
  rw [unsignedChar, unsignedChar] at hsum
  rw [thCrcOk, hcrc, hk, hsum, Bool.or_eq_false_iff, decide_eq_false_iff_not,
    decide_eq_false_iff_not]
  -- The two sums differ by a multiple of 256, and the bytes by less.
  constructor <;> omega

/-- The name of a header begins with é in UTF-8. -/
def accented : HeaderBlock := zero.put .name [195, 169]

/-- The two sums differ by 512, and the changed byte counts 256 less in the signed one. -/
theorem thCrcOk_setByte_accented :
    thSignedCrcCalc (thFinish true accented) ≠ thCrcCalc (thFinish true accented) ∧
      thCrcOk ((thFinish true accented).setByte 2 255) = false :=
  ⟨by decide +kernel, thCrcOk_setByte (Or.inl (by decide))
    (by rw [(thFinish true accented).size]; decide) (show (255 : UInt8) ≠ 0 by decide)⟩

end damage

/-! ### Modes -/

section modes
variable {mode : UInt32}

theorem or_and_distrib (x y z : UInt32) : (x ||| y) &&& z = (x &&& z) ||| (y &&& z) :=
  UInt32.toBitVec_inj.mp BitVec.and_or_distrib_right

theorem format_storedMode : format (storedMode mode) =
    if sIsSock mode then 0o010000 else format mode := by
  rw [storedMode]
  split_ifs with hsock
  · have hformat : mode &&& 0o170000 = 0o140000 := of_decide_eq_true hsock
    calc format ((mode &&& ~~~0o140000) ||| 0o010000)
      _ = ((mode &&& 0o170000) &&& ~~~0o140000) ||| (0o010000 &&& 0o170000) := by
        rw [format, or_and_distrib, UInt32.and_assoc, UInt32.and_comm (~~~0o140000),
          ← UInt32.and_assoc]
      _ = 0o010000 := by rw [hformat]; decide
  · rfl

theorem storedMode_lt (h : mode.toNat < 2 ^ 16) : (storedMode mode).toNat < 2 ^ 16 := by
  rw [storedMode]
  split_ifs
  · rw [UInt32.toNat_or, UInt32.toNat_and]
    exact Nat.or_lt_two_pow (Nat.lt_of_le_of_lt Nat.and_le_left h) (by decide)
  · exact h

end modes

/-! ### Numbers of 32 bits -/

section numbers
variable {b : HeaderBlock} {f : Field} {n : UInt32}

theorem unsigned_toInt64 (n : UInt32) : unsigned n.toUInt64.toInt64 = n.toNat := by
  rw [unsigned, UInt64.toUInt64_toInt64, UInt32.toNat_toUInt64]

/-- Seven octal digits are stored of a number. -/
theorem octToInt_uint32 (hlength : f.length = 8)
    (h : b.field f = intToOct n.toUInt64.toInt64 8) :
    (octToInt (b.text f)).toUInt64.toUInt32 = UInt32.ofNat (n.toNat % 8 ^ 7) := by
  rw [octToInt_text (by rw [h, hlength]) (by omega), hlength, unsigned_toInt64,
    UInt64.toUInt64_toInt64]
  apply UInt32.toNat_inj.mp
  have hlt : n.toNat % 8 ^ 7 < 8 ^ 7 := Nat.mod_lt _ (by decide)
  rw [UInt64.toNat_toUInt32, UInt64.toNat_ofNat', UInt32.toNat_ofNat']
  norm_num at hlt ⊢

end numbers

/-! ### Names -/

section names
variable {b : HeaderBlock} {f : Field} {s rest : Bytes} {accounts : Accounts} {id : UInt32}
  {nameField idField : Field}

theorem cText_append (h : 0 ∉ s) : cText (s ++ 0 :: rest) = s := by
  rw [cText, List.takeWhile_append_of_pos]
  · simp
  · intro c hc
    simp
    rintro rfl
    exact h hc

/-- A member of a name, and one of a number. -/
structure NamesApart (nameField idField : Field) : Prop where
  ne : nameField ≠ idField
  name_length : nameField.length = 32
  id_length : idField.length = 8

theorem field_setAccount (h : f ≠ nameField ∧ f ≠ idField) :
    (b.setAccount accounts nameField idField id).field f = b.field f := by
  rw [setAccount]
  cases accounts.nameOf id <;> simp [h.1, h.2]

/-- The account is found by its name. Without a name, 21 bits of its number are stored. -/
theorem getAccount_setAccount (hapart : NamesApart nameField idField)
    (hblank : (b.field nameField).head? = some 0) {c : HeaderBlock}
    (hname : c.field nameField = (b.setAccount accounts nameField idField id).field nameField)
    (hid : c.field idField = (b.setAccount accounts nameField idField id).field idField) :
    c.getAccount accounts nameField idField =
      if accounts.nameOf id = none then UInt32.ofNat (id.toNat % 8 ^ 7) else id := by
  have hlength : (intToOct id.toUInt64.toInt64 8).length = 8 := intToOct_length (by decide)
  have hnumber : c.field idField = intToOct id.toUInt64.toInt64 8 := by
    rw [hid, setAccount]
    cases accounts.nameOf id <;>
      exact field_put_same (by rw [hapart.id_length]; exact hlength)
  rw [getAccount, octToInt_uint32 hapart.id_length hnumber]
  rw [setAccount, field_put_of_ne hapart.ne] at hname
  cases hof : accounts.nameOf id with
  | none =>
    rw [hof] at hname
    have htext : cText (c.text nameField) = [] := by
      rw [text_eq, hname, cText, List.takeWhile_append]
      obtain ⟨rest, hrest⟩ := List.head?_eq_some_iff.mp hblank
      simp [hrest]
    rw [htext, accounts.idOf_nil]
    rfl
  | some name =>
    rw [hof] at hname
    dsimp only at hname
    have hshort := accounts.name_length hof
    have htext : cText (c.text nameField) = name := by
      have htake : name.take 31 = name := List.take_of_length_le (by omega)
      have hput := @text_put b nameField (name ++ [0]) (by
        rw [List.length_append, hapart.name_length, List.length_singleton]
        omega)
      rw [htake] at hname
      have hfield : ∃ rest, c.field nameField = name ++ 0 :: rest := by
        refine ⟨((b.text nameField).drop (name ++ [0]).length).take
          (nameField.length - (name ++ [0]).length), ?_⟩
        rw [hname, field, hput, List.take_append, List.take_of_length_le, List.append_assoc,
          List.singleton_append]
        rw [List.length_append, hapart.name_length, List.length_singleton]
        omega
      obtain ⟨rest, hrest⟩ := hfield
      rw [text_eq, hrest, List.append_assoc, List.cons_append,
        cText_append (accounts.name_text hof)]
    rw [htext, accounts.idOf_nameOf hof]
    rfl

end names

/-! ### The whole header -/

section header
variable {b : HeaderBlock} {f : Field} {users groups : Accounts} {s : Stat}

theorem size_thSetSize {n : Int64} : (b.thSetSize n).field .size = intToOctEx n 12 :=
  field_put_same (intToOctEx_length (by decide))

theorem field_thSetSize {n : Int64} (h : f ≠ .size) : (b.thSetSize n).field f = b.field f :=
  field_put_of_ne h

theorem mtime_thSetMtime {n : Int64} : (b.thSetMtime n).field .mtime = intToOctEx n 12 :=
  field_put_same (intToOctEx_length (by decide))

theorem field_thSetMtime {n : Int64} (h : f ≠ .mtime) : (b.thSetMtime n).field f = b.field f :=
  field_put_of_ne h

theorem mode_thSetMode {mode : UInt32} : (b.thSetMode mode).field .mode =
    intToOct (storedMode mode).toUInt64.toInt64 8 :=
  field_put_same (intToOct_length (by decide))

theorem field_thSetMode {mode : UInt32} (h : f ≠ .mode) : (b.thSetMode mode).field f = b.field f :=
  field_put_of_ne h

theorem field_thSetType {mode : UInt32} (h : f ≠ .typeflag) :
    (b.thSetType mode).field f = b.field f := by
  rw [thSetType]
  split_ifs <;> simp [h]

theorem field_thSetDevice {major minor : UInt32} (h : f ≠ .devmajor ∧ f ≠ .devminor) :
    (b.thSetDevice major minor).field f = b.field f := by
  simp [thSetDevice, h]

/-- The members that `th_set_from_stat` writes, apart from the type. -/
def fromStat : List Field :=
  [.devmajor, .devminor, .uname, .uid, .gname, .gid, .mode, .mtime, .size]

/-- The type of a file that is stored. -/
def typeOf (mode : UInt32) : UInt8 :=
  if sIsLnk mode then symType
  else if sIsReg mode then regType
  else if sIsDir mode then dirType
  else if sIsChr mode then chrType
  else if sIsBlk mode then blkType
  else fifoType

/-- A header whose members of `struct stat` were written for a file, into a header without
names. The type may be another one. -/
structure Carries (users groups : Accounts) (b : HeaderBlock) (s : Stat) (c : HeaderBlock) :
    Prop where
  uname : (b.field .uname).head? = some 0
  gname : (b.field .gname).head? = some 0
  same : ∀ f ∈ fromStat, c.field f = (thSetFromStat users groups b s).field f

variable {c : HeaderBlock} (h : Carries users groups b s c)
include h

theorem Carries.thGetSize : c.thGetSize = if sIsReg s.mode.toUInt32 then s.size else 0 := by
  have hsize := h.same .size (by decide)
  rw [thSetFromStat, size_thSetSize] at hsize
  exact octToIntEx_text hsize (by decide)

theorem Carries.thGetMtime : c.thGetMtime = s.mtime := by
  have hmtime := h.same .mtime (by decide)
  rw [thSetFromStat, field_thSetSize (by decide), mtime_thSetMtime] at hmtime
  exact octToIntEx_text hmtime (by decide)

theorem Carries.modeNumber : c.modeNumber = storedMode s.mode.toUInt32 := by
  have hmode := h.same .mode (by decide)
  rw [thSetFromStat, field_thSetSize (by decide), field_thSetMtime (by decide),
    mode_thSetMode] at hmode
  have hlt : (storedMode s.mode.toUInt32).toNat < 8 ^ 7 := by
    have hmode16 : s.mode.toUInt32.toNat < 2 ^ 16 := by
      rw [UInt16.toNat_toUInt32]
      exact s.mode.toNat_lt
    exact Nat.lt_trans (storedMode_lt hmode16) (by decide)
  rw [HeaderBlock.modeNumber, octToInt_uint32 rfl hmode, Nat.mod_eq_of_lt hlt,
    UInt32.ofNat_toNat]

omit h in
theorem typeflag_thSetFromStat :
    (thSetFromStat users groups b s).field .typeflag = [typeOf s.mode.toUInt32] := by
  have hknown := s.known
  rw [thSetFromStat, field_thSetSize (by decide), field_thSetMtime (by decide),
    field_thSetMode (by decide), thSetGroup, field_setAccount (by decide), thSetUser,
    field_setAccount (by decide)]
  have hset : (if sIsChr s.mode.toUInt32 || sIsBlk s.mode.toUInt32 then
      (b.thSetType s.mode.toUInt32).thSetDevice s.major s.minor
      else b.thSetType s.mode.toUInt32).field .typeflag =
        (b.thSetType s.mode.toUInt32).field .typeflag := by
    split_ifs
    · rw [field_thSetDevice (by decide)]
    · rfl
  rw [hset, thSetType, typeOf]
  split_ifs with hlnk hreg hdir hchr hblk hfifo
  all_goals first
    | exact field_put_same rfl
    | skip
  simp [hlnk, hreg, hdir, hchr, hblk] at hknown hfifo
  simp [hfifo] at hknown

omit h in
/-- The names are blank before `th_set_user` and `th_set_group`. -/
theorem field_typed (hf : f ≠ .typeflag ∧ f ≠ .devmajor ∧ f ≠ .devminor) :
    (if sIsChr s.mode.toUInt32 || sIsBlk s.mode.toUInt32 then
      (b.thSetType s.mode.toUInt32).thSetDevice s.major s.minor
      else b.thSetType s.mode.toUInt32).field f = b.field f := by
  split_ifs
  · rw [field_thSetDevice hf.2, field_thSetType hf.1]
  · rw [field_thSetType hf.1]

theorem Carries.thGetUid : c.thGetUid users =
    if users.nameOf s.uid = none then UInt32.ofNat (s.uid.toNat % 8 ^ 7) else s.uid := by
  have huname := h.same .uname (by decide)
  have huid := h.same .uid (by decide)
  rw [thSetFromStat, field_thSetSize (by decide), field_thSetMtime (by decide),
    field_thSetMode (by decide), thSetGroup, field_setAccount (by decide), thSetUser] at huname huid
  apply getAccount_setAccount ⟨by decide, rfl, rfl⟩ _ huname huid
  rw [field_typed (by decide), h.uname]

theorem Carries.thGetGid : c.thGetGid groups =
    if groups.nameOf s.gid = none then UInt32.ofNat (s.gid.toNat % 8 ^ 7) else s.gid := by
  have hgname := h.same .gname (by decide)
  have hgid := h.same .gid (by decide)
  rw [thSetFromStat, field_thSetSize (by decide), field_thSetMtime (by decide),
    field_thSetMode (by decide), thSetGroup] at hgname hgid
  apply getAccount_setAccount ⟨by decide, rfl, rfl⟩ _ hgname hgid
  rw [thSetUser, field_setAccount (by decide), field_typed (by decide), h.gname]

/-- The numbers of a device are stored with 21 bits each. -/
theorem Carries.device (hdevice : sIsChr s.mode.toUInt32 || sIsBlk s.mode.toUInt32) :
    c.thGetDevmajor = (UInt64.ofNat (s.major.toNat % 8 ^ 7)).toInt64 ∧
      c.thGetDevminor = (UInt64.ofNat (s.minor.toNat % 8 ^ 7)).toInt64 := by
  have hmajor := h.same .devmajor (by decide)
  have hminor := h.same .devminor (by decide)
  rw [thSetFromStat, field_thSetSize (by decide), field_thSetMtime (by decide),
    field_thSetMode (by decide), thSetGroup, field_setAccount (by decide), thSetUser,
    field_setAccount (by decide), if_pos hdevice, thSetDevice] at hmajor hminor
  have hlength : ∀ n : UInt32, (intToOct n.toUInt64.toInt64 8).length = 8 :=
    fun n => intToOct_length (by decide)
  rw [field_put_of_ne (by decide), field_put_same (hlength _)] at hmajor
  rw [field_put_same (hlength _)] at hminor
  rw [HeaderBlock.thGetDevmajor, HeaderBlock.thGetDevminor, octToInt_text hmajor (by decide),
    octToInt_text hminor (by decide), unsigned_toInt64, unsigned_toInt64]
  exact ⟨rfl, rfl⟩

theorem Carries.format : HeaderBlock.format c.modeNumber =
    if sIsSock s.mode.toUInt32 then 0o010000 else HeaderBlock.format s.mode.toUInt32 := by
  rw [h.modeNumber, format_storedMode]

omit h in
theorem format_mem : HeaderBlock.format s.mode.toUInt32 ∈
    [0o100000, 0o120000, 0o040000, 0o020000, 0o060000, 0o010000, 0o140000] := by
  have hknown := s.known
  simpa [sIsReg, sIsLnk, sIsDir, sIsChr, sIsBlk, sIsFifo, sIsSock] using hknown

theorem Carries.thGetMode : c.thGetMode = storedMode s.mode.toUInt32 := by
  have hformat : HeaderBlock.format c.modeNumber ≠ 0 := by
    have hmem := @format_mem s
    rw [h.format]
    split_ifs
    · decide
    · intro hzero
      rw [hzero] at hmem
      revert hmem
      decide
  rw [HeaderBlock.thGetMode, if_pos hformat, h.modeNumber]

/-- The type that is found is the one of the file, and that of a FIFO for a socket. A hard link is
one whatever the file is, and has no data. -/
theorem Carries.kind {linked : Bool}
    (htype : c.typeflag = if linked then lnkType else typeOf s.mode.toUInt32) :
    c.thIsLnk = linked ∧ c.thIsReg = (sIsReg s.mode.toUInt32 && !linked) ∧
    c.thIsDir = sIsDir s.mode.toUInt32 ∧ c.thIsSym = sIsLnk s.mode.toUInt32 ∧
    c.thIsChr = sIsChr s.mode.toUInt32 ∧ c.thIsBlk = sIsBlk s.mode.toUInt32 ∧
    c.thIsFifo = (sIsFifo s.mode.toUInt32 || sIsSock s.mode.toUInt32) := by
  have hmem := @format_mem s
  have hformat := h.format
  rw [thIsLnk, thIsReg, thIsDir, thIsSym, thIsChr, thIsBlk, thIsFifo, htype, typeOf]
  simp only [sIsReg, sIsLnk, sIsDir, sIsChr, sIsBlk, sIsFifo, sIsSock] at hformat ⊢
  rw [hformat]
  simp only [List.mem_cons, List.not_mem_nil, or_false] at hmem
  cases linked <;> rcases hmem with hn | hn | hn | hn | hn | hn | hn <;>
    simp [hn, regType, lnkType, symType, chrType, blkType, dirType, fifoType, contType]

end header

/-- The header that `tar_append_file` finishes: another name of a file that is in the archive is
a hard link, and the names are in the block. -/
def named (users groups : Accounts) (s : Stat) (linked : Bool) (name link front : Bytes) :
    HeaderBlock :=
  let b := thSetFromStat users groups zero s
  let b := if linked then b.put .typeflag [lnkType] else b
  ((b.put .name name).put .linkname link).put .pathPrefix front

section named
variable {f : Field} {users groups : Accounts} {s : Stat} {linked : Bool}
  {name link front : Bytes}

theorem field_named (h : f ≠ .name ∧ f ≠ .linkname ∧ f ≠ .pathPrefix) :
    (named users groups s linked name link front).field f =
      if linked = true ∧ f = .typeflag then [lnkType]
      else (thSetFromStat users groups zero s).field f := by
  obtain ⟨hname, hlink, hfront⟩ := h
  rw [named, field_put_of_ne hfront, field_put_of_ne hlink, field_put_of_ne hname]
  cases linked with
  | false => simp
  | true =>
    by_cases hf : f = .typeflag
    · rw [hf]
      exact field_put_same rfl
    · simp [hf]

theorem carries_named (users groups : Accounts) (s : Stat) (linked : Bool)
    (name link front : Bytes) (gnu : Bool) : Carries users groups zero s
      (thFinish gnu (named users groups s linked name link front)) where
  uname := rfl
  gname := rfl
  same f hf := by
    have hapart : (f ≠ .name ∧ f ≠ .linkname ∧ f ≠ .pathPrefix) ∧
        (f ≠ .magic ∧ f ≠ .version ∧ f ≠ .chksum) ∧ f ≠ .typeflag := by
      revert f
      decide
    rw [field_thFinish hapart.2.1, field_named hapart.1, if_neg (fun h => hapart.2.2 h.2)]

theorem typeflag_named {gnu : Bool} :
    (thFinish gnu (named users groups s linked name link front)).typeflag =
      if linked then lnkType else typeOf s.mode.toUInt32 := by
  rw [HeaderBlock.typeflag, text_eq, field_thFinish (by decide), field_named (by decide)]
  cases linked with
  | false =>
    rw [if_neg (by decide), typeflag_thSetFromStat]
    rfl
  | true => rfl

end named

/-- A header passes its check and gives the numbers, the owner and the type of the file, whatever
its names are. Sizes and times of all 64 bits are kept, and 21 bits of an id without an account. A
hard link is read as one, with what the file is otherwise. -/
theorem stat_roundTrip (users groups : Accounts) (s : Stat) (linked : Bool)
    (name link front : Bytes) (gnu : Bool) :
    let mode := s.mode.toUInt32
    let h := thFinish gnu (named users groups s linked name link front)
    thCrcOk h = true ∧ h.thGetMtime = s.mtime ∧ h.thGetSize = (if sIsReg mode then s.size else 0) ∧
      h.thGetUid users = (if users.nameOf s.uid = none then UInt32.ofNat (s.uid.toNat % 8 ^ 7)
        else s.uid) ∧
      h.thGetGid groups = (if groups.nameOf s.gid = none then UInt32.ofNat (s.gid.toNat % 8 ^ 7)
        else s.gid) ∧
      h.thGetMode = storedMode mode ∧ h.thIsLnk = linked ∧ h.thIsReg = (sIsReg mode && !linked) ∧
      h.thIsDir = sIsDir mode ∧ h.thIsSym = sIsLnk mode ∧ h.thIsChr = sIsChr mode ∧
      h.thIsBlk = sIsBlk mode ∧ h.thIsFifo = (sIsFifo mode || sIsSock mode) ∧
      ((sIsChr mode || sIsBlk mode) = true →
        h.thGetDevmajor = (UInt64.ofNat (s.major.toNat % 8 ^ 7)).toInt64 ∧
          h.thGetDevminor = (UInt64.ofNat (s.minor.toNat % 8 ^ 7)).toInt64) := by
  have hcarries := carries_named users groups s linked name link front gnu
  obtain ⟨hlnk, hreg, hdir, hsym, hchr, hblk, hfifo⟩ := hcarries.kind typeflag_named
  exact ⟨thCrcOk_thFinish, hcarries.thGetMtime, hcarries.thGetSize, hcarries.thGetUid,
    hcarries.thGetGid, hcarries.thGetMode, hlnk, hreg, hdir, hsym, hchr, hblk, hfifo,
    hcarries.device⟩

/-- `root` is 0 and `system` is 1000. -/
def systemAccounts : Accounts where
  nameOf id :=
    if id = 0 then some [114, 111, 111, 116]
    else if id = 1000 then some [115, 121, 115, 116, 101, 109]
    else none
  idOf name :=
    if name = [114, 111, 111, 116] then some 0
    else if name = [115, 121, 115, 116, 101, 109] then some 1000
    else none
  idOf_nameOf {id name} h := by
    split_ifs at h with hroot hsystem
    · rw [← Option.some.inj h, hroot]
      rfl
    · rw [← Option.some.inj h, hsystem]
      rfl
  name_length {id name} h := by
    split_ifs at h <;> rw [← Option.some.inj h] <;> decide
  name_text {id name} h := by
    split_ifs at h <;> rw [← Option.some.inj h] <;> decide
  idOf_nil := rfl

/-- A hard link to a file of 5 GiB that is owned by `system` and a group of 8^7 + 5 without a
name. -/
theorem stat_roundTrip_linked :
    let s : Stat := ⟨0o100644, 1000, 2097157, 0, 0, 5368709120, -1, by decide⟩
    let h := thFinish true (named systemAccounts systemAccounts s true [97] [98] [])
    thCrcOk h = true ∧ h.thGetMtime = -1 ∧ h.thGetSize = 5368709120 ∧
      h.thGetUid systemAccounts = 1000 ∧ h.thGetGid systemAccounts = 5 ∧ h.thIsLnk = true ∧
      h.thIsReg = false := by
  intro s h
  obtain ⟨hcrc, hmtime, hsize, huid, hgid, -, hlnk, hreg, -⟩ :=
    stat_roundTrip systemAccounts systemAccounts s true [97] [98] [] true
  exact ⟨hcrc, hmtime, hsize.trans (by decide), huid.trans (by decide), hgid.trans (by decide),
    hlnk, hreg.trans (by decide)⟩

end HeaderBlock

end BootableRecovery.Libtar
