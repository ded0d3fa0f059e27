import BootableRecovery.Libtar.Header
import Mathlib.Algebra.BigOperators.Group.List.Basic
import Mathlib.Tactic.LinearCombination
import Mathlib.Tactic.NormNum

namespace BootableRecovery.Libtar

/-! The numbers that are read from a field, the members apart from each other, and the checksum. -/

open Lib

/-! ### Numbers -/

section numbers
variable {num : Int64} {octlen width k n : ℕ} {rest : Bytes}

theorem toDigits_of_lt (h : n < 8) : Nat.toDigits 8 n = [Nat.digitChar n] :=
  Nat.toDigits_of_lt_base h

theorem toDigits_of_le (h : 8 ≤ n) :
    Nat.toDigits 8 n = Nat.toDigits 8 (n / 8) ++ [Nat.digitChar (n % 8)] := by
  rw [Nat.toDigits_of_base_le (by decide) h]

theorem digitChar_oct : ∀ d < 8, UInt8.ofNat (Nat.digitChar d).toNat = octDigit d := by decide

/-- The last digit of a printed number, and what is in front of it. -/
theorem printOct_lt (h : n < 8) :
    printOct width n = List.replicate (width - 1) 48 ++ [octDigit n] := by
  rw [printOct, toDigits_of_lt h, List.map_singleton, digitChar_oct n h, List.length_singleton]

theorem printOct_le (h : 8 ≤ n) :
    printOct width n = printOct (width - 1) (n / 8) ++ [octDigit (n % 8)] := by
  rw [printOct, printOct, toDigits_of_le h, List.map_append, List.map_singleton,
    digitChar_oct _ (Nat.mod_lt n (by decide)), List.length_append, List.length_singleton,
    ← List.append_assoc, Nat.sub_sub, Nat.add_comm]

theorem drop_last {s : Bytes} (c : UInt8) (h : k ≤ s.length) :
    (s ++ [c]).drop ((s ++ [c]).length - (k + 1)) = s.drop (s.length - k) ++ [c] := by
  have hlength : (s ++ [c]).length - (k + 1) = s.length - k := by
    rw [List.length_append, List.length_singleton]
    omega
  rw [hlength, List.drop_append_of_le_length (Nat.sub_le _ _)]

/-- The last `k` characters are the `k` lowest places. -/
theorem drop_printOct (h : k ≤ (printOct width n).length) :
    (printOct width n).drop ((printOct width n).length - k) = (places 8 k n).map octDigit := by
  induction k generalizing width n with
  | zero => simp
  | succ k ih =>
    rcases Nat.lt_or_ge n 8 with hn | hn
    · rw [printOct_lt hn] at h ⊢
      have hk : k ≤ (List.replicate (width - 1) (48 : UInt8)).length := by simpa using h
      rw [drop_last _ hk, places_succ, Nat.div_eq_of_lt hn, Nat.mod_eq_of_lt hn, places_zero,
        List.map_append, List.map_replicate, List.length_replicate, List.drop_replicate]
      rw [List.length_replicate] at hk
      rw [show width - 1 - (width - 1 - k) = k by omega]
      rfl
    · rw [printOct_le hn] at h ⊢
      have hk : k ≤ (printOct (width - 1) (n / 8)).length := by simpa using h
      rw [drop_last _ hk, ih hk, places_succ, List.map_append]
      rfl

theorem intToOct_eq (h : 0 < octlen) :
    intToOct num octlen = (places 8 (octlen - 1) (unsigned num)).map octDigit ++ [0] := by
  have hle : octlen ≤ (printOct octlen (unsigned num)).length := by
    rw [printOct, List.length_append, List.length_replicate, List.length_map]
    omega
  have hplaces : octlen - 1 ≤ (printOct octlen (unsigned num)).length := by omega
  rw [intToOct, ← drop_printOct hplaces, List.drop_append_of_le_length (by omega)]
  congr 2
  omega

theorem isOct_octDigit : ∀ d < 8, isOct (octDigit d) = true ∧
    (octDigit d).toNat - 48 = d ∧ octDigit d ≠ 32 ∧ ¬(9 ≤ octDigit d ∧ octDigit d ≤ 13) ∧
    octDigit d ≠ 45 ∧ octDigit d ≠ 43 := by
  decide

theorem map_octDigit {ds : List ℕ} (h : ∀ d ∈ ds, d < 8) :
    (ds.map octDigit).map (fun c => c.toNat - 48) = ds := by
  rw [List.map_map]
  calc ds.map ((fun c : UInt8 => c.toNat - 48) ∘ octDigit) = ds.map id :=
        List.map_congr_left fun d hd => (isOct_octDigit d (h d hd)).2.1
    _ = ds := List.map_id ds

/-- Digits are read up to a byte that is none. -/
theorem scanOct_digits {ds : List ℕ} (hne : ds ≠ []) (hds : ∀ d ∈ ds, d < 8) :
    scanOct (ds.map octDigit ++ 0 :: rest) = some (min (readPlaces 8 ds) (2 ^ 64 - 1)) := by
  have htake : (ds.map octDigit ++ 0 :: rest).takeWhile isOct = ds.map octDigit := by
    rw [List.takeWhile_append_of_pos]
    · simp [isOct]
    · intro c hc
      obtain ⟨e, he, rfl⟩ := List.mem_map.mp hc
      exact (isOct_octDigit e (hds e he)).1
  obtain ⟨d, tail, rfl⟩ := List.exists_cons_of_ne_nil hne
  obtain ⟨-, -, hblank, hspace, hminus, hplus⟩ := isOct_octDigit d (hds d List.mem_cons_self)
  have hskip : skipBlanks ((d :: tail).map octDigit ++ 0 :: rest) =
      (d :: tail).map octDigit ++ 0 :: rest := by
    rw [skipBlanks, List.map_cons, List.cons_append, List.dropWhile_cons_of_neg]
    simpa [hblank] using hspace
  have hhead : ((d :: tail).map octDigit ++ 0 :: rest).head? = some (octDigit d) := rfl
  have hdigits : (d :: tail).map octDigit ≠ [] := by simp
  simp only [scanOct, hskip, hhead, Option.some.injEq, hminus, hplus, decide_false, Bool.or_self,
    Bool.false_eq_true, if_false, htake, if_neg hdigits, map_octDigit hds]

theorem toInt64_unsigned (num : Int64) : (UInt64.ofNat (unsigned num)).toInt64 = num := by
  rw [unsigned, UInt64.ofNat_toNat, Int64.toInt64_toUInt64]

theorem unsigned_lt (num : Int64) : unsigned num < 2 ^ 64 := num.toUInt64.toNat_lt

theorem unsigned_of_nonneg (h : ¬num < 0) : (unsigned num : ℤ) = num.toInt := by
  have hnonneg : 0 ≤ num.toInt := by
    rw [Int64.lt_iff_toInt_lt] at h
    simpa using h
  have hnat : unsigned num = num.toBitVec.toNat := rfl
  rw [← Int64.toInt_toBitVec, BitVec.toInt_eq_toNat_cond] at hnonneg ⊢
  have hlt := num.toBitVec.isLt
  rw [hnat]
  split_ifs at hnonneg ⊢ with hhalf <;> omega

/-- The places that the field has are read. -/
theorem octToInt_places (hlen : 2 ≤ octlen) : octToInt (intToOct num octlen ++ rest) =
    (UInt64.ofNat (unsigned num % 8 ^ (octlen - 1))).toInt64 := by
  have hlt := unsigned_lt num
  have hle : unsigned num % 8 ^ (octlen - 1) ≤ unsigned num := Nat.mod_le _ _
  have hdigits : ∀ d ∈ places 8 (octlen - 1) (unsigned num), d < 8 := lt_of_mem_places (by decide)
  have hne : places 8 (octlen - 1) (unsigned num) ≠ [] := by
    apply List.ne_nil_of_length_pos
    rw [places_length]
    omega
  rw [octToInt, intToOct_eq (by omega), List.append_assoc, List.singleton_append,
    scanOct_digits hne hdigits, readPlaces_places, Nat.min_eq_left (by omega)]

theorem octToInt_intToOct (hlen : 2 ≤ octlen) (hnonneg : ¬num < 0)
    (hsmall : num.toInt < 2 ^ ((octlen - 1) * 3)) :
    octToInt (intToOct num octlen ++ rest) = num := by
  have hvalue := unsigned_of_nonneg hnonneg
  have hpow : (8 : ℕ) ^ (octlen - 1) = 2 ^ ((octlen - 1) * 3) := by
    rw [Nat.mul_comm, Nat.pow_mul]
  have hfits : unsigned num < 8 ^ (octlen - 1) := by
    rw [hpow]
    exact_mod_cast hvalue ▸ hsmall
  rw [octToInt_places hlen, Nat.mod_eq_of_lt hfits, toInt64_unsigned]

theorem octDigit_high : ∀ d < 8, octDigit d &&& 0x80 = 0 := by decide

theorem map_ofNat_toNat {ds : List ℕ} (h : ∀ d ∈ ds, d < 256) :
    (ds.map UInt8.ofNat).map UInt8.toNat = ds := by
  rw [List.map_map]
  calc ds.map (UInt8.toNat ∘ UInt8.ofNat) = ds.map id := List.map_congr_left fun d hd => by
        simp [Nat.mod_eq_of_lt (h d hd)]
    _ = ds := List.map_id ds

theorem binaryBytes_cons (hlen : 9 ≤ octlen) : binaryBytes num octlen =
    (if num < 0 then 0xff else 0) :: (List.replicate (octlen - 9) (if num < 0 then 0xff else 0) ++
      (places 256 8 (unsigned num)).map UInt8.ofNat) := by
  have hcount : octlen - 8 = (octlen - 9) + 1 := by omega
  rw [binaryBytes, hcount, List.replicate_succ]
  rfl

theorem drop_take_middle (front middle : Bytes) :
    ((front ++ middle ++ rest).take (front.length + middle.length)).drop front.length = middle := by
  rw [← List.length_append, List.take_left, List.drop_left]

theorem octToIntEx_cons (first : UInt8) : octToIntEx (first :: rest) octlen =
    if first &&& 0x80 ≠ 0 then
      (UInt64.ofNat (readPlaces 256 (((((first &&& 0x7f) :: rest).take octlen).drop
        (octlen - 8)).map UInt8.toNat))).toInt64
    else octToInt (first :: rest) := rfl

/-- A number that has no room as text is in the last eight bytes. -/
theorem octToIntEx_binary (hlow : 9 ≤ octlen) (first : UInt8) (hfirst : first &&& 0x80 ≠ 0)
    (front : Bytes) (hfront : front.length = octlen - 9) :
    octToIntEx (first :: (front ++ (places 256 8 (unsigned num)).map UInt8.ofNat) ++ rest) octlen =
      num := by
  have hplaces : ((places 256 8 (unsigned num)).map UInt8.ofNat).length = 8 := by simp
  have hmiddle := @drop_take_middle rest ((first &&& 0x7f) :: front)
    ((places 256 8 (unsigned num)).map UInt8.ofNat)
  rw [hplaces, List.length_cons, hfront, show octlen - 9 + 1 = octlen - 8 by omega,
    show octlen - 8 + 8 = octlen by omega, List.cons_append, List.cons_append] at hmiddle
  rw [List.cons_append, octToIntEx_cons, if_pos hfirst, hmiddle,
    map_ofNat_toNat (lt_of_mem_places (by decide)), readPlaces_places,
    show (256 : ℕ) ^ 8 = 2 ^ 64 from rfl, Nat.mod_eq_of_lt (unsigned_lt num), toInt64_unsigned]

/-- Whatever is written into a field is read from it, whatever stands behind it. -/
theorem octToIntEx_intToOctEx (hlow : 9 ≤ octlen) :
    octToIntEx (intToOctEx num octlen ++ rest) octlen = num := by
  rw [intToOctEx]
  split_ifs with hbinary
  · rw [binaryBytes_cons hlow]
    apply octToIntEx_binary hlow
    · split_ifs <;> decide
    · exact List.length_replicate
  · -- The first digit has no high bit, so that the field is read as text.
    obtain ⟨hnonneg, hsmall⟩ := not_or.mp hbinary
    have hread := @octToInt_intToOct num octlen rest (by omega) hnonneg (not_le.mp hsmall)
    have hcount : octlen - 1 = (octlen - 2) + 1 := by omega
    have hhigh : ∀ d ∈ places 8 (octlen - 1) (unsigned num), octDigit d &&& 0x80 = 0 :=
      fun d hd => octDigit_high d (lt_of_mem_places (by decide) d hd)
    have htext := @intToOct_eq num octlen (by omega)
    cases hplaces : places 8 (octlen - 1) (unsigned num) with
    | nil =>
      have hlength := places_length (b := 8) (k := octlen - 1) (n := unsigned num)
      rw [hplaces, List.length_nil] at hlength
      omega
    | cons d ds =>
      rw [hplaces] at hhigh htext
      rw [htext, List.map_cons, List.cons_append, List.cons_append] at hread ⊢
      rw [octToIntEx_cons, if_neg (not_not.mpr (hhigh d List.mem_cons_self)), hread]

end numbers

/-! ### Members apart from each other -/

section members
variable {b : HeaderBlock} {f g : Field} {v : Bytes}

theorem Field.apart (h : f ≠ g) :
    f.offset + f.length ≤ g.offset ∨ g.offset + g.length ≤ f.offset := by
  revert h
  cases f <;> cases g <;> decide

namespace HeaderBlock

theorem bytes_put : (b.put f v).bytes = b.bytes.take f.offset ++ (v.take f.length ++
    b.bytes.drop (f.offset + (v.take f.length).length)) := rfl

theorem getElem?_put (i : ℕ) : (b.put f v).bytes[i]? =
    if i < f.offset then b.bytes[i]?
    else if i < f.offset + (v.take f.length).length then (v.take f.length)[i - f.offset]?
    else b.bytes[i]? := by
  have hsize := b.size
  have hfits := f.fits
  have hfront : (b.bytes.take f.offset).length = f.offset := by
    rw [List.length_take]
    omega
  rw [bytes_put]
  split_ifs with hbefore hinside
  · rw [List.getElem?_append_left (by omega), List.getElem?_take_of_lt hbefore]
  · rw [List.getElem?_append_right (by omega), hfront, List.getElem?_append_left (by omega)]
  · rw [List.getElem?_append_right (by omega), hfront, List.getElem?_append_right (by omega),
      List.getElem?_drop]
    congr 1
    omega

theorem text_put (h : v.length ≤ f.length) :
    (b.put f v).text f = v ++ (b.text f).drop v.length := by
  have hsize := b.size
  have hfits := f.fits
  have hfront : (b.bytes.take f.offset).length = f.offset := by
    rw [List.length_take]
    omega
  rw [text, bytes_put, List.take_of_length_le h, List.drop_left' hfront, text, List.drop_drop]

theorem field_put_same (h : v.length = f.length) : (b.put f v).field f = v := by
  rw [field, text_put (Nat.le_of_eq h), ← h, List.take_left]

@[simp] theorem field_put_of_ne (h : f ≠ g) : (b.put g v).field f = b.field f := by
  have hlen : (v.take g.length).length ≤ g.length := by simp
  have hapart := Field.apart h
  apply List.ext_getElem?
  intro i
  rw [field, field, text, text]
  rcases Nat.lt_or_ge i f.length with hi | hi
  · rw [List.getElem?_take_of_lt hi, List.getElem?_take_of_lt hi, List.getElem?_drop,
      List.getElem?_drop, getElem?_put]
    split_ifs
    · rfl
    · omega
    · rfl
  · rw [List.getElem?_take_eq_none hi, List.getElem?_take_eq_none hi]

theorem text_eq (b : HeaderBlock) (f : Field) :
    b.text f = b.field f ++ (b.text f).drop f.length := (List.take_append_drop _ _).symm

/-! ### The checksum -/

theorem field_length (b : HeaderBlock) (f : Field) : (b.field f).length = f.length := by
  have hsize := b.size
  have hfits := f.fits
  rw [field, text, List.length_take, List.length_drop]
  omega

theorem crc_blanks (char : UInt8 → ℤ) (s : Bytes) :
    (s.map char).sum + (s.map fun x => 32 - char x).sum = 32 * s.length := by
  induction s with
  | nil => simp
  | cons x s ih =>
    rw [List.map_cons, List.map_cons, List.sum_cons, List.sum_cons, List.length_cons]
    push_cast
    linear_combination ih

/-- The checksum is the sum of the bytes that are not its own, and of eight blanks. -/
theorem crcCalc_eq (char : UInt8 → ℤ) (b : HeaderBlock) : crcCalc char b =
    ((b.bytes.take 148).map char).sum + ((b.bytes.drop 156).map char).sum + 256 := by
  have hparts : b.bytes = b.bytes.take 148 ++ (b.field .chksum ++ b.bytes.drop 156) := by
    have htext := text_eq b .chksum
    rw [show (b.text .chksum).drop (Field.length .chksum) = b.bytes.drop 156 from
      List.drop_drop] at htext
    rw [← htext]
    exact (List.take_append_drop 148 b.bytes).symm
  have hblanks := crc_blanks char (b.field .chksum)
  rw [field_length] at hblanks
  have hlength : ((Field.length .chksum : ℕ) : ℤ) = 8 := rfl
  calc crcCalc char b
    _ = ((b.bytes.take 148 ++ (b.field .chksum ++ b.bytes.drop 156)).map char).sum +
        ((b.field .chksum).map fun x => 32 - char x).sum := by rw [← hparts]; rfl
    _ = ((b.bytes.take 148).map char).sum + ((b.bytes.drop 156).map char).sum +
        (((b.field .chksum).map char).sum +
          ((b.field .chksum).map fun x => 32 - char x).sum) := by
      rw [List.map_append, List.map_append, List.sum_append, List.sum_append]
      ring
    _ = _ := by rw [hblanks, hlength]; norm_num

theorem crcCalc_put (char : UInt8 → ℤ) (h : v.length = 8) :
    crcCalc char (b.put .chksum v) = crcCalc char b := by
  have hoffset : Field.offset .chksum = 148 := rfl
  have htake : (b.put .chksum v).bytes.take 148 = b.bytes.take 148 := by
    apply List.ext_getElem?
    intro i
    rcases Nat.lt_or_ge i 148 with hi | hi
    · rw [List.getElem?_take_of_lt hi, List.getElem?_take_of_lt hi, getElem?_put, hoffset,
        if_pos hi]
    · rw [List.getElem?_take_eq_none hi, List.getElem?_take_eq_none hi]
  have hdrop : (b.put .chksum v).bytes.drop 156 = b.bytes.drop 156 := by
    have hv : (v.take (Field.length .chksum)).length = 8 := by
      rw [List.length_take, h]
      rfl
    apply List.ext_getElem?
    intro i
    rw [List.getElem?_drop, List.getElem?_drop, getElem?_put, hoffset, if_neg, if_neg]
    · rw [hv]
      exact Nat.not_lt.mpr (Nat.le_add_right 156 i)
    · exact Nat.not_lt.mpr (Nat.le_add_right_of_le (by decide))
  rw [crcCalc_eq, crcCalc_eq, htake, hdrop]

theorem sum_unsigned (s : Bytes) :
    0 ≤ (s.map unsignedChar).sum ∧ (s.map unsignedChar).sum ≤ 255 * s.length := by
  induction s with
  | nil => simp
  | cons x s ih =>
    have hx := x.toNat_lt
    rw [List.map_cons, List.sum_cons, List.length_cons, unsignedChar]
    push_cast
    omega

theorem thCrcCalc_mem (b : HeaderBlock) : 0 ≤ thCrcCalc b ∧ thCrcCalc b < 8 ^ 7 := by
  have hsize := b.size
  have hfront := sum_unsigned (b.bytes.take 148)
  have hback := sum_unsigned (b.bytes.drop 156)
  rw [List.length_take, hsize] at hfront
  rw [List.length_drop, hsize] at hback
  rw [thCrcCalc, crcCalc_eq]
  norm_num at hfront hback ⊢
  omega

/-- The signed sum misses 256 for every high byte. -/
theorem sum_signed (s : Bytes) : ∃ k : ℕ,
    (s.map signedChar).sum = (s.map unsignedChar).sum - 256 * k := by
  induction s with
  | nil => exact ⟨0, by simp⟩
  | cons x s ih =>
    obtain ⟨k, hk⟩ := ih
    rw [List.map_cons, List.map_cons, List.sum_cons, List.sum_cons, hk, signedChar, unsignedChar]
    split_ifs
    · refine ⟨k + 1, ?_⟩
      push_cast
      ring
    · exact ⟨k, by ring⟩

theorem thSignedCrcCalc_eq (b : HeaderBlock) : ∃ k : ℕ,
    thSignedCrcCalc b = thCrcCalc b - 256 * k := by
  obtain ⟨j, hj⟩ := sum_signed (b.bytes.take 148)
  obtain ⟨k, hk⟩ := sum_signed (b.bytes.drop 156)
  refine ⟨j + k, ?_⟩
  rw [thSignedCrcCalc, thCrcCalc, crcCalc_eq, crcCalc_eq, hj, hk]
  push_cast
  ring

end HeaderBlock

end members

end BootableRecovery.Libtar
