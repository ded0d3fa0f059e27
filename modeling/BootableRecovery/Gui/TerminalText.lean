import BootableRecovery.Gui.TerminalEngine

namespace BootableRecovery.Gui

/-! A line of the terminal, packed and unpacked again. -/

open TerminalEngine

section encode

theorem toNat_valid (c : Char) : c.toNat.isValidChar := c.valid

theorem utf8EncodeChar_eq (c : Char) : String.utf8EncodeChar c =
    if c.toNat ≤ 0x7f then [UInt8.ofNat c.toNat]
    else if c.toNat ≤ 0x7ff then
      [UInt8.ofNat (c.toNat / 64 % 0x20 + 0xc0), UInt8.ofNat (c.toNat % 0x40 + 0x80)]
    else if c.toNat ≤ 0xffff then
      [UInt8.ofNat (c.toNat / 4096 % 0x10 + 0xe0), UInt8.ofNat (c.toNat / 64 % 0x40 + 0x80),
        UInt8.ofNat (c.toNat % 0x40 + 0x80)]
    else
      [UInt8.ofNat (c.toNat / 262144 % 0x08 + 0xf0), UInt8.ofNat (c.toNat / 4096 % 0x40 + 0x80),
        UInt8.ofNat (c.toNat / 64 % 0x40 + 0x80), UInt8.ofNat (c.toNat % 0x40 + 0x80)] := rfl

theorem or_add {k n : ℕ} (a : ℕ) (hn : n < 2 ^ k) : 2 ^ k * a ||| n = n + 2 ^ k * a := by
  rw [← Nat.two_pow_add_eq_or_of_lt hn, Nat.add_comm]

theorem tail_eq (n : ℕ) : 0x80 ||| (n &&& 0x3f) = n % 0x40 + 0x80 := by
  rw [and_low]
  exact or_add (k := 6) 2 (Nat.mod_lt n (by decide))

/-- But for the last code points of each length, `utf8add` is UTF-8. -/
theorem utf8add_eq_encode (c : Char) (hlast : ¬LastOfLength c.toNat) :
    utf8add c.toNat = String.utf8EncodeChar c := by
  obtain ⟨h7f, hlast⟩ := not_or.mp hlast
  obtain ⟨h7ff, hffff⟩ := not_or.mp hlast
  have hvalid : c.toNat < 0x110000 := by
    rcases toNat_valid c with hlow | hhigh
    · exact hlow.trans (by decide)
    · exact hhigh.2
  rw [utf8EncodeChar_eq]
  clear hlast
  generalize c.toNat = cp at h7f h7ff hffff hvalid
  by_cases hone : cp < 0x7f
  · rw [utf8add, if_pos hone, if_pos hone.le]
  by_cases htwo : cp < 0x7ff
  · have hfirst : 0xc0 ||| cp >>> 6 = cp / 64 % 0x20 + 0xc0 := by
      rw [Nat.shiftRight_eq_div_pow, Nat.mod_eq_of_lt (by omega)]
      exact or_add (k := 6) 3 (by omega)
    rw [utf8add, if_neg hone, if_pos htwo, if_neg (show ¬cp ≤ 0x7f by omega), if_pos htwo.le,
      hfirst, tail_eq]
  by_cases hthree : cp < 0xffff
  · have hfirst : 0xe0 ||| cp >>> 12 = cp / 4096 % 0x10 + 0xe0 := by
      rw [Nat.shiftRight_eq_div_pow, Nat.mod_eq_of_lt (by omega)]
      exact or_add (k := 5) 7 (by omega)
    rw [utf8add, if_neg hone, if_neg htwo, if_pos hthree, if_neg (show ¬cp ≤ 0x7f by omega),
      if_neg (show ¬cp ≤ 0x7ff by omega), if_pos hthree.le, hfirst, tail_eq, tail_eq,
      Nat.shiftRight_eq_div_pow cp 6]
  · have hfirst : 0xf0 ||| cp >>> 18 = cp / 262144 % 0x08 + 0xf0 := by
      rw [Nat.shiftRight_eq_div_pow, Nat.mod_eq_of_lt (by omega)]
      exact or_add (k := 4) 15 (by omega)
    rw [utf8add, if_neg hone, if_neg htwo, if_neg hthree, if_pos (show cp < 0x1fffff by omega),
      if_neg (show ¬cp ≤ 0x7f by omega), if_neg (show ¬cp ≤ 0x7ff by omega),
      if_neg (show ¬cp ≤ 0xffff by omega), hfirst, tail_eq, tail_eq, tail_eq,
      Nat.shiftRight_eq_div_pow cp 12, Nat.shiftRight_eq_div_pow cp 6]

/-- The decoder reads UTF-8. -/
theorem accepts_encode (c : Char) (codep : ℕ) :
    Accepts ⟨0, codep⟩ (String.utf8EncodeChar c) c.toNat := by
  by_cases hlast : LastOfLength c.toNat
  · rcases hlast with hc | hc | hc
    · obtain rfl : c = Char.ofNat 0x7f := by rw [← hc, Char.ofNat_toNat]
      exact (utf8decode_lead codep 0x7f).trans (by decide +kernel)
    · obtain rfl : c = Char.ofNat 0x7ff := by rw [← hc, Char.ofNat_toNat]
      have hlead : utf8decode ⟨0, codep⟩ 0xdf = ⟨2, 31⟩ :=
        (utf8decode_lead codep 0xdf).trans (by decide +kernel)
      change (utf8decode ⟨0, codep⟩ 0xdf).state ≠ utf8Accept ∧
        utf8decode (utf8decode ⟨0, codep⟩ 0xdf) 0xbf = ⟨utf8Accept, 0x7ff⟩
      rw [hlead]
      decide +kernel
    · obtain rfl : c = Char.ofNat 0xffff := by rw [← hc, Char.ofNat_toNat]
      have hlead : utf8decode ⟨0, codep⟩ 0xef = ⟨3, 15⟩ :=
        (utf8decode_lead codep 0xef).trans (by decide +kernel)
      change (utf8decode ⟨0, codep⟩ 0xef).state ≠ utf8Accept ∧
        (utf8decode (utf8decode ⟨0, codep⟩ 0xef) 0xbf).state ≠ utf8Accept ∧
        utf8decode (utf8decode (utf8decode ⟨0, codep⟩ 0xef) 0xbf) 0xbf = ⟨utf8Accept, 0xffff⟩
      rw [hlead]
      decide +kernel
  · rw [← utf8add_eq_encode c hlast]
    exact accepts_add (toNat_valid c) hlast codep

end encode

section cells

/-- What a program writes comes back as its code points. -/
theorem decodeCells_encode (cs : List Char) (codep : ℕ) :
    decodeCells ⟨0, codep⟩ (cs.flatMap String.utf8EncodeChar) = cs.map Char.toNat := by
  induction cs generalizing codep with
  | nil => rfl
  | cons c cs ih =>
    rw [List.flatMap_cons, decodeCells_accepts (accepts_encode c codep), ih, List.map_cons]

theorem decodeCells_packed {cells : List ℕ} (hvalid : ∀ cp ∈ cells, cp.isValidChar)
    (hlast : ∀ cp ∈ cells, ¬LastOfLength cp) (codep : ℕ) :
    decodeCells ⟨0, codep⟩ (packed cells) = cells := by
  induction cells generalizing codep with
  | nil => rfl
  | cons cp cells ih =>
    rw [packed, List.flatMap_cons,
      decodeCells_accepts
        (accepts_add (hvalid cp List.mem_cons_self) (hlast cp List.mem_cons_self) _)]
    exact congrArg _ (ih (fun x hx => hvalid x (List.mem_cons_of_mem _ hx))
      (fun x hx => hlast x (List.mem_cons_of_mem _ hx)) cp)

/-- Everything from the first code point that `utf8add` makes too long is lost. -/
theorem decodeCells_packed_last {before after : List ℕ} {cp : ℕ}
    (hvalid : ∀ x ∈ before, x.isValidChar) (hplain : ∀ x ∈ before, ¬LastOfLength x)
    (hlast : LastOfLength cp) (codep : ℕ) :
    decodeCells ⟨0, codep⟩ (packed (before ++ cp :: after)) = before := by
  induction before generalizing codep with
  | nil =>
    rw [List.nil_append, packed, List.flatMap_cons]
    exact decodeCells_last hlast codep _
  | cons x before ih =>
    rw [List.cons_append, packed, List.flatMap_cons,
      decodeCells_accepts
        (accepts_add (hvalid x List.mem_cons_self) (hplain x List.mem_cons_self) _)]
    exact congrArg _ (ih (fun y hy => hvalid y (List.mem_cons_of_mem _ hy))
      (fun y hy => hplain y (List.mem_cons_of_mem _ hy)) x)

theorem unpacked_eq (width : ℤ) (s : List UInt8) :
    unpacked width s = resized (decodeCells ⟨0, 0⟩ s) width.toNat := by
  rw [unpacked, resized]
  split_ifs with hshort
  · rfl
  · rw [Nat.sub_eq_zero_of_le (not_lt.mp hshort)]
    exact (List.append_nil _).symm

theorem unpacked_packed_iff (width : ℤ) {cells : List ℕ} (hvalid : ∀ cp ∈ cells, cp.isValidChar) :
    unpacked width (packed cells) = resized cells width.toNat ↔ ∀ cp ∈ cells, ¬LastOfLength cp := by
  rw [unpacked_eq]
  constructor
  · intro heq
    by_contra hsome
    have hfind : (cells.find? fun cp => LastOfLength cp) ≠ none := by
      intro hnone
      refine hsome fun cp hcp hlast => List.find?_eq_none.mp hnone cp hcp (decide_eq_true hlast)
    obtain ⟨cp, hcp⟩ := Option.ne_none_iff_exists'.mp hfind
    obtain ⟨hlast, before, after, rfl, hplain⟩ := List.find?_eq_some_iff_append.mp hcp
    have hlast := of_decide_eq_true hlast
    rw [decodeCells_packed_last (fun x hx => hvalid x (List.mem_append_left _ hx))
      (fun x hx hx' => by
        have hfalse := hplain x hx
        rw [decide_eq_true hx'] at hfalse
        cases hfalse) hlast] at heq
    -- behind the cells that are left there are blanks only
    have hcell := congrArg (fun l => l[before.length]?) heq
    simp only [resized, List.append_assoc, List.getElem?_append_right le_rfl, Nat.sub_self,
      List.cons_append, List.getElem?_cons_zero] at hcell
    obtain rfl := List.eq_of_mem_replicate (List.mem_of_getElem? hcell)
    exact absurd hlast (by decide)
  · intro hplain
    rw [decodeCells_packed hvalid hplain]

end cells

/-- Text that is written as UTF-8 is still there when its line has been packed and unpacked, but for
the last code points of a length; `utf8add` encodes all others as the decoder reads them. -/
theorem textFidelity_iff (width : ℤ) (cs : List Char) :
    decodeCells ⟨0, 0⟩ (cs.flatMap String.utf8EncodeChar) = cs.map Char.toNat ∧
      (unpacked width (packed (cs.map Char.toNat)) = resized (cs.map Char.toNat) width.toNat ↔
        ∀ c ∈ cs, ¬LastOfLength c.toNat) ∧
      ∀ c : Char, Accepts ⟨0, 0⟩ (utf8add c.toNat) c.toNat ↔ ¬LastOfLength c.toNat := by
  refine ⟨decodeCells_encode cs 0, ?_, fun c => accepts_add_iff (toNat_valid c)⟩
  have hvalid : ∀ cp ∈ cs.map Char.toNat, cp.isValidChar := by
    intro cp hcp
    obtain ⟨c, -, rfl⟩ := List.mem_map.mp hcp
    exact toNat_valid c
  rw [unpacked_packed_iff width hvalid]
  exact List.forall_mem_map

/-- Every text keeps its cells, and every code point its encoding. -/
def KeepsText : Prop :=
  (∀ (width : ℤ) (cs : List Char),
    unpacked width (packed (cs.map Char.toNat)) = resized (cs.map Char.toNat) width.toNat) ∧
  ∀ c : Char, Accepts ⟨0, 0⟩ (utf8add c.toNat) c.toNat

/-- U+07FF between two letters: the second letter is lost, too. -/
theorem not_keepsText : ¬KeepsText ∧
    unpacked 4 (packed ['a'.toNat, 0x7ff, 'b'.toNat]) = ['a'.toNat, blank, blank, blank] := by
  have hlost : unpacked 4 (packed ['a'.toNat, 0x7ff, 'b'.toNat]) =
      ['a'.toNat, blank, blank, blank] := by decide +kernel
  refine ⟨fun h => ?_, hlost⟩
  have hkept := h.1 4 ['a', Char.ofNat 0x7ff, 'b']
  change unpacked 4 (packed ['a'.toNat, 0x7ff, 'b'.toNat]) = _ at hkept
  rw [hlost] at hkept
  exact absurd hkept (by decide)

end BootableRecovery.Gui
