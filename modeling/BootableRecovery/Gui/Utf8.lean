import BootableRecovery.Lib.Word

namespace BootableRecovery.Gui

/-! The UTF-8 decoder and encoder of the terminal. -/

open Lib

def utf8Accept : ℕ := 0

def utf8Reject : ℕ := 1

/-- The classes of the 256 bytes, then for each state a row with the next state for each class. -/
def utf8d : List ℕ := [
  0, 0, 0, 0, 0, 0, 0, 0, 0, 0, 0, 0, 0, 0, 0, 0, 0, 0, 0, 0, 0, 0, 0, 0, 0, 0, 0, 0, 0, 0, 0, 0,
  0, 0, 0, 0, 0, 0, 0, 0, 0, 0, 0, 0, 0, 0, 0, 0, 0, 0, 0, 0, 0, 0, 0, 0, 0, 0, 0, 0, 0, 0, 0, 0,
  0, 0, 0, 0, 0, 0, 0, 0, 0, 0, 0, 0, 0, 0, 0, 0, 0, 0, 0, 0, 0, 0, 0, 0, 0, 0, 0, 0, 0, 0, 0, 0,
  0, 0, 0, 0, 0, 0, 0, 0, 0, 0, 0, 0, 0, 0, 0, 0, 0, 0, 0, 0, 0, 0, 0, 0, 0, 0, 0, 0, 0, 0, 0, 0,
  1, 1, 1, 1, 1, 1, 1, 1, 1, 1, 1, 1, 1, 1, 1, 1, 9, 9, 9, 9, 9, 9, 9, 9, 9, 9, 9, 9, 9, 9, 9, 9,
  7, 7, 7, 7, 7, 7, 7, 7, 7, 7, 7, 7, 7, 7, 7, 7, 7, 7, 7, 7, 7, 7, 7, 7, 7, 7, 7, 7, 7, 7, 7, 7,
  8, 8, 2, 2, 2, 2, 2, 2, 2, 2, 2, 2, 2, 2, 2, 2, 2, 2, 2, 2, 2, 2, 2, 2, 2, 2, 2, 2, 2, 2, 2, 2,
  10, 3, 3, 3, 3, 3, 3, 3, 3, 3, 3, 3, 3, 4, 3, 3,
  11, 6, 6, 6, 5, 8, 8, 8, 8, 8, 8, 8, 8, 8, 8, 8,
  0, 1, 2, 3, 5, 8, 7, 1, 1, 1, 4, 6, 1, 1, 1, 1,
  1, 1, 1, 1, 1, 1, 1, 1, 1, 1, 1, 1, 1, 1, 1, 1, 1, 0, 1, 1, 1, 1, 1, 0, 1, 0, 1, 1, 1, 1, 1, 1,
  1, 2, 1, 1, 1, 1, 1, 2, 1, 2, 1, 1, 1, 1, 1, 1, 1, 1, 1, 1, 1, 1, 1, 2, 1, 1, 1, 1, 1, 1, 1, 1,
  1, 2, 1, 1, 1, 1, 1, 1, 1, 2, 1, 1, 1, 1, 1, 1, 1, 1, 1, 1, 1, 1, 1, 3, 1, 3, 1, 1, 1, 1, 1, 1,
  1, 3, 1, 1, 1, 1, 1, 3, 1, 3, 1, 1, 1, 1, 1, 1, 1, 3, 1, 1, 1, 1, 1, 1, 1, 1, 1, 1, 1, 1, 1, 1]

structure Utf8 where
  state : ℕ
  codep : ℕ
  deriving DecidableEq, Repr

def utf8decode (u : Utf8) (byte : UInt8) : Utf8 :=
  let type := utf8d.getD byte.toNat 0
  { codep :=
      if u.state ≠ utf8Accept then u32 ((byte.toNat &&& 0x3f) ||| (u.codep <<< 6))
      else (0xff >>> type) &&& byte.toNat
    state := utf8d.getD (256 + u.state * 16 + type) 0 }

/-- What `utf8add` appends for a code point. -/
def utf8add (cp : ℕ) : List UInt8 :=
  if cp < 0x7f then [UInt8.ofNat cp]
  else if cp < 0x7ff then
    [UInt8.ofNat (0xc0 ||| (cp >>> 6)), UInt8.ofNat (0x80 ||| (cp &&& 0x3f))]
  else if cp < 0xffff then
    [UInt8.ofNat (0xe0 ||| (cp >>> 12)), UInt8.ofNat (0x80 ||| ((cp >>> 6) &&& 0x3f)),
      UInt8.ofNat (0x80 ||| (cp &&& 0x3f))]
  else if cp < 0x1fffff then
    [UInt8.ofNat (0xf0 ||| (cp >>> 18)), UInt8.ofNat (0x80 ||| ((cp >>> 12) &&& 0x3f)),
      UInt8.ofNat (0x80 ||| ((cp >>> 6) &&& 0x3f)), UInt8.ofNat (0x80 ||| (cp &&& 0x3f))]
  else []

/-- The code points that the decoder accepts on its way through a text. -/
def decodeCells : Utf8 → List UInt8 → List ℕ
  | _, [] => []
  | u, byte :: bytes =>
    let u := utf8decode u byte
    if u.state = utf8Accept then u.codep :: decodeCells u bytes else decodeCells u bytes

/-- The decoder accepts `cp` with the last of some bytes, and not before. -/
def Accepts : Utf8 → List UInt8 → ℕ → Prop
  | _, [], _ => False
  | u, [byte], cp => utf8decode u byte = ⟨utf8Accept, cp⟩
  | u, byte :: next :: bytes, cp =>
    (utf8decode u byte).state ≠ utf8Accept ∧ Accepts (utf8decode u byte) (next :: bytes) cp

/-- The last code points of one, two and three bytes. -/
def LastOfLength (cp : ℕ) : Prop := cp = 0x7f ∨ cp = 0x7ff ∨ cp = 0xffff

instance decidableLastOfLength (cp : ℕ) : Decidable (LastOfLength cp) :=
  inferInstanceAs (Decidable (_ ∨ _ ∨ _))

section bytes

/-- The next state, by the value of the byte. -/
def nextState (state byte : ℕ) : ℕ := utf8d.getD (256 + state * 16 + utf8d.getD byte 0) 0

theorem utf8decode_state (u : Utf8) (byte : UInt8) :
    (utf8decode u byte).state = nextState u.state byte.toNat := rfl

/-- What the first byte leaves in `codep`. -/
def leadBits (byte : ℕ) : ℕ := (0xff >>> utf8d.getD byte 0) &&& byte

theorem getD_forall {P : ℕ → Prop} {l : List ℕ} (h : ∀ x ∈ l, P x) (hzero : P 0) (i : ℕ) :
    P (l.getD i 0) := by
  rw [List.getD_eq_getElem?_getD]
  cases hi : l[i]? with
  | none => exact hzero
  | some x => exact h x (List.mem_of_getElem? hi)

theorem getD_window (l : List ℕ) {n i : ℕ} (start : ℕ) (hi : i < n) :
    l.getD (start + i) 0 = ((l.drop start).take n).getD i 0 := by
  simp [List.getD_eq_getElem?_getD, List.getElem?_take_of_lt hi]

theorem utf8d_length : utf8d.length = 400 := by decide +kernel

/-- The classes of the bytes in runs, and the row of the reject state. -/
theorem utf8d_runs : (∀ x ∈ (utf8d.drop 0).take 0x80, x = 0) ∧
    (∀ x ∈ (utf8d.drop 0x80).take 16, x = 1) ∧ (∀ x ∈ (utf8d.drop 0x90).take 16, x = 9) ∧
    (∀ x ∈ (utf8d.drop 0xa0).take 32, x = 7) ∧ (∀ x ∈ (utf8d.drop 0xc2).take 30, x = 2) ∧
    (∀ x ∈ (utf8d.drop 272).take 16, x = 1) ∧ ∀ x ∈ utf8d, x < 16 := by
  decide +kernel

/-- Where the states go for the classes of a well formed text. -/
theorem utf8d_rows : utf8d.getD 256 0 = 0 ∧ utf8d.getD 258 0 = 2 ∧
    (∀ type ∈ [1, 9, 7], utf8d.getD (256 + 2 * 16 + type) 0 = 0 ∧
      utf8d.getD (256 + 3 * 16 + type) 0 = 2) ∧
    (∀ h < 16, nextState 0 (0xe0 + h) ≠ 0 ∧ leadBits (0xe0 + h) = h ∧
      (h ≠ 0 → utf8d.getD (256 + nextState 0 (0xe0 + h) * 16 + 1) 0 = 2 ∧
        utf8d.getD (256 + nextState 0 (0xe0 + h) * 16 + 9) 0 = 2) ∧
      (h ≠ 13 → utf8d.getD (256 + nextState 0 (0xe0 + h) * 16 + 7) 0 = 2)) ∧
    ∀ h < 5, nextState 0 (0xf0 + h) ≠ 0 ∧ leadBits (0xf0 + h) = h ∧
      (h ≠ 0 → utf8d.getD (256 + nextState 0 (0xf0 + h) * 16 + 1) 0 = 3) ∧
      (h ≠ 4 → utf8d.getD (256 + nextState 0 (0xf0 + h) * 16 + 9) 0 = 3 ∧
        utf8d.getD (256 + nextState 0 (0xf0 + h) * 16 + 7) 0 = 3) := by
  decide +kernel

/-- What a part of the table holds. -/
theorem getD_part {P : ℕ → Prop} {start n i : ℕ} (hi : i < n) (hn : start + n ≤ 400)
    (h : ∀ x ∈ (utf8d.drop start).take n, P x) : P (utf8d.getD (start + i) 0) := by
  have hlength : i < ((utf8d.drop start).take n).length := by
    rw [List.length_take, List.length_drop, utf8d_length]
    omega
  rw [getD_window utf8d start hi, List.getD_eq_getElem?_getD, List.getElem?_eq_getElem hlength]
  exact h _ (List.getElem_mem _)

theorem lead_one : ∀ b < 0x80, nextState 0 b = 0 ∧ leadBits b = b := by
  intro b hb
  have hclass : utf8d.getD b 0 = 0 := by
    have h := @getD_part (· = 0) 0 0x80 b hb (by omega) utf8d_runs.1
    rwa [Nat.zero_add] at h
  rw [nextState, leadBits, hclass]
  refine ⟨utf8d_rows.1, ?_⟩
  rw [Nat.and_comm]
  exact Nat.and_two_pow_sub_one_of_lt_two_pow (hb.trans (by decide) : b < 2 ^ 8)

theorem lead_two : ∀ h < 32, 2 ≤ h → nextState 0 (0xc0 + h) = 2 ∧ leadBits (0xc0 + h) = h := by
  intro h hh h2
  have hclass : utf8d.getD (0xc0 + h) 0 = 2 := by
    have hpart := @getD_part (· = 2) 0xc2 30 (h - 2) (by omega) (by omega)
      utf8d_runs.2.2.2.2.1
    rwa [show 0xc2 + (h - 2) = 0xc0 + h by omega] at hpart
  rw [nextState, leadBits, hclass]
  refine ⟨utf8d_rows.2.1, ?_⟩
  have hmask : 0xff >>> 2 = 2 ^ 6 - 1 := rfl
  rw [hmask, Nat.and_comm, Nat.and_two_pow_sub_one_eq_mod]
  omega

/-- The three classes of the bytes behind the first. -/
theorem class_tail {P : ℕ → Prop} {t : ℕ} (ht : t < 64) (hlow : t < 16 → P 1)
    (hmid : 16 ≤ t → t < 32 → P 9) (hhigh : 32 ≤ t → P 7) : P (utf8d.getD (0x80 + t) 0) := by
  obtain ⟨-, hone, hnine, hseven, -⟩ := utf8d_runs
  rcases Nat.lt_or_ge t 16 with h16 | h16
  · rw [@getD_part (· = 1) 0x80 16 t h16 (by omega) hone]
    exact hlow h16
  rcases Nat.lt_or_ge t 32 with h32 | h32
  · have h := @getD_part (· = 9) 0x90 16 (t - 16) (by omega) (by omega) hnine
    rw [show 0x90 + (t - 16) = 0x80 + t by omega] at h
    rw [h]
    exact hmid h16 h32
  · have h := @getD_part (· = 7) 0xa0 32 (t - 32) (by omega) (by omega) hseven
    rw [show 0xa0 + (t - 32) = 0x80 + t by omega] at h
    rw [h]
    exact hhigh h32

/-- Behind E0 and ED the second byte has less room. -/
theorem lead_three : ∀ h < 16, nextState 0 (0xe0 + h) ≠ 0 ∧ leadBits (0xe0 + h) = h ∧
    ∀ t < 64, (h = 0 → 32 ≤ t) → (h = 13 → t < 32) →
      nextState (nextState 0 (0xe0 + h)) (0x80 + t) = 2 := by
  intro h hh
  obtain ⟨hstate, hbits, hlow, hhigh⟩ := utf8d_rows.2.2.2.1 h hh
  refine ⟨hstate, hbits, fun t ht hfirst hlast => ?_⟩
  apply class_tail (P := fun type => utf8d.getD (256 + nextState 0 (0xe0 + h) * 16 + type) 0 = 2) ht
  · exact fun h16 => (hlow (by omega)).1
  · exact fun h16 h32 => (hlow (by omega)).2
  · exact fun h32 => hhigh (by omega)

/-- Behind F0 and F4, too. -/
theorem lead_four : ∀ h < 5, nextState 0 (0xf0 + h) ≠ 0 ∧ leadBits (0xf0 + h) = h ∧
    ∀ t < 64, (h = 0 → 16 ≤ t) → (h = 4 → t < 16) →
      nextState (nextState 0 (0xf0 + h)) (0x80 + t) = 3 := by
  intro h hh
  obtain ⟨hstate, hbits, hlow, hhigh⟩ := utf8d_rows.2.2.2.2 h hh
  refine ⟨hstate, hbits, fun t ht hfirst hlast => ?_⟩
  apply class_tail (P := fun type => utf8d.getD (256 + nextState 0 (0xf0 + h) * 16 + type) 0 = 3) ht
  · exact fun h16 => hlow (by omega)
  · exact fun h16 h32 => (hhigh (by omega)).1
  · exact fun h32 => (hhigh (by omega)).2

theorem tail_last : ∀ t < 64, nextState 2 (0x80 + t) = 0 := by
  intro t ht
  have hrow := utf8d_rows.2.2.1
  apply class_tail (P := fun type => utf8d.getD (256 + 2 * 16 + type) 0 = 0) ht
  · exact fun _ => (hrow 1 (by simp)).1
  · exact fun _ _ => (hrow 9 (by simp)).1
  · exact fun _ => (hrow 7 (by simp)).1

theorem tail_inner : ∀ t < 64, nextState 3 (0x80 + t) = 2 := by
  intro t ht
  have hrow := utf8d_rows.2.2.1
  apply class_tail (P := fun type => utf8d.getD (256 + 3 * 16 + type) 0 = 2) ht
  · exact fun _ => (hrow 1 (by simp)).2
  · exact fun _ _ => (hrow 9 (by simp)).2
  · exact fun _ => (hrow 7 (by simp)).2

theorem class_lt (b : ℕ) : utf8d.getD b 0 < 16 :=
  getD_forall (P := fun type => type < 16) utf8d_runs.2.2.2.2.2.2 (by decide) b

/-- The decoder stays in its reject state. -/
theorem nextState_reject : ∀ b < 0x100, nextState 1 b = 1 := fun b _ =>
  @getD_part (· = 1) 272 16 (utf8d.getD b 0) (class_lt b) (by omega) utf8d_runs.2.2.2.2.2.1

theorem or_toNat (k a : ℕ) {lo : ℕ} (hlo : lo < 2 ^ k) (hbyte : 2 ^ k * a + lo < 256) :
    (UInt8.ofNat (2 ^ k * a ||| lo)).toNat = 2 ^ k * a + lo := by
  rw [← Nat.two_pow_add_eq_or_of_lt hlo, UInt8.toNat_ofNat', Nat.mod_eq_of_lt hbyte]

theorem utf8decode_lead (c : ℕ) (byte : UInt8) :
    utf8decode ⟨0, c⟩ byte = ⟨nextState 0 byte.toNat, leadBits byte.toNat⟩ := rfl

/-- A byte with the next six bits. -/
theorem utf8decode_tail {state c t : ℕ} (hstate : state ≠ 0) (hc : c < 2 ^ 26) (ht : t < 2 ^ 6) :
    utf8decode ⟨state, c⟩ (UInt8.ofNat (0x80 ||| t)) =
      ⟨nextState state (0x80 + t), c * 64 + t⟩ := by
  have hbyte : (UInt8.ofNat (0x80 ||| t)).toNat = 0x80 + t := or_toNat 6 2 ht (by omega)
  have hbits : (0x80 + t) &&& 0x3f = t := by
    rw [show 0x3f = 2 ^ 6 - 1 from rfl, Nat.and_two_pow_sub_one_eq_mod]
    omega
  have hshift : t ||| c <<< 6 = c * 64 + t := by
    rw [Nat.or_comm, Nat.shiftLeft_eq, Nat.mul_comm, ← Nat.two_pow_add_eq_or_of_lt ht,
      Nat.mul_comm]
  have hmid : state ≠ utf8Accept := hstate
  rw [utf8decode, hbyte]
  dsimp only
  rw [if_pos hmid, hbits, hshift, u32_of_lt (by omega)]
  rfl

theorem and_low (cp : ℕ) : cp &&& 0x3f = cp % 64 := Nat.and_two_pow_sub_one_eq_mod cp 6

end bytes

section accepts
variable {cp : ℕ}

theorem accepts_one (h : cp < 0x7f) (c : ℕ) : Accepts ⟨0, c⟩ (utf8add cp) cp := by
  have hbyte : (UInt8.ofNat cp).toNat = cp := by
    rw [UInt8.toNat_ofNat', Nat.mod_eq_of_lt (by omega)]
  obtain ⟨hstate, hbits⟩ := lead_one cp (by omega)
  rw [utf8add, if_pos h, Accepts, utf8decode_lead, hbyte, hstate, hbits]
  rfl

theorem accepts_two (h : 0x7f < cp) (h' : cp < 0x7ff) (c : ℕ) :
    Accepts ⟨0, c⟩ (utf8add cp) cp := by
  have hlead : (UInt8.ofNat (0xc0 ||| cp >>> 6)).toNat = 0xc0 + cp / 64 := by
    rw [Nat.shiftRight_eq_div_pow]
    exact or_toNat 6 3 (by omega) (by omega)
  obtain ⟨hstate, hbits⟩ := lead_two (cp / 64) (by omega) (by omega)
  rw [utf8add, if_neg (by omega), if_pos h', Accepts, Accepts, utf8decode_lead, hlead, hstate,
    hbits, and_low, utf8decode_tail (by decide) (by omega) (by omega), tail_last _ (by omega),
    show cp / 64 * 64 + cp % 64 = cp by omega]
  exact ⟨Nat.succ_ne_zero 1, rfl⟩

theorem accepts_three (h : 0x7ff < cp) (h' : cp < 0xffff) (hscalar : cp.isValidChar) (c : ℕ) :
    Accepts ⟨0, c⟩ (utf8add cp) cp := by
  have hlead : (UInt8.ofNat (0xe0 ||| cp >>> 12)).toNat = 0xe0 + cp / 4096 := by
    rw [Nat.shiftRight_eq_div_pow]
    exact or_toNat 5 7 (by omega) (by omega)
  obtain ⟨hmid, hbits, htail⟩ := lead_three (cp / 4096) (by omega)
  have hsecond := htail (cp / 64 % 64) (by omega) (by omega) (by
    rcases hscalar with hlow | hhigh <;> omega)
  have hsix : cp >>> 6 = cp / 64 := Nat.shiftRight_eq_div_pow cp 6
  rw [utf8add, if_neg (by omega), if_neg (by omega), if_pos h', Accepts, Accepts, Accepts,
    utf8decode_lead, hlead, hbits, and_low, and_low, hsix,
    utf8decode_tail hmid (by omega) (by omega), hsecond,
    utf8decode_tail (by decide) (by omega) (by omega), tail_last _ (by omega),
    show (cp / 4096 * 64 + cp / 64 % 64) * 64 + cp % 64 = cp by omega]
  exact ⟨hmid, Nat.succ_ne_zero 1, rfl⟩

theorem accepts_four (h : 0xffff < cp) (h' : cp < 0x110000) (c : ℕ) :
    Accepts ⟨0, c⟩ (utf8add cp) cp := by
  have hlead : (UInt8.ofNat (0xf0 ||| cp >>> 18)).toNat = 0xf0 + cp / 262144 := by
    rw [Nat.shiftRight_eq_div_pow]
    exact or_toNat 4 15 (by omega) (by omega)
  obtain ⟨hmid, hbits, htail⟩ := lead_four (cp / 262144) (by omega)
  have hsecond := htail (cp / 4096 % 64) (by omega) (by omega) (by omega)
  have hsix : cp >>> 6 = cp / 64 := Nat.shiftRight_eq_div_pow cp 6
  have htwelve : cp >>> 12 = cp / 4096 := Nat.shiftRight_eq_div_pow cp 12
  rw [utf8add, if_neg (by omega), if_neg (by omega), if_neg (by omega), if_pos (by omega), Accepts,
    Accepts, Accepts, Accepts, utf8decode_lead, hlead, hbits, and_low, and_low, and_low, hsix,
    htwelve, utf8decode_tail hmid (by omega) (by omega), hsecond,
    utf8decode_tail (by decide) (by omega) (by omega), tail_inner _ (by omega),
    utf8decode_tail (by decide) (by omega) (by omega), tail_last _ (by omega),
    show ((cp / 262144 * 64 + cp / 4096 % 64) * 64 + cp / 64 % 64) * 64 + cp % 64 = cp by omega]
  exact ⟨hmid, Nat.succ_ne_zero 2, Nat.succ_ne_zero 1, rfl⟩

theorem accepts_add (hscalar : cp.isValidChar) (hlast : ¬LastOfLength cp) (c : ℕ) :
    Accepts ⟨0, c⟩ (utf8add cp) cp := by
  obtain ⟨h7f, hlast⟩ := not_or.mp hlast
  obtain ⟨h7ff, hffff⟩ := not_or.mp hlast
  by_cases hone : cp < 0x7f
  · exact accepts_one hone c
  by_cases htwo : cp < 0x7ff
  · exact accepts_two (by omega) htwo c
  by_cases hthree : cp < 0xffff
  · exact accepts_three (by omega) hthree hscalar c
  · refine accepts_four (by omega) ?_ c
    rcases hscalar with hlow | ⟨-, hhigh⟩ <;> omega

/-- What was decoded is followed by what the rest decodes to. -/
theorem decodeCells_accepts {u : Utf8} {bytes : List UInt8} (h : Accepts u bytes cp)
    (rest : List UInt8) : decodeCells u (bytes ++ rest) = cp :: decodeCells ⟨0, cp⟩ rest := by
  induction bytes generalizing u with
  | nil => exact absurd h id
  | cons byte bytes ih =>
    rw [List.cons_append, decodeCells]
    cases bytes with
    | nil =>
      rw [Accepts] at h
      rw [h, if_pos rfl]
      rfl
    | cons next bytes =>
      obtain ⟨hmid, htail⟩ := h
      rw [if_neg hmid]
      exact ih htail

/-- In the reject state the rest of a text is lost. -/
theorem decodeCells_reject (c : ℕ) (bytes : List UInt8) : decodeCells ⟨1, c⟩ bytes = [] := by
  induction bytes generalizing c with
  | nil => rfl
  | cons byte bytes ih =>
    have hstate : (utf8decode ⟨1, c⟩ byte).state = 1 := nextState_reject _ byte.toNat_lt
    rw [decodeCells, if_neg (by rw [hstate]; decide)]
    generalize utf8decode ⟨1, c⟩ byte = u at hstate
    obtain ⟨state, codep⟩ := u
    obtain rfl : state = 1 := hstate
    exact ih codep

/-- `utf8add` makes these code points one byte too long. -/
theorem decodeCells_last (hlast : LastOfLength cp) (c : ℕ) (rest : List UInt8) :
    decodeCells ⟨0, c⟩ (utf8add cp ++ rest) = [] := by
  rcases hlast with rfl | rfl | rfl
  · have hbytes : utf8add 0x7f = [0xc1, 0xbf] := by decide +kernel
    have hlead : utf8decode ⟨0, c⟩ 0xc1 = ⟨1, 0⟩ :=
      (utf8decode_lead c 0xc1).trans (by decide +kernel)
    rw [hbytes, List.cons_append, decodeCells, hlead]
    exact decodeCells_reject 0 _
  · have hbytes : utf8add 0x7ff = [0xe0, 0x9f, 0xbf] := by decide +kernel
    have hlead : utf8decode ⟨0, c⟩ 0xe0 = ⟨4, 0⟩ :=
      (utf8decode_lead c 0xe0).trans (by decide +kernel)
    have htail : utf8decode ⟨4, 0⟩ 0x9f = ⟨1, 31⟩ := by decide +kernel
    rw [hbytes, List.cons_append, decodeCells, hlead, List.cons_append, if_neg (by decide),
      decodeCells, htail]
    exact decodeCells_reject 31 _
  · have hbytes : utf8add 0xffff = [0xf0, 0x8f, 0xbf, 0xbf] := by decide +kernel
    have hlead : utf8decode ⟨0, c⟩ 0xf0 = ⟨6, 0⟩ :=
      (utf8decode_lead c 0xf0).trans (by decide +kernel)
    have htail : utf8decode ⟨6, 0⟩ 0x8f = ⟨1, 15⟩ := by decide +kernel
    rw [hbytes, List.cons_append, decodeCells, hlead, List.cons_append, if_neg (by decide),
      decodeCells, htail]
    exact decodeCells_reject 15 _

theorem not_accepts_last (hlast : LastOfLength cp) (c cp' : ℕ) :
    ¬Accepts ⟨0, c⟩ (utf8add cp) cp' := by
  intro h
  have hcell := decodeCells_accepts h []
  rw [decodeCells_last hlast] at hcell
  cases hcell

theorem accepts_add_iff (hscalar : cp.isValidChar) :
    Accepts ⟨0, 0⟩ (utf8add cp) cp ↔ ¬LastOfLength cp :=
  ⟨fun h hlast => not_accepts_last hlast 0 cp h, fun hlast => accepts_add hscalar hlast 0⟩

end accepts

end BootableRecovery.Gui
