import BootableRecovery.Gui.TerminalParser

namespace BootableRecovery.Gui

/-! The parser of the terminal behind an escape sequence, and the text that follows it. -/

/-- A character that the terminal gets as bytes of at least 32. -/
def Readable (pf : Platform) (c : Char) : Prop := pf.signedChar = true → c.toNat < 0x80

/-- Neither a control character of ASCII nor one of Latin-1. -/
def Printable (c : Char) : Prop := 0x20 ≤ c.toNat ∧ c.toNat < 0x7f ∨ 0xa0 ≤ c.toNat

def textBytes (text : List Char) : List UInt8 := text.flatMap String.utf8EncodeChar

theorem textBytes_cons (c : Char) (text : List Char) :
    textBytes (c :: text) = String.utf8EncodeChar c ++ textBytes text := List.flatMap_cons

theorem textBytes_append (xs ys : List Char) :
    textBytes (xs ++ ys) = textBytes xs ++ textBytes ys := List.flatMap_append

theorem Printable.low {c : Char} (h : Printable c) : 0x20 ≤ c.toNat := by
  rcases h with h | h <;> omega

theorem Printable.not_csi {c : Char} (h : Printable c) : c.toNat ≠ 0x9b := by
  rcases h with h | h <;> omega

/-- ESC with another character than `[`, or ESC `[` with parameters and a final byte. -/
inductive EscapeSequence
  | escape (c : Char)
  | control (parameters : List UInt8) (f : UInt8)

namespace EscapeSequence

def bytes : EscapeSequence → List UInt8
  | escape c => 0x1b :: String.utf8EncodeChar c
  | control parameters f => 0x1b :: 0x5b :: (parameters ++ [f])

def Complete : EscapeSequence → Prop
  | escape c => 0x20 ≤ c.toNat ∧ c ≠ '[' ∧ c.toNat ≠ 0x9b
  | control parameters f =>
    (∀ b ∈ parameters, 0x20 ≤ b.toNat ∧ b.toNat < 0x40) ∧ 0x40 ≤ f.toNat ∧ f.toNat ≤ 0x7e

/-- `processEsc` goes back to the ground state but for three characters. -/
def Resets (pf : Platform) : EscapeSequence → Prop
  | escape c => c ≠ 'c' ∧ c ≠ 'D' ∧ c ≠ 'E' ∧ Readable pf c
  | control _ _ => True

end EscapeSequence

section encode
variable (pf : Platform) (c : Char)

/-- A first byte, and then the ones that cannot be first. -/
theorem encode_shape : ∃ b tail, String.utf8EncodeChar c = b :: tail ∧
    (c.toNat < 0x80 ∧ b.toNat = c.toNat ∧ tail = [] ∨ 0x80 ≤ c.toNat ∧ 0xc0 ≤ b.toNat) ∧
      ∀ t ∈ tail, 0x80 ≤ t.toNat ∧ t.toNat < 0xc0 := by
  have hlead : ∀ n k : ℕ, n < 0x20 → 0xc0 ≤ k → k ≤ 0xe0 → 0xc0 ≤ (UInt8.ofNat (n + k)).toNat := by
    intro n k hn hk hk'
    rw [UInt8.toNat_ofNat', Nat.mod_eq_of_lt (by omega)]
    omega
  have htail : ∀ n : ℕ, 0x80 ≤ (UInt8.ofNat (n % 0x40 + 0x80)).toNat ∧
      (UInt8.ofNat (n % 0x40 + 0x80)).toNat < 0xc0 := by
    intro n
    rw [UInt8.toNat_ofNat', Nat.mod_eq_of_lt (by omega)]
    omega
  rw [utf8EncodeChar_eq]
  split_ifs with hone htwo hthree
  · refine ⟨_, _, rfl, Or.inl ⟨by omega, ?_, rfl⟩, by simp⟩
    rw [UInt8.toNat_ofNat', Nat.mod_eq_of_lt (by omega)]
  · refine ⟨_, _, rfl, Or.inr ⟨by omega, hlead _ _ (by omega) (by omega) (by omega)⟩, ?_⟩
    simpa using htail c.toNat
  · refine ⟨_, _, rfl, Or.inr ⟨by omega, hlead _ _ (by omega) (by omega) (by omega)⟩, ?_⟩
    simpa using ⟨htail (c.toNat / 64), htail c.toNat⟩
  · refine ⟨_, _, rfl, Or.inr ⟨by omega, ?_⟩, ?_⟩
    · rw [UInt8.toNat_ofNat', Nat.mod_eq_of_lt (by omega)]
      omega
    · simpa using ⟨htail (c.toNat / 4096), htail (c.toNat / 64), htail c.toNat⟩

variable {pf c}

theorem charValue_readable (hr : Readable pf c) (hc : 0x20 ≤ c.toNat) :
    ∀ b ∈ String.utf8EncodeChar c, ¬TerminalEngine.charValue pf b < 32 := by
  obtain ⟨b, tail, heq, hb, htail⟩ := encode_shape c
  rw [heq]
  intro x hx
  have hlow : 32 ≤ x.toNat := by
    rcases List.mem_cons.mp hx with rfl | hx
    · omega
    · exact (htail x hx).1.trans' (by decide)
  have hascii : pf.signedChar = true → x.toNat < 128 := by
    intro hs
    have hlt := hr hs
    rcases hb with ⟨-, hb, rfl⟩ | ⟨hhigh, -⟩
    · rw [List.mem_singleton.mp hx, hb]
      exact hlt
    · omega
  unfold TerminalEngine.charValue
  split_ifs with hsign
  · exact absurd (hascii hsign.1) (not_lt.mpr hsign.2)
  · omega

theorem charValue_unreadable (hr : ¬Readable pf c) :
    ∀ b ∈ String.utf8EncodeChar c, TerminalEngine.charValue pf b < 0 := by
  obtain ⟨b, tail, heq, hb, htail⟩ := encode_shape c
  rw [Readable, Classical.not_imp] at hr
  rw [heq]
  intro x hx
  have hhigh : 128 ≤ x.toNat := by
    rcases List.mem_cons.mp hx with rfl | hx
    · omega
    · exact (htail x hx).1
  have hlt := x.toNat_lt
  rw [TerminalEngine.charValue, if_pos ⟨hr.1, hhigh⟩]
  omega

end encode

theorem not_accepts_reject (codep : ℕ) (bytes : List UInt8) (cp : ℕ) :
    ¬Accepts ⟨utf8Reject, codep⟩ bytes cp := by
  induction bytes generalizing codep with
  | nil => exact id
  | cons b bytes ih =>
    have hstate : (utf8decode ⟨utf8Reject, codep⟩ b).state = utf8Reject :=
      nextState_reject b.toNat b.toNat_lt
    cases bytes with
    | nil =>
      intro h
      rw [show utf8decode ⟨utf8Reject, codep⟩ b = _ from h] at hstate
      exact absurd hstate (show ¬utf8Accept = utf8Reject by decide)
    | cons next bytes =>
      intro h
      have hrest := h.2
      generalize utf8decode ⟨utf8Reject, codep⟩ b = u at hstate hrest
      obtain ⟨state, codep'⟩ := u
      obtain rfl : state = utf8Reject := hstate
      exact ih codep' hrest

/-- The states between the bytes of one character. -/
def Midway (state : ℕ) : Prop := 1 < state ∧ state < 9

section classes

/-- The classes of the bytes that may come first. -/
def leadClasses : List ℕ := [0, 2, 3, 4, 5, 6, 8, 10, 11]

/-- One walk through the bytes that may come first, the rows of the states between two bytes, each
entry with its place, the tails in the ground state, and all rows. -/
theorem utf8d_classes : (∀ x ∈ (utf8d.drop 0).take 0x80, x ∈ leadClasses) ∧
    (∀ x ∈ (utf8d.drop 0xc0).take 0x40, x ∈ leadClasses) ∧
    (∀ p ∈ ((utf8d.drop 288).take 112).zipIdx, p.2 % 16 ∈ leadClasses → p.1 = 1) ∧
    (∀ type ∈ [1, 7, 9], utf8d.getD (256 + type) 0 = 1) ∧
    ∀ state ∈ (utf8d.drop 256).take 144, state < 9 := by
  decide +kernel

theorem class_ascii {b : ℕ} (hb : b < 0x80) : utf8d.getD b 0 ∈ leadClasses := by
  rw [← Nat.zero_add b, getD_window utf8d 0 hb]
  exact getD_forall utf8d_classes.1 (by decide) b

theorem class_lead {b : ℕ} (hb : b < 0x40) : utf8d.getD (0xc0 + b) 0 ∈ leadClasses := by
  rw [getD_window utf8d 0xc0 hb]
  exact getD_forall utf8d_classes.2.1 (by decide) b

theorem midway_class : ∀ state < 9, 1 < state → ∀ type ∈ leadClasses,
    utf8d.getD (256 + state * 16 + type) 0 = 1 := by
  intro state hstate hmid type htype
  have hlt : type < 16 := by
    have hall : ∀ type ∈ leadClasses, type < 16 := by decide
    exact hall type htype
  have hindex : (state - 2) * 16 + type < ((utf8d.drop 288).take 112).length := by
    rw [List.length_take, List.length_drop, utf8d_length]
    omega
  have hplace : 256 + state * 16 + type = 288 + ((state - 2) * 16 + type) := by omega
  rw [hplace, getD_window utf8d 288 (by omega : (state - 2) * 16 + type < 112),
    List.getD_eq_getElem?_getD, List.getElem?_eq_getElem hindex]
  have hmod : ((state - 2) * 16 + type) % 16 = type := by omega
  exact utf8d_classes.2.2.1 (_, (state - 2) * 16 + type) (List.mk_mem_zipIdx_iff_getElem?.mpr
    (List.getElem?_eq_getElem hindex)) (hmod.symm ▸ htype)

theorem ground_class : ∀ type ∈ [1, 7, 9], utf8d.getD (256 + type) 0 = 1 :=
  utf8d_classes.2.2.2.1

theorem row_lt {k : ℕ} (hk : k < 144) : utf8d.getD (256 + k) 0 < 9 := by
  rw [getD_window utf8d 256 hk]
  exact getD_forall (P := fun state => state < 9) utf8d_classes.2.2.2.2 (by decide) k

end classes

theorem nextState_lt {state : ℕ} (byte : ℕ) (hstate : state < 9) :
    nextState state byte < 9 := by
  have htype := class_lt byte
  have hrow := row_lt (show state * 16 + utf8d.getD byte 0 < 144 by omega)
  rwa [← Nat.add_assoc] at hrow

namespace EscapeParser
variable {pf : Platform} {p : EscapeParser}

/-- What the constructor of the terminal leaves. -/
def start : EscapeParser := ⟨.ground, ⟨0, 0⟩, []⟩

theorem parser_start : TerminalEngine.start.map TerminalEngine.parser = some start := rfl

theorem feeds_append (p : EscapeParser) (xs ys : List UInt8) :
    p.feeds pf (xs ++ ys) = (((p.feeds pf xs).1.feeds pf ys).1,
      (p.feeds pf xs).2 ++ ((p.feeds pf xs).1.feeds pf ys).2) := by
  induction xs generalizing p with
  | nil => rfl
  | cons x xs ih => simp [feeds, ih]

/-- A character at a boundary between characters. -/
theorem feeds_accepts {bytes : List UInt8} {cp : ℕ} (h : Accepts p.utf8 bytes cp)
    (hbytes : ∀ b ∈ bytes, ¬TerminalEngine.charValue pf b < 32) : p.feeds pf bytes =
      ((codePoint { p with utf8 := ⟨utf8Accept, cp⟩ } cp).1,
        (codePoint { p with utf8 := ⟨utf8Accept, cp⟩ } cp).2.toList) := by
  induction bytes generalizing p with
  | nil => exact h.elim
  | cons b bytes ih =>
    have hb := hbytes b List.mem_cons_self
    cases bytes with
    | nil =>
      have hu : utf8decode p.utf8 b = ⟨utf8Accept, cp⟩ := h
      rw [feeds, feeds, feed, if_neg hb, hu]
      simp
    | cons next bytes =>
      obtain ⟨hmid, hrest⟩ := h
      have hreject : (utf8decode p.utf8 b).state ≠ utf8Reject := by
        intro hstate
        generalize utf8decode p.utf8 b = u at hstate hrest
        obtain ⟨state, codep⟩ := u
        obtain rfl : state = utf8Reject := hstate
        exact not_accepts_reject codep _ cp hrest
      have hfeed : p.feed pf b = ({ p with utf8 := utf8decode p.utf8 b }, none) := by
        rw [feed, if_neg hb]
        dsimp only
        rw [if_neg hmid, if_neg hreject]
      have hih := ih (p := { p with utf8 := utf8decode p.utf8 b }) hrest
        fun x hx => hbytes x (List.mem_cons_of_mem _ hx)
      rw [feeds, hfeed]
      dsimp only
      rw [hih]
      simp

theorem feeds_char {c : Char} (haccept : p.utf8.state = utf8Accept) (hc : 0x20 ≤ c.toNat)
    (hr : Readable pf c) : p.feeds pf (String.utf8EncodeChar c) =
      ((codePoint { p with utf8 := ⟨utf8Accept, c.toNat⟩ } c.toNat).1,
        (codePoint { p with utf8 := ⟨utf8Accept, c.toNat⟩ } c.toNat).2.toList) := by
  apply feeds_accepts _ (charValue_readable hr hc)
  obtain ⟨state, ⟨ustate, codep⟩, ctlseq⟩ := p
  obtain rfl : ustate = utf8Accept := haccept
  exact accepts_encode c codep

/-- Bytes that are negative do nothing but end an incomplete sequence of bytes. -/
theorem feeds_negative {bytes : List UInt8} (h : ∀ b ∈ bytes, TerminalEngine.charValue pf b < 0)
    (hne : bytes ≠ []) : p.feeds pf bytes = ({ p with utf8 := { p.utf8 with state := utf8Accept } },
      bytes.map fun b => .control (TerminalEngine.charValue pf b)) := by
  have hfeed : ∀ (q : EscapeParser), ∀ b ∈ bytes, q.feed pf b =
      ({ q with utf8 := { q.utf8 with state := utf8Accept } },
        some (.control (TerminalEngine.charValue pf b))) := by
    intro q b hb
    have hneg := h b hb
    have hcontrol : q.control (TerminalEngine.charValue pf b) = q := by
      rw [control, if_neg (by omega), if_neg (by omega)]
    rw [feed, if_pos (by omega), hcontrol]
  induction bytes generalizing p with
  | nil => exact absurd rfl hne
  | cons b bytes ih =>
    rw [feeds, hfeed p b List.mem_cons_self]
    by_cases hnil : bytes = []
    · subst hnil
      rfl
    · dsimp only
      rw [ih (fun x hx => h x (List.mem_cons_of_mem _ hx)) hnil
        fun q x hx => hfeed q x (List.mem_cons_of_mem _ hx)]
      rfl

theorem feed_reject {b : UInt8} (hb : ¬TerminalEngine.charValue pf b < 32)
    (h : nextState p.utf8.state b.toNat = utf8Reject) : p.feed pf b =
      ({ p with utf8 := { utf8decode p.utf8 b with state := utf8Accept } }, none) := by
  have hreject : (utf8decode p.utf8 b).state = utf8Reject := h
  have hstate : (utf8decode p.utf8 b).state ≠ utf8Accept := by
    rw [hreject]
    decide
  rw [feed, if_neg hb]
  dsimp only
  rw [if_neg hstate, if_pos hreject]

theorem charValue_eq_of_ascii {b : UInt8} (h : b.toNat < 0x80) :
    TerminalEngine.charValue pf b = b.toNat := by
  rw [TerminalEngine.charValue, if_neg (by omega)]

theorem feed_ascii {b : UInt8} (haccept : p.utf8.state = utf8Accept) (hlow : 0x20 ≤ b.toNat)
    (hhigh : b.toNat < 0x80) :
    p.feed pf b = codePoint { p with utf8 := ⟨utf8Accept, b.toNat⟩ } b.toNat := by
  have hb : ¬TerminalEngine.charValue pf b < 32 := by
    rw [charValue_eq_of_ascii hhigh]
    omega
  have hu : utf8decode p.utf8 b = ⟨utf8Accept, b.toNat⟩ := by
    obtain ⟨state, ⟨ustate, codep⟩, ctlseq⟩ := p
    obtain rfl : ustate = utf8Accept := haccept
    obtain ⟨hnext, hbits⟩ := lead_one b.toNat hhigh
    refine (utf8decode_lead codep b).trans ?_
    rw [hnext, hbits]
    rfl
  rw [feed, if_neg hb, hu]
  exact if_pos rfl

/-- A character in the middle of another one is lost with it. -/
theorem feeds_midway {c : Char} (hmid : Midway p.utf8.state) (hc : 0x20 ≤ c.toNat)
    (hr : Readable pf c) : ∃ codep, p.feeds pf (String.utf8EncodeChar c) =
      ({ p with utf8 := ⟨utf8Accept, codep⟩ }, []) := by
  have hvalue := charValue_readable hr hc
  obtain ⟨b, tail, heq, hb, htail⟩ := encode_shape c
  rw [heq] at hvalue ⊢
  have hlead : nextState p.utf8.state b.toNat = utf8Reject := by
    rcases hb with ⟨hlow, hb, -⟩ | ⟨-, hb⟩
    · exact midway_class _ hmid.2 hmid.1 _ (class_ascii (by omega))
    · have hlt := b.toNat_lt
      have htype := class_lead (show b.toNat - 0xc0 < 0x40 by omega)
      rw [Nat.add_sub_cancel' hb] at htype
      exact midway_class _ hmid.2 hmid.1 _ htype
  -- the bytes behind the first one are rejected one by one
  have hrest : ∀ (bytes : List UInt8) (codep : ℕ), (∀ t ∈ bytes, t ∈ tail) →
      ∃ codep', feeds pf { p with utf8 := ⟨utf8Accept, codep⟩ } bytes =
        ({ p with utf8 := ⟨utf8Accept, codep'⟩ }, []) := by
    intro bytes
    induction bytes with
    | nil => exact fun codep _ => ⟨codep, rfl⟩
    | cons t bytes ih =>
      intro codep hmem
      have ht := htail t (hmem t List.mem_cons_self)
      have htype := @class_tail (· ∈ [1, 7, 9]) (t.toNat - 0x80) (by omega) (fun _ => by simp)
        (fun _ _ => by simp) fun _ => by simp
      rw [Nat.add_sub_cancel' ht.1] at htype
      have hnext : nextState utf8Accept t.toNat = utf8Reject := ground_class _ htype
      rw [feeds, feed_reject (p := { p with utf8 := ⟨utf8Accept, codep⟩ })
        (hvalue t (List.mem_cons_of_mem _ (hmem t List.mem_cons_self))) hnext]
      obtain ⟨codep', hcodep⟩ := ih (utf8decode ⟨utf8Accept, codep⟩ t).codep
        fun x hx => hmem x (List.mem_cons_of_mem _ hx)
      dsimp only
      rw [hcodep]
      exact ⟨codep', rfl⟩
  obtain ⟨codep, hcodep⟩ := hrest tail (utf8decode p.utf8 b).codep fun _ ht => ht
  rw [feeds, feed_reject (hvalue b List.mem_cons_self) hlead]
  dsimp only
  rw [hcodep]
  exact ⟨codep, rfl⟩

/-- The decoder is between two characters, or in the middle of one. -/
def Decodes (p : EscapeParser) : Prop := p.utf8.state = utf8Accept ∨ Midway p.utf8.state

theorem utf8_codePoint (p : EscapeParser) (cp : ℕ) : (p.codePoint cp).1.utf8 = p.utf8 := by
  obtain ⟨state, utf8, ctlseq⟩ := p
  unfold codePoint
  cases state
  all_goals
    dsimp only
    split_ifs <;> rfl

theorem Decodes.feed (h : p.Decodes) (b : UInt8) : (p.feed pf b).1.Decodes := by
  have hlt : p.utf8.state < 9 := by
    rcases h with h | h
    · rw [h]
      decide
    · exact h.2
  have hnext := nextState_lt b.toNat hlt
  rw [← utf8decode_state] at hnext
  unfold EscapeParser.feed
  split_ifs with hc0
  · exact Or.inl rfl
  · dsimp only
    split_ifs with haccept hreject
    · rw [Decodes, utf8_codePoint]
      exact Or.inl haccept
    · exact Or.inl rfl
    · refine Or.inr ⟨?_, hnext⟩
      unfold utf8Accept at haccept
      unfold utf8Reject at hreject
      exact Nat.lt_of_le_of_ne (Nat.one_le_iff_ne_zero.mpr haccept) (Ne.symm hreject)

theorem Decodes.feeds (h : p.Decodes) (bytes : List UInt8) : (p.feeds pf bytes).1.Decodes := by
  induction bytes generalizing p with
  | nil => exact h
  | cons b bytes ih => exact ih (h.feed b)

section text
variable {text : List Char}

/-- In the ground state text goes to the screen as it is. -/
theorem feeds_text (hground : p.state = .ground) (haccept : p.utf8.state = utf8Accept)
    (htext : ∀ c ∈ text, Printable c) (hr : ∀ c ∈ text, Readable pf c) :
    (p.feeds pf (textBytes text)).2 = text.map fun c => .print c.toNat := by
  induction text generalizing p with
  | nil => rfl
  | cons c text ih =>
    have hc := htext c List.mem_cons_self
    have hprint : codePoint { p with utf8 := ⟨utf8Accept, c.toNat⟩ } c.toNat =
        ({ p with utf8 := ⟨utf8Accept, c.toNat⟩ }, some (.print c.toNat)) := by
      rw [codePoint, if_neg hc.not_csi]
      dsimp only
      rw [hground]
    rw [textBytes_cons, feeds_append, feeds_char haccept hc.low (hr c List.mem_cons_self), hprint]
    dsimp only
    rw [ih (p := { p with utf8 := ⟨utf8Accept, c.toNat⟩ }) hground rfl
      (fun x hx => htext x (List.mem_cons_of_mem _ hx))
      fun x hx => hr x (List.mem_cons_of_mem _ hx)]
    rfl

/-- A character that is not readable shows among the actions. -/
theorem readable_of_prints (actions : List ℕ)
    (h : (p.feeds pf (textBytes text)).2 = actions.map .print) : ∀ c ∈ text, Readable pf c := by
  intro c hc
  by_contra hr
  obtain ⟨before, after, rfl⟩ := List.append_of_mem hc
  rw [textBytes_append, textBytes_cons, feeds_append, feeds_append,
    feeds_negative (charValue_unreadable hr) (String.utf8EncodeChar_ne_nil)] at h
  obtain ⟨b, tail, heq, -⟩ := encode_shape c
  have hmem : Action.control (TerminalEngine.charValue pf b) ∈ actions.map Action.print := by
    rw [← h, heq]
    simp
  simp at hmem

theorem prints_iff (hground : p.state = .ground) (hdecodes : p.Decodes)
    (htext : ∀ c ∈ text, Printable c) :
    (p.feeds pf (textBytes text)).2 = (text.map fun c => .print c.toNat) ↔
      (text = [] ∨ p.utf8.state = utf8Accept) ∧ ∀ c ∈ text, Readable pf c := by
  constructor
  · intro h
    have hr : ∀ c ∈ text, Readable pf c :=
      readable_of_prints (text.map Char.toNat) (h.trans (by simp))
    refine ⟨?_, hr⟩
    rcases hdecodes with haccept | hmid
    · exact Or.inr haccept
    · cases text with
      | nil => exact Or.inl rfl
      | cons c text =>
        -- the first character is lost, and the others are not enough
        obtain ⟨codep, hlost⟩ := feeds_midway hmid (htext c List.mem_cons_self).low
          (hr c List.mem_cons_self)
        rw [textBytes_cons, feeds_append, hlost] at h
        dsimp only at h
        rw [feeds_text (p := { p with utf8 := ⟨utf8Accept, codep⟩ }) hground rfl
          (fun x hx => htext x (List.mem_cons_of_mem _ hx))
          fun x hx => hr x (List.mem_cons_of_mem _ hx)] at h
        have hlen := congrArg List.length h
        simp at hlen
  · rintro ⟨rfl | haccept, hr⟩
    · rfl
    · exact feeds_text hground haccept htext hr

end text

section sequence

theorem feed_esc (p : EscapeParser) : p.feed pf 0x1b =
    (⟨.esc, { p.utf8 with state := utf8Accept }, []⟩, some (.control 27)) := by
  have hvalue : TerminalEngine.charValue pf 0x1b = 27 := charValue_eq_of_ascii (by decide)
  rw [feed, hvalue]
  rfl

/-- Behind parameters the parser still waits for the final byte. -/
theorem feeds_parameters (pf : Platform) {parameters : List UInt8} (hstate : p.state = .csi)
    (haccept : p.utf8.state = utf8Accept)
    (h : ∀ b ∈ parameters, 0x20 ≤ b.toNat ∧ b.toNat < 0x40) :
    (p.feeds pf parameters).1.state = .csi ∧
      (p.feeds pf parameters).1.utf8.state = utf8Accept := by
  induction parameters generalizing p with
  | nil => exact ⟨hstate, haccept⟩
  | cons b parameters ih =>
    obtain ⟨hlow, hhigh⟩ := h b List.mem_cons_self
    have hfinal : ¬TerminalEngine.isFinal b.toNat = true := by
      simp [TerminalEngine.isFinal]
      omega
    have hnext : (p.feed pf b).1.state = .csi ∧ (p.feed pf b).1.utf8.state = utf8Accept := by
      rw [feed_ascii haccept hlow (by omega)]
      refine ⟨?_, by rw [utf8_codePoint]⟩
      rw [codePoint, if_neg (by omega)]
      dsimp only
      rw [hstate]
      dsimp only
      rw [if_neg hfinal]
      split_ifs <;> rfl
    exact ih hnext.1 hnext.2 fun x hx => h x (List.mem_cons_of_mem _ hx)

/-- A complete sequence ends between two characters. -/
theorem feeds_sequence (pf : Platform) (p : EscapeParser) {seq : EscapeSequence}
    (hseq : seq.Complete) :
    (p.feeds pf seq.bytes).1.utf8.state = utf8Accept ∧
      ((p.feeds pf seq.bytes).1.state = .ground ↔ seq.Resets pf) := by
  cases seq with
  | escape c =>
    obtain ⟨hlow, hbracket, hcsi⟩ := hseq
    rw [EscapeSequence.bytes, feeds, feed_esc]
    dsimp only
    by_cases hr : Readable pf c
    · rw [feeds_char (p := ⟨.esc, _, []⟩) rfl hlow hr]
      refine ⟨by rw [utf8_codePoint], ?_⟩
      have hopen : c.toNat ≠ '['.toNat := fun h => hbracket (Char.toNat_inj.mp h)
      rw [codePoint, if_neg hcsi]
      dsimp only
      rw [if_neg hopen]
      split_ifs with hkept
      all_goals simp only [Char.toNat_inj] at hkept
      · simp only [EscapeSequence.Resets, false_iff]
        tauto
      · simp only [EscapeSequence.Resets, true_iff]
        tauto
    · rw [feeds_negative (charValue_unreadable hr) String.utf8EncodeChar_ne_nil]
      refine ⟨rfl, ?_⟩
      simp only [EscapeSequence.Resets, reduceCtorEq, false_iff]
      tauto
  | control parameters f =>
    obtain ⟨hparameters, hlow, hhigh⟩ := hseq
    have hbracket : feed pf ⟨.esc, { p.utf8 with state := utf8Accept }, []⟩ 0x5b =
        (⟨.csi, ⟨utf8Accept, 0x5b⟩, []⟩, none) := feed_ascii rfl (by decide) (by decide)
    obtain ⟨hstate, haccept⟩ := feeds_parameters pf (p := ⟨.csi, ⟨utf8Accept, 0x5b⟩, []⟩)
      rfl rfl hparameters
    have hfinal : TerminalEngine.isFinal f.toNat = true := by
      simp [TerminalEngine.isFinal]
      omega
    rw [EscapeSequence.bytes, feeds, feed_esc, feeds, hbracket]
    dsimp only
    rw [feeds_append]
    generalize (feeds pf ⟨.csi, ⟨utf8Accept, 0x5b⟩, []⟩ parameters).1 = q at hstate haccept ⊢
    rw [feeds, feeds, feed_ascii haccept (by omega) (by omega)]
    refine ⟨by rw [utf8_codePoint], iff_of_true ?_ trivial⟩
    rw [codePoint, if_neg (by omega)]
    dsimp only
    rw [hstate]
    dsimp only
    rw [if_pos hfinal]

end sequence

/-- Behind the sequence the parser is in the ground state again, and text is printed; text without
a sequence is printed, too. -/
def Resyncs (pf : Platform) (p : EscapeParser) (seq : EscapeSequence) (text : List Char) : Prop :=
  (p.feeds pf seq.bytes).1.state = .ground ∧
  ((p.feeds pf seq.bytes).1.feeds pf (textBytes text)).2 = (text.map fun c => .print c.toNat) ∧
  (p.feeds pf (textBytes text)).2 = text.map fun c => .print c.toNat

theorem decodes_start (pf : Platform) (pre : List UInt8) : (start.feeds pf pre).1.Decodes :=
  Decodes.feeds (Or.inl rfl) pre

end EscapeParser

/-- The parser is in step again behind every sequence but ESC `c`, ESC `D` and ESC `E`, which leave
it where it waits for what follows ESC. What the parser tells the screen to do is what the terminal
does, and a character that is printed is in its cell. -/
theorem resyncs_iff (pf : Platform) (pre : List UInt8) (seq : EscapeSequence) (text : List Char)
    (hground : (EscapeParser.start.feeds pf pre).1.state = .ground) (hseq : seq.Complete)
    (htext : ∀ c ∈ text, Printable c) :
    (EscapeParser.Resyncs pf (EscapeParser.start.feeds pf pre).1 seq text ↔
      seq.Resets pf ∧ (∀ c ∈ text, Readable pf c) ∧
        (text = [] ∨ (EscapeParser.start.feeds pf pre).1.utf8.state = utf8Accept)) ∧
    TerminalEngine.start.map TerminalEngine.parser = some EscapeParser.start ∧
    (∀ (e : TerminalEngine) (bytes : List UInt8), e.outputs pf bytes =
      ((e.parser.feeds pf bytes).2.foldlM (TerminalEngine.perform pf) e).map
        (TerminalEngine.withParser (e.parser.feeds pf bytes).1)) ∧
    ∀ (e e' : TerminalEngine) (cp : ℕ), e.perform pf (.print cp) = some e' →
      let w := if e.linewrap then (e.down 1).setX 0 else e
      e'.unpackedY = w.cursorY.toNat ∧ e'.unpackedLine[w.cursorX.toNat]? = some cp := by
  refine ⟨?_, EscapeParser.parser_start, TerminalEngine.outputs_eq pf,
    fun e e' cp => TerminalEngine.processChar_writes⟩
  have hdecodes := EscapeParser.decodes_start pf pre
  generalize (EscapeParser.start.feeds pf pre).1 = p at hground hdecodes ⊢
  obtain ⟨haccept, hresets⟩ := EscapeParser.feeds_sequence pf p hseq
  constructor
  · intro h
    obtain ⟨hstate, -, hplain⟩ := h
    obtain ⟨hboundary, hr⟩ := (EscapeParser.prints_iff hground hdecodes htext).mp hplain
    exact ⟨hresets.mp hstate, hr, hboundary⟩
  · intro h
    obtain ⟨hreset, hr, hboundary⟩ := h
    have hstate := hresets.mpr hreset
    refine ⟨hstate, ?_, (EscapeParser.prints_iff hground hdecodes htext).mpr ⟨hboundary, hr⟩⟩
    exact (EscapeParser.prints_iff hstate (Or.inl haccept) htext).mpr ⟨Or.inr haccept, hr⟩

/-- `a`, then a red `b`. -/
theorem resyncs_colours :
    EscapeParser.Resyncs ⟨fun _ => 0, true⟩ (EscapeParser.start.feeds ⟨fun _ => 0, true⟩ [0x61]).1
      (.control [0x33, 0x31] 0x6d) ['b'] :=
  ((resyncs_iff ⟨fun _ => 0, true⟩ [0x61] (.control [0x33, 0x31] 0x6d) ['b'] rfl
    ⟨by simp, by simp⟩ (by simp [Printable])).1).mpr
      ⟨trivial, by simp [Readable], Or.inr rfl⟩

def AlwaysResyncs : Prop :=
  ∀ (pf : Platform) (pre : List UInt8) (seq : EscapeSequence) (text : List Char),
    (EscapeParser.start.feeds pf pre).1.state = .ground → seq.Complete → (∀ c ∈ text, Printable c) →
      EscapeParser.Resyncs pf (EscapeParser.start.feeds pf pre).1 seq text

/-- Behind ESC `D` the `x` is read as the rest of an escape sequence. -/
theorem not_alwaysResyncs : ¬AlwaysResyncs ∧
    (EscapeParser.start.feeds ⟨fun _ => 0, false⟩ [0x1b, 0x44, 0x78]).2 =
      [.control 27, .escape 'D'.toNat] := by
  have hlost : (EscapeParser.start.feeds ⟨fun _ => 0, false⟩ [0x1b, 0x44, 0x78]).2 =
      [.control 27, .escape 'D'.toNat] := by decide +kernel
  refine ⟨fun h => ?_, hlost⟩
  have hstate := (h ⟨fun _ => 0, false⟩ [] (.escape 'D') ['x'] rfl ⟨by decide, by decide, by decide⟩
    (by simp [Printable])).1
  revert hstate
  decide +kernel

end BootableRecovery.Gui
