import BootableRecovery.Lib.Window
import BootableRecovery.TwrpInstall.Asn1Windows

namespace BootableRecovery.TwrpInstall.Asn1
open Lib Otautil

/-! `read_pkcs7`: the signature is a part of what it is read from. -/

/-- What is returned, and all that has been read. -/
abbrev Pkcs7Result := Option ByteView × List ViewRead

/-- Goes on with the context that a getter gives. -/
def enter (get : ViewReader (Option ByteView)) (next : ByteView → Pkcs7Result) (v : ByteView) :
    Pkcs7Result :=
  let r := get v
  match r.1 with
  | none => (none, r.2.2)
  | some sub => ((next sub).1, r.2.2 ++ (next sub).2)

/-- Goes on in the same context. -/
def require (skip : ViewReader Bool) (next : ByteView → Pkcs7Result) (v : ByteView) :
    Pkcs7Result :=
  let r := skip v
  if r.1 then ((next r.2.1).1, r.2.2 ++ (next r.2.1).2) else (none, r.2.2)

/-- Ends with what a getter gives. -/
def leave (get : ViewReader (Option ByteView)) (v : ByteView) : Pkcs7Result :=
  let r := get v
  (r.1, r.2.2)

section readPkcs7
variable (mem : ℕ → UInt8) (sizeofSize : ℕ)

/-- The slice that is copied into `sig_der`. -/
def readPkcs7 : ByteView → Pkcs7Result :=
  enter (asn1SequenceGet mem sizeofSize) <|
  require (asn1SequenceNext mem sizeofSize) <|
  enter (asn1ConstructedGet mem sizeofSize) <|
  enter (asn1SequenceGet mem sizeofSize) <|
  require (asn1SequenceNext mem sizeofSize) <|
  require (asn1SequenceNext mem sizeofSize) <|
  require (asn1SequenceNext mem sizeofSize) <|
  require (asn1ConstructedSkipAll mem sizeofSize) <|
  enter (asn1SetGet mem sizeofSize) <|
  enter (asn1SequenceGet mem sizeofSize) <|
  require (asn1SequenceNext mem sizeofSize) <|
  require (asn1SequenceNext mem sizeofSize) <|
  require (asn1SequenceNext mem sizeofSize) <|
  require (asn1SequenceNext mem sizeofSize) <|
  leave (asn1OctetStringGet mem sizeofSize)

/-- The slice and everything that is read are in the view. -/
structure Inside (r : Pkcs7Result) (v : ByteView) : Prop where
  slice : ∀ sub, r.1 = some sub → sub.PartOf v
  reads : ∀ read ∈ r.2, read.view.PartOf v ∧ read.view.Has read.address

variable {get : ViewReader (Option ByteView)} {skip : ViewReader Bool}
  {next : ByteView → Pkcs7Result}

theorem enter_inside (hsafe : get.Safe) (hpart : get.GivesPart)
    (hnext : ∀ v, Inside (next v) v) (v : ByteView) : Inside (enter get next v) v := by
  have hreads : ∀ read ∈ (get v).2.2, read.view.PartOf v ∧ read.view.Has read.address :=
    fun read hread => ⟨((hsafe v).reads read hread).1.partOf, ((hsafe v).reads read hread).2⟩
  unfold enter
  dsimp only
  rcases hget : (get v).1 with _ | sub
  · exact ⟨fun _ h => absurd h (Option.some_ne_none _).symm, hreads⟩
  · have hsub := hpart v sub hget
    refine ⟨fun s hs => ((hnext sub).slice s hs).trans hsub, fun read hread => ?_⟩
    rcases List.mem_append.mp hread with hread | hread
    · exact hreads read hread
    · obtain ⟨hview, hhas⟩ := (hnext sub).reads read hread
      exact ⟨hview.trans hsub, hhas⟩

theorem require_inside (hsafe : skip.Safe) (hnext : ∀ v, Inside (next v) v) (v : ByteView) :
    Inside (require skip next v) v := by
  have hreads : ∀ read ∈ (skip v).2.2, read.view.PartOf v ∧ read.view.Has read.address :=
    fun read hread => ⟨((hsafe v).reads read hread).1.partOf, ((hsafe v).reads read hread).2⟩
  have hrest := (hsafe v).rest.partOf
  unfold require
  dsimp only
  split_ifs
  · refine ⟨fun s hs => ((hnext _).slice s hs).trans hrest, fun read hread => ?_⟩
    rcases List.mem_append.mp hread with hread | hread
    · exact hreads read hread
    · obtain ⟨hview, hhas⟩ := (hnext _).reads read hread
      exact ⟨hview.trans hrest, hhas⟩
  · exact ⟨fun _ h => absurd h (Option.some_ne_none _).symm, hreads⟩

theorem readPkcs7_inside (v : ByteView) : Inside (readPkcs7 mem sizeofSize v) v := by
  have hget : ∀ mask tag, ∀ {k : ByteView → Pkcs7Result}, (∀ v, Inside (k v) v) →
      ∀ v, Inside (enter (taggedGet mem sizeofSize mask tag) k v) v := fun mask tag _ hk =>
    enter_inside (taggedGet_safe mem sizeofSize mask tag)
      (taggedGet_givesPart mem sizeofSize mask tag) hk
  have hnext : ∀ {k : ByteView → Pkcs7Result}, (∀ v, Inside (k v) v) →
      ∀ v, Inside (require (asn1SequenceNext mem sizeofSize) k v) v := fun hk =>
    require_inside (asn1SequenceNext_safe mem sizeofSize) hk
  have hlast : ∀ v, Inside (leave (asn1OctetStringGet mem sizeofSize) v) v := by
    intro v
    have hsafe := asn1OctetStringGet_safe mem sizeofSize v
    refine ⟨asn1OctetStringGet_givesPart mem sizeofSize v, fun read hread => ?_⟩
    exact ⟨(hsafe.reads read hread).1.partOf, (hsafe.reads read hread).2⟩
  have hsigner := hget kMaskTag kTagSet (hget kMaskTag kTagSequence
    (hnext (hnext (hnext (hnext hlast)))))
  have hskip := require_inside (asn1ConstructedSkipAll_safe mem sizeofSize) hsigner
  exact hget _ _ (hnext (hget _ _ (hget _ _ (hnext (hnext (hnext hskip)))))) v

end readPkcs7

/-! ### The same as on lists of bytes -/

section bytes
variable (mem : ℕ → UInt8)

/-- The bytes of a view. -/
def bytes (v : ByteView) : Bytes := window mem v.start v.length

theorem bytes_length (v : ByteView) : (bytes mem v).length = v.length := window_length _ _ _

theorem bytes_advance (v : ByteView) (n : ℕ) : bytes mem (v.advance n) = (bytes mem v).drop n :=
  (window_drop mem v.start v.length n).symm

theorem bytes_take {v : ByteView} {n : ℕ} (h : n ≤ v.length) :
    bytes mem ⟨v.start, n⟩ = (bytes mem v).take n := by
  rw [bytes, bytes, window_take, Nat.min_eq_left h]

theorem bytes_of_zero {v : ByteView} (h : v.length = 0) : bytes mem v = [] := by
  rw [bytes, h, window_zero]

theorem bytes_cons {v : ByteView} (h : v.length ≠ 0) :
    bytes mem v = mem v.start :: bytes mem (v.advance 1) := by
  obtain ⟨n, hn⟩ := Nat.exists_eq_succ_of_ne_zero h
  rw [bytes, hn, window_succ, bytes, ByteView.advance, hn]
  rfl

/-- The sum in a `size_t` is the sum: as many octets as are allowed stay below its end. -/
theorem decodeOctets_bytes (sizeofSize n k length : ℕ) (hlength : length < 256 ^ k)
    (hn : k + n ≤ sizeofSize) (v : ByteView) :
    TwrpInstall.decodeOctets n length (bytes mem v) =
      (decodeOctets mem sizeofSize n length v).1.map fun total =>
        (total, bytes mem (decodeOctets mem sizeofSize n length v).2.1) := by
  induction n generalizing k length v with
  | zero => rfl
  | succ n ih =>
    unfold decodeOctets ViewReader.bind getByte
    by_cases hv : v.length = 0
    · rw [bytes_of_zero mem hv]
      simp [hv, TwrpInstall.decodeOctets, ViewReader.pure]
    · have hbyte : (mem v.start).toNat < 256 := (mem v.start).toNat_lt
      have hstep : length * 256 + (mem v.start).toNat < 256 ^ (k + 1) := by
        rw [Nat.pow_succ]
        omega
      have hpow : 256 ^ (k + 1) ≤ 2 ^ (8 * sizeofSize) := by
        rw [Nat.pow_mul]
        exact Nat.pow_le_pow_right (by decide) (by omega)
      have hwrap : (length * 256 % 2 ^ (8 * sizeofSize) + (mem v.start).toNat) %
          2 ^ (8 * sizeofSize) = length * 256 + (mem v.start).toNat := by
        rw [Nat.mod_add_mod]
        exact Nat.mod_eq_of_lt (hstep.trans_le hpow)
      rw [bytes_cons mem hv, TwrpInstall.decodeOctets,
        ih (k + 1) _ hstep (by omega) (v.advance 1)]
      simp only [hv, if_false, hwrap]

/-- A reader gives the part of a view whose bytes `f` finds. -/
def Finds (x : ByteView → Option ByteView) (f : Bytes → Option Bytes) : Prop :=
  ∀ v, f (bytes mem v) = (x v).map (bytes mem)

/-- A reader leaves the bytes that `f` leaves. -/
def Skips (x : ViewReader Bool) (f : Bytes → Option Bytes) : Prop :=
  ∀ v, f (bytes mem v) = if (x v).1 then some (bytes mem (x v).2.1) else none

theorem decodeLength_bytes (v : ByteView) :
    TwrpInstall.decodeLength (bytes mem v) =
      (decodeLength mem 8 v).1.map fun length =>
        (length, bytes mem (decodeLength mem 8 v).2.1) := by
  unfold decodeLength ViewReader.bind getByte
  by_cases hv : v.length = 0
  · rw [bytes_of_zero mem hv]
    simp [hv, TwrpInstall.decodeLength, ViewReader.pure]
  · rw [bytes_cons mem hv, TwrpInstall.decodeLength]
    simp only [hv, if_false]
    split_ifs with hshort hlong
    · rfl
    · rfl
    · apply decodeOctets_bytes mem 8 _ 0 0 (by decide)
      omega

theorem subContext_bytes (length : ℕ) (v : ByteView) :
    (if length > (bytes mem v).length then none else some ((bytes mem v).take length)) =
      (subContext length v).1.map (bytes mem) := by
  unfold subContext
  rw [bytes_length]
  by_cases h : length > v.length
  · simp [h]
  · simp only [h, if_false, Option.map_some]
    rw [← bytes_take mem (by omega)]

theorem valueGet_bytes (v : ByteView) :
    (match TwrpInstall.decodeLength (bytes mem v) with
      | none => none
      | some (length, ctx) => if length > ctx.length then none else some (ctx.take length)) =
      (valueGet mem 8 v).1.map (bytes mem) := by
  rw [decodeLength_bytes]
  unfold valueGet ViewReader.bind
  dsimp only
  rcases decodeLength mem 8 v with ⟨_ | length, rest, reads⟩
  · rfl
  · exact subContext_bytes mem length rest

theorem taggedGet_bytes (mask tag : UInt8) :
    Finds mem (fun v => (taggedGet mem 8 mask tag v).1) (TwrpInstall.taggedGet mask tag) := by
  intro v
  unfold taggedGet ViewReader.bind getByte
  by_cases hv : v.length = 0
  · rw [bytes_of_zero mem hv]
    simp [hv, TwrpInstall.taggedGet, ViewReader.pure]
  · rw [bytes_cons mem hv, TwrpInstall.taggedGet]
    simp only [hv, if_false]
    split_ifs with htag
    · rfl
    · exact valueGet_bytes mem (v.advance 1)

theorem skipValue_bytes (v : ByteView) :
    (match TwrpInstall.decodeLength (bytes mem v) with
      | none => none
      | some (length, ctx) => TwrpInstall.skipBytes ctx length) =
      if (skipValue mem 8 v).1 then some (bytes mem (skipValue mem 8 v).2.1) else none := by
  rw [decodeLength_bytes]
  unfold skipValue ViewReader.bind
  dsimp only
  rcases decodeLength mem 8 v with ⟨_ | length, rest, reads⟩
  · rfl
  · simp only [Option.map_some, skipBytes, TwrpInstall.skipBytes, bytes_length]
    by_cases h : rest.length < length
    · simp [h]
    · simp [h, bytes_advance]

theorem asn1SequenceNext_bytes :
    Skips mem (asn1SequenceNext mem 8) TwrpInstall.asn1SequenceNext := by
  intro v
  unfold asn1SequenceNext ViewReader.bind getByte
  by_cases hv : v.length = 0
  · rw [bytes_of_zero mem hv]
    simp [hv, TwrpInstall.asn1SequenceNext, ViewReader.pure]
  · rw [bytes_cons mem hv, TwrpInstall.asn1SequenceNext]
    simp only [hv, if_false]
    exact skipValue_bytes mem (v.advance 1)

theorem octetsGet_bytes (v : ByteView) :
    (match TwrpInstall.decodeLength (bytes mem v) with
      | none => none
      | some (length, ctx) =>
        if length = 0 ∨ length > ctx.length then none else some (ctx.take length)) =
      (octetsGet mem 8 v).1.map (bytes mem) := by
  rw [decodeLength_bytes]
  unfold octetsGet ViewReader.bind
  dsimp only
  rcases decodeLength mem 8 v with ⟨_ | length, rest, reads⟩
  · rfl
  · by_cases hzero : length = 0
    · simp [hzero, ViewReader.pure]
    · simp only [Option.map_some, hzero, false_or, if_false]
      exact subContext_bytes mem length rest

theorem asn1OctetStringGet_bytes :
    Finds mem (fun v => (asn1OctetStringGet mem 8 v).1) TwrpInstall.asn1OctetStringGet := by
  intro v
  unfold asn1OctetStringGet ViewReader.bind getByte
  by_cases hv : v.length = 0
  · rw [bytes_of_zero mem hv]
    simp [hv, TwrpInstall.asn1OctetStringGet, ViewReader.pure]
  · rw [bytes_cons mem hv, TwrpInstall.asn1OctetStringGet]
    simp only [hv, if_false]
    split_ifs with htag
    · rfl
    · exact octetsGet_bytes mem (v.advance 1)

theorem skipConstructed_empty {v : ByteView} (hv : v.length = 0) :
    skipConstructed mem 8 v = (.inl false, v, []) := by
  simp [skipConstructed, ViewReader.bind, peekByte, hv, ViewReader.pure]

theorem skipConstructed_other {v : ByteView} (hv : v.length ≠ 0)
    (htag : mem v.start &&& kMaskConstructed ≠ kTagConstructed) :
    skipConstructed mem 8 v = (.inl true, v, [⟨v, v.start⟩]) := by
  simp [skipConstructed, ViewReader.bind, peekByte, hv, htag, ViewReader.pure]

/-- A constructed value is skipped as any other. -/
theorem skipConstructed_value {v : ByteView} (hv : v.length ≠ 0)
    (htag : mem v.start &&& kMaskConstructed = kTagConstructed) :
    ∃ reads, skipConstructed mem 8 v =
      (if (asn1SequenceNext mem 8 v).1 then .inr () else .inl false,
        (asn1SequenceNext mem 8 v).2.1, reads) := by
  have hskip : skipBytes 1 v = (true, v.advance 1, []) := if_neg (by omega)
  have hnext : (asn1SequenceNext mem 8 v).1 = (skipValue mem 8 (v.advance 1)).1 ∧
      (asn1SequenceNext mem 8 v).2.1 = (skipValue mem 8 (v.advance 1)).2.1 := by
    simp [asn1SequenceNext, ViewReader.bind, getByte, hv]
  rw [hnext.1, hnext.2]
  unfold skipConstructed ViewReader.bind peekByte
  simp only [hv, if_false, htag, ne_eq, not_true, hskip]
  cases (skipValue mem 8 (v.advance 1)).1
  · exact ⟨_, rfl⟩
  · exact ⟨_, rfl⟩

theorem asn1ConstructedSkipAll_bytes :
    Skips mem (asn1ConstructedSkipAll mem 8) TwrpInstall.asn1ConstructedSkipAll := by
  intro v
  induction hn : v.length using Nat.strong_induction_on generalizing v with
  | _ n ih =>
    by_cases hv : v.length = 0
    · rw [skipAll_stop mem 8 (skipConstructed_empty mem hv), bytes_of_zero mem hv,
        TwrpInstall.asn1ConstructedSkipAll]
      rfl
    have hcons := bytes_cons mem hv
    by_cases htag : mem v.start &&& kMaskConstructed = kTagConstructed
    · have hnext := asn1SequenceNext_bytes mem v
      obtain ⟨reads, hpass⟩ := skipConstructed_value mem hv htag
      have hlength := skipConstructed_length mem 8 (v := v)
      rw [hcons] at hnext ⊢
      rw [TwrpInstall.asn1ConstructedSkipAll, if_pos htag]
      rw [hpass] at hlength
      rcases hresult : (asn1SequenceNext mem 8 v).1 with _ | _
      · rw [hresult] at hpass hnext
        rw [skipAll_stop mem 8 hpass]
        split
        · rfl
        · rename_i h
          rw [hnext] at h
          cases h
      · rw [hresult] at hpass hnext hlength
        rw [skipAll_pass mem 8 hpass]
        split
        · rename_i h
          rw [hnext] at h
          cases h
        · rename_i h
          rw [hnext] at h
          cases h
          exact ih _ (hn ▸ hlength rfl) _ rfl
    · rw [skipAll_stop mem 8 (skipConstructed_other mem hv htag), hcons,
        TwrpInstall.asn1ConstructedSkipAll, if_neg htag]
      rfl

variable {mem} {get : ViewReader (Option ByteView)} {skip : ViewReader Bool}
  {next : ByteView → Pkcs7Result} {f g : Bytes → Option Bytes}

theorem enter_bytes (hget : Finds mem (fun v => (get v).1) f)
    (hnext : Finds mem (fun v => (next v).1) g) :
    Finds mem (fun v => (enter get next v).1) fun ctx => (f ctx).bind g := by
  intro v
  have hv := hget v
  dsimp only at hv ⊢
  rw [hv]
  unfold enter
  dsimp only
  cases (get v).1 with
  | none => rfl
  | some sub => exact hnext sub

theorem require_bytes (hskip : Skips mem skip f)
    (hnext : Finds mem (fun v => (next v).1) g) :
    Finds mem (fun v => (require skip next v).1) fun ctx => (f ctx).bind g := by
  intro v
  dsimp only
  rw [hskip v]
  unfold require
  dsimp only
  cases (skip v).1 with
  | false => rfl
  | true => exact hnext _

variable (mem) in
theorem readPkcs7_bytes :
    Finds mem (fun v => (readPkcs7 mem 8 v).1) TwrpInstall.readPkcs7 := by
  have hnext : ∀ {k : ByteView → Pkcs7Result} {g : Bytes → Option Bytes},
      Finds mem (fun v => (k v).1) g →
      Finds mem (fun v => (require (asn1SequenceNext mem 8) k v).1)
        fun ctx => (TwrpInstall.asn1SequenceNext ctx).bind g := fun hk =>
    require_bytes (asn1SequenceNext_bytes mem) hk
  have hlast : Finds mem (fun v => (leave (asn1OctetStringGet mem 8) v).1)
      TwrpInstall.asn1OctetStringGet := asn1OctetStringGet_bytes mem
  have hsigner := enter_bytes (taggedGet_bytes mem kMaskTag kTagSet)
    (enter_bytes (taggedGet_bytes mem kMaskTag kTagSequence)
      (hnext (hnext (hnext (hnext hlast)))))
  have hskip := require_bytes (asn1ConstructedSkipAll_bytes mem) hsigner
  exact enter_bytes (taggedGet_bytes mem kMaskTag kTagSequence)
    (hnext (enter_bytes (taggedGet_bytes mem kMaskConstructed kTagConstructed)
      (enter_bytes (taggedGet_bytes mem kMaskTag kTagSequence)
        (hnext (hnext (hnext hskip))))))

variable (mem) in
theorem bytes_partOf {v w : ByteView} (h : v.PartOf w) : bytes mem v <:+: bytes mem w := by
  have hstart := h.1
  have hstop := h.2
  simp only [ByteView.stop] at hstop
  have hslice : bytes mem v = ((bytes mem w).drop (v.start - w.start)).take v.length := by
    rw [bytes, bytes, window_drop, window_take, Nat.add_sub_cancel' hstart,
      Nat.min_eq_left (by omega)]
  rw [hslice]
  exact (List.take_prefix _ _).isInfix.trans (List.drop_suffix _ _).isInfix

end bytes

section contained
variable (mem : ℕ → UInt8) (sizeofSize : ℕ)

/-- Whatever is called on the contexts of an input: reads stay in the windows and windows in their
parents' windows, a long length is the number its octets say, the loop ends, and the signature is
a part of the input. -/
theorem asn1_contained (input : ByteView) :
    (∀ calls, (run mem sizeofSize input calls).Nested input) ∧
      (∀ v n, n < sizeofSize → TwrpInstall.decodeOctets n 0 (bytes mem v) =
        (decodeOctets mem sizeofSize n 0 v).1.map fun total =>
          (total, bytes mem (decodeOctets mem sizeofSize n 0 v).2.1)) ∧
      (∀ v, skipPasses mem sizeofSize (v.length + 1) v =
        some (asn1ConstructedSkipAll mem sizeofSize v)) ∧
      (∀ read ∈ (readPkcs7 mem sizeofSize input).2,
        read.view.PartOf input ∧ read.view.Has read.address) ∧
      (∀ sigDer, (readPkcs7 mem sizeofSize input).1 = some sigDer →
        sigDer.PartOf input ∧ bytes mem sigDer <:+: bytes mem input) ∧
      TwrpInstall.readPkcs7 (bytes mem input) = (readPkcs7 mem 8 input).1.map (bytes mem) := by
  have hinside := readPkcs7_inside mem sizeofSize input
  refine ⟨run_nested input, fun v n hn => ?_, fun v => ?_, hinside.reads, fun sigDer h => ?_,
    readPkcs7_bytes mem input⟩
  · exact decodeOctets_bytes mem sizeofSize n 0 0 (by decide) (by omega) v
  · exact skipPasses_eq mem sizeofSize (Nat.lt_succ_self _)
  · have hpart := hinside.slice sigDer h
    exact ⟨hpart, bytes_partOf mem hpart⟩

end contained

end BootableRecovery.TwrpInstall.Asn1
