import BootableRecovery.TwrpInstall.Asn1Decoder
import BootableRecovery.TwrpInstall.Package

namespace BootableRecovery.TwrpInstall
open Lib Otautil

inductive KeyType
  | rsa
  | ec
  deriving DecidableEq, Repr

/-- `hash_len` is the length of the digest the key signs. -/
structure Certificate (K : Type) where
  hashLen : ℤ
  keyType : KeyType
  key : K

/-- The cryptographic library. A verification succeeds when its result is not zero. -/
structure Crypto (K : Type) where
  sha1 : Bytes → Bytes
  sha256 : Bytes → Bytes
  rsaVerify : HashKind → Bytes → Bytes → K → Bool
  ecdsaVerify : Bytes → Bytes → K → Bool

inductive VerifyStatus
  | success
  | failure
  deriving DecidableEq, Repr

def sha1DigestLength : ℤ := 20

def sha256DigestLength : ℤ := 32

def footerSize : ℕ := 6

def eocdHeaderSize : ℕ := 22

def eocdMagic : Bytes := [0x50, 0x4b, 0x05, 0x06]

def magicAt (b : Bytes) (i : ℕ) : Bool := (b.drop i).take 4 = eocdMagic

def word16 (low high : UInt8) : ℕ := low.toNat + high.toNat * 256

variable {K : Type} (c : Crypto K) (p : Package)

/-- The checks of the footer and of the end-of-central-directory record: how far from the end
the signature starts, the comment size and the record. -/
def readEocd : Option (ℕ × ℕ × Bytes) :=
  if p.packageSize < footerSize then none
  else
    match p.readFullyAtOffset footerSize (p.packageSize - footerSize) with
    | some [f0, f1, f2, f3, f4, f5] =>
      if f2 ≠ 0xff ∨ f3 ≠ 0xff then none
      else
        let commentSize := word16 f4 f5
        let signatureStart := word16 f0 f1
        if signatureStart > commentSize then none
        else if signatureStart ≤ footerSize then none
        else
          let eocdSize := commentSize + eocdHeaderSize
          if p.packageSize < eocdSize then none
          else
            match p.readFullyAtOffset eocdSize (p.packageSize - eocdSize) with
            | none => none
            | some eocd =>
              if magicAt eocd 0 = false then none
              -- a later marker is the one libziparchive would find
              else if (List.range' 4 (eocdSize - 3 - 4)).any (magicAt eocd) then none
              else some (signatureStart, commentSize, eocd)
    | _ => none

def neededHashers (keys : List (Certificate K)) : List HashKind :=
  (if keys.any fun key => key.hashLen = sha1DigestLength then [HashKind.sha1] else []) ++
    (if keys.any fun key => key.hashLen = sha256DigestLength then [HashKind.sha256] else [])

theorem readSize_decreases {signedLen soFar : ℕ} (h : soFar < signedLen) :
    signedLen - (soFar + min (signedLen - soFar) (16 * miB)) < signedLen - soFar := by
  simp only [miB]
  omega

def hashLoop (hashers : List HashKind) (signedLen soFar : ℕ) (ctx : HashContexts) : HashContexts :=
  if hlt : soFar < signedLen then
    let readSize := min (signedLen - soFar) (16 * miB)
    have : signedLen - (soFar + readSize) < signedLen - soFar := readSize_decreases hlt
    hashLoop hashers signedLen (soFar + readSize)
      (p.updateHashAtOffset hashers soFar readSize ctx)
  else ctx
termination_by signedLen - soFar

/-- One pass of the loop over the keys. -/
def tryKey (ctx : HashContexts) (sigDer : Bytes) (key : Certificate K) : Bool :=
  if key.hashLen = sha1DigestLength then
    match key.keyType with
    | .rsa => c.rsaVerify .sha1 (c.sha1 (ctx.fed .sha1)) sigDer key.key
    | .ec => false
  else if key.hashLen = sha256DigestLength then
    match key.keyType with
    | .rsa => c.rsaVerify .sha256 (c.sha256 (ctx.fed .sha256)) sigDer key.key
    | .ec => c.ecdsaVerify (c.sha256 (ctx.fed .sha256)) sigDer key.key
  else false

/-- The status, and what the hash contexts were fed. -/
def verifyFile (keys : List (Certificate K)) : VerifyStatus × HashContexts :=
  match readEocd p with
  | none => (.failure, .init)
  | some (signatureStart, commentSize, eocd) =>
    let eocdSize := commentSize + eocdHeaderSize
    let signedLen := p.packageSize - eocdSize + eocdHeaderSize - 2
    let ctx := hashLoop p (neededHashers keys) signedLen 0 .init
    let signature := (eocd.drop (eocdSize - signatureStart)).take (signatureStart - footerSize)
    match readPkcs7 signature with
    | none => (.failure, ctx)
    | some sigDer => (if keys.any (tryKey c ctx sigDer) then .success else .failure, ctx)

/-- The package ends in the comment of a whole-file signature. -/
structure Signed (b : Bytes) (signatureStart commentSize : ℕ) : Prop where
  footer : ∃ f0 f1 f4 f5, b.drop (b.length - 6) = [f0, f1, 0xff, 0xff, f4, f5] ∧
    signatureStart = word16 f0 f1 ∧ commentSize = word16 f4 f5
  lt_start : 6 < signatureStart
  start_le : signatureStart ≤ commentSize
  fits : commentSize + 22 ≤ b.length
  magic : magicAt b (b.length - (commentSize + 22)) = true
  last : ∀ i, b.length - (commentSize + 22) < i → magicAt b i = false

/-- What the signature is about: all but the comment and its length field. -/
def signedBytes (b : Bytes) (commentSize : ℕ) : Bytes := b.take (b.length - commentSize - 2)

/-- The PKCS#7 block in the comment, in front of the footer. -/
def signatureBlock (b : Bytes) (signatureStart : ℕ) : Bytes :=
  (b.drop (b.length - signatureStart)).take (signatureStart - 6)

def KeyVerifies (c : Crypto K) (key : Certificate K) (b sigDer : Bytes) : Prop :=
  (key.hashLen = 20 ∧ key.keyType = .rsa ∧ c.rsaVerify .sha1 (c.sha1 b) sigDer key.key = true) ∨
  (key.hashLen = 32 ∧ key.keyType = .rsa ∧
    c.rsaVerify .sha256 (c.sha256 b) sigDer key.key = true) ∨
  (key.hashLen = 32 ∧ key.keyType = .ec ∧ c.ecdsaVerify (c.sha256 b) sigDer key.key = true)

variable {c} {p}

theorem neededHashers_nodup (keys : List (Certificate K)) : (neededHashers keys).Nodup := by
  unfold neededHashers
  split_ifs <;> decide

theorem mem_neededHashers {keys : List (Certificate K)} {key : Certificate K} (hk : key ∈ keys) :
    (key.hashLen = sha1DigestLength → HashKind.sha1 ∈ neededHashers keys) ∧
      (key.hashLen = sha256DigestLength → HashKind.sha256 ∈ neededHashers keys) := by
  unfold neededHashers
  constructor <;> intro hlen
  · rw [if_pos (List.any_eq_true.mpr ⟨key, hk, by simpa using hlen⟩)]
    simp
  · rw [if_pos (c := keys.any (fun key => key.hashLen = sha256DigestLength) = true)
      (List.any_eq_true.mpr ⟨key, hk, by simpa using hlen⟩)]
    simp

theorem hashLoop_fed {hashers : List HashKind} (hnd : hashers.Nodup) {signedLen : ℕ}
    (hin : signedLen ≤ p.packageSize) {soFar : ℕ} (hle : soFar ≤ signedLen) (ctx : HashContexts)
    (k : HashKind) :
    (hashLoop p hashers signedLen soFar ctx).fed k =
      if k ∈ hashers then ctx.fed k ++ p.slice soFar (signedLen - soFar) else ctx.fed k := by
  induction hrem : signedLen - soFar using Nat.strong_induction_on generalizing soFar ctx with
  | _ rem ih =>
    rw [hashLoop]
    have hpos : 0 < miB := by decide
    by_cases hlt : soFar < signedLen
    · rw [dif_pos hlt]
      simp only
      rw [ih _ (by omega) (by omega) _ rfl, Package.updateHashAtOffset_fed hnd (by omega)]
      split_ifs with hk
      · rw [List.append_assoc, Package.slice_append _ (by omega)]
        congr 2
        omega
      · rfl
    · rw [dif_neg hlt]
      have hz : rem = 0 := by omega
      rw [hz]
      simp [Package.slice]

/-- A marker found in the record is a marker of the package, and the other way round. -/
theorem magicAt_drop (b : Bytes) (n i : ℕ) : magicAt (b.drop n) i = magicAt b (n + i) := by
  simp only [magicAt, List.drop_drop]

theorem magicAt_iff {b : Bytes} {n : ℕ} :
    magicAt b n = true ↔ b[n]? = some 0x50 ∧ b[n + 1]? = some 0x4b ∧ b[n + 2]? = some 0x05 ∧
      b[n + 3]? = some 0x06 := by
  have h0 : b[n]? = (b.drop n)[0]? := by rw [List.getElem?_drop, Nat.add_zero]
  rw [h0, ← List.getElem?_drop, ← List.getElem?_drop, ← List.getElem?_drop, magicAt,
    decide_eq_true_eq]
  rcases b.drop n with _ | ⟨x0, _ | ⟨x1, _ | ⟨x2, _ | ⟨x3, l⟩⟩⟩⟩ <;> simp [eocdMagic]

/-- Markers do not overlap. -/
theorem magicAt_near {b : Bytes} {n i : ℕ} (h : magicAt b n = true) (hi : 0 < i) (hi' : i < 4) :
    magicAt b (n + i) = false := by
  rw [magicAt_iff] at h
  obtain ⟨-, h1, h2, h3⟩ := h
  rw [← Bool.not_eq_true, magicAt_iff]
  rintro ⟨h0, -⟩
  obtain rfl | rfl | rfl : i = 1 ∨ i = 2 ∨ i = 3 := by omega
  · rw [h1] at h0
    exact absurd h0 (by decide)
  · rw [h2] at h0
    exact absurd h0 (by decide)
  · rw [h3] at h0
    exact absurd h0 (by decide)

theorem magicAt_end {b : Bytes} {i : ℕ} (h : b.length < i + 4) : magicAt b i = false := by
  rw [magicAt, decide_eq_false_iff_not]
  intro he
  have := congrArg List.length he
  simp only [List.length_take, List.length_drop, eocdMagic, List.length_cons, List.length_nil]
    at this
  omega

theorem readFullyAtOffset_end {n : ℕ} (h : n ≤ p.packageSize) :
    p.readFullyAtOffset n (p.packageSize - n) = some (p.content.drop (p.content.length - n)) := by
  rw [Package.readFullyAtOffset, if_neg (by omega), Package.slice, List.take_of_length_le]
  · rfl
  · simp only [List.length_drop, Package.packageSize] at h ⊢
    omega

/-- The search of the record for a second marker finds any later one. -/
theorem no_later_marker {b : Bytes} {n : ℕ} (hn : 22 ≤ n) (hle : n ≤ b.length)
    (hm : magicAt b (b.length - n) = true) :
    (List.range' 4 (n - 3 - 4)).any (magicAt (b.drop (b.length - n))) = false ↔
      ∀ i, b.length - n < i → magicAt b i = false := by
  constructor
  · intro h i hi
    rcases lt_or_ge (i - (b.length - n)) 4 with hnear | hfar
    · have := magicAt_near hm (i := i - (b.length - n)) (by omega) hnear
      rwa [show b.length - n + (i - (b.length - n)) = i by omega] at this
    · rcases lt_or_ge b.length (i + 4) with hend | hin
      · exact magicAt_end hend
      · rw [List.any_eq_false] at h
        have := h (i - (b.length - n)) (List.mem_range'_1.mpr ⟨hfar, by omega⟩)
        rw [magicAt_drop, show b.length - n + (i - (b.length - n)) = i by omega] at this
        simpa using this
  · intro h
    rw [List.any_eq_false]
    intro i hi
    have hi := List.mem_range'_1.mp hi
    rw [magicAt_drop, h _ (by omega)]
    decide

/-- What the checks let through. -/
theorem readEocd_eq_some {s n : ℕ} {eocd : Bytes} :
    readEocd p = some (s, n, eocd) ↔
      Signed p.content s n ∧ eocd = p.content.drop (p.content.length - (n + 22)) := by
  have hsize : p.packageSize = p.content.length := rfl
  constructor
  · intro h
    unfold readEocd at h
    split_ifs at h with hfoot
    rw [footerSize] at hfoot
    rw [footerSize, readFullyAtOffset_end (by omega)] at h
    split at h
    · next f0 f1 f2 f3 f4 f5 hf =>
      have hf := Option.some.inj hf
      split_ifs at h with hff
      dsimp only at h
      split_ifs at h with hle hlt hfits
      rw [eocdHeaderSize, not_lt] at hfits
      simp only [not_or, not_not] at hff
      rw [eocdHeaderSize, readFullyAtOffset_end hfits] at h
      simp only at h
      split_ifs at h with hmagic hlater
      simp only [Option.some.injEq, Prod.mk.injEq] at h
      obtain ⟨rfl, rfl, rfl⟩ := h
      rw [Bool.not_eq_false, magicAt_drop, Nat.add_zero] at hmagic
      rw [Bool.not_eq_true, no_later_marker (by omega) (by omega) hmagic] at hlater
      refine ⟨⟨⟨f0, f1, f4, f5, ?_, rfl, rfl⟩, by omega, by omega, by omega, hmagic, hlater⟩, rfl⟩
      rw [hf, hff.1, hff.2]
    · cases h
  · rintro ⟨⟨⟨f0, f1, f4, f5, hf, rfl, rfl⟩, hlt, hle, hfits, hmagic, hlater⟩, rfl⟩
    have hm : magicAt (p.content.drop (p.content.length - (word16 f4 f5 + 22))) 0 = true := by
      rw [magicAt_drop, Nat.add_zero, hmagic]
    rw [← no_later_marker (by omega) (by omega) hmagic] at hlater
    unfold readEocd
    rw [if_neg (by rw [footerSize]; omega), footerSize, readFullyAtOffset_end (by omega), hf]
    simp only [ne_eq, not_true_eq_false, or_self, if_false]
    rw [if_neg (by omega), if_neg (by omega), eocdHeaderSize, if_neg (by omega),
      readFullyAtOffset_end (by omega)]
    simp only [hm, hlater, Bool.true_eq_false, Bool.false_eq_true, if_false]

/-- The signed bytes end before the signature block does, and the block before the footer. -/
theorem Signed.disjoint {b : Bytes} {s n : ℕ} (h : Signed b s n) :
    b.length - n - 2 ≤ b.length - s ∧ b.length - s + (s - 6) = b.length - 6 := by
  have := h.lt_start
  have := h.start_le
  have := h.fits
  omega

theorem signedLen_eq {b : Bytes} {s n : ℕ} (h : Signed b s n) :
    b.length - (n + 22) + 22 - 2 = b.length - n - 2 := by
  have := h.fits
  omega

theorem signature_eq {b : Bytes} {s n : ℕ} (h : Signed b s n) :
    ((b.drop (b.length - (n + 22))).drop (n + 22 - s)).take (s - 6) = signatureBlock b s := by
  have := h.start_le
  have := h.fits
  rw [signatureBlock, List.drop_drop]
  congr 2
  omega

section Hashed
variable {keys : List (Certificate K)} {ctx : HashContexts} {b sigDer : Bytes}

/-- With every needed hasher fed the signed bytes, a pass of the loop verifies those bytes. -/
theorem tryKey_iff {key : Certificate K} (hk : key ∈ keys)
    (hfed : ∀ k ∈ neededHashers keys, ctx.fed k = b) :
    tryKey c ctx sigDer key = true ↔ KeyVerifies c key b sigDer := by
  obtain ⟨h1, h256⟩ := mem_neededHashers hk
  unfold tryKey KeyVerifies
  by_cases hl1 : key.hashLen = sha1DigestLength
  · rw [if_pos hl1, hfed _ (h1 hl1)]
    rw [sha1DigestLength] at hl1
    cases hkt : key.keyType <;> simp [hl1]
  · rw [if_neg hl1]
    by_cases hl256 : key.hashLen = sha256DigestLength
    · rw [if_pos hl256, hfed _ (h256 hl256)]
      rw [sha256DigestLength] at hl256
      cases hkt : key.keyType <;> simp [hl256]
    · rw [if_neg hl256]
      rw [sha1DigestLength] at hl1
      rw [sha256DigestLength] at hl256
      simp [hl1, hl256]

end Hashed

/-- The whole-file check: when it succeeds, and what it hashes on the way. -/
theorem verifyFile_spec (c : Crypto K) (p : Package) (keys : List (Certificate K)) :
    ((verifyFile c p keys).1 = .success ↔
      ∃ signatureStart commentSize sigDer, Signed p.content signatureStart commentSize ∧
        readPkcs7 (signatureBlock p.content signatureStart) = some sigDer ∧
        ∃ key ∈ keys, KeyVerifies c key (signedBytes p.content commentSize) sigDer) ∧
    (∀ signatureStart commentSize, Signed p.content signatureStart commentSize →
      (∀ k, (verifyFile c p keys).2.fed k =
        if k ∈ neededHashers keys then signedBytes p.content commentSize else []) ∧
      (signedBytes p.content commentSize).length ≤ p.content.length - signatureStart ∧
      p.content.length - signatureStart + (signatureBlock p.content signatureStart).length =
        p.content.length - 6) ∧
    ((¬∃ signatureStart commentSize, Signed p.content signatureStart commentSize) →
      ∀ k, (verifyFile c p keys).2.fed k = []) := by
  have hsize : p.packageSize = p.content.length := rfl
  -- the state after hashing, where the checks passed
  have hpass : ∀ s n, Signed p.content s n →
      readEocd p = some (s, n, p.content.drop (p.content.length - (n + 22))) ∧
      ∀ k, (hashLoop p (neededHashers keys) (p.content.length - n - 2) 0 .init).fed k =
        if k ∈ neededHashers keys then signedBytes p.content n else [] := by
    intro s n h
    refine ⟨readEocd_eq_some.mpr ⟨h, rfl⟩, fun k => ?_⟩
    rw [hashLoop_fed (neededHashers_nodup keys) (by omega) (Nat.zero_le _),
      HashContexts.fed_init, List.nil_append, Package.slice, List.drop_zero, Nat.sub_zero]
    rfl
  refine ⟨?_, ?_, ?_⟩
  · constructor
    · intro hsuccess
      unfold verifyFile at hsuccess
      split at hsuccess
      · cases hsuccess
      · next s n eocd he =>
        obtain ⟨h, rfl⟩ := readEocd_eq_some.mp he
        obtain ⟨-, hfed⟩ := hpass s n h
        simp only [eocdHeaderSize, footerSize, hsize, signedLen_eq h, signature_eq h] at hsuccess
        split at hsuccess
        · cases hsuccess
        · next sigDer hsig =>
          refine ⟨s, n, sigDer, h, hsig, ?_⟩
          simp only [ite_eq_left_iff, reduceCtorEq, imp_false, not_not, List.any_eq_true]
            at hsuccess
          obtain ⟨key, hk, htry⟩ := hsuccess
          exact ⟨key, hk, (tryKey_iff hk fun k hmem => by rw [hfed, if_pos hmem]).mp htry⟩
    · rintro ⟨s, n, sigDer, h, hsig, key, hk, hver⟩
      obtain ⟨he, hfed⟩ := hpass s n h
      have htry := (tryKey_iff hk fun k hmem => by rw [hfed, if_pos hmem]).mpr hver
      unfold verifyFile
      simp only [he, eocdHeaderSize, footerSize, hsize, signedLen_eq h, signature_eq h, hsig]
      exact if_pos (List.any_eq_true.mpr ⟨key, hk, htry⟩)
  · intro s n h
    obtain ⟨he, hfed⟩ := hpass s n h
    have hd := h.disjoint
    have hle := h.start_le
    have hfits := h.fits
    have hlt := h.lt_start
    refine ⟨fun k => ?_, ?_, ?_⟩
    · unfold verifyFile
      simp only [he, eocdHeaderSize, footerSize, hsize, signedLen_eq h, signature_eq h]
      split <;> exact hfed k
    · rw [signedBytes, List.length_take]
      omega
    · rw [signatureBlock, List.length_take, List.length_drop]
      omega
  · intro hno k
    unfold verifyFile
    split
    · exact HashContexts.fed_init k
    · next s n eocd he => exact absurd ⟨s, n, (readEocd_eq_some.mp he).1⟩ hno

end BootableRecovery.TwrpInstall
