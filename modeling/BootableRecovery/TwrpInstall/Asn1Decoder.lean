import BootableRecovery.Lib.Blocks
import BootableRecovery.Otautil.BlockMap

namespace BootableRecovery.TwrpInstall
open Otautil

/-! `asn1_context`: the bytes that are left of a DER value. A getter returns the context of the
value it found, and nothing where the source returns a null pointer or false. -/

abbrev Asn1Context := Bytes

def kMaskConstructed : UInt8 := 0xe0

def kMaskTag : UInt8 := 0x7f

def kTagOctetString : UInt8 := 0x04

def kTagSequence : UInt8 := 0x30

def kTagSet : UInt8 := 0x31

def kTagConstructed : UInt8 := 0xa0

def skipBytes (ctx : Asn1Context) (numSkip : ℕ) : Option Asn1Context :=
  if ctx.length < numSkip then none else some (ctx.drop numSkip)

def decodeOctets : (numOctets length : ℕ) → Asn1Context → Option (ℕ × Asn1Context)
  | 0, length, ctx => some (length, ctx)
  | _ + 1, _, [] => none
  | n + 1, length, byte :: ctx => decodeOctets n (length * 256 + byte.toNat) ctx

/-- The long form has fewer octets than a `size_t`, so the length does not wrap. -/
def decodeLength : Asn1Context → Option (ℕ × Asn1Context)
  | [] => none
  | byte :: ctx =>
    if byte &&& 0x80 = 0 then some (byte.toNat, ctx)
    else if (byte &&& kMaskTag).toNat ≥ 8 then none
    else decodeOctets (byte &&& kMaskTag).toNat 0 ctx

theorem decodeOctets_length {n acc len : ℕ} {ctx rest : Asn1Context}
    (h : decodeOctets n acc ctx = some (len, rest)) : rest.length ≤ ctx.length := by
  induction n generalizing acc ctx with
  | zero =>
    simp only [decodeOctets, Option.some.injEq, Prod.mk.injEq] at h
    rw [h.2]
  | succ n ih =>
    cases ctx with
    | nil => cases h
    | cons byte ctx => exact (ih h).trans (Nat.le_succ _)

theorem decodeLength_length {len : ℕ} {ctx rest : Asn1Context}
    (h : decodeLength ctx = some (len, rest)) : rest.length < ctx.length := by
  cases ctx with
  | nil => cases h
  | cons byte ctx =>
    simp only [decodeLength] at h
    split_ifs at h
    · cases h
      exact Nat.lt_succ_self _
    · exact Nat.lt_succ_of_le (decodeOctets_length h)

/-- A value whose tag is `tag` under `mask`: `asn1_constructed_get`, `asn1_sequence_get` and
`asn1_set_get`. -/
def taggedGet (mask tag : UInt8) : Asn1Context → Option Asn1Context
  | [] => none
  | byte :: ctx =>
    if byte &&& mask ≠ tag then none
    else
      match decodeLength ctx with
      | none => none
      | some (length, ctx) => if length > ctx.length then none else some (ctx.take length)

def asn1ConstructedGet : Asn1Context → Option Asn1Context :=
  taggedGet kMaskConstructed kTagConstructed

def asn1SequenceGet : Asn1Context → Option Asn1Context := taggedGet kMaskTag kTagSequence

def asn1SetGet : Asn1Context → Option Asn1Context := taggedGet kMaskTag kTagSet

/-- Skips one value of any type. -/
def asn1SequenceNext : Asn1Context → Option Asn1Context
  | [] => none
  | _ :: ctx =>
    match decodeLength ctx with
    | none => none
    | some (length, ctx) => skipBytes ctx length

theorem asn1SequenceNext_length {ctx rest : Asn1Context} (h : asn1SequenceNext ctx = some rest) :
    rest.length < ctx.length := by
  cases ctx with
  | nil => cases h
  | cons byte ctx =>
    simp only [asn1SequenceNext] at h
    split at h
    · cases h
    · next length ctx' hd =>
      have := decodeLength_length hd
      unfold skipBytes at h
      split_ifs at h
      cases h
      simp only [List.length_drop, List.length_cons]
      omega

/-- Something must be left when the constructed values are skipped. -/
def asn1ConstructedSkipAll : Asn1Context → Option Asn1Context
  | [] => none
  | byte :: ctx =>
    if byte &&& kMaskConstructed = kTagConstructed then
      match h : asn1SequenceNext (byte :: ctx) with
      | none => none
      | some rest =>
        have := asn1SequenceNext_length h
        asn1ConstructedSkipAll rest
    else some (byte :: ctx)
termination_by ctx => ctx.length
decreasing_by exact this

def asn1OctetStringGet : Asn1Context → Option Bytes
  | [] => none
  | byte :: ctx =>
    if byte ≠ kTagOctetString then none
    else
      match decodeLength ctx with
      | none => none
      | some (length, ctx) =>
        if length = 0 ∨ length > ctx.length then none else some (ctx.take length)

/-- The signature octet string of a PKCS#7 SignedData. -/
def readPkcs7 (pkcs7Der : Bytes) : Option Bytes := do
  let pkcs7Seq ← asn1SequenceGet pkcs7Der
  let pkcs7Seq ← asn1SequenceNext pkcs7Seq
  let signedDataApp ← asn1ConstructedGet pkcs7Seq
  let signedDataSeq ← asn1SequenceGet signedDataApp
  let signedDataSeq ← asn1SequenceNext signedDataSeq
  let signedDataSeq ← asn1SequenceNext signedDataSeq
  let signedDataSeq ← asn1SequenceNext signedDataSeq
  let signedDataSeq ← asn1ConstructedSkipAll signedDataSeq
  let sigSet ← asn1SetGet signedDataSeq
  let sigSeq ← asn1SequenceGet sigSet
  let sigSeq ← asn1SequenceNext sigSeq
  let sigSeq ← asn1SequenceNext sigSeq
  let sigSeq ← asn1SequenceNext sigSeq
  let sigSeq ← asn1SequenceNext sigSeq
  asn1OctetStringGet sigSeq

end BootableRecovery.TwrpInstall
