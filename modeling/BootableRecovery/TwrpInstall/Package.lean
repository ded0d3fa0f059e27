import BootableRecovery.Lib.Blocks
import BootableRecovery.Otautil.BlockMap

namespace BootableRecovery.TwrpInstall
open Lib Otautil

inductive HashKind
  | sha1
  | sha256
  deriving DecidableEq, Repr

/-- What each hash context was fed, update by update. -/
structure HashContexts where
  sha1 : List Bytes
  sha256 : List Bytes

namespace HashContexts

def init : HashContexts := ⟨[], []⟩

def fed (ctx : HashContexts) : HashKind → Bytes
  | .sha1 => ctx.sha1.flatten
  | .sha256 => ctx.sha256.flatten

def update (ctx : HashContexts) (data : Bytes) : HashKind → HashContexts
  | .sha1 => { ctx with sha1 := ctx.sha1 ++ [data] }
  | .sha256 => { ctx with sha256 := ctx.sha256 ++ [data] }

def updateAll (ctx : HashContexts) (hashers : List HashKind) (data : Bytes) : HashContexts :=
  hashers.foldl (fun ctx k => ctx.update data k) ctx

@[simp] theorem fed_init (k : HashKind) : init.fed k = [] := by cases k <;> rfl

theorem fed_update (ctx : HashContexts) (data : Bytes) (k j : HashKind) :
    (ctx.update data k).fed j = if k = j then ctx.fed j ++ data else ctx.fed j := by
  cases k <;> cases j <;> simp [fed, update]

/-- Each hasher on the list takes the data once. -/
theorem fed_updateAll (ctx : HashContexts) {hashers : List HashKind} (hnd : hashers.Nodup)
    (data : Bytes) (k : HashKind) :
    (ctx.updateAll hashers data).fed k = if k ∈ hashers then ctx.fed k ++ data else ctx.fed k := by
  induction hashers generalizing ctx with
  | nil => rfl
  | cons j hashers ih =>
    obtain ⟨hj, hnd⟩ := List.nodup_cons.mp hnd
    have hstep := ih (ctx.update data j) hnd
    rw [updateAll] at hstep ⊢
    rw [List.foldl_cons, hstep, fed_update]
    by_cases he : j = k
    · subst he
      simp [hj]
    · have hne : k ≠ j := fun h => he h.symm
      simp [he, hne]

end HashContexts

def miB : ℕ := 2 ^ 20

/-- A package in memory or in a file; the two hash a piece of it in different ways. -/
structure Package where
  content : Bytes
  inMemory : Bool

namespace Package
variable (p : Package)

def packageSize : ℕ := p.content.length

def slice (offset byteCount : ℕ) : Bytes := (p.content.drop offset).take byteCount

def readFullyAtOffset (byteCount offset : ℕ) : Option Bytes :=
  if byteCount > p.packageSize ∨ offset > p.packageSize - byteCount then none
  else some (p.slice offset byteCount)

/-- The loop of `FilePackage::UpdateHashAtOffset`. -/
def updateHashLoop (hashers : List HashKind) (start length soFar : ℕ) (ctx : HashContexts) :
    HashContexts :=
  if hlt : soFar < length then
    let readSize := min (length - soFar) (16 * miB)
    match p.readFullyAtOffset readSize (start + soFar) with
    | none => ctx
    | some buffer =>
      have : length - (soFar + readSize) < length - soFar := by
        simp only [readSize, miB]
        omega
      updateHashLoop hashers start length (soFar + readSize) (ctx.updateAll hashers buffer)
  else ctx
termination_by length - soFar

/-- The callers of `UpdateHashAtOffset` do not look at its result. -/
def updateHashAtOffset (hashers : List HashKind) (start length : ℕ) (ctx : HashContexts) :
    HashContexts :=
  if length > p.packageSize ∨ start > p.packageSize - length then ctx
  else if p.inMemory then ctx.updateAll hashers (p.slice start length)
  else p.updateHashLoop hashers start length 0 ctx

theorem slice_append {offset m n : ℕ} (h : offset + m + n ≤ p.packageSize) :
    p.slice offset m ++ p.slice (offset + m) n = p.slice offset (m + n) := by
  unfold packageSize at h
  unfold slice
  rw [take_drop_eq_window _ 0 _ _ (by omega), take_drop_eq_window _ 0 _ _ (by omega),
    take_drop_eq_window _ 0 _ _ (by omega), window_append]

variable {p} {hashers : List HashKind} {start length : ℕ}

/-- The chunks of a file are read to its end, each once. -/
theorem updateHashLoop_fed (hnd : hashers.Nodup) (hin : start + length ≤ p.packageSize)
    {soFar : ℕ} (hle : soFar ≤ length) (ctx : HashContexts) (k : HashKind) :
    (p.updateHashLoop hashers start length soFar ctx).fed k =
      if k ∈ hashers then ctx.fed k ++ p.slice (start + soFar) (length - soFar)
      else ctx.fed k := by
  induction hrem : length - soFar using Nat.strong_induction_on generalizing soFar ctx with
  | _ rem ih =>
    rw [updateHashLoop]
    split_ifs with hlt hk hk
    · -- a chunk is left
      have hread : p.readFullyAtOffset (min (length - soFar) (16 * miB)) (start + soFar) =
          some (p.slice (start + soFar) (min (length - soFar) (16 * miB))) := by
        rw [readFullyAtOffset, if_neg (by omega)]
      have hpos : 0 < miB := by decide
      simp only [hread]
      rw [ih _ (by omega) (by omega) _ rfl, if_pos hk, HashContexts.fed_updateAll _ hnd, if_pos hk,
        List.append_assoc, ← Nat.add_assoc, slice_append _ (by omega)]
      congr 2
      omega
    · have hread : p.readFullyAtOffset (min (length - soFar) (16 * miB)) (start + soFar) =
          some (p.slice (start + soFar) (min (length - soFar) (16 * miB))) := by
        rw [readFullyAtOffset, if_neg (by omega)]
      have hpos : 0 < miB := by decide
      simp only [hread]
      rw [ih _ (by omega) (by omega) _ rfl, if_neg hk, HashContexts.fed_updateAll _ hnd, if_neg hk]
    · have hz : rem = 0 := by omega
      rw [hz]
      simp [slice]
    · rfl

/-- Both kinds of package feed a piece of their content. -/
theorem updateHashAtOffset_fed (hnd : hashers.Nodup) (hin : start + length ≤ p.packageSize)
    (ctx : HashContexts) (k : HashKind) :
    (p.updateHashAtOffset hashers start length ctx).fed k =
      if k ∈ hashers then ctx.fed k ++ p.slice start length else ctx.fed k := by
  unfold updateHashAtOffset
  rw [if_neg (by omega)]
  split_ifs with hm hk hk
  · rw [HashContexts.fed_updateAll _ hnd, if_pos hk]
  · rw [HashContexts.fed_updateAll _ hnd, if_neg hk]
  · rw [updateHashLoop_fed hnd hin (Nat.zero_le _), if_pos hk, Nat.add_zero, Nat.sub_zero]
  · rw [updateHashLoop_fed hnd hin (Nat.zero_le _), if_neg hk]

end Package
end BootableRecovery.TwrpInstall
