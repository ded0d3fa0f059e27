import BootableRecovery.Lib.Text

namespace BootableRecovery.Twrp
open Lib

/-! Files by their full path, and the path functions of `TWFunc`. -/

/-- `α` is what a file holds. -/
abbrev FileSystem (α : Type) := Text → Option α

section FileSystem
variable {α : Type}

def FileSystem.write (fs : FileSystem α) (path : Text) (content : α) : FileSystem α :=
  fun p => if p = path then some content else fs p

def pathExists (fs : FileSystem α) (path : Text) : Bool := (fs path).isSome

variable (fs : FileSystem α) (path p : Text) (content : α)

@[simp] theorem FileSystem.write_self : fs.write path content path = some content := if_pos rfl

theorem FileSystem.write_of_ne (h : p ≠ path) : fs.write path content p = fs p := if_neg h

@[simp] theorem pathExists_write_self : pathExists (fs.write path content) path = true := by
  simp [pathExists]

theorem pathExists_write_of_ne (h : p ≠ path) :
    pathExists (fs.write path content) p = pathExists fs p := by
  rw [pathExists, fs.write_of_ne _ _ _ h, pathExists]

theorem pathExists_write (h : pathExists fs p = true) :
    pathExists (fs.write path content) p = true := by
  by_cases hp : p = path
  · rw [hp, pathExists_write_self]
  · rw [pathExists_write_of_ne _ _ _ _ hp, h]

theorem pathExists_eq_true : pathExists fs path = true ↔ ∃ content, fs path = some content :=
  Option.isSome_iff_exists

end FileSystem

/-- `Get_Filename`: what follows the last slash. -/
def getFilename (path : Text) : Text := (path.reverse.takeWhile fun c => c != '/').reverse

/-- The archives of a split backup: base name, thread id, two-digit index. Backup names hold no
`%`, so the base name passes through `sprintf` unchanged. -/
def archiveName (base : Text) (threadId index : ℕ) : Text :=
  base ++ (decimal threadId ++ padded 2 index)

/-- The names the digest driver counts through. -/
def splitFilename (base : Text) (index : ℕ) : Text := base ++ padded 3 index

theorem splitFilename_eq_archiveName (base : Text) {t i : ℕ} (ht : t < 10) (hi : i < 100) :
    splitFilename base (100 * t + i) = archiveName base t i := by
  rw [archiveName, decimal_append_padded ht hi, splitFilename]

theorem splitFilename_injective (base : Text) : Function.Injective (splitFilename base) :=
  fun _ _ h => padded_injective 3 (List.append_cancel_left h)

theorem archiveName_inj (base : Text) {t i t' i' : ℕ} (ht : t < 10) (hi : i < 100) (ht' : t' < 10)
    (hi' : i' < 100) : archiveName base t i = archiveName base t' i' ↔ t = t' ∧ i = i' := by
  rw [← splitFilename_eq_archiveName base ht hi, ← splitFilename_eq_archiveName base ht' hi',
    (splitFilename_injective base).eq_iff]
  omega

theorem archiveName_ne_base (base : Text) (t i : ℕ) : archiveName base t i ≠ base := by
  intro h
  have hlen := congrArg List.length h
  have hpos := List.length_pos_iff.mpr (decimal_ne_nil t)
  simp only [archiveName, List.length_append] at hlen
  omega

end BootableRecovery.Twrp
