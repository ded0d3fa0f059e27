import BootableRecovery.Lib.Text

namespace BootableRecovery.Bootloader
open Lib

/-! The bootloader control block. -/

abbrev Field (n : ℕ) := {buffer : Text // buffer.length = n}

structure BootloaderMessage where
  command : Field 32
  status : Field 32
  recovery : Field 768
  stage : Field 32
  reserved : Field 1184
  deriving DecidableEq

def zeroField (n : ℕ) : Field n := ⟨List.replicate n '\x00', List.length_replicate⟩

theorem strlcpy_length (n : ℕ) (s : Text) :
    ((cString s).take (n - 1) ++
      List.replicate (n - ((cString s).take (n - 1)).length) '\x00').length = n := by
  rw [List.length_append, List.length_replicate, List.length_take]
  omega

/-- `strlcpy` into a field of zeros. -/
def strlcpy (n : ℕ) (s : Text) : Field n :=
  ⟨(cString s).take (n - 1) ++ List.replicate (n - ((cString s).take (n - 1)).length) '\x00',
    strlcpy_length n s⟩

theorem strlcpy_succ (n : ℕ) (s : Text) :
    (strlcpy (n + 1) s).1 = (cString s).take n ++
      List.replicate (n + 1 - ((cString s).take n).length) '\x00' := rfl

/-- An option with the newline that ends its line. An empty one gets it too. -/
def optionLine (s : Text) : Text := if s.getLast? = some '\n' then s else s ++ ['\n']

def recoveryWord : Text := "recovery".toList

def recoveryText (options : List Text) : Text :=
  recoveryWord ++ ['\n'] ++ options.flatMap optionLine

def bootRecovery : Text := "boot-recovery".toList

def updateBootloaderMessageInStruct (boot : BootloaderMessage) (options : List Text) :
    BootloaderMessage :=
  { boot with
    command := strlcpy 32 bootRecovery
    recovery := strlcpy 768 (recoveryText options) }

/-- The field up to its last byte, which the reader sets to NUL. -/
def recoveryString (recovery : Field 768) : Text := cString (recovery.1.set 767 '\x00')

theorem cString_append_nul (s rest : Text) : cString (s ++ '\x00' :: rest) = cString s := by
  rw [cString, List.takeWhile_append, List.takeWhile_cons_of_neg (by simp), List.append_nil]
  split_ifs with h
  · exact (List.takeWhile_eq_self_iff.mpr (List.takeWhile_eq_self_iff.mp
      ((List.takeWhile_sublist _).eq_of_length h))).symm
  · rfl

theorem nul_not_mem_cString (s : Text) : '\x00' ∉ cString s := fun h => by
  simpa using List.mem_takeWhile_imp h

theorem cString_length_le (s : Text) : (cString s).length ≤ s.length :=
  (List.takeWhile_sublist _).length_le

theorem recoveryString_eq (recovery : Field 768) :
    recoveryString recovery = cString (recovery.1.take 767) := by
  rw [recoveryString, List.set_eq_take_append_cons_drop,
    if_pos (by rw [recovery.2]; decide), cString_append_nul]

theorem recoveryString_length_le (recovery : Field 768) :
    (recoveryString recovery).length ≤ 767 := by
  rw [recoveryString_eq]
  exact (cString_length_le _).trans (List.length_take_le 767 _)

/-- What is copied into the field is read back, as far as it fits. -/
theorem recoveryString_strlcpy {s : Text} (h : '\x00' ∉ s) :
    recoveryString (strlcpy 768 s) = s.take 767 := by
  have hcopied : ((cString s).take 767).length ≤ 767 := List.length_take_le 767 _
  have hfield : (strlcpy 768 s).1.take 767 =
      (cString s).take 767 ++ List.replicate (767 - ((cString s).take 767).length) '\x00' := by
    rw [strlcpy_succ 767, List.take_append, List.take_of_length_le hcopied, List.take_replicate]
    rw [show min (767 - ((cString s).take 767).length) (768 - ((cString s).take 767).length) =
      767 - ((cString s).take 767).length by omega]
  have hnul : '\x00' ∉ s.take 767 := fun hmem => h (List.mem_of_mem_take hmem)
  rw [recoveryString_eq, hfield, cString_of_no_nul h]
  cases 767 - (s.take 767).length with
  | zero => rw [List.replicate_zero, List.append_nil, cString_of_no_nul hnul]
  | succ k => rw [List.replicate_succ, cString_append_nul, cString_of_no_nul hnul]

theorem cString_bootRecovery :
    cString (strlcpy 32 bootRecovery).1 = bootRecovery := by
  decide +kernel

section Lines
variable {options : List Text}

/-- The lines hold the options, each with one newline. -/
theorem recoveryText_eq (h : ∀ s ∈ options, '\n' ∉ s) :
    recoveryText options =
      (recoveryWord :: options).flatMap fun line => line ++ ['\n'] := by
  have hline : ∀ s ∈ options, optionLine s = s ++ ['\n'] := by
    intro s hs
    rw [optionLine, if_neg]
    intro hlast
    exact h s hs (List.mem_of_getLast? hlast)
  rw [List.flatMap_cons, recoveryText, List.flatMap_def, List.flatMap_def,
    List.map_congr_left hline]

theorem recoveryText_length (h : ∀ s ∈ options, '\n' ∉ s) :
    (recoveryText options).length = 9 + (options.map fun s => s.length + 1).sum := by
  have hword : (recoveryWord ++ ['\n']).length = 9 := by decide
  have hline : ∀ s ∈ options, (s ++ ['\n']).length = s.length + 1 := by
    intro s _
    rw [List.length_append, List.length_singleton]
  rw [recoveryText_eq h, List.flatMap_cons, List.length_append, List.length_flatMap, hword,
    List.map_congr_left hline]

theorem nul_not_mem_recoveryText (h : ∀ s ∈ options, '\x00' ∉ s) :
    '\x00' ∉ recoveryText options := by
  have hword : '\x00' ∉ recoveryWord ++ ['\n'] := by decide
  rw [recoveryText, List.mem_append, List.mem_flatMap, not_or]
  refine ⟨hword, ?_⟩
  intro ⟨s, hs, hmem⟩
  unfold optionLine at hmem
  split_ifs at hmem
  · exact h s hs hmem
  · exact (List.mem_append.mp hmem).elim (h s hs) (by decide)

end Lines

end BootableRecovery.Bootloader
