import BootableRecovery.Bootloader.BootloaderMessage
import Mathlib.Algebra.Order.BigOperators.Group.List

namespace BootableRecovery.Bootloader
open Lib

/-! `get_args`: the arguments of recovery, and the block it leaves for the next boot. -/

def zeroMessage : BootloaderMessage :=
  ⟨zeroField 32, zeroField 32, zeroField 768, zeroField 32, zeroField 1184⟩

def bootCommand (boot : BootloaderMessage) : Text := cString boot.command.1

/-- The options behind a first line that says `recovery`. -/
def bootOptions (recovery : Field 768) : List Text :=
  match (recoveryString recovery).splitOn '\n' with
  | [] => []
  | first :: tokens =>
    if first = recoveryWord then
      tokens.filter fun token => !token.isEmpty && token.head? != some '\x00'
    else []

/-- What is appended when there are no arguments. -/
def bootMode (args : List Text) (command : Text) : List Text :=
  if args.length = 1 ∧ command = "boot-fastboot".toList then ["--fastboot".toList]
  else if args.length = 1 ∧ command = "boot-rescue".toList then ["--rescue".toList]
  else []

structure Arguments where
  args : List Text
  stage : Text
  misc : Option BootloaderMessage
  deriving DecidableEq

/-- The arguments of the command line, or, where it has none, those of the block. -/
def suppliedArgs (argv0 : Text) (argv : List Text) (boot : BootloaderMessage) : List Text :=
  argv0 :: (if argv = [] then bootOptions boot.recovery else argv)

/-- `misc` is the block of a misc partition that can be read and written. A stage without a NUL
runs on into the reserved bytes. -/
def getArgs (argv0 : Text) (argv : List Text) (misc : Option BootloaderMessage) : Arguments :=
  let boot := misc.getD zeroMessage
  let args := suppliedArgs argv0 argv boot
  { args := args ++ bootMode args (bootCommand boot)
    stage := cString (boot.stage.1 ++ boot.reserved.1)
    misc := misc.map fun boot => updateBootloaderMessageInStruct boot args.tail }

/-- An option that a line of the field can hold. -/
def PlainOption (s : Text) : Prop := s ≠ [] ∧ '\n' ∉ s ∧ '\x00' ∉ s

section Split
variable {lines : List Text}

theorem splitOn_dropLast_lines (hne : lines ≠ []) (h : ∀ line ∈ lines, '\n' ∉ line) :
    (lines.flatMap fun line => line ++ ['\n']).dropLast.splitOn '\n' = lines := by
  obtain ⟨init, last, rfl⟩ : ∃ init last, lines = init ++ [last] :=
    ⟨lines.dropLast, lines.getLast hne, (List.dropLast_concat_getLast hne).symm⟩
  have hinit : ∀ line ∈ init, '\n' ∉ line := fun line hline =>
    h line (List.mem_append_left _ hline)
  have hlast : '\n' ∉ last := h last (List.mem_append_right _ List.mem_cons_self)
  rw [List.flatMap_append, List.flatMap_singleton, ← List.append_assoc, List.dropLast_concat,
    splitOn_lines init last hinit, List.splitOn_eq_singleton hlast]

end Split

variable {options : List Text}

theorem filter_plainOptions (h : ∀ s ∈ options, PlainOption s) :
    options.filter (fun s => !s.isEmpty && s.head? != some '\x00') = options := by
  rw [List.filter_eq_self]
  intro s hs
  obtain ⟨c, rest, rfl⟩ := List.exists_cons_of_ne_nil (h s hs).1
  have hc : c ≠ '\x00' := fun heq => (h _ hs).2.2 (heq ▸ List.mem_cons_self)
  simp [hc]

/-- Options that fit up to their last newline are read back from the field. -/
theorem bootOptions_strlcpy (h : ∀ s ∈ options, PlainOption s)
    (hlen : (recoveryText options).length ≤ 768) :
    bootOptions (strlcpy 768 (recoveryText options)) = options := by
  have hnewline : ∀ s ∈ options, '\n' ∉ s := fun s hs => (h s hs).2.1
  have hnul : ∀ s ∈ options, '\x00' ∉ s := fun s hs => (h s hs).2.2
  have hlines : ∀ line ∈ recoveryWord :: options, '\n' ∉ line := by
    intro line hline
    obtain rfl | hline := List.mem_cons.mp hline
    · decide
    · exact hnewline line hline
  have hkeep := filter_plainOptions h
  have hread := recoveryString_strlcpy (nul_not_mem_recoveryText hnul)
  rw [bootOptions, hread]
  by_cases hfull : (recoveryText options).length = 768
  · have htake : (recoveryText options).take 767 = (recoveryText options).dropLast := by
      rw [List.dropLast_eq_take, hfull]
    rw [htake, recoveryText_eq hnewline, splitOn_dropLast_lines (List.cons_ne_nil _ _) hlines]
    dsimp only
    rw [if_pos rfl, hkeep]
  · have hsplit := splitOn_lines (recoveryWord :: options) [] hlines
    rw [List.append_nil] at hsplit
    rw [List.take_of_length_le (by omega), recoveryText_eq hnewline, hsplit, List.cons_append]
    dsimp only
    rw [if_pos rfl, List.splitOn_nil, List.filter_append, hkeep]
    exact List.append_nil options

/-- The options of any field are plain, and take one byte more than the field can hold at
most. -/
theorem bootOptions_plain (recovery : Field 768) :
    (∀ s ∈ bootOptions recovery, PlainOption s) ∧
      (recoveryText (bootOptions recovery)).length ≤ 768 := by
  obtain ⟨first, tokens, hsplit⟩ :=
    List.exists_cons_of_ne_nil (List.splitOn_ne_nil '\n' (recoveryString recovery))
  by_cases hfirst : first = recoveryWord
  · have hopts : bootOptions recovery =
        tokens.filter fun token => !token.isEmpty && token.head? != some '\x00' := by
      rw [bootOptions, hsplit]
      exact if_pos hfirst
    have hplain : ∀ s ∈ bootOptions recovery, PlainOption s := by
      intro s hs
      rw [hopts, List.mem_filter] at hs
      have hmem : s ∈ (recoveryString recovery).splitOn '\n' := by
        rw [hsplit]
        exact List.mem_cons_of_mem first hs.1
      refine ⟨?_, not_mem_of_mem_splitOn hmem, ?_⟩
      · rintro rfl
        exact absurd hs.2 (by decide)
      · intro hnul
        exact nul_not_mem_cString _ (mem_of_mem_splitOn hmem hnul)
    refine ⟨hplain, ?_⟩
    have hsum := sum_splitOn_length (recoveryString recovery) '\n'
    have hstring := recoveryString_length_le recovery
    have hword : recoveryWord.length = 8 := by decide
    have hsub : ((bootOptions recovery).map fun s => s.length + 1).sum ≤
        (tokens.map fun s => s.length + 1).sum := by
      rw [hopts]
      exact (List.filter_sublist.map _).sum_le_sum fun _ _ => Nat.zero_le _
    rw [hsplit, List.map_cons, List.sum_cons, hfirst, hword] at hsum
    rw [recoveryText_length fun s hs => (hplain s hs).2.1]
    omega
  · have hopts : bootOptions recovery = [] := by
      rw [bootOptions, hsplit]
      exact if_neg hfirst
    rw [hopts]
    exact ⟨fun s hs => absurd hs List.not_mem_nil, by decide⟩

/-- The options of a plain list are what the next boot gets; a second boot gets what the first one
got, and leaves the block as the first one left it. -/
def BootMessageRoundTrip : Prop :=
  (∀ (argv0 : Text) (boot : BootloaderMessage) (options : List Text),
    (∀ s ∈ options, PlainOption s) → (recoveryText options).length ≤ 767 →
      (getArgs argv0 [] (some (updateBootloaderMessageInStruct boot options))).args =
        argv0 :: options) ∧
  ∀ (argv0 : Text) (argv : List Text) (misc : Option BootloaderMessage),
    (getArgs argv0 argv (getArgs argv0 argv misc).misc).args = (getArgs argv0 argv misc).args ∧
      (getArgs argv0 argv (getArgs argv0 argv misc).misc).misc = (getArgs argv0 argv misc).misc

theorem bootMode_bootRecovery (args : List Text) : bootMode args bootRecovery = [] := by
  have hfastboot : bootRecovery ≠ "boot-fastboot".toList := by decide
  have hrescue : bootRecovery ≠ "boot-rescue".toList := by decide
  rw [bootMode, if_neg (not_and_of_not_right _ hfastboot), if_neg (not_and_of_not_right _ hrescue)]

/-- The next boot after options have been put into the block. -/
theorem getArgs_update (argv0 : Text) (boot : BootloaderMessage) (h : ∀ s ∈ options, PlainOption s)
    (hlen : (recoveryText options).length ≤ 768) :
    (getArgs argv0 [] (some (updateBootloaderMessageInStruct boot options))).args =
        argv0 :: options ∧
      (getArgs argv0 [] (some (updateBootloaderMessageInStruct boot options))).misc =
        some (updateBootloaderMessageInStruct boot options) := by
  have hread : bootOptions (updateBootloaderMessageInStruct boot options).recovery = options :=
    bootOptions_strlcpy h hlen
  have hcommand : bootCommand (updateBootloaderMessageInStruct boot options) = bootRecovery :=
    cString_bootRecovery
  unfold getArgs
  dsimp only [Option.getD_some, Option.map_some]
  rw [suppliedArgs, if_pos rfl, hread, hcommand, bootMode_bootRecovery, List.append_nil]
  exact ⟨rfl, rfl⟩

theorem getArgs_none (argv0 : Text) (argv : List Text) :
    getArgs argv0 argv none =
      ⟨suppliedArgs argv0 argv zeroMessage,
        cString (zeroField 32 ++ (zeroField 1184).1), none⟩ := by
  have hcommand :
      bootMode (suppliedArgs argv0 argv zeroMessage) (bootCommand zeroMessage) = [] := by
    have hzero : bootCommand zeroMessage = [] := by decide
    rw [hzero, bootMode, if_neg (not_and_of_not_right _ (by decide)),
      if_neg (not_and_of_not_right _ (by decide))]
  unfold getArgs
  dsimp only [Option.getD_none, Option.map_none]
  rw [hcommand, List.append_nil]
  rfl

/-- The boot mode is for one boot: the second boot gets the arguments without it. -/
theorem getArgs_again (argv0 : Text) (argv : List Text) (misc : Option BootloaderMessage) :
    (getArgs argv0 argv (getArgs argv0 argv misc).misc).args =
        suppliedArgs argv0 argv (misc.getD zeroMessage) ∧
      (getArgs argv0 argv (getArgs argv0 argv misc).misc).misc =
      (getArgs argv0 argv misc).misc := by
  cases misc with
  | none =>
    rw [getArgs_none]
    dsimp only
    rw [getArgs_none]
    exact ⟨rfl, rfl⟩
  | some boot =>
    have hmisc : (getArgs argv0 argv (some boot)).misc = some (updateBootloaderMessageInStruct boot
        (suppliedArgs argv0 argv boot).tail) := rfl
    rw [hmisc]
    by_cases hargv : argv = []
    · obtain ⟨hplain, hlen⟩ := bootOptions_plain boot.recovery
      rw [Option.getD_some, suppliedArgs, if_pos hargv, List.tail_cons, hargv]
      exact getArgs_update argv0 boot hplain hlen
    · have hcommand : bootCommand (updateBootloaderMessageInStruct boot argv) = bootRecovery :=
        cString_bootRecovery
      rw [Option.getD_some, suppliedArgs, if_neg hargv, List.tail_cons]
      unfold getArgs
      dsimp only [Option.getD_some, Option.map_some]
      rw [suppliedArgs, if_neg hargv, hcommand, bootMode_bootRecovery, List.append_nil]
      exact ⟨rfl, rfl⟩

/-- Options go through the block unchanged, and a second boot repeats the first one, up to the boot
mode, which the block does not keep. -/
theorem bootMessage_roundTrip :
    (∀ (argv0 : Text) (boot : BootloaderMessage) (options : List Text),
      (∀ s ∈ options, PlainOption s) → (recoveryText options).length ≤ 767 →
        (getArgs argv0 [] (some (updateBootloaderMessageInStruct boot options))).args =
          argv0 :: options) ∧
    ∀ (argv0 : Text) (argv : List Text) (misc : Option BootloaderMessage),
      (getArgs argv0 argv misc).args =
          (getArgs argv0 argv (getArgs argv0 argv misc).misc).args ++
            bootMode (getArgs argv0 argv (getArgs argv0 argv misc).misc).args
              (bootCommand (misc.getD zeroMessage)) ∧
        (getArgs argv0 argv (getArgs argv0 argv misc).misc).misc =
          (getArgs argv0 argv misc).misc := by
  constructor
  · intro argv0 boot options hplain hlen
    exact (getArgs_update argv0 boot hplain (hlen.trans (by decide))).1
  · intro argv0 argv misc
    obtain ⟨hargs, hmisc⟩ := getArgs_again argv0 argv misc
    rw [hargs]
    exact ⟨rfl, hmisc⟩

theorem bootMessage_roundTrip_wipe :
    (getArgs "recovery".toList [] (some (updateBootloaderMessageInStruct zeroMessage
      ["--wipe_data".toList]))).args = ["recovery".toList, "--wipe_data".toList] :=
  bootMessage_roundTrip.1 "recovery".toList zeroMessage ["--wipe_data".toList]
    (by
      intro s hs
      rw [List.mem_singleton.mp hs]
      exact ⟨by decide, by decide, by decide⟩)
    (by decide)

/-- A block that asks for fastbootd. -/
def fastbootMessage : BootloaderMessage :=
  { zeroMessage with command := strlcpy 32 "boot-fastboot".toList }

theorem not_bootMessageRoundTrip : ¬BootMessageRoundTrip := by
  intro hall
  have hargs := (hall.2 [] [] (some fastbootMessage)).1
  have hfirst : (getArgs [] [] (some fastbootMessage)).args.length = 2 := by decide +kernel
  have hsecond : (getArgs [] [] (getArgs [] [] (some fastbootMessage)).misc).args.length = 1 := by
    decide +kernel
  rw [hargs, hfirst] at hsecond
  exact absurd hsecond (by decide)

end BootableRecovery.Bootloader
