import BootableRecovery.Bootloader.GetArgs

namespace BootableRecovery.Uncrypt
open Lib Bootloader

/-! `setup_bcb`: the boot message that a client asks for. -/

def wipePackage : Text := "--wipe_package=".toList

def wipePackageSize : Text := "--wipe_package_size=".toList

/-- An option of the request: a package to wipe with is given by its size, if it can be read. -/
def setupOption (readFileToString : Text → Option Text) (option : Text) : Option Text :=
  if wipePackage.isPrefixOf option then
    (readFileToString (option.drop wipePackage.length)).map fun package =>
      wipePackageSize ++ decimal package.length
  else some option

/-- The options that go to `write_bootloader_message`. -/
def setupOptions (readFileToString : Text → Option Text) (content : Text) : Option (List Text) :=
  (content.splitOn '\n').mapM (setupOption readFileToString)

/-- The lines of the options. `s.back()` of an empty string has no value. -/
def optionLines : List Text → Option Text
  | [] => some []
  | s :: options =>
    match s.getLast? with
    | none => none
    | some c =>
      (optionLines options).map fun rest => (if c ≠ '\n' then s ++ ['\n'] else s) ++ rest

/-- `update_bootloader_message_in_struct` with that access. -/
def updateInStruct (boot : BootloaderMessage) (options : List Text) : Option BootloaderMessage :=
  (optionLines options).map fun lines =>
    { boot with
      command := strlcpy 32 bootRecovery
      recovery := strlcpy 768 (recoveryWord ++ ['\n'] ++ lines) }

theorem optionLines_eq_some {options : List Text} {lines : Text} :
    optionLines options = some lines ↔
      (∀ s ∈ options, s ≠ []) ∧ lines = options.flatMap optionLine := by
  induction options generalizing lines with
  | nil =>
    rw [optionLines, Option.some.injEq, eq_comm]
    exact ⟨fun h => ⟨fun s hs => absurd hs List.not_mem_nil, h⟩, fun h => h.2⟩
  | cons s options ih =>
    rw [optionLines, List.forall_mem_cons, List.flatMap_cons]
    rcases hlast : s.getLast? with _ | c
    · rw [List.getLast?_eq_none_iff] at hlast
      exact ⟨fun h => (by cases h), fun h => absurd hlast h.1.1⟩
    · have hne : s ≠ [] := by
        rintro rfl
        cases hlast
      have hline : (if c ≠ '\n' then s ++ ['\n'] else s) = optionLine s := by
        by_cases hc : c = '\n'
        · rw [optionLine, if_neg (not_not_intro hc), if_pos (hc ▸ hlast)]
        · rw [optionLine, if_pos hc, if_neg]
          rw [hlast, Option.some.injEq]
          exact hc
      dsimp only
      rw [hline, Option.map_eq_some_iff]
      constructor
      · rintro ⟨rest, hrest, rfl⟩
        obtain ⟨hall, rfl⟩ := ih.mp hrest
        exact ⟨⟨hne, hall⟩, rfl⟩
      · rintro ⟨⟨-, hall⟩, rfl⟩
        exact ⟨_, ih.mpr ⟨hall, rfl⟩, rfl⟩

/-- The update is defined for non-empty options, and does what it does to the block. -/
theorem updateInStruct_eq_some {boot boot' : BootloaderMessage} {options : List Text} :
    updateInStruct boot options = some boot' ↔
      (∀ s ∈ options, s ≠ []) ∧ boot' = updateBootloaderMessageInStruct boot options := by
  rw [updateInStruct, Option.map_eq_some_iff]
  constructor
  · rintro ⟨lines, hlines, rfl⟩
    obtain ⟨hne, rfl⟩ := optionLines_eq_some.mp hlines
    exact ⟨hne, rfl⟩
  · rintro ⟨hne, rfl⟩
    exact ⟨_, optionLines_eq_some.mpr ⟨hne, rfl⟩, rfl⟩

/-- The lines of a request that are not empty. -/
def contentLines (content : Text) : List Text :=
  (content.splitOn '\n').filter fun line => line ≠ []

/-- Whatever options come of the request, the update of the block is defined for them, and the
lines of the request are read back from it. -/
def SetupCorrect (readFileToString : Text → Option Text) (content : Text) : Prop :=
  ∀ options, setupOptions readFileToString content = some options →
    (∀ s ∈ options, s ≠ []) ∧ ∃ boot, updateInStruct zeroMessage options = some boot ∧
      bootOptions boot.recovery = contentLines content

/-- A request of plain lines that the field can hold. -/
structure PlainContent (content : Text) : Prop where
  lines : ∀ line ∈ content.splitOn '\n', line ≠ []
  package : ∀ line ∈ content.splitOn '\n', ¬wipePackage <+: line
  nul : '\x00' ∉ content
  length : content.length ≤ 758

section
variable {readFileToString : Text → Option Text} {content : Text} {options : List Text}

theorem setupOption_plain {option : Text} (h : ¬wipePackage <+: option) :
    setupOption readFileToString option = some option := by
  rw [setupOption, if_neg]
  rwa [List.isPrefixOf_iff_prefix]

theorem recoveryText_splitOn_length (content : Text) :
    (recoveryText (content.splitOn '\n')).length = content.length + 10 := by
  rw [recoveryText_length fun s hs => not_mem_of_mem_splitOn hs]
  exact (congrArg (fun n => 9 + n) (sum_splitOn_length content '\n')).trans (by omega)

theorem PlainContent.setupOptions (h : PlainContent content) :
    setupOptions readFileToString content = some (content.splitOn '\n') := by
  have hall := h.package
  rw [Uncrypt.setupOptions]
  generalize content.splitOn '\n' = lines at hall ⊢
  induction lines with
  | nil => rfl
  | cons line lines ih =>
    obtain ⟨hline, hlines⟩ := List.forall_mem_cons.mp hall
    rw [List.mapM_cons, setupOption_plain hline, ih hlines]
    rfl

theorem PlainContent.plainOption (h : PlainContent content) :
    ∀ s ∈ content.splitOn '\n', PlainOption s := fun s hs =>
  ⟨h.lines s hs, not_mem_of_mem_splitOn hs, fun hnul => h.nul (mem_of_mem_splitOn hs hnul)⟩

theorem PlainContent.setupCorrect (h : PlainContent content) :
    SetupCorrect readFileToString content := by
  intro options hoptions
  rw [h.setupOptions, Option.some.injEq] at hoptions
  subst hoptions
  refine ⟨h.lines, _, updateInStruct_eq_some.mpr ⟨h.lines, rfl⟩, ?_⟩
  have hlines : contentLines content = content.splitOn '\n' :=
    List.filter_eq_self.mpr fun line hline => decide_eq_true (h.lines line hline)
  have hlength := recoveryText_splitOn_length content
  have hfits := h.length
  rw [hlines]
  exact bootOptions_strlcpy h.plainOption (by omega)

/-- The options of a request whose packages can be read, one for each line. -/
theorem setupOptions_cases (h : setupOptions readFileToString content = some options) :
    List.Forall₂ (fun line option => setupOption readFileToString line = some option)
      (content.splitOn '\n') options := by
  rw [setupOptions] at h
  generalize content.splitOn '\n' = lines at h ⊢
  induction lines generalizing options with
  | nil =>
    cases h
    exact List.Forall₂.nil
  | cons line lines ih =>
    rw [List.mapM_cons] at h
    obtain ⟨option, hoption, h⟩ := Option.bind_eq_some_iff.mp h
    obtain ⟨rest, hrest, h⟩ := Option.bind_eq_some_iff.mp h
    cases h
    exact List.Forall₂.cons hoption (ih hrest)

/-- Only a package that cannot be read keeps the options from being set. -/
theorem setupOptions_eq_none : setupOptions readFileToString content = none ↔
    ∃ line ∈ content.splitOn '\n', wipePackage <+: line ∧
      readFileToString (line.drop wipePackage.length) = none := by
  have hnone : ∀ line, setupOption readFileToString line = none ↔ wipePackage <+: line ∧
      readFileToString (line.drop wipePackage.length) = none := by
    intro line
    rw [setupOption]
    by_cases hline : wipePackage <+: line
    · rw [if_pos (List.isPrefixOf_iff_prefix.mpr hline), Option.map_eq_none_iff,
        and_iff_right hline]
    · rw [if_neg (by rwa [List.isPrefixOf_iff_prefix])]
      exact iff_of_false (Option.some_ne_none line) fun h => hline h.1
  simp only [← hnone]
  rw [setupOptions]
  generalize content.splitOn '\n' = lines
  induction lines with
  | nil => exact iff_of_false (Option.some_ne_none _) fun ⟨line, h, _⟩ => absurd h List.not_mem_nil
  | cons line lines ih =>
    rw [List.mapM_cons, List.exists_mem_cons_iff]
    rcases hoption : setupOption readFileToString line with _ | option
    · exact iff_of_true rfl (Or.inl rfl)
    · rw [or_iff_right (Option.some_ne_none option)]
      refine Iff.trans ?_ ih
      rcases lines.mapM (setupOption readFileToString) with _ | rest
      · exact iff_of_true rfl rfl
      · exact iff_of_false (Option.some_ne_none _) (Option.some_ne_none _)

theorem wipePackage_ne_nil : wipePackage ≠ [] := by decide

/-- A line becomes an empty option only where it is empty. -/
theorem setupOption_ne_nil {line option : Text}
    (h : setupOption readFileToString line = some option) (hne : option ≠ []) : line ≠ [] := by
  rintro rfl
  rw [setupOption_plain, Option.some.injEq] at h
  · exact hne h.symm
  · exact fun hprefix => wipePackage_ne_nil (List.prefix_nil.mp hprefix)

/-- The first line that asks for a package, and its option. -/
theorem exists_package (h : setupOptions readFileToString content = some options)
    (hpackage : ∃ line ∈ content.splitOn '\n', wipePackage <+: line) :
    ∃ before line after option rest, content.splitOn '\n' = before ++ line :: after ∧
      wipePackage <+: line ∧ options = before ++ option :: rest ∧ wipePackageSize <+: option := by
  have hall := setupOptions_cases h
  obtain ⟨line₀, hmem, hline₀⟩ := hpackage
  generalize content.splitOn '\n' = lines at hall hmem
  clear h
  induction hall with
  | nil => exact absurd hmem List.not_mem_nil
  | @cons line option lines options hoption hrest ih =>
    by_cases hline : wipePackage <+: line
    · refine ⟨[], line, lines, option, options, rfl, hline, rfl, ?_⟩
      rw [setupOption, if_pos (List.isPrefixOf_iff_prefix.mpr hline)] at hoption
      obtain ⟨package, -, rfl⟩ := Option.map_eq_some_iff.mp hoption
      exact List.prefix_append _ _
    · rw [setupOption_plain hline, Option.some.injEq] at hoption
      subst hoption
      obtain rfl | hmem := List.mem_cons.mp hmem
      · exact absurd hline₀ hline
      · obtain ⟨before, line', after, option', rest, hsplit, hprefix, hoptions, hsize⟩ := ih hmem
        exact ⟨line :: before, line', after, option', rest, by rw [hsplit]; rfl, hprefix,
          by rw [hoptions]; rfl, hsize⟩

/-- A text in front of the first newline stays together. -/
theorem splitOn_append_head {p : Text} (hp : '\n' ∉ p) (q : Text) :
    ∃ h tl, (p ++ q).splitOn '\n' = (p ++ h) :: tl := by
  induction p with
  | nil =>
    obtain ⟨h, tl, hq⟩ := List.exists_cons_of_ne_nil (List.splitOn_ne_nil '\n' q)
    exact ⟨h, tl, hq⟩
  | cons c p ih =>
    rw [List.mem_cons, not_or] at hp
    obtain ⟨h, tl, hq⟩ := ih hp.2
    refine ⟨h, tl, ?_⟩
    rw [List.cons_append, List.splitOn_cons_eq_if_modifyHead, if_neg fun heq =>
      hp.1 (beq_iff_eq.mp heq).symm, hq, List.modifyHead_cons]
    rfl

/-- What is read back where an option of the block stands for a package. -/
theorem bootOptions_package {before rest : List Text} {option : Text}
    (hbefore : ∀ s ∈ before, PlainOption s) (hsize : wipePackageSize <+: option)
    (hnul : ∀ s ∈ before ++ option :: rest, '\x00' ∉ s)
    (hroom : (recoveryText before).length + 15 ≤ 767) :
    ∃ h tl, bootOptions (strlcpy 768 (recoveryText (before ++ option :: rest))) =
      before ++ (wipePackageSize.take 15 ++ h) :: tl := by
  have hnewline : ∀ l ∈ recoveryWord :: before, '\n' ∉ l := by
    intro l hl
    obtain rfl | hl := List.mem_cons.mp hl
    · decide
    · exact (hbefore l hl).2.1
  obtain ⟨tail, htail⟩ : ∃ tail, (option :: rest).flatMap optionLine =
      wipePackageSize.take 15 ++ tail := by
    obtain ⟨more, rfl⟩ := hsize
    have hline : ∃ t, optionLine (wipePackageSize ++ more) = wipePackageSize ++ t := by
      rw [optionLine]
      split_ifs
      · exact ⟨more, rfl⟩
      · exact ⟨more ++ ['\n'], by rw [List.append_assoc]⟩
    obtain ⟨t, ht⟩ := hline
    refine ⟨wipePackageSize.drop 15 ++ (t ++ rest.flatMap optionLine), ?_⟩
    rw [List.flatMap_cons, ht, ← List.append_assoc (wipePackageSize.take 15),
      List.take_append_drop, List.append_assoc]
  have htext : recoveryText (before ++ option :: rest) =
      (recoveryWord :: before).flatMap (fun line => line ++ ['\n']) ++
        (wipePackageSize.take 15 ++ tail) := by
    rw [← htail, ← recoveryText_eq fun s hs => (hbefore s hs).2.1, recoveryText, recoveryText,
      List.flatMap_append, ← List.append_assoc]
  have hlength := congrArg List.length (recoveryText_eq fun s hs => (hbefore s hs).2.1)
  obtain ⟨h, tl, hsplit⟩ := splitOn_append_head (p := wipePackageSize.take 15) (by decide)
    (tail.take (767 - (recoveryText before).length - 15))
  have hread : recoveryString (strlcpy 768 (recoveryText (before ++ option :: rest))) =
      (recoveryWord :: before).flatMap (fun line => line ++ ['\n']) ++
        (wipePackageSize.take 15 ++ tail.take (767 - (recoveryText before).length - 15)) := by
    have hword : (wipePackageSize.take 15).length = 15 := by decide
    rw [recoveryString_strlcpy (nul_not_mem_recoveryText hnul), htext, List.take_append, ← hlength,
      List.take_of_length_le (by omega), List.take_append, hword,
      List.take_of_length_le (by rw [hword]; omega)]
  refine ⟨h, tl.filter fun token => !token.isEmpty && token.head? != some '\x00', ?_⟩
  rw [bootOptions, hread, splitOn_lines _ _ hnewline, hsplit, List.cons_append]
  dsimp only
  rw [if_pos rfl, List.filter_append, filter_plainOptions hbefore, List.filter_cons_of_pos]
  rfl

theorem lines_ne_nil {lines : List Text}
    (h : List.Forall₂ (fun line option => setupOption readFileToString line = some option)
      lines options) (hne : ∀ s ∈ options, s ≠ []) : ∀ line ∈ lines, line ≠ [] := by
  induction h with
  | nil => exact fun line hline => absurd hline List.not_mem_nil
  | cons hoption _ ih =>
    obtain ⟨hfirst, hrest⟩ := List.forall_mem_cons.mp hne
    exact List.forall_mem_cons.mpr ⟨setupOption_ne_nil hoption hfirst, ih hrest⟩

/-- Options without NULs come of lines without NULs. -/
theorem nul_not_mem_options {lines : List Text}
    (h : List.Forall₂ (fun line option => setupOption readFileToString line = some option)
      lines options) (hnul : ∀ line ∈ lines, '\x00' ∉ line) : ∀ s ∈ options, '\x00' ∉ s := by
  induction h with
  | nil => exact fun s hs => absurd hs List.not_mem_nil
  | @cons line option lines options hoption _ ih =>
    obtain ⟨hfirst, hrest⟩ := List.forall_mem_cons.mp hnul
    refine List.forall_mem_cons.mpr ⟨?_, ih hrest⟩
    by_cases hline : wipePackage <+: line
    · rw [setupOption, if_pos (List.isPrefixOf_iff_prefix.mpr hline)] at hoption
      obtain ⟨package, -, rfl⟩ := Option.map_eq_some_iff.mp hoption
      rw [List.mem_append, not_or]
      exact ⟨by decide, fun hmem => absurd (isDigit_of_mem_decimal hmem) (by decide)⟩
    · rw [setupOption_plain hline, Option.some.injEq] at hoption
      exact hoption ▸ hfirst

/-- A request that is read back is plain. -/
theorem SetupCorrect.plainContent (hoptions : setupOptions readFileToString content = some options)
    (h : SetupCorrect readFileToString content) : PlainContent content := by
  obtain ⟨hne, boot, hboot, hread⟩ := h options hoptions
  obtain ⟨-, rfl⟩ := updateInStruct_eq_some.mp hboot
  have hall := setupOptions_cases hoptions
  have hlines := lines_ne_nil hall hne
  have hcontent : contentLines content = content.splitOn '\n' :=
    List.filter_eq_self.mpr fun line hline => decide_eq_true (hlines line hline)
  change bootOptions (strlcpy 768 (recoveryText options)) = _ at hread
  rw [hcontent] at hread
  obtain ⟨hplain, hfits⟩ := bootOptions_plain (strlcpy 768 (recoveryText options))
  rw [hread] at hplain hfits
  have hlength := recoveryText_splitOn_length content
  refine ⟨hlines, ?_, ?_, by omega⟩
  · intro line hline hprefix
    obtain ⟨before, line', after, option, rest, hsplit, ⟨more, rfl⟩, rfl, hsize⟩ :=
      exists_package hoptions ⟨line, hline, hprefix⟩
    have hnul := nul_not_mem_options hall fun line hline => (hplain line hline).2.2
    rw [hsplit] at hplain hfits hread
    have hbefore : ∀ s ∈ before, PlainOption s := fun s hs =>
      hplain s (List.mem_append_left _ hs)
    -- the line is longer than what tells the two options apart
    have hroom : (recoveryText before).length + 15 ≤ 767 := by
      have hword : wipePackage.length = 15 := by decide
      rw [recoveryText_length fun s hs => (hplain s hs).2.1, List.map_append, List.sum_append,
        List.map_cons, List.sum_cons, List.length_append, hword] at hfits
      rw [recoveryText_length fun s hs => (hbefore s hs).2.1]
      omega
    obtain ⟨t, tl, hback⟩ := bootOptions_package hbefore hsize hnul hroom
    rw [hread] at hback
    obtain ⟨heq, -⟩ := List.cons.inj (List.append_cancel_left hback)
    have htake := congrArg (List.take 15) heq
    rw [List.take_left' (by decide), List.take_left' (by decide)] at htake
    exact absurd htake (by decide)
  · intro hnul
    obtain ⟨line, hline, hmem⟩ := exists_mem_splitOn hnul (by decide : '\x00' ≠ '\n')
    exact (hplain line hline).2.2 hmem

/-- The request is answered as it should be when, and only when, its lines are plain and fit, or a
package cannot be read and nothing is written. -/
theorem setupBcb_iff (readFileToString : Text → Option Text) (content : Text) :
    SetupCorrect readFileToString content ↔
      (∃ line ∈ content.splitOn '\n', wipePackage <+: line ∧
        readFileToString (line.drop wipePackage.length) = none) ∨ PlainContent content := by
  constructor
  · intro h
    rcases hoptions : setupOptions readFileToString content with _ | options
    · exact Or.inl (setupOptions_eq_none.mp hoptions)
    · exact Or.inr (h.plainContent hoptions)
  · rintro (h | h)
    · intro options hoptions
      rw [setupOptions_eq_none.mpr h] at hoptions
      cases hoptions
    · exact h.setupCorrect

end

/-- An empty request is one empty option. -/
theorem not_setupCorrect : ¬∀ readFileToString content, SetupCorrect readFileToString content := by
  intro hall
  obtain ⟨hne, -⟩ := hall (fun _ => none) [] [[]] rfl
  exact hne [] List.mem_cons_self rfl

end BootableRecovery.Uncrypt
