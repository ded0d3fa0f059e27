import BootableRecovery.Lib.Tokens
import Mathlib.Data.List.Induction
import Mathlib.Data.List.Perm.Basic

namespace BootableRecovery.Twrp
open Lib

/-! `Process_FS_Flags`: the mount options of a line of the fstab. -/

namespace FsFlags

def MS_RDONLY : ℕ := 1

def mountFlags : List (Text × ℕ) :=
  [("noatime".toList, 1024), ("noexec".toList, 8), ("nosuid".toList, 2), ("nodev".toList, 4),
    ("nodiratime".toList, 2048), ("ro".toList, MS_RDONLY), ("rw".toList, 0),
    ("remount".toList, 32), ("bind".toList, 4096), ("rec".toList, 16384),
    ("unbindable".toList, 2 ^ 17), ("private".toList, 2 ^ 18), ("slave".toList, 2 ^ 19),
    ("shared".toList, 2 ^ 20), ("sync".toList, 16)]

def ignoredMountItems : List Text :=
  ["defaults=".toList, "errors=".toList, "latemount".toList, "sysfs_path=".toList]

/-- The fields of the partition that are set. -/
@[ext] structure Fields where
  flags : ℕ
  readOnly : Bool
  options : Text
  deriving DecidableEq, Repr

/-- The text before the first `=`, or all of it. -/
def name (ptr : Text) : Text := ptr.takeWhile (· ≠ '=')

def ignored (ptr : Text) : Bool :=
  ignoredMountItems.any fun item => strncmp ptr item (name ptr).length

/-- The table is not asked when there is an `=`. -/
def mountFlag (ptr : Text) : Option ℕ :=
  if '=' ∈ ptr then none else (mountFlags.find? fun entry => ptr = entry.1).map Prod.snd

def processOption (s : Fields) (ptr : Text) : Fields :=
  if ignored ptr then s
  else
    match mountFlag ptr with
    | some flag =>
      if flag = MS_RDONLY then { s with readOnly := true }
      else { s with flags := s.flags ||| flag }
    | none =>
      { s with options := (if s.options = [] then [] else s.options ++ [',']) ++ ptr }

def options (str : Text) : List Text := strtok ',' (cString str)

def processFSFlags (s : Fields) (str : Text) : Fields :=
  (options str).foldl processOption { s with options := [] }

/-! ### What it is for -/

/-- The fields for a list of options when these are dropped. -/
def outcome (dropped : Text → Bool) (s : Fields) (ptrs : List Text) : Fields where
  flags := ((ptrs.filter (!dropped ·)).filterMap mountFlag).foldl
    (fun flags flag => if flag = MS_RDONLY then flags else flags ||| flag) s.flags
  readOnly := s.readOnly ||
    ((ptrs.filter (!dropped ·)).filterMap mountFlag).any (· = MS_RDONLY)
  options := [','].intercalate ((ptrs.filter (!dropped ·)).filter (mountFlag · = none))

/-- The option has the name of an entry. -/
def isIgnoredItem (ptr : Text) : Bool := ignoredMountItems.any fun item => name ptr = name item

/-- The options with the name of an ignored item are dropped and every other one takes its effect,
wherever it stands. -/
structure ProcessesOptions (s : Fields) (str : Text) : Prop where
  result : processFSFlags s str = outcome isIgnoredItem s (options str)
  order : ∀ str', (options str').Perm (options str) →
    (processFSFlags s str').flags = (processFSFlags s str).flags ∧
      (processFSFlags s str').readOnly = (processFSFlags s str).readOnly ∧
      (options (processFSFlags s str').options).Perm (options (processFSFlags s str).options)

variable {s : Fields} {str : Text} {dropped : Text → Bool} {ptrs : List Text}

/-- The loop takes one option after the other. -/
theorem foldl_processOption (h : ∀ ptr ∈ ptrs, ptr ≠ []) :
    ptrs.foldl processOption { s with options := [] } = outcome ignored s ptrs := by
  induction ptrs using List.reverseRecOn with
  | nil => simp [outcome]
  | append_singleton ptrs ptr ih =>
    have hptrs : ∀ ptr ∈ ptrs, ptr ≠ [] := fun p hp => h p (by simp [hp])
    rw [List.foldl_append, ih hptrs, List.foldl_cons, List.foldl_nil, processOption]
    by_cases hdrop : ignored ptr
    · simp [outcome, hdrop]
    · rw [if_neg hdrop]
      cases hflag : mountFlag ptr with
      | some flag =>
        by_cases hro : flag = MS_RDONLY
        · simp [outcome, hdrop, hflag, hro]
        · simp [outcome, hdrop, hflag, hro]
      | none =>
        have hnil := @intercalate_eq_nil ','
          ((ptrs.filter (!ignored ·)).filter (mountFlag · = none))
          (fun p hp => hptrs p (List.mem_of_mem_filter (List.mem_of_mem_filter hp)))
        simp only [outcome, List.filter_append, List.filterMap_append, hnil]
        simp [hdrop, hflag, intercalate_concat]

theorem processFSFlags_eq : processFSFlags s str = outcome ignored s (options str) :=
  foldl_processOption fun _ => ne_nil_of_mem_strtok

/-- The options that are kept are read back from `Mount_Options`. -/
theorem options_outcome : options (outcome dropped s (options str)).options =
    ((options str).filter (!dropped ·)).filter (mountFlag · = none) := by
  have hparts : ∀ ptr ∈ ((options str).filter (!dropped ·)).filter (mountFlag · = none),
      ptr ∈ options str := fun ptr hptr => List.mem_of_mem_filter (List.mem_of_mem_filter hptr)
  have hnul : '\x00' ∉ (outcome dropped s (options str)).options := by
    apply not_mem_intercalate (by decide)
    intro ptr hptr hnul
    have hstr := mem_of_mem_splitOn (List.mem_of_mem_filter (hparts ptr hptr)) hnul
    exact absurd (List.mem_takeWhile_imp hstr) (by decide)
  rw [options, cString_of_no_nul hnul, outcome, strtok_intercalate]
  intro ptr hptr
  exact ⟨ne_nil_of_mem_strtok (hparts ptr hptr), not_mem_of_mem_strtok (hparts ptr hptr)⟩

/-- The order of the options is only seen in that of the options that are kept. -/
theorem outcome_perm {str' : Text} (h : (options str').Perm (options str)) :
    (outcome dropped s (options str')).flags = (outcome dropped s (options str)).flags ∧
      (outcome dropped s (options str')).readOnly = (outcome dropped s (options str)).readOnly ∧
      (options (outcome dropped s (options str')).options).Perm
        (options (outcome dropped s (options str)).options) := by
  have hkept := h.filter (!dropped ·)
  have hflags := hkept.filterMap mountFlag
  refine ⟨?_, ?_, ?_⟩
  · apply hflags.foldl_eq'
    intro a _ b _ flags
    split_ifs <;> simp [Nat.or_assoc, Nat.or_comm a]
  · simp only [outcome, hflags.any_eq]
  · rw [options_outcome, options_outcome]
    exact hkept.filter _

theorem ignored_iff (ptr : Text) : ignored ptr ↔ ∃ item ∈ ignoredMountItems, name ptr <+: item := by
  have hpre : name ptr <+: ptr := List.takeWhile_prefix _
  have hname : ptr.take (name ptr).length = name ptr := (List.prefix_iff_eq_take.mp hpre).symm
  rw [ignored, List.any_eq_true]
  refine exists_congr fun item => and_congr_right fun _ => ?_
  rw [strncmp_iff hpre.length_le, hname]

theorem ignored_of_isIgnoredItem {ptr : Text} (h : isIgnoredItem ptr) : ignored ptr := by
  simp only [isIgnoredItem, List.any_eq_true, decide_eq_true_eq] at h
  obtain ⟨item, hitem, hname⟩ := h
  exact (ignored_iff ptr).mpr ⟨item, hitem, hname ▸ List.takeWhile_prefix _⟩

/-- No mount flag is dropped. -/
theorem mountFlag_of_ignored {ptr : Text} (h : ignored ptr) : mountFlag ptr = none := by
  rw [mountFlag]
  split_ifs with hequals
  · rfl
  · rw [Option.map_eq_none_iff, List.find?_eq_none]
    intro entry hentry heq
    have hfree : ∀ entry ∈ mountFlags, ignored entry.1 = false := by decide +kernel
    rw [of_decide_eq_true heq, hfree entry hentry] at h
    cases h

/-- The options take the effects of their names just when no name is the first part of the name of
an ignored item. -/
theorem processesOptions_iff : ProcessesOptions s str ↔
    ∀ ptr ∈ options str, (∃ item ∈ ignoredMountItems, name ptr <+: item) →
      ∃ item ∈ ignoredMountItems, name ptr = name item := by
  constructor
  · intro h ptr hptr hitems
    have hignored := (ignored_iff ptr).mpr hitems
    have hkept := congrArg (fun fields => options fields.options) h.result
    rw [processFSFlags_eq] at hkept
    simp only [options_outcome] at hkept
    by_contra hitem
    have hmem : ptr ∈ ((options str).filter (!isIgnoredItem ·)).filter (mountFlag · = none) := by
      simp_all [isIgnoredItem, mountFlag_of_ignored hignored]
    rw [← hkept] at hmem
    simp [hignored] at hmem
  · intro h
    have hdropped : (options str).filter (!ignored ·) =
        (options str).filter (!isIgnoredItem ·) := by
      apply List.filter_congr
      intro ptr hptr
      have hiff : ignored ptr ↔ isIgnoredItem ptr := by
        refine ⟨fun hi => ?_, ignored_of_isIgnoredItem⟩
        simpa [isIgnoredItem] using h ptr hptr ((ignored_iff ptr).mp hi)
      rw [Bool.eq_iff_iff.mpr hiff]
    constructor
    · rw [processFSFlags_eq, outcome, outcome, hdropped]
    · intro str' hperm
      simp only [processFSFlags_eq]
      exact outcome_perm hperm

/-- The option `s` is taken for `sysfs_path`. -/
theorem not_processesOptions : ¬ProcessesOptions ⟨0, false, []⟩ "s".toList := by
  intro h
  have hresult := h.result
  revert hresult
  decide +kernel

end FsFlags
end BootableRecovery.Twrp
