import BootableRecovery.Lib.Arith
import BootableRecovery.Twrp.BackupCount

namespace BootableRecovery.Twrp
open Lib

/-! The free space that `Run_Backup` and `Run_OTA_Survival_Backup` ask for, and the rates that they
store. -/

namespace BackupArithmetic

/-- A partition that is backed up: into an archive of its files, or as an image. -/
structure Part where
  files : Bool
  backupSize : ℕ
  deriving DecidableEq, Repr

def fileTotal (parts : List Part) : ℕ := ((parts.filter (·.files)).map Part.backupSize).sum

def imgTotal (parts : List Part) : ℕ := ((parts.filter (!·.files)).map Part.backupSize).sum

/-- What a run computes with. `imgTime` and `fileTime` are what `Backup_Partition` has added up;
`prevFileBps` is the rate with or without compression. -/
structure Input where
  parts : List Part
  free : ℕ
  succeeds : Bool
  imgTime : ℕ
  fileTime : ℕ
  prevImgBps : ℤ
  useCompression : Bool
  prevFileBps : ℕ
  sizes : fileTotal parts + imgTotal parts < 2 ^ 63
  words : free < 2 ^ 64 ∧ imgTime < 2 ^ 64 ∧ fileTime < 2 ^ 64 ∧ prevFileBps < 2 ^ 64
  prevImg : -2 ^ 31 ≤ prevImgBps ∧ prevImgBps < 2 ^ 31

inductive Outcome
  | noPartitions
  | noSpace
  | failed
  | stored (imgBps fileBps : ℤ) (useCompression : Bool)
  deriving DecidableEq, Repr

/-- The bytes of the files and those of the images. -/
def addSizes : List Part → ℤ → ℤ → Arith (ℤ × ℤ)
  | [], fileBytes, imgBytes => pure (fileBytes, imgBytes)
  | p :: parts, fileBytes, imgBytes =>
    if p.files then do
      let fileBytes ← Arith.word 64 (fileBytes + p.backupSize)
      addSizes parts fileBytes imgBytes
    else do
      let imgBytes ← Arith.word 64 (imgBytes + p.backupSize)
      addSizes parts fileBytes imgBytes

def rates (b : Input) (fileBytes imgBytes : ℤ) : Arith (ℤ × ℤ) := do
  let imgTime := if b.imgTime = 0 then 1 else b.imgTime
  let fileTime := if b.fileTime = 0 then 1 else b.fileTime
  let imgBytes ← Arith.int 32 imgBytes
  let imgSeconds ← Arith.int 32 imgTime
  let imgBps ← Arith.quotient imgBytes imgSeconds
  let imgBps ← Arith.int 32 imgBps
  let fileSeconds ← Arith.int 32 fileTime
  let fileSeconds ← Arith.word 64 fileSeconds
  let fileBps ← Arith.quotient fileBytes fileSeconds
  let prevImg ← Arith.int 32 (b.prevImgBps * 4)
  let imgBps ← Arith.int 32 (imgBps + prevImg)
  let imgBps ← Arith.quotient imgBps 5
  let prevFile ← Arith.word 64 (b.prevFileBps * 4)
  let fileBps ← Arith.word 64 (fileBps + prevFile)
  let fileBps ← Arith.quotient fileBps 5
  pure (imgBps, fileBps)

/-- The check of the free space, and the run behind it. -/
def writeWithin (reserve : ℤ) (b : Input) (fileBytes imgBytes : ℤ) : Arith Outcome := do
  let totalBytes ← Arith.word 64 (fileBytes + imgBytes)
  let left ← Arith.word 64 (b.free - reserve)
  if left < totalBytes then pure .noSpace
  else if !b.succeeds then pure .failed
  else
    let bps ← rates b fileBytes imgBytes
    pure (.stored bps.1 bps.2 b.useCompression)

def run (reserve : ℤ) (b : Input) : Arith Outcome := do
  let bytes ← addSizes b.parts 0 0
  if b.parts = [] then pure .noPartitions else writeWithin reserve b bytes.1 bytes.2

inductive Kind
  | backup
  | otaSurvival (doSystemOnOTA : Bool)
  deriving DecidableEq, Repr

def Kind.reserve : Kind → ℕ
  | .backup => 32 * 1024 * 1024
  | .otaSurvival true => 1500 * 1024 * 1024
  | .otaSurvival false => 100 * 1024 * 1024

def runBackup (b : Input) : Arith Outcome := run Kind.backup.reserve b

def runOTASurvivalBackup (doSystemOnOTA : Bool) (b : Input) : Arith Outcome :=
  run (Kind.otaSurvival doSystemOnOTA).reserve b

def Kind.run : Kind → Input → Arith Outcome
  | .backup => runBackup
  | .otaSurvival doSystemOnOTA => runOTASurvivalBackup doSystemOnOTA

/-! ### What is to be computed -/

def Input.total (b : Input) : ℕ := fileTotal b.parts + imgTotal b.parts

/-- The bytes per second, averaged with four times the rate before. -/
def imgRate (b : Input) : ℤ :=
  (((imgTotal b.parts / max b.imgTime 1 : ℕ) : ℤ) + 4 * b.prevImgBps).tdiv 5

def fileRate (b : Input) : ℕ := (fileTotal b.parts / max b.fileTime 1 + 4 * b.prevFileBps) / 5

/-- The run goes on to write. -/
def Outcome.Writes (o : Outcome) : Prop := o ≠ .noPartitions ∧ o ≠ .noSpace

structure Sound (kind : Kind) (b : Input) : Prop where
  space : ∀ o, (kind.run b).value = some o → o.Writes → b.total + kind.reserve ≤ b.free
  noTrap : (kind.run b).value ≠ none
  exact : (kind.run b).exact = true
  rates : ∀ imgBps fileBps compression,
    (kind.run b).value = some (.stored imgBps fileBps compression) →
      imgBps = imgRate b ∧ 0 ≤ imgBps ∧ fileBps = fileRate b

/-- The bytes of the images, the seconds and the rates fit into their types. -/
structure RatesFit (b : Input) : Prop where
  imgBytes : imgTotal b.parts < 2 ^ 31
  imgTime : b.imgTime < 2 ^ 31
  fileTime : b.fileTime < 2 ^ 31
  prevImg : -2 ^ 31 ≤ b.prevImgBps * 4 ∧ b.prevImgBps * 4 < 2 ^ 31
  imgSum : ((imgTotal b.parts / max b.imgTime 1 : ℕ) : ℤ) + 4 * b.prevImgBps < 2 ^ 31
  imgSign : -5 < ((imgTotal b.parts / max b.imgTime 1 : ℕ) : ℤ) + 4 * b.prevImgBps
  fileSum : fileTotal b.parts / max b.fileTime 1 + 4 * b.prevFileBps < 2 ^ 64

/-- There is more free space than is kept back, and where the run writes and succeeds, the rates
fit. -/
def Fits (kind : Kind) (b : Input) : Prop :=
  b.parts = [] ∨
    (kind.reserve ≤ b.free ∧
      (b.total + kind.reserve ≤ b.free → b.succeeds = true → RatesFit b))

section
variable {b : Input} {parts : List Part}

theorem addSizes_eq {fileBytes imgBytes : ℕ}
    (h : fileBytes + imgBytes + (fileTotal parts + imgTotal parts) < 2 ^ 64) :
    addSizes parts fileBytes imgBytes =
      pure (((fileBytes + fileTotal parts : ℕ) : ℤ), ((imgBytes + imgTotal parts : ℕ) : ℤ)) := by
  induction parts generalizing fileBytes imgBytes with
  | nil => rfl
  | cons p parts ih =>
    cases hp : p.files with
    | true =>
      have hfile : fileTotal (p :: parts) = p.backupSize + fileTotal parts := by
        simp [fileTotal, hp]
      have himg : imgTotal (p :: parts) = imgTotal parts := by simp [imgTotal, hp]
      rw [hfile, himg] at h ⊢
      rw [addSizes, if_pos hp, Arith.bind_eq_pure_iff]
      refine ⟨(fileBytes + p.backupSize : ℕ), ?_, ?_⟩
      · rw [Arith.word_eq_pure_iff]
        push_cast
        omega
      · rw [ih (by omega), Nat.add_assoc]
    | false =>
      have hfile : fileTotal (p :: parts) = fileTotal parts := by simp [fileTotal, hp]
      have himg : imgTotal (p :: parts) = p.backupSize + imgTotal parts := by
        simp [imgTotal, hp]
      rw [hfile, himg] at h ⊢
      rw [addSizes, if_neg (by simp [hp]), Arith.bind_eq_pure_iff]
      refine ⟨(imgBytes + p.backupSize : ℕ), ?_, ?_⟩
      · rw [Arith.word_eq_pure_iff]
        push_cast
        omega
      · rw [ih (by omega), Nat.add_assoc imgBytes]

theorem seconds_eq (t : ℕ) : (if t = 0 then 1 else t) = max t 1 := by
  split_ifs <;> omega

/-- The rates are exact when every value fits into its type. -/
theorem rates_eq_pure_iff {r : ℤ × ℤ} :
    rates b (fileTotal b.parts) (imgTotal b.parts) = pure r ↔
      (imgTotal b.parts < 2 ^ 31 ∧ b.imgTime < 2 ^ 31 ∧ b.fileTime < 2 ^ 31 ∧
        (-2 ^ 31 ≤ b.prevImgBps * 4 ∧ b.prevImgBps * 4 < 2 ^ 31) ∧
        ((imgTotal b.parts / max b.imgTime 1 : ℕ) : ℤ) + 4 * b.prevImgBps < 2 ^ 31 ∧
        fileTotal b.parts / max b.fileTime 1 + 4 * b.prevFileBps < 2 ^ 64) ∧
      r = (imgRate b, (fileRate b : ℤ)) := by
  have hsizes := b.sizes
  have himg : imgTotal b.parts / max b.imgTime 1 ≤ imgTotal b.parts := Nat.div_le_self _ _
  have hfile : fileTotal b.parts / max b.fileTime 1 ≤ fileTotal b.parts := Nat.div_le_self _ _
  have hquotient (n t : ℕ) : (n : ℤ).tdiv (t : ℕ) = ((n / t : ℕ) : ℤ) := by
    rw [Int.tdiv_eq_ediv_of_nonneg (by omega), Int.natCast_div]
  have hfileRate : ((fileTotal b.parts / max b.fileTime 1 : ℕ) + (b.prevFileBps : ℤ) * 4).tdiv 5 =
      (fileRate b : ℤ) := by
    have hrate := hquotient (fileTotal b.parts / max b.fileTime 1 + 4 * b.prevFileBps) 5
    rw [fileRate, ← hrate]
    push_cast
    rw [mul_comm (4 : ℤ)]
  have himg₀ := Int.natCast_nonneg (imgTotal b.parts / max b.imgTime 1)
  have hfile₀ := Int.natCast_nonneg (fileTotal b.parts / max b.fileTime 1)
  have hpow : (2 : ℤ) ^ (32 - 1) = 2 ^ 31 := rfl
  simp only [rates, seconds_eq, Arith.bind_eq_pure_iff, Arith.word_eq_pure_iff,
    Arith.int_eq_pure_iff (by decide : 0 < 32), Arith.quotient_eq_pure_iff, Arith.pure_inj, hpow]
  constructor
  · rintro ⟨_, ⟨hbytes, rfl⟩, _, ⟨htime, rfl⟩, _, ⟨-, rfl⟩, _, ⟨-, rfl⟩, _, ⟨hftime, rfl⟩, _,
      ⟨-, rfl⟩, _, ⟨-, rfl⟩, _, ⟨hprev, rfl⟩, _, ⟨hsum, rfl⟩, _, ⟨-, rfl⟩, _, ⟨-, rfl⟩, _,
      ⟨hfsum, rfl⟩, _, ⟨-, rfl⟩, hr⟩
    rw [hquotient] at hsum hfsum
    rw [hquotient, hquotient, hfileRate, mul_comm b.prevImgBps] at hr
    refine ⟨⟨by omega, by omega, by omega, hprev, by omega, by omega⟩, hr.symm⟩
  · rintro ⟨⟨hbytes, htime, hftime, hprev, hsum, hfsum⟩, rfl⟩
    refine ⟨_, ⟨by omega, rfl⟩, _, ⟨by omega, rfl⟩, _, ⟨by omega, rfl⟩, _, ⟨?_, rfl⟩, _,
      ⟨by omega, rfl⟩, _, ⟨by omega, rfl⟩, _, ⟨by omega, rfl⟩, _, ⟨hprev, rfl⟩, _, ⟨?_, rfl⟩, _,
      ⟨by decide, rfl⟩, _, ⟨by omega, rfl⟩, _, ⟨?_, rfl⟩, _, ⟨by decide, rfl⟩, ?_⟩
    · rw [hquotient]
      omega
    · rw [hquotient]
      omega
    · rw [hquotient]
      omega
    · rw [hquotient, hquotient, hfileRate, mul_comm b.prevImgBps]
      rfl

theorem Kind.run_eq (kind : Kind) : kind.run b = BackupArithmetic.run kind.reserve b := by
  cases kind <;> rfl

theorem Kind.reserve_lt (kind : Kind) : kind.reserve < 2 ^ 31 := by
  cases kind with
  | backup => decide
  | otaSurvival doSystemOnOTA => cases doSystemOnOTA <;> decide

theorem addSizes_input (b : Input) : addSizes b.parts 0 0 =
    pure ((fileTotal b.parts : ℤ), (imgTotal b.parts : ℤ)) := by
  have hsizes := b.sizes
  have hadd := @addSizes_eq b.parts 0 0 (by omega)
  rw [Nat.zero_add, Nat.zero_add] at hadd
  exact hadd

theorem run_empty {kind : Kind} (h : b.parts = []) : kind.run b = pure .noPartitions := by
  rw [Kind.run_eq, run, addSizes_input, Arith.pure_bind]
  exact if_pos h

theorem run_nonempty {kind : Kind} (h : b.parts ≠ []) :
    kind.run b = writeWithin kind.reserve b (fileTotal b.parts) (imgTotal b.parts) := by
  rw [Kind.run_eq, run, addSizes_input, Arith.pure_bind, if_neg h]

/-- What an exact run ends with. -/
theorem run_eq_pure_iff {kind : Kind} {o : Outcome} (h : b.parts ≠ []) :
    kind.run b = pure o ↔ kind.reserve ≤ b.free ∧
      if b.free < b.total + kind.reserve then o = .noSpace
      else if b.succeeds = false then o = .failed
      else ∃ r, rates b (fileTotal b.parts) (imgTotal b.parts) = pure r ∧
        o = .stored r.1 r.2 b.useCompression := by
  have hsizes := b.sizes
  have hwords := b.words
  have hreserve := kind.reserve_lt
  have hwithin (left total : ℤ) : (if left < total then pure Outcome.noSpace
      else if !b.succeeds then pure .failed
      else do
        let bps ← rates b (fileTotal b.parts) (imgTotal b.parts)
        pure (.stored bps.1 bps.2 b.useCompression)) = pure o ↔
      if left < total then o = .noSpace
      else if b.succeeds = false then o = .failed
      else ∃ r, rates b (fileTotal b.parts) (imgTotal b.parts) = pure r ∧
        o = .stored r.1 r.2 b.useCompression := by
    by_cases hleft : left < total
    · rw [if_pos hleft, if_pos hleft, Arith.pure_inj, eq_comm]
    · rw [if_neg hleft, if_neg hleft]
      cases b.succeeds with
      | false => rw [if_pos Bool.not_false, if_pos rfl, Arith.pure_inj, eq_comm]
      | true =>
        rw [if_neg (by decide), if_neg (by decide), Arith.bind_eq_pure_iff]
        refine exists_congr fun r => and_congr_right fun _ => ?_
        rw [Arith.pure_inj, eq_comm]
  rw [run_nonempty h, writeWithin, Arith.bind_eq_pure_iff, Input.total]
  constructor
  · intro ⟨total, htotal, hrest⟩
    obtain ⟨left, hleft, ho⟩ := Arith.bind_eq_pure_iff.mp hrest
    obtain ⟨-, rfl⟩ := Arith.word_eq_pure_iff.mp htotal
    obtain ⟨hfits, rfl⟩ := Arith.word_eq_pure_iff.mp hleft
    have ho' := (hwithin _ _).mp ho
    refine ⟨by omega, ?_⟩
    by_cases hfree : b.free < fileTotal b.parts + imgTotal b.parts + kind.reserve
    · rwa [if_pos (by omega)] at ho' ⊢
    · rwa [if_neg (by omega)] at ho' ⊢
  · intro ⟨hleft, ho⟩
    refine ⟨fileTotal b.parts + imgTotal b.parts, Arith.word_eq_pure_iff.mpr ⟨by omega, rfl⟩,
      Arith.bind_eq_pure_iff.mpr ⟨b.free - kind.reserve,
        Arith.word_eq_pure_iff.mpr ⟨by omega, rfl⟩, (hwithin _ _).mpr ?_⟩⟩
    by_cases hfree : b.free < fileTotal b.parts + imgTotal b.parts + kind.reserve
    · rwa [if_pos (by omega)] at ho ⊢
    · rwa [if_neg (by omega)] at ho ⊢

theorem tdiv_nonneg_iff (n : ℤ) : 0 ≤ n.tdiv 5 ↔ -5 < n := by
  obtain hn | hn := Int.le_total 0 n
  · rw [Int.tdiv_eq_ediv_of_nonneg hn]
    omega
  · have hneg := Int.neg_tdiv (-n) 5
    have hpos : (-n).tdiv 5 = -n / 5 := Int.tdiv_eq_ediv_of_nonneg (by omega)
    rw [neg_neg, hpos] at hneg
    omega

/-- A run whose values are all exact has asked for the space that it writes to. -/
theorem sound_of_eq_pure {kind : Kind} {o : Outcome} (h : kind.run b = pure o)
    (hspace : o.Writes → b.total + kind.reserve ≤ b.free)
    (hrates : ∀ imgBps fileBps compression, o = .stored imgBps fileBps compression →
      imgBps = imgRate b ∧ 0 ≤ imgBps ∧ fileBps = fileRate b) : Sound kind b := by
  obtain ⟨hvalue, hexact⟩ := Arith.eq_pure_iff.mp h
  refine ⟨?_, by simp [hvalue], hexact, ?_⟩
  · intro o' ho'
    rw [← Option.some.inj (hvalue.symm.trans ho')]
    exact hspace
  · intro imgBps fileBps compression ho'
    exact hrates _ _ _ (Option.some.inj (hvalue.symm.trans ho'))

theorem fits_of_sound {kind : Kind} (h : Sound kind b) : Fits kind b := by
  refine or_iff_not_imp_left.mpr fun hparts => ?_
  obtain ⟨o, ho⟩ := Arith.exists_eq_pure_iff.mpr ⟨h.noTrap, h.exact⟩
  obtain ⟨hreserve, hend⟩ := (run_eq_pure_iff hparts).mp ho
  refine ⟨hreserve, fun hfree hsucceeds => ?_⟩
  rw [if_neg (by omega), if_neg (by simp [hsucceeds])] at hend
  obtain ⟨bps, hbps, rfl⟩ := hend
  obtain ⟨⟨hbytes, himg, hfile, hprev, hsum, hfsum⟩, rfl⟩ := rates_eq_pure_iff.mp hbps
  have hsign := (h.rates _ _ _ (Arith.eq_pure_iff.mp ho).1).2.1
  exact ⟨hbytes, himg, hfile, hprev, hsum, (tdiv_nonneg_iff _).mp hsign, hfsum⟩

theorem sound_of_fits {kind : Kind} (h : Fits kind b) : Sound kind b := by
  by_cases hparts : b.parts = []
  · exact sound_of_eq_pure (run_empty hparts) (fun hw => absurd rfl hw.1) (by simp)
  obtain ⟨hreserve, hrates⟩ := h.resolve_left hparts
  by_cases hfree : b.free < b.total + kind.reserve
  · have hrun : kind.run b = pure .noSpace := by
      rw [run_eq_pure_iff hparts, if_pos hfree]
      exact ⟨hreserve, rfl⟩
    exact sound_of_eq_pure hrun (fun hw => absurd rfl hw.2) (by simp)
  have hspace : b.total + kind.reserve ≤ b.free := by omega
  cases hsucceeds : b.succeeds with
  | false =>
    have hrun : kind.run b = pure .failed := by
      rw [run_eq_pure_iff hparts, if_neg hfree, if_pos hsucceeds]
      exact ⟨hreserve, rfl⟩
    exact sound_of_eq_pure hrun (fun _ => hspace) (by simp)
  | true =>
    have hfits := hrates hspace hsucceeds
    have hbps := (@rates_eq_pure_iff b _).mpr ⟨⟨hfits.imgBytes, hfits.imgTime, hfits.fileTime,
      hfits.prevImg, hfits.imgSum, hfits.fileSum⟩, rfl⟩
    have hrun : kind.run b = pure (.stored (imgRate b) (fileRate b) b.useCompression) := by
      rw [run_eq_pure_iff hparts, if_neg hfree, if_neg (by simp [hsucceeds])]
      exact ⟨hreserve, _, hbps, rfl⟩
    refine sound_of_eq_pure hrun (fun _ => hspace) ?_
    intro imgBps fileBps compression ho
    cases ho
    exact ⟨rfl, (tdiv_nonneg_iff _).mpr hfits.imgSign, rfl⟩

end

/-- The run asks for its space and computes its rates exactly just when nothing wraps. -/
theorem sound_iff (kind : Kind) (b : Input) : Sound kind b ↔ Fits kind b :=
  ⟨fits_of_sound, sound_of_fits⟩

/-- A storage with 1 MiB left, and an image of 4 GiB. -/
def fullStorage : Input where
  parts := [⟨false, 2 ^ 32⟩]
  free := 2 ^ 20
  succeeds := true
  imgTime := 10
  fileTime := 0
  prevImgBps := 15000000
  useCompression := false
  prevFileBps := 3000000
  sizes := by decide
  words := by decide
  prevImg := by decide

theorem not_sound_fullStorage : ¬Sound .backup fullStorage := by
  intro h
  have hspace := h.space (.stored 12000000 2400000 false) (by decide +kernel)
    ⟨by decide, by decide⟩
  exact absurd hspace (by decide)

/-! ### The sizes of the partitions of a list -/

def countedParts (adb : AdbBackup) (partitions : Partitions) (backupList : Text) : List Part :=
  ((selectedParents adb partitions backupList).flatMap (countedMembers partitions)).map fun i =>
    ⟨adb.backupMethod i = .files, adb.backupSize i⟩

theorem addSizes_value (adb : AdbBackup) (calls : List ℕ) (c : Calculation) :
    (addSizes (calls.map fun i => ⟨adb.backupMethod i = .files, adb.backupSize i⟩)
        c.fileBytes c.imgBytes).value =
      some (((calls.foldl (Calculation.add adb) c).fileBytes : ℤ),
        ((calls.foldl (Calculation.add adb) c).imgBytes : ℤ)) := by
  induction calls generalizing c with
  | nil => rfl
  | cons i calls ih =>
    have hcast (n m : ℕ) : ((n : ℤ) + m) % 2 ^ 64 = (u64 (n + m) : ℕ) := by
      rw [u64]
      push_cast
      rfl
    have hnext := ih (c.add adb i)
    rw [List.map_cons, List.foldl_cons, addSizes, ← hnext, Calculation.add]
    by_cases hi : adb.backupMethod i = .files
    · rw [if_pos (by simp [hi]), if_pos hi, Arith.word_bind_value, hcast]
    · rw [if_neg (by simp [hi]), if_neg hi, Arith.word_bind_value, hcast]

/-- The bytes that the run goes by are those of the calculation over the partitions of the list. -/
theorem addSizes_calculation (adb : AdbBackup) (partitions : Partitions) (backupList : Text) :
    (addSizes (countedParts adb partitions backupList) 0 0).value =
      some (((calculation adb partitions backupList).fileBytes : ℤ),
        ((calculation adb partitions backupList).imgBytes : ℤ)) := by
  rw [calculation, calculate_eq]
  exact addSizes_value adb _ ⟨0, 0, 0⟩

end BackupArithmetic
end BootableRecovery.Twrp
