import BootableRecovery.Lib.Loop
import BootableRecovery.Lib.Splice
import BootableRecovery.Twrp.DigestDriver

namespace BootableRecovery.Twrp.DigestStream
open Lib

/-! `stream_file_to_digest`, for all that `read` may return. -/

/-- What a call of `read` returned: -1, or how many bytes it put into the buffer. -/
inductive ReadResult
  | failed
  | bytes (n : ℕ)
  deriving DecidableEq

/-- How far the call moved in the file. -/
def ReadResult.count : ReadResult → ℕ
  | .failed => 0
  | .bytes n => n

/-- The result as an `int` that becomes the `size_t` of `update`. -/
def ReadResult.len : ReadResult → ℕ
  | .failed => 2 ^ 64 - 1
  | .bytes n => n

/-- A call of `update`: its length, and the bytes that were read for it. -/
structure Update where
  len : ℕ
  buf : Text
  deriving DecidableEq

variable (content : Text) (results : ℕ → ReadResult)

/-- The place in the file before a call. -/
def offset (call : ℕ) : ℕ := ((List.range call).map fun i => (results i).count).sum

/-- The results that `read` may return for the file: counts may be short, errors may come at any
call, and only at the end of the file the result is 0. -/
def Possible : Prop :=
  ∀ call n, results call = .bytes n → n ≤ 4096 ∧ offset results call + n ≤ content.length ∧
    (n = 0 → offset results call = content.length)

structure Streaming where
  calls : ℕ
  updates : List Update

def update (call : ℕ) : Update where
  len := (results call).len
  buf := slice content (offset results call) (results call).count

/-- One pass of the loop; the value returned comes with the updates made. -/
def pass (s : Streaming) : Streaming ⊕ Bool × List Update :=
  if results s.calls = .bytes 0 then .inr (true, s.updates)
  else .inl ⟨s.calls + 1, s.updates ++ [update content results s.calls]⟩

/-- `stream_file_to_digest` returns `ok` after these updates. -/
def Returns (opened ok : Bool) (updates : List Update) : Prop :=
  if opened then Ends (pass content results) ⟨0, []⟩ (ok, updates) else ok = false ∧ updates = []

/-- What an update should be given. -/
def Update.Valid (u : Update) : Prop := 1 ≤ u.len ∧ u.len ≤ 4096 ∧ u.buf.length = u.len

/-- The call returns, its updates are given what has just been read, a true result means that they
were given the whole file, and no read that was made has failed unless the result is false. -/
def StreamsFile (opened : Bool) : Prop :=
  ∃ ok updates, Returns content results opened ok updates ∧ (∀ u ∈ updates, u.Valid) ∧
    (ok = true → updates.flatMap Update.buf = content) ∧
    (opened = true → (∃ call ≤ updates.length, results call = .failed) → ok = false)

/-- No read fails unless one before it has found the end of the file. -/
def NoneFails : Prop := ∀ call, results call = .failed → ∃ i < call, results i = .bytes 0

def updatesTo (calls : ℕ) : List Update := (List.range calls).map (update content results)

section run
variable {content results} {ok : Bool} {updates : List Update} {calls : ℕ}

theorem offset_succ (call : ℕ) :
    offset results (call + 1) = offset results call + (results call).count := by
  simp [offset, List.range_succ]

theorem updatesTo_succ (calls : ℕ) : updatesTo content results (calls + 1) =
    updatesTo content results calls ++ [update content results calls] := by
  simp [updatesTo, List.range_succ]

/-- After some calls, none of which has found the end. -/
def Reading (s : Streaming) : Prop :=
  s.updates = updatesTo content results s.calls ∧ ∀ i < s.calls, results i ≠ .bytes 0

theorem pass_inl {s s' : Streaming} (h : pass content results s = .inl s') :
    results s.calls ≠ .bytes 0 ∧
      s' = ⟨s.calls + 1, s.updates ++ [update content results s.calls]⟩ := by
  unfold pass at h
  split_ifs at h with hend
  exact ⟨hend, (Sum.inl.inj h).symm⟩

theorem Reading.pass {s s' : Streaming} (hs : @Reading content results s)
    (h : pass content results s = .inl s') :
    @Reading content results s' := by
  obtain ⟨hend, rfl⟩ := pass_inl h
  refine ⟨by rw [hs.1, updatesTo_succ], fun i hi => ?_⟩
  rcases Nat.lt_succ_iff_lt_or_eq.mp hi with hi | rfl
  · exact hs.2 i hi
  · exact hend

/-- A run is the calls up to the first that finds the end. -/
theorem returns_iff : Returns content results true ok updates ↔ ok = true ∧
    ∃ calls, results calls = .bytes 0 ∧ (∀ i < calls, results i ≠ .bytes 0) ∧
      updates = updatesTo content results calls := by
  have hstart : @Reading content results ⟨0, []⟩ :=
    ⟨rfl, fun i hi => absurd hi (Nat.not_lt_zero i)⟩
  rw [Returns, if_pos rfl]
  constructor
  · intro h
    obtain ⟨s, hs, hlast⟩ := h.last hstart fun _ _ => Reading.pass
    unfold pass at hlast
    split_ifs at hlast with hend
    have heq := Sum.inr.inj hlast
    rw [Prod.mk.injEq] at heq
    exact ⟨heq.1.symm, s.calls, hend, hs.2, heq.2.symm.trans hs.1⟩
  · rintro ⟨rfl, calls, hend, hbefore, rfl⟩
    -- the passes from any call on, by induction on the calls that are left
    have hfrom : ∀ n i, i + n = calls → Ends (pass content results)
        ⟨i, updatesTo content results i⟩ (true, updatesTo content results calls) := by
      intro n
      induction n with
      | zero =>
        intro i hi
        obtain rfl : i = calls := hi
        exact .stop (by simp [pass, hend])
      | succ n ih =>
        intro i hi
        have hpass : pass content results ⟨i, updatesTo content results i⟩ =
            .inl ⟨i + 1, updatesTo content results (i + 1)⟩ := by
          simp [pass, hbefore i (by omega), updatesTo_succ]
        exact .pass hpass (ih (i + 1) (by omega))
    exact hfrom calls 0 (Nat.zero_add calls)

/-- The updates of counted reads were given the file up to here. -/
theorem flatMap_updatesTo (calls : ℕ) :
    (updatesTo content results calls).flatMap Update.buf =
      content.take (offset results calls) := by
  induction calls with
  | zero => simp [updatesTo, offset]
  | succ calls ih =>
    rw [updatesTo_succ, List.flatMap_append, ih, offset_succ, List.take_add]
    simp [update, slice]

theorem exists_end (hpossible : Possible content results) (hnone : NoneFails results) :
    ∃ calls, results calls = .bytes 0 := by
  by_contra hno
  push Not at hno
  have hsome : ∀ call, 0 < (results call).count := by
    intro call
    rcases hr : results call with _ | n
    · obtain ⟨i, -, hi⟩ := hnone call hr
      exact absurd hi (hno i)
    · exact Nat.pos_of_ne_zero fun hn => hno call (by rw [hr]; exact congrArg _ hn)
  -- every call moves on, past any length
  have hfar : ∀ call, call ≤ offset results call := by
    intro call
    induction call with
    | zero => exact Nat.zero_le _
    | succ call ih =>
      have := hsome call
      rw [offset_succ]
      omega
  have hpast := hfar (content.length + 1)
  rcases hr : results (content.length + 1) with _ | n
  · obtain ⟨i, -, hi⟩ := hnone _ hr
    exact hno i hi
  · have := (hpossible _ n hr).2.1
    omega

theorem update_valid (hpossible : Possible content results) {call : ℕ}
    (hfail : results call ≠ .failed) (hend : results call ≠ .bytes 0) :
    (update content results call).Valid := by
  rcases hr : results call with _ | n
  · exact absurd hr hfail
  · have hn : n ≠ 0 := fun hn => hend (by rw [hr, hn])
    have hp := hpossible call n hr
    simp only [Update.Valid, update, hr, ReadResult.len, ReadResult.count]
    exact ⟨Nat.one_le_iff_ne_zero.mpr hn, hp.1, slice_length hp.2.1⟩

theorem not_valid_of_failed {call : ℕ} (h : results call = .failed) :
    ¬(update content results call).Valid := by
  intro hvalid
  have hlen := hvalid.2.1
  simp [update, h, ReadResult.len] at hlen

/-- The loop tells the end of the file from all else, and an error from nothing: streaming is as it
should be exactly when no read fails. -/
theorem streamsFile_iff (hpossible : Possible content results) (opened : Bool) :
    StreamsFile content results opened ↔ opened = false ∨ NoneFails results := by
  cases opened with
  | false =>
    simp only [true_or, iff_true]
    exact ⟨false, [], by simp [Returns]⟩
  | true =>
    rw [or_iff_right (by simp)]
    constructor
    · rintro ⟨ok, updates, hret, hvalid, -, -⟩ call hfail
      obtain ⟨-, calls, hend, -, rfl⟩ := returns_iff.mp hret
      by_contra hno
      push Not at hno
      have hlt : call < calls := by
        rcases Nat.lt_trichotomy call calls with hlt | rfl | hlt
        · exact hlt
        · rw [hfail] at hend
          cases hend
        · exact absurd hend (hno calls hlt)
      have hmem : update content results call ∈ updatesTo content results calls :=
        List.mem_map.mpr ⟨call, List.mem_range.mpr hlt, rfl⟩
      exact not_valid_of_failed hfail (hvalid _ hmem)
    · intro hnone
      have hex := exists_end hpossible hnone
      have hend := Nat.find_spec hex
      have hbefore : ∀ i < Nat.find hex, results i ≠ .bytes 0 := fun i hi => Nat.find_min hex hi
      have hfail : ∀ i ≤ Nat.find hex, results i ≠ .failed := by
        intro i hi h
        obtain ⟨j, hj, hj0⟩ := hnone i h
        exact hbefore j (by omega) hj0
      refine ⟨true, updatesTo content results (Nat.find hex),
        returns_iff.mpr ⟨rfl, _, hend, hbefore, rfl⟩, ?_, ?_, ?_⟩
      · intro u hu
        obtain ⟨i, hi, rfl⟩ := List.mem_map.mp hu
        rw [List.mem_range] at hi
        exact update_valid hpossible (hfail i hi.le) (hbefore i hi)
      · intro _
        rw [flatMap_updatesTo, (hpossible _ 0 hend).2.2 rfl, List.take_length]
      · rintro - ⟨call, hcall, h⟩
        rw [updatesTo, List.length_map, List.length_range] at hcall
        exact absurd h (hfail call hcall)

end run

/-- What the digest was given is what `streamFileToDigest` makes the digest of. -/
theorem streamFileToDigest_of_streamsFile (d : Digests) {fs : FileSystem Text} {filename : Text}
    (kind : DigestKind) (hfile : fs filename = some content)
    (h : StreamsFile content results true) : ∃ updates,
      Returns content results true true updates ∧ streamFileToDigest d fs kind filename =
        some (d.returnDigestString kind (updates.flatMap Update.buf)) := by
  obtain ⟨ok, updates, hret, -, hall, -⟩ := h
  obtain ⟨rfl, -⟩ := returns_iff.mp hret
  exact ⟨updates, hret, (streamFileToDigest_eq_some d fs).mpr ⟨content, hfile, by rw [hall rfl]⟩⟩

/-- A file whose first 4096 bytes are read in two calls. -/
def shortCounts : ℕ → ReadResult
  | 0 => .bytes 1
  | 1 => .bytes 2
  | _ => .bytes 0

theorem possible_shortCounts : Possible "abc".toList shortCounts := by
  have hoff : ∀ i, offset shortCounts (i + 2) = 3 := by
    intro i
    induction i with
    | zero => rfl
    | succ i ih =>
      have hzero : (shortCounts (i + 2)).count = 0 := rfl
      rw [offset_succ, ih, hzero]
  intro call n h
  rcases call with _ | _ | call
  · cases h
    decide
  · cases h
    decide
  · cases h
    rw [hoff]
    decide

theorem streamsFile_shortCounts : StreamsFile "abc".toList shortCounts true :=
  (streamsFile_iff possible_shortCounts true).mpr <| .inr fun call h => by
    rcases call with _ | _ | call <;> cases h

/-- A card whose reads all fail: the loop never ends. -/
theorem not_streamsFile_failing : Possible "abc".toList (fun _ => .failed) ∧
    (¬∃ r, Ends (pass "abc".toList fun _ => .failed) ⟨0, []⟩ r) ∧
    ¬StreamsFile "abc".toList (fun _ => .failed) true := by
  have hpossible : Possible "abc".toList fun _ => .failed := by
    intro call n h
    cases h
  have hnever : ¬∃ r, Ends (pass "abc".toList fun _ => .failed) ⟨0, []⟩ r :=
    not_ends (I := fun _ => True) trivial fun s _ => ⟨_, if_neg (by simp), trivial⟩
  refine ⟨hpossible, hnever, ?_⟩
  rintro ⟨ok, updates, hret, -⟩
  rw [Returns, if_pos rfl] at hret
  exact hnever ⟨_, hret⟩

end BootableRecovery.Twrp.DigestStream
