import BootableRecovery.Applypatch.ZipModeImage

namespace BootableRecovery.Applypatch
open Lib

/-! `ImageModeImage`: the chunks of a boot or recovery image, from the gzip headers in it. -/

/-- What zlib's `inflate` makes of raw deflate data: the bytes that it writes, and how many it takes
up to the end of the stream, if it comes to the end. -/
inductive Inflated
  | ended (taken : ℕ) (out : Bytes)
  | failed (out : Bytes)
  deriving DecidableEq, Repr

def Inflated.out : Inflated → Bytes
  | .ended _ out => out
  | .failed out => out

def Inflated.taken : Inflated → ℕ
  | .ended taken _ => taken
  | .failed _ => 0

def zOk : ℤ := 0

def zStreamEnd : ℤ := 1

def zDataError : ℤ := -3

def zBufError : ℤ := -5

def Inflated.status : Inflated → ℤ
  | .ended _ _ => zStreamEnd
  | .failed _ => zDataError

/-- `eager`: the call that fills the buffer with the last of the output also reports the end.
`message`: a failing call leaves a text in `msg`, and not a null pointer; where the input ends
before the stream does it leaves none. -/
structure Inflater where
  init : Bytes → Bool
  inflate : Bytes → Inflated
  eager : Bytes → Bool
  message : Bytes → Bool

/-- `inflate` stays inside of its input, and does not look behind the end of the stream. -/
structure Inflater.Lawful (z : Inflater) : Prop where
  inside : ∀ {input taken out}, z.inflate input = .ended taken out → taken ≤ input.length
  prefix_only : ∀ {input taken out}, z.inflate input = .ended taken out →
    z.inflate (input.take taken) = .ended taken out

/-- A call of `inflate` when `written` bytes of output are there: its status, and what it adds. -/
def Inflater.call (z : Inflater) (input : Bytes) (written availOut : ℕ) : ℤ × Bytes :=
  let left := (z.inflate input).out.drop written
  if left.length < availOut ∨ left.length = availOut ∧ z.eager input then
    ((z.inflate input).status, left)
  else if availOut = 0 then (zBufError, [])
  else (zOk, left.take availOut)

theorem Inflater.call_decreases {z : Inflater} {input data out : Bytes} {availOut : ℕ} {ret : ℤ}
    (h : z.call input data.length availOut = (ret, out)) (hret : ¬ret < 0)
    (hend : ret ≠ zStreamEnd) : (z.inflate input).out.length - (data ++ out).length <
      (z.inflate input).out.length - data.length := by
  rw [Inflater.call] at h
  split_ifs at h with hall hroom
  · obtain ⟨hstatus, -⟩ := Prod.mk.inj h
    cases hinflate : z.inflate input <;> rw [hinflate] at hstatus
    · exact absurd hstatus.symm hend
    · rw [← hstatus] at hret
      exact absurd (show zDataError < 0 by decide) hret
  · obtain ⟨hstatus, -⟩ := Prod.mk.inj h
    rw [← hstatus] at hret
    exact absurd (by decide) hret
  · obtain ⟨-, rfl⟩ := Prod.mk.inj h
    rw [List.length_append, List.length_take, List.length_drop]
    rw [List.length_drop] at hall
    omega

/-- The loop around `inflate`, with a buffer that doubles when it is full. -/
def inflateLoop (z : Inflater) (input : Bytes) (allocated : ℕ) (data : Bytes) : ℤ × Bytes :=
  match _h : z.call input data.length (allocated - data.length) with
  | (ret, out) =>
    if _hret : ret < 0 then (ret, data)
    else if _hend : ret ≠ zStreamEnd then
      inflateLoop z input
        (if allocated - (data ++ out).length = 0 then 2 * allocated else allocated) (data ++ out)
    else (ret, data ++ out)
termination_by (z.inflate input).out.length - data.length
decreasing_by exact Inflater.call_decreases _h _hret _hend

def gzipHeaderLen : ℕ := 10

def gzipFooterLen : ℕ := 8

def bufferSize : ℕ := 0x8000

/-- The magic number, deflate compression and no flags. -/
def gzipMagic : ℕ := 0x00088b1f

/-- A difference of two `size_t` -/
def sizeSub (a b : ℕ) : ℕ := if b ≤ a then a - b else a + 2 ^ 64 - b

/-- `get_unaligned`, for a position inside of the file. -/
def read32 (file : Bytes) (i : ℕ) : Option ℕ :=
  if i + 4 ≤ file.length then some (field file i 4) else none

def gzipAt (file : Bytes) (pos : ℕ) : Bool := pos + 4 ≤ file.length ∧ field file pos 4 = gzipMagic

/-- How far it is from `pos` to the next gzip header. -/
def scanData (file : Bytes) (pos dataLen : ℕ) : ℕ :=
  if dataLen + pos < file.length then
    if gzipAt file (pos + dataLen) then dataLen else scanData file pos (dataLen + 1)
  else dataLen
termination_by file.length - (dataLen + pos)

/-- What a pass of the loop of `Initialize` does; a null pointer for the log is not to be read. -/
inductive Pass
  | next (chunks : List ImageChunk) (pos : ℕ)
  | stop (chunks : List ImageChunk)
  | returnFalse
  | outOfBounds
  | nullMessage
  deriving DecidableEq, Repr

def gzipPass (z : Inflater) (file : Bytes) (pos : ℕ) : Pass :=
  if file.length - pos < gzipHeaderLen + gzipFooterLen then
    .stop [ImageChunk.plain pos (file.length - pos)]
  else
    let header := ImageChunk.plain pos gzipHeaderLen
    let pos := pos + gzipHeaderLen
    let input := file.drop pos
    if z.init input = false then .returnFalse
    else
      let (ret, uncompressedData) := inflateLoop z input bufferSize []
      let rawDataLen := (z.inflate input).taken
      if ret < 0 then
        if z.message input then .next [header] pos else .nullMessage
      else
        let footerIndex := pos + rawDataLen + gzipFooterLen - 4
        if sizeSub file.length footerIndex < 4 then .next [header] pos
        else
          match read32 file footerIndex with
          | none => .outOfBounds
          | some footerSize =>
            if footerSize ≠ uncompressedData.length then .next [header] pos
            else
              .next [header,
                { ImageChunk.ofRange .deflate pos rawDataLen [] with
                  uncompressedData := uncompressedData },
                ImageChunk.plain (pos + rawDataLen) gzipFooterLen]
                (pos + rawDataLen + gzipFooterLen)

def pass (z : Inflater) (file : Bytes) (pos : ℕ) : Pass :=
  if gzipAt file pos then gzipPass z file pos
  else
    let dataLen := scanData file pos 0
    .next [ImageChunk.plain pos dataLen] (pos + dataLen)

section inflate
variable {z : Inflater} {input data : Bytes} {allocated : ℕ}

/-- The loop collects the whole output, whatever the sizes of the buffer were. -/
theorem inflateLoop_eq (hdata : data <+: (z.inflate input).out) (hroom : data.length < allocated) :
    (z.inflate input).status = zStreamEnd ∧
        inflateLoop z input allocated data = (zStreamEnd, (z.inflate input).out) ∨
      (z.inflate input).status = zDataError ∧ (inflateLoop z input allocated data).1 < 0 := by
  have hended : ¬zStreamEnd < 0 := by decide
  have hfailed : zDataError < 0 := by decide
  induction allocated, data using inflateLoop.induct z input with
  | case1 allocated data ret out hcall hret =>
    have hloop : inflateLoop z input allocated data = (ret, data) := by
      rw [inflateLoop, hcall]
      exact dif_pos hret
    rw [Inflater.call] at hcall
    split_ifs at hcall with hall hnone
    · obtain ⟨rfl, -⟩ := Prod.mk.inj hcall
      cases hinflate : z.inflate input with
      | ended taken out =>
        rw [hinflate] at hret
        exact absurd hret hended
      | failed out => exact .inr ⟨rfl, by rw [hloop]; exact hret⟩
    · omega
    · obtain ⟨rfl, -⟩ := Prod.mk.inj hcall
      exact absurd hret (by decide)
  | case2 allocated data ret out hcall hret hend ih =>
    have hloop : inflateLoop z input allocated data = inflateLoop z input
        (if allocated - (data ++ out).length = 0 then 2 * allocated else allocated)
        (data ++ out) := by
      rw [inflateLoop, hcall]
      exact (dif_neg hret).trans (dif_pos hend)
    rw [hloop]
    rw [Inflater.call] at hcall
    split_ifs at hcall with hall hnone
    · obtain ⟨rfl, -⟩ := Prod.mk.inj hcall
      cases hinflate : z.inflate input <;> rw [hinflate] at hret hend
      · exact absurd rfl hend
      · exact absurd hfailed hret
    · omega
    · -- the buffer is full now
      obtain ⟨-, rfl⟩ := Prod.mk.inj hcall
      obtain ⟨rest, hrest⟩ := hdata
      rw [← hrest, List.drop_left] at hall ih ⊢
      have hfull : (data ++ rest.take (allocated - data.length)).length = allocated := by
        rw [List.length_append, List.length_take]
        omega
      refine ih ?_ ?_
      · exact (List.prefix_append_right_inj data).mpr (List.take_prefix _ _)
      · rw [hfull, Nat.sub_self, dif_pos rfl]
        omega
  | case3 allocated data ret out hcall hret hend =>
    have hloop : inflateLoop z input allocated data = (ret, data ++ out) := by
      rw [inflateLoop, hcall]
      exact (dif_neg hret).trans (dif_neg hend)
    rw [not_not] at hend
    subst hend
    rw [Inflater.call] at hcall
    split_ifs at hcall with hall hnone
    · obtain ⟨hstatus, rfl⟩ := Prod.mk.inj hcall
      obtain ⟨rest, hrest⟩ := hdata
      rw [hloop, ← hrest, List.drop_left]
      exact .inl ⟨hstatus, rfl⟩
    · omega
    · exact absurd (Prod.mk.inj hcall).1 (by decide)

theorem inflateLoop_start (z : Inflater) (input : Bytes) :
    (z.inflate input).status = zStreamEnd ∧
        inflateLoop z input bufferSize [] = (zStreamEnd, (z.inflate input).out) ∨
      (z.inflate input).status = zDataError ∧ (inflateLoop z input bufferSize []).1 < 0 :=
  inflateLoop_eq List.nil_prefix (by decide)

theorem inflateLoop_ended {taken : ℕ} {out : Bytes} (h : z.inflate input = .ended taken out) :
    inflateLoop z input bufferSize [] = (zStreamEnd, out) := by
  rcases inflateLoop_start z input with ⟨-, heq⟩ | ⟨hstatus, -⟩
  · rw [heq, h]
    rfl
  · rw [h] at hstatus
    exact absurd hstatus (show zStreamEnd ≠ zDataError by decide)

theorem inflateLoop_failed {out : Bytes} (h : z.inflate input = .failed out) :
    (inflateLoop z input bufferSize []).1 < 0 := by
  rcases inflateLoop_start z input with ⟨hstatus, -⟩ | ⟨-, hneg⟩
  · rw [h] at hstatus
    exact absurd hstatus (show zDataError ≠ zStreamEnd by decide)
  · exact hneg

end inflate

/-- Chunks one behind the other from `a` to `b`. -/
def Tiles : ℕ → ℕ → List ImageChunk → Prop
  | a, b, [] => a = b
  | a, b, c :: cs => c.start = a ∧ Tiles (a + c.rawDataLen) b cs

/-- A deflate chunk holds the inflation of its data, and stands between a gzip header and a footer
with the length of it. -/
def Framed (z : Inflater) (file : Bytes) (chunks : List ImageChunk) : Prop :=
  ∀ before c after, chunks = before ++ c :: after → c.type = .deflate →
    z.inflate (c.rawData file) = .ended c.rawDataLen c.uncompressedData ∧
    (∃ before' header, before = before' ++ [header] ∧ header.type = .normal ∧
      header.rawDataLen = gzipHeaderLen ∧ gzipAt file header.start = true) ∧
    ∃ footer after', after = footer :: after' ∧ footer.type = .normal ∧
      footer.rawDataLen = gzipFooterLen ∧
      read32 file (footer.start + 4) = some c.uncompressedData.length

section tiles
variable {z : Inflater} {file : Bytes} {xs ys : List ImageChunk} {a b c pos : ℕ}

theorem Tiles.append (hx : Tiles a b xs) (hy : Tiles b c ys) : Tiles a c (xs ++ ys) := by
  induction xs generalizing a with
  | nil =>
    obtain rfl : a = b := hx
    exact hy
  | cons x xs ih => exact ⟨hx.1, ih hx.2⟩

theorem tiles_plain {start len : ℕ} : Tiles start (start + len) [ImageChunk.plain start len] :=
  ⟨rfl, rfl⟩

theorem Framed.append (hx : Framed z file xs) (hy : Framed z file ys) :
    Framed z file (xs ++ ys) := by
  intro before c after hsplit htype
  rcases List.append_eq_append_iff.mp hsplit with ⟨mid, hbefore, hafter⟩ | ⟨mid, hbefore, hafter⟩
  · -- the chunk is one of `ys`
    obtain ⟨hdata, ⟨before', header, hheader, hframe⟩, hfooter⟩ := hy mid c after hafter htype
    refine ⟨hdata, ⟨xs ++ before', header, ?_, hframe⟩, hfooter⟩
    rw [hbefore, hheader, List.append_assoc]
  · cases mid with
    | nil =>
      rw [List.append_nil] at hbefore
      obtain ⟨hdata, ⟨before', header, hheader, -⟩, -⟩ := hy [] c after hafter.symm htype
      exact absurd hheader.symm (List.append_ne_nil_of_right_ne_nil before' (List.cons_ne_nil _ _))
    | cons first mid =>
      obtain ⟨rfl, rfl⟩ := List.cons.inj hafter
      obtain ⟨hdata, hheader, footer, after', rfl, hframe⟩ := hx before c mid hbefore htype
      exact ⟨hdata, hheader, footer, after' ++ ys, rfl, hframe⟩

theorem framed_plain (start len : ℕ) : Framed z file [ImageChunk.plain start len] := by
  intro before c after hsplit htype
  cases before with
  | nil =>
    obtain ⟨rfl, -⟩ := List.cons.inj hsplit
    cases htype
  | cons first before =>
    exact absurd (List.cons.inj hsplit).2.symm
      (List.append_ne_nil_of_right_ne_nil before (List.cons_ne_nil _ _))

end tiles

/-- The stream behind a gzip header, if it is one that `Initialize` inflates. -/
def gzipStream (z : Inflater) (file : Bytes) (pos : ℕ) : Option Inflated :=
  if gzipAt file pos = true ∧ gzipHeaderLen + gzipFooterLen ≤ file.length - pos ∧
      z.init (file.drop (pos + gzipHeaderLen)) = true then
    some (z.inflate (file.drop (pos + gzipHeaderLen)))
  else none

/-- Behind a stream that ends there is room for the length in the footer, and one that fails has a
message for the log. -/
def StreamFits (z : Inflater) (file : Bytes) (pos : ℕ) : Prop :=
  match gzipStream z file pos with
  | none => True
  | some (.ended taken _) => 4 ≤ file.length - (pos + gzipHeaderLen + taken)
  | some (.failed _) => z.message (file.drop (pos + gzipHeaderLen)) = true

section pass
variable {z : Inflater} {file : Bytes} {pos : ℕ}

theorem scanData_spec (file : Bytes) (pos dataLen : ℕ) (hle : dataLen + pos ≤ file.length) :
    dataLen ≤ scanData file pos dataLen ∧ pos + scanData file pos dataLen ≤ file.length ∧
      (gzipAt file (pos + dataLen) = false → dataLen + pos < file.length →
        dataLen < scanData file pos dataLen) := by
  induction dataLen using scanData.induct file pos with
  | case1 dataLen hlt hgzip =>
    rw [scanData, if_pos hlt, if_pos hgzip]
    refine ⟨le_rfl, by omega, fun hfalse => ?_⟩
    rw [hgzip] at hfalse
    cases hfalse
  | case2 dataLen hlt hgzip ih =>
    obtain ⟨hmono, hend, -⟩ := ih (by omega)
    rw [scanData, if_pos hlt, if_neg hgzip]
    exact ⟨by omega, hend, fun _ _ => by omega⟩
  | case3 dataLen hlt =>
    rw [scanData, if_neg hlt]
    exact ⟨le_rfl, by omega, fun _ h => absurd h hlt⟩

/-- A pass on a stream that ends, or fails. -/
theorem gzipPass_failed {out : Bytes} (hsize : ¬file.length - pos < gzipHeaderLen + gzipFooterLen)
    (hinit : ¬z.init (file.drop (pos + gzipHeaderLen)) = false)
    (h : z.inflate (file.drop (pos + gzipHeaderLen)) = .failed out) :
    gzipPass z file pos = if z.message (file.drop (pos + gzipHeaderLen)) then
      .next [ImageChunk.plain pos gzipHeaderLen] (pos + gzipHeaderLen) else .nullMessage := by
  have hneg := inflateLoop_failed h
  rw [gzipPass, if_neg hsize]
  dsimp only
  rw [if_neg hinit]
  generalize inflateLoop z (file.drop (pos + gzipHeaderLen)) bufferSize [] = result at hneg
  obtain ⟨ret, data⟩ := result
  exact if_pos hneg

theorem gzipPass_ended {taken : ℕ} {out : Bytes}
    (hsize : ¬file.length - pos < gzipHeaderLen + gzipFooterLen)
    (hinit : ¬z.init (file.drop (pos + gzipHeaderLen)) = false)
    (h : z.inflate (file.drop (pos + gzipHeaderLen)) = .ended taken out) :
    gzipPass z file pos =
      if sizeSub file.length (pos + gzipHeaderLen + taken + 4) < 4 then
        .next [ImageChunk.plain pos gzipHeaderLen] (pos + gzipHeaderLen)
      else
        match read32 file (pos + gzipHeaderLen + taken + 4) with
        | none => .outOfBounds
        | some footerSize =>
          if footerSize ≠ out.length then
            .next [ImageChunk.plain pos gzipHeaderLen] (pos + gzipHeaderLen)
          else
            .next [ImageChunk.plain pos gzipHeaderLen,
              { ImageChunk.ofRange .deflate (pos + gzipHeaderLen) taken [] with
                uncompressedData := out },
              ImageChunk.plain (pos + gzipHeaderLen + taken) gzipFooterLen]
              (pos + gzipHeaderLen + taken + gzipFooterLen) := by
  rw [gzipPass, if_neg hsize]
  dsimp only
  rw [if_neg hinit, inflateLoop_ended h, h]
  exact if_neg (show ¬zStreamEnd < 0 by decide)

/-- The three chunks of a gzip stream. -/
theorem framed_gzip (hz : z.Lawful) {taken : ℕ} {out : Bytes} (hgzip : gzipAt file pos = true)
    (h : z.inflate (file.drop (pos + gzipHeaderLen)) = .ended taken out)
    (hfooter : read32 file (pos + gzipHeaderLen + taken + 4) = some out.length) :
    Framed z file [ImageChunk.plain pos gzipHeaderLen,
      { ImageChunk.ofRange .deflate (pos + gzipHeaderLen) taken [] with uncompressedData := out },
      ImageChunk.plain (pos + gzipHeaderLen + taken) gzipFooterLen] := by
  intro before c after hsplit htype
  obtain _ | ⟨x, _ | ⟨y, _ | ⟨w, before⟩⟩⟩ := before
  · obtain ⟨rfl, -⟩ := List.cons.inj hsplit
    cases htype
  · obtain ⟨rfl, htail⟩ := List.cons.inj hsplit
    obtain ⟨rfl, rfl⟩ := List.cons.inj htail
    exact ⟨hz.prefix_only h, ⟨[], _, rfl, rfl, rfl, hgzip⟩, _, [], rfl, rfl, rfl, hfooter⟩
  · obtain ⟨-, htail⟩ := List.cons.inj hsplit
    obtain ⟨-, htail⟩ := List.cons.inj htail
    obtain ⟨rfl, -⟩ := List.cons.inj htail
    cases htype
  · have hlen := congrArg List.length hsplit
    simp only [List.length_cons, List.length_nil, List.length_append] at hlen
    omega

theorem streamFits_of_none (h : gzipStream z file pos = none) : StreamFits z file pos := by
  rw [StreamFits, h]
  exact trivial

/-- Everything that a pass can do. -/
theorem pass_cases (hz : z.Lawful) (hpos : pos < file.length) :
    (∃ chunks pos', pass z file pos = .next chunks pos' ∧ pos < pos' ∧ pos' ≤ file.length ∧
        Tiles pos pos' chunks ∧ Framed z file chunks ∧ StreamFits z file pos) ∨
    (∃ chunks, pass z file pos = .stop chunks ∧ Tiles pos file.length chunks ∧
        Framed z file chunks ∧ StreamFits z file pos) ∨
    pass z file pos = .returnFalse ∧ StreamFits z file pos ∨
    (pass z file pos = .outOfBounds ∨ pass z file pos = .nullMessage) ∧ ¬StreamFits z file pos := by
  have hheader : gzipHeaderLen = 10 := rfl
  have hfooter : gzipFooterLen = 8 := rfl
  by_cases hgzip : gzipAt file pos = true
  · rw [pass, if_pos hgzip]
    by_cases hsize : file.length - pos < gzipHeaderLen + gzipFooterLen
    · refine .inr (.inl ⟨[ImageChunk.plain pos (file.length - pos)], ?_, ?_, framed_plain _ _, ?_⟩)
      · rw [gzipPass, if_pos hsize]
      · exact ⟨rfl, Nat.add_sub_cancel' hpos.le⟩
      · exact streamFits_of_none (if_neg fun hall => absurd hsize (not_lt.mpr hall.2.1))
    by_cases hinit : z.init (file.drop (pos + gzipHeaderLen)) = false
    · refine .inr (.inr (.inl ⟨?_, streamFits_of_none (if_neg fun hall => ?_)⟩))
      · rw [gzipPass, if_neg hsize]
        exact if_pos hinit
      · rw [hinit] at hall
        exact absurd hall.2.2 Bool.false_ne_true
    have hopen : gzipAt file pos = true ∧ gzipHeaderLen + gzipFooterLen ≤ file.length - pos ∧
        z.init (file.drop (pos + gzipHeaderLen)) = true :=
      ⟨hgzip, not_lt.mp hsize, Bool.eq_true_of_not_eq_false hinit⟩
    -- the header stays a chunk of its own when what follows is no gzip stream
    have hskip : Tiles pos (pos + gzipHeaderLen) [ImageChunk.plain pos gzipHeaderLen] ∧
        Framed z file [ImageChunk.plain pos gzipHeaderLen] := ⟨tiles_plain, framed_plain _ _⟩
    cases hinflate : z.inflate (file.drop (pos + gzipHeaderLen)) with
    | failed out =>
      have hfits : StreamFits z file pos ↔ z.message (file.drop (pos + gzipHeaderLen)) = true := by
        rw [StreamFits, gzipStream, if_pos hopen, hinflate]
      rw [gzipPass_failed hsize hinit hinflate, hfits]
      by_cases hmessage : z.message (file.drop (pos + gzipHeaderLen)) = true
      · rw [if_pos hmessage]
        exact .inl ⟨_, _, rfl, by omega, by omega, hskip.1, hskip.2, hmessage⟩
      · rw [if_neg hmessage]
        exact .inr (.inr (.inr ⟨.inr rfl, hmessage⟩))
    | ended taken out =>
      have hinside := hz.inside hinflate
      rw [List.length_drop] at hinside
      have hfits : StreamFits z file pos ↔ 4 ≤ file.length - (pos + gzipHeaderLen + taken) := by
        rw [StreamFits, gzipStream, if_pos hopen, hinflate]
      rw [gzipPass_ended hsize hinit hinflate, hfits]
      by_cases hbeyond : file.length < pos + gzipHeaderLen + taken + 4
      · -- the difference wraps around
        have hwrap : ¬sizeSub file.length (pos + gzipHeaderLen + taken + 4) < 4 := by
          rw [sizeSub, if_neg (by omega)]
          omega
        have hread : read32 file (pos + gzipHeaderLen + taken + 4) = none := if_neg (by omega)
        rw [if_neg hwrap, hread]
        exact .inr (.inr (.inr ⟨.inl rfl, by omega⟩))
      · have hroom : 4 ≤ file.length - (pos + gzipHeaderLen + taken) := by omega
        have hsub : sizeSub file.length (pos + gzipHeaderLen + taken + 4) =
            file.length - (pos + gzipHeaderLen + taken + 4) := if_pos (not_lt.mp hbeyond)
        rw [hsub]
        by_cases hshort : file.length - (pos + gzipHeaderLen + taken + 4) < 4
        · rw [if_pos hshort]
          exact .inl ⟨_, _, rfl, by omega, by omega, hskip.1, hskip.2, hroom⟩
        · have hread : read32 file (pos + gzipHeaderLen + taken + 4) =
              some (field file (pos + gzipHeaderLen + taken + 4) 4) := if_pos (by omega)
          rw [if_neg hshort, hread]
          dsimp only
          by_cases hmatch : field file (pos + gzipHeaderLen + taken + 4) 4 ≠ out.length
          · rw [if_pos hmatch]
            exact .inl ⟨_, _, rfl, by omega, by omega, hskip.1, hskip.2, hroom⟩
          · rw [if_neg hmatch]
            rw [not_not.mp hmatch] at hread
            exact .inl ⟨_, _, rfl, by omega, by omega, ⟨rfl, rfl, rfl, rfl⟩,
              framed_gzip hz hgzip hinflate hread, hroom⟩
  · have hfalse := Bool.eq_false_iff.mpr hgzip
    obtain ⟨-, hend, hpositive⟩ := scanData_spec file pos 0 (by omega)
    have hlen := hpositive hfalse (by omega)
    rw [pass, if_neg hgzip]
    exact .inl ⟨_, _, rfl, by omega, hend, tiles_plain, framed_plain _ _,
      streamFits_of_none (if_neg fun hall => hgzip hall.1)⟩

end pass

theorem pass_lt {z : Inflater} {file : Bytes} {pos pos' : ℕ} {chunks : List ImageChunk}
    (hpos : pos < file.length) (h : pass z file pos = .next chunks pos') : pos < pos' := by
  rw [pass] at h
  split_ifs at h with hgzip
  · have hskip : pos < pos + gzipHeaderLen := Nat.lt_add_of_pos_right (by decide)
    by_cases hsize : file.length - pos < gzipHeaderLen + gzipFooterLen
    · rw [gzipPass, if_pos hsize] at h
      cases h
    by_cases hinit : z.init (file.drop (pos + gzipHeaderLen)) = false
    · rw [gzipPass, if_neg hsize] at h
      dsimp only at h
      rw [if_pos hinit] at h
      cases h
    cases hinflate : z.inflate (file.drop (pos + gzipHeaderLen)) with
    | failed out =>
      rw [gzipPass_failed hsize hinit hinflate] at h
      split_ifs at h
      obtain ⟨-, rfl⟩ := Pass.next.inj h
      exact hskip
    | ended taken out =>
      rw [gzipPass_ended hsize hinit hinflate] at h
      split_ifs at h
      · obtain ⟨-, rfl⟩ := Pass.next.inj h
        exact hskip
      · split at h
        · cases h
        · split_ifs at h
          · obtain ⟨-, rfl⟩ := Pass.next.inj h
            exact hskip
          · obtain ⟨-, rfl⟩ := Pass.next.inj h
            omega
  · obtain ⟨-, rfl⟩ := Pass.next.inj h
    have hlen := (scanData_spec file pos 0 (by omega)).2.2 (Bool.eq_false_iff.mpr hgzip)
      (by omega)
    omega

inductive InitResult
  | returned (ok : Bool) (chunks : List ImageChunk)
  | outOfBounds
  | nullMessage
  deriving DecidableEq, Repr

/-- The loop of `Initialize`. -/
def initLoop (z : Inflater) (file : Bytes) (pos : ℕ) (chunks : List ImageChunk) : InitResult :=
  if _hpos : pos < file.length then
    match _hpass : pass z file pos with
    | .next new pos' => initLoop z file pos' (chunks ++ new)
    | .stop new => .returned true (chunks ++ new)
    | .returnFalse => .returned false chunks
    | .outOfBounds => .outOfBounds
    | .nullMessage => .nullMessage
  else .returned true chunks
termination_by file.length - pos
decreasing_by
  have := pass_lt _hpos _hpass
  omega

/-- `ImageModeImage::Initialize` on a file that has been read. -/
def initializeImage (z : Inflater) (file : Bytes) : InitResult := initLoop z file 0 []

/-- The positions that the loop comes to. -/
inductive Reaches (z : Inflater) (file : Bytes) : ℕ → ℕ → Prop
  | refl (pos : ℕ) : Reaches z file pos pos
  | next {pos pos' stop : ℕ} {chunks : List ImageChunk} (hpos : pos < file.length)
    (hpass : pass z file pos = .next chunks pos') (h : Reaches z file pos' stop) :
    Reaches z file pos stop

/-- So it is for each stream that is inflated from `start` on. -/
def StreamsFit (z : Inflater) (file : Bytes) (start : ℕ) : Prop :=
  ∀ pos, Reaches z file start pos → pos < file.length → StreamFits z file pos

section loop
variable {z : Inflater} {file : Bytes} {pos pos' : ℕ} {chunks new : List ImageChunk}

theorem initLoop_next (hpos : pos < file.length) (hpass : pass z file pos = .next new pos') :
    initLoop z file pos chunks = initLoop z file pos' (chunks ++ new) := by
  rw [initLoop, dif_pos hpos]
  split <;> (rename_i heq; rw [hpass] at heq; cases heq)
  rfl

/-- A pass after which the loop is over. -/
theorem initLoop_last (new : List ImageChunk) (hpos : pos < file.length) :
    (pass z file pos = .stop new →
      initLoop z file pos chunks = .returned true (chunks ++ new)) ∧
    (pass z file pos = .returnFalse → initLoop z file pos chunks = .returned false chunks) ∧
    (pass z file pos = .outOfBounds → initLoop z file pos chunks = .outOfBounds) ∧
    (pass z file pos = .nullMessage → initLoop z file pos chunks = .nullMessage) := by
  rw [initLoop, dif_pos hpos]
  refine ⟨fun hpass => ?_, fun hpass => ?_, fun hpass => ?_, fun hpass => ?_⟩
  · split <;> (rename_i heq; rw [hpass] at heq; cases heq)
    rfl
  · split <;> rename_i heq <;> rw [hpass] at heq <;> cases heq
  · split <;> rename_i heq <;> rw [hpass] at heq <;> cases heq
  · split <;> rename_i heq <;> rw [hpass] at heq <;> cases heq

theorem streamsFit_next (hpos : pos < file.length) (hpass : pass z file pos = .next new pos')
    (hfits : StreamFits z file pos) : StreamsFit z file pos ↔ StreamsFit z file pos' := by
  constructor
  · exact fun h p hreach => h p (.next hpos hpass hreach)
  · intro h p hreach hp
    cases hreach with
    | refl => exact hfits
    | next hpos' hpass' hreach =>
      rw [hpass] at hpass'
      obtain ⟨-, rfl⟩ := Pass.next.inj hpass'
      exact h p hreach hp

theorem streamsFit_last (hnext : ∀ new pos', pos < file.length → pass z file pos ≠ .next new pos')
    (hfits : pos < file.length → StreamFits z file pos) : StreamsFit z file pos := by
  intro p hreach hp
  cases hreach with
  | refl => exact hfits hp
  | next hpos hpass _ => exact absurd hpass (hnext _ _ hpos)

theorem not_streamsFit (hz : z.Lawful) (hpos : pos < file.length)
    (hpass : pass z file pos = .outOfBounds ∨ pass z file pos = .nullMessage) :
    ¬StreamsFit z file pos := by
  rcases pass_cases hz hpos with ⟨_, _, hpass', -⟩ | ⟨_, hpass', -⟩ | ⟨hpass', -⟩ | ⟨-, hfits⟩
  · simp [hpass'] at hpass
  · simp [hpass'] at hpass
  · simp [hpass'] at hpass
  · exact fun h => hfits (h pos (.refl pos) hpos)

theorem initLoop_spec (hz : z.Lawful) (pos : ℕ) (chunks : List ImageChunk)
    (hpos : pos ≤ file.length) (htiles : Tiles 0 pos chunks) (hframed : Framed z file chunks) :
    (∃ ok result, initLoop z file pos chunks = .returned ok result ∧
        (ok = true → Tiles 0 file.length result ∧ Framed z file result)) ∧ StreamsFit z file pos ∨
      (initLoop z file pos chunks = .outOfBounds ∨ initLoop z file pos chunks = .nullMessage) ∧
        ¬StreamsFit z file pos := by
  induction pos, chunks using initLoop.induct z file with
  | case1 pos chunks hlt new pos' hpass ih =>
    rcases pass_cases hz hlt with ⟨_, _, hpass', -, hle, htiles', hframed', hfits⟩ |
      ⟨_, hpass', -⟩ | ⟨hpass', -⟩ | ⟨hpass' | hpass', -⟩ <;> rw [hpass] at hpass' <;> cases hpass'
    rw [initLoop_next hlt hpass, streamsFit_next hlt hpass hfits]
    exact ih hle (htiles.append htiles') (hframed.append hframed')
  | case2 pos chunks hlt new hpass =>
    rcases pass_cases hz hlt with ⟨_, _, hpass', -⟩ | ⟨_, hpass', htiles', hframed', hfits⟩ |
      ⟨hpass', -⟩ | ⟨hpass' | hpass', -⟩ <;> rw [hpass] at hpass' <;> cases hpass'
    refine .inl ⟨⟨true, _, (initLoop_last _ hlt).1 hpass, fun _ =>
      ⟨htiles.append htiles', hframed.append hframed'⟩⟩, streamsFit_last (fun _ _ _ heq => ?_)
        fun _ => hfits⟩
    rw [hpass] at heq
    cases heq
  | case3 pos chunks hlt hpass =>
    rcases pass_cases hz hlt with ⟨_, _, hpass', -⟩ | ⟨_, hpass', -⟩ | ⟨-, hfits⟩ |
      ⟨hpass' | hpass', -⟩
    · rw [hpass] at hpass'
      cases hpass'
    · rw [hpass] at hpass'
      cases hpass'
    · refine .inl ⟨⟨false, chunks, (initLoop_last [] hlt).2.1 hpass, fun hok => by cases hok⟩,
        streamsFit_last (fun _ _ _ heq => ?_) fun _ => hfits⟩
      rw [hpass] at heq
      cases heq
    · rw [hpass] at hpass'
      cases hpass'
    · rw [hpass] at hpass'
      cases hpass'
  | case4 pos chunks hlt hpass =>
    exact .inr ⟨.inl ((initLoop_last [] hlt).2.2.1 hpass), not_streamsFit hz hlt (.inl hpass)⟩
  | case5 pos chunks hlt hpass =>
    exact .inr ⟨.inr ((initLoop_last [] hlt).2.2.2 hpass), not_streamsFit hz hlt (.inr hpass)⟩
  | case6 pos chunks hlt =>
    obtain rfl : pos = file.length := by omega
    refine .inl ⟨⟨true, chunks, ?_, fun _ => ⟨htiles, hframed⟩⟩,
      streamsFit_last (fun _ _ h => absurd h hlt) fun h => absurd h hlt⟩
    rw [initLoop, dif_neg hlt]

end loop

/-- `Initialize` reads inside of the file, and its chunks are the file. -/
def TilesFile (z : Inflater) (file : Bytes) : Prop :=
  ∃ ok chunks, initializeImage z file = .returned ok chunks ∧
    (ok = true → Tiles 0 file.length chunks ∧ Framed z file chunks)

/-- `inflate` on a stream of one stored block. -/
def storedInflater : Inflater where
  init _ := true
  inflate input :=
    match input with
    -- the five high bits of the first byte are padding
    | h :: l :: l' :: n :: n' :: rest =>
      if h &&& 7 = 1 ∧ littleEndian [l, l'] + littleEndian [n, n'] = 0xffff ∧
          littleEndian [l, l'] ≤ rest.length then
        .ended (5 + littleEndian [l, l']) (rest.take (littleEndian [l, l']))
      else .failed []
    | _ => .failed []
  eager _ := false
  message input :=
    match input with
    | h :: l :: l' :: n :: n' :: _ =>
      h &&& 7 ≠ 1 || littleEndian [l, l'] + littleEndian [n, n'] ≠ 0xffff
    | _ => true

theorem storedInflater_ended {input out : Bytes} {taken : ℕ}
    (h : storedInflater.inflate input = .ended taken out) : ∃ first l l' n n' rest,
      input = first :: l :: l' :: n :: n' :: rest ∧
      (first &&& 7 = 1 ∧ littleEndian [l, l'] + littleEndian [n, n'] = 0xffff ∧
        littleEndian [l, l'] ≤ rest.length) ∧
      taken = 5 + littleEndian [l, l'] ∧ out = rest.take (littleEndian [l, l']) := by
  simp only [storedInflater] at h
  split at h
  · split_ifs at h with hblock
    obtain ⟨rfl, rfl⟩ := Inflated.ended.inj h
    exact ⟨_, _, _, _, _, _, rfl, hblock, rfl, rfl⟩
  · cases h

theorem storedInflater_failed {first : UInt8} {rest : Bytes} (h : ¬first &&& 7 = 1) :
    storedInflater.inflate (first :: rest) = .failed [] := by
  simp only [storedInflater]
  split
  · rename_i heq
    obtain ⟨rfl, -⟩ := List.cons.inj heq
    rw [if_neg (fun hblock => h hblock.1)]
  · rfl

theorem storedInflater_lawful : storedInflater.Lawful := by
  constructor
  · intro input taken out h
    obtain ⟨first, l, l', n, n', rest, rfl, hblock, rfl, -⟩ := storedInflater_ended h
    simp only [List.length_cons]
    omega
  · intro input taken out h
    obtain ⟨first, l, l', n, n', rest, rfl, hblock, rfl, rfl⟩ := storedInflater_ended h
    have htake : (first :: l :: l' :: n :: n' :: rest).take (5 + littleEndian [l, l']) =
        first :: l :: l' :: n :: n' :: rest.take (littleEndian [l, l']) := by
      rw [Nat.add_comm]
      rfl
    have hlen : (rest.take (littleEndian [l, l'])).length = littleEndian [l, l'] := by
      rw [List.length_take]
      omega
    rw [htake]
    refine (if_pos ⟨hblock.1, hblock.2.1, hlen.ge⟩).trans ?_
    rw [List.take_take, Nat.min_self]

def gzipHeader : Bytes := [0x1f, 0x8b, 8, 0, 0, 0, 0, 0, 0, 0]

/-- A gzip stream between other data, with its footer. -/
def gzipImage : Bytes :=
  [1] ++ gzipHeader ++ [1, 1, 0, 0xfe, 0xff, 7] ++ [0, 0, 0, 0, 1, 0, 0, 0] ++ [9]

/-- `Initialize` cuts every file into chunks. -/
def TilesEveryFile : Prop := ∀ (z : Inflater), z.Lawful → ∀ file, TilesFile z file

/-- An image that is cut off at the end of a stream. -/
def truncatedImage : Bytes := gzipHeader ++ [1, 3, 0, 0xfc, 0xff, 7, 7, 7]

end BootableRecovery.Applypatch
