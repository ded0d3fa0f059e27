import BootableRecovery.Lib.Blocks

namespace BootableRecovery.Lib

variable {α : Type*}

/-! Parts of a buffer that are read, overwritten, and moved within it. -/

/-- The `n` elements from `start` on. -/
def slice (l : List α) (start n : ℕ) : List α := (l.drop start).take n

/-- The buffer with `data` from `start` on. -/
def splice (l : List α) (start : ℕ) (data : List α) : List α :=
  l.take start ++ (data ++ l.drop (start + data.length))

theorem slice_length {l : List α} {start n : ℕ} (h : start + n ≤ l.length) :
    (slice l start n).length = n := by
  rw [slice, List.length_take, List.length_drop]
  omega

theorem slice_getElem? (l : List α) (start n i : ℕ) :
    (slice l start n)[i]? = if i < n then l[start + i]? else none := by
  rw [slice, List.getElem?_take, List.getElem?_drop]

theorem slice_add (l : List α) (start m n : ℕ) :
    slice l start (m + n) = slice l start m ++ slice l (start + m) n := by
  rw [slice, List.take_add, List.drop_drop]
  rfl

theorem slice_zero (l : List α) (start : ℕ) : slice l start 0 = [] := List.take_zero

theorem splice_length {l data : List α} {start : ℕ} (h : start + data.length ≤ l.length) :
    (splice l start data).length = l.length := by
  rw [splice, List.length_append, List.length_append, List.length_take, List.length_drop]
  omega

theorem splice_getElem? {l data : List α} {start : ℕ} (h : start ≤ l.length) (i : ℕ) :
    (splice l start data)[i]? =
      if i < start then l[i]? else if i < start + data.length then data[i - start]? else l[i]? := by
  have hlen : (l.take start).length = start := List.length_take_of_le h
  rw [splice, List.getElem?_append, hlen]
  by_cases hi : i < start
  · rw [if_pos hi, if_pos hi, List.getElem?_take, if_pos hi]
  rw [if_neg hi, if_neg hi, List.getElem?_append]
  by_cases hdata : i < start + data.length
  · rw [if_pos (by omega), if_pos hdata]
  · rw [if_neg (by omega), if_neg hdata, List.getElem?_drop]
    congr 1
    omega

/-- Two buffers that agree on a part. -/
theorem slice_congr {l m : List α} {start n : ℕ}
    (h : ∀ i, start ≤ i → i < start + n → l[i]? = m[i]?) : slice l start n = slice m start n := by
  refine List.ext_getElem? fun i => ?_
  rw [slice_getElem?, slice_getElem?]
  split_ifs with hi
  · exact h _ (by omega) (by omega)
  · rfl

theorem slice_splice_self {l data : List α} {start : ℕ} (h : start ≤ l.length) :
    slice (splice l start data) start data.length = data := by
  refine List.ext_getElem? fun i => ?_
  rw [slice_getElem?]
  split_ifs with hi
  · rw [splice_getElem? h, if_neg (by omega), if_pos (by omega), Nat.add_sub_cancel_left]
  · rw [List.getElem?_eq_none (by omega)]

theorem slice_splice_of_apart {l data : List α} {start s n : ℕ} (h : start ≤ l.length)
    (happ : s + n ≤ start ∨ start + data.length ≤ s) :
    slice (splice l start data) s n = slice l s n := by
  refine slice_congr fun i hle hlt => ?_
  rw [splice_getElem? h]
  split_ifs with hi hdata
  · rfl
  · omega
  · rfl

/-- A part of whole blocks is the blocks one after the other. -/
theorem slice_blocks (l : List α) (n s k : ℕ) :
    slice l (s * n) (k * n) = (List.range' s k).flatMap fun b => slice l (b * n) n := by
  induction k generalizing s with
  | zero => rw [Nat.zero_mul, slice_zero]; rfl
  | succ k ih =>
    rw [List.range'_succ, List.flatMap_cons, ← ih (s + 1),
      show (k + 1) * n = n + k * n by ring, show (s + 1) * n = s * n + n by ring, slice_add]

theorem slice_flatMap {β : Type*} {g : β → List α} {l : List β} {n i : ℕ} {b : β}
    (h : ∀ b ∈ l, (g b).length = n) (hi : l[i]? = some b) :
    slice (l.flatMap g) (i * n) n = g b := by
  have hdrop : l.drop i = b :: l.drop (i + 1) := by
    obtain ⟨hlt, hget⟩ := List.getElem?_eq_some_iff.mp hi
    rw [List.drop_eq_getElem_cons hlt, hget]
  have hb := h b (List.mem_of_getElem? hi)
  rw [slice, flatMap_drop_uniform h, hdrop, List.flatMap_cons,
    List.take_append_of_le_length hb.ge, List.take_of_length_le hb.le]

theorem splice_nil (l : List α) (start : ℕ) : splice l start [] = l :=
  List.take_append_drop start l

/-- Data written one behind the other -/
theorem splice_splice {l data rest : List α} {start : ℕ} (h : start ≤ l.length) :
    splice (splice l start data) (start + data.length) rest = splice l start (data ++ rest) := by
  have hlen : (l.take start ++ data).length = start + data.length := by
    rw [List.length_append, List.length_take_of_le h]
  have htake : (l.take start ++ (data ++ l.drop (start + data.length))).take
      (start + data.length) = l.take start ++ data := by
    rw [← List.append_assoc, List.take_append_of_le_length hlen.ge, List.take_of_length_le hlen.le]
  have hdrop : (l.take start ++ (data ++ l.drop (start + data.length))).drop
      (start + data.length + rest.length) = l.drop (start + (data ++ rest).length) := by
    have hfront : (l.take start ++ data).drop (start + data.length) = [] :=
      List.drop_of_length_le hlen.le
    rw [← List.append_assoc, ← List.drop_drop, List.drop_append_of_le_length hlen.ge, hfront,
      List.nil_append, List.drop_drop, List.length_append, Nat.add_assoc]
  rw [splice, splice, splice, htake, hdrop, List.append_assoc, List.append_assoc]

/-! ### Packed pieces -/

/-- The pieces that lie packed in `source` from `start` on, put to their places, the last one first;
without `source` they lie in the buffer itself. -/
def unpack (source : Option (List α)) (l : List α) : List (ℕ × ℕ) → ℕ → List α
  | [], _ => l
  | piece :: pieces, start =>
    let l := unpack source l pieces (start + piece.2)
    splice l piece.1 (slice (source.getD l) start piece.2)

/-- The places are inside of the buffer, one behind the other. -/
structure Ascending (pieces : List (ℕ × ℕ)) (size : ℕ) : Prop where
  inside : ∀ p ∈ pieces, p.1 + p.2 ≤ size
  sorted : pieces.Pairwise fun p q => p.1 + p.2 ≤ q.1

def packedLength (pieces : List (ℕ × ℕ)) : ℕ := (pieces.map Prod.snd).sum

theorem Ascending.tail {p : ℕ × ℕ} {pieces : List (ℕ × ℕ)} {size : ℕ}
    (h : Ascending (p :: pieces) size) : Ascending pieces size :=
  ⟨fun q hq => h.inside q (List.mem_cons_of_mem _ hq), (List.pairwise_cons.mp h.sorted).2⟩

section unpack
variable {source : Option (List α)} {l : List α} {pieces : List (ℕ × ℕ)} {start : ℕ}

theorem unpack_length (hfit : ∀ p ∈ pieces, p.1 + p.2 ≤ l.length) :
    (unpack source l pieces start).length = l.length := by
  induction pieces generalizing start with
  | nil => rfl
  | cons p pieces ih =>
    have hrest := @ih (start + p.2) fun q hq => hfit q (List.mem_cons_of_mem _ hq)
    have hp := hfit p List.mem_cons_self
    have hdata := List.length_take_le p.2
      ((source.getD (unpack source l pieces (start + p.2))).drop start)
    rw [unpack, splice_length, hrest]
    rw [slice, hrest]
    omega

/-- What lies in no place stays. -/
theorem unpack_getElem? (hfit : ∀ p ∈ pieces, p.1 + p.2 ≤ l.length) (i : ℕ)
    (happ : ∀ p ∈ pieces, i < p.1 ∨ p.1 + p.2 ≤ i) :
    (unpack source l pieces start)[i]? = l[i]? := by
  induction pieces generalizing start with
  | nil => rfl
  | cons p pieces ih =>
    have hfit' : ∀ q ∈ pieces, q.1 + q.2 ≤ l.length :=
      fun q hq => hfit q (List.mem_cons_of_mem _ hq)
    have hrest := @ih (start + p.2) hfit' fun q hq => happ q (List.mem_cons_of_mem _ hq)
    have hp := hfit p List.mem_cons_self
    have hi := happ p List.mem_cons_self
    have hdata := List.length_take_le p.2
      ((source.getD (unpack source l pieces (start + p.2))).drop start)
    rw [unpack, splice_getElem? (by rw [unpack_length hfit']; omega), hrest, slice]
    split_ifs with hlow hhigh
    · rfl
    · omega
    · rfl

/-- No piece is overwritten before it is moved. -/
theorem slice_unpack_source {n : ℕ} (hfit : ∀ p ∈ pieces, p.1 + p.2 ≤ l.length)
    (hahead : ∀ p ∈ pieces, start + n ≤ p.1) (next : ℕ) :
    slice (source.getD (unpack source l pieces next)) start n = slice (source.getD l) start n := by
  cases source with
  | some source => rfl
  | none =>
    refine slice_congr fun i _ hlt => unpack_getElem? hfit i fun p hp => ?_
    have := hahead p hp
    omega

/-- The places hold the pieces in their order. -/
theorem unpack_places (h : Ascending pieces l.length) (hstart : ∀ p ∈ pieces, start ≤ p.1)
    (hsource : start + packedLength pieces ≤ (source.getD l).length) :
    pieces.flatMap (fun p => slice (unpack source l pieces start) p.1 p.2) =
      slice (source.getD l) start (packedLength pieces) := by
  induction pieces generalizing start with
  | nil => exact (slice_zero _ _).symm
  | cons p pieces ih =>
    have hp := h.inside p List.mem_cons_self
    have hfirst := hstart p List.mem_cons_self
    have hsorted := (List.pairwise_cons.mp h.sorted).1
    have htotal : packedLength (p :: pieces) = p.2 + packedLength pieces := rfl
    rw [htotal] at hsource ⊢
    have hahead : ∀ q ∈ pieces, start + p.2 ≤ q.1 := fun q hq => by
      have := hsorted q hq
      omega
    have hdata : slice (source.getD (unpack source l pieces (start + p.2))) start p.2 =
        slice (source.getD l) start p.2 := slice_unpack_source h.tail.inside hahead _
    have hlen : (slice (source.getD l) start p.2).length = p.2 := slice_length (by omega)
    have hin : p.1 ≤ (unpack source l pieces (start + p.2)).length := by
      rw [unpack_length h.tail.inside]
      omega
    have hrest := @ih (start + p.2) h.tail hahead (by omega)
    rw [List.flatMap_cons, unpack, hdata, slice_add]
    congr 1
    · calc slice (splice _ p.1 (slice (source.getD l) start p.2)) p.1 p.2
          = slice (splice _ p.1 (slice (source.getD l) start p.2)) p.1
              (slice (source.getD l) start p.2).length := by rw [hlen]
        _ = slice (source.getD l) start p.2 := slice_splice_self hin
    · rw [← hrest]
      refine List.flatMap_congr fun q hq => slice_splice_of_apart hin (.inr ?_)
      rw [hlen]
      exact hsorted q hq

/-- Of the source only the packed part is read. -/
theorem unpack_source_congr {s t : List α}
    (h : ∀ i, start ≤ i → i < start + packedLength pieces → s[i]? = t[i]?) :
    unpack (some s) l pieces start = unpack (some t) l pieces start := by
  induction pieces generalizing start with
  | nil => rfl
  | cons p pieces ih =>
    have htotal : packedLength (p :: pieces) = p.2 + packedLength pieces := rfl
    rw [htotal] at h
    have hpiece : slice s start p.2 = slice t start p.2 :=
      slice_congr fun i hle hlt => h i hle (by omega)
    rw [unpack, unpack, ih fun i hle hlt => h i (by omega) (by omega)]
    exact congrArg (splice _ p.1) hpiece

end unpack

end BootableRecovery.Lib
