import BootableRecovery.Lib.Text
import BootableRecovery.Otautil.SortedRangeSet

namespace BootableRecovery.Applypatch
open Lib Otautil

/-! The chunks that imgdiff cuts an image into. -/

abbrev Bytes := List UInt8

inductive ChunkType
  | normal
  | deflate
  | raw
  deriving DecidableEq, Repr

/-- A chunk of a file; `uncompressedData` is of a deflate chunk only. -/
structure ImageChunk where
  type : ChunkType
  start : ℕ
  rawDataLen : ℕ
  compressLevel : ℕ
  uncompressedData : Bytes
  entryName : Text
  deriving DecidableEq, Repr

/-- zlib's `deflate` of a whole buffer, by the level, with the other parameters of `ImageChunk`. -/
structure Zlib where
  deflate : ℕ → Bytes → Option Bytes

namespace ImageChunk

/-- The constructor. -/
def ofRange (type : ChunkType) (start rawDataLen : ℕ) (entryName : Text) : ImageChunk :=
  { type := type, start := start, rawDataLen := rawDataLen, compressLevel := 6,
    uncompressedData := [], entryName := entryName }

/-- A chunk of type `CHUNK_NORMAL` that is no entry. -/
def plain (start rawDataLen : ℕ) : ImageChunk := ofRange .normal start rawDataLen []

variable (c : ImageChunk)

def rawData (file : Bytes) : Bytes := (file.drop c.start).take c.rawDataLen

def dataForPatch (file : Bytes) : Bytes :=
  match c.type with
  | .deflate => c.uncompressedData
  | _ => c.rawData file

def changeDeflateChunkToNormal : ImageChunk :=
  if c.type = .deflate then { c with type := .normal, uncompressedData := [] } else c

/-- `operator==`, for chunks of two files. -/
def same (file otherFile : Bytes) (other : ImageChunk) : Bool :=
  c.type = other.type && c.rawDataLen = other.rawDataLen &&
    c.rawData file = other.rawData otherFile

def isAdjacentNormal (other : ImageChunk) : Bool :=
  c.type = .normal && other.type = .normal && other.start = c.start + c.rawDataLen

def mergeAdjacentNormal (other : ImageChunk) : ImageChunk :=
  { c with rawDataLen := c.rawDataLen + other.rawDataLen }

/-- The level that compresses the data to what the file has. -/
def reconstructDeflateChunk (zlib : Zlib) (file : Bytes) : Option ℕ :=
  if c.type ≠ .deflate then none
  else if zlib.deflate 6 c.uncompressedData = some (c.rawData file) then some 6
  else if zlib.deflate 9 c.uncompressedData = some (c.rawData file) then some 9
  else none

/-- The names under which `FindChunkByName` finds a chunk. -/
def isNamed (name : Text) (findNormal : Bool) : Bool :=
  (c.type = .deflate || findNormal) &&
    (c.entryName = name || name = c.entryName ++ ['-', '0'] || c.entryName = name ++ ['-', '0'])

end ImageChunk

def findChunkByName (chunks : List ImageChunk) (name : Text) (findNormal : Bool) :
    Option ImageChunk :=
  if name = [] then none else chunks.find? fun c => c.isNamed name findNormal

/-- The chunk that `FindChunkByName` points to becomes a normal one. -/
def changeFound (name : Text) : List ImageChunk → List ImageChunk
  | [] => []
  | c :: cs =>
    if c.isNamed name false then c.changeDeflateChunkToNormal :: cs else c :: changeFound name cs

/-- The chunks of a list behind `cur`, which takes in the normal chunks next to it. -/
def mergeNormalFrom (cur : ImageChunk) : List ImageChunk → List ImageChunk
  | [] => [cur]
  | c :: cs =>
    if cur.isAdjacentNormal c then mergeNormalFrom (cur.mergeAdjacentNormal c) cs
    else cur :: mergeNormalFrom c cs

def mergeAdjacentNormalChunks : List ImageChunk → List ImageChunk
  | [] => []
  | c :: cs => mergeNormalFrom c cs

/-- What a position is short of the next multiple of the block size. -/
def residual (start : ℕ) : ℕ :=
  if start % blockSize = 0 then 0 else blockSize - start % blockSize

def alignHead (start length : ℕ) : Option (ℕ × ℕ) :=
  if length ≤ residual start then none else some (start + residual start, length - residual start)

def alignTail (start length : ℕ) : Option (ℕ × ℕ) :=
  if length ≤ (start + length) % blockSize then none
  else some (start, length - (start + length) % blockSize)

/-- `RemoveUsedBlocks`; a head that leaves nothing leaves nothing to the tail either. -/
def removeUsedBlocks (start length : ℕ) (used : SortedRangeSet) : Option (ℕ × ℕ) :=
  if used.overlapsPiece start length = false then some (start, length)
  else
    match alignHead start length with
    | none => none
    | some (start, length) =>
      if used.overlapsPiece start length = false then some (start, length)
      else
        match alignTail start length with
        | none => none
        | some (start, length) =>
          if used.overlapsPiece start length = false then some (start, length) else none

/-- Chunks one behind the other from `a` to `b`, none of them empty. -/
def Contiguous : ℕ → ℕ → List ImageChunk → Prop
  | a, b, [] => a = b
  | a, b, c :: cs => c.start = a ∧ 0 < c.rawDataLen ∧ Contiguous (a + c.rawDataLen) b cs

/-- The next multiple of the block size. -/
def alignUp (start : ℕ) : ℕ := start + residual start

section align

theorem alignUp_spec (start : ℕ) :
    ∃ k, alignUp start = blockSize * k ∧ start ≤ blockSize * k ∧
      blockSize * k < start + blockSize := by
  have hdiv := Nat.div_add_mod start blockSize
  have hlt := Nat.mod_lt start (by decide : 0 < blockSize)
  rw [alignUp, residual]
  by_cases hmod : start % blockSize = 0
  · rw [if_pos hmod]
    exact ⟨start / blockSize, by omega, by omega, by omega⟩
  · rw [if_neg hmod]
    refine ⟨start / blockSize + 1, ?_, ?_, ?_⟩ <;> rw [Nat.mul_succ] <;> omega

theorem alignUp_mod (start : ℕ) : alignUp start % blockSize = 0 := by
  obtain ⟨k, hk, -⟩ := alignUp_spec start
  rw [hk, Nat.mul_mod_right]

theorem le_alignUp (start : ℕ) : start ≤ alignUp start := Nat.le_add_right _ _

theorem alignUp_of_mod {start : ℕ} (h : start % blockSize = 0) : alignUp start = start := by
  rw [alignUp, residual, if_pos h, Nat.add_zero]

theorem alignUp_inside {a b : ℕ} (hab : a ≤ b) (hb : b ≤ alignUp a) : alignUp b = alignUp a := by
  obtain ⟨i, hi, hai, hia⟩ := alignUp_spec a
  obtain ⟨j, hj, hbj, hjb⟩ := alignUp_spec b
  have hsize : blockSize = 4096 := rfl
  rw [hsize] at hi hj hai hia hbj hjb
  omega

theorem alignUp_tail {stop size : ℕ} (hmod : stop % blockSize ≠ 0) (hle : stop ≤ size) :
    stop + min (size - stop) (blockSize - stop % blockSize) = min size (alignUp stop) := by
  rw [alignUp, residual, if_neg hmod]
  omega

theorem alignHead_eq_none {start length : ℕ} :
    alignHead start length = none ↔ start + length ≤ alignUp start := by
  rw [alignHead, alignUp]
  by_cases h : length ≤ residual start
  · rw [if_pos h]
    exact iff_of_true rfl (by omega)
  · rw [if_neg h]
    exact iff_of_false (Option.some_ne_none _) (by omega)

theorem alignHead_eq_some {start length s l : ℕ} :
    alignHead start length = some (s, l) ↔
      alignUp start < start + length ∧ s = alignUp start ∧ s + l = start + length := by
  rw [alignHead, alignUp]
  by_cases h : length ≤ residual start
  · rw [if_pos h]
    exact iff_of_false (Option.some_ne_none _).symm (by omega)
  · rw [if_neg h, Option.some.injEq, Prod.mk.injEq]
    omega

/-- What is left of a piece lies in the piece, and in unused blocks. -/
theorem removeUsedBlocks_spec {start length s l : ℕ} {used : SortedRangeSet} (hlen : 0 < length)
    (h : removeUsedBlocks start length used = some (s, l)) :
    0 < l ∧ start ≤ s ∧ s + l ≤ start + length ∧ used.overlapsPiece s l = false := by
  rw [removeUsedBlocks] at h
  by_cases hfree : used.overlapsPiece start length = false
  · rw [if_pos hfree, Option.some.injEq, Prod.mk.injEq] at h
    obtain ⟨rfl, rfl⟩ := h
    exact ⟨hlen, le_rfl, le_rfl, hfree⟩
  rw [if_neg hfree] at h
  cases hhead : alignHead start length with
  | none =>
    rw [hhead] at h
    cases h
  | some head =>
    obtain ⟨s₁, l₁⟩ := head
    obtain ⟨hlt, hs₁, hend⟩ := alignHead_eq_some.mp hhead
    have hle := le_alignUp start
    rw [hhead] at h
    dsimp only at h
    by_cases hfree₁ : used.overlapsPiece s₁ l₁ = false
    · rw [if_pos hfree₁, Option.some.injEq, Prod.mk.injEq] at h
      obtain ⟨rfl, rfl⟩ := h
      exact ⟨by omega, by omega, hend.le, hfree₁⟩
    rw [if_neg hfree₁, alignTail] at h
    by_cases hshort : l₁ ≤ (s₁ + l₁) % blockSize
    · rw [if_pos hshort] at h
      cases h
    rw [if_neg hshort] at h
    dsimp only at h
    rw [Option.ite_none_right_eq_some] at h
    obtain ⟨hfree₂, h⟩ := h
    rw [Option.some.injEq, Prod.mk.injEq] at h
    obtain ⟨rfl, rfl⟩ := h
    exact ⟨by omega, by omega, by omega, hfree₂⟩

end align

section contiguous
variable {a b : ℕ} {cs ds : List ImageChunk} {c : ImageChunk}

theorem contiguous_append :
    Contiguous a b (cs ++ ds) ↔ ∃ m, Contiguous a m cs ∧ Contiguous m b ds := by
  induction cs generalizing a with
  | nil => exact ⟨fun h => ⟨a, rfl, h⟩, fun ⟨_, hm, h⟩ => hm ▸ h⟩
  | cons c cs ih =>
    rw [List.cons_append, Contiguous, ih]
    constructor
    · rintro ⟨hstart, hlen, m, hcs, hds⟩
      exact ⟨m, ⟨hstart, hlen, hcs⟩, hds⟩
    · rintro ⟨m, ⟨hstart, hlen, hcs⟩, hds⟩
      exact ⟨hstart, hlen, m, hcs, hds⟩

theorem Contiguous.le (h : Contiguous a b cs) : a ≤ b := by
  induction cs generalizing a with
  | nil => exact h.le
  | cons c cs ih =>
    have hrest := ih h.2.2
    omega

theorem Contiguous.mem (h : Contiguous a b cs) (hc : c ∈ cs) :
    0 < c.rawDataLen ∧ a ≤ c.start ∧ c.start + c.rawDataLen ≤ b := by
  induction cs generalizing a with
  | nil => exact absurd hc List.not_mem_nil
  | cons d cs ih =>
    obtain ⟨hstart, hlen, hrest⟩ := h
    have hle := hrest.le
    rcases List.mem_cons.mp hc with rfl | hc
    · omega
    · have := ih hrest hc
      omega

/-- Chunks of a file one behind the other are a piece of the file. -/
theorem Contiguous.rawData {file : Bytes} (h : Contiguous a b cs) (hfile : b ≤ file.length) :
    cs.flatMap (fun c => c.rawData file) = (file.drop a).take (b - a) := by
  induction cs generalizing a with
  | nil =>
    obtain rfl : a = b := h
    rw [Nat.sub_self, List.take_zero]
    rfl
  | cons c cs ih =>
    obtain ⟨hstart, -, hrest⟩ := h
    have hle := hrest.le
    have hsplit : b - a = c.rawDataLen + (b - (a + c.rawDataLen)) := by omega
    rw [List.flatMap_cons, ih hrest, ImageChunk.rawData, hstart, hsplit, List.take_add,
      List.drop_drop]

theorem mergeNormalFrom_contiguous (h : Contiguous a b (c :: cs)) :
    Contiguous a b (mergeNormalFrom c cs) := by
  induction cs generalizing a c with
  | nil => exact h
  | cons d cs ih =>
    obtain ⟨hstart, hlen, hdstart, hdlen, hrest⟩ := h
    rw [mergeNormalFrom]
    split_ifs
    · refine ih ⟨hstart, Nat.add_pos_left hlen _, ?_⟩
      rw [ImageChunk.mergeAdjacentNormal, ← Nat.add_assoc]
      exact hrest
    · exact ⟨hstart, hlen, ih ⟨hdstart, hdlen, hrest⟩⟩

theorem Contiguous.merge (h : Contiguous a b cs) :
    Contiguous a b (mergeAdjacentNormalChunks cs) := by
  cases cs with
  | nil => exact h
  | cons c cs => exact mergeNormalFrom_contiguous h

/-- The merged chunks are normal; the others stay. -/
theorem mem_mergeNormalFrom {d : ImageChunk} (hd : d ∈ mergeNormalFrom c cs) :
    d ∈ c :: cs ∨ d.type = .normal := by
  induction cs generalizing c with
  | nil => exact .inl hd
  | cons e cs ih =>
    rw [mergeNormalFrom] at hd
    split_ifs at hd with hadjacent
    · rcases ih hd with hmem | hnormal
      · rcases List.mem_cons.mp hmem with rfl | hmem
        · refine .inr ?_
          simp only [ImageChunk.isAdjacentNormal, Bool.and_eq_true, decide_eq_true_eq] at hadjacent
          exact hadjacent.1.1
        · exact .inl (List.mem_cons_of_mem c (List.mem_cons_of_mem e hmem))
      · exact .inr hnormal
    · rcases List.mem_cons.mp hd with rfl | hd
      · exact .inl List.mem_cons_self
      · exact (ih hd).imp_left (List.mem_cons_of_mem c)

theorem mem_mergeAdjacentNormalChunks {d : ImageChunk} (hd : d ∈ mergeAdjacentNormalChunks cs) :
    d ∈ cs ∨ d.type = .normal := by
  cases cs with
  | nil => exact absurd hd List.not_mem_nil
  | cons c cs => exact mem_mergeNormalFrom hd

end contiguous

end BootableRecovery.Applypatch
