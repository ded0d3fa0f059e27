import BootableRecovery.Applypatch.ImageModePatch
import BootableRecovery.Lib.Collapse

namespace BootableRecovery.Applypatch
open Lib

/-! `Image::MergeAdjacentNormalChunks`: the chunks of an image compacted where they lie. -/

namespace MergeChunks

/-- The inner loop: the chunk at `cur` takes in those at `toCheck` and behind that it can. -/
def extend (cur : ℕ) (chunks : List ImageChunk) (toCheck : ℕ) : List ImageChunk × ℕ :=
  if toCheck < chunks.length then
    match chunks[cur]?, chunks[toCheck]? with
    | some c, some other =>
      if c.isAdjacentNormal other then
        extend cur (chunks.set cur (c.mergeAdjacentNormal other)) (toCheck + 1)
      else (chunks, toCheck)
    | _, _ => (chunks, toCheck)
  else (chunks, toCheck)
termination_by chunks.length - toCheck
decreasing_by
  rw [List.length_set]
  omega

/-- What a move leaves of the chunk: its numbers, and nothing of its data and name. -/
def movedFrom (c : ImageChunk) : ImageChunk := { c with uncompressedData := [], entryName := [] }

/-- `chunks_[to] = std::move(chunks_[from])` -/
def move (chunks : List ImageChunk) (source target : ℕ) : List ImageChunk :=
  match chunks[source]? with
  | none => chunks
  | some c => (chunks.set source (movedFrom c)).set target c

/-- The outer loop, and the erasure behind it. `fuel` is the number of chunks from `cur` on. -/
def compact : ℕ → List ImageChunk → ℕ → ℕ → List ImageChunk
  | 0, chunks, mergedLast, _ => chunks.take mergedLast
  | fuel + 1, chunks, mergedLast, cur =>
    if cur < chunks.length then
      let extended := extend cur chunks (cur + 1)
      let chunks := if mergedLast ≠ cur then move extended.1 cur mergedLast else extended.1
      compact fuel chunks (mergedLast + 1) extended.2
    else chunks.take mergedLast

def mergeAdjacentNormalChunks (chunks : List ImageChunk) : List ImageChunk :=
  compact chunks.length chunks 0 0

end MergeChunks

/-! ### The loops come to the merged list -/

theorem mergeNormalFrom_eq (c : ImageChunk) (cs : List ImageChunk) : mergeNormalFrom c cs =
    collapseFrom ImageChunk.isAdjacentNormal ImageChunk.mergeAdjacentNormal c cs := by
  induction cs generalizing c with
  | nil => rfl
  | cons d cs ih => rw [mergeNormalFrom, collapseFrom, ih, ih]

theorem mergeAdjacentNormalChunks_eq (cs : List ImageChunk) : mergeAdjacentNormalChunks cs =
    collapse ImageChunk.isAdjacentNormal ImageChunk.mergeAdjacentNormal cs := by
  cases cs with
  | nil => rfl
  | cons c cs => exact mergeNormalFrom_eq c cs

section loops
variable (done junk taken rest : List ImageChunk) (c : ImageChunk)

/-- The inner loop stops at the first chunk that stays; those it took in lie behind `cur`. -/
theorem extend_spec (before : List ImageChunk) :
    ∃ c' more left, rest = more ++ left ∧
      mergeNormalFrom c rest = c' :: mergeAdjacentNormalChunks left ∧
      MergeChunks.extend before.length (before ++ c :: (taken ++ rest))
          (before.length + 1 + taken.length) =
        (before ++ c' :: (taken ++ rest), before.length + 1 + taken.length + more.length) := by
  induction rest generalizing c taken with
  | nil =>
    refine ⟨c, [], [], rfl, rfl, ?_⟩
    rw [MergeChunks.extend, if_neg]
    · rfl
    · simp
      omega
  | cons d rest ih =>
    have hlt : before.length + 1 + taken.length <
        (before ++ c :: (taken ++ d :: rest)).length := by
      simp
      omega
    have hcur : (before ++ c :: (taken ++ d :: rest))[before.length]? = some c := by simp
    have hnext : (before ++ c :: (taken ++ d :: rest))[before.length + 1 + taken.length]? =
        some d := by
      rw [List.getElem?_append_right (by omega),
        show before.length + 1 + taken.length - before.length = taken.length + 1 by omega,
        List.getElem?_cons_succ, List.getElem?_append_right le_rfl, Nat.sub_self]
      rfl
    rw [MergeChunks.extend, if_pos hlt, hcur, hnext, mergeNormalFrom]
    dsimp only
    by_cases hadjacent : c.isAdjacentNormal d = true
    · obtain ⟨c', more, left, heq, hmerge, hextend⟩ :=
        ih (taken ++ [d]) (c.mergeAdjacentNormal d)
      refine ⟨c', d :: more, left, by rw [heq]; rfl, ?_, ?_⟩
      · rw [if_pos hadjacent, hmerge]
      · have hset : (before ++ c :: (taken ++ d :: rest)).set before.length
            (c.mergeAdjacentNormal d) =
              before ++ c.mergeAdjacentNormal d :: (taken ++ [d] ++ rest) := by simp
        rw [if_pos hadjacent, hset, show before.length + 1 + taken.length + 1 =
          before.length + 1 + (taken ++ [d]).length by simp; omega, hextend]
        simp
        omega
    · refine ⟨c, [], d :: rest, rfl, ?_, ?_⟩
      · rw [if_neg hadjacent]
        rfl
      · rw [if_neg hadjacent]
        rfl

/-- In front of `mergedLast` lies what has been compacted, from there to `cur` what is left over,
and behind that what has not been looked at. -/
theorem compact_spec (fuel : ℕ) (h : rest.length ≤ fuel) :
    MergeChunks.compact fuel (done ++ (junk ++ rest)) done.length (done.length + junk.length) =
      done ++ mergeAdjacentNormalChunks rest := by
  induction fuel generalizing done junk rest with
  | zero =>
    rw [List.length_eq_zero_iff.mp (Nat.le_zero.mp h), MergeChunks.compact]
    simp [mergeAdjacentNormalChunks]
  | succ fuel ih =>
    cases rest with
    | nil =>
      rw [MergeChunks.compact, if_neg (by simp)]
      simp [mergeAdjacentNormalChunks]
    | cons c rest =>
      obtain ⟨c', more, left, rfl, hmerge, hextend⟩ := extend_spec [] rest c (done ++ junk)
      have hleft : left.length ≤ fuel := by
        simp only [List.length_cons, List.length_append] at h
        omega
      rw [List.length_append, List.nil_append, List.length_nil, Nat.add_zero] at hextend
      have hgoal : done ++ mergeAdjacentNormalChunks (c :: (more ++ left)) =
          (done ++ [c']) ++ mergeAdjacentNormalChunks left := by
        rw [List.append_assoc, List.singleton_append, ← hmerge]
        rfl
      rw [MergeChunks.compact, if_pos (by simp), hgoal]
      dsimp only
      rw [← List.append_assoc done junk, hextend]
      dsimp only
      cases junk with
      | nil =>
        have hstep := ih (done ++ [c']) more left hleft
        simpa using hstep
      | cons j junk =>
        have hmove : MergeChunks.move (done ++ j :: junk ++ c' :: (more ++ left))
            (done.length + (j :: junk).length) done.length =
              (done ++ [c']) ++ ((junk ++ MergeChunks.movedFrom c' :: more) ++ left) := by
          have hat : (done ++ j :: junk ++ c' :: (more ++ left))[done.length +
              (j :: junk).length]? = some c' := by
            rw [← List.length_append, List.getElem?_append_right le_rfl, Nat.sub_self]
            rfl
          rw [MergeChunks.move, hat]
          dsimp only
          rw [← List.length_append, List.set_append_right _ _ le_rfl, Nat.sub_self,
            List.set_cons_zero]
          simp
        have hstep := ih (done ++ [c']) (junk ++ MergeChunks.movedFrom c' :: more) left hleft
        have hcur : (done ++ [c']).length + (junk ++ MergeChunks.movedFrom c' :: more).length =
            done.length + (j :: junk).length + 1 + more.length := by
          simp
          omega
        rw [hcur] at hstep
        rw [if_pos (by simp), hmove, ← hstep]
        simp

end loops

theorem compact_eq (cs : List ImageChunk) :
    MergeChunks.mergeAdjacentNormalChunks cs = mergeAdjacentNormalChunks cs := by
  have h := compact_spec [] [] cs cs.length le_rfl
  simpa [MergeChunks.mergeAdjacentNormalChunks] using h

/-- The positions that the chunks cover, in their order. -/
def covered (cs : List ImageChunk) : List ℕ :=
  cs.flatMap fun c => List.range' c.start c.rawDataLen

/-- What is kept, and that no more can be merged. -/
structure Merged (cs ms : List ImageChunk) : Prop where
  bytes : covered ms = covered cs
  data : ∀ file, ms.flatMap (fun c => c.rawData file) = cs.flatMap fun c => c.rawData file
  tiles : ∀ a b, Tiles a b cs → Tiles a b ms
  others : ms.filter (fun c => c.type ≠ .normal) = cs.filter fun c => c.type ≠ .normal
  apart : ms.IsChain fun c d => c.isAdjacentNormal d = false
  idempotent : MergeChunks.mergeAdjacentNormalChunks ms = ms

section merged
variable {a b : ImageChunk}

theorem isAdjacentNormal_eq_true : a.isAdjacentNormal b = true ↔
    a.type = .normal ∧ b.type = .normal ∧ b.start = a.start + a.rawDataLen := by
  simp [ImageChunk.isAdjacentNormal, and_assoc]

theorem leftMerge : LeftMerge ImageChunk.isAdjacentNormal ImageChunk.mergeAdjacentNormal :=
  fun _ _ _ => rfl

theorem rawData_merge (file : Bytes) (h : a.isAdjacentNormal b = true) :
    (a.mergeAdjacentNormal b).rawData file = a.rawData file ++ b.rawData file := by
  have hstart := (isAdjacentNormal_eq_true.mp h).2.2
  simp only [ImageChunk.rawData, ImageChunk.mergeAdjacentNormal]
  rw [List.take_add, List.drop_drop, hstart]

theorem range_merge (h : a.isAdjacentNormal b = true) :
    List.range' (a.mergeAdjacentNormal b).start (a.mergeAdjacentNormal b).rawDataLen =
      List.range' a.start a.rawDataLen ++ List.range' b.start b.rawDataLen := by
  have hstart := (isAdjacentNormal_eq_true.mp h).2.2
  simp only [ImageChunk.mergeAdjacentNormal]
  rw [hstart, List.range'_append_1]

end merged

/-- Merging where the chunks lie covers the same bytes in the same order, keeps all other chunks
and leaves nothing to merge. -/
theorem mergeAdjacentNormalChunks_merged (cs : List ImageChunk) :
    Merged cs (MergeChunks.mergeAdjacentNormalChunks cs) := by
  have hspec : ∀ ds, MergeChunks.mergeAdjacentNormalChunks ds =
      collapse ImageChunk.isAdjacentNormal ImageChunk.mergeAdjacentNormal ds := fun ds =>
    (compact_eq ds).trans (mergeAdjacentNormalChunks_eq ds)
  rw [hspec]
  refine ⟨?_, ?_, ?_, ?_, ?_, ?_⟩
  · exact collapse_flatMap (fun _ _ h => range_merge h) cs
  · exact fun file => collapse_flatMap (fun _ _ h => rawData_merge file h) cs
  · intro s t h
    rw [← mergeAdjacentNormalChunks_eq]
    exact h.merge
  · apply collapse_filter
    intro c d h
    obtain ⟨hc, hd, -⟩ := isAdjacentNormal_eq_true.mp h
    simp [hc, hd, ImageChunk.mergeAdjacentNormal]
  · exact collapse_chain leftMerge cs
  · rw [hspec]
    exact collapse_idem leftMerge cs

end BootableRecovery.Applypatch
