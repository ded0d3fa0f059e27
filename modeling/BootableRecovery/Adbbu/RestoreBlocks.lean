import BootableRecovery.Adbbu.BackupStream
import BootableRecovery.Adbbu.Restore

namespace BootableRecovery.Adbbu

/-! The stream of a file as the blocks that `restore` reads. -/

/-- The data blocks of a chunk. -/
def chunkBlocks : ℕ := 2047

/-- A list of blocks of the size that `restore` reads. -/
def Whole (blocks : List Bytes) : Prop := ∀ b ∈ blocks, b.length = maxAdbRead

theorem blocksOf_cons {block : Bytes} (h : block.length = maxAdbRead) (rest : Bytes) :
    blocksOf (block ++ rest) = block :: blocksOf rest := by
  have hne : block ++ rest ≠ [] := List.append_ne_nil_of_left_ne_nil
    (List.ne_nil_of_length_pos (by rw [h]; decide)) rest
  rw [blocksOf, dif_neg hne, List.take_left' h, List.drop_left' h]

theorem blocksOf_flatten {blocks : List Bytes} (h : Whole blocks) (rest : Bytes) :
    blocksOf (blocks.flatten ++ rest) = blocks ++ blocksOf rest := by
  induction blocks with
  | nil => rfl
  | cons block blocks ih =>
    rw [List.flatten_cons, List.append_assoc, blocksOf_cons (h block List.mem_cons_self),
      ih fun b hb => h b (List.mem_cons_of_mem _ hb), List.cons_append]

theorem flatten_length {blocks : List Bytes} (h : Whole blocks) :
    blocks.flatten.length = maxAdbRead * blocks.length := by
  induction blocks with
  | nil => rfl
  | cons block blocks ih =>
    rw [List.flatten_cons, List.length_append, h block List.mem_cons_self,
      ih fun b hb => h b (List.mem_cons_of_mem _ hb), List.length_cons, Nat.mul_succ, Nat.add_comm]

/-- A text of `n` blocks. -/
theorem exists_blocks {l : Bytes} {n : ℕ} (h : l.length = maxAdbRead * n) :
    ∃ blocks : List Bytes, blocks.length = n ∧ Whole blocks ∧ blocks.flatten = l := by
  induction n generalizing l with
  | zero => exact ⟨[], rfl, fun _ hb => absurd hb List.not_mem_nil,
      (List.eq_nil_of_length_eq_zero h).symm⟩
  | succ n ih =>
    rw [Nat.mul_succ] at h
    obtain ⟨blocks, hlen, hwhole, hflat⟩ :=
      @ih (l.drop maxAdbRead) (by rw [List.length_drop]; omega)
    refine ⟨l.take maxAdbRead :: blocks, by rw [List.length_cons, hlen], fun b hb => ?_, ?_⟩
    · rcases List.mem_cons.mp hb with rfl | hb
      · rw [List.length_take]
        omega
      · exact hwhole b hb
    · rw [List.flatten_cons, hflat, List.take_append_drop]

/-- The block at `m` of a text that is cut into blocks. -/
theorem take_drop_flatten {blocks : List Bytes} (h : Whole blocks) {m : ℕ} {block : Bytes}
    (hm : blocks[m]? = some block) (rest : Bytes) :
    ((blocks.flatten ++ rest).drop (maxAdbRead * m)).take maxAdbRead = block := by
  induction blocks generalizing m with
  | nil => cases hm
  | cons first blocks ih =>
    have hfirst := h first List.mem_cons_self
    rw [List.flatten_cons, List.append_assoc]
    cases m with
    | zero =>
      rw [List.getElem?_cons_zero] at hm
      rw [Nat.mul_zero, List.drop_zero, List.take_left' hfirst]
      exact Option.some.inj hm
    | succ m =>
      rw [List.getElem?_cons_succ] at hm
      rw [Nat.mul_succ, Nat.add_comm, ← List.drop_drop, List.drop_left' hfirst]
      exact ih (fun b hb => h b (List.mem_cons_of_mem _ hb)) hm

variable (sums : Checksums) (f : AdbFile)

/-- The padding fills the last chunk. -/
theorem padding_eq : f.padding sums =
    if f.payload.length % chunkData = 0 then 0
    else chunkData - f.payload.length % chunkData := by
  have hdata : 0 < chunkData := by decide
  have hheader : (dataHeader sums).length = maxAdbRead := controlBlock_length sums TWDATA
  obtain ⟨q, r, hr, hlen⟩ : ∃ q r, r < chunkData ∧ f.payload.length = r + chunkData * q :=
    ⟨_, _, Nat.mod_lt _ hdata, (Nat.mod_add_div f.payload.length chunkData).symm⟩
  rw [AdbFile.padding, framedPayload, Lib.framed_length hdata, hheader, hlen,
    Nat.add_mul_mod_self_left, Nat.mod_eq_of_lt hr, Lib.frameCount]
  change paddingBytes (r + 1048064 * q + 512 * ((r + 1048064 * q + 1048064 - 1) / 1048064)) =
    if r = 0 then 0 else 1048064 - r
  rw [chunkData_eq] at hr
  rcases Nat.eq_zero_or_pos r with hzero | hpos
  · have hcount : (r + 1048064 * q + 1048064 - 1) / 1048064 = q := by omega
    have hfull : (r + 1048064 * q + 512 * q) % dataMaxChunkSize = 0 := by
      change _ % 1048576 = 0
      omega
    rw [hcount, if_pos hzero, paddingBytes, if_neg (not_not.mpr hfull)]
  · have hcount : (r + 1048064 * q + 1048064 - 1) / 1048064 = q + 1 := by omega
    have hrest : (r + 1048064 * q + 512 * (q + 1)) % dataMaxChunkSize ≠ 0 := by
      change _ % 1048576 ≠ 0
      omega
    rw [hcount, if_neg (by omega), paddingBytes, if_pos hrest]
    change (_ / 1048576 + 1) * 1048576 - _ = _
    omega

/-- The payload and its padding. -/
def AdbFile.padded : Bytes := f.payload ++ zeros (f.padding sums)

theorem padded_length_mod : (f.padded sums).length % chunkData = 0 := by
  have hlt := Nat.mod_lt f.payload.length (by decide : 0 < chunkData)
  rw [AdbFile.padded, List.length_append, zeros, List.length_replicate, padding_eq]
  split_ifs with h
  · exact h
  · rw [← Nat.mod_add_mod, Nat.add_sub_cancel' hlt.le, Nat.mod_self]

theorem framedPayload_padded :
    framedPayload sums f.payload ++ zeros (f.padding sums) =
      framedPayload sums (f.padded sums) := by
  have hlt := Nat.mod_lt f.payload.length (by decide : 0 < chunkData)
  rw [AdbFile.padded]
  rcases Nat.eq_zero_or_pos (f.padding sums) with hzero | hpos
  · rw [hzero]
    exact (List.append_nil _).trans (congrArg _ (List.append_nil _).symm)
  · rw [framedPayload_append]
    · rw [if_neg, List.nil_append]
      intro hmod
      rw [padding_eq, if_pos hmod] at hpos
      exact absurd hpos (lt_irrefl 0)
    · refine List.ne_nil_of_length_pos ?_
      rwa [zeros, List.length_replicate]
    · rw [zeros, List.length_replicate, padding_eq]
      split_ifs <;> omega

/-- Framed text of whole chunks: each chunk is a header and its data blocks. -/
theorem exists_chunks {n : ℕ} {l : Bytes} (h : l.length = chunkData * n) :
    ∃ chunks : List (List Bytes), (∀ chunk ∈ chunks, chunk.length = chunkBlocks ∧ Whole chunk) ∧
      chunks.flatten.flatten = l ∧
      framedPayload sums l = (chunks.flatMap fun chunk => dataHeader sums :: chunk).flatten := by
  induction n generalizing l with
  | zero =>
    obtain rfl := List.eq_nil_of_length_eq_zero h
    exact ⟨[], fun _ hc => absurd hc List.not_mem_nil, rfl, rfl⟩
  | succ n ih =>
    rw [Nat.mul_succ] at h
    obtain ⟨chunks, hchunks, hflat, hframed⟩ :=
      @ih (l.drop chunkData) (by rw [List.length_drop]; omega)
    have htake : (l.take chunkData).length = chunkData := by
      rw [List.length_take]
      omega
    obtain ⟨chunk, hlen, hwhole, hchunk⟩ : ∃ blocks : List Bytes, blocks.length = chunkBlocks ∧
        Whole blocks ∧ blocks.flatten = l.take chunkData := exists_blocks htake
    refine ⟨chunk :: chunks, fun c hc => ?_, ?_, ?_⟩
    · rcases List.mem_cons.mp hc with rfl | hc
      · exact ⟨hlen, hwhole⟩
      · exact hchunks c hc
    · rw [List.flatten_cons, List.flatten_append, hchunk, hflat, List.take_append_drop]
    · rw [List.flatMap_cons, List.flatten_append, List.flatten_cons, ← hframed, hchunk]
      conv_lhs => rw [← List.take_append_drop chunkData l]
      rw [framedPayload, Lib.framed_append_full (by decide) htake]
      rfl

/-- The blocks of the stream of a file. -/
theorem blocksOf_backedUp (rest : Bytes) :
    ∃ chunks : List (List Bytes), (∀ chunk ∈ chunks, chunk.length = chunkBlocks ∧ Whole chunk) ∧
      chunks.flatten.flatten = f.padded sums ∧
      blocksOf (backedUp sums f ++ rest) =
        f.header sums :: ((chunks.flatMap fun chunk => dataHeader sums :: chunk) ++
          md5Trailer sums (headerSize (f.header sums)) (f.padded sums) :: blocksOf rest) := by
  obtain ⟨n, hn⟩ := Nat.dvd_of_mod_eq_zero (padded_length_mod sums f)
  obtain ⟨chunks, hchunks, hflat, hframed⟩ := exists_chunks sums hn
  refine ⟨chunks, hchunks, hflat, ?_⟩
  have hwhole : Whole (chunks.flatMap fun chunk => dataHeader sums :: chunk) := by
    intro b hb
    obtain ⟨chunk, hchunk, hb⟩ := List.mem_flatMap.mp hb
    rcases List.mem_cons.mp hb with rfl | hb
    · exact controlBlock_length sums TWDATA
    · exact (hchunks chunk hchunk).2 b hb
  have hstream : backedUp sums f ++ rest = f.header sums ++
      ((chunks.flatMap fun chunk => dataHeader sums :: chunk).flatten ++
        (md5Trailer sums (headerSize (f.header sums)) (f.padded sums) ++ rest)) := by
    rw [← hframed, ← framedPayload_padded, backedUp, fileStream, AdbFile.padded]
    simp only [List.append_assoc]
  rw [hstream, blocksOf_cons (header_length sums f), blocksOf_flatten hwhole,
    blocksOf_cons (md5Trailer_length sums _ _)]

end BootableRecovery.Adbbu
