/-
How long the parts of a chunk are (`common/slice_traits.h`).
-/
import SaunaFS.Chunks.ChunkPart

namespace SaunaFS.Chunks.SliceTraits

/-- `Goal::Slice::Type::kTypeCount`: the types of slices are numbered up to `kECLast` -/
def typeCount : ℕ := 10 + 31 * 32

/-- no value below exceeds an `int` up to the size of a chunk; the difference is cut at 0 as `std::max` does it -/
def chunkLengthToChunkPartLength (p : ChunkPartType) (chunkLength : ℕ) : ℕ :=
  if getNumberOfDataParts p.sliceType = 1 then chunkLength
  else
    let fullStripe := chunkLength / (getNumberOfDataParts p.sliceType * blockSize)
    let baseLen := fullStripe * blockSize
    let base := baseLen * getNumberOfDataParts p.sliceType
    let rest := chunkLength - base
    baseLen + min (rest - dataPartIndex p * blockSize) blockSize

def parts (t : ℕ) : List ChunkPartType := (List.range (expectedParts t)).map (⟨t, ·⟩)

def dataParts (t : ℕ) : List ChunkPartType := (parts t).filter isDataPart

/-! ## Stripes -/

section Stripes

variable {k i : ℕ} (length : ℕ)

def partLength (k i length : ℕ) : ℕ :=
  length / (k * blockSize) * blockSize + min (length % (k * blockSize) - i * blockSize) blockSize

/-- the next byte belongs to the part that its block is dealt to -/
theorem partLength_succ (hi : i < k) :
    partLength k i (length + 1) = partLength k i length + if length / blockSize % k = i then 1 else 0 := by
  have he : (i + 1) * blockSize ≤ k * blockSize := Nat.mul_le_mul_right _ hi
  have hp : 0 < k * blockSize := lt_of_lt_of_le (Nat.mul_pos i.succ_pos (by decide)) he
  have hb : length / blockSize % k = length % (k * blockSize) / blockSize := by
    rw [Nat.mul_comm, Nat.mod_mul_right_div_self]
  have hlt := Nat.mod_lt length hp
  have hs := Nat.mod_add_div length (k * blockSize)
  have hn (q m : ℕ) := (Nat.div_mod_unique (a := length + 1) (c := m) (d := q) hp).2
  rw [hb]
  unfold partLength
  generalize length / (k * blockSize) = q, length % (k * blockSize) = m at *
  by_cases hl : m + 1 = k * blockSize
  · -- the byte is the last one of its stripe
    obtain ⟨hq, hm⟩ := hn (q + 1) 0 ⟨by rw [Nat.mul_succ]; omega, hp⟩
    rw [hq, hm]
    unfold blockSize at *
    split_ifs <;> omega
  · obtain ⟨hq, hm⟩ := hn q (m + 1) ⟨by omega, by omega⟩
    rw [hq, hm]
    unfold blockSize at *
    split_ifs <;> omega

theorem partLength_eq_count (hi : i < k) :
    partLength k i length = Nat.count (fun byte => byte / blockSize % k = i) length := by
  induction length with
  | zero => simp [partLength]
  | succ length ih => rw [partLength_succ length hi, ih, Nat.count_succ]

theorem sum_partLength (hk : 0 < k) : ∑ i ∈ Finset.range k, partLength k i length = length := by
  induction length with
  | zero => simp [partLength]
  | succ length ih =>
    calc ∑ i ∈ Finset.range k, partLength k i (length + 1)
        = ∑ i ∈ Finset.range k, (partLength k i length + if length / blockSize % k = i then 1 else 0) :=
          Finset.sum_congr rfl fun i hi => partLength_succ length (Finset.mem_range.1 hi)
      _ = length + 1 := by
        rw [Finset.sum_add_distrib, ih, Finset.sum_ite_eq, if_pos (Finset.mem_range.2 (Nat.mod_lt _ hk))]

theorem partLength_antitone {j : ℕ} (h : i ≤ j) : partLength k j length ≤ partLength k i length := by
  have := Nat.mul_le_mul_right blockSize h
  unfold partLength
  omega

theorem blocks_partLength (hi : i < k) : (partLength k i length + blockSize - 1) / blockSize =
      ((length + blockSize - 1) / blockSize + (k - i - 1)) / k := by
  have he : (i + 1) * blockSize ≤ k * blockSize := Nat.mul_le_mul_right _ hi
  have hl := Nat.mod_lt length (lt_of_lt_of_le (Nat.mul_pos i.succ_pos (by decide : 0 < blockSize)) he)
  have hs := Nat.mod_add_div length (k * blockSize)
  unfold partLength
  generalize length / (k * blockSize) = q, length % (k * blockSize) = m at *
  -- the blocks of the last stripe
  have hb : (length + blockSize - 1) / blockSize = k * q + (m + blockSize - 1) / blockSize := by
    rw [← hs, Nat.mul_right_comm]
    unfold blockSize
    omega
  rw [hb, Nat.add_assoc (k * q), Nat.mul_add_div (Nat.zero_lt_of_lt hi)]
  by_cases hsh : m ≤ i * blockSize
  · rw [Nat.div_eq_of_lt (b := k)]
    all_goals
      unfold blockSize at *
      omega
  · rw [Nat.div_eq_of_lt_le (n := k) (k := 1)]
    all_goals
      unfold blockSize at *
      omega

end Stripes

/-! ## Slices -/

/-- the data parts of a slice are numbered from 0 on, in the order of the parts -/
theorem map_getDataPartIndex (t : Fin typeCount) :
    (dataParts t).map getDataPartIndex = List.range (getNumberOfDataParts t) := by
  have ht : t.1 < 10 + 31 * 32 := t.2
  unfold dataParts parts getDataPartIndex
  rw [List.filter_map, List.map_map]
  unfold Function.comp isDataPart isParityPart expectedParts
  generalize t.1 = t at *
  rcases lt_or_ge t 10 with hxo | hec
  · rcases lt_or_ge t 2 with ho | hxo'
    · have : isXor t = false ∧ isEC t = false := by
        simp [isXor, isEC]
        omega
      simp [getNumberOfDataParts, this, ho]
    · have hx : isXor t := by
        simp [isXor]
        omega
      simp [getNumberOfDataParts, hx, show ¬t < 2 by omega, hxo, List.range_succ_eq_map, List.filter_map,
        Function.comp_def]
  · have hx : isXor t = false := by
      simp [isXor]
      omega
    have he : isEC t := by
      simp [isEC]
      omega
    have hk : getNumberOfDataParts t = 2 + (t - 10) / 32 := by simp [getNumberOfDataParts, hx, he]
    simp only [hx, he, hk, if_neg (show ¬t < 2 by omega), if_neg (show ¬t < 10 by omega)]
    rw [show 3 + (t - 10) / 32 + (t - 10) % 32 = 2 + (t - 10) / 32 + (1 + (t - 10) % 32) by omega,
      List.range_add, List.filter_append, List.filter_map]
    simp [Function.comp_def]

variable {p : ChunkPartType}

theorem dataPartIndex_lt (t : Fin typeCount) (h : p ∈ parts t) : dataPartIndex p < getNumberOfDataParts t := by
  unfold dataPartIndex
  split_ifs with hd
  · have hp : p ∈ dataParts t := List.mem_filter.2 ⟨h, hd⟩
    rw [← List.mem_range, ← map_getDataPartIndex t]
    exact List.mem_map_of_mem hp
  · exact getNumberOfDataParts_pos t

theorem chunkLengthToChunkPartLength_eq {t : Fin typeCount} (h : p ∈ parts t) {length : ℕ} :
    chunkLengthToChunkPartLength p length = partLength (getNumberOfDataParts t) (dataPartIndex p) length := by
  have hi := dataPartIndex_lt t h
  obtain ⟨_, -, rfl⟩ := List.mem_map.1 h
  unfold chunkLengthToChunkPartLength partLength
  generalize getNumberOfDataParts t = k at *
  split_ifs with ho
  · subst ho
    unfold blockSize
    omega
  · have hs := Nat.mod_add_div length (k * blockSize)
    have hb : length / (k * blockSize) * blockSize * k = k * blockSize * (length / (k * blockSize)) := by ring
    simp only [hb]
    omega

theorem dataPartIndex_of_mem {t : ℕ} (h : p ∈ dataParts t) :
    dataPartIndex p = getDataPartIndex p := if_pos (List.mem_filter.1 h).2

/-- **Part lengths.** The data parts share the bytes of a chunk block by block, a parity part is as long as the first
data part, which is a longest one, and `getNumberOfBlocks` counts the blocks of each part. -/
theorem partLengths_add_up (t : Fin typeCount) (length : ℕ) :
    ((dataParts t).map (chunkLengthToChunkPartLength · length)).sum = length ∧
    (dataParts t).map getDataPartIndex = List.range (getNumberOfDataParts t) ∧
    (∀ p ∈ dataParts t, chunkLengthToChunkPartLength p length =
      Nat.count (fun byte => byte / blockSize % getNumberOfDataParts t = getDataPartIndex p) length) ∧
    (∀ p ∈ parts t, isParityPart p →
      (∀ q ∈ dataParts t, chunkLengthToChunkPartLength q length ≤ chunkLengthToChunkPartLength p length) ∧
      ∃ q ∈ dataParts t, chunkLengthToChunkPartLength q length = chunkLengthToChunkPartLength p length) ∧
    ∀ p ∈ parts t, (chunkLengthToChunkPartLength p length + blockSize - 1) / blockSize =
      getNumberOfBlocks p ((length + blockSize - 1) / blockSize) := by
  have hindex := map_getDataPartIndex t
  have hdata (p) (hp : p ∈ dataParts t) : chunkLengthToChunkPartLength p length =
      partLength (getNumberOfDataParts t) (getDataPartIndex p) length := by
    rw [chunkLengthToChunkPartLength_eq (List.mem_filter.1 hp).1, dataPartIndex_of_mem hp]
  have hpos := getNumberOfDataParts_pos t
  refine ⟨?_, hindex, fun p hp => ?_, fun p hp hparity => ?_, fun p hp => ?_⟩
  · calc ((dataParts t).map (chunkLengthToChunkPartLength · length)).sum
        = (((dataParts t).map getDataPartIndex).map (partLength (getNumberOfDataParts t) · length)).sum := by
          rw [List.map_map]
          exact congrArg List.sum (List.map_congr_left hdata)
      _ = ∑ i ∈ Finset.range (getNumberOfDataParts t), partLength (getNumberOfDataParts t) i length := by
          rw [hindex]
          rfl
      _ = length := sum_partLength length hpos
  · have hi := dataPartIndex_lt t (List.mem_filter.1 hp).1
    rw [dataPartIndex_of_mem hp] at hi
    rw [hdata p hp, partLength_eq_count length hi]
  · have hzero : dataPartIndex p = 0 := by simp [dataPartIndex, isDataPart, hparity]
    rw [chunkLengthToChunkPartLength_eq hp, hzero]
    refine ⟨fun q hq => ?_, ?_⟩
    · rw [hdata q hq]
      exact partLength_antitone length (Nat.zero_le _)
    · have hfirst : 0 ∈ (dataParts t).map getDataPartIndex := hindex ▸ List.mem_range.2 hpos
      obtain ⟨q, hq, hqzero⟩ := List.mem_map.1 hfirst
      exact ⟨q, hq, by rw [hdata q hq, hqzero]⟩
  · have hi := dataPartIndex_lt t hp
    rw [chunkLengthToChunkPartLength_eq hp, blocks_partLength length hi]
    obtain ⟨_, -, rfl⟩ := List.mem_map.1 hp
    rfl

end SaunaFS.Chunks.SliceTraits
