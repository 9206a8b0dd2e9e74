/-
Parts of a chunk as the master records them (`ChunkPart` of `master/chunks.cc`), the types of parts
(`common/chunk_part_type.h`, `common/slice_traits.h`) and the arithmetic of `common/chunk_copies_calculator.cc` that
decides whether the parts on hand still hold the data: `evalRedundancyLevel`, `getState` and `getFullCopiesCount`.

Labels of servers only steer where copies go. They do not enter any of these values and are left out.
-/
import Mathlib.Tactic

namespace SaunaFS

/-- `SFSCHUNKSIZE` -/
def chunkSize : ℕ := 2 ^ 26

/-- `SFSBLOCKSIZE` -/
def blockSize : ℕ := 65536

end SaunaFS

namespace SaunaFS.Chunks

/-! ## Part types -/

/-- `ChunkPartType`: a slice type and the index of the part in the slice -/
structure ChunkPartType where
  sliceType : ℕ
  slicePart : ℕ
deriving DecidableEq

def standardPartType : ChunkPartType := ⟨0, 0⟩

variable (t : ℕ) (parts : List ChunkPartType)

def isStandard : Bool := t == 0

/-- `slice_traits::isXor`: `kXor2 .. kXor9` -/
def isXor : Bool := decide (2 ≤ t ∧ t ≤ 9)

/-- `slice_traits::isEC`: `kECFirst .. kECLast` -/
def isEC : Bool := decide (10 ≤ t ∧ t ≤ 10 + (31 * 32 - 1))

/-- `slice_traits::getNumberOfDataParts`; the xor level is the slice type itself, as `kXor2 = kMinXorLevel` -/
def getNumberOfDataParts : ℕ :=
  if isXor t then t else if isEC t then 2 + (t - 10) / 32 else 1

theorem getNumberOfDataParts_pos : 0 < getNumberOfDataParts t := by
  unfold getNumberOfDataParts isXor isEC
  split_ifs <;> simp_all
  omega

def expectedParts : ℕ :=
  if t < 2 then 1 else if t < 10 then t + 1 else 3 + (t - 10) / 32 + (t - 10) % 32

def isParityPart (p : ChunkPartType) : Bool :=
  if isXor p.sliceType then p.slicePart == 0
  else if isEC p.sliceType then decide (getNumberOfDataParts p.sliceType ≤ p.slicePart)
  else false

def isDataPart (p : ChunkPartType) : Bool := !isParityPart p

def getDataPartIndex (p : ChunkPartType) : ℕ := if isXor p.sliceType then p.slicePart - 1 else p.slicePart

/-- a parity part counts as the first data part -/
def dataPartIndex (p : ChunkPartType) : ℕ := if isDataPart p then getDataPartIndex p else 0

def getNumberOfBlocks (p : ChunkPartType) (blocksInChunk : ℕ) : ℕ :=
  (blocksInChunk + (getNumberOfDataParts p.sliceType - dataPartIndex p - 1)) / getNumberOfDataParts p.sliceType

/-! ## Copies on hand -/

/-- how many copies there are of each part of a slice -/
def partCopies (parts : List ChunkPartType) : List ℕ := (List.range (expectedParts t)).map fun i => parts.count ⟨t, i⟩

/-- the slices that occur among the parts -/
def slices : List ℕ := (parts.map ChunkPartType.sliceType).dedup

/-- `evalSliceRedundancyLevel`; negative if the slice cannot be read -/
def evalSliceRedundancyLevel (t : ℕ) : ℤ :=
  let copies := (partCopies t parts).sum
  let typeCount := (partCopies t parts).countP (0 < ·)
  if isStandard t then copies - 1
  else if isXor t || isEC t then typeCount - getNumberOfDataParts t
  else -1

def evalRedundancyLevel : ℤ := ((slices parts).map fun t => max (evalSliceRedundancyLevel parts t + 1) 0).sum - 1

/-- `isSafeEnoughToWrite`, given the smaller of the target's redundancy level and `REDUNDANCY_LEVEL` -/
def isSafeEnoughToWrite (minRedundantParts : ℤ) : Bool := decide (minRedundantParts ≤ evalRedundancyLevel parts)

inductive AvailabilityState where
  | safe
  | endangered
  | lost
deriving DecidableEq

/-- `ChunkCopiesCalculator::getState`; a chunk without goal counts as safe -/
def getState (hasTarget : Bool) (parts : List ChunkPartType) : AvailabilityState :=
  if !hasTarget || decide (0 < evalRedundancyLevel parts) then .safe
  else if evalRedundancyLevel parts = 0 then .endangered
  else .lost

/-- `getFullCopiesCount` of one slice: copies of a standard slice, the second lowest number of copies of a xor slice,
and of an erasure coded one with `k` data parts the `k`-th highest -/
def sliceFullCopies (t : ℕ) : ℕ :=
  let ascending := (partCopies t parts).insertionSort (· ≤ ·)
  if isStandard t then (partCopies t parts).sum
  else if isXor t then (ascending[1]?).getD 0
  else if isEC t then (ascending.reverse[getNumberOfDataParts t - 1]?).getD 0
  else 0

def getFullCopiesCount : ℕ := ((slices parts).map (sliceFullCopies parts)).sum

/-! ## Recorded parts -/

/-- the states of a part: `TDBUSY` and `TDVALID` are the ones marked for deletion by their server -/
inductive PartState where
  | invalid
  | del
  | busy
  | valid
  | tdbusy
  | tdvalid
deriving DecidableEq

namespace PartState

def isBusy : PartState → Bool
  | busy | tdbusy => true
  | _ => false

def isValid : PartState → Bool
  | invalid | del => false
  | _ => true

def isTodel : PartState → Bool
  | tdvalid | tdbusy => true
  | _ => false

/-- `mark_busy`; like the three below it asserts on the states it leaves alone here -/
def markBusy : PartState → PartState
  | valid => busy
  | tdvalid => tdbusy
  | s => s

def unmarkBusy : PartState → PartState
  | busy => valid
  | tdbusy => tdvalid
  | s => s

def markTodel : PartState → PartState
  | valid => tdvalid
  | busy => tdbusy
  | s => s

def unmarkTodel : PartState → PartState
  | tdvalid => valid
  | tdbusy => busy
  | s => s

variable (s : PartState)

@[simp] theorem isValid_markBusy : s.markBusy.isValid = s.isValid := by cases s <;> rfl

@[simp] theorem isValid_unmarkBusy : s.unmarkBusy.isValid = s.isValid := by cases s <;> rfl

@[simp] theorem isBusy_unmarkBusy : s.unmarkBusy.isBusy = false := by cases s <;> rfl

theorem isBusy_markBusy {s : PartState} (h : s.isValid) : s.markBusy.isBusy := by
  cases s <;> simp_all [isValid, markBusy, isBusy]

theorem isValid_of_isBusy {s : PartState} (h : s.isBusy) : s.isValid := by
  cases s <;> simp_all [isValid, isBusy]

end PartState

structure ChunkPart where
  version : ℕ
  type : ChunkPartType
  csid : ℕ
  state : PartState
deriving DecidableEq

namespace ChunkPart

def isBusy (p : ChunkPart) : Bool := p.state.isBusy

def isValid (p : ChunkPart) : Bool := p.state.isValid

def isTodel (p : ChunkPart) : Bool := p.state.isTodel

def isAt (csid : ℕ) (type : ChunkPartType) (p : ChunkPart) : Bool := p.csid == csid && p.type == type

@[simp] theorem isAt_iff {csid : ℕ} {type : ChunkPartType} {p : ChunkPart} :
    p.isAt csid type ↔ p.csid = csid ∧ p.type = type := by
  simp [isAt]

variable (p : ChunkPart)

/-- where a part is: the pair that is meant to identify it in its chunk -/
def place : ℕ × ChunkPartType := (p.csid, p.type)

def invalidate : ChunkPart := { p with state := .invalid, version := 0 }

def delete : ChunkPart := { p with state := .del }

/-- what the start of an operation does with one part: a valid part becomes busy and gets the new version -/
def begin (newVersion : ℕ) (p : ChunkPart) : ChunkPart :=
  if p.isValid then
    { p with state := if p.isBusy then p.state else p.state.markBusy, version := newVersion }
  else p

@[simp] theorem place_invalidate : p.invalidate.place = p.place := rfl

@[simp] theorem place_delete : p.delete.place = p.place := rfl

@[simp] theorem place_begin (v : ℕ) (p : ChunkPart) : (p.begin v).place = p.place := by
  unfold begin
  split_ifs <;> rfl

@[simp] theorem isValid_invalidate : p.invalidate.isValid = false := rfl

@[simp] theorem isValid_delete : p.delete.isValid = false := rfl

@[simp] theorem isValid_begin {v : ℕ} {p : ChunkPart} : (p.begin v).isValid = p.isValid := by
  unfold begin isValid
  split_ifs <;> simp_all

theorem version_begin {v : ℕ} {p : ChunkPart} (h : p.isValid) : (p.begin v).version = v := by
  unfold begin
  rw [if_pos h]

theorem isBusy_begin {v : ℕ} {p : ChunkPart} (h : p.isValid) : (p.begin v).isBusy := by
  unfold begin isBusy
  rw [if_pos h]
  simp only
  split_ifs with hb
  · exact hb
  · exact PartState.isBusy_markBusy h

theorem isValid_of_isBusy {p : ChunkPart} (h : p.isBusy) : p.isValid := PartState.isValid_of_isBusy h

end ChunkPart

end SaunaFS.Chunks
