/-
A block of the pool of numbers: one bit for each number, set while the number is available (`detail::IdPoolBlock` of
`common/id_pool.h`). The packs of bits are released when all numbers of the block are available, and when none is.

What a block stands for is the set `free` of the numbers it has available. Every function is described by what it does
to this set: `acquire_spec`, `markAsAcquired_spec`, `release_spec`.
-/
import Mathlib.Data.Finset.Card
import Mathlib.Tactic

namespace SaunaFS.Inodes

open BitVec Finset List Nat Option

/-! ## Packs of bits -/

/-- the bit `1 << bit` of a pack -/
def packMask (bit : ℕ) : BitVec 64 := 1#64 <<< bit

def testData (data : List (BitVec 64)) (id : ℕ) : Bool := data.getD (id / 64) 0 &&& packMask (id % 64) ≠ 0

/-- the table of `ffs` for the last four bits -/
def ffsTable : List ℤ := [-60, 1, 2, 1, 3, 1, 2, 1, 4, 1, 2, 1, 3, 1, 2, 1]

/-- one round of the loop of `ffs`: the lower half is empty, or the upper one does not matter -/
def ffsStep (p : BitVec 64 × ℕ) (bitTest : ℕ) : BitVec 64 × ℕ :=
  if p.1 &&& (1#64 <<< bitTest - 1#64) = 0#64 then (p.1 >>> bitTest, p.2 + bitTest) else p

/-- `ffs`: the position of a set bit, counted from 1 -/
def ffs (r : BitVec 64) : ℤ :=
  let p := [32, 16, 8, 4].foldl ffsStep (r, 0)
  p.2 + ffsTable.getD (p.1 &&& 0xf#64).toNat 0

variable {bit i id k : ℕ} {data : List (BitVec 64)}

theorem getLsbD_packMask (hb : bit < 64) : (packMask bit).getLsbD i = decide (bit = i) := by
  change (twoPow 64 bit).getLsbD i = _
  simp [hb]

variable {r : BitVec 64}

theorem and_packMask_ne_zero : r &&& packMask bit ≠ 0 ↔ r.getLsbD bit := by
  change r &&& twoPow 64 bit ≠ 0 ↔ _
  rw [and_twoPow]
  split_ifs with h
  · have hb := lt_of_getLsbD h
    refine iff_of_true (fun h0 => ?_) h
    have := congrArg (fun x => x.getLsbD bit) h0
    simp [hb] at this
  · simp [h]

theorem testData_eq : testData data id = (data.getD (id / 64) 0).getLsbD (id % 64) := by
  rw [Bool.eq_iff_iff, testData, decide_eq_true_iff, and_packMask_ne_zero]

/-- the lower `k` bits are not all zero -/
def LowBits (r : BitVec 64) (k : ℕ) : Prop := ∃ i < k, r.getLsbD i = true

theorem getLsbD_lowMask (hk : k < 64) : (1#64 <<< k - 1#64).getLsbD i = decide (i < k) := by
  have hm : (1#64 <<< k - 1#64).toNat = 2 ^ k - 1 := by
    have hl : 2 ^ k < 2 ^ 64 := Nat.pow_lt_pow_right (by omega) hk
    have hp : 0 < 2 ^ k := Nat.two_pow_pos k
    rw [toNat_sub, toNat_shiftLeft]
    simp only [BitVec.toNat_ofNat, Nat.shiftLeft_eq]
    omega
  rw [getLsbD, hm, testBit_two_pow_sub_one]

theorem and_low_eq_zero (hk : k < 64) : r &&& (1#64 <<< k - 1#64) = 0#64 ↔ ¬ LowBits r k := by
  constructor
  · rintro h ⟨i, hi, hr⟩
    have := congrArg (fun x => x.getLsbD i) h
    simp [getLsbD_lowMask hk, hi, hr] at this
  · intro h
    refine eq_of_getLsbD_eq fun i hi => ?_
    rw [getLsbD_and, getLsbD_lowMask hk, getLsbD_zero]
    by_cases hik : i < k
    · rw [Bool.eq_false_iff.2 fun hr => h ⟨i, hik, hr⟩, Bool.false_and]
    · rw [decide_eq_false hik, Bool.and_false]

theorem ffsStep_spec {p : BitVec 64 × ℕ} (hk : k < 64) (hs : p.1 = r >>> p.2)
    (hl : LowBits p.1 (2 * k)) : (ffsStep p k).1 = r >>> (ffsStep p k).2 ∧ LowBits (ffsStep p k).1 k := by
  unfold ffsStep
  split_ifs with h
  · refine ⟨by rw [hs, BitVec.shiftRight_add], ?_⟩
    obtain ⟨i, hi, hr⟩ := hl
    have hki : k ≤ i := by
      by_contra hlt
      exact (and_low_eq_zero hk).1 h ⟨i, by omega, hr⟩
    refine ⟨i - k, by omega, ?_⟩
    rw [getLsbD_ushiftRight]
    rwa [Nat.add_sub_cancel' hki]
  · exact ⟨hs, not_not.1 fun hn => h ((and_low_eq_zero hk).2 hn)⟩

theorem ffsTable_spec : ∀ n < 16, n ≠ 0 → ∃ i : ℕ, ffsTable.getD n 0 = i + 1 ∧ n.testBit i := by
  intro n hn h0
  interval_cases n
  · exact absurd rfl h0
  all_goals first | exact ⟨0, rfl, rfl⟩ | exact ⟨1, rfl, rfl⟩ | exact ⟨2, rfl, rfl⟩ | exact ⟨3, rfl, rfl⟩

/-- **`ffs`** finds a bit that is set -/
theorem ffs_spec (h : r ≠ 0#64) : ∃ i : ℕ, ffs r = i + 1 ∧ i < 64 ∧ r.getLsbD i := by
  have h64 : LowBits r 64 := by
    by_contra hn
    refine h (eq_of_getLsbD_eq fun i hi => ?_)
    rw [getLsbD_zero, Bool.eq_false_iff]
    exact fun hr => hn ⟨i, hi, hr⟩
  obtain ⟨s32, h32⟩ := ffsStep_spec (r := r) (p := (r, 0)) (k := 32) (by decide) rfl h64
  obtain ⟨s16, h16⟩ := ffsStep_spec (k := 16) (by decide) s32 h32
  obtain ⟨s8, h8⟩ := ffsStep_spec (k := 8) (by decide) s16 h16
  obtain ⟨s4, h4⟩ := ffsStep_spec (k := 4) (by decide) s8 h8
  unfold ffs
  simp only [foldl_cons, foldl_nil]
  generalize ffsStep (ffsStep (ffsStep (ffsStep (r, 0) 32) 16) 8) 4 = p at s4 h4
  have hn : (p.1 &&& 0xf#64).toNat = p.1.toNat % 16 := by
    exact and_two_pow_sub_one_eq_mod p.1.toNat 4
  have hne : p.1.toNat % 16 ≠ 0 := by
    obtain ⟨i, hi, hp⟩ := h4
    intro h0
    have : (p.1.toNat % 2 ^ 4).testBit i := by
      rw [Nat.testBit_mod_two_pow, decide_eq_true hi, Bool.true_and]
      exact hp
    rw [show p.1.toNat % 2 ^ 4 = 0 from h0, zero_testBit] at this
    cases this
  obtain ⟨i, ht, hb⟩ := ffsTable_spec _ (mod_lt _ (by decide)) hne
  have hp : p.1.getLsbD i := by
    rw [show p.1.toNat % 16 = p.1.toNat % 2 ^ 4 from rfl, Nat.testBit_mod_two_pow] at hb
    exact (Bool.and_eq_true_iff.1 hb).2
  rw [s4, getLsbD_ushiftRight] at hp
  refine ⟨p.2 + i, ?_, lt_of_getLsbD hp, hp⟩
  rw [hn, ht]
  push_cast
  ring

theorem testData_modify (hid : id / 64 < data.length) {f : BitVec 64 → BitVec 64}
    {g : Bool → Bool} (hf : ∀ r i, (f r).getLsbD i = if i = id % 64 then g (r.getLsbD i) else r.getLsbD i) (j : ℕ) :
    testData (data.modify (id / 64) f) j = if j = id then g (testData data j) else testData data j := by
  rw [testData_eq, testData_eq, getD_eq_getElem?_getD, getD_eq_getElem?_getD, getElem?_modify]
  by_cases hp : id / 64 = j / 64
  · have hj : j / 64 < data.length := hp ▸ hid
    have hi : j % 64 = id % 64 ↔ j = id := by omega
    simp only [if_pos hp, List.getElem?_eq_getElem hj, Option.map_eq_map, Option.map_some, Option.getD_some, hf, hi]
  · have hn : j ≠ id := fun he => hp (he ▸ rfl)
    simp only [if_neg hp, if_neg hn, Option.map_eq_map, Option.map_id']

/-! ## Model -/

structure IdPoolBlock where
  data : List (BitVec 64)
  maxSize : ℕ
  freeCount : ℕ
  nextPack : ℕ
deriving DecidableEq

namespace IdPoolBlock

variable {b : IdPoolBlock} {id : ℕ}

/-- the constructor -/
def new (size : ℕ) : IdPoolBlock := ⟨[], size, size, 0⟩

/-- the packs that `allocBlock` makes for a block with all numbers, or with none -/
def packs (maxSize : ℕ) (full : Bool) : List (BitVec 64) :=
  let rsize := (maxSize + 63) / 64
  let lastBits := maxSize % 64
  if full then
    if 0 < lastBits then (List.replicate rsize (allOnes 64)).set (rsize - 1) (1#64 <<< lastBits - 1#64)
    else List.replicate rsize (allOnes 64)
  else List.replicate rsize 0#64

def allocBlock (b : IdPoolBlock) (full : Bool) : IdPoolBlock :=
  { b with data := packs b.maxSize full, nextPack := if full then 0 else b.nextPack }

/-- `data_.clear()` when nothing is left, or everything -/
def clearIf (b : IdPoolBlock) (count : ℕ) : IdPoolBlock := if b.freeCount = count then { b with data := [] } else b

def checkIfAvailable (b : IdPoolBlock) (id : ℕ) : Bool :=
  if b.data.length = 0 then 0 < b.freeCount else testData b.data id

/-- the search in `acquire`: each pack is visited once, from `next_pack_` on; nothing is found where the source
throws -/
def searchPack (data : List (BitVec 64)) (start : ℕ) : Option ℕ :=
  ((List.range data.length).map fun i => (start + i) % data.length).find? fun pack => data.getD pack 0 ≠ 0#64

/-- `acquire`; there is no outcome where an assertion fails or the source throws -/
def acquire (b : IdPoolBlock) : Option (ℕ × IdPoolBlock) :=
  let b := if 0 < b.freeCount ∧ b.data.length = 0 then b.allocBlock true else b
  if b.freeCount = 0 then none
  else
    (searchPack b.data b.nextPack).map fun pack =>
      let p := (ffs (b.data.getD pack 0) - 1).toNat
      let b := { b with
        data := b.data.modify pack (· ^^^ packMask p)
        freeCount := b.freeCount - 1
        nextPack := pack }
      (pack * 64 + p, b.clearIf 0)

/-- `markAsAcquired`; there is no outcome where the assertion fails -/
def markAsAcquired (b : IdPoolBlock) (id : ℕ) : Option (Bool × IdPoolBlock) :=
  if b.maxSize ≤ id then none
  else if b.data.length = 0 ∧ b.freeCount = 0 then some (false, b)
  else
    let b := if b.data.length = 0 then b.allocBlock true else b
    if testData b.data id then
      some (true, { b with
        data := b.data.modify (id / 64) (· ^^^ packMask (id % 64))
        freeCount := b.freeCount - 1 }.clearIf 0)
    else some (false, b)

def release (b : IdPoolBlock) (id : ℕ) : Bool × IdPoolBlock :=
  if b.data.length = 0 ∧ 0 < b.freeCount then (false, b)
  else
    let b := if b.data.length = 0 then b.allocBlock false else b
    if testData b.data id then (false, b)
    else
      (true, { b with
        data := b.data.modify (id / 64) (· ||| packMask (id % 64))
        nextPack := if b.freeCount = 0 then id / 64 else b.nextPack
        freeCount := b.freeCount + 1 }.clearIf b.maxSize)

/-! ## What a block stands for -/

/-- the numbers that are available -/
def free (b : IdPoolBlock) : Finset ℕ := (Finset.range b.maxSize).filter fun id => b.checkIfAvailable id

theorem mem_free : id ∈ b.free ↔ id < b.maxSize ∧ b.checkIfAvailable id := by
  rw [free, Finset.mem_filter, Finset.mem_range]

/-- the packs, where there are any, hold the set and nothing else -/
structure Valid (b : IdPoolBlock) : Prop where
  pos : 0 < b.maxSize
  count : b.freeCount = b.free.card
  packed : b.data.length ≠ 0 → b.data.length = (b.maxSize + 63) / 64 ∧ ∀ id, b.maxSize ≤ id → testData b.data id = false
  next : b.data.length ≠ 0 → 0 < b.freeCount → b.nextPack < b.data.length

variable {maxSize bit : ℕ} {full : Bool}

theorem length_packs : (packs maxSize full).length = (maxSize + 63) / 64 := by
  unfold packs
  dsimp only
  split_ifs <;> simp

theorem testData_packs_full : testData (packs maxSize true) id = decide (id < maxSize) := by
  rw [testData_eq, getD_eq_getElem?_getD]
  unfold packs
  rw [if_pos rfl]
  split_ifs with hl
  · rw [getElem?_set, length_replicate, List.getElem?_replicate]
    by_cases hp : (maxSize + 63) / 64 - 1 = id / 64
    · rw [if_pos hp, if_pos (by omega), getD_some, getLsbD_lowMask (mod_lt _ (by decide))]
      exact decide_eq_decide.2 (by omega)
    · rw [if_neg hp]
      split_ifs with hi
      · rw [getD_some, getLsbD_allOnes]
        exact decide_eq_decide.2 (by omega)
      · rw [getD_none]
        exact getLsbD_zero.trans (decide_eq_false (by omega : ¬ id < maxSize)).symm
  · rw [List.getElem?_replicate]
    split_ifs with hi
    · rw [getD_some, getLsbD_allOnes]
      exact decide_eq_decide.2 (by omega)
    · rw [getD_none]
      exact getLsbD_zero.trans (decide_eq_false (by omega : ¬ id < maxSize)).symm

theorem testData_packs_empty : testData (packs maxSize false) id = false := by
  rw [testData_eq, getD_eq_getElem?_getD]
  unfold packs
  rw [if_neg Bool.false_ne_true, List.getElem?_replicate]
  split_ifs <;> exact getLsbD_zero

theorem testData_packs : testData (packs maxSize full) id = (full && decide (id < maxSize)) := by
  cases full with
  | false => exact testData_packs_empty
  | true => exact (testData_packs_full).trans (Bool.true_and _).symm

theorem valid_new {size : ℕ} (h : 0 < size) : (new size).Valid where
  pos := h
  count := by
    have ha : (new size).free = Finset.range size := filter_true_of_mem fun _ _ => decide_eq_true (p := 0 < size) h
    rw [ha, card_range]
    rfl
  packed := fun hn => absurd rfl hn
  next := fun hn => absurd rfl hn

theorem Valid.alloc (h : b.Valid) (h0 : b.data.length = 0) (hfu : full = decide (0 < b.freeCount)) :
    (b.allocBlock full).Valid ∧ (b.allocBlock full).free = b.free ∧ (b.allocBlock full).data.length ≠ 0 := by
  have hl : (b.allocBlock full).data.length = (b.maxSize + 63) / 64 := length_packs
  have hp := h.pos
  have hn : (b.allocBlock full).data.length ≠ 0 := by omega
  have ha (id : ℕ) : (b.allocBlock full).checkIfAvailable id = (full && decide (id < b.maxSize)) := by
    unfold checkIfAvailable
    rw [if_neg hn]
    exact testData_packs
  have hf : (b.allocBlock full).free = b.free := by
    refine filter_congr fun id hi => ?_
    have hlt : id < b.maxSize := Finset.mem_range.1 hi
    rw [ha, decide_eq_true hlt, Bool.and_true, hfu]
    unfold checkIfAvailable
    rw [if_pos h0]
  refine ⟨⟨h.pos, h.count.trans (congrArg _ hf.symm), fun _ => ⟨hl, fun id hi => ?_⟩, fun _ hc => ?_⟩, hf, hn⟩
  · exact (testData_packs).trans (by rw [decide_eq_false (by exact Nat.not_lt.2 hi), Bool.and_false])
  · have ht : full := hfu.trans (decide_eq_true hc)
    change (if full then 0 else b.nextPack) < _
    rw [ht, if_pos rfl, ← ht]
    omega

theorem Valid.modify {f : BitVec 64 → BitVec 64} {g : Bool → Bool} {s : Finset ℕ} {next : ℕ} (h : b.Valid)
    (hd : b.data.length ≠ 0) (hi : id < b.maxSize)
    (hf : ∀ r i, (f r).getLsbD i = if i = id % 64 then g (r.getLsbD i) else r.getLsbD i)
    (hs : ∀ j, j ∈ s ↔ if j = id then g (testData b.data j) = true else j ∈ b.free) (hn : next < b.data.length) :
    (⟨b.data.modify (id / 64) f, b.maxSize, s.card, next⟩ : IdPoolBlock).Valid ∧
      (⟨b.data.modify (id / 64) f, b.maxSize, s.card, next⟩ : IdPoolBlock).free = s := by
  have hl : (b.data.modify (id / 64) f).length = b.data.length := length_modify f b.data (id / 64)
  have hp : id / 64 < b.data.length := by
    rw [(h.packed hd).1]
    omega
  have ht := testData_modify hp hf
  have hfr : (⟨b.data.modify (id / 64) f, b.maxSize, s.card, next⟩ : IdPoolBlock).free = s := by
    ext j
    rw [mem_free, hs]
    unfold checkIfAvailable
    rw [if_neg (hl.symm ▸ hd), ht]
    split_ifs with hj
    · exact and_iff_right (hj ▸ hi)
    · rw [mem_free, checkIfAvailable, if_neg hd]
  refine ⟨⟨h.pos, (congrArg Finset.card hfr).symm, fun _ => ⟨hl.trans (h.packed hd).1, fun j hj => ?_⟩, fun _ _ => ?_⟩,
    hfr⟩
  · have hne : j ≠ id := by
      rintro rfl
      exact absurd hi (Nat.not_lt.2 hj)
    rw [ht, if_neg hne]
    exact (h.packed hd).2 j hj
  · exact hl.symm ▸ hn

theorem Valid.clearIf {count : ℕ} (h : b.Valid) (hc : count = 0 ∨ count = b.maxSize) :
    (b.clearIf count).Valid ∧ (b.clearIf count).free = b.free ∧ (b.clearIf count).maxSize = b.maxSize := by
  unfold IdPoolBlock.clearIf
  split_ifs with hfu
  · have hf : ({ b with data := [] } : IdPoolBlock).free = b.free := by
      have hca := h.count
      rcases hc with h0 | hm
      · have he : b.free = ∅ := card_eq_zero.1 (by omega)
        rw [he]
        refine filter_false_of_mem fun id _ => ?_
        change ¬ decide (0 < b.freeCount)
        rw [decide_eq_true_iff]
        omega
      · have ha : b.free = Finset.range b.maxSize :=
          eq_of_subset_of_card_le (filter_subset _ _) (by rw [card_range]; omega)
        rw [ha]
        refine filter_true_of_mem fun id _ => ?_
        change decide (0 < b.freeCount)
        have hp := h.pos
        rw [decide_eq_true_iff]
        omega
    exact ⟨⟨h.pos, h.count.trans (congrArg _ hf.symm), fun hn => absurd rfl hn, fun hn => absurd rfl hn⟩, hf, rfl⟩
  · exact ⟨h, rfl, rfl⟩

/-! ## The functions -/

theorem getLsbD_xor_packMask (hb : bit < 64) (r : BitVec 64) (i : ℕ) :
    (r ^^^ packMask bit).getLsbD i = if i = bit then !r.getLsbD i else r.getLsbD i := by
  rw [getLsbD_xor, getLsbD_packMask hb]
  by_cases hi : i = bit
  · rw [if_pos hi, decide_eq_true hi.symm, Bool.xor_true]
  · rw [if_neg hi, decide_eq_false (Ne.symm hi), Bool.xor_false]

theorem getLsbD_or_packMask (hb : bit < 64) (r : BitVec 64) {i : ℕ} :
    (r ||| packMask bit).getLsbD i = if i = bit then true else r.getLsbD i := by
  rw [getLsbD_or, getLsbD_packMask hb]
  by_cases hi : i = bit
  · rw [if_pos hi, decide_eq_true hi.symm, Bool.or_true]
  · rw [if_neg hi, decide_eq_false (Ne.symm hi), Bool.or_false]

section

variable (h : b.Valid)
include h

theorem Valid.mem_free_iff (hd : b.data.length ≠ 0) : id ∈ b.free ↔ testData b.data id := by
  rw [mem_free, checkIfAvailable, if_neg hd]
  refine ⟨And.right, fun ht => ⟨?_, ht⟩⟩
  by_contra hi
  rw [(h.packed hd).2 id (Nat.not_lt.1 hi)] at ht
  cases ht

theorem Valid.clearBit {next : ℕ} (hd : b.data.length ≠ 0) (hi : id ∈ b.free) (hn : next < b.data.length) :
    ∃ b', IdPoolBlock.clearIf ⟨b.data.modify (id / 64) (· ^^^ packMask (id % 64)), b.maxSize, b.freeCount - 1, next⟩ 0 =
      b' ∧
      b'.Valid ∧ b'.maxSize = b.maxSize ∧ b'.free = b.free.erase id := by
  have ht := (h.mem_free_iff hd).1 hi
  have hc : (b.free.erase id).card = b.freeCount - 1 := by rw [card_erase_of_mem hi, h.count]
  have hme (j : ℕ) : j ∈ b.free.erase id ↔ if j = id then (!testData b.data j) = true else j ∈ b.free := by
    rw [mem_erase]
    split_ifs with hj
    · rw [hj, ht]
      simp
    · exact and_iff_right hj
  obtain ⟨hv, hf⟩ := h.modify hd (mem_free.1 hi).1
    (getLsbD_xor_packMask (mod_lt _ (by decide))) hme hn
  rw [hc] at hv hf
  obtain ⟨hv', hf', hm⟩ := hv.clearIf (Or.inl rfl)
  exact ⟨_, rfl, hv', hm, hf'.trans hf⟩

theorem Valid.allocated {full : Bool} (hfu : b.data.length = 0 → full = decide (0 < b.freeCount)) :
    (if b.data.length = 0 then b.allocBlock full else b).Valid ∧
      (if b.data.length = 0 then b.allocBlock full else b).free = b.free ∧
      (if b.data.length = 0 then b.allocBlock full else b).data.length ≠ 0 ∧
      (if b.data.length = 0 then b.allocBlock full else b).maxSize = b.maxSize ∧
      (if b.data.length = 0 then b.allocBlock full else b).freeCount = b.freeCount := by
  split_ifs with h0
  · obtain ⟨hv, hf, hn⟩ := h.alloc h0 (hfu h0)
    exact ⟨hv, hf, hn, rfl, rfl⟩
  · exact ⟨h, rfl, h0, rfl, rfl⟩

theorem Valid.searchPack (hd : b.data.length ≠ 0) (hc : 0 < b.freeCount) :
    ∃ pack, IdPoolBlock.searchPack b.data b.nextPack = some pack ∧ pack < b.data.length ∧
      b.data.getD pack 0 ≠ 0#64 := by
  obtain ⟨id, hid⟩ : b.free.Nonempty := card_pos.1 (h.count ▸ hc)
  have ht := (h.mem_free_iff hd).1 hid
  rw [testData_eq] at ht
  have hne := h.next hd hc
  have hp : id / 64 < b.data.length := by
    have hl := (mem_free.1 hid).1
    rw [(h.packed hd).1]
    omega
  have hs : (IdPoolBlock.searchPack b.data b.nextPack).isSome := by
    unfold IdPoolBlock.searchPack
    rw [find?_isSome]
    refine ⟨id / 64, mem_map.2 ⟨(id / 64 + b.data.length - b.nextPack) % b.data.length, ?_, ?_⟩, ?_⟩
    · exact List.mem_range.2 (mod_lt _ (by omega))
    · rw [add_mod_mod, show b.nextPack + (id / 64 + b.data.length - b.nextPack) = id / 64 + b.data.length by omega,
        add_mod_right, Nat.mod_eq_of_lt hp]
    · refine decide_eq_true fun h0 => ?_
      rw [h0, getLsbD_zero] at ht
      cases ht
  obtain ⟨pack, hf⟩ := isSome_iff_exists.1 hs
  have hn := find?_some hf
  refine ⟨pack, hf, ?_, of_decide_eq_true hn⟩
  obtain ⟨i, _, hi⟩ := mem_map.1 (mem_of_find?_eq_some hf)
  exact hi ▸ mod_lt _ (by omega)

theorem acquire_spec (hc : 0 < b.freeCount) :
    ∃ id b', b.acquire = some (id, b') ∧ id ∈ b.free ∧ b'.Valid ∧ b'.maxSize = b.maxSize ∧
      b'.free = b.free.erase id := by
  obtain ⟨hva, hf, hd, hm, hs⟩ := h.allocated fun _ => (decide_eq_true hc).symm
  unfold acquire
  simp only [hc, true_and]
  generalize (if b.data.length = 0 then b.allocBlock true else b) = b₀ at hva hf hd hm hs
  have hc₀ : 0 < b₀.freeCount := hs ▸ hc
  obtain ⟨pack, hfo, hl, hn⟩ := hva.searchPack hd hc₀
  obtain ⟨i, hff, hi, hbi⟩ := ffs_spec hn
  have hp : (ffs (b₀.data.getD pack 0) - 1).toNat = i := by omega
  have hdi : (pack * 64 + i) / 64 = pack := by omega
  have hmo : (pack * 64 + i) % 64 = i := by omega
  have hid : pack * 64 + i ∈ b₀.free := by
    rw [hva.mem_free_iff hd, testData_eq, hdi, hmo]
    exact hbi
  obtain ⟨b', hb', hv', hm', hf'⟩ := hva.clearBit hd hid hl
  rw [hdi, hmo] at hb'
  refine ⟨pack * 64 + i, b', ?_, hf ▸ hid, hv', hm'.trans hm, hf'.trans (by rw [hf])⟩
  rw [if_neg hc₀.ne', hfo, Option.map_some, hp, hb']

theorem markAsAcquired_spec (hi : id < b.maxSize) :
    ∃ b', b.markAsAcquired id = some (decide (id ∈ b.free), b') ∧ b'.Valid ∧ b'.maxSize = b.maxSize ∧
      b'.free = b.free.erase id := by
  unfold markAsAcquired
  rw [if_neg (not_le.2 hi)]
  have hno (hc : b.freeCount = 0) : id ∉ b.free := by
    rw [card_eq_zero.1 (h.count.symm.trans hc)]
    exact notMem_empty id
  by_cases h0 : b.data.length = 0 ∧ b.freeCount = 0
  · have hn := hno h0.2
    rw [if_pos h0, decide_eq_false hn]
    exact ⟨b, rfl, h, rfl, (erase_eq_of_notMem hn).symm⟩
  · rw [if_neg h0]
    obtain ⟨hv, hf, hd, hma, hs⟩ := h.allocated fun hl =>
      (decide_eq_true (pos_of_ne_zero fun hc => h0 ⟨hl, hc⟩)).symm
    generalize (if b.data.length = 0 then b.allocBlock true else b) = b₀ at hv hf hd hma hs
    rw [← hf, ← hma]
    by_cases hm : id ∈ b₀.free
    · have hco : 0 < b₀.freeCount := hv.count ▸ card_pos.2 ⟨id, hm⟩
      rw [if_pos ((hv.mem_free_iff hd).1 hm), decide_eq_true hm]
      obtain ⟨b', hb', hsp⟩ := hv.clearBit hd hm (hv.next hd hco)
      exact ⟨b', by rw [hb'], hsp⟩
    · rw [if_neg fun ht => hm ((hv.mem_free_iff hd).2 ht), decide_eq_false hm]
      exact ⟨b₀, rfl, hv, rfl, (erase_eq_of_notMem hm).symm⟩

end

theorem release_of_available (h : b.checkIfAvailable id) : b.release id = (false, b) := by
  unfold release
  unfold checkIfAvailable at h
  by_cases hd : b.data.length = 0
  · rw [if_pos hd, decide_eq_true_iff] at h
    rw [if_pos ⟨hd, h⟩]
  · rw [if_neg hd] at h
    simp [hd, h]

theorem release_spec (h : b.Valid) (hi : id < b.maxSize) :
    ∃ b', b.release id = (decide (id ∉ b.free), b') ∧ b'.Valid ∧ b'.maxSize = b.maxSize ∧
      b'.free = insert id b.free := by
  unfold release
  by_cases h0 : b.data.length = 0 ∧ 0 < b.freeCount
  · have hme : id ∈ b.free := mem_free.2 ⟨hi, by rw [checkIfAvailable, if_pos h0.1, decide_eq_true h0.2]⟩
    rw [if_pos h0, decide_eq_false (not_not.2 hme)]
    exact ⟨b, rfl, h, rfl, (insert_eq_of_mem hme).symm⟩
  · rw [if_neg h0]
    obtain ⟨hva, hfr, hd, hma, hs⟩ := h.allocated fun hl =>
      (decide_eq_false fun hc => h0 ⟨hl, hc⟩).symm
    generalize (if b.data.length = 0 then b.allocBlock false else b) = b₀ at hva hfr hd hma hs
    rw [← hfr, ← hma]
    rw [← hma] at hi
    by_cases hme : id ∈ b₀.free
    · rw [if_pos ((hva.mem_free_iff hd).1 hme), decide_eq_false (not_not.2 hme)]
      exact ⟨b₀, rfl, hva, rfl, (insert_eq_of_mem hme).symm⟩
    · rw [if_neg fun ht => hme ((hva.mem_free_iff hd).2 ht), decide_eq_true hme]
      have hn : (if b₀.freeCount = 0 then id / 64 else b₀.nextPack) < b₀.data.length := by
        split_ifs with hc
        · rw [(hva.packed hd).1]
          omega
        · exact hva.next hd (pos_of_ne_zero hc)
      have hin (j : ℕ) : j ∈ insert id b₀.free ↔ if j = id then true = true else j ∈ b₀.free := by
        rw [mem_insert]
        split_ifs with hj
        · exact iff_of_true (Or.inl hj) rfl
        · exact or_iff_right hj
      obtain ⟨hva', hfr'⟩ := hva.modify (g := fun _ => true) hd hi
        (getLsbD_or_packMask (mod_lt _ (by decide))) hin hn
      rw [card_insert_of_notMem hme, ← hva.count] at hva' hfr'
      obtain ⟨hv, hf, hm⟩ := hva'.clearIf (Or.inr rfl)
      exact ⟨_, rfl, hv, hm, hf.trans hfr'⟩

end IdPoolBlock

end SaunaFS.Inodes
