/-
The pool of numbers (`IdPool` of `common/id_pool.h`): blocks of bits that are made when they are needed, a list of the
blocks that may have a number left, and a cache of numbers that were given back.

`free` has the numbers of `1 .. maxSize` that are not in use; the `_spec` lemmas say what the functions do to this set.
The order of an `unordered_set` is a parameter.
-/
import SaunaFS.Inodes.IdPoolBlock

namespace SaunaFS.Inodes

open Finset IdPoolBlock List Nat Or

/-! ## Model -/

/-- the order of the elements of an `unordered_set`: a new one may come anywhere -/
structure HashOrder where
  insert : List ℕ → ℕ → List ℕ
  perm : ∀ l id, (insert l id).Perm (id :: l)

/-- the arguments of the constructor -/
structure PoolSizes where
  maxSize : ℕ
  blockSize : ℕ
  cacheSize : ℕ
  order : HashOrder
  maxSize_lt : maxSize < 2 ^ 32
  blockSize_pos : 0 < blockSize
  /-- a block counts its numbers with 32 bits -/
  blockSize_le : blockSize ≤ 2 ^ 31

namespace PoolSizes

variable (s : PoolSizes)

def blockBits : ℕ := 64 * (((if s.maxSize < s.blockSize then s.maxSize + 1 else s.blockSize) + 63) / 64)

def maxCacheSize : ℕ := if s.maxSize < s.cacheSize then s.maxSize + 1 else s.cacheSize

def maxBlockCount : ℕ := s.maxSize / s.blockBits + 1

/-- how many numbers a block has -/
def sizeOfBlock (i : ℕ) : ℕ :=
  let left := s.maxSize - s.blockBits * i
  if left < s.blockBits then left + 1 else s.blockBits

end PoolSizes

open PoolSizes

/-- `IdPool`, apart from the sizes -/
structure IdPool where
  cache : List ℕ
  block : List IdPoolBlock
  freeList : List ℕ
  usedCount : ℕ
deriving DecidableEq

namespace IdPool

variable (s : PoolSizes) (p : IdPool)

def countOf (i : ℕ) : ℕ := (p.block[i]?.map freeCount).getD 0

/-- the loop that removes blocks without a number from the front of the list -/
def dropEmptyBlocks : IdPool := { p with freeList := p.freeList.dropWhile fun i => p.countOf i = 0 }

/-- one round of `addFreeBlocks` -/
def addBlock : IdPool :=
  { p with
    block := p.block ++ [.new (s.sizeOfBlock p.block.length)]
    freeList := p.freeList ++ [p.block.length] }

def addFreeBlocks (count : ℕ) : Option IdPool :=
  if count = 0 ∨ s.maxBlockCount < p.block.length + count then none else some ((addBlock s)^[count] p)

/-- the end of `acquire`: the first block of the list has a number -/
def acquireFromBlock : Option (ℕ × IdPool) :=
  match p.freeList with
  | [] => none
  | i :: rest =>
    (p.block[i]?.bind acquire).map fun (bid, b) =>
      (bid + i * s.blockBits, { p with
          block := p.block.set i b
          freeList := if b.freeCount = 0 then rest else i :: rest
          usedCount := p.usedCount + 1 })

/-- `acquire`; there is no outcome where an assertion fails -/
def acquire : Option (ℕ × IdPool) :=
  match p.cache with
  | id :: cache => some (id, { p with cache := cache, usedCount := p.usedCount + 1 })
  | [] =>
    let p := p.dropEmptyBlocks
    if p.freeList = [] then
      match p.addFreeBlocks s 1 with
      | none => some (0, p)
      | some p => p.acquireFromBlock s
    else p.acquireFromBlock s

variable (id : ℕ)

/-- the bit of a number in its block; a block that was not made has them all -/
def inBlock : Bool := (p.block[id / s.blockBits]?.map fun b => b.checkIfAvailable (id % s.blockBits)).getD true

def checkIfAvailable : Bool :=
  if id = 0 ∨ s.maxSize < id then false else decide (id ∈ p.cache) || p.inBlock s id

/-- the count stops at 0, where the `size_t` of the source would wrap around -/
def release : Bool × IdPool :=
  if id = 0 ∨ s.maxSize < id then (false, p)
  else
    match p.block[id / s.blockBits]? with
    | none => (false, p)
    | some b =>
      if p.cache.length < s.maxCacheSize then
        if id ∈ p.cache then (false, p)
        else if b.checkIfAvailable (id % s.blockBits) then (false, p)
        else (true, { p with cache := s.order.insert p.cache id, usedCount := p.usedCount - 1 })
      else
        let r := b.release (id % s.blockBits)
        if r.1 then
          (true, { p with
            block := p.block.set (id / s.blockBits) r.2
            freeList := if r.2.freeCount = 1 then id / s.blockBits :: p.freeList else p.freeList
            usedCount := p.usedCount - 1 })
        else (false, { p with block := p.block.set (id / s.blockBits) r.2 })

/-- the blocks up to that of the number, if there may be so many -/
def withBlock (i : ℕ) : Option IdPool :=
  if p.block.length ≤ i then p.addFreeBlocks s (i + 1 - p.block.length) else some p

/-- the end of `markAsAcquired`: the block of the number is there -/
def markInBlock : Option (Bool × IdPool) :=
  (p.block[id / s.blockBits]?.bind fun b => b.markAsAcquired (id % s.blockBits)).map fun (r, b) =>
    let p := { p with block := p.block.set (id / s.blockBits) b }
    if r then (true, { p with usedCount := p.usedCount + 1 }.dropEmptyBlocks) else (false, p)

/-- `markAsAcquired`; there is no outcome where an assertion fails -/
def markAsAcquired : Option (Bool × IdPool) :=
  if id ∈ p.cache then some (true, { p with cache := p.cache.erase id, usedCount := p.usedCount + 1 })
  else
    match p.withBlock s (id / s.blockBits) with
    | none => some (false, p)
    | some p => p.markInBlock s id

/-- the constructor: the number 0 is never given out -/
def new : IdPool :=
  match markAsAcquired s ⟨[], [], [], 0⟩ 0 with
  | none => ⟨[], [], [], 0⟩
  | some (_, p) => { p with usedCount := 0 }

end IdPool

/-! ## Numbers and blocks -/

namespace PoolSizes

variable {s : PoolSizes} {i j id : ℕ}

theorem blockBits_pos : 0 < s.blockBits := by
  have := s.blockSize_pos
  unfold blockBits
  split_ifs <;> omega

theorem div_lt_maxBlockCount (hi : id ≤ s.maxSize) : id / s.blockBits < s.maxBlockCount :=
  Nat.lt_succ_of_le (Nat.div_le_div_right hi)

theorem lt_sizeOfBlock (hi : i < s.maxBlockCount) :
    j < s.sizeOfBlock i ↔ j < s.blockBits ∧ i * s.blockBits + j ≤ s.maxSize := by
  have hl : i * s.blockBits ≤ s.maxSize := (le_div_iff_mul_le s.blockBits_pos).1 (le_of_lt_succ hi)
  unfold sizeOfBlock
  rw [mul_comm s.blockBits i]
  dsimp only
  split_ifs <;> omega

theorem mod_lt_sizeOfBlock (hi : id ≤ s.maxSize) : id % s.blockBits < s.sizeOfBlock (id / s.blockBits) := by
  rw [lt_sizeOfBlock (div_lt_maxBlockCount hi), div_add_mod']
  exact ⟨mod_lt _ s.blockBits_pos, hi⟩

theorem sizeOfBlock_pos (hi : i < s.maxBlockCount) : 0 < s.sizeOfBlock i := by
  have hl : i * s.blockBits ≤ s.maxSize := (le_div_iff_mul_le s.blockBits_pos).1 (le_of_lt_succ hi)
  exact (lt_sizeOfBlock hi).2 ⟨s.blockBits_pos, hl⟩

end PoolSizes

namespace IdPool

variable {s : PoolSizes} {p q : IdPool} {i j id : ℕ} {b c : IdPoolBlock}

/-- the blocks are valid and have the right sizes -/
structure Blocks (s : PoolSizes) (p : IdPool) : Prop where
  bound : p.block.length ≤ s.maxBlockCount
  valid : ∀ (i : ℕ) (b : IdPoolBlock), p.block[i]? = some b → b.Valid
  size : ∀ (i : ℕ) (b : IdPoolBlock), p.block[i]? = some b → b.maxSize = s.sizeOfBlock i
  listed : ∀ (i : ℕ) (b : IdPoolBlock), p.block[i]? = some b → 0 < b.freeCount → i ∈ p.freeList
  inList : ∀ i ∈ p.freeList, i < p.block.length

/-- the numbers that are free in their blocks -/
def bits (s : PoolSizes) (p : IdPool) : Finset ℕ := (Finset.range (s.maxSize + 1)).filter fun id => p.inBlock s id

theorem mem_bits : id ∈ p.bits s ↔ id ≤ s.maxSize ∧ p.inBlock s id := by
  rw [bits, Finset.mem_filter, Finset.mem_range, Nat.lt_succ_iff]

theorem Blocks.lt (h : p.Blocks s) (hb : p.block[i]? = some b) : i < s.maxBlockCount :=
  (List.getElem?_eq_some_iff.1 hb).1.trans_le h.bound

theorem Blocks.mem_bits_iff (h : p.Blocks s) (hb : p.block[id / s.blockBits]? = some b) :
    id ∈ p.bits s ↔ id ≤ s.maxSize ∧ id % s.blockBits ∈ b.free := by
  rw [mem_bits, inBlock, hb, Option.map_some, Option.getD_some, mem_free]
  refine and_congr_right fun hi => (and_iff_right ?_).symm
  rw [h.size _ _ hb]
  exact mod_lt_sizeOfBlock hi

theorem Blocks.add_mem_bits_iff (h : p.Blocks s) (hb : p.block[i]? = some b) (hj : j < s.sizeOfBlock i) :
    j + i * s.blockBits ∈ p.bits s ↔ j ∈ b.free := by
  obtain ⟨hl, hle⟩ := (lt_sizeOfBlock (h.lt hb)).1 hj
  have hd : (j + i * s.blockBits) / s.blockBits = i := by
    rw [add_mul_div_right _ _ s.blockBits_pos, div_eq_of_lt hl, zero_add]
  have hm : (j + i * s.blockBits) % s.blockBits = j := by
    rw [add_mul_mod_self_right, mod_eq_of_lt hl]
  rw [h.mem_bits_iff (hd.symm ▸ hb), hm]
  exact and_iff_right (by omega)

theorem inBlock_set (hi : i < p.block.length) (hq : q.block = p.block.set i c) : q.inBlock s id =
      if id / s.blockBits = i then c.checkIfAvailable (id % s.blockBits) else p.inBlock s id := by
  unfold inBlock
  rw [hq, getElem?_set]
  by_cases he : i = id / s.blockBits
  · rw [if_pos he, if_pos he.symm, if_pos (he ▸ hi)]
    rfl
  · rw [if_neg he, if_neg (Ne.symm he)]

theorem Blocks.set {list : List ℕ} (h : p.Blocks s) (hb : p.block[i]? = some b) (hc : c.Valid)
    (hm : c.maxSize = b.maxSize) (hq : q.block = p.block.set i c) (hl : q.freeList = list)
    (ho : ∀ k ∈ p.freeList, k ≠ i → k ∈ list) (hs : 0 < c.freeCount → i ∈ list)
    (hin : ∀ k ∈ list, k < p.block.length) : q.Blocks s := by
  have hi : i < p.block.length := (List.getElem?_eq_some_iff.1 hb).1
  have hg (k : ℕ) (d : IdPoolBlock) (hd : q.block[k]? = some d) :
      k = i ∧ d = c ∨ k ≠ i ∧ p.block[k]? = some d := by
    rw [hq, getElem?_set] at hd
    by_cases he : i = k
    · rw [if_pos he, if_pos hi] at hd
      exact inl ⟨he.symm, (Option.some.inj hd).symm⟩
    · rw [if_neg he] at hd
      exact inr ⟨Ne.symm he, hd⟩
  refine ⟨?_, fun k d hd => ?_, fun k d hd => ?_, fun k d hd hco => ?_, fun k hk => ?_⟩
  · rw [hq, length_set]
    exact h.bound
  · rcases hg k d hd with ⟨_, rfl⟩ | ⟨_, hd⟩
    · exact hc
    · exact h.valid k d hd
  · rcases hg k d hd with ⟨rfl, rfl⟩ | ⟨_, hd⟩
    · exact hm.trans (h.size k b hb)
    · exact h.size k d hd
  · rw [hl]
    rcases hg k d hd with ⟨rfl, rfl⟩ | ⟨hn, hd⟩
    · exact hs hco
    · exact ho k (h.listed k d hd hco) hn
  · rw [hq, length_set]
    exact hin k (hl ▸ hk)

theorem Blocks.mem_bits_set (h : p.Blocks s) (hb : p.block[i]? = some b) (hq : q.block = p.block.set i c)
    (hm : c.maxSize = b.maxSize) :
    id ∈ q.bits s ↔ if id / s.blockBits = i then id ≤ s.maxSize ∧ id % s.blockBits ∈ c.free else id ∈ p.bits s := by
  rw [mem_bits, inBlock_set (List.getElem?_eq_some_iff.1 hb).1 hq]
  split_ifs with he
  · refine and_congr_right fun hi => ?_
    rw [mem_free, hm, h.size i b hb, ← he]
    exact (and_iff_right (mod_lt_sizeOfBlock hi)).symm
  · rw [mem_bits]

theorem div_mod_eq_iff (hj : j < s.blockBits) :
    id = j + i * s.blockBits ↔ id / s.blockBits = i ∧ id % s.blockBits = j := by
  constructor
  · rintro rfl
    rw [add_mul_div_right _ _ s.blockBits_pos, div_eq_of_lt hj, zero_add, add_mul_mod_self_right, mod_eq_of_lt hj]
    exact ⟨rfl, rfl⟩
  · rintro ⟨rfl, rfl⟩
    exact (mod_add_div' id s.blockBits).symm

theorem Blocks.bits_erase (h : p.Blocks s) (hb : p.block[i]? = some b) (hq : q.block = p.block.set i c)
    (hm : c.maxSize = b.maxSize) (hj : j < s.blockBits) (hf : c.free = b.free.erase j) :
    q.bits s = (p.bits s).erase (j + i * s.blockBits) := by
  ext id
  rw [h.mem_bits_set hb hq hm, mem_erase, Ne, div_mod_eq_iff hj, hf, mem_erase]
  split_ifs with he
  · rw [h.mem_bits_iff (he.symm ▸ hb)]
    tauto
  · exact (and_iff_right fun hand => he hand.1).symm

theorem Blocks.bits_insert (h : p.Blocks s) (hb : p.block[i]? = some b) (hq : q.block = p.block.set i c)
    (hma : c.maxSize = b.maxSize) (hj : j < s.blockBits) (hl : j + i * s.blockBits ≤ s.maxSize)
    (hf : c.free = insert j b.free) : q.bits s = insert (j + i * s.blockBits) (p.bits s) := by
  ext id
  rw [h.mem_bits_set hb hq hma, mem_insert, div_mod_eq_iff hj, hf, mem_insert]
  split_ifs with he
  · rw [h.mem_bits_iff (he.symm ▸ hb)]
    refine ⟨fun ⟨hi, hm⟩ => ?_, fun ho => ?_⟩
    · exact hm.imp (fun hmo => ⟨he, hmo⟩) fun hm => ⟨hi, hm⟩
    · rcases ho with ⟨hd, hmo⟩ | ⟨hi, hm⟩
      · exact ⟨(div_mod_eq_iff hj).2 ⟨hd, hmo⟩ ▸ hl, inl hmo⟩
      · exact ⟨hi, inr hm⟩
  · exact (or_iff_right fun hand => he hand.1).symm

theorem bits_congr (h : q.block = p.block) : q.bits s = p.bits s := by
  unfold bits inBlock
  rw [h]

/-! ## Blocks that come and go -/

theorem mem_dropWhile_of_not {l : List ℕ} {f : ℕ → Bool} (hi : i ∈ l) (hf : f i = false) : i ∈ l.dropWhile f := by
  rw [← takeWhile_append_dropWhile (p := f) (l := l), mem_append] at hi
  refine hi.resolve_left fun hm => ?_
  have := all_eq_true.1 (all_takeWhile (p := f) (l := l)) i hm
  rw [hf] at this
  cases this

theorem Blocks.dropEmptyBlocks (h : p.Blocks s) : p.dropEmptyBlocks.Blocks s where
  bound := h.bound
  valid := h.valid
  size := h.size
  listed := by
    intro i b hb hc
    refine mem_dropWhile_of_not (h.listed i b hb hc) (decide_eq_false ?_)
    change p.block[i]? = some b at hb
    rw [countOf, hb]
    exact hc.ne'
  inList := fun i hi => h.inList i ((dropWhile_sublist _).subset hi)

theorem countOf_dropEmptyBlocks {rest : List ℕ} (h : p.dropEmptyBlocks.freeList = i :: rest) : 0 < p.countOf i := by
  have hn : (p.freeList.dropWhile fun i => decide (p.countOf i = 0)) ≠ [] := by
    intro h0
    have := h0.symm.trans h
    cases this
  have hh := head_dropWhile_not (fun i => decide (p.countOf i = 0)) hn
  have hi : (p.freeList.dropWhile fun i => decide (p.countOf i = 0)).head hn = i := by
    simp only [show (p.freeList.dropWhile fun i => decide (p.countOf i = 0)) = i :: rest from h, head_cons]
  rw [hi] at hh
  exact pos_of_ne_zero (of_decide_eq_false hh)

theorem Blocks.addBlock (h : p.Blocks s) (hl : p.block.length < s.maxBlockCount) : (p.addBlock s).Blocks s := by
  have hg (k : ℕ) (d : IdPoolBlock) (hd : (p.addBlock s).block[k]? = some d) :
      p.block[k]? = some d ∨ k = p.block.length ∧ d = .new (s.sizeOfBlock p.block.length) := by
    change (p.block ++ [_])[k]? = some d at hd
    rw [getElem?_append] at hd
    split_ifs at hd with hk
    · exact inl hd
    · have h0 : k - p.block.length = 0 := by
        by_contra hn
        rw [getElem?_eq_none (by rw [length_singleton]; omega)] at hd
        cases hd
      rw [h0] at hd
      exact inr ⟨by omega, (Option.some.inj hd).symm⟩
  have hp := sizeOfBlock_pos hl
  refine ⟨?_, fun k d hd => ?_, fun k d hd => ?_, fun k d hd hc => ?_, fun k hk => ?_⟩
  · change (p.block ++ [_]).length ≤ _
    rw [length_append, length_singleton]
    exact hl
  · rcases hg k d hd with hd | ⟨_, rfl⟩
    · exact h.valid k d hd
    · exact valid_new hp
  · rcases hg k d hd with hd | ⟨rfl, rfl⟩
    · exact h.size k d hd
    · rfl
  · refine mem_append.2 ?_
    rcases hg k d hd with hd | ⟨rfl, rfl⟩
    · exact inl (h.listed k d hd hc)
    · exact inr mem_cons_self
  · change k < (p.block ++ [_]).length
    rw [length_append, length_singleton]
    rcases mem_append.1 hk with hk | hk
    · exact (h.inList k hk).trans (lt_succ_self _)
    · rw [List.mem_singleton.1 hk]
      exact lt_succ_self _

theorem bits_addBlock (hl : p.block.length < s.maxBlockCount) : (p.addBlock s).bits s = p.bits s := by
  have hp := sizeOfBlock_pos hl
  refine filter_congr fun id _ => ?_
  unfold inBlock
  change (((p.block ++ [_])[id / s.blockBits]?.map _).getD true) ↔ _
  rw [getElem?_append]
  split_ifs with hk
  · rfl
  · rw [getElem?_eq_none (not_lt.1 hk)]
    by_cases h0 : id / s.blockBits - p.block.length = 0
    · rw [h0]
      exact iff_of_true (decide_eq_true hp) rfl
    · rw [getElem?_eq_none (by rw [length_singleton]; omega)]

theorem Blocks.addFreeBlocks (h : p.Blocks s) (count : ℕ) (hle : p.block.length + count ≤ s.maxBlockCount) :
    ((IdPool.addBlock s)^[count] p).Blocks s ∧ ((IdPool.addBlock s)^[count] p).bits s = p.bits s ∧
      ((IdPool.addBlock s)^[count] p).block.length = p.block.length + count ∧
      ((IdPool.addBlock s)^[count] p).cache = p.cache ∧
      ((IdPool.addBlock s)^[count] p).usedCount = p.usedCount := by
  induction count generalizing p with
  | zero => exact ⟨h, rfl, rfl, rfl, rfl⟩
  | succ count ih =>
    have hlt : p.block.length < s.maxBlockCount := by omega
    have hlen : (p.addBlock s).block.length = p.block.length + 1 := length_append
    obtain ⟨hb, hbi, hl, hc, hu⟩ := ih (h.addBlock hlt) (by omega)
    exact ⟨hb, hbi.trans (bits_addBlock hlt), hl.trans (by omega), hc, hu⟩

/-! ## What a pool stands for -/

/-- the numbers that are not in use -/
def free (s : PoolSizes) (p : IdPool) : Finset ℕ := p.cache.toFinset ∪ p.bits s

/-- the cache and the blocks do not share a number, and all others are counted as used -/
structure Valid (s : PoolSizes) (p : IdPool) : Prop extends Blocks s p where
  nodup : p.cache.Nodup
  cached : ∀ id ∈ p.cache, 0 < id ∧ id ≤ s.maxSize ∧ id ∉ p.bits s
  zero : 0 ∉ p.bits s
  used : p.usedCount + (p.cache.length + (p.bits s).card) = s.maxSize

theorem mem_free : id ∈ p.free s ↔ id ∈ p.cache ∨ id ∈ p.bits s := by
  rw [free, mem_union, mem_toFinset]

section

variable (h : p.Valid s)
include h

theorem Valid.pos_of_mem_free (hi : id ∈ p.free s) : 0 < id ∧ id ≤ s.maxSize := by
  rcases mem_free.1 hi with hi | hi
  · exact ⟨(h.cached id hi).1, (h.cached id hi).2.1⟩
  · exact ⟨pos_of_ne_zero fun h0 => h.zero (h0 ▸ hi), (mem_bits.1 hi).1⟩

theorem Valid.card_free : (p.free s).card = p.cache.length + (p.bits s).card := by
  have hd : Disjoint p.cache.toFinset (p.bits s) := disjoint_left.2 fun id hi => (h.cached id (mem_toFinset.1 hi)).2.2
  rw [free, card_union_of_disjoint hd, toFinset_card_of_nodup h.nodup]

theorem Valid.usedCount_pos (hi : id ∉ p.free s) (hp : 0 < id) (hl : id ≤ s.maxSize) : 0 < p.usedCount := by
  have hs : p.free s ⊆ (Icc 1 s.maxSize).erase id := fun k hk =>
    mem_erase.2 ⟨fun he => hi (he ▸ hk), mem_Icc.2 (h.pos_of_mem_free hk)⟩
  have hc := card_le_card hs
  rw [card_erase_of_mem (mem_Icc.2 ⟨hp, hl⟩), card_Icc, h.card_free] at hc
  have := h.used
  omega

theorem Valid.checkIfAvailable : p.checkIfAvailable s id = decide (id ∈ p.free s) := by
  unfold IdPool.checkIfAvailable
  split_ifs with hi
  · refine (decide_eq_false fun hm => ?_).symm
    have := h.pos_of_mem_free hm
    omega
  · have hl : id ≤ s.maxSize := by omega
    rw [Bool.eq_iff_iff, Bool.or_eq_true, decide_eq_true_iff, decide_eq_true_iff, mem_free, mem_bits]
    exact or_congr_right (and_iff_right hl).symm

theorem Valid.of_blocks (hq : q.Blocks s) (hb : q.bits s = p.bits s) (hc : q.cache = p.cache)
    (hu : q.usedCount = p.usedCount) : q.Valid s ∧ q.free s = p.free s := by
  refine ⟨⟨hq, hc ▸ h.nodup, ?_, hb ▸ h.zero, ?_⟩, by rw [free, free, hc, hb]⟩
  · rw [hc, hb]
    exact h.cached
  · rw [hc, hb, hu]
    exact h.used

theorem Valid.erase (hi : id ∈ p.bits s) (hq : q.Blocks s) (hb : q.bits s = (p.bits s).erase id)
    (hc : q.cache = p.cache) (hu : q.usedCount = p.usedCount + 1) : q.Valid s ∧ q.free s = (p.free s).erase id := by
  have hno : id ∉ p.cache := fun hm => (h.cached id hm).2.2 hi
  refine ⟨⟨hq, hc ▸ h.nodup, fun k hk => ?_, ?_, ?_⟩, ?_⟩
  · rw [hc] at hk
    obtain ⟨hp, hl, hbi⟩ := h.cached k hk
    exact ⟨hp, hl, hb ▸ fun hm => hbi (Finset.mem_of_mem_erase hm)⟩
  · exact hb ▸ fun hm => h.zero (Finset.mem_of_mem_erase hm)
  · have hca := card_pos.2 ⟨id, hi⟩
    have hu' := h.used
    rw [hc, hb, hu, card_erase_of_mem hi]
    omega
  · ext k
    rw [mem_erase, mem_free, mem_free, hc, hb, mem_erase]
    constructor
    · rintro (hk | ⟨hn, hk⟩)
      · exact ⟨fun he => hno (he ▸ hk), inl hk⟩
      · exact ⟨hn, inr hk⟩
    · rintro ⟨hn, hk | hk⟩
      · exact inl hk
      · exact inr ⟨hn, hk⟩

theorem Valid.insert (hi : id ∉ p.free s) (hp : 0 < id) (hu : 0 < p.usedCount) (hq : q.Blocks s)
    (hb : q.bits s = Insert.insert id (p.bits s)) (hc : q.cache = p.cache) (hco : q.usedCount = p.usedCount - 1) :
    q.Valid s ∧ q.free s = Insert.insert id (p.free s) := by
  rw [mem_free, not_or] at hi
  refine ⟨⟨hq, hc ▸ h.nodup, fun k hk => ?_, ?_, ?_⟩, ?_⟩
  · rw [hc] at hk
    obtain ⟨hp', hl', hbi'⟩ := h.cached k hk
    refine ⟨hp', hl', hb ▸ fun hm => ?_⟩
    rcases mem_insert.1 hm with rfl | hm
    · exact hi.1 hk
    · exact hbi' hm
  · rw [hb, mem_insert]
    exact fun ho => ho.elim (fun h0 => hp.ne h0) h.zero
  · have := h.used
    rw [hb, card_insert_of_notMem hi.2, hc, hco]
    omega
  · ext k
    rw [mem_insert, mem_free, mem_free, hc, hb, mem_insert]
    exact or_left_comm

theorem Valid.putCache (hi : id ∉ p.free s) (hpo : 0 < id) (hl : id ≤ s.maxSize) (hu : 0 < p.usedCount) :
    Valid s { p with cache := s.order.insert p.cache id, usedCount := p.usedCount - 1 } ∧
      free s { p with cache := s.order.insert p.cache id, usedCount := p.usedCount - 1 } =
        Insert.insert id (p.free s) := by
  rw [mem_free, not_or] at hi
  have hp := s.order.perm p.cache id
  refine ⟨⟨⟨h.bound, h.valid, h.size, h.listed, h.inList⟩, ?_, fun k hk => ?_, h.zero, ?_⟩, ?_⟩
  · exact hp.nodup_iff.2 (nodup_cons.2 ⟨hi.1, h.nodup⟩)
  · rcases List.mem_cons.1 (hp.mem_iff.1 hk) with rfl | hk
    · exact ⟨hpo, hl, hi.2⟩
    · exact h.cached k hk
  · have := h.used
    change p.usedCount - 1 + ((s.order.insert p.cache id).length + (p.bits s).card) = s.maxSize
    rw [hp.length_eq, length_cons]
    omega
  · ext k
    rw [mem_insert, mem_free, mem_free]
    change k ∈ s.order.insert p.cache id ∨ k ∈ p.bits s ↔ _
    rw [hp.mem_iff, List.mem_cons, or_assoc]

theorem Valid.uncache (hi : id ∈ p.cache) : Valid s { p with cache := p.cache.erase id, usedCount := p.usedCount + 1 } ∧
      free s { p with cache := p.cache.erase id, usedCount := p.usedCount + 1 } = (p.free s).erase id := by
  refine ⟨⟨⟨h.bound, h.valid, h.size, h.listed, h.inList⟩, h.nodup.erase id,
    fun k hk => h.cached k (List.mem_of_mem_erase hk), h.zero, ?_⟩, ?_⟩
  · have hu := h.used
    have hl := length_erase_of_mem hi
    have hp := length_pos_of_mem hi
    change p.usedCount + 1 + ((p.cache.erase id).length + (p.bits s).card) = s.maxSize
    omega
  · ext k
    rw [mem_erase, mem_free, mem_free]
    rw [h.nodup.mem_erase_iff]
    constructor
    · rintro (⟨hn, hk⟩ | hk)
      · exact ⟨hn, inl hk⟩
      · exact ⟨fun he => (h.cached id hi).2.2 (he ▸ hk), inr hk⟩
    · rintro ⟨hn, hk | hk⟩
      · exact inl ⟨hn, hk⟩
      · exact inr hk

/-! ## The functions -/

theorem acquireFromBlock_spec {rest : List ℕ} (hl : p.freeList = i :: rest) (hco : 0 < p.countOf i) :
    ∃ id q, p.acquireFromBlock s = some (id, q) ∧ q.Valid s ∧ id ∈ p.bits s ∧ q.free s = (p.free s).erase id := by
  obtain ⟨b, hb⟩ : ∃ b, p.block[i]? = some b :=
    ⟨_, getElem?_eq_getElem (h.inList i (hl ▸ mem_cons_self))⟩
  have hco' : 0 < b.freeCount := by
    rw [countOf, hb] at hco
    exact hco
  obtain ⟨j, c, ha, hj, hc, hm, hf⟩ := acquire_spec (h.valid i b hb) hco'
  have hs : j < s.sizeOfBlock i := h.size i b hb ▸ (IdPoolBlock.mem_free.1 hj).1
  have hlt := ((lt_sizeOfBlock (h.lt hb)).1 hs).1
  have hme : j + i * s.blockBits ∈ p.bits s := (h.add_mem_bits_iff hb hs).2 hj
  unfold acquireFromBlock
  rw [hl]
  simp only [hb, Option.bind_some, ha, Option.map_some]
  have hbl : Blocks s { p with
      block := p.block.set i c
      freeList := if c.freeCount = 0 then rest else i :: rest
      usedCount := p.usedCount + 1 } := by
    refine h.toBlocks.set hb hc hm rfl rfl (fun k hk hn => ?_) (fun hp => ?_) fun k hk => ?_
    · rw [hl] at hk
      have hk' := (List.mem_cons.1 hk).resolve_left hn
      split_ifs
      · exact hk'
      · exact mem_cons_of_mem _ hk'
    · rw [if_neg hp.ne']
      exact mem_cons_self
    · refine h.inList k (hl ▸ ?_)
      split_ifs at hk
      · exact mem_cons_of_mem _ hk
      · exact hk
  obtain ⟨hv, hf'⟩ := h.erase hme hbl (h.bits_erase hb rfl hm hlt hf) rfl rfl
  exact ⟨_, _, rfl, hv, hme, hf'⟩

theorem acquire_spec : ∃ id q, p.acquire s = some (id, q) ∧ q.Valid s ∧
      (id = 0 ∧ p.free s = ∅ ∧ q.free s = ∅ ∨ id ∈ p.free s ∧ q.free s = (p.free s).erase id) := by
  unfold acquire
  cases hc : p.cache with
  | cons id cache =>
    have hi : id ∈ p.cache := hc ▸ mem_cons_self
    obtain ⟨hv, hf⟩ := h.uncache hi
    have hc' : p.cache.erase id = cache := by rw [hc, erase_cons_head]
    rw [hc'] at hv hf
    exact ⟨id, _, rfl, hv, inr ⟨mem_free.2 (inl hi), hf⟩⟩
  | nil =>
    dsimp only
    obtain ⟨hd, hdf⟩ := h.of_blocks h.toBlocks.dropEmptyBlocks (bits_congr rfl) rfl rfl
    -- both ways the first block of the list has a number
    have hfr {q : IdPool} {i : ℕ} {rest : List ℕ} (hq : q.Valid s ∧ q.free s = p.free s) (hl : q.freeList = i :: rest)
        (hco : 0 < q.countOf i) : ∃ id r, q.acquireFromBlock s = some (id, r) ∧ r.Valid s ∧
          (id = 0 ∧ p.free s = ∅ ∧ r.free s = ∅ ∨ id ∈ p.free s ∧ r.free s = (p.free s).erase id) := by
      obtain ⟨id, r, heq, hr, hi, hf⟩ := acquireFromBlock_spec hq.1 hl hco
      exact ⟨id, r, heq, hr, inr ⟨hq.2 ▸ mem_free.2 (inr hi), hq.2 ▸ hf⟩⟩
    cases hl : p.dropEmptyBlocks.freeList with
    | cons i rest =>
      have hco : 0 < p.dropEmptyBlocks.countOf i := countOf_dropEmptyBlocks (p := p) hl
      exact hfr ⟨hd, hdf⟩ hl hco
    | nil =>
      unfold IdPool.addFreeBlocks
      by_cases hfu : 1 = 0 ∨ s.maxBlockCount < p.dropEmptyBlocks.block.length + 1
      · rw [if_pos hfu]
        have hbi : p.bits s = ∅ := by
          refine eq_empty_of_forall_notMem fun id hi => ?_
          have hle := (mem_bits.1 hi).1
          have hlt : id / s.blockBits < p.block.length := by
            have := div_lt_maxBlockCount hle
            have hlen : p.dropEmptyBlocks.block.length = p.block.length := rfl
            omega
          have hb := getElem?_eq_getElem hlt
          have hm := ((h.mem_bits_iff hb).1 hi).2
          have hco : 0 < (p.block[id / s.blockBits]).freeCount :=
            (h.valid _ _ hb).count ▸ card_pos.2 ⟨_, hm⟩
          have := hd.listed _ _ hb hco
          rw [hl] at this
          cases this
        have he : p.free s = ∅ := by
          rw [free, hc, hbi]
          rfl
        exact ⟨0, _, rfl, hd, inl ⟨rfl, he, hdf.trans he⟩⟩
      · rw [if_neg hfu]
        have hlt : p.dropEmptyBlocks.block.length < s.maxBlockCount := by omega
        have hq := hd.of_blocks (hd.toBlocks.addBlock hlt) (bits_addBlock hlt) rfl rfl
        have hl' : (p.dropEmptyBlocks.addBlock s).freeList = [p.dropEmptyBlocks.block.length] := by
          change p.dropEmptyBlocks.freeList ++ _ = _
          rw [hl, nil_append]
        refine hfr ⟨hq.1, hq.2.trans hdf⟩ hl' ?_
        have hg : (p.dropEmptyBlocks.addBlock s).block[p.dropEmptyBlocks.block.length]? =
            some (.new (s.sizeOfBlock p.dropEmptyBlocks.block.length)) := getElem?_concat_length
        change 0 < (p.dropEmptyBlocks.addBlock s).countOf _
        rw [countOf, hg]
        exact sizeOfBlock_pos hlt

theorem release_spec (hi : id ∉ p.free s) (hp : 0 < id) (hl : id ≤ s.maxSize) :
    ∃ q, p.release s id = (true, q) ∧ q.Valid s ∧ q.free s = insert id (p.free s) := by
  have hu := h.usedCount_pos hi hp hl
  have hca : id ∉ p.cache := fun hm => hi (mem_free.2 (inl hm))
  have hbit : id ∉ p.bits s := fun hm => hi (mem_free.2 (inr hm))
  obtain ⟨b, hb⟩ : ∃ b, p.block[id / s.blockBits]? = some b := by
    cases hb : p.block[id / s.blockBits]? with
    | some b => exact ⟨b, rfl⟩
    | none =>
      refine absurd (mem_bits.2 ⟨hl, ?_⟩) hbit
      rw [inBlock, hb]
      rfl
  have hmo := mod_lt_sizeOfBlock hl
  have hn : id % s.blockBits ∉ b.free := fun hm => hbit ((h.mem_bits_iff hb).2 ⟨hl, hm⟩)
  have hs := h.size _ _ hb
  unfold release
  rw [if_neg (by omega), hb]
  dsimp only
  by_cases hro : p.cache.length < s.maxCacheSize
  · have ha : b.checkIfAvailable (id % s.blockBits) = false :=
      Bool.eq_false_iff.2 fun ht => hn (IdPoolBlock.mem_free.2 ⟨hs.symm ▸ hmo, ht⟩)
    rw [if_pos hro, if_neg hca, ha, if_neg Bool.false_ne_true]
    exact ⟨_, rfl, h.putCache hi hp hl hu⟩
  · obtain ⟨c, hr, hc, hma, hf⟩ := IdPoolBlock.release_spec (h.valid _ _ hb) (hs.symm ▸ hmo)
    rw [if_neg hro, hr, decide_eq_true hn]
    have hbl : Blocks s { p with
        block := p.block.set (id / s.blockBits) c
        freeList := if c.freeCount = 1 then id / s.blockBits :: p.freeList else p.freeList
        usedCount := p.usedCount - 1 } := by
      refine h.toBlocks.set hb hc hma rfl rfl (fun k hk _ => ?_) (fun _ => ?_) fun k hk => ?_
      · split_ifs
        · exact mem_cons_of_mem _ hk
        · exact hk
      · split_ifs with h1
        · exact mem_cons_self
        · -- the block had a number before, and is in the list
          refine h.listed _ _ hb (pos_of_ne_zero fun h0 => h1 ?_)
          rw [hc.count, hf, card_insert_of_notMem hn, ← (h.valid _ _ hb).count, h0]
      · split_ifs at hk
        · rcases List.mem_cons.1 hk with rfl | hk
          · exact (List.getElem?_eq_some_iff.1 hb).1
          · exact h.inList k hk
        · exact h.inList k hk
    have hbi := h.bits_insert (q := { p with
        block := p.block.set (id / s.blockBits) c
        freeList := if c.freeCount = 1 then id / s.blockBits :: p.freeList else p.freeList
        usedCount := p.usedCount - 1 }) hb rfl hma (mod_lt _ s.blockBits_pos)
      (by rw [mod_add_div']; exact hl) hf
    rw [mod_add_div'] at hbi
    exact ⟨_, rfl, h.insert hi hp hu hbl hbi rfl rfl⟩

end

theorem Blocks.withBlock (h : p.Blocks s) (hle : id ≤ s.maxSize) :
    ∃ q, p.withBlock s (id / s.blockBits) = some q ∧ q.Blocks s ∧ q.bits s = p.bits s ∧ q.cache = p.cache ∧
      q.usedCount = p.usedCount ∧ id / s.blockBits < q.block.length := by
  unfold IdPool.withBlock
  split_ifs with hl
  · have hbo := div_lt_maxBlockCount hle
    obtain ⟨hb, hbi, hlen, hc, hu⟩ := h.addFreeBlocks (id / s.blockBits + 1 - p.block.length) (by omega)
    unfold IdPool.addFreeBlocks
    rw [if_neg (by omega)]
    exact ⟨_, rfl, hb, hbi, hc, hu, by omega⟩
  · exact ⟨p, rfl, h, rfl, rfl, rfl, not_le.1 hl⟩

theorem markInBlock_spec (h : p.Blocks s) (hl : id ≤ s.maxSize) (hlt : id / s.blockBits < p.block.length) :
    ∃ q, p.markInBlock s id = some (decide (id ∈ p.bits s), q) ∧ q.Blocks s ∧ q.bits s = (p.bits s).erase id ∧
      q.cache = p.cache ∧ q.usedCount = if id ∈ p.bits s then p.usedCount + 1 else p.usedCount := by
  have hb := getElem?_eq_getElem hlt
  have hs := h.size _ _ hb
  obtain ⟨c, hmar, hc, hma, hf⟩ := markAsAcquired_spec (h.valid _ _ hb) (hs.symm ▸ mod_lt_sizeOfBlock hl)
  have hi : id ∈ p.bits s ↔ id % s.blockBits ∈ (p.block[id / s.blockBits]).free :=
    (h.mem_bits_iff hb).trans (and_iff_right hl)
  have hbl (used : ℕ) : Blocks s { p with block := p.block.set (id / s.blockBits) c, usedCount := used } := by
    refine h.set hb hc hma rfl rfl (fun k hk _ => hk) (fun hp => ?_) h.inList
    refine h.listed _ _ hb (lt_of_lt_of_le hp ?_)
    rw [hc.count, (h.valid _ _ hb).count, hf]
    exact card_le_card (erase_subset _ _)
  have hbi (used : ℕ) : bits s { p with block := p.block.set (id / s.blockBits) c, usedCount := used } =
      (p.bits s).erase id := by
    have := h.bits_erase (q := { p with block := p.block.set (id / s.blockBits) c, usedCount := used }) hb rfl hma
      (mod_lt id s.blockBits_pos) hf
    rwa [mod_add_div'] at this
  unfold markInBlock
  rw [hb, Option.bind_some, hmar, Option.map_some]
  dsimp only
  by_cases hm : id ∈ p.bits s
  · rw [decide_eq_true (hi.1 hm), decide_eq_true hm, if_pos hm, if_pos rfl]
    exact ⟨_, rfl, (hbl _).dropEmptyBlocks, hbi (p.usedCount + 1), rfl, rfl⟩
  · rw [decide_eq_false fun hin => hm (hi.2 hin), decide_eq_false hm, if_neg hm, if_neg Bool.false_ne_true]
    exact ⟨_, rfl, hbl _, hbi _, rfl, rfl⟩

theorem markAsAcquired_spec (h : p.Valid s) (hl : id ≤ s.maxSize) :
    ∃ q, p.markAsAcquired s id = some (decide (id ∈ p.free s), q) ∧ q.Valid s ∧ q.free s = (p.free s).erase id := by
  unfold markAsAcquired
  by_cases hc : id ∈ p.cache
  · obtain ⟨hva, hfr⟩ := h.uncache hc
    rw [if_pos hc, decide_eq_true (mem_free.2 (inl hc))]
    exact ⟨_, rfl, hva, hfr⟩
  · rw [if_neg hc]
    obtain ⟨q, hq, hb, hbi, hqc, hu, hlt⟩ := h.toBlocks.withBlock hl
    obtain ⟨hva, hfr⟩ := h.of_blocks hb hbi hqc hu
    obtain ⟨r, hr, hrb, hrbi, hrc, hru⟩ := markInBlock_spec hb hl hlt
    have hi : id ∈ q.free s ↔ id ∈ q.bits s := mem_free.trans (or_iff_right (hqc ▸ hc))
    rw [hq]
    dsimp only
    rw [hr, ← hfr]
    by_cases hm : id ∈ q.bits s
    · rw [if_pos hm] at hru
      rw [decide_eq_true hm, decide_eq_true (hi.2 hm)]
      exact ⟨r, rfl, hva.erase hm hrb hrbi hrc hru⟩
    · rw [if_neg hm] at hru
      have hn : id ∉ q.free s := fun hin => hm (hi.1 hin)
      rw [decide_eq_false hm, decide_eq_false hn]
      obtain ⟨hv, hf⟩ := hva.of_blocks hrb (hrbi.trans (erase_eq_of_notMem hm)) hrc hru
      exact ⟨r, rfl, hv, hf.trans (erase_eq_of_notMem hn).symm⟩

theorem valid_new (s : PoolSizes) : (new s).Valid s ∧ (new s).free s = Icc 1 s.maxSize := by
  have he : Blocks s ⟨[], [], [], 0⟩ := by
    refine ⟨zero_le _, ?_, ?_, ?_, ?_⟩ <;> simp
  have ha : bits s ⟨[], [], [], 0⟩ = Finset.range (s.maxSize + 1) := filter_true_of_mem fun _ _ => rfl
  obtain ⟨q, hq, hbl, hb, hqc, hu, hl⟩ := he.withBlock (zero_le s.maxSize)
  obtain ⟨r, hr, hrb, hrbi, hrc, -⟩ := markInBlock_spec hbl (zero_le s.maxSize) hl
  have hn : new s = { r with usedCount := 0 } := by
    unfold new markAsAcquired
    rw [if_neg not_mem_nil, hq]
    dsimp only
    rw [hr]
  have hc : r.cache = [] := hrc.trans hqc
  have hb' : bits s { r with usedCount := 0 } = (Finset.range (s.maxSize + 1)).erase 0 := by
    rw [bits_congr (q := { r with usedCount := 0 }) (p := r) rfl, hrbi, hb, ha]
  rw [hn]
  refine ⟨⟨⟨hrb.bound, hrb.valid, hrb.size, hrb.listed, hrb.inList⟩, ?_, fun id hi => ?_, ?_, ?_⟩, ?_⟩
  · exact hc ▸ nodup_nil
  · change id ∈ r.cache at hi
    rw [hc] at hi
    cases hi
  · rw [hb']
    exact notMem_erase 0 _
  · change 0 + (r.cache.length + _) = _
    rw [hb', hc, card_erase_of_mem (mem_range.2 (succ_pos _)), card_range]
    simp
  · ext id
    rw [mem_free, hb', Finset.mem_erase, Finset.mem_range, Finset.mem_Icc]
    rw [hc, or_iff_right not_mem_nil]
    omega

/-! ## The pool as a set -/

inductive Request where
  | acquire
  | release (id : ℕ)
  | markAsAcquired (id : ℕ)
  | checkIfAvailable (id : ℕ)
deriving DecidableEq

inductive Reply where
  | id (id : ℕ)
  | done (ok : Bool)
deriving DecidableEq

def serve (s : PoolSizes) (p : IdPool) : Request → Option (Reply × IdPool)
  | .acquire => (p.acquire s).map fun (id, q) => (.id id, q)
  | .release id => some (.done (p.release s id).1, (p.release s id).2)
  | .markAsAcquired id => (p.markAsAcquired s id).map fun (ok, q) => (.done ok, q)
  | .checkIfAvailable id => some (.done (p.checkIfAvailable s id), p)

def serveAll (s : PoolSizes) : IdPool → List Request → Option (List Reply × IdPool)
  | p, [] => some ([], p)
  | p, r :: rs => (p.serve s r).bind fun (a, q) => (serveAll s q rs).map fun (as, q) => (a :: as, q)

/-- what a set of acquired numbers answers, and the set that is left -/
inductive SetServes (maxSize : ℕ) (A : Finset ℕ) : Request → Reply → Finset ℕ → Prop
  | acquire {id : ℕ} (hid : id ∈ Icc 1 maxSize) (hnew : id ∉ A) :
    SetServes maxSize A .acquire (.id id) (insert id A)
  | full (h : A = Icc 1 maxSize) : SetServes maxSize A .acquire (.id 0) A
  | release {id : ℕ} {ok : Bool} (h : ok ↔ id ∈ A) : SetServes maxSize A (.release id) (.done ok) (A.erase id)
  | markAsAcquired {id : ℕ} {ok : Bool} (h : ok ↔ id ∉ A) :
    SetServes maxSize A (.markAsAcquired id) (.done ok) (insert id A)
  | checkIfAvailable {id : ℕ} {ok : Bool} (h : ok ↔ id ∉ A) : SetServes maxSize A (.checkIfAvailable id) (.done ok) A

inductive SetServesAll (maxSize : ℕ) : Finset ℕ → List Request → List Reply → Finset ℕ → Prop
  | nil (A : Finset ℕ) : SetServesAll maxSize A [] [] A
  | cons {A B C : Finset ℕ} {r : Request} {a : Reply} {rs : List Request} {as : List Reply}
      (h : SetServes maxSize A r a B) (hs : SetServesAll maxSize B rs as C) :
    SetServesAll maxSize A (r :: rs) (a :: as) C

/-- numbers of the pool, and no number is released that is in the cache while the cache is full -/
def Admissible (s : PoolSizes) (p : IdPool) : Request → Prop
  | .acquire => True
  | .release id => id ∈ Icc 1 s.maxSize ∧ ¬(id ∈ p.cache ∧ s.maxCacheSize ≤ p.cache.length)
  | .markAsAcquired id | .checkIfAvailable id => id ∈ Icc 1 s.maxSize

def AllAdmissible (s : PoolSizes) : IdPool → List Request → Prop
  | _, [] => True
  | p, r :: rs => p.Admissible s r ∧ ∀ a q, p.serve s r = some (a, q) → AllAdmissible s q rs

structure Models (s : PoolSizes) (p : IdPool) (A : Finset ℕ) : Prop extends Valid s p where
  sub : A ⊆ Icc 1 s.maxSize
  free_eq : p.free s = Icc 1 s.maxSize \ A

variable {A : Finset ℕ}

theorem Models.mem_free_iff (h : p.Models s A) (hi : id ∈ Icc 1 s.maxSize) : id ∈ p.free s ↔ id ∉ A := by
  rw [h.free_eq, mem_sdiff, and_iff_right hi]

theorem Models.usedCount (h : p.Models s A) : p.usedCount = A.card := by
  have hu := h.used
  rw [← h.card_free, h.free_eq, card_sdiff_of_subset h.sub, card_Icc] at hu
  have := card_le_card h.sub
  rw [card_Icc] at this
  omega

theorem release_of_free (h : p.Valid s) (hi : id ∈ p.free s) (hs : id ∈ p.cache → p.cache.length < s.maxCacheSize) :
    p.release s id = (false, p) := by
  have hr := h.pos_of_mem_free hi
  unfold release
  rw [if_neg (by omega)]
  split
  · rfl
  · next b hb =>
    have hbi : id ∉ p.cache → b.checkIfAvailable (id % s.blockBits) := fun hc => by
      have hin := (mem_bits.1 ((mem_free.1 hi).resolve_left hc)).2
      rwa [inBlock, hb] at hin
    split
    · by_cases hc : id ∈ p.cache
      · rw [if_pos hc]
      · rw [if_neg hc, if_pos (hbi hc)]
    · next hf =>
      obtain ⟨hl, rfl⟩ := List.getElem?_eq_some_iff.1 hb
      simp [release_of_available (hbi fun hc => hf (hs hc))]

theorem Models.serve (h : p.Models s A) {r : Request} (hr : p.Admissible s r) :
    ∃ a q B, p.serve s r = some (a, q) ∧ SetServes s.maxSize A r a B ∧ q.Models s B := by
  cases r with
  | acquire =>
    obtain ⟨id, q, hq, hv, ⟨rfl, he, hf⟩ | ⟨hi, hf⟩⟩ := acquire_spec h.toValid
    · have ha : A = Icc 1 s.maxSize := h.sub.antisymm (sdiff_eq_empty_iff_subset.1 (h.free_eq.symm.trans he))
      exact ⟨_, q, A, by rw [IdPool.serve, hq]; rfl, .full ha, hv, h.sub, by rw [hf, ha, Finset.sdiff_self]⟩
    · have hra : id ∈ Icc 1 s.maxSize := mem_Icc.2 (h.pos_of_mem_free hi)
      refine ⟨_, q, insert id A, by rw [IdPool.serve, hq]; rfl, .acquire hra ((h.mem_free_iff hra).1 hi), hv,
        insert_subset hra h.sub, ?_⟩
      rw [hf, h.free_eq, sdiff_insert]
  | release id =>
    by_cases hf : id ∈ p.free s
    · have hA := (h.mem_free_iff hr.1).1 hf
      have heq := release_of_free h.toValid hf fun hc => lt_of_not_ge fun hl => hr.2 ⟨hc, hl⟩
      exact ⟨_, p, A.erase id, by rw [IdPool.serve, heq], .release (by simpa using hA), by rwa [erase_eq_of_notMem hA]⟩
    · have hA : id ∈ A := not_not.1 fun hA => hf ((h.mem_free_iff hr.1).2 hA)
      obtain ⟨hp, hl⟩ := mem_Icc.1 hr.1
      obtain ⟨q, hq, hv, hqf⟩ := release_spec h.toValid hf hp hl
      refine ⟨_, q, A.erase id, by rw [IdPool.serve, hq], .release (by simpa using hA), hv,
        (erase_subset _ _).trans h.sub, ?_⟩
      rw [hqf, h.free_eq, sdiff_erase hr.1]
  | markAsAcquired id =>
    obtain ⟨q, hq, hv, hf⟩ := markAsAcquired_spec h.toValid (mem_Icc.1 hr).2
    refine ⟨_, q, insert id A, by rw [IdPool.serve, hq]; rfl, .markAsAcquired ?_, hv, insert_subset hr h.sub, ?_⟩
    · rw [decide_eq_true_iff, h.mem_free_iff hr]
    · rw [hf, h.free_eq, sdiff_insert]
  | checkIfAvailable id =>
    refine ⟨_, p, A, rfl, .checkIfAvailable ?_, h⟩
    rw [h.toValid.checkIfAvailable, decide_eq_true_iff, h.mem_free_iff hr]

theorem Models.serveAll {rs : List Request} (h : p.Models s A) (hr : AllAdmissible s p rs) :
    ∃ as q B, serveAll s p rs = some (as, q) ∧ SetServesAll s.maxSize A rs as B ∧ q.Models s B := by
  induction rs generalizing p A with
  | nil => exact ⟨[], p, A, rfl, .nil A, h⟩
  | cons r rs ih =>
    obtain ⟨a, q, B, hq, hB, hm⟩ := h.serve hr.1
    obtain ⟨as, q', C, hq', hC, hm'⟩ := ih hm (hr.2 a q hq)
    exact ⟨a :: as, q', C, by simp [IdPool.serveAll, hq, hq'], .cons hB hC, hm'⟩

/-- **The pool is a set.** In every sequence of calls with numbers of the pool, if no number is released that is in the
cache while the cache is full, the answers are those of the set of acquired numbers, and its size is the one counted. -/
theorem pool_is_set (s : PoolSizes) (rs : List Request) (h : AllAdmissible s (new s) rs) :
    ∃ as p A, serveAll s (new s) rs = some (as, p) ∧ SetServesAll s.maxSize ∅ rs as A ∧ p.usedCount = A.card := by
  obtain ⟨hvalid, hfree⟩ := valid_new s
  obtain ⟨as, p, A, hrun, hset, hm⟩ := Models.serveAll ⟨hvalid, empty_subset _, by rw [hfree, sdiff_empty]⟩ h
  exact ⟨as, p, A, hrun, hset, hm.usedCount⟩

end IdPool

/-- room for one number in the cache -/
def narrowPool : PoolSizes where
  maxSize := 3
  blockSize := 64
  cacheSize := 1
  order := ⟨fun l id => id :: l, fun _ _ => .rfl⟩
  maxSize_lt := by decide
  blockSize_pos := by decide
  blockSize_le := by decide

namespace IdPool

theorem pool_is_set_narrow : let rs : List Request := [.acquire, .release 1, .markAsAcquired 3]
    ∃ as p A, serveAll narrowPool (new narrowPool) rs = some (as, p) ∧ SetServesAll 3 ∅ rs as A ∧
      p.usedCount = A.card := by
  refine pool_is_set narrowPool _ ⟨trivial, fun a q hq => ⟨⟨show 1 ∈ Icc 1 3 by decide, fun hc => ?_⟩,
    fun _ _ _ => ⟨show 3 ∈ Icc 1 3 by decide, fun _ _ _ => trivial⟩⟩⟩
  have he : ((new narrowPool).serve narrowPool .acquire).map (·.2.cache) = some [] := by decide +kernel
  simp_all

/-- a number that fills the cache is released again: the pool takes it, and gives it out twice -/
theorem released_twice : let rs : List Request := [.acquire, .release 1, .release 1, .acquire, .acquire]
    let as : List Reply := [.id 1, .done true, .done true, .id 1, .id 1]
    (serveAll narrowPool (new narrowPool) rs).map Prod.fst = some as ∧ ¬∃ A, SetServesAll 3 ∅ rs as A := by
  refine ⟨by decide +kernel, ?_⟩
  rintro ⟨A, h⟩
  obtain _ | ⟨h₁, h⟩ := h
  obtain _ | ⟨h₂, h⟩ := h
  obtain _ | ⟨h₃, h⟩ := h
  cases h₁ with
  | acquire hid hnew =>
    cases h₂ with
    | release hok =>
      cases h₃ with
      | release hok' => simp at hok'

end IdPool

end SaunaFS.Inodes
