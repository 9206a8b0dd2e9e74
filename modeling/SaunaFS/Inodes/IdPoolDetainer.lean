/-
The pool of inode numbers (`IdPoolDetainer` of `master/id_pool_detainer.h`): a number that is released goes to a bucket
with a time stamp, and back to the pool when the bucket is old enough. Time stamps have 32 bits, and their sums wrap
around.

Each function is described by what it does to `acquired`, the numbers that are neither free nor detained, and by where a
number may be afterwards (`DetainedAt`).
-/
import SaunaFS.Inodes.IdPool

namespace SaunaFS.Inodes

open Finset List Or

/-! ## Model -/

/-- the two implementations of `detail::SparseBitset` -/
inductive BitsetKind where
  | judy
  | deque
deriving DecidableEq

/-- `SparseBitset::set`; the elements are in the order of the iterator -/
def BitsetKind.set (kind : BitsetKind) (data : List ℕ) (pos : ℕ) : Bool × List ℕ :=
  match kind with
  | .judy => if pos ∈ data then (false, data) else (true, data.orderedInsert (· ≤ ·) pos)
  | .deque => (true, data ++ [pos])

/-- the arguments of the constructor -/
structure DetainerSizes extends PoolSizes where
  detainTime : ℕ
  bucketCount : ℕ
  maxDetentionSize : ℕ
  releaseCount : ℕ
  kind : BitsetKind
  bucketCount_pos : 0 < bucketCount

def DetainerSizes.bucketTime (s : DetainerSizes) : ℕ := s.detainTime / s.bucketCount

/-- `BucketType` -/
structure Bucket where
  ts : ℕ
  data : List ℕ
deriving DecidableEq

structure IdPoolDetainer where
  pool : IdPool
  detention : List Bucket
  detainedCount : ℕ
deriving DecidableEq

namespace IdPoolDetainer

variable (s : DetainerSizes) (d : IdPoolDetainer)

/-- the constructor -/
def new : IdPoolDetainer := ⟨.new s.toPoolSizes, [], 0⟩

/-- the first number of the first bucket; there is no outcome where the assertion fails -/
def popDetained : Option (ℕ × IdPoolDetainer) :=
  match d.detention with
  | [] => none
  | bucket :: rest =>
    match bucket.data with
    | [] => none
    | nid :: data =>
      some (nid, { d with
        detention := if data = [] then rest else { bucket with data := data } :: rest
        detainedCount := d.detainedCount - 1 })

/-- the loops of `releaseDetained` and `forceReleaseDetained`: numbers go back to the pool while the first bucket is
due -/
def releaseWhile (due : ℕ → Bool) : ℕ → IdPoolDetainer → Option (ℕ × IdPoolDetainer)
  | 0, d => some (0, d)
  | maxCount + 1, d =>
    match d.detention with
    | [] => some (0, d)
    | bucket :: _ =>
      if due bucket.ts then
        d.popDetained.bind fun (nid, d) =>
          (releaseWhile due maxCount { d with pool := (d.pool.release s.toPoolSizes nid).2 }).map fun (count, d) =>
            (count + 1, d)
      else some (0, d)

def due (ts bucketTs : ℕ) : Bool := (bucketTs + s.bucketTime + s.detainTime) % 2 ^ 32 < ts

def releaseDetained (ts : ℕ) (maxCount : ℤ) : Option (ℕ × IdPoolDetainer) := d.releaseWhile s (due s ts) maxCount.toNat

/-- `releaseDetained` as the other functions call it, with `release_count_` as an `int` -/
def releaseSome (ts : ℕ) : Option IdPoolDetainer :=
  (d.releaseDetained s ts ((s.releaseCount : ℤ).bmod (2 ^ 32))).map Prod.snd

def forceReleaseDetained (count : ℤ) : Option IdPoolDetainer :=
  (d.releaseWhile s (fun _ => true) count.toNat).map Prod.snd

/-- `acquire` without a time stamp; 0 if all numbers are in use -/
def acquire : Option (ℕ × IdPoolDetainer) :=
  (d.pool.acquire s.toPoolSizes).bind fun (id, pool) =>
    let d := { d with pool := pool }
    if id = 0 ∧ d.detention ≠ [] then d.popDetained else some (id, d)

/-- some bucket has the number -/
def isDetained (id : ℕ) : Bool := d.detention.any fun bucket => decide (id ∈ bucket.data)

def insert (id ts : ℕ) : IdPoolDetainer :=
  let fresh := d.detention ++ [⟨ts, []⟩]
  let detention :=
    match d.detention.getLast? with
    | none => fresh
    | some back => if (back.ts + s.bucketTime) % 2 ^ 32 < ts then fresh else d.detention
  match detention.getLast? with
  | none => d
  | some back =>
    let r := s.kind.set back.data id
    { d with
      detention := detention.dropLast ++ [{ back with data := r.2 }]
      detainedCount := if r.1 then d.detainedCount + 1 else d.detainedCount }

/-- the end of `release` and `detain`: room is made in a full detention, and the number goes there -/
def putDetained (id ts : ℕ) (overcrowd : Bool) : Option IdPoolDetainer :=
  if overcrowd = false ∧ s.maxDetentionSize ≤ d.detainedCount then
    (d.forceReleaseDetained s (((d.detainedCount - s.maxDetentionSize + 1 : ℕ) : ℤ).bmod (2 ^ 32))).map fun d =>
      d.insert s id ts
  else some (d.insert s id ts)

def release (id ts : ℕ) (skipCheck : Bool) : Option (Bool × IdPoolDetainer) :=
  (d.releaseSome s ts).bind fun d =>
    if id = 0 ∨ d.pool.checkIfAvailable s.toPoolSizes id then some (false, d)
    else if skipCheck = false ∧ d.isDetained id then some (false, d)
    else (d.putDetained s id ts false).map fun d => (true, d)

/-- the first bucket with the number gives it away -/
def unsetDetained (id : ℕ) : List Bucket → Option (List Bucket)
  | [] => none
  | bucket :: rest =>
    if id ∈ bucket.data then
      let data := bucket.data.erase id
      some (if data = [] then rest else { bucket with data := data } :: rest)
    else (unsetDetained id rest).map (bucket :: ·)

/-- `markAsAcquired` without a time stamp -/
def markAsAcquired (id : ℕ) : Option (Bool × IdPoolDetainer) :=
  (d.pool.markAsAcquired s.toPoolSizes id).map fun (ret, pool) =>
    let d := { d with pool := pool }
    if ret then (true, d)
    else
      match unsetDetained id d.detention with
      | none => (false, d)
      | some detention => (true, { d with detention := detention, detainedCount := d.detainedCount - 1 })

def detain (id ts : ℕ) (overcrowd skipCheck : Bool) : Option (Bool × IdPoolDetainer) :=
  (d.releaseSome s ts).bind fun d =>
    if skipCheck = false ∧ d.isDetained id then some (false, d)
    else
      (d.pool.markAsAcquired s.toPoolSizes id).bind fun (ret, pool) =>
        let d := { d with pool := pool }
        if ret then (d.putDetained s id ts overcrowd).map fun d => (true, d) else some (false, d)

/-- `size`; the counters have 64 bits -/
def size : ℕ := (d.pool.usedCount + 2 ^ 64 - d.detainedCount) % 2 ^ 64

end IdPoolDetainer

/-! ## What a detainer stands for -/

namespace IdPoolDetainer

variable {s : DetainerSizes} {d e f : IdPoolDetainer} {id x t ts : ℕ}

/-- the numbers that are detained -/
def detained (d : IdPoolDetainer) : List ℕ := d.detention.flatMap Bucket.data

/-- a number and the time stamp of its bucket -/
def DetainedAt (d : IdPoolDetainer) (id t : ℕ) : Prop := ∃ bucket ∈ d.detention, bucket.ts = t ∧ id ∈ bucket.data

/-- the numbers in the pool -/
def free (s : DetainerSizes) (d : IdPoolDetainer) : Finset ℕ := d.pool.free s.toPoolSizes

/-- the numbers that are neither free nor detained -/
def acquired (s : DetainerSizes) (d : IdPoolDetainer) : Finset ℕ :=
  (Icc 1 s.maxSize).filter fun id => id ∉ d.free s ∧ id ∉ d.detained

structure Valid (s : DetainerSizes) (d : IdPoolDetainer) : Prop where
  pool : d.pool.Valid s.toPoolSizes
  filled : ∀ bucket ∈ d.detention, bucket.data ≠ []
  nodup : d.detained.Nodup
  inUse : ∀ id ∈ d.detained, 0 < id ∧ id ≤ s.maxSize ∧ id ∉ d.free s
  count : d.detainedCount = d.detained.length

theorem mem_detained : id ∈ d.detained ↔ ∃ t, d.DetainedAt id t := by
  unfold detained DetainedAt
  rw [mem_flatMap]
  constructor
  · rintro ⟨bucket, hb, hi⟩
    exact ⟨bucket.ts, bucket, hb, rfl, hi⟩
  · rintro ⟨_, bucket, hb, _, hi⟩
    exact ⟨bucket, hb, hi⟩

theorem isDetained_eq : d.isDetained id = decide (id ∈ d.detained) := by
  unfold isDetained detained
  rw [Bool.eq_iff_iff, any_eq_true, decide_eq_true_iff, mem_flatMap]
  simp only [decide_eq_true_iff]

theorem mem_acquired : id ∈ d.acquired s ↔ (0 < id ∧ id ≤ s.maxSize) ∧ id ∉ d.free s ∧ id ∉ d.detained := by
  rw [acquired, Finset.mem_filter, Finset.mem_Icc, Nat.one_le_iff_ne_zero, Nat.pos_iff_ne_zero]

theorem acquired_congr (hf : e.free s = d.free s) (hd : ∀ id, id ∈ e.detained ↔ id ∈ d.detained) :
    e.acquired s = d.acquired s := by
  unfold acquired
  simp only [hf, hd]

theorem valid_new (s : DetainerSizes) : (new s).Valid s where
  pool := (IdPool.valid_new s.toPoolSizes).1
  filled := fun _ h => absurd h not_mem_nil
  nodup := nodup_nil
  inUse := fun _ h => absurd h not_mem_nil
  count := rfl

theorem acquired_new (s : DetainerSizes) : (new s).acquired s = ∅ := by
  refine filter_false_of_mem fun id hi => ?_
  have hf : (new s).free s = Icc 1 s.maxSize := (IdPool.valid_new s.toPoolSizes).2
  rw [hf]
  exact fun h => h.1 hi

theorem Valid.card_acquired (h : d.Valid s) : d.pool.usedCount = (d.acquired s).card + d.detained.length := by
  have hsu : d.free s ⊆ Icc 1 s.maxSize := fun k hk => mem_Icc.2 (h.pool.pos_of_mem_free hk)
  have hs : Icc 1 s.maxSize \ d.free s = d.acquired s ∪ d.detained.toFinset := by
    ext k
    rw [mem_sdiff, mem_union, mem_acquired, mem_toFinset, mem_Icc]
    constructor
    · rintro ⟨hk, hf⟩
      by_cases hd : k ∈ d.detained
      · exact inr hd
      · exact inl ⟨hk, hf, hd⟩
    · rintro (⟨hk, hf, _⟩ | hd)
      · exact ⟨hk, hf⟩
      · obtain ⟨hp, hl, hf⟩ := h.inUse k hd
        exact ⟨⟨hp, hl⟩, hf⟩
  have hdi : Disjoint (d.acquired s) d.detained.toFinset :=
    disjoint_left.2 fun k hk hd => (mem_acquired.1 hk).2.2 (mem_toFinset.1 hd)
  have hc := congrArg card hs
  rw [card_sdiff_of_subset hsu, card_union_of_disjoint hdi, toFinset_card_of_nodup h.nodup, Nat.card_Icc] at hc
  have hf : (d.free s).card = _ := h.pool.card_free
  have := h.pool.used
  omega

theorem Valid.size (h : d.Valid s) : d.size = (d.acquired s).card := by
  have hc := h.card_acquired
  have hl : (d.acquired s).card ≤ s.maxSize := by
    refine (card_filter_le _ _).trans ?_
    rw [Nat.card_Icc]
    omega
  have hlt := s.maxSize_lt
  unfold IdPoolDetainer.size
  rw [h.count]
  omega

theorem Valid.detainedAt_unique {t' : ℕ} (h : d.Valid s) (ht : d.DetainedAt id t) (ht' : d.DetainedAt id t') :
    t = t' := by
  obtain ⟨b, hb, rfl, hi⟩ := ht
  obtain ⟨c, hc, rfl, hid⟩ := ht'
  by_contra hn
  have hp := (nodup_flatMap.1 h.nodup).2
  have : Std.Symm (Function.onFun List.Disjoint Bucket.data) := ⟨fun _ _ hd => List.Disjoint.symm hd⟩
  have hd := hp.forall hb hc fun he => hn (congrArg Bucket.ts he)
  exact hd hi hid

/-! ## Numbers that leave the detention -/

/-- one number leaves its bucket, and the bucket goes with its last number -/
structure Unset (id : ℕ) (l l' : List Bucket) : Prop where
  data : l'.flatMap Bucket.data = (l.flatMap Bucket.data).erase id
  filled : (∀ bucket ∈ l, bucket.data ≠ []) → ∀ bucket ∈ l', bucket.data ≠ []
  back : ∀ bucket' ∈ l', ∃ bucket ∈ l, bucket.ts = bucket'.ts ∧ bucket'.data ⊆ bucket.data
  stays : ∀ bucket ∈ l, ∀ x ∈ bucket.data, x ≠ id → ∃ bucket' ∈ l', bucket'.ts = bucket.ts ∧ x ∈ bucket'.data

variable {bucket : Bucket} {l : List Bucket}

theorem unset_head (rest : List Bucket) (hi : id ∈ bucket.data) : Unset id (bucket :: rest)
      (if bucket.data.erase id = [] then rest else { bucket with data := bucket.data.erase id } :: rest) := by
  refine ⟨?_, fun hf b hb => ?_, fun b hb => ?_, fun b hb x hx hne => ?_⟩
  · rw [flatMap_cons, erase_append_left _ hi]
    split_ifs with hn
    · rw [hn, nil_append]
    · rfl
  · split_ifs at hb with hn
    · exact hf b (mem_cons_of_mem _ hb)
    · rcases mem_cons.1 hb with rfl | hb
      · exact hn
      · exact hf b (mem_cons_of_mem _ hb)
  · split_ifs at hb with hn
    · exact ⟨b, mem_cons_of_mem _ hb, rfl, Subset.refl _⟩
    · rcases mem_cons.1 hb with rfl | hb
      · exact ⟨bucket, mem_cons_self, rfl, erase_subset⟩
      · exact ⟨b, mem_cons_of_mem _ hb, rfl, Subset.refl _⟩
  · rcases mem_cons.1 hb with rfl | hb
    · have hx' : x ∈ b.data.erase id := (mem_erase_of_ne hne).2 hx
      rw [if_neg (ne_nil_of_mem hx')]
      exact ⟨_, mem_cons_self, rfl, hx'⟩
    · refine ⟨b, ?_, rfl, hx⟩
      split_ifs
      · exact hb
      · exact mem_cons_of_mem _ hb

theorem Unset.cons {l' : List Bucket} (h : Unset id l l') (hi : id ∉ bucket.data) :
    Unset id (bucket :: l) (bucket :: l') := by
  refine ⟨?_, fun hf b hb => ?_, fun b hb => ?_, fun b hb x hx hn => ?_⟩
  · rw [flatMap_cons, flatMap_cons, erase_append_right _ hi, h.data]
  · rcases mem_cons.1 hb with rfl | hb
    · exact hf b mem_cons_self
    · exact h.filled (fun c hc => hf c (mem_cons_of_mem _ hc)) b hb
  · rcases mem_cons.1 hb with rfl | hb
    · exact ⟨b, mem_cons_self, rfl, Subset.refl _⟩
    · obtain ⟨c, hc, ht, hs⟩ := h.back b hb
      exact ⟨c, mem_cons_of_mem _ hc, ht, hs⟩
  · rcases mem_cons.1 hb with rfl | hb
    · exact ⟨b, mem_cons_self, rfl, hx⟩
    · obtain ⟨c, hc, ht, hm⟩ := h.stays b hb x hx hn
      exact ⟨c, mem_cons_of_mem _ hc, ht, hm⟩

theorem unsetDetained_spec (hi : id ∈ l.flatMap Bucket.data) : ∃ l', unsetDetained id l = some l' ∧ Unset id l l' := by
  induction l with
  | nil => cases hi
  | cons bucket rest ih =>
    unfold unsetDetained
    by_cases hm : id ∈ bucket.data
    · rw [if_pos hm]
      exact ⟨_, rfl, unset_head rest hm⟩
    · rw [flatMap_cons, mem_append] at hi
      obtain ⟨l', hl', hu⟩ := ih (hi.resolve_left hm)
      rw [if_neg hm, hl']
      exact ⟨_, rfl, hu.cons hm⟩

theorem unsetDetained_eq_none (hi : id ∉ l.flatMap Bucket.data) : unsetDetained id l = none := by
  induction l with
  | nil => rfl
  | cons bucket rest ih =>
    rw [flatMap_cons, mem_append, not_or] at hi
    unfold unsetDetained
    rw [if_neg hi.1, ih hi.2]
    rfl

/-- a number leaves the detention -/
structure Left (s : DetainerSizes) (d e : IdPoolDetainer) (id : ℕ) : Prop where
  valid : e.Valid s
  pool : e.pool = d.pool
  mem : id ∈ d.detained
  detained : ∀ x, x ∈ e.detained ↔ x ≠ id ∧ x ∈ d.detained
  back : ∀ x t, e.DetainedAt x t → d.DetainedAt x t
  stays : ∀ x t, x ≠ id → d.DetainedAt x t → e.DetainedAt x t

theorem Valid.left (h : d.Valid s) (hi : id ∈ d.detained) (hu : Unset id d.detention l) :
    Left s d { d with detention := l, detainedCount := d.detainedCount - 1 } id := by
  have hm (x : ℕ) : x ∈ l.flatMap Bucket.data ↔ x ≠ id ∧ x ∈ d.detained := by
    rw [hu.data]
    exact h.nodup.mem_erase_iff
  refine ⟨⟨h.pool, hu.filled h.filled, ?_, fun x hx => ?_, ?_⟩, rfl, hi, hm, ?_, ?_⟩
  · change (l.flatMap Bucket.data).Nodup
    rw [hu.data]
    exact h.nodup.erase id
  · exact h.inUse x ((hm x).1 hx).2
  · change d.detainedCount - 1 = (l.flatMap Bucket.data).length
    rw [hu.data, h.count]
    exact (length_erase_of_mem hi).symm
  · rintro x t ⟨b, hb, rfl, hx⟩
    obtain ⟨c, hc, ht, hs⟩ := hu.back b hb
    exact ⟨c, hc, ht, hs hx⟩
  · rintro x t hn ⟨b, hb, rfl, hx⟩
    obtain ⟨c, hc, ht, hm⟩ := hu.stays b hb x hx hn
    exact ⟨c, hc, ht, hm⟩

theorem Valid.popDetained (h : d.Valid s) {rest : List Bucket} (hde : d.detention = bucket :: rest) :
    ∃ id e, d.popDetained = some (id, e) ∧ Left s d e id ∧ d.DetainedAt id bucket.ts := by
  have hb : bucket ∈ d.detention := hde ▸ mem_cons_self
  obtain ⟨id, data, hd⟩ := exists_cons_of_ne_nil (h.filled bucket hb)
  have hi : id ∈ bucket.data := hd ▸ mem_cons_self
  have ha : d.DetainedAt id bucket.ts := ⟨bucket, hb, rfl, hi⟩
  have hu : Unset id d.detention (if data = [] then rest else { bucket with data := data } :: rest) := by
    have := unset_head rest hi
    rwa [hd, erase_cons_head, ← hde] at this
  unfold IdPoolDetainer.popDetained
  simp only [hde, hd]
  exact ⟨id, _, rfl, h.left (mem_detained.2 ⟨_, ha⟩) hu, ha⟩

/-- the detainer gives numbers back to the pool, those of buckets that are due -/
structure Released (s : DetainerSizes) (due : ℕ → Bool) (d e : IdPoolDetainer) : Prop where
  valid : e.Valid s
  acquired : e.acquired s = d.acquired s
  back : ∀ x t, e.DetainedAt x t → d.DetainedAt x t
  stays : ∀ x t, d.DetainedAt x t → e.DetainedAt x t ∨ due t = true

theorem Left.release (hd : d.Valid s) (h : Left s d e id) :
    Valid s { e with pool := (e.pool.release s.toPoolSizes id).2 } ∧
      acquired s { e with pool := (e.pool.release s.toPoolSizes id).2 } = d.acquired s := by
  obtain ⟨hpo, hl, hf⟩ := hd.inUse id h.mem
  obtain ⟨p, hp, hv, hpf⟩ := IdPool.release_spec (h.valid.pool) (h.pool.symm ▸ hf) hpo hl
  have hp' : (e.pool.release s.toPoolSizes id).2 = p := by rw [hp]
  have hf' : p.free s.toPoolSizes = Insert.insert id (d.free s) := by
    rw [hpf, h.pool]
    rfl
  rw [hp']
  refine ⟨⟨hv, h.valid.filled, h.valid.nodup, fun x hx => ?_, h.valid.count⟩, ?_⟩
  · obtain ⟨hn, hx'⟩ := (h.detained x).1 hx
    obtain ⟨hpo', hl', hf''⟩ := hd.inUse x hx'
    refine ⟨hpo', hl', ?_⟩
    change x ∉ p.free s.toPoolSizes
    rw [hf', mem_insert, not_or]
    exact ⟨hn, hf''⟩
  · ext x
    rw [mem_acquired, mem_acquired]
    change _ ∧ x ∉ p.free s.toPoolSizes ∧ x ∉ e.detained ↔ _
    rw [hf', mem_insert, h.detained]
    have := h.mem
    by_cases hx : x = id
    · subst hx
      tauto
    · tauto

theorem Valid.releaseWhile (due : ℕ → Bool) (maxCount : ℕ) (h : d.Valid s) :
    ∃ n e, d.releaseWhile s due maxCount = some (n, e) ∧ Released s due d e := by
  induction maxCount generalizing d with
  | zero => exact ⟨0, d, rfl, h, rfl, fun _ _ hx => hx, fun _ _ hx => inl hx⟩
  | succ maxCount ih =>
    unfold IdPoolDetainer.releaseWhile
    cases hd : d.detention with
    | nil => exact ⟨0, d, rfl, h, rfl, fun _ _ hx => hx, fun _ _ hx => inl hx⟩
    | cons bucket rest =>
      dsimp only
      split_ifs with hdu
      · obtain ⟨id, e, hp, hl, hat⟩ := h.popDetained hd
        obtain ⟨hv, ha⟩ := hl.release h
        obtain ⟨n, f, hf, hr⟩ := ih hv
        rw [hp, Option.bind_some, hf]
        refine ⟨n + 1, f, rfl, hr.valid, hr.acquired.trans ha, fun x t hx => ?_, fun x t hx => ?_⟩
        · exact hl.back x t (hr.back x t hx)
        · by_cases hxi : x = id
          · -- the number has one bucket only, the first one
            exact inr (h.detainedAt_unique (hxi ▸ hx) hat ▸ hdu)
          · exact hr.stays x t (hl.stays x t hxi hx)
      · exact ⟨0, d, rfl, h, rfl, fun _ _ hx => hx, fun _ _ hx => inl hx⟩

theorem Valid.releaseSome (h : d.Valid s) (ts : ℕ) : ∃ e, d.releaseSome s ts = some e ∧ Released s (due s ts) d e := by
  obtain ⟨n, e, he, hr⟩ := h.releaseWhile (due s ts) ((s.releaseCount : ℤ).bmod (2 ^ 32)).toNat
  refine ⟨e, ?_, hr⟩
  unfold IdPoolDetainer.releaseSome IdPoolDetainer.releaseDetained
  rw [he]
  rfl

/-! ## Numbers that are handed out -/

/-- what becomes of the detention when a number may leave it -/
structure Handed (s : DetainerSizes) (d e : IdPoolDetainer) (id : ℕ) : Prop where
  valid : e.Valid s
  inRange : 0 < id ∧ id ≤ s.maxSize
  fresh : id ∉ d.acquired s
  acquired : e.acquired s = Insert.insert id (d.acquired s)
  back : ∀ x t, e.DetainedAt x t → d.DetainedAt x t
  stays : ∀ x t, x ≠ id → d.DetainedAt x t → e.DetainedAt x t

section

variable (h : d.Valid s)
include h

variable {pool : IdPool}

theorem Valid.handed_free (hi : id ∈ d.free s) (hpo : pool.Valid s.toPoolSizes)
    (hf : pool.free s.toPoolSizes = (d.free s).erase id) : Handed s d { d with pool := pool } id := by
  have hn : id ∉ d.detained := fun hd => (h.inUse id hd).2.2 hi
  refine ⟨⟨hpo, h.filled, h.nodup, fun x hx => ?_, h.count⟩, h.pool.pos_of_mem_free hi, fun hm => ?_, ?_,
    fun _ _ hx => hx, fun _ _ _ hx => hx⟩
  · obtain ⟨hp, hl, hx'⟩ := h.inUse x hx
    refine ⟨hp, hl, ?_⟩
    change x ∉ pool.free s.toPoolSizes
    rw [hf]
    exact fun hm => hx' (Finset.mem_of_mem_erase hm)
  · exact (mem_acquired.1 hm).2.1 hi
  · have hp := h.pool.pos_of_mem_free hi
    ext x
    rw [mem_insert, mem_acquired, mem_acquired]
    change _ ∧ x ∉ pool.free s.toPoolSizes ∧ x ∉ d.detained ↔ _
    rw [hf, mem_erase]
    by_cases hx : x = id
    · subst hx
      exact iff_of_true ⟨hp, fun hm => hm.1 rfl, hn⟩ (inl rfl)
    · rw [or_iff_right hx, and_iff_right hx]

theorem Left.handed (hl : Left s d e id) : Handed s d e id := by
  obtain ⟨hp, hle, hf⟩ := h.inUse id hl.mem
  refine ⟨hl.valid, ⟨hp, hle⟩, fun hm => (mem_acquired.1 hm).2.2 hl.mem, ?_, hl.back, hl.stays⟩
  have hs : e.free s = d.free s := by rw [free, free, hl.pool]
  ext x
  rw [mem_insert, mem_acquired, mem_acquired, hs, hl.detained]
  by_cases hx : x = id
  · subst hx
    exact iff_of_true ⟨⟨hp, hle⟩, hf, fun hm => hm.1 rfl⟩ (inl rfl)
  · rw [or_iff_right hx, and_iff_right hx]

theorem Valid.withPool (hp : pool.Valid s.toPoolSizes) (hf : pool.free s.toPoolSizes = d.free s) :
    Valid s { d with pool := pool } ∧ acquired s { d with pool := pool } = d.acquired s := by
  refine ⟨⟨hp, h.filled, h.nodup, fun x hx => ?_, h.count⟩, acquired_congr hf fun _ => Iff.rfl⟩
  obtain ⟨hpo, hl, hx'⟩ := h.inUse x hx
  exact ⟨hpo, hl, fun hm => hx' (hf ▸ hm)⟩

/-- **`acquire`** -/
theorem Valid.acquire : ∃ id e, d.acquire s = some (id, e) ∧
      (id = 0 ∧ e.Valid s ∧ e.acquired s = d.acquired s ∧ e.detention = d.detention ∧
          d.acquired s = Icc 1 s.maxSize ∨
        Handed s d e id ∧ (id ∈ d.free s ∨ d.free s = ∅)) := by
  obtain ⟨id, pool, hac, hp, hc⟩ := IdPool.acquire_spec h.pool
  unfold IdPoolDetainer.acquire
  rw [hac, Option.bind_some]
  dsimp only
  rcases hc with ⟨rfl, he, he'⟩ | ⟨hi, hf⟩
  · have hs : pool.free s.toPoolSizes = d.free s := he'.trans he.symm
    obtain ⟨hv, ha⟩ := h.withPool hp hs
    cases hd : d.detention with
    | nil =>
      refine ⟨0, _, rfl, inl ⟨rfl, hd ▸ hv, hd ▸ ha, rfl, ?_⟩⟩
      refine filter_true_of_mem fun id _ => ⟨?_, ?_⟩
      · change id ∉ d.pool.free s.toPoolSizes
        rw [he]
        exact notMem_empty id
      · rw [detained, hd]
        exact not_mem_nil
    | cons bucket rest =>
      obtain ⟨id, e, hpo, hl, _⟩ := hv.popDetained (hd : IdPoolDetainer.detention { d with pool := pool } = _)
      have hh := hl.handed hv
      rw [hd] at hpo
      refine ⟨id, e, hpo, inr ⟨⟨hh.valid, hh.inRange, ?_, ?_, hh.back, hh.stays⟩, inr he⟩⟩
      · exact ha ▸ hh.fresh
      · exact ha ▸ hh.acquired
  · have hpos := h.pool.pos_of_mem_free hi
    rw [if_neg fun hz => hpos.1.ne' hz.1]
    exact ⟨id, _, rfl, inr ⟨h.handed_free hi hp hf, inl hi⟩⟩

/-- **`markAsAcquired`** -/
theorem Valid.markAsAcquired (hle : id ≤ s.maxSize) : ∃ r e, d.markAsAcquired s id = some (r, e) ∧
      (r ∧ Handed s d e id ∨ r = false ∧ e.Valid s ∧ e.acquired s = d.acquired s ∧ e.detention = d.detention) := by
  obtain ⟨pool, hm, hp, hf⟩ := IdPool.markAsAcquired_spec h.pool hle
  unfold IdPoolDetainer.markAsAcquired
  rw [hm, Option.map_some]
  dsimp only
  by_cases hi : id ∈ d.pool.free s.toPoolSizes
  · rw [decide_eq_true hi, if_pos rfl]
    exact ⟨true, _, rfl, inl ⟨rfl, h.handed_free hi hp hf⟩⟩
  · obtain ⟨hv, ha⟩ := h.withPool hp (hf.trans (erase_eq_of_notMem hi))
    rw [decide_eq_false hi, if_neg Bool.false_ne_true]
    by_cases hd : id ∈ d.detained
    · obtain ⟨l, hl, hu⟩ := unsetDetained_spec hd
      rw [hl]
      have hh := (hv.left hd hu).handed hv
      exact ⟨true, _, rfl, inl ⟨rfl, hh.valid, hh.inRange, ha ▸ hh.fresh,
        ha ▸ hh.acquired, hh.back, hh.stays⟩⟩
    · rw [unsetDetained_eq_none hd]
      exact ⟨false, _, rfl, inr ⟨rfl, hv, ha, rfl⟩⟩

end

/-! ## Numbers that are detained -/

theorem BitsetKind.set_perm {kind : BitsetKind} {data : List ℕ} (h : id ∉ data) :
    (kind.set data id).1 ∧ (kind.set data id).2.Perm (id :: data) := by
  cases kind with
  | judy =>
    unfold BitsetKind.set
    simp only [if_neg h]
    exact ⟨trivial, perm_orderedInsert _ _ _⟩
  | deque => exact ⟨rfl, perm_append_singleton id data⟩

/-- a number goes to a bucket that is not too old for it -/
structure Detained (s : DetainerSizes) (d e : IdPoolDetainer) (id ts : ℕ) : Prop where
  valid : e.Valid s
  acquired : e.acquired s = (d.acquired s).erase id
  bucket : ∃ t, ts ≤ t + s.bucketTime ∧ (t = ts ∨ ∃ bucket ∈ d.detention, bucket.ts = t) ∧ e.DetainedAt id t
  back : ∀ x t, e.DetainedAt x t → d.DetainedAt x t ∨ x = id
  stays : ∀ x t, d.DetainedAt x t → e.DetainedAt x t

theorem Valid.setLast (h : d.Valid s) {pre : List Bucket} {last : Bucket} (hi : id ∈ d.acquired s)
    (hl : pre ++ [last] = d.detention ∨ pre = d.detention ∧ last = ⟨ts, []⟩) (hts : ts ≤ last.ts + s.bucketTime) :
    Detained s d { d with
      detention := pre ++ [{ last with data := (s.kind.set last.data id).2 }]
      detainedCount := if (s.kind.set last.data id).1 then d.detainedCount + 1 else d.detainedCount } id ts := by
  obtain ⟨hr, hf, hd⟩ := mem_acquired.1 hi
  have hs : (pre ++ [last]).flatMap Bucket.data = d.detained := by
    rcases hl with he | ⟨rfl, rfl⟩
    · rw [he]
      rfl
    · rw [flatMap_append]
      exact append_nil _
  have hpr (b : Bucket) (hb : b ∈ pre) : b ∈ d.detention := by
    rcases hl with he | ⟨rfl, rfl⟩
    · exact he ▸ mem_append_left _ hb
    · exact hb
  have hla : id ∉ last.data := by
    intro hm
    rw [← hs, mem_flatMap] at hd
    exact hd ⟨last, mem_append_right _ mem_cons_self, hm⟩
  obtain ⟨ht, hp⟩ := BitsetKind.set_perm hla
  rw [ht, if_pos rfl]
  have hli : ((pre ++ [{ last with data := (s.kind.set last.data id).2 }]).flatMap Bucket.data).Perm
      (id :: d.detained) := by
    rw [← hs, flatMap_append, flatMap_append, flatMap_singleton, flatMap_singleton]
    exact (hp.append_left _).trans perm_middle
  have hm (x : ℕ) : x ∈ (pre ++ [{ last with data := (s.kind.set last.data id).2 }]).flatMap Bucket.data ↔
      x = id ∨ x ∈ d.detained := by
    rw [hli.mem_iff, List.mem_cons]
  refine ⟨⟨h.pool, fun b hb => ?_, ?_, fun x hx => ?_, ?_⟩, ?_, ⟨last.ts, hts, ?_, ?_⟩, ?_, ?_⟩
  · rcases mem_append.1 hb with hb | hb
    · exact h.filled b (hpr b hb)
    · rw [List.mem_singleton.1 hb]
      exact ne_nil_of_mem (hp.mem_iff.2 mem_cons_self)
  · exact hli.nodup_iff.2 (nodup_cons.2 ⟨hd, h.nodup⟩)
  · rcases (hm x).1 hx with rfl | hx
    · exact ⟨hr.1, hr.2, hf⟩
    · exact h.inUse x hx
  · rw [h.count]
    exact hli.length_eq.symm
  · ext x
    rw [mem_erase, mem_acquired, mem_acquired]
    change _ ∧ x ∉ d.free s ∧ x ∉ (pre ++ [{ last with data := (s.kind.set last.data id).2 }]).flatMap Bucket.data ↔ _
    rw [hm]
    tauto
  · rcases hl with he | ⟨rfl, rfl⟩
    · exact inr ⟨last, he ▸ mem_append_right _ mem_cons_self, rfl⟩
    · exact inl rfl
  · exact ⟨_, mem_append_right _ mem_cons_self, rfl, hp.mem_iff.2 mem_cons_self⟩
  · rintro x t ⟨b, hb, rfl, hx⟩
    rcases mem_append.1 hb with hb | hb
    · exact inl ⟨b, hpr b hb, rfl, hx⟩
    · rw [List.mem_singleton.1 hb] at hx ⊢
      rcases mem_cons.1 (hp.mem_iff.1 hx) with rfl | hx
      · exact inr rfl
      · rcases hl with he | ⟨rfl, rfl⟩
        · exact inl ⟨last, he ▸ mem_append_right _ mem_cons_self, rfl, hx⟩
        · cases hx
  · rintro x t ⟨b, hb, rfl, hx⟩
    rcases hl with he | ⟨rfl, rfl⟩
    · rw [← he] at hb
      rcases mem_append.1 hb with hb | hb
      · exact ⟨b, mem_append_left _ hb, rfl, hx⟩
      · obtain rfl := List.mem_singleton.1 hb
        exact ⟨_, mem_append_right _ mem_cons_self, rfl, hp.mem_iff.2 (mem_cons_of_mem _ hx)⟩
    · exact ⟨b, mem_append_left _ hb, rfl, hx⟩

theorem Valid.insert (h : d.Valid s) (hi : id ∈ d.acquired s) : Detained s d (d.insert s id ts) id ts := by
  have hf : Detained s d { d with
      detention := d.detention ++ [⟨ts, (s.kind.set [] id).2⟩]
      detainedCount := if (s.kind.set [] id).1 then d.detainedCount + 1 else d.detainedCount } id ts :=
    h.setLast hi (inr ⟨rfl, rfl⟩) (Nat.le_add_right _ _)
  unfold IdPoolDetainer.insert
  cases hb : d.detention.getLast? with
  | none =>
    simp only [getLast?_append, getLast?_singleton, Option.some_or, dropLast_concat]
    exact hf
  | some back =>
    dsimp only
    split_ifs with hold
    · simp only [getLast?_append, getLast?_singleton, Option.some_or, dropLast_concat]
      exact hf
    · obtain ⟨pre, hp⟩ := getLast?_eq_some_iff.1 hb
      rw [hb]
      rw [hp, dropLast_concat]
      refine h.setLast hi (inl hp.symm) ?_
      -- the sum may wrap around, and is then smaller still
      omega

/-- the detention was full before the number came -/
def Crowded (s : DetainerSizes) (d : IdPoolDetainer) (overcrowd : Bool) : Prop :=
  overcrowd = false ∧ s.maxDetentionSize ≤ d.detainedCount

theorem Valid.putDetained (h : d.Valid s) (hi : id ∈ d.acquired s) (ts : ℕ) (overcrowd : Bool) :
    ∃ e f, d.putDetained s id ts overcrowd = some f ∧ Released s (fun _ => true) d e ∧ Detained s e f id ts ∧
      (¬ Crowded s d overcrowd → e = d) := by
  unfold IdPoolDetainer.putDetained
  split_ifs with hf
  · obtain ⟨n, e, he, hr⟩ := h.releaseWhile (fun _ => true)
      (((d.detainedCount - s.maxDetentionSize + 1 : ℕ) : ℤ).bmod (2 ^ 32)).toNat
    unfold forceReleaseDetained
    rw [he]
    exact ⟨e, _, rfl, hr, hr.valid.insert (hr.acquired ▸ hi), fun hn => absurd hf hn⟩
  · exact ⟨d, _, rfl, ⟨h, rfl, fun _ _ hx => hx, fun _ _ hx => inl hx⟩, h.insert hi, fun _ => rfl⟩

end IdPoolDetainer

end SaunaFS.Inodes
