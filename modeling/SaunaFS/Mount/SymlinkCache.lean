/-
The cache of link targets of a mount (`mount/symlinkcache.cc`). Calls of any number of threads interleave under one
lock. A caller of a search copies the target it was given after the lock is released. Each call reads its time before it
takes the lock, so the times need not follow the order of the calls. `strdup` returns memory that no slot holds, and a
target is freed when its slot is replaced or cleared: it is allocated as long as a slot holds it.
-/
import SaunaFS.Lib.Stepwise

namespace SaunaFS.Mount.SymlinkCache

open Stepwise Function List

/-! ## The table -/

/-- one index of a `hashbucket`; a path is the address that `strdup` returned and the bytes there -/
structure Slot where
  inode : ℕ := 0
  time : ℕ := 0
  path : Option (ℕ × List UInt8) := none

structure State where
  /-- by bucket and index -/
  symlinkhash : ℕ × ℕ → Slot := fun _ => {}
  /-- the targets that callers still have to copy -/
  handed : List (ℕ × List UInt8) := []
  /-- path and time of the last insertion -/
  last : ℕ → Option (List UInt8 × ℕ) := fun _ => none

def init : State := {}

def primes : List ℕ := [1072573589, 3465827623, 2848548977, 748191707]

/-- the slots of an inode, in the order of the loops over the hash functions and the indices -/
def places (inode : ℕ) : List (ℕ × ℕ) :=
  primes.flatMap fun prime => (range 16).map fun i => (inode * prime % 2 ^ 32 % 6257, i)

namespace State

variable (s : State) (inode : ℕ)

def find : Option (ℕ × ℕ) := (places inode).find? fun k => (s.symlinkhash k).inode = inode

/-- the loop of `symlink_cache_insert`: the slot of the inode, or else the first of the oldest ones -/
def choose : List (ℕ × ℕ) → Option (ℕ × ℕ) → ℕ → Option (ℕ × ℕ)
  | [], oldest, _ => oldest
  | k :: ks, oldest, mints =>
    if (s.symlinkhash k).inode = inode then some k
    else if (s.symlinkhash k).time < mints then choose ks (some k) (s.symlinkhash k).time
    else choose ks oldest mints

def chosen : Option (ℕ × ℕ) := s.choose inode (places inode) none (2 ^ 32 - 1)

/-- what the slot held is freed -/
def put (k : ℕ × ℕ) (slot : Slot) : State := { s with symlinkhash := update s.symlinkhash k slot }

end State

/-! ## The calls -/

/-- `ptr` is what `strdup` returns -/
def symlinkCacheInsert (inode : ℕ) (path : List UInt8) (now ptr : ℕ) (s : State) : State :=
  match s.chosen inode with
  | none => s
  | some k => s.put k ⟨inode, now, some (ptr, path)⟩

/-- `kCacheTimeInSeconds` is added in 32 bits; the result is the path of a hit -/
def symlinkCacheSearch (kCacheTimeInSeconds inode now : ℕ) (s : State) : Option (Option (ℕ × List UInt8)) × State :=
  match s.find inode with
  | none => (none, s)
  | some k =>
    if ((s.symlinkhash k).time + kCacheTimeInSeconds) % 2 ^ 32 < now then (none, s.put k {})
    else (some (s.symlinkhash k).path, s)

inductive Event
  | insert (inode : ℕ) (path : List UInt8) (now ptr : ℕ)
  | search (inode now : ℕ)
  | copied (target : ℕ × List UInt8)

def step (c : ℕ) (s : State) : Event → State
  | .insert inode path now ptr =>
    { symlinkCacheInsert inode path now ptr s with last := update s.last inode (some (path, now)) }
  | .search inode now =>
    let (found, t) := symlinkCacheSearch c inode now s
    match found with
    | some (some target) => { t with handed := target :: t.handed }
    | _ => t
  | .copied target => { s with handed := s.handed.erase target }

/-- no caller still has to copy the target of the slot -/
def Unread (s : State) (k : ℕ × ℕ) : Prop := ∀ target ∈ s.handed, (s.symlinkhash k).path ≠ some target

/-- the slot that an insertion replaces or a search clears is not being read -/
def Spares (c : ℕ) (s : State) : Event → Prop
  | .insert inode _ _ _ => ∀ k, s.chosen inode = some k → Unread s k
  | .search inode now =>
    ∀ k, s.find inode = some k → ((s.symlinkhash k).time + c) % 2 ^ 32 < now → Unread s k
  | .copied _ => True

variable {s : State} {k : ℕ × ℕ} {inode c : ℕ}

theorem choose_spec {ks : List (ℕ × ℕ)} {oldest : Option (ℕ × ℕ)} {mints : ℕ} :
    (∀ k, s.choose inode ks oldest mints = some k →
      (k ∈ ks ∨ oldest = some k) ∧ ((s.symlinkhash k).inode = inode ∨ ∀ i ∈ ks, (s.symlinkhash i).inode ≠ inode)) ∧
    (s.choose inode ks oldest mints = none → ∀ i ∈ ks, (s.symlinkhash i).inode ≠ inode) := by
  fun_induction State.choose s inode ks oldest mints with
  | case1 oldest mints => simp
  | case2 k ks oldest mints h =>
    refine ⟨?_, nofun⟩
    rintro _ ⟨⟩
    exact ⟨.inl mem_cons_self, .inl h⟩
  | case3 k ks oldest mints h ht ih =>
    simp only [forall_mem_cons, ne_eq, h, not_false_eq_true, true_and]
    refine ⟨fun i hi => ⟨?_, (ih.1 i hi).2⟩, ih.2⟩
    obtain hm | ⟨⟨⟩⟩ := (ih.1 i hi).1
    · exact .inl (mem_cons_of_mem k hm)
    · exact .inl mem_cons_self
  | case4 k ks oldest mints h ht ih =>
    simp only [forall_mem_cons, ne_eq, h, not_false_eq_true, true_and]
    exact ⟨fun i hi => ⟨(ih.1 i hi).1.imp_left (mem_cons_of_mem k), (ih.1 i hi).2⟩, ih.2⟩

/-! ## The invariant -/

/-- an inode is in one of its own slots, with what was inserted last -/
def Kept (last : ℕ → Option (List UInt8 × ℕ)) (k : ℕ × ℕ) (slot : Slot) : Prop :=
  slot.inode ≠ 0 → k ∈ places slot.inode ∧ ∃ ptr path, slot.path = some (ptr, path) ∧
    last slot.inode = some (path, slot.time)

/-- with `spared`, no slot was replaced or cleared that was being read -/
structure Inv (spared : Prop) (s : State) : Prop where
  kept : ∀ k, Kept s.last k (s.symlinkhash k)
  one : ∀ k i, (s.symlinkhash k).inode ≠ 0 → (s.symlinkhash i).inode = (s.symlinkhash k).inode → i = k
  handed : spared → ∀ target ∈ s.handed, ∃ k, (s.symlinkhash k).path = some target

variable {spared : Prop}

theorem Inv.put (h : Inv spared s) (hu : spared → Unread s k) {slot : Slot} {last : ℕ → Option (List UInt8 × ℕ)}
    (hk : Kept last k slot) (ho : ∀ i ≠ k, (s.symlinkhash i).inode ≠ 0 →
      (s.symlinkhash i).inode ≠ slot.inode ∧ last (s.symlinkhash i).inode = s.last (s.symlinkhash i).inode) :
    Inv spared { s.put k slot with last := last } := by
  have hs : (s.put k slot).symlinkhash k = slot := update_self _ _ _
  have hn {i : ℕ × ℕ} (hi : i ≠ k) : (s.put k slot).symlinkhash i = s.symlinkhash i := update_of_ne hi _ _
  refine ⟨fun i => ?_, fun i j hi hj => ?_, fun hsp target ht => ?_⟩ <;> dsimp only at *
  · obtain rfl | hik := eq_or_ne i k
    · rwa [hs]
    · rw [hn hik]
      intro h0
      rw [(ho i hik h0).2]
      exact h.kept i h0
  · obtain rfl | hik := eq_or_ne i k <;> obtain rfl | hjk := eq_or_ne j i
    · rfl
    · rw [hs] at hi hj
      rw [hn hjk] at hj
      exact absurd hj (ho j hjk (hj ▸ hi)).1
    · rfl
    · rw [hn hik] at hi hj
      obtain rfl | hjk := eq_or_ne j k
      · exact absurd (hj.symm.trans (congrArg Slot.inode hs)) (ho i hik hi).1
      · rw [hn hjk] at hj
        exact h.one i j hi hj
  · obtain ⟨i, hi⟩ := h.handed hsp target ht
    refine ⟨i, (congrArg Slot.path (hn ?_)).trans hi⟩
    rintro rfl
    exact hu hsp target ht hi

/-- no slot but the chosen one holds the inode -/
theorem Inv.elsewhere (h : Inv spared s) {i : ℕ × ℕ} (hi : s.chosen inode ≠ some i) (h0 : (s.symlinkhash i).inode ≠ 0) :
    (s.symlinkhash i).inode ≠ inode := by
  rintro rfl
  have hp := (h.kept i h0).1
  obtain ⟨hsome, hnone⟩ := choose_spec (s := s)
  cases hc : s.chosen (s.symlinkhash i).inode with
  | none => exact hnone hc i hp rfl
  | some k =>
    obtain hf | hf := (hsome k hc).2
    · exact hi (hc.trans (congrArg some (h.one i k h0 hf)))
    · exact hf i hp rfl

theorem Inv.step (h : Inv spared s) {event : Event} (hs : spared → Spares c s event) : Inv spared (step c s event) := by
  cases event with
  | insert inode path now ptr =>
    have hl {i : ℕ} (hi : i ≠ inode) : update s.last inode (some (path, now)) i = s.last i :=
      update_of_ne hi _ _
    dsimp only [SymlinkCache.step, symlinkCacheInsert]
    cases hc : s.chosen inode with
    | none =>
      refine { h with kept := fun i h0 => ?_ }
      dsimp only
      rw [hl (h.elsewhere (by simp [hc]) h0)]
      exact h.kept i h0
    | some k =>
      refine h.put (fun hsp => hs hsp k hc)
        (fun _ => ⟨?_, ptr, path, rfl, update_self _ _ _⟩) fun i hi h0 => ?_
      · exact ((choose_spec.1 k hc).1).resolve_right nofun
      · have hne := h.elsewhere (fun he => hi (Option.some.inj (he.symm.trans hc))) h0
        exact ⟨hne, hl hne⟩
  | search inode now =>
    dsimp only [SymlinkCache.step, symlinkCacheSearch]
    cases hf : s.find inode with
    | none => exact h
    | some k =>
      dsimp only
      split_ifs with hx
      · exact h.put (fun hsp => hs hsp k hf hx) (absurd rfl) fun _ _ h0 => ⟨h0, rfl⟩
      · cases hp : (s.symlinkhash k).path with
        | none => exact h
        | some target => exact { h with handed := fun hsp => forall_mem_cons.2 ⟨⟨k, hp⟩, h.handed hsp⟩ }
  | copied target => exact { h with handed := fun hsp t ht => h.handed hsp t (mem_of_mem_erase ht) }

/-! ## Results -/

/-- **A map with expiry.** In every run an inode is in one slot at most, and a hit gives the target inserted last, not
longer than the cache time ago. If no slot is replaced or cleared that is being read, a slot holds what a caller still
has to copy.
-/
theorem cache_is_map (es : List Event) : (∀ inode ≠ 0, ∀ k i, ((run (step c) init es).symlinkhash k).inode = inode →
      ((run (step c) init es).symlinkhash i).inode = inode → k = i) ∧
    (∀ inode ≠ 0, ∀ now found, (symlinkCacheSearch c inode now (run (step c) init es)).1 = some found →
      ∃ ptr path time, found = some (ptr, path) ∧ (run (step c) init es).last inode = some (path, time) ∧
        now ≤ time + c) ∧
    (Along (step c) (Spares c) init es →
      ∀ target ∈ (run (step c) init es).handed, ∃ k, ((run (step c) init es).symlinkhash k).path = some target) := by
  have hrun (spared : Prop) (h : Along (step c) (fun s event => spared → Spares c s event) init es) :
      Inv spared (run (step c) init es) :=
    inv_run (P := Inv spared) (fun s event hs hi => hi.step hs) init es h
      ⟨fun _ h0 => absurd rfl h0, fun _ _ h0 => absurd rfl h0, by simp [init]⟩
  have hi := hrun False (along_of_forall (fun _ _ => False.elim) init es)
  have hb (h : Along (step c) (Spares c) init es) := (hrun True (by simpa using h)).handed trivial
  generalize run (step c) init es = s at *
  refine ⟨fun inode h0 k i hk hj => hi.one i k (hj ▸ h0) (hk.trans hj.symm), fun inode h0 now found hf => ?_, hb⟩
  unfold symlinkCacheSearch at hf
  cases hk : s.find inode with
  | none => simp [hk] at hf
  | some k =>
    obtain rfl : (s.symlinkhash k).inode = inode := by simpa using find?_some hk
    obtain ⟨-, ptr, path, hp, hl⟩ := hi.kept k h0
    simp only [hk, hp] at hf
    split_ifs at hf with ht
    exact ⟨ptr, path, _, (Option.some.inj hf).symm, hl, (not_lt.1 ht).trans (Nat.mod_le _ _)⟩

/-- an inode is inserted, looked up, copied and inserted again; so is another one -/
def insertions : List Event :=
  [.insert 5 [97] 100 1, .search 5 110, .copied (1, [97]), .insert 6 [98] 111 2, .insert 5 [99] 112 3]

theorem cache_is_map_inserted : ∃ ptr path time, some (3, [99]) = some (ptr, path) ∧
    (run (step 60) init insertions).last 5 = some (path, time) ∧ 120 ≤ time + 60 :=
  (@cache_is_map 60 insertions).2.1 5 (by decide) 120 (some (3, [99])) (by decide)

/-- **A target freed under its reader.** The inode is inserted again before the caller has copied what it was given: no
slot holds that target any more. -/
theorem target_freed : let s := run (step 60) init [.insert 5 [97] 100 1, .search 5 120, .insert 5 [98] 121 2]
    s.handed = [(1, [97])] ∧ ∀ k, (s.symlinkhash k).path ≠ some (1, [97]) := by
  refine ⟨by decide, fun k => ?_⟩
  change (update (update init.symlinkhash (5945, 0) _) (5945, 0)
    (Slot.mk 5 121 (some (2, [98]))) k).path ≠ _
  rw [update_idem, update_apply]
  split_ifs <;> simp [init]

end SaunaFS.Mount.SymlinkCache
