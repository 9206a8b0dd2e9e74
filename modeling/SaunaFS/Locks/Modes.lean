/-
What a set of lock ranges is for: which lock every owner holds at every offset.

`Modes` is that table. `Modes.assign` is the POSIX update (an owner's lock over an interval replaces what the owner held
there, an unlock clears it) and `Modes.Admits` the POSIX condition for granting a lock. `mode` reads the table off a
list of ranges, `Valid` is the shape `LockRanges::data_` keeps.
-/
import SaunaFS.Locks.LockRange

namespace SaunaFS.Locks

open SortedSearch List LockRange

/-! ## The abstract table -/

/-- the lock each owner holds at each offset -/
abbrev Modes := ℕ → ℕ ×ₗ ℕ → Option LockType

/-- what inserting a range of this type leaves its owner holding -/
def LockType.held (t : LockType) : Option LockType := if t = .unlock then none else some t

def Modes.assign (m : Modes) (s e : ℕ) (o : ℕ ×ₗ ℕ) (t : LockType) : Modes :=
  fun p k => if s ≤ p ∧ p < e ∧ k = o then t.held else m p k

/-- no other owner holds an exclusive lock in `[s, e)`, nor any lock if the request is not shared -/
def Modes.Admits (m : Modes) (s e : ℕ) (o : ℕ ×ₗ ℕ) (t : LockType) : Prop :=
  ∀ p, s ≤ p → p < e → ∀ k, k ≠ o → ∀ u, m p k = some u → t = .shared ∧ u = .shared

/-! ## Ranges as tables -/

namespace LockRange

def covers (r : LockRange) (p : ℕ) : Prop := r.start ≤ p ∧ p < r.end_

instance (r : LockRange) (p : ℕ) : Decidable (r.covers p) := inferInstanceAs (Decidable (_ ∧ _))

/-- the owners, as the keys that identify them -/
def keys (r : LockRange) : List (ℕ ×ₗ ℕ) := r.owners.map Owner.key

/-- a range as the lock table keeps it -/
structure WF (r : LockRange) : Prop where
  nonempty : r.start < r.end_
  sorted : r.keys.Pairwise (· < ·)
  owned : r.owners ≠ []
  locked : r.type = .shared ∨ r.type = .exclusive
  alone : r.type = .exclusive → r.owners.length = 1

variable {r : LockRange}

theorem WF.not_unlocking (h : r.WF) : r.unlocking = false := by
  have h1 := h.owned
  rcases h.locked with h2 | h2 <;> simp [unlocking, h2, h1]

theorem WF.held (h : r.WF) : r.type.held = some r.type := by
  rcases h.locked with h2 | h2 <;> simp [LockType.held, h2]

end LockRange

/-- `data_` of a `LockRanges`: well-formed ranges, each ending before the next one starts -/
structure Valid (data : List LockRange) : Prop where
  wf : ∀ r ∈ data, r.WF
  apart : data.Pairwise fun a b => a.end_ ≤ b.start

theorem Valid.nil : Valid [] := ⟨by simp, List.Pairwise.nil⟩

variable {l : List LockRange} {x : LockRange}

theorem Valid.cons_iff : Valid (x :: l) ↔ x.WF ∧ (∀ y ∈ l, x.end_ ≤ y.start) ∧ Valid l := by
  constructor
  · intro h
    have hp := pairwise_cons.1 h.apart
    exact ⟨h.wf x (by simp), hp.1, fun r hr => h.wf r (by simp [hr]), hp.2⟩
  · rintro ⟨hx, hy, hl⟩
    refine ⟨fun r hr => ?_, pairwise_cons.2 ⟨hy, hl.apart⟩⟩
    rcases mem_cons.1 hr with rfl | hr
    · exact hx
    · exact hl.wf r hr

variable {l₁ l₂ : List LockRange} {k : ℕ ×ₗ ℕ} {s e : ℕ}

theorem Valid.append_iff : Valid (l₁ ++ l₂) ↔ Valid l₁ ∧ Valid l₂ ∧ ∀ x ∈ l₁, ∀ y ∈ l₂, x.end_ ≤ y.start := by
  constructor
  · intro h
    obtain ⟨h1, h2, h3⟩ := pairwise_append.1 h.apart
    exact ⟨⟨fun r hr => h.wf r (by simp [hr]), h1⟩, ⟨fun r hr => h.wf r (by simp [hr]), h2⟩, h3⟩
  · rintro ⟨h1, h2, h3⟩
    refine ⟨fun r hr => ?_, pairwise_append.2 ⟨h1.apart, h2.apart, h3⟩⟩
    rcases mem_append.1 hr with hr | hr
    · exact h1.wf r hr
    · exact h2.wf r hr

variable {data : List LockRange}

theorem Valid.sorted (h : Valid data) : data.Pairwise fun a b => a.start < b.start := by
  refine h.apart.imp_of_mem fun {a b} ha _ hab => ?_
  exact (h.wf a ha).nonempty.trans_le hab

/-- the lock that `data` gives the owner `k` at offset `p` -/
def mode (data : List LockRange) : Modes := fun p k => (data.find? fun r => decide (r.covers p ∧ k ∈ r.keys)).map type

@[simp] theorem mode_nil {p : ℕ} : mode [] p k = none := rfl

theorem mode_cons {p : ℕ} : mode (x :: l) p k = if x.covers p ∧ k ∈ x.keys then some x.type else mode l p k := by
  by_cases h : x.covers p ∧ k ∈ x.keys <;> simp [mode, h]

theorem mode_append {p : ℕ} : mode (l₁ ++ l₂) p k = (mode l₁ p k).or (mode l₂ p k) := by
  simp [mode, find?_append, Option.map_or]

variable {p : ℕ} {t : LockType}

theorem mode_eq_none (h : ∀ x ∈ l, ¬ x.covers p) (k : ℕ ×ₗ ℕ) : mode l p k = none := by
  simp only [mode, Option.map_eq_none_iff, find?_eq_none]
  intro x hx
  simp [h x hx]

theorem mode_mem (h : mode l p k = some t) : ∃ x ∈ l, x.covers p ∧ k ∈ x.keys ∧ x.type = t := by
  simp only [mode, Option.map_eq_some_iff] at h
  obtain ⟨x, hx, rfl⟩ := h
  have hx2 := find?_some hx
  simp only [decide_eq_true_eq] at hx2
  exact ⟨x, mem_of_find?_eq_some hx, hx2.1, hx2.2, rfl⟩

theorem Valid.mode_locked (hl : Valid l) (h : mode l p k = some t) : t = .shared ∨ t = .exclusive := by
  obtain ⟨x, hx, -, -, rfl⟩ := mode_mem h
  exact (hl.wf x hx).locked

theorem Valid.mode_eq (hl : Valid l) (hx : x ∈ l) (hp : x.covers p)
    (k : ℕ ×ₗ ℕ) : mode l p k = if k ∈ x.keys then some x.type else none := by
  induction l with
  | nil => simp at hx
  | cons y l ih =>
    obtain ⟨hy, hyl, hl'⟩ := Valid.cons_iff.1 hl
    rw [mode_cons]
    rcases mem_cons.1 hx with rfl | hxl
    · have hn : mode l p k = none := by
        refine mode_eq_none (fun z hz hc => ?_) k
        have h1 := hyl z hz
        have h2 := hp.2
        have h3 := hc.1
        omega
      simp [hp, hn]
    · have hyp : ¬ y.covers p := by
        intro hc
        have h1 := hyl x hxl
        have h2 := hc.2
        have h3 := hp.1
        omega
      simp [hyp, ih hl' hxl]

/-! ## Collisions -/

theorem overlaps_iff {r : LockRange} (hr : r.start < r.end_) (hx : x.start < x.end_) :
    r.overlaps x ↔ ∃ p, r.covers p ∧ x.covers p := by
  simp only [overlaps, Bool.and_eq_true, decide_eq_true_eq, covers]
  constructor
  · rintro ⟨h1, h2⟩
    exact ⟨max r.start x.start, ⟨by omega, by omega⟩, by omega, by omega⟩
  · rintro ⟨p, h1, h2⟩
    omega

theorem Valid.overlaps_inside (h : Valid data) (hse : s ≤ e)
    (hx : x ∈ data) (h1 : s < x.end_) (h2 : x.start ≤ e) : x ∈ (window start data s e).inside := by
  have hs : data.Pairwise fun a b => a.start ≤ b.start := h.sorted.imp le_of_lt
  rcases (mem_window start data (.of_le hse)).1 hx with hb | hi | ha
  · -- an element in front of the window ends before the window's first element, which starts below `s`
    exfalso
    obtain ⟨y, ys, hin, hy⟩ := inside_cons_of_before start data hse (ne_nil_of_mem hb)
    have hp := h.apart
    rw [← window_append start data (.of_le hse), append_assoc, pairwise_append] at hp
    have := hp.2.2 x hb y (by simp [hin])
    omega
  · exact hi
  · have := after_key start hs s e x ha
    omega

theorem sameOwners_iff (a b : List Owner) : sameOwners a b ↔ a.map Owner.key = b.map Owner.key := by
  simp [sameOwners]

theorem WF_compatible_iff (hx : x.WF) (k : ℕ ×ₗ ℕ) (t : LockType) :
    ((t = .shared ∧ x.type = .shared) ∨ x.keys = [k]) ↔ ∀ k' ∈ x.keys, k' ≠ k → t = .shared ∧ x.type = .shared := by
  constructor
  · rintro (h | h) k' hk' hn
    · exact h
    · rw [h] at hk'
      simp only [mem_singleton] at hk'
      exact absurd hk' hn
  · intro h
    by_cases ha : ∀ k' ∈ x.keys, k' = k
    · right
      have hs := hx.sorted
      have hn : x.keys ≠ [] := by simpa [LockRange.keys] using hx.owned
      -- a strictly increasing list with a single value has one element
      match hk : x.keys with
      | [] => exact absurd hk hn
      | [a] => rw [hk] at ha; simp at ha; simp [ha]
      | a :: b :: l =>
        rw [hk] at hs ha
        have hab : a < b := (pairwise_cons.1 hs).1 b (by simp)
        rw [ha a (by simp), ha b (by simp)] at hab
        exact absurd hab (lt_irrefl _)
    · push Not at ha
      obtain ⟨k', hk', hn⟩ := ha
      exact .inl (h k' hk' hn)

theorem collides_eq_false_iff (range other : LockRange) : collides range other = false ↔ (range.overlaps other →
      (range.type = .shared ∧ other.type = .shared) ∨ other.keys = range.keys) := by
  simp only [collides, isShared, sameOwners, LockRange.keys]
  grind

theorem fits_iff_inside {range : LockRange} (hu : range.unlocking = false) : fits data range ↔
      ∀ x ∈ (window start data range.start range.end_).inside, collides range x = false := by
  simp [fits, findCollision, hu]

/-- **`fits` decides `Admits`.** On valid data a single-owner request collides with nothing in the scanned window iff
the owners of no lock anywhere in the table stand in its way. -/
theorem fits_iff_admits (h : Valid data) (o : Owner) (hs : s < e)
    (ht : t ≠ .unlock) : fits data (.single t s e o) ↔ (mode data).Admits s e o.key t := by
  have hun : (single t s e o).unlocking = false := by simp [unlocking, ht]
  have key : ∀ x ∈ data, collides (.single t s e o) x = false ↔
      ∀ p, s ≤ p → p < e → x.covers p → ∀ k ∈ x.keys, k ≠ o.key → t = .shared ∧ x.type = .shared := by
    intro x hx
    have hw := h.wf x hx
    have hke : (single t s e o).keys = [o.key] := rfl
    rw [collides_eq_false_iff, overlaps_iff (r := .single t s e o) hs hw.nonempty, hke]
    simp only [single_type, WF_compatible_iff hw o.key t]
    constructor
    · intro hc p h1 h2 h3 k hk hn
      exact hc ⟨p, ⟨h1, h2⟩, h3⟩ k hk hn
    · rintro hc ⟨p, hp, hxp⟩ k hk hn
      exact hc p hp.1 hp.2 hxp k hk hn
  rw [fits_iff_inside hun]
  constructor
  · intro hc p h1 h2 k hn u hu
    obtain ⟨x, hx, hp, hk, rfl⟩ := mode_mem hu
    have hi := h.overlaps_inside hs.le hx (by have := hp.2; omega) (by have := hp.1; omega)
    exact (key x hx).1 (hc x hi) p h1 h2 hp k hk hn
  · intro ha x hx
    have hxd := inside_mem hx
    refine (key x hxd).2 fun p h1 h2 hp k hk hn => ?_
    exact ha p h1 h2 k hn x.type (by rw [h.mode_eq hxd hp]; simp [hk])

end SaunaFS.Locks
