/-
A cache of pairs in the order of their last use (`common/generic_lru_cache.h`), as a list with the latest pair first.
The index of the cache finds the pairs of the list.

Everything a lookup or an insertion leaves in the cache was there before or is the pair inserted.
-/
import Mathlib.Tactic

namespace LruCache

open List

variable {κ ν : Type*}

/-- `find` and `findByValue`: the first pair with a property, which is moved to the front -/
def touch (p : κ × ν → Bool) (q : List (κ × ν)) : Option (κ × ν) × List (κ × ν) :=
  match q.find? p with
  | none => (none, q)
  | some e => (some e, e :: q.eraseP p)

/-- `insert`: the oldest pair makes room, and a key that is there keeps its value -/
def insert [DecidableEq κ] (capacity : ℕ) (k : κ) (v : ν) (q : List (κ × ν)) : List (κ × ν) :=
  let q := if capacity ≤ q.length then q.dropLast else q
  if q.any (·.1 = k) then q else (k, v) :: q

variable {q : List (κ × ν)} {e : κ × ν}

theorem touch_fst {p : κ × ν → Bool} (h : (touch p q).1 = some e) : e ∈ q ∧ p e := by
  unfold touch at h
  split at h
  · cases h
  · rename_i e' hf
    cases h
    exact ⟨mem_of_find?_eq_some hf, find?_some hf⟩

theorem mem_touch {p : κ × ν → Bool} (h : e ∈ (touch p q).2) : e ∈ q := by
  unfold touch at h
  split at h
  · exact h
  · rename_i e' hf
    rcases mem_cons.1 h with rfl | h
    · exact mem_of_find?_eq_some hf
    · exact mem_of_mem_eraseP h

theorem mem_insert [DecidableEq κ] {capacity : ℕ} {k : κ} {v : ν}
    (h : e ∈ insert capacity k v q) : e = (k, v) ∨ e ∈ q := by
  have hm : ∀ r : List (κ × ν), (∀ e ∈ r, e ∈ q) → e ∈ (if r.any (·.1 = k) then r else (k, v) :: r) →
      e = (k, v) ∨ e ∈ q := by
    intro r hr he
    split at he
    · exact .inr (hr e he)
    · exact (mem_cons.1 he).imp_right (hr e)
  refine hm _ (fun x hx => ?_) h
  split at hx
  · exact mem_of_mem_dropLast hx
  · exact hx

end LruCache
