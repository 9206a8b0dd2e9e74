/-
Finite tables. A table is its lookup function together with the finite set of its keys, so two tables
with the same lookups are equal, and a quantity can be summed over all entries.

- `get_set`, `get_erase`, `get_modify`: the lookups after an update.
- `sum_insert`, `sum_erase`, `sum_set`: what an update does to a sum over the entries, with values in any additive
  group.
-/
import Mathlib.Tactic

/-- a lookup function with finitely many keys -/
structure FiniteTable (κ α : Type*) where
  get : κ → Option α
  keys : Finset κ
  mem_keys : ∀ k, k ∈ keys ↔ (get k).isSome

namespace FiniteTable

open Finset Option

variable {κ α : Type*} {t : FiniteTable κ α} {k j : κ} {a b : α}

@[ext] theorem ext {u : FiniteTable κ α} (h : ∀ k, t.get k = u.get k) : t = u := by
  obtain ⟨get, keys, hke⟩ := t
  obtain ⟨get', keys', hke'⟩ := u
  obtain rfl : get = get' := funext h
  have hk : keys = keys' := Finset.ext fun k => (hke k).trans (hke' k).symm
  subst hk
  rfl

def empty : FiniteTable κ α where
  get := fun _ => none
  keys := ∅
  mem_keys := by simp

/-! ## Updates -/

section Update

variable [DecidableEq κ]

def set (t : FiniteTable κ α) (k : κ) (a : α) : FiniteTable κ α where
  get := fun j => if j = k then some a else t.get j
  keys := insert k t.keys
  mem_keys := by
    intro j
    rw [mem_insert]
    split_ifs with h
    · simp [h]
    · simp [h, t.mem_keys]

def erase (t : FiniteTable κ α) (k : κ) : FiniteTable κ α where
  get := fun j => if j = k then none else t.get j
  keys := t.keys.erase k
  mem_keys := by
    intro j
    rw [mem_erase]
    split_ifs with h
    · simp [h]
    · simp [h, t.mem_keys]

def modify (t : FiniteTable κ α) (k : κ) (f : α → α) : FiniteTable κ α :=
  match t.get k with
  | none => t
  | some a => t.set k (f a)

/-- put an entry unless there is one already -/
def insertNew (t : FiniteTable κ α) (k : κ) (a : α) : FiniteTable κ α := if (t.get k).isSome then t else t.set k a

theorem get_set (t : FiniteTable κ α) (k : κ) (a : α) (j : κ) :
    (t.set k a).get j = if j = k then some a else t.get j := rfl

@[simp] theorem get_set_self : (t.set k a).get k = some a := by simp [get_set]

theorem get_set_of_ne (h : j ≠ k) : (t.set k a).get j = t.get j := by simp [get_set, h]

theorem get_insertNew : (t.insertNew k a).get j = if j = k then some ((t.get k).getD a) else t.get j := by
  unfold insertNew
  cases h : t.get k with
  | none => exact get_set t k a j
  | some b =>
    change t.get j = _
    split_ifs with hj
    · rw [hj, h]
      rfl
    · rfl

theorem get_erase : (t.erase k).get j = if j = k then none else t.get j := rfl

@[simp] theorem get_erase_self : (t.erase k).get k = none := by simp [get_erase]

theorem get_erase_of_ne (h : j ≠ k) : (t.erase k).get j = t.get j := by simp [get_erase, h]

theorem get_modify (t : FiniteTable κ α) (k : κ) (f : α → α) (j : κ) :
    (t.modify k f).get j = if j = k then (t.get k).map f else t.get j := by
  unfold modify
  cases h : t.get k with
  | none =>
    split_ifs with hj
    · rw [hj, h]
      rfl
    · rfl
  | some a => rw [get_set, map_some]

theorem get_modify_of_ne (f : α → α) (h : j ≠ k) : (t.modify k f).get j = t.get j := by simp [get_modify, h]

theorem modify_eq_set (h : t.get k = some a) (f : α → α) : t.modify k f = t.set k (f a) := by
  unfold modify
  rw [h]

theorem set_set : (t.set k a).set k b = t.set k b := by
  ext j : 1
  simp only [get_set]
  split_ifs <;> rfl

variable {f : α → α}

theorem modify_set : (t.set k a).modify k f = t.set k (f a) := by
  rw [modify_eq_set get_set_self, set_set]

theorem modify_modify {g : α → α} : (t.modify k f).modify k g = t.modify k fun a => g (f a) := by
  ext j : 1
  simp only [get_modify]
  split_ifs <;> simp [Function.comp_def]

theorem set_self (h : t.get k = some a) : t.set k a = t := by
  ext j : 1
  rw [get_set]
  split_ifs with hj
  · rw [hj, h]
  · rfl

/-! ## Sums over the entries -/

section Sum

variable {M : Type*} [AddCommGroup M]

def sum (f : κ → α → M) (t : FiniteTable κ α) : M := ∑ k ∈ t.keys, (t.get k).elim 0 (f k)

omit [DecidableEq κ] in
@[simp] theorem sum_empty {f : κ → α → M} : (empty : FiniteTable κ α).sum f = 0 := rfl

theorem sum_insert (f : κ → α → M) (h : t.get k = none) : (t.set k a).sum f = t.sum f + f k a := by
  have hk : k ∉ t.keys := by simp [t.mem_keys, h]
  have hr : ∑ j ∈ t.keys, ((t.set k a).get j).elim 0 (f j) = t.sum f := by
    refine sum_congr rfl fun j hj => ?_
    have hn : j ≠ k := fun he => hk (he ▸ hj)
    rw [get_set_of_ne hn]
  calc (t.set k a).sum f = ∑ j ∈ insert k t.keys, ((t.set k a).get j).elim 0 (f j) := rfl
    _ = t.sum f + f k a := by rw [Finset.sum_insert hk, get_set_self, hr, Option.elim_some, add_comm]

variable (f : κ → α → M)

theorem sum_erase (h : t.get k = some b) : (t.erase k).sum f = t.sum f - f k b := by
  have hk : k ∈ t.keys := by simp [t.mem_keys, h]
  have hr : ∑ j ∈ t.keys.erase k, ((t.erase k).get j).elim 0 (f j) =
      ∑ j ∈ t.keys.erase k, (t.get j).elim 0 (f j) := by
    refine sum_congr rfl fun j hj => ?_
    rw [get_erase_of_ne (ne_of_mem_erase hj)]
  have hs : (t.erase k).sum f + f k b = t.sum f :=
    calc (t.erase k).sum f + f k b
        = ∑ j ∈ t.keys.erase k, (t.get j).elim 0 (f j) + (t.get k).elim 0 (f k) := by
          rw [h, ← hr]
          rfl
      _ = t.sum f := sum_erase_add _ _ hk
  rw [← hs, add_sub_cancel_right]

theorem set_eq_erase_set : t.set k a = (t.erase k).set k a := by
  ext j : 1
  rw [get_set, get_set, get_erase]
  split_ifs <;> rfl

theorem sum_set (h : t.get k = some b) : (t.set k a).sum f = t.sum f - f k b + f k a := by
  rw [set_eq_erase_set, sum_insert f get_erase_self, sum_erase f h]

omit [DecidableEq κ] in
theorem sum_congr_get {u : FiniteTable κ α}
    (h : ∀ j, (u.get j).elim 0 (f j) = (t.get j).elim 0 (f j)) (hs : ∀ j, (u.get j).isSome = (t.get j).isSome) :
    u.sum f = t.sum f := by
  have hk : u.keys = t.keys := Finset.ext fun j => by rw [u.mem_keys, t.mem_keys, hs]
  unfold sum
  rw [hk]
  exact sum_congr rfl fun j _ => h j

omit [DecidableEq κ] in
theorem sum_eq_sum_getD (f : κ → α → M) {z : α} (hz : ∀ k, f k z = 0) {K : Finset κ} (hK : t.keys ⊆ K) :
    t.sum f = ∑ k ∈ K, f k ((t.get k).getD z) := by
  have hr : ∀ k ∈ K, k ∉ t.keys → f k ((t.get k).getD z) = 0 := by
    intro k _ hk
    rw [t.mem_keys, not_isSome_iff_eq_none] at hk
    rw [hk, getD_none, hz]
  rw [← sum_subset hK hr]
  refine sum_congr rfl fun k hk => ?_
  obtain ⟨a, ha⟩ := isSome_iff_exists.1 ((t.mem_keys k).1 hk)
  rw [ha, Option.elim_some, getD_some]

end Sum

end Update

end FiniteTable
