/-
Counters kept up to date in two halves: what an object stands for is taken off before the object changes and put on
afterwards. A tally also remembers whether a counter was ever taken below zero.
-/
import Mathlib.Tactic

/-- counters by key, and whether one of them was ever taken below zero -/
structure Tally (κ : Type*) where
  value : κ → ℤ
  wentBelowZero : Bool

namespace Tally

variable {κ : Type*} [DecidableEq κ]

def zero : Tally κ where
  value := fun _ => 0
  wentBelowZero := false

def add (t : Tally κ) (k : κ) : Tally κ := { t with value := Function.update t.value k (t.value k + 1) }

def sub (t : Tally κ) (k : κ) : Tally κ where
  value := Function.update t.value k (t.value k - 1)
  wentBelowZero := t.wentBelowZero || decide (t.value k ≤ 0)

def addAll (t : Tally κ) (l : List κ) : Tally κ := l.foldl add t

def subAll (t : Tally κ) (l : List κ) : Tally κ := l.foldl sub t

/-- the tally counts the occurrences of each key in the list, and always did -/
structure Represents (t : Tally κ) (l : List κ) : Prop where
  value_eq : ∀ k, t.value k = l.count k
  never_below : t.wentBelowZero = false

theorem represents_zero : (zero : Tally κ).Represents [] := ⟨fun _ => by simp [zero], rfl⟩

variable {t : Tally κ} {l : List κ}

theorem Represents.perm {l' : List κ} (h : t.Represents l) (hp : l.Perm l') : t.Represents l' :=
  ⟨fun k => by rw [h.value_eq, hp.count_eq], h.never_below⟩

theorem Represents.add (h : t.Represents l) (k : κ) : (t.add k).Represents (k :: l) := by
  refine ⟨fun k' => ?_, h.never_below⟩
  simp only [Tally.add, Function.update_apply, List.count_cons, h.value_eq, beq_iff_eq]
  by_cases hk : k' = k
  · simp [hk]
  · simp [hk, Ne.symm hk]

theorem Represents.sub {k : κ} (h : t.Represents (k :: l)) : (t.sub k).Represents l := by
  have hk : t.value k = l.count k + 1 := by rw [h.value_eq, List.count_cons_self]; rfl
  refine ⟨fun k' => ?_, ?_⟩
  · simp only [Tally.sub, Function.update_apply]
    split_ifs with hk'
    · rw [hk, hk', add_sub_cancel_right]
    · rw [h.value_eq, List.count_cons_of_ne (Ne.symm hk')]
  · simp only [Tally.sub, h.never_below, Bool.false_or, decide_eq_false_iff_not]
    omega

theorem Represents.addAll {rest : List κ} (h : t.Represents rest) (l : List κ) :
    (t.addAll l).Represents (l ++ rest) := by
  induction l generalizing t rest with
  | nil => exact h
  | cons k l ih => exact (ih (h.add k)).perm List.perm_middle

theorem Represents.subAll {rest : List κ} (h : t.Represents (l ++ rest)) : (t.subAll l).Represents rest := by
  induction l generalizing t with
  | nil => exact h
  | cons k l ih => exact ih h.sub

@[simp] theorem wentBelowZero_addAll (t : Tally κ) (l : List κ) : (t.addAll l).wentBelowZero = t.wentBelowZero := by
  induction l generalizing t with
  | nil => rfl
  | cons k l ih => exact ih (t.add k)

theorem wentBelowZero_subAll (h : t.wentBelowZero) (l : List κ) : (t.subAll l).wentBelowZero := by
  induction l generalizing t with
  | nil => exact h
  | cons k l ih => exact ih (by simp [Tally.sub, h])

theorem Represents.wentBelowZero_subAll (h : t.Represents []) (hl : l ≠ []) : (t.subAll l).wentBelowZero := by
  obtain ⟨k, l, rfl⟩ := List.exists_cons_of_ne_nil hl
  exact Tally.wentBelowZero_subAll (by simp [Tally.sub, h.value_eq]) l

end Tally
