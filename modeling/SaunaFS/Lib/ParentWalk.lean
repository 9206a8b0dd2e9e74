/-
Walks along a parent function `par : α → Option α`, as a program takes them that follows parent pointers in a loop.

- `not_cycle_of_reaches`: a walk that comes to the root meets no element twice.
-/
import Mathlib.Tactic

namespace ParentWalk

open Relation

variable {α : Type*} {par par' : α → Option α} {root x y z p : α}

/-- one step of the walk -/
def Up (par : α → Option α) (a b : α) : Prop := par a = some b

abbrev Above (par : α → Option α) (a b : α) : Prop := ReflTransGen (Up par) a b

/-- the walk comes to the root after finitely many steps -/
inductive Reaches (par : α → Option α) (root : α) : α → Prop where
  | root : Reaches par root root
  | up {x p : α} (h : par x = some p) (hp : Reaches par root p) : Reaches par root x

theorem Reaches.mono (h : Reaches par root x) (hp : ∀ x p, par x = some p → par' x = some p) : Reaches par' root x := by
  induction h with
  | root => exact .root
  | up hx _ ih => exact .up (hp _ _ hx) ih

theorem Reaches.of_not_above (h : Reaches par root z) (hp : ∀ y, y ≠ x → par' y = par y)
    (hx : ¬ Above par z x) : Reaches par' root z := by
  induction h with
  | root => exact .root
  | @up z w hz _ ih =>
    have hn : z ≠ x := fun he => hx (he ▸ .refl)
    exact .up ((hp z hn).trans hz) (ih fun hw => hx (.head hz hw))

theorem Reaches.above_or (h : Reaches par root z) (hp : ∀ y, y ≠ x → par' y = par y) :
    Reaches par' root z ∨ Above par' z x := by
  induction h with
  | root => exact Or.inl .root
  | @up z w hz _ ih =>
    by_cases hn : z = x
    · exact Or.inr (hn ▸ .refl)
    · have hz' : par' z = some w := (hp z hn).trans hz
      exact ih.imp (.up hz') (.head hz')

theorem Reaches.of_above (h : Above par z x) (hx : Reaches par root x) : Reaches par root z := by
  induction h using ReflTransGen.head_induction_on with
  | refl => exact hx
  | head hz _ ih => exact .up hz ih

/-- **Moving an element.** If the new parent reaches the root without passing the element, everything that reached the
root or the element reaches the root again. -/
theorem Reaches.move (hz : Reaches par root z ∨ Above par z x) (hpa : ∀ y, y ≠ x → par' y = par y)
    (hx : par' x = some p) (hp : Reaches par root p) (hpx : ¬ Above par p x) : Reaches par' root z := by
  have hr : Reaches par' root x := .up hx (hp.of_not_above hpa hpx)
  rcases hz with hz | hz
  · rcases hz.above_or hpa with h | h
    · exact h
    · exact hr.of_above h
  · induction hz using ReflTransGen.head_induction_on with
    | refl => exact hr
    | @head y w hy _ ih =>
      by_cases hn : y = x
      · exact hn ▸ hr
      · exact .up ((hpa y hn).trans hy) ih

theorem not_cycle_of_reaches (hro : par root = none) (h : Reaches par root x) : ¬ TransGen (Up par) x x := by
  induction h with
  | root =>
    intro hc
    obtain ⟨w, hw, _⟩ := TransGen.head'_iff.1 hc
    simp [Up, hro] at hw
  | @up x p hx _ ih =>
    intro hc
    obtain ⟨w, hw, hr⟩ := TransGen.head'_iff.1 hc
    obtain rfl : w = p := Option.some.inj (hw.symm.trans hx)
    exact ih (TransGen.tail' hr hx)

/-! ## The loop -/

/-- the elements met in a number of rounds -/
def walk (par : α → Option α) : ℕ → α → List α
  | 0, _ => []
  | n + 1, x => x :: ((par x).map (walk par n)).getD []

/-- a loop of as many rounds as there are elements above its start meets all of them -/
theorem mem_walk [DecidableEq α] (hr : par root = none) (hx : Reaches par root x) (s : Finset α)
    (hs : ∀ w, Above par x w → w ∈ s) (hy : Above par x y) : y ∈ walk par s.card x := by
  induction hx generalizing s with
  | root =>
    have hc : 0 < s.card := Finset.card_pos.2 ⟨root, hs root .refl⟩
    obtain ⟨n, hn⟩ := Nat.exists_eq_succ_of_ne_zero hc.ne'
    rcases ReflTransGen.cases_head hy with rfl | ⟨w, hw, _⟩
    · rw [hn]
      exact List.mem_cons_self
    · simp [Up, hr] at hw
  | @up x p hxp hp ih =>
    have hm : x ∈ s := hs x .refl
    have hc : s.card = (s.erase x).card + 1 := (Finset.card_erase_add_one hm).symm
    rw [hc, walk, hxp]
    rcases ReflTransGen.cases_head hy with rfl | ⟨w, hw, hre⟩
    · exact List.mem_cons_self
    · obtain rfl : w = p := Option.some.inj (hw.symm.trans hxp)
      refine List.mem_cons_of_mem _ (ih (s.erase x) (fun v hv => Finset.mem_erase.2 ⟨?_, hs v (.head hw hv)⟩) hre)
      -- the start is not met again
      rintro rfl
      exact not_cycle_of_reaches hr (.up hxp hp) (TransGen.head' hw hv)

end ParentWalk
