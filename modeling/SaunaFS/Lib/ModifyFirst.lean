/-
Changing the first element of a list that satisfies a test: the loop that searches a vector, updates the entry it finds
and returns.
-/
import Mathlib.Tactic

namespace ModifyFirst

open List

variable {α β : Type*} {p : α → Bool} {f : α → α} {l : List α}

def modifyFirst (p : α → Bool) (f : α → α) : List α → List α
  | [] => []
  | x :: xs => if p x then f x :: xs else x :: modifyFirst p f xs

theorem forall_modifyFirst {Q : α → Prop} (h : ∀ x ∈ l, Q x) (hf : ∀ x ∈ l, p x → Q x → Q (f x)) :
    ∀ x ∈ modifyFirst p f l, Q x := by
  induction l with
  | nil => simp [modifyFirst]
  | cons y ys ih =>
    have hy := h y mem_cons_self
    have hys : ∀ x ∈ ys, Q x := fun x hx => h x (mem_cons_of_mem y hx)
    have hfy : ∀ x ∈ ys, p x → Q x → Q (f x) := fun x hx => hf x (mem_cons_of_mem y hx)
    intro x hx
    unfold modifyFirst at hx
    split_ifs at hx with hp
    · rcases mem_cons.1 hx with rfl | hx
      · exact hf y mem_cons_self hp hy
      · exact hys x hx
    · rcases mem_cons.1 hx with rfl | hx
      · exact hy
      · exact ih hys hfy x hx

variable {x : α}

theorem mem_modifyFirst_find (h : l.find? p = some x) : f x ∈ modifyFirst p f l := by
  induction l with
  | nil => cases h
  | cons y ys ih =>
    unfold modifyFirst
    rw [find?_cons] at h
    split_ifs with hy
    · rw [hy] at h
      cases h
      exact mem_cons_self
    · simp only [hy] at h
      exact mem_cons_of_mem _ (ih h)

theorem modifyFirst_of_find (h : l.find? p = some x) :
    ∃ before after, l = before ++ x :: after ∧ modifyFirst p f l = before ++ f x :: after := by
  induction l with
  | nil => cases h
  | cons y ys ih =>
    unfold modifyFirst
    rw [find?_cons] at h
    split_ifs with hy
    · rw [hy] at h
      cases h
      exact ⟨[], ys, rfl, rfl⟩
    · simp only [hy] at h
      obtain ⟨before, after, rfl, hm⟩ := ih h
      exact ⟨y :: before, after, rfl, congrArg (y :: ·) hm⟩

theorem modifyFirst_eq_self (h : ∀ x ∈ l, p x = false) : modifyFirst p f l = l := by
  induction l with
  | nil => rfl
  | cons x xs ih => simp [modifyFirst, h x mem_cons_self, ih fun y hy => h y (mem_cons_of_mem x hy)]

theorem modifyFirst_append_cons {before after : List α} (hb : ∀ y ∈ before, p y = false) (hx : p x) :
    modifyFirst p f (before ++ x :: after) = before ++ f x :: after := by
  induction before with
  | nil => simp [modifyFirst, hx]
  | cons y ys ih =>
    have hy := hb y mem_cons_self
    simp [modifyFirst, hy, ih fun z hz => hb z (mem_cons_of_mem y hz)]

theorem split_of_find (h : l.find? p = some x) :
    ∃ before after, l = before ++ x :: after ∧ l.eraseP p = before ++ after ∧
      ∀ y, modifyFirst p (fun _ => y) l = before ++ y :: after := by
  obtain ⟨hx, before, after, hl, hb⟩ := find?_eq_some_iff_append.1 h
  have hb' : ∀ y ∈ before, p y = false := fun y hy => by simpa using hb y hy
  refine ⟨before, after, hl, ?_, fun y => ?_⟩
  · rw [hl, eraseP_append_right _ fun y hy => by simp [hb' y hy]]
    simp only [eraseP_cons, hx, cond_true]
  · rw [hl, modifyFirst_append_cons hb' hx]

theorem map_modifyFirst {g : α → β} (h : ∀ x ∈ l, p x → g (f x) = g x) : (modifyFirst p f l).map g = l.map g := by
  induction l with
  | nil => rfl
  | cons x xs ih =>
    unfold modifyFirst
    split_ifs with hx
    · simp [h x mem_cons_self hx]
    · simp [ih fun y hy => h y (mem_cons_of_mem x hy)]

/-- an update that keeps what a partial view shows of an element, or hides the element from it -/
theorem filterMap_modifyFirst_sublist {g : α → Option β} (h : ∀ x, g (f x) = none ∨ g (f x) = g x) :
    ((modifyFirst p f l).filterMap g).Sublist (l.filterMap g) := by
  induction l with
  | nil => exact List.Sublist.refl _
  | cons x xs ih =>
    unfold modifyFirst
    split_ifs
    · rcases h x with hx | hx
      · rw [filterMap_cons_none hx]
        exact (sublist_cons_self x xs).filterMap g
      · rw [filterMap_cons, filterMap_cons, hx]
    · rw [filterMap_cons, filterMap_cons]
      cases g x with
      | none => exact ih
      | some y => exact ih.cons_cons y

end ModifyFirst
