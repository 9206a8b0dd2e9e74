/-
Postconditions of computations in `Except` and runs of steps that may fail.

- `Yields x P`: the computation succeeds, and its result satisfies `P`.
- `Ensures x P`: if the computation succeeds, its result satisfies `P`.
- `Along step ok s es`: every event of the run from `s` is admissible in the state it meets.
-/
import Mathlib.Tactic

namespace Fallible

universe u

variable {ε : Type*} {α β : Type u}

/-- success with a result that satisfies `P` -/
def Yields (x : Except ε α) (P : α → Prop) : Prop := ∃ a, x = .ok a ∧ P a

/-- every result satisfies `P` -/
def Ensures (x : Except ε α) (P : α → Prop) : Prop := ∀ a, x = .ok a → P a

variable {P : α → Prop} {a : α} {Q : α → Prop} {f : α → Except ε β}

@[simp] theorem yields_ok : Yields (.ok a : Except ε α) P ↔ P a := by simp [Yields]

@[simp] theorem ensures_ok : Ensures (.ok a : Except ε α) P ↔ P a := by simp [Ensures]

@[simp] theorem ensures_error {c : ε} : Ensures (.error c : Except ε α) P := by simp [Ensures]

variable {x : Except ε α}

theorem Yields.mono (h : Yields x P) (hPQ : ∀ a, P a → Q a) : Yields x Q := by
  obtain ⟨a, rfl, ha⟩ := h
  exact yields_ok.2 (hPQ a ha)

theorem Ensures.mono (h : Ensures x P) (hPQ : ∀ a, P a → Q a) : Ensures x Q := fun a ha => hPQ a (h a ha)

theorem Yields.bind {Q : β → Prop} (hx : Yields x P) (hf : ∀ a, P a → Yields (f a) Q) : Yields (x >>= f) Q := by
  obtain ⟨a, rfl, ha⟩ := hx
  exact hf a ha

theorem Ensures.bind {Q : β → Prop} (hx : Ensures x P) (hf : ∀ a, P a → Ensures (f a) Q) : Ensures (x >>= f) Q := by
  cases x with
  | error c => exact fun b hb => by cases hb
  | ok a => exact hf a (hx a rfl)

section Run

variable {S E : Type*} {step : S → E → Except ε S} {ok : S → E → Prop} {P : S → Prop}

/-- every event is admissible in the state it meets -/
def Along (step : S → E → Except ε S) (ok : S → E → Prop) : S → List E → Prop
  | _, [] => True
  | s, e :: es => ok s e ∧ match step s e with
    | .ok s' => Along step ok s' es
    | .error _ => True

instance decidableAlong [∀ s e, Decidable (ok s e)] : ∀ (s : S) (es : List E), Decidable (Along step ok s es)
  | _, [] => isTrue trivial
  | s, e :: es =>
    @instDecidableAnd (ok s e) _ _ <|
      match step s e with
      | .ok s' => decidableAlong s' es
      | .error _ => isTrue trivial

theorem yields_foldlM (hst : ∀ s e, ok s e → P s → Yields (step s e) P) (s : S) (es : List E)
    (ho : Along step ok s es) (hs : P s) : Yields (es.foldlM step s) P := by
  induction es generalizing s with
  | nil => exact yields_ok.2 hs
  | cons e es ih =>
    obtain ⟨s', hs', hP⟩ := hst s e ho.1 hs
    have hr := ho.2
    rw [hs'] at hr
    rw [List.foldlM_cons, hs']
    exact ih s' hr hP

theorem ensures_foldlM (hst : ∀ s e, ok s e → P s → Ensures (step s e) P) (s : S) (es : List E)
    (ho : Along step ok s es) (hs : P s) : Ensures (es.foldlM step s) P := by
  induction es generalizing s with
  | nil => exact ensures_ok.2 hs
  | cons e es ih =>
    have hr := ho.2
    rw [List.foldlM_cons]
    cases hs' : step s e with
    | error c => exact fun b hb => by cases hb
    | ok s' =>
      rw [hs'] at hr
      exact ih s' hr (hst s e ho.1 hs s' hs')

end Run

end Fallible
