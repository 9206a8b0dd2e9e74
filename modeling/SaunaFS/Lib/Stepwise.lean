/-
Runs of a step function, and replication of a run through the log it emits.

- `inv_run`: an invariant kept by every admissible step holds at the end of every run of admissible steps.
- `replay_logOf`: if the log of each admissible step replays on every related replica, so does the log of every run.
-/
import Mathlib.Tactic

namespace Stepwise

section Run

variable {S O : Type*} {step : S → O → S}

/-- the state after a list of operations -/
def run (step : S → O → S) (s : S) (ops : List O) : S := ops.foldl step s

@[simp] theorem run_nil {s : S} : run step s [] = s := rfl

@[simp] theorem run_cons {s : S} {o : O} {ops : List O} : run step s (o :: ops) = run step (step s o) ops := rfl

theorem run_append {s : S} {a b : List O} : run step s (a ++ b) = run step (run step s a) b := by
  simp [run, List.foldl_append]

/-- every operation is admissible in the state it meets -/
def Along (step : S → O → S) (ok : S → O → Prop) : S → List O → Prop
  | _, [] => True
  | s, o :: ops => ok s o ∧ Along step ok (step s o) ops

instance decidableAlong {ok : S → O → Prop} [∀ s o, Decidable (ok s o)] :
    ∀ (s : S) (ops : List O), Decidable (Along step ok s ops)
  | _, [] => isTrue trivial
  | s, o :: ops => @instDecidableAnd (ok s o) _ _ (decidableAlong (step s o) ops)

variable {ok : S → O → Prop}

theorem along_of_forall (h : ∀ s o, ok s o) (s : S) (ops : List O) : Along step ok s ops := by
  induction ops generalizing s with
  | nil => trivial
  | cons o ops ih => exact ⟨h s o, ih _⟩

theorem along_append (s : S) (a b : List O) :
    Along step ok s (a ++ b) ↔ Along step ok s a ∧ Along step ok (run step s a) b := by
  induction a generalizing s with
  | nil => exact (and_iff_right trivial).symm
  | cons o a ih => exact (and_congr_right fun _ => ih (step s o)).trans and_assoc.symm

theorem inv_run {P : S → Prop} (hs : ∀ s o, ok s o → P s → P (step s o)) (s : S)
    (ops : List O) (ho : Along step ok s ops) (h : P s) : P (run step s ops) := by
  induction ops generalizing s with
  | nil => exact h
  | cons o ops ih => exact ih _ ho.2 (hs s o ho.1 h)

end Run

section Replication

variable {M R O E : Type*} {exec : M → O → M × List E} {apply : R → E → Option R}

/-- replay a log entry by entry, stopping at the first entry that is refused -/
def replay (apply : R → E → Option R) : R → List E → Option R
  | r, [] => some r
  | r, e :: es => (apply r e).bind fun r' => replay apply r' es

theorem replay_append (r : R) {a : List E} (b : List E) :
    replay apply r (a ++ b) = (replay apply r a).bind fun r' => replay apply r' b := by
  induction a generalizing r with
  | nil => rfl
  | cons e a ih =>
    simp only [List.cons_append, replay]
    cases apply r e with
    | none => rfl
    | some r' => exact ih r'

@[simp] theorem replay_single (r : R) (e : E) : replay apply r [e] = apply r e := by
  simp only [replay]
  cases apply r e <;> rfl

/-- the final state of a run and the whole log it emitted -/
def logOf (exec : M → O → M × List E) : M → List O → M × List E
  | m, [] => (m, [])
  | m, o :: ops => ((logOf exec (exec m o).1 ops).1, (exec m o).2 ++ (logOf exec (exec m o).1 ops).2)

theorem replay_logOf {ok : M → O → Prop} {Rel : M → R → Prop}
    (hs : ∀ m r o, ok m o → Rel m r → ∃ r', replay apply r (exec m o).2 = some r' ∧ Rel (exec m o).1 r')
    (m : M) (r : R) (ops : List O) (ho : Along (fun m o => (exec m o).1) ok m ops) (h : Rel m r) :
    ∃ r', replay apply r (logOf exec m ops).2 = some r' ∧ Rel (logOf exec m ops).1 r' := by
  induction ops generalizing m r with
  | nil => exact ⟨r, rfl, h⟩
  | cons o ops ih =>
    obtain ⟨r1, h1, hr⟩ := hs m r o ho.1 h
    obtain ⟨r2, h2, hr2⟩ := ih _ r1 ho.2 hr
    refine ⟨r2, ?_, hr2⟩
    simp only [logOf, replay_append, h1, Option.bind_some]
    exact h2

end Replication

end Stepwise
