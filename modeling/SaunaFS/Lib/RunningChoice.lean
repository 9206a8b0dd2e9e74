/-
A loop that keeps the best candidate seen so far. A candidate replaces the choice if it beats it, and beating is only
known to be implied by a higher rank: a candidate of lower rank may beat the choice as well.
-/
import Mathlib.Tactic

namespace RunningChoice

open List

variable {α β : Type*} [LinearOrder β] {rank : α → β} {beats : α → α → Bool} {l : List α}

/-- the choice after one more candidate -/
def choose (beats : α → α → Bool) : Option α → α → Option α
  | none, e => some e
  | some f, e => if beats e f then some e else some f

/-- a candidate of higher rank beats, and of the choice only its rank counts -/
structure Respects (rank : α → β) (beats : α → α → Bool) : Prop where
  of_lt {e f : α} : rank f < rank e → beats e f = true
  congr {e f f' : α} : rank f = rank f' → beats e f = beats e f'
  irrefl (e : α) : beats e e = false

/-- no candidate has a higher rank -/
def Best (rank : α → β) (l : List α) (f : α) : Prop := ∀ e ∈ l, rank e ≤ rank f

/-- a best candidate is beaten by none behind it, unless there is no candidate -/
def Settles (rank : α → β) (beats : α → α → Bool) (l : List α) : Prop :=
  l ≠ [] → ∃ pre e post, l = pre ++ e :: post ∧ Best rank l e ∧ ∀ d ∈ post, beats d e = false

/-- the choice has been a candidate that none behind it beats -/
theorem unbeaten_of_choice {f : α} (h : l.foldl (choose beats) none = some f) :
    ∃ pre post, l = pre ++ f :: post ∧ ∀ d ∈ post, beats d f = false := by
  induction l using reverseRecOn generalizing f with
  | nil => cases h
  | append_singleton l e ih =>
    cases hl : l.foldl (choose beats) none with
    | none =>
      obtain rfl : e = f := by simpa [hl, choose] using h
      exact ⟨l, [], rfl, by simp⟩
    | some g =>
      by_cases hb : beats e g
      · obtain rfl : e = f := by simpa [hl, choose, hb] using h
        exact ⟨l, [], rfl, by simp⟩
      · obtain rfl : g = f := by simpa [hl, choose, hb] using h
        obtain ⟨pre, post, rfl, hp⟩ := ih hl
        refine ⟨pre, post ++ [e], by simp, fun d hd => ?_⟩
        rcases mem_append.1 hd with hd | hd
        · exact hp d hd
        · rw [mem_singleton.1 hd]
          exact Bool.eq_false_iff.2 hb

theorem mem_of_choice {f : α} (h : l.foldl (choose beats) none = some f) : f ∈ l := by
  obtain ⟨pre, post, rfl, -⟩ := unbeaten_of_choice h
  simp

theorem choice_eq_none : l.foldl (choose beats) none = none ↔ l = [] := by
  refine ⟨fun h => ?_, fun h => by rw [h]; rfl⟩
  rcases eq_nil_or_concat' l with hl | ⟨pre, e, rfl⟩
  · exact hl
  · rw [foldl_append] at h
    cases hp : pre.foldl (choose beats) none <;> simp [hp, choose, ite_eq_iff] at h

theorem choice_of_unbeaten {f : α} (h : ∀ d ∈ l, beats d f = false) : l.foldl (choose beats) (some f) = some f := by
  induction l with
  | nil => rfl
  | cons d l ih =>
    rw [foldl_cons, choose, h d (by simp)]
    exact ih fun d' hd' => h d' (by simp [hd'])

section

variable (hr : Respects rank beats)
include hr

theorem choice_of_best {pre post : List α} {e : α} (hb : Best rank (pre ++ e :: post) e)
    (hp : ∀ d ∈ post, beats d e = false) :
    ∃ f, (pre ++ e :: post).foldl (choose beats) none = some f ∧ rank f = rank e := by
  rw [foldl_append, foldl_cons]
  cases hpr : pre.foldl (choose beats) none with
  | none => exact ⟨e, choice_of_unbeaten hp, rfl⟩
  | some g =>
    rw [choose]
    rcases (hb g (by simp [mem_of_choice hpr])).lt_or_eq with hl | he
    · rw [if_pos (hr.of_lt hl)]
      exact ⟨e, choice_of_unbeaten hp, rfl⟩
    · rw [hr.congr he, hr.irrefl, if_neg Bool.false_ne_true]
      exact ⟨g, choice_of_unbeaten fun d hd => (hr.congr he).trans (hp d hd), he⟩

/-- **The running choice.** It is of the highest rank exactly if a candidate of the highest rank is beaten by none
behind it. -/
theorem best_iff_settles : (∀ f ∈ l.foldl (choose beats) none, Best rank l f) ↔ Settles rank beats l := by
  constructor
  · intro hb hn
    obtain ⟨f, hf⟩ := Option.ne_none_iff_exists'.1 (mt choice_eq_none.1 hn)
    obtain ⟨pre, post, hsp, hp⟩ := unbeaten_of_choice hf
    exact ⟨pre, f, post, hsp, hb f hf, hp⟩
  · intro hs f hf
    obtain ⟨pre, e, post, rfl, hb, hp⟩ := hs (ne_nil_of_mem (mem_of_choice hf))
    obtain ⟨g, hg, hra⟩ := choice_of_best hr hb hp
    obtain rfl : g = f := Option.some.inj (hg.symm.trans hf)
    exact fun d hd => (hb d hd).trans hra.ge

/-- choices that are best have the same rank in any order -/
theorem rank_eq_of_perm {l' : List α} (hp : l.Perm l') (h : Settles rank beats l) (h' : Settles rank beats l') :
    (l.foldl (choose beats) none).map rank = (l'.foldl (choose beats) none).map rank := by
  rcases eq_or_ne l [] with rfl | hn
  · rw [nil_perm.1 hp]
  · have hn' : l' ≠ [] := fun he => hn (perm_nil.1 (he ▸ hp))
    obtain ⟨pre, e, post, hl, hb, hpo⟩ := h hn
    obtain ⟨pre', e', post', hl', hb', hpo'⟩ := h' hn'
    have hle : rank e' ≤ rank e := hb e' (hp.mem_iff.2 (by simp [hl']))
    have hg : rank e ≤ rank e' := hb' e (hp.mem_iff.1 (by simp [hl]))
    rw [hl] at hb ⊢
    rw [hl'] at hb' ⊢
    obtain ⟨f, hf, hra⟩ := choice_of_best hr hb hpo
    obtain ⟨f', hf', hra'⟩ := choice_of_best hr hb' hpo'
    rw [hf, hf', Option.map_some, Option.map_some, hra, hra', le_antisymm hg hle]

end

end RunningChoice
