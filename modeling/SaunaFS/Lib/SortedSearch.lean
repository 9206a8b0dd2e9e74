/-
Binary searches on a sorted vector, and the set operations on sorted vectors that go with them, for any element type
with a key in a linear order.

`std::lower_bound` and `std::upper_bound` return the partition point of their predicate; on a list that is `takeWhile`.
`window` is the slice that starts one element before the lower bound of `a` and stops at the upper bound of `b`: the
elements that can reach into `[a, b]` when each element ends before the next one starts.
-/
import Mathlib.Data.List.TakeWhile
import Mathlib.Tactic

namespace SortedSearch

open List

variable {α β : Type*} [LinearOrder β]

/-! ## Partition points -/

def lowerBound (key : α → β) (l : List α) (a : β) : ℕ := (l.takeWhile fun x => decide (key x < a)).length

def upperBound (key : α → β) (l : List α) (b : β) : ℕ := (l.takeWhile fun x => decide (key x ≤ b)).length

/-- the list up to one element before the lower bound, from there to the upper bound, and the rest -/
structure Window (α : Type*) where
  before : List α
  inside : List α
  after : List α

def window (key : α → β) (l : List α) (a b : β) : Window α where
  before := l.take (lowerBound key l a - 1)
  inside := (l.take (upperBound key l b)).drop (lowerBound key l a - 1)
  after := l.drop (upperBound key l b)

variable {a b : β} (key : α → β) (l : List α)

/-- the window does not end before it starts -/
def InOrder (a b : β) : Prop := lowerBound key l a - 1 ≤ upperBound key l b

theorem lowerBound_le_upperBound (hab : a ≤ b) : lowerBound key l a ≤ upperBound key l b := by
  induction l with
  | nil => simp [lowerBound, upperBound]
  | cons x l ih =>
    simp only [lowerBound, upperBound, takeWhile_cons] at ih ⊢
    by_cases hx : key x < a
    · simp [hx, (hx.trans_le hab).le, ih]
    · simp [hx]

theorem InOrder.of_le {key : α → β} {l : List α} (hab : a ≤ b) : InOrder key l a b :=
  (Nat.sub_le _ _).trans (lowerBound_le_upperBound key l hab)

section

variable (hab : InOrder key l a b)
include hab

theorem window_append : (window key l a b).before ++ (window key l a b).inside ++ (window key l a b).after = l := by
  have hm : min (lowerBound key l a - 1) (upperBound key l b) = lowerBound key l a - 1 := min_eq_left hab
  have ht : (window key l a b).before ++ (window key l a b).inside = l.take (upperBound key l b) := by
    have h := take_append_drop (lowerBound key l a - 1) (l.take (upperBound key l b))
    rwa [take_take, hm] at h
  rw [ht]
  exact take_append_drop _ _

theorem mem_window {x : α} :
    x ∈ l ↔ x ∈ (window key l a b).before ∨ x ∈ (window key l a b).inside ∨ x ∈ (window key l a b).after := by
  conv_lhs => rw [← window_append key l hab]
  simp

theorem window_rest_sublist : ((window key l a b).before ++ (window key l a b).after).Sublist l := by
  conv_rhs => rw [← window_append key l hab]
  exact (sublist_append_left _ _).append (List.Sublist.refl _)

end

theorem inside_mem {key : α → β} {l : List α} {x : α} (hx : x ∈ (window key l a b).inside) : x ∈ l :=
  mem_of_mem_take (mem_of_mem_drop hx)

theorem drop_takeWhile_length {p : α → Bool} {l : List α} : l.drop (l.takeWhile p).length = l.dropWhile p := by
  induction l with
  | nil => rfl
  | cons x l ih => by_cases hx : p x <;> simp [hx, ih]

theorem after_key {l : List α} (hl : l.Pairwise fun x y => key x ≤ key y) (a b : β) :
    ∀ x ∈ (window key l a b).after, b < key x := by
  simp only [window, upperBound, drop_takeWhile_length]
  induction l with
  | nil => simp
  | cons y l ih =>
    rw [pairwise_cons] at hl
    by_cases hy : key y ≤ b
    · simpa [hy] using ih hl.2
    · have hlt : b < key y := not_le.1 hy
      simp only [dropWhile_cons, hy, decide_false, Bool.false_eq_true, ↓reduceIte, mem_cons, forall_eq_or_imp]
      exact ⟨hlt, fun x hx => hlt.trans_le (hl.1 x hx)⟩

theorem before_key (a b : β) : ∀ x ∈ (window key l a b).before, key x < a := by
  intro x hx
  have hp : (window key l a b).before <+: l.takeWhile fun x => decide (key x < a) := by
    refine prefix_of_prefix_length_le ( take_prefix _ _) ( takeWhile_prefix _) ?_
    simp only [window, lowerBound, length_take]
    omega
  simpa using mem_takeWhile_imp (hp.subset hx)

theorem before_eq_nil (b : β) (h : ∀ x ∈ l, a ≤ key x) : (window key l a b).before = [] := by
  by_contra hn
  obtain ⟨x, hx⟩ := exists_mem_of_ne_nil _ hn
  have hxl : x ∈ l := mem_of_mem_take hx
  exact absurd (before_key key l a b x hx) (not_lt.2 (h x hxl))

/-- a window that leaves something out in front starts with an element whose key is below its lower end -/
theorem inside_cons_of_before (hab : a ≤ b)
    (h : (window key l a b).before ≠ []) : ∃ y ys, (window key l a b).inside = y :: ys ∧ key y < a := by
  have hle := lowerBound_le_upperBound key l hab
  have hp : 0 < lowerBound key l a - 1 := by
    rcases Nat.eq_zero_or_pos (lowerBound key l a - 1) with h0 | h0
    · simp [window, h0] at h
    · exact h0
  obtain ⟨pre, y, hs⟩ : ∃ pre y, l.takeWhile (fun x => decide (key x < a)) = pre ++ [y] := by
    refine ⟨_, _, (dropLast_append_getLast ?_).symm⟩
    intro hn
    simp [lowerBound, hn] at hp
  have hl : lowerBound key l a - 1 = pre.length := by simp [lowerBound, hs]
  obtain ⟨t, ht⟩ : pre ++ [y] <+: l := hs ▸ takeWhile_prefix _
  have hup : pre.length + 1 ≤ upperBound key l b := by omega
  refine ⟨y, (t.take (upperBound key l b - (pre.length + 1))), ?_, ?_⟩
  · simp only [window, hl]
    generalize upperBound key l b = n at hup
    subst ht
    rw [take_append, take_of_length_le (by simpa using hup), append_assoc, drop_left]
    simp
  · have hy : y ∈ l.takeWhile fun x => decide (key x < a) := by simp [hs]
    simpa using mem_takeWhile_imp hy

/-! ## Removal from a sorted vector -/

/-- erase the element at the lower bound of `k` if its key is `k` -/
def eraseBy (key : α → β) (l : List α) (k : β) : List α :=
  match l.dropWhile fun x => decide (key x < k) with
  | [] => l
  | it :: after => if key it = k then (l.takeWhile fun x => decide (key x < k)) ++ after else l

theorem eraseBy_eq_filter {l : List α} (hl : l.Pairwise fun x y => key x < key y) (k : β) :
    eraseBy key l k = l.filter fun x => decide (key x ≠ k) := by
  induction l with
  | nil => rfl
  | cons x l ih =>
    rw [pairwise_cons] at hl
    have ih := ih hl.2
    rcases lt_trichotomy (key x) k with hx | hx | hx
    · have hc : eraseBy key (x :: l) k = x :: eraseBy key l k := by
        simp only [eraseBy, dropWhile_cons, takeWhile_cons, hx, decide_true, ↓reduceIte]
        split
        · rfl
        · split_ifs <;> rfl
      rw [hc, ih]
      simp [hx.ne]
    · have ha : l.filter (fun y => !decide (key y = k)) = l := by
        refine filter_eq_self.2 fun y hy => ?_
        simpa using (hx ▸ hl.1 y hy).ne'
      simp [eraseBy, hx, ha]
    · have ha : l.filter (fun y => !decide (key y = k)) = l := by
        refine filter_eq_self.2 fun y hy => ?_
        simpa using (hx.trans (hl.1 y hy)).ne'
      simp [eraseBy, hx.not_gt, hx.ne', ha]

/-! ## Union of sorted vectors -/

/-- `std::merge`: the elements of `ys` below `x` come before `x`, equal ones after it -/
def mergeBy (key : α → β) : List α → List α → List α
  | [], ys => ys
  | x :: xs, ys =>
    (ys.takeWhile fun y => decide (key y < key x)) ++
      x :: mergeBy key xs (ys.dropWhile fun y => decide (key y < key x))

/-- `std::unique`: the first element of every run of equal keys -/
def uniqueBy (key : α → β) : List α → List α
  | [] => []
  | x :: xs =>
    match uniqueBy key xs with
    | [] => [x]
    | y :: ys => if key x = key y then x :: ys else x :: y :: ys

variable {xs ys : List α} {k : β}

theorem mem_mergeBy {z : α} : z ∈ mergeBy key xs ys ↔ z ∈ xs ∨ z ∈ ys := by
  induction xs generalizing ys with
  | nil => simp [mergeBy]
  | cons x xs ih =>
    have hy : z ∈ ys ↔ z ∈ ys.takeWhile (fun y => decide (key y < key x)) ∨
        z ∈ ys.dropWhile fun y => decide (key y < key x) := by
      rw [← mem_append, takeWhile_append_dropWhile]
    simp only [mergeBy, mem_append, mem_cons, ih, hy]
    tauto

theorem sorted_mergeBy (hx : xs.Pairwise fun a b => key a ≤ key b)
    (hy : ys.Pairwise fun a b => key a ≤ key b) : (mergeBy key xs ys).Pairwise fun a b => key a ≤ key b := by
  induction xs generalizing ys with
  | nil => exact hy
  | cons x xs ih =>
    rw [pairwise_cons] at hx
    have hd : ∀ z ∈ ys.dropWhile (fun y => decide (key y < key x)), key x ≤ key z := by
      induction ys with
      | nil => simp
      | cons y ys ihy =>
        rw [pairwise_cons] at hy
        by_cases hl : key y < key x
        · simpa [hl] using ihy hy.2
        · have hle : key x ≤ key y := not_lt.1 hl
          simp only [dropWhile_cons, hl, decide_false, Bool.false_eq_true, ↓reduceIte, mem_cons, forall_eq_or_imp]
          exact ⟨hle, fun z hz => hle.trans (hy.1 z hz)⟩
    have hta : ∀ z ∈ ys.takeWhile (fun y => decide (key y < key x)), key z < key x := by
      intro z hz
      simpa using mem_takeWhile_imp hz
    have ht : ∀ z ∈ mergeBy key xs (ys.dropWhile fun y => decide (key y < key x)), key x ≤ key z := by
      intro z hz
      rcases (mem_mergeBy key).1 hz with h | h
      · exact hx.1 z h
      · exact hd z h
    refine pairwise_append.2 ⟨hy.sublist (takeWhile_sublist _), pairwise_cons.2 ⟨ht, ?_⟩, ?_⟩
    · exact ih hx.2 (hy.sublist (dropWhile_sublist _))
    · intro a ha b hb
      rcases mem_cons.1 hb with rfl | hb
      · exact (hta a ha).le
      · exact (hta a ha).le.trans (ht b hb)

theorem mem_map_uniqueBy : k ∈ (uniqueBy key l).map key ↔ k ∈ l.map key := by
  induction l with
  | nil => rfl
  | cons x xs ih =>
    simp only [uniqueBy]
    split
    · rename_i h
      rw [h] at ih
      simp only [map_cons, map_nil, mem_cons]
      tauto
    · rename_i y ys h
      rw [h] at ih
      split_ifs with he
      · simp only [map_cons, mem_cons, ← ih, he]
        tauto
      · simp only [map_cons, mem_cons, ← ih]

theorem uniqueBy_subset : uniqueBy key l ⊆ l := by
  induction l with
  | nil => simp [uniqueBy]
  | cons x xs ih =>
    simp only [uniqueBy]
    split
    · simp
    · rename_i y ys h
      rw [h] at ih
      split_ifs
      · exact cons_subset_cons _ fun z hz => ih (mem_cons_of_mem y hz)
      · exact cons_subset_cons _ ih

theorem sorted_uniqueBy {l : List α} (hl : l.Pairwise fun a b => key a ≤ key b) :
    (uniqueBy key l).Pairwise fun a b => key a < key b := by
  induction l with
  | nil => simp [uniqueBy]
  | cons x xs ih =>
    rw [pairwise_cons] at hl
    have ih := ih hl.2
    have hs := uniqueBy_subset key xs
    simp only [uniqueBy]
    split
    · simp
    · rename_i y ys h
      rw [h] at ih hs
      rw [pairwise_cons] at ih
      have hx : key x ≤ key y := hl.1 y (hs (by simp))
      split_ifs with he
      · exact pairwise_cons.2 ⟨fun z hz => he ▸ ih.1 z hz, ih.2⟩
      · have hlt : key x < key y := lt_of_le_of_ne hx he
        refine pairwise_cons.2 ⟨fun z hz => ?_, pairwise_cons.2 ih⟩
        rcases mem_cons.1 hz with rfl | hz
        · exact hlt
        · exact hlt.trans (ih.1 z hz)

theorem mem_map_uniqueBy_mergeBy :
    k ∈ (uniqueBy key (mergeBy key xs ys)).map key ↔ k ∈ xs.map key ∨ k ∈ ys.map key := by
  rw [mem_map_uniqueBy]
  simp only [mem_map, mem_mergeBy]
  constructor
  · rintro ⟨z, hz | hz, rfl⟩
    · exact .inl ⟨z, hz, rfl⟩
    · exact .inr ⟨z, hz, rfl⟩
  · rintro (⟨z, hz, rfl⟩ | ⟨z, hz, rfl⟩)
    · exact ⟨z, .inl hz, rfl⟩
    · exact ⟨z, .inr hz, rfl⟩

theorem sorted_uniqueBy_mergeBy (hx : xs.Pairwise fun a b => key a < key b)
    (hy : ys.Pairwise fun a b => key a < key b) :
    (uniqueBy key (mergeBy key xs ys)).Pairwise fun a b => key a < key b :=
  sorted_uniqueBy key (sorted_mergeBy key (hx.imp le_of_lt) (hy.imp le_of_lt))

/-! ## Changing the elements but not their keys -/

section Map

variable {γ : Type*} {key : α → β} {key' : γ → β} {f : α → γ}

omit [LinearOrder β] in
theorem takeWhile_map_key (hf : ∀ x, key' (f x) = key x) (p : β → Bool) (l : List α) :
    (l.map f).takeWhile (fun y => p (key' y)) = (l.takeWhile fun x => p (key x)).map f := by
  rw [takeWhile_map]
  congr 2
  funext x
  simp [hf]

omit [LinearOrder β] in
theorem dropWhile_map_key (hf : ∀ x, key' (f x) = key x) (p : β → Bool) (l : List α) :
    (l.map f).dropWhile (fun y => p (key' y)) = (l.dropWhile fun x => p (key x)).map f := by
  rw [dropWhile_map]
  congr 2
  funext x
  simp [hf]

section

variable (hf : ∀ x, key' (f x) = key x)
include hf

theorem window_map (l : List α) (a b : β) : (window key' (l.map f) a b).before = (window key l a b).before.map f ∧
      (window key' (l.map f) a b).inside = (window key l a b).inside.map f ∧
      (window key' (l.map f) a b).after = (window key l a b).after.map f := by
  have hl : lowerBound key' (l.map f) a = lowerBound key l a := by
    simp only [lowerBound, takeWhile_map_key hf (fun k => decide (k < a)), length_map]
  have hup : upperBound key' (l.map f) b = upperBound key l b := by
    simp only [upperBound, takeWhile_map_key hf (fun k => decide (k ≤ b)), length_map]
  simp [window, hl, hup, map_take, map_drop]

theorem mergeBy_map (xs ys : List α) : mergeBy key' (xs.map f) (ys.map f) = (mergeBy key xs ys).map f := by
  induction xs generalizing ys with
  | nil => rfl
  | cons x xs ih =>
    simp only [map_cons, mergeBy, hf, map_append, takeWhile_map_key hf (fun k => decide (k < key x)),
      dropWhile_map_key hf (fun k => decide (k < key x)), ih]

theorem uniqueBy_map (l : List α) : uniqueBy key' (l.map f) = (uniqueBy key l).map f := by
  induction l with
  | nil => rfl
  | cons x xs ih =>
    simp only [map_cons, uniqueBy, ih]
    cases uniqueBy key xs with
    | nil => rfl
    | cons y ys =>
      simp only [map_cons, hf]
      split_ifs <;> rfl

theorem eraseBy_map (l : List α) (k : β) : eraseBy key' (l.map f) k = (eraseBy key l k).map f := by
  simp only [eraseBy, takeWhile_map_key hf (fun a => decide (a < k)), dropWhile_map_key hf (fun a => decide (a < k))]
  cases l.dropWhile fun x => decide (key x < k) with
  | nil => rfl
  | cons y ys =>
    simp only [map_cons, hf]
    split_ifs
    · rw [map_append]
    · rfl

end

end Map

end SortedSearch
