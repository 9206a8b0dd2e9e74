/-
The goal counters of a chunk (`master/chunk_goal_counters.{h,cc}`): how many references the chunk has from files of
each goal. One entry holds at most 255 references; a goal with more has several entries, the newest first. The vector
of entries is a `compact_vector`, which keeps its length in 20 bits.
-/
import Mathlib.Tactic

namespace SaunaFS.Chunks

open List Nat Option

structure GoalCounter where
  goal : ℕ
  count : ℕ
deriving DecidableEq

def goalIsValid (goal : ℕ) : Bool := decide (1 ≤ goal ∧ goal ≤ 40)

/-- `std::numeric_limits<uint8_t>::max()` -/
def u8Max : ℕ := 255

/-- `compact_vector::max_size` with its 20 size bits -/
def countersMax : ℕ := 2 ^ 20 - 1

/-! ## The vector of entries -/

/-- the search of `addFile` ends at an entry it cannot count up, so that a new one has to be inserted -/
def needsEntry (goal : ℕ) : List GoalCounter → Bool
  | [] => true
  | x :: xs => if x.goal < goal then needsEntry goal xs else x.goal != goal || x.count == u8Max

def addCounter (goal : ℕ) : List GoalCounter → List GoalCounter
  | [] => [⟨goal, 1⟩]
  | x :: xs =>
    if x.goal < goal then x :: addCounter goal xs
    else if x.goal != goal || x.count == u8Max then ⟨goal, 1⟩ :: x :: xs
    else { x with count := x.count + 1 } :: xs

def removeCounter (goal : ℕ) : List GoalCounter → Option (List GoalCounter)
  | [] => none
  | x :: xs =>
    if x.goal < goal then (removeCounter goal xs).map (x :: ·)
    else if x.goal != goal then none
    else if x.count - 1 = 0 then some xs
    else some ({ x with count := x.count - 1 } :: xs)

/-- the number of references kept for a goal -/
def countOf (goal : ℕ) (l : List GoalCounter) : ℕ := (l.map fun x => if x.goal = goal then x.count else 0).sum

@[simp] theorem countOf_cons {goal : ℕ} {x : GoalCounter} {xs : List GoalCounter} :
    countOf goal (x :: xs) = (if x.goal = goal then x.count else 0) + countOf goal xs := by
  simp [countOf]

def EntriesSorted (l : List GoalCounter) : Prop := l.Pairwise fun x y => x.goal ≤ y.goal

def EntriesCounted (l : List GoalCounter) : Prop := ∀ x ∈ l, 1 ≤ x.count ∧ x.count ≤ u8Max

variable {goal : ℕ}

variable {l : List GoalCounter}

theorem countOf_eq_zero (h : ∀ x ∈ l, x.goal ≠ goal) : countOf goal l = 0 := by
  induction l with
  | nil => rfl
  | cons x xs ih =>
    have hx := h x mem_cons_self
    rw [countOf_cons, if_neg hx, ih fun y hy => h y (mem_cons_of_mem x hy)]

theorem mem_addCounter {y : GoalCounter} (h : y ∈ addCounter goal l) : y.goal = goal ∨ y ∈ l := by
  induction l with
  | nil =>
    simp only [addCounter, mem_singleton] at h
    exact .inl (by rw [h])
  | cons x xs ih =>
    unfold addCounter at h
    split_ifs at h with h1 h2
    · rcases mem_cons.1 h with rfl | h
      · exact .inr mem_cons_self
      · exact (ih h).imp id (mem_cons_of_mem x)
    · rcases mem_cons.1 h with rfl | h
      · exact .inl rfl
      · exact .inr h
    · rcases mem_cons.1 h with rfl | h
      · left
        simp only [Bool.or_eq_true, bne_iff_ne, not_or, ne_eq, not_not] at h2
        exact h2.1
      · exact .inr (mem_cons_of_mem x h)

theorem addCounter_sorted (h : EntriesSorted l) : EntriesSorted (addCounter goal l) := by
  unfold EntriesSorted at h ⊢
  induction l with
  | nil => simp [addCounter]
  | cons x xs ih =>
    rw [pairwise_cons] at h
    unfold addCounter
    split_ifs with h1 h2
    · refine pairwise_cons.2 ⟨fun y hy => ?_, ih h.2⟩
      rcases mem_addCounter hy with rfl | hy
      · exact le_of_lt h1
      · exact h.1 y hy
    · refine pairwise_cons.2 ⟨fun y hy => ?_, pairwise_cons.2 h⟩
      rcases mem_cons.1 hy with rfl | hy
      · exact not_lt.1 h1
      · exact (not_lt.1 h1).trans (h.1 y hy)
    · exact pairwise_cons.2 h

theorem addCounter_counted (h : EntriesCounted l) : EntriesCounted (addCounter goal l) := by
  induction l with
  | nil =>
    intro y hy
    simp only [addCounter, mem_singleton] at hy
    simp [hy, u8Max]
  | cons x xs ih =>
    have hx := h x mem_cons_self
    have hxs : EntriesCounted xs := fun y hy => h y (mem_cons_of_mem x hy)
    intro y hy
    unfold addCounter at hy
    split_ifs at hy with h1 h2
    · rcases mem_cons.1 hy with rfl | hy
      · exact hx
      · exact ih hxs y hy
    · rcases mem_cons.1 hy with rfl | hy
      · simp [u8Max]
      · exact h y hy
    · rcases mem_cons.1 hy with rfl | hy
      · simp only [Bool.or_eq_true, beq_iff_eq, not_or] at h2
        simp only
        omega
      · exact hxs y hy

theorem addCounter_length {goal : ℕ} : (addCounter goal l).length = l.length + if needsEntry goal l then 1 else 0 := by
  induction l with
  | nil => simp [addCounter, needsEntry]
  | cons x xs ih =>
    unfold addCounter needsEntry
    split_ifs with h1 h2
    all_goals simp_all

variable {l l' : List GoalCounter}

/-- the first entry of the goal is counted down, and erased when it is empty -/
theorem removeCounter_inv (h : removeCounter goal l = some l') : ∃ as x bs, l = as ++ x :: bs ∧
    (l' = as ++ bs ∨ x.count - 1 ≠ 0 ∧ l' = as ++ { x with count := x.count - 1 } :: bs) := by
  induction l generalizing l' with
  | nil => simp [removeCounter] at h
  | cons x xs ih =>
    unfold removeCounter at h
    split_ifs at h with h1 h2 h3
    · obtain ⟨r, hr, rfl⟩ := map_eq_some_iff.1 h
      obtain ⟨as, y, bs, rfl, hy⟩ := ih hr
      exact ⟨x :: as, y, bs, rfl, by simpa using hy⟩
    · cases h
      exact ⟨[], x, xs, rfl, .inl rfl⟩
    · cases h
      exact ⟨[], x, xs, rfl, .inr ⟨h3, rfl⟩⟩

theorem removeCounter_sorted (hl : EntriesSorted l) (h : removeCounter goal l = some l') : EntriesSorted l' := by
  obtain ⟨as, x, bs, rfl, rfl | ⟨-, rfl⟩⟩ := removeCounter_inv h
  · exact hl.sublist (by simp)
  · simpa [EntriesSorted, pairwise_append] using hl

theorem removeCounter_counted (hl : EntriesCounted l) (h : removeCounter goal l = some l') : EntriesCounted l' := by
  obtain ⟨as, x, bs, rfl, rfl | ⟨h0, rfl⟩⟩ := removeCounter_inv h
  · exact fun y hy => hl y (Sublist.subset (by simp) hy)
  · have hx := hl x (by simp)
    intro y hy
    rcases mem_append.1 hy with hy | hy
    · exact hl y (mem_append_left _ hy)
    · rcases mem_cons.1 hy with rfl | hy
      · exact ⟨one_le_iff_ne_zero.2 h0, (sub_le _ _).trans hx.2⟩
      · exact hl y (by simp [hy])

theorem removeCounter_length (h : removeCounter goal l = some l') : l'.length ≤ l.length := by
  obtain ⟨as, x, bs, rfl, rfl | ⟨-, rfl⟩⟩ := removeCounter_inv h <;> simp

/-! ## The class -/

/-- `ChunkGoalCounters`; the vector is sorted by goal, no entry is empty or overflows, and it fits its size bits -/
@[ext]
structure ChunkGoalCounters where
  counters : List GoalCounter
  sorted : EntriesSorted counters
  counted : EntriesCounted counters
  fits : counters.length ≤ countersMax

instance : DecidableEq ChunkGoalCounters := fun _ _ => decidable_of_iff _ ChunkGoalCounters.ext_iff.symm

namespace ChunkGoalCounters

/-- the counters of a chunk just allocated -/
def empty : ChunkGoalCounters where
  counters := []
  sorted := List.Pairwise.nil
  counted := by simp [EntriesCounted]
  fits := zero_le _

variable (c : ChunkGoalCounters)

def full : Bool := c.counters.length == countersMax

/-- `addFile`; `none` is a thrown `InvalidOperation` -/
def addFile (goal : ℕ) : Option ChunkGoalCounters :=
  if hg : goalIsValid goal then
    if hf : needsEntry goal c.counters && c.full then none
    else some
      { counters := addCounter goal c.counters
        sorted := addCounter_sorted c.sorted
        counted := addCounter_counted c.counted
        fits := by
          have hfit := c.fits
          rw [addCounter_length]
          simp only [full, Bool.and_eq_true, beq_iff_eq, not_and] at hf
          split_ifs with hn
          · have := hf hn
            omega
          · exact hfit }
  else none

/-- `removeFile`; `none` is a thrown `InvalidOperation` -/
def removeFile (goal : ℕ) : Option ChunkGoalCounters :=
  match h : removeCounter goal c.counters with
  | none => none
  | some l => some
      { counters := l
        sorted := removeCounter_sorted c.sorted h
        counted := removeCounter_counted c.counted h
        fits := (removeCounter_length h).trans c.fits }

def fileCount : ℕ := (c.counters.map GoalCounter.count).sum

/-- the references kept for a goal -/
def count (goal : ℕ) : ℕ := countOf goal c.counters

/-- one more file of this goal can be counted -/
def HasRoom (goal : ℕ) : Prop := needsEntry goal c.counters = false ∨ c.counters.length < countersMax

theorem addFile_isSome (goal : ℕ) : (c.addFile goal).isSome ↔ goalIsValid goal ∧ c.HasRoom goal := by
  have hfi := c.fits
  unfold addFile HasRoom
  split_ifs with hg hf
  · simp only [full, Bool.and_eq_true, beq_iff_eq] at hf
    simp [hf.1, hf.2]
  · simp only [full, Bool.and_eq_true, beq_iff_eq, not_and] at hf
    simp only [isSome_some, true_iff, hg, true_and]
    cases hn : needsEntry goal c.counters with
    | false => exact .inl rfl
    | true => exact .inr (lt_of_le_of_ne hfi (hf hn))
  · simp [hg]

variable {goal : ℕ}

theorem addFile_counters {c c' : ChunkGoalCounters} (h : c.addFile goal = some c') :
    c'.counters = addCounter goal c.counters := by
  unfold addFile at h
  split_ifs at h
  cases h
  rfl

end ChunkGoalCounters

end SaunaFS.Chunks
