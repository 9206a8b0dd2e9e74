/-
The statistics over all chunks (`Chunk::allChunksAvailability`, `allChunksReplicationState`, `allFullChunkCopies` of
`master/chunks.cc`), one tally with a `Cell` for each counter. A change takes what the chunk stood for off the counters
and puts the new contribution on; around a change of goal counters the code between the two halves can throw. What
`updateStats` computes is a parameter that may change between any two steps.
-/
import SaunaFS.Lib.Tally
import SaunaFS.Lib.ModifyFirst
import SaunaFS.Chunks.GoalCounters
import SaunaFS.Chunks.ChunkPart

namespace SaunaFS.Chunks.Statistics

open ModifyFirst List Option

/-! ## A chunk and its contribution -/

def chunkMatrixSize : ℕ := 11

def maxPartsCount : ℕ := 11

def maxStatCount : ℕ := 15

structure CopyState where
  allAvailabilityState : AvailabilityState
  allMissingParts : ℕ
  allRedundantParts : ℕ
  allFullCopies : ℕ
  copiesInStats : ℕ
deriving DecidableEq

/-- the bounds that make the numbers fit their bit fields -/
def CopyState.cut (s : CopyState) : CopyState where
  allAvailabilityState := s.allAvailabilityState
  allMissingParts := min maxStatCount s.allMissingParts
  allRedundantParts := min maxStatCount s.allRedundantParts
  allFullCopies := min maxStatCount s.allFullCopies
  copiesInStats := min maxStatCount s.copiesInStats

/-- the part of `Chunk` that the statistics are about -/
structure StatChunk where
  chunkid : ℕ
  parts : List ChunkPart
  goalCounters : ChunkGoalCounters
  state : CopyState

/-- a counter of the statistics -/
inductive Cell where
  | availability (state : AvailabilityState) (goal : ℕ)
  | toReplicate (goal missingParts : ℕ)
  | toDelete (goal redundantParts : ℕ)
  | fullCopies (limitedGoal limitedAll : ℕ)
deriving DecidableEq

/-- the goals that the loops over the counters visit; `prev_goal` is -1 at first -/
def distinctGoals : Option ℕ → List GoalCounter → List ℕ
  | _, [] => []
  | prevGoal, counter :: counters =>
    if prevGoal = some counter.goal then distinctGoals prevGoal counters
    else counter.goal :: distinctGoals (some counter.goal) counters

namespace StatChunk

def goalCells (s : CopyState) (goal : ℕ) : List Cell :=
  [.availability s.allAvailabilityState goal, .toReplicate goal (min s.allMissingParts (maxPartsCount - 1)),
    .toDelete goal (min s.allRedundantParts (maxPartsCount - 1))]

variable (c : StatChunk)

/-- the counters that `addToStats` and `removeFromStats` go through -/
def cells : List Cell :=
  (distinctGoals none c.goalCounters.counters).flatMap (goalCells c.state) ++
    [.fullCopies (min (chunkMatrixSize - 1) c.state.copiesInStats) (min (chunkMatrixSize - 1) c.state.allFullCopies)]

def removeFromStats (t : Tally Cell) : Tally Cell := t.subAll c.cells

def addToStats (t : Tally Cell) : Tally Cell := t.addAll c.cells

abbrev Calculate := ChunkGoalCounters → List ChunkPart → CopyState

variable (calculate : Calculate)

def updateStats (remove : Bool) (c : StatChunk) (t : Tally Cell) : StatChunk × Tally Cell :=
  let t := if remove then c.removeFromStats t else t
  let c := { c with state := (calculate c.goalCounters c.parts).cut }
  (c, c.addToStats t)

/-- `addFileWithGoal`; an exception leaves between the halves -/
def addFileWithGoal (goal : ℕ) (c : StatChunk) (t : Tally Cell) : StatChunk × Tally Cell :=
  let t := c.removeFromStats t
  match c.goalCounters.addFile goal with
  | none => (c, t)
  | some g => updateStats calculate false { c with goalCounters := g } t

def removeFileWithGoal (goal : ℕ) (c : StatChunk) (t : Tally Cell) : StatChunk × Tally Cell :=
  let t := c.removeFromStats t
  match c.goalCounters.removeFile goal with
  | none => (c, t)
  | some g => updateStats calculate false { c with goalCounters := g } t

/-- `changeFileGoal`; the second exception leaves with the old goal already removed -/
def changeFileGoal (prevGoal newGoal : ℕ) (c : StatChunk) (t : Tally Cell) : StatChunk × Tally Cell :=
  let t := c.removeFromStats t
  match c.goalCounters.removeFile prevGoal with
  | none => (c, t)
  | some g =>
    match g.addFile newGoal with
    | none => ({ c with goalCounters := g }, t)
    | some g' => updateStats calculate false { c with goalCounters := g' } t

/-- `clear`, with the id that `chunk_new` sets -/
def clear (chunkid : ℕ) (t : Tally Cell) : StatChunk × Tally Cell :=
  updateStats calculate false
    { chunkid := chunkid, parts := [], goalCounters := .empty, state := ⟨.safe, 0, 0, 0, 0⟩ } t

end StatChunk

open StatChunk

/-! ## All chunks -/

/-- the chunks that exist, the newest first, and the static counters -/
structure ChunkStatistics where
  chunks : List StatChunk
  calculate : Calculate
  tally : Tally Cell

inductive Event where
  | strinit
  | new (chunkid : ℕ)
  | delete (chunkid : ℕ)
  | addFile (chunkid goal : ℕ)
  | deleteFile (chunkid goal : ℕ)
  | changeFile (chunkid prevGoal newGoal : ℕ)
  | setParts (chunkid : ℕ) (parts : List ChunkPart)
  | updateStats (chunkid : ℕ)
  | redefine (calculate : Calculate)

namespace ChunkStatistics

/-- `chunk_strinit`: no chunk, and all counters zero -/
def strinit (calculate : Calculate) : ChunkStatistics where
  chunks := []
  calculate := calculate
  tally := .zero

def find (s : ChunkStatistics) (chunkid : ℕ) : Option StatChunk := s.chunks.find? (·.chunkid == chunkid)

/-- a function of the chunk found; nothing happens if there is none -/
def onChunk (chunkid : ℕ) (f : StatChunk → Tally Cell → StatChunk × Tally Cell) (s : ChunkStatistics) :
    ChunkStatistics :=
  match s.find chunkid with
  | none => s
  | some c =>
    let r := f c s.tally
    { s with chunks := modifyFirst (·.chunkid == chunkid) (fun _ => r.1) s.chunks, tally := r.2 }

def delete (chunkid : ℕ) (s : ChunkStatistics) : ChunkStatistics :=
  match s.find chunkid with
  | none => s
  | some c => { s with chunks := s.chunks.eraseP (·.chunkid == chunkid), tally := c.removeFromStats s.tally }

variable (s : ChunkStatistics)

def step : Event → ChunkStatistics
  | .strinit => strinit s.calculate
  | .new chunkid =>
    let r := clear s.calculate chunkid s.tally
    { s with chunks := r.1 :: s.chunks, tally := r.2 }
  | .delete chunkid => s.delete chunkid
  | .addFile chunkid goal => s.onChunk chunkid (addFileWithGoal s.calculate goal)
  | .deleteFile chunkid goal => s.onChunk chunkid (removeFileWithGoal s.calculate goal)
  | .changeFile chunkid prevGoal newGoal =>
    if prevGoal = newGoal then s else s.onChunk chunkid (changeFileGoal s.calculate prevGoal newGoal)
  | .setParts chunkid parts => s.onChunk chunkid fun c t => ({ c with parts := parts }, t)
  | .updateStats chunkid => s.onChunk chunkid (updateStats s.calculate true)
  | .redefine calculate => { s with calculate := calculate }

def run (events : List Event) : ChunkStatistics := events.foldl step s

@[simp] theorem run_nil : s.run [] = s := rfl

@[simp] theorem run_cons {e : Event} {events : List Event} : s.run (e :: events) = (s.step e).run events := rfl

/-- the operation of the event on goal counters, if it makes one, does not throw -/
def DoesNotThrow : Event → Prop
  | .addFile chunkid goal => ∀ c, s.find chunkid = some c → (c.goalCounters.addFile goal).isSome
  | .deleteFile chunkid goal => ∀ c, s.find chunkid = some c → (c.goalCounters.removeFile goal).isSome
  | .changeFile chunkid prevGoal newGoal => prevGoal ≠ newGoal → ∀ c, s.find chunkid = some c →
      ((c.goalCounters.removeFile prevGoal).bind (·.addFile newGoal)).isSome
  | _ => True

/-- each counter is the number of chunks it stands for, and none was ever taken below zero -/
structure Exact (s : ChunkStatistics) : Prop where
  availability : ∀ state goal, s.tally.value (.availability state goal) =
    s.chunks.countP fun c => decide (c.goalCounters.count goal ≠ 0 ∧ c.state.allAvailabilityState = state)
  toReplicate : ∀ goal missingParts, s.tally.value (.toReplicate goal missingParts) =
    s.chunks.countP fun c =>
      decide (c.goalCounters.count goal ≠ 0 ∧ min c.state.allMissingParts (maxPartsCount - 1) = missingParts)
  toDelete : ∀ goal redundantParts, s.tally.value (.toDelete goal redundantParts) =
    s.chunks.countP fun c =>
      decide (c.goalCounters.count goal ≠ 0 ∧ min c.state.allRedundantParts (maxPartsCount - 1) = redundantParts)
  fullCopies : ∀ limitedGoal limitedAll, s.tally.value (.fullCopies limitedGoal limitedAll) =
    s.chunks.countP fun c =>
      decide (min (chunkMatrixSize - 1) c.state.copiesInStats = limitedGoal ∧
        min (chunkMatrixSize - 1) c.state.allFullCopies = limitedAll)
  never_below : s.tally.wentBelowZero = false

end ChunkStatistics

/-! ## What a chunk contributes to one counter -/

theorem count_distinctGoals {counters : List GoalCounter} (hs : EntriesSorted counters) (prevGoal : Option ℕ)
    (hp : ∀ x ∈ counters, ∀ p, prevGoal = some p → p ≤ x.goal) (goal : ℕ) :
    (distinctGoals prevGoal counters).count goal =
      if prevGoal ≠ some goal ∧ ∃ x ∈ counters, x.goal = goal then 1 else 0 := by
  induction counters generalizing prevGoal with
  | nil => simp [distinctGoals]
  | cons x xs ih =>
    have hs' := pairwise_cons.1 hs
    unfold distinctGoals
    by_cases hx : prevGoal = some x.goal
    · rw [if_pos hx, ih hs'.2 prevGoal fun y hy => hp y (mem_cons_of_mem x hy)]
      simp only [hx, ne_eq, Option.some.injEq, mem_cons, exists_eq_or_imp]
      congr 1
      exact propext (and_congr_right fun h => (or_iff_right h).symm)
    · rw [if_neg hx, count_cons, ih hs'.2 (some x.goal) fun y hy p hp' => by cases hp'; exact hs'.1 y hy]
      simp only [ne_eq, Option.some.injEq, beq_iff_eq, mem_cons, exists_eq_or_imp]
      by_cases hg : x.goal = goal
      · have hn : ¬ prevGoal = some goal := hg ▸ hx
        simp [hg, hn]
      · -- the list is sorted: a goal behind `x` cannot be the one before it
        have hn : (∃ y ∈ xs, y.goal = goal) → ¬ prevGoal = some goal := by
          rintro ⟨y, hy, rfl⟩ hpr
          have h1 := hp x mem_cons_self _ hpr
          have h2 := hs'.1 y hy
          exact hg (le_antisymm h2 h1)
        simp only [hg, not_false_eq_true, true_and, false_or, if_false, add_zero]
        congr 1
        exact propext (iff_and_self.2 hn)

theorem exists_goal_iff {c : ChunkGoalCounters} {goal : ℕ} : (∃ x ∈ c.counters, x.goal = goal) ↔ c.count goal ≠ 0 := by
  constructor
  · rintro ⟨x, hx, rfl⟩ h0
    have hl : x.count ≤ c.count x.goal := by
      refine single_le_sum (by simp) x.count (mem_map.2 ⟨x, hx, by simp⟩)
    have := (c.counted x hx).1
    omega
  · intro h
    by_contra hn
    push Not at hn
    exact h (countOf_eq_zero hn)

namespace StatChunk

variable {cell : Cell} {goal : ℕ} {P : Prop} {c : StatChunk}

theorem count_flatMap_goalCells {state : CopyState} [Decidable P]
    (h : ∀ g, (goalCells state g).count cell = if g = goal ∧ P then 1 else 0) {goals : List ℕ} :
    (goals.flatMap (goalCells state)).count cell = if P then goals.count goal else 0 := by
  induction goals with
  | nil => simp
  | cons g gs ih =>
    rw [flatMap_cons, count_append, h, ih, count_cons]
    by_cases hP : P
    · simp [hP, add_comm]
    · simp [hP]

theorem count_distinctGoals_none :
    (distinctGoals none c.goalCounters.counters).count goal = if c.goalCounters.count goal ≠ 0 then 1 else 0 := by
  rw [count_distinctGoals c.goalCounters.sorted none (by simp)]
  simp [exists_goal_iff]

theorem count_cells_of_goal [Decidable P] (h : ∀ g, (goalCells c.state g).count cell = if g = goal ∧ P then 1 else 0)
    (hc : ∀ i j, Cell.fullCopies i j ≠ cell) :
    c.cells.count cell = if c.goalCounters.count goal ≠ 0 ∧ P then 1 else 0 := by
  have hl : ∀ i j, [Cell.fullCopies i j].count cell = 0 := fun i j =>
    count_eq_zero.2 (by simpa using (hc i j).symm)
  unfold cells
  rw [count_append, count_flatMap_goalCells h, count_distinctGoals_none, hl, add_zero]
  by_cases hP : P
  · simp [hP]
  · simp [hP]

theorem count_cells_fullCopies {i j : ℕ} : c.cells.count (.fullCopies i j) =
      if min (chunkMatrixSize - 1) c.state.copiesInStats = i ∧ min (chunkMatrixSize - 1) c.state.allFullCopies = j
      then 1 else 0 := by
  have h0 : ∀ goals : List ℕ, (goals.flatMap (goalCells c.state)).count (Cell.fullCopies i j) = 0 := by
    intro goals
    rw [count_eq_zero]
    simp [goalCells]
  unfold cells
  rw [count_append, h0, zero_add, count_singleton]
  simp

theorem exists_count_cells : ∃ cell, c.cells.count cell = 1 := ⟨_, (count_cells_fullCopies).trans (if_pos ⟨rfl, rfl⟩)⟩

end StatChunk

namespace ChunkStatistics

/-! ## The counters as occurrences in one list -/

/-- what all chunks contribute -/
def allCells (s : ChunkStatistics) : List Cell := s.chunks.flatMap cells

variable {s : ChunkStatistics}

theorem count_allCells {cell : Cell} {P : StatChunk → Prop} [DecidablePred P]
    (h : ∀ c, c.cells.count cell = if P c then 1 else 0) :
    s.allCells.count cell = s.chunks.countP fun c => decide (P c) := by
  unfold allCells
  induction s.chunks with
  | nil => rfl
  | cons c cs ih =>
    rw [flatMap_cons, count_append, ih, h, countP_cons, add_comm]
    simp

theorem exact_iff_represents : s.Exact ↔ s.tally.Represents s.allCells := by
  have ha : ∀ state goal, s.allCells.count (.availability state goal) = s.chunks.countP fun c =>
      decide (c.goalCounters.count goal ≠ 0 ∧ c.state.allAvailabilityState = state) := fun state goal =>
    count_allCells fun c => count_cells_of_goal
      (by simp [goalCells, count_cons, and_comm]) (by simp)
  have hr : ∀ goal missingParts, s.allCells.count (.toReplicate goal missingParts) = s.chunks.countP fun c =>
      decide (c.goalCounters.count goal ≠ 0 ∧ min c.state.allMissingParts (maxPartsCount - 1) = missingParts) :=
    fun goal missingParts =>
      count_allCells fun c => count_cells_of_goal (by simp [goalCells, count_cons]) (by simp)
  have hd : ∀ goal redundantParts, s.allCells.count (.toDelete goal redundantParts) = s.chunks.countP fun c =>
      decide (c.goalCounters.count goal ≠ 0 ∧ min c.state.allRedundantParts (maxPartsCount - 1) = redundantParts) :=
    fun goal redundantParts =>
      count_allCells fun c => count_cells_of_goal (by simp [goalCells, count_cons]) (by simp)
  have hf : ∀ i j, s.allCells.count (.fullCopies i j) = s.chunks.countP fun c =>
      decide (min (chunkMatrixSize - 1) c.state.copiesInStats = i ∧
        min (chunkMatrixSize - 1) c.state.allFullCopies = j) := fun i j =>
    count_allCells fun c => count_cells_fullCopies
  constructor
  · intro h
    refine ⟨fun cell => ?_, h.never_below⟩
    cases cell with
    | availability state goal => rw [h.availability, ha]
    | toReplicate goal missingParts => rw [h.toReplicate, hr]
    | toDelete goal redundantParts => rw [h.toDelete, hd]
    | fullCopies i j => rw [h.fullCopies, hf]
  · intro h
    exact
      { availability := fun state goal => by rw [h.value_eq, ha]
        toReplicate := fun goal missingParts => by rw [h.value_eq, hr]
        toDelete := fun goal redundantParts => by rw [h.value_eq, hd]
        fullCopies := fun i j => by rw [h.value_eq, hf]
        never_below := h.never_below }

/-! ## One step -/

variable {chunkid : ℕ} {c : StatChunk} {f : StatChunk → Tally Cell → StatChunk × Tally Cell}

theorem onChunk_of_find (h : s.find chunkid = some c) :
    ∃ rest, s.allCells.Perm (c.cells ++ rest) ∧ (s.delete chunkid).allCells = rest ∧
      ∀ f, (s.onChunk chunkid f).allCells.Perm ((f c s.tally).1.cells ++ rest) := by
  obtain ⟨before, after, hc, he, hmo⟩ := split_of_find h
  have hm : ∀ c' : StatChunk, ((before ++ c' :: after).flatMap cells).Perm
      (c'.cells ++ (before ++ after).flatMap cells) := fun c' =>
    perm_middle.flatMap_right cells
  refine ⟨(before ++ after).flatMap cells, ?_, ?_, fun f => ?_⟩
  · unfold allCells
    rw [hc]
    exact hm c
  · simp [allCells, delete, h, he]
  · simp only [allCells, onChunk, h, hmo]
    exact hm _

theorem onChunk_tally (h : s.find chunkid = some c) : (s.onChunk chunkid f).tally = (f c s.tally).2 := by
  simp [onChunk, h]

theorem onChunk_of_none (h : s.find chunkid = none) : s.onChunk chunkid f = s := by
  simp [onChunk, h]

end ChunkStatistics

namespace StatChunk

variable {calculate : Calculate} {c : StatChunk} {t : Tally Cell} {rest : List Cell}

/-- the contribution of the chunk is on the counters afterwards -/
def Counts (r : StatChunk × Tally Cell) (rest : List Cell) : Prop := r.2.Represents (r.1.cells ++ rest)

theorem counts_addHalf (h : t.Represents rest) : Counts (c.updateStats calculate false t) rest := h.addAll _

theorem counts_updateStats (h : t.Represents (c.cells ++ rest)) : Counts (c.updateStats calculate true t) rest :=
  counts_addHalf h.subAll

variable {goal : ℕ}

section

variable (h : t.Represents (c.cells ++ rest))
include h

theorem counts_addFileWithGoal
    (hg : (c.goalCounters.addFile goal).isSome) : Counts (c.addFileWithGoal calculate goal t) rest := by
  obtain ⟨g, hg⟩ := isSome_iff_exists.1 hg
  simp only [addFileWithGoal, hg]
  exact counts_addHalf h.subAll

theorem counts_removeFileWithGoal
    (hg : (c.goalCounters.removeFile goal).isSome) : Counts (c.removeFileWithGoal calculate goal t) rest := by
  obtain ⟨g, hg⟩ := isSome_iff_exists.1 hg
  simp only [removeFileWithGoal, hg]
  exact counts_addHalf h.subAll

variable {prevGoal newGoal : ℕ}

theorem counts_changeFileGoal (hg : ((c.goalCounters.removeFile prevGoal).bind (·.addFile newGoal)).isSome) :
    Counts (c.changeFileGoal calculate prevGoal newGoal t) rest := by
  obtain ⟨g', hg⟩ := isSome_iff_exists.1 hg
  obtain ⟨g, hg, hg'⟩ := bind_eq_some_iff.1 hg
  simp only [changeFileGoal, hg, hg']
  exact counts_addHalf h.subAll

/-! an exception leaves the counters without the chunk -/

theorem represents_addFileWithGoal
    (hg : c.goalCounters.addFile goal = none) : (c.addFileWithGoal calculate goal t).2.Represents rest := by
  simp only [addFileWithGoal, hg]
  exact h.subAll

theorem represents_removeFileWithGoal
    (hg : c.goalCounters.removeFile goal = none) : (c.removeFileWithGoal calculate goal t).2.Represents rest := by
  simp only [removeFileWithGoal, hg]
  exact h.subAll

theorem represents_changeFileGoal (hg : (c.goalCounters.removeFile prevGoal).bind (·.addFile newGoal) = none) :
    (c.changeFileGoal calculate prevGoal newGoal t).2.Represents rest := by
  unfold changeFileGoal
  cases hr : c.goalCounters.removeFile prevGoal with
  | none => exact h.subAll
  | some g =>
    rw [hr] at hg
    simp only [show g.addFile newGoal = none from hg]
    exact h.subAll

end

end StatChunk

namespace ChunkStatistics

variable {s : ChunkStatistics}

theorem exact_onChunk_iff (hs : s.Exact) {chunkid : ℕ}
    {f : StatChunk → Tally Cell → StatChunk × Tally Cell} (ok : StatChunk → Prop)
    (ho : ∀ c rest, s.tally.Represents (c.cells ++ rest) → ok c → Counts (f c s.tally) rest)
    (hn : ∀ c rest, s.tally.Represents (c.cells ++ rest) → ¬ ok c → (f c s.tally).2.Represents rest) :
    (s.onChunk chunkid f).Exact ↔ ∀ c, s.find chunkid = some c → ok c := by
  rw [exact_iff_represents] at hs ⊢
  cases hf : s.find chunkid with
  | none => simpa [onChunk_of_none hf] using hs
  | some c =>
    obtain ⟨rest, hp, -, hce⟩ := onChunk_of_find hf
    rw [onChunk_tally hf]
    constructor
    · rintro h c' ⟨⟩
      by_contra hc
      -- the chunk is in one counter of the matrix, which does not count it any more
      have h1 := (hn c rest (hs.perm hp) hc).value_eq
      have h2 := (h.perm (hce f)).value_eq
      obtain ⟨cell, h3⟩ := (f c s.tally).1.exists_count_cells
      have h4 := (h1 cell).symm.trans (h2 cell)
      rw [count_append, h3] at h4
      omega
    · intro h
      exact (ho c rest (hs.perm hp) (h c rfl)).perm (hce f).symm

theorem exact_step_iff (hs : s.Exact) {e : Event} : (s.step e).Exact ↔ s.DoesNotThrow e := by
  cases e with
  | strinit =>
    rw [exact_iff_represents]
    exact iff_of_true Tally.represents_zero trivial
  | new chunkid =>
    rw [exact_iff_represents] at hs ⊢
    exact iff_of_true (counts_addHalf hs) trivial
  | delete chunkid =>
    rw [exact_iff_represents] at hs ⊢
    refine iff_of_true ?_ trivial
    cases hf : s.find chunkid with
    | none => simpa [step, delete, hf] using hs
    | some c =>
      obtain ⟨rest, hp, hr, -⟩ := onChunk_of_find hf
      show (s.delete chunkid).tally.Represents (s.delete chunkid).allCells
      rw [hr]
      have ht : (s.delete chunkid).tally = c.removeFromStats s.tally := by simp [delete, hf]
      rw [ht]
      exact (hs.perm hp).subAll
  | addFile chunkid goal =>
    exact exact_onChunk_iff hs _ (fun c rest h hg => counts_addFileWithGoal h hg)
      fun c rest h hg => represents_addFileWithGoal h (by simpa using hg)
  | deleteFile chunkid goal =>
    exact exact_onChunk_iff hs _ (fun c rest h hg => counts_removeFileWithGoal h hg)
      fun c rest h hg => represents_removeFileWithGoal h (by simpa using hg)
  | changeFile chunkid prevGoal newGoal =>
    simp only [step, DoesNotThrow]
    split_ifs with he
    · exact iff_of_true hs fun hn => absurd he hn
    · rw [exact_onChunk_iff hs _ (fun c rest h hg => counts_changeFileGoal h hg)
        fun c rest h hg => represents_changeFileGoal h (by simpa using hg)]
      exact ⟨fun h _ => h, fun h => h he⟩
  | setParts chunkid parts =>
    refine (exact_onChunk_iff hs (fun _ => True) ?_ ?_).trans (by simp [DoesNotThrow])
    · exact fun c rest h _ => h
    · exact fun c rest h hg => absurd trivial hg
  | updateStats chunkid =>
    refine (exact_onChunk_iff hs (fun _ => True) ?_ ?_).trans (by simp [DoesNotThrow])
    · exact fun c rest h _ => counts_updateStats h
    · exact fun c rest h hg => absurd trivial hg
  | redefine calculate =>
    rw [exact_iff_represents] at hs ⊢
    exact iff_of_true hs trivial

/-! ## Runs -/

/-- no operation on goal counters throws in the run -/
def RunDoesNotThrow : ChunkStatistics → List Event → Prop
  | _, [] => True
  | s, e :: events => s.DoesNotThrow e ∧ RunDoesNotThrow (s.step e) events

theorem exact_run_iff (hs : s.Exact) {events : List Event} :
    (∀ done, done <+: events → (s.run done).Exact) ↔ RunDoesNotThrow s events := by
  induction events generalizing s with
  | nil => simpa [RunDoesNotThrow] using hs
  | cons e events ih =>
    constructor
    · intro h
      have hst : (s.step e).Exact := h [e] (by simp)
      refine ⟨(exact_step_iff hs).1 hst, (ih hst).1 fun done hd => ?_⟩
      exact h (e :: done) ((prefix_cons_inj e).2 hd)
    · rintro ⟨he, hev⟩ done hd
      rcases prefix_cons_iff.1 hd with rfl | ⟨done, rfl, hd'⟩
      · exact hs
      · exact (ih ((exact_step_iff hs).2 he)).2 hev done hd'

variable {calculate : Calculate}

theorem exact_strinit : (strinit calculate).Exact := (exact_iff_represents).2 Tally.represents_zero

/-- **statistics are a fold over the chunks**: in a run, each counter is at all times the number of chunks it stands
for, and none was ever taken below zero, exactly if no operation on goal counters throws -/
theorem statistics_exact_iff (calculate : Calculate) (events : List Event) :
    (∀ done, done <+: events → ((strinit calculate).run done).Exact) ↔ RunDoesNotThrow (strinit calculate) events :=
  exact_run_iff exact_strinit

/-! ## A chunk without room for another reference -/

/-- the counters of a chunk with this many references of goal 1 -/
def entries (n : ℕ) : List GoalCounter :=
  (if n % u8Max = 0 then [] else [⟨1, n % u8Max⟩]) ++ List.replicate (n / u8Max) ⟨1, u8Max⟩

theorem needsEntry_entries {n : ℕ} : needsEntry 1 (entries n) = false ↔ n % u8Max ≠ 0 := by
  unfold entries
  by_cases h : n % u8Max = 0
  · cases hk : n / u8Max with
    | zero => simp [h, needsEntry]
    | succ k => simp [h, replicate_succ, needsEntry]
  · have : n % u8Max < u8Max := Nat.mod_lt _ (by decide)
    simp [h, needsEntry, this.ne]

theorem addCounter_entries {n : ℕ} : addCounter 1 (entries n) = entries (n + 1) := by
  unfold entries u8Max
  by_cases h : n % 255 = 0
  · have hm : (n + 1) % 255 = 1 := by omega
    have hd : (n + 1) / 255 = n / 255 := by omega
    rw [hm, hd]
    cases n / 255 with
    | zero => simp [h, addCounter]
    | succ k => simp [h, replicate_succ, addCounter, u8Max]
  · have hlt : n % 255 ≠ 255 := by omega
    by_cases hl : n % 255 = 254
    · have hm : (n + 1) % 255 = 0 := by omega
      have hd : (n + 1) / 255 = n / 255 + 1 := by omega
      simp [hm, hd, hl, addCounter, u8Max, replicate_succ]
    · have hm : (n + 1) % 255 = n % 255 + 1 := by omega
      have hd : (n + 1) / 255 = n / 255 := by omega
      simp [h, hm, hd, hlt, addCounter, u8Max]

theorem length_entries {n : ℕ} : (entries n).length = (n + 254) / u8Max := by
  unfold entries u8Max
  split_ifs with h
  · simp only [nil_append, length_replicate]
    omega
  · simp only [cons_append, nil_append, length_cons, length_replicate]
    omega

/-- one chunk, with this many references of goal 1 -/
def Filled (s : ChunkStatistics) (n : ℕ) : Prop :=
  ∃ c, s.chunks = [c] ∧ c.chunkid = 1 ∧ c.goalCounters.counters = entries n

variable {n : ℕ}

theorem Filled.find (h : s.Filled n) :
    ∃ c, s.chunks = [c] ∧ s.find 1 = some c ∧ c.chunkid = 1 ∧ c.goalCounters.counters = entries n := by
  obtain ⟨c, hch, hi, hc⟩ := h
  exact ⟨c, hch, by simp [ChunkStatistics.find, hch, hi], hi, hc⟩

theorem Filled.addFile_isSome {c : ChunkGoalCounters} (hc : c.counters = entries n) :
    (c.addFile 1).isSome ↔ n < u8Max * countersMax := by
  rw [c.addFile_isSome 1, ChunkGoalCounters.HasRoom, hc, needsEntry_entries, length_entries]
  have hf := c.fits
  rw [hc, length_entries] at hf
  have hv : goalIsValid 1 := rfl
  simp only [u8Max, countersMax, hv, true_and] at hf ⊢
  omega

theorem Filled.step (h : s.Filled n) (hn : n < u8Max * countersMax) :
    (s.step (.addFile 1 1)).Filled (n + 1) ∧ s.DoesNotThrow (.addFile 1 1) := by
  obtain ⟨c, hch, hf, hi, hc⟩ := h.find
  have hs := (Filled.addFile_isSome hc).2 hn
  obtain ⟨g, hg⟩ := isSome_iff_exists.1 hs
  refine ⟨⟨(c.addFileWithGoal s.calculate 1 s.tally).1, ?_, ?_, ?_⟩, fun c' hc' => ?_⟩
  · simp [ChunkStatistics.step, onChunk, hf, hch, modifyFirst, hi]
  · simp [addFileWithGoal, hg, updateStats, hi]
  · simp [addFileWithGoal, hg, updateStats, ChunkGoalCounters.addFile_counters hg, hc,
      addCounter_entries]
  · cases hf.symm.trans hc'
    exact hs

theorem Filled.run (h : s.Filled n) (k : ℕ) (hk : n + k ≤ u8Max * countersMax) :
    (s.run (List.replicate k (.addFile 1 1))).Filled (n + k) ∧
      RunDoesNotThrow s (List.replicate k (.addFile 1 1)) := by
  induction k generalizing s n with
  | zero => exact ⟨h, trivial⟩
  | succ k ih =>
    obtain ⟨hs, ho⟩ := h.step (by omega)
    obtain ⟨hru, hr⟩ := ih hs (by omega)
    rw [show n + (k + 1) = n + 1 + k by omega]
    exact ⟨hru, ho, hr⟩

theorem refused_reference (hs : s.Exact) (hfu : s.Filled (u8Max * countersMax)) : ¬ (s.step (.addFile 1 1)).Exact ∧
      ((s.step (.addFile 1 1)).step (.updateStats 1)).tally.wentBelowZero := by
  obtain ⟨c, hch, hf, hi, hc⟩ := hfu.find
  have ht : c.goalCounters.addFile 1 = none := by
    rw [← not_isSome_iff_eq_none, Filled.addFile_isSome hc]
    exact lt_irrefl _
  constructor
  · intro h
    have hso := (exact_step_iff hs).1 h c hf
    rw [ht] at hso
    cases hso
  · have hce : s.tally.Represents (c.cells ++ []) := by
      have := (exact_iff_represents).1 hs
      simpa [allCells, hch] using this
    have he : (c.addFileWithGoal s.calculate 1 s.tally).2.Represents [] := represents_addFileWithGoal hce ht
    have hst : s.step (.addFile 1 1) = { s with tally := (c.addFileWithGoal s.calculate 1 s.tally).2 } := by
      simp [step, onChunk, hf, hch, modifyFirst, hi, addFileWithGoal, ht]
    have hn : c.cells ≠ [] := by simp [cells]
    have hf' : (s.step (.addFile 1 1)).find 1 = some c := by rw [hst]; exact hf
    show ((s.step (.addFile 1 1)).onChunk 1 _).tally.wentBelowZero
    rw [onChunk_tally hf', hst]
    simpa [updateStats, addToStats, removeFromStats] using he.wentBelowZero_subAll hn

theorem filled_run (hn : n ≤ u8Max * countersMax) :
    ((strinit calculate).run (.new 1 :: List.replicate n (.addFile 1 1))).Exact ∧
      ((strinit calculate).run (.new 1 :: List.replicate n (.addFile 1 1))).Filled n := by
  have hne : ((strinit calculate).step (.new 1)).Filled 0 :=
    ⟨_, rfl, rfl, by simp [clear, updateStats, ChunkGoalCounters.empty, entries]⟩
  obtain ⟨hf, hr⟩ := hne.run n (by omega)
  rw [zero_add] at hf
  have ho : RunDoesNotThrow (strinit calculate) (.new 1 :: List.replicate n (.addFile 1 1)) := ⟨trivial, hr⟩
  exact ⟨(exact_run_iff exact_strinit).2 ho _ (prefix_refl _), hf⟩

/-- the state of a chunk without any part under a goal of one copy -/
def oneCopyMissing : Calculate := fun goalCounters _ =>
  if goalCounters.counters.isEmpty then ⟨.safe, 0, 0, 0, 0⟩ else ⟨.lost, 1, 0, 0, 1⟩

/-- a chunk gets as many references as its counters can hold; the next one is refused with the chunk off the
statistics, and the recomputation after it takes a counter below zero -/
theorem full_counters_break_statistics :
    let s := (strinit oneCopyMissing).run (.new 1 :: List.replicate (u8Max * countersMax) (.addFile 1 1))
    s.Exact ∧ ¬ (s.step (.addFile 1 1)).Exact ∧ ((s.step (.addFile 1 1)).step (.updateStats 1)).tally.wentBelowZero :=
  have h := filled_run (le_refl _)
  ⟨h.1, refused_reference h.1 h.2⟩

end ChunkStatistics

end SaunaFS.Chunks.Statistics
