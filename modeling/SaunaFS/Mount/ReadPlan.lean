/-
Reading parts of a slice: the plan (`common/slice_read_plan.h`), the waves that the planner makes of the parts on hand
(`common/slice_read_planner.cc`) and the executor that starts them (`common/read_plan_executor.cc`). Buffers, prefetch
messages and statistics are left out.
-/
import SaunaFS.Lib.Stepwise
import SaunaFS.Chunks.ChunkPart

namespace SaunaFS.Mount.ReadPlan

open Chunks List Stepwise

/-! ## Plans -/

/-- an index below `Goal::Slice::kMaxPartsCount` -/
abbrev Part := Fin 64

structure ReadOperation where
  part : Part
  requestSize : ℤ
  wave : ℕ
deriving DecidableEq

/-- at most one operation for a part -/
structure SliceReadPlan where
  sliceType : ℕ
  requestedParts : List Part
  readOperations : List ReadOperation
  nodup : (readOperations.map (·.part)).Nodup

namespace SliceReadPlan

variable (plan : SliceReadPlan)

def parts : List Part := plan.readOperations.map (·.part)

def requiredPartsToRecover : ℕ := getNumberOfDataParts plan.sliceType

def isReadingFinished (available : List Part) : Bool :=
  decide (plan.requiredPartsToRecover ≤ available.length) || plan.requestedParts.all (available.contains ·)

/-- the difference of the two sizes is a `size_t` -/
def isFinishingPossible (unreadable : List Part) : Bool :=
  decide (plan.requiredPartsToRecover ≤ (plan.readOperations.length + 2 ^ 64 - unreadable.length) % 2 ^ 64) ||
    !plan.requestedParts.any (unreadable.contains ·)

end SliceReadPlan

/-! ## The planner -/

/-- what `prepare` leaves: the parts asked for, and the parts on hand, the best score first -/
structure SliceReadPlanner where
  sliceType : ℕ
  sliceParts : List Part
  weightedPartsToUse : List Part
  nodup : weightedPartsToUse.Nodup

namespace SliceReadPlanner

variable (planner : SliceReadPlanner) (firstBlock blockCount : ℕ)

def requiredPartsAvailable : Bool := planner.sliceParts.all (planner.weightedPartsToUse.contains ·)

/-- a chunk has 1024 blocks -/
def operation (wave : ℕ) (p : Part) : ReadOperation :=
  ⟨p, blockSize * min ((getNumberOfBlocks ⟨planner.sliceType, p⟩ 1024 : ℤ) - firstBlock) blockCount, wave⟩

/-- the loop of `addExtraParts`: two more parts in each wave -/
def risingWaves : ℕ → List Part → List ReadOperation
  | wave, p :: q :: parts =>
    planner.operation firstBlock blockCount wave p :: planner.operation firstBlock blockCount wave q ::
      risingWaves (wave + 1) parts
  | wave, parts => parts.map (planner.operation firstBlock blockCount wave)

/-- `addBasicParts` with the first `basic` parts, then `addExtraParts`, which completes `toRecover` parts in wave 1 -/
def operations (basic toRecover : ℕ) (parts : List Part) : List ReadOperation :=
  (parts.take basic).map (planner.operation firstBlock blockCount 0) ++ if basic < min toRecover parts.length then
      ((parts.drop basic).take (toRecover - basic)).map (planner.operation firstBlock blockCount 1) ++
        planner.risingWaves firstBlock blockCount 2 ((parts.drop basic).drop (toRecover - basic))
    else planner.risingWaves firstBlock blockCount 1 (parts.drop basic)

variable {parts : List Part}

theorem risingWaves_parts {wave : ℕ} : (planner.risingWaves firstBlock blockCount wave parts).map (·.part) = parts := by
  fun_induction risingWaves <;> simp_all [operation, Function.comp_def]

theorem operations_parts {basic toRecover : ℕ} :
    (planner.operations firstBlock blockCount basic toRecover parts).map (·.part) = parts := by
  have hm : ∀ wave (l : List Part), (l.map (planner.operation firstBlock blockCount wave)).map (·.part) = l := by
    simp [operation, Function.comp_def]
  unfold operations
  split <;> simp only [map_append, hm, risingWaves_parts, take_append_drop]

/-- the parts in the order of use: if all requested ones are on hand they come first -/
def order : List Part :=
  if planner.requiredPartsAvailable then
    planner.weightedPartsToUse.filter (planner.sliceParts.contains ·) ++
      planner.weightedPartsToUse.filter (!planner.sliceParts.contains ·)
  else planner.weightedPartsToUse

theorem order_nodup : planner.order.Nodup := by
  unfold order
  split
  · exact (filter_append_perm _ _).nodup_iff.2 planner.nodup
  · exact planner.nodup

/-- `overuse` multiplies by the configured bandwidth overuse, rounded down -/
def buildPlanFor (overuse : ℕ → ℕ) : SliceReadPlan where
  sliceType := planner.sliceType
  requestedParts := planner.sliceParts
  readOperations :=
    let k := getNumberOfDataParts planner.sliceType
    let basic := if planner.requiredPartsAvailable then
        planner.weightedPartsToUse.countP (planner.sliceParts.contains ·)
      else max (overuse k) k
    planner.operations firstBlock blockCount basic (overuse k) planner.order
  nodup := by rw [operations_parts]; exact planner.order_nodup

end SliceReadPlanner

/-! ## Giving up -/

theorem length_le_of_nodup {l : List Part} (h : l.Nodup) : l.length ≤ 64 := by
  simpa using h.length_le_card

namespace SliceReadPlan

variable (plan : SliceReadPlan)

theorem required_le : plan.requiredPartsToRecover ≤ 33 := by
  unfold requiredPartsToRecover getNumberOfDataParts
  split_ifs with hx he
  · simp only [isXor, decide_eq_true_eq] at hx
    omega
  · simp only [isEC, decide_eq_true_eq] at he
    omega
  · omega

theorem length_le : plan.readOperations.length ≤ 64 := by
  simpa using length_le_of_nodup plan.nodup

def readable (unreadable : List Part) : List Part := plan.parts.filter (!unreadable.contains ·)

theorem isReadingFinished_iff {available : List Part} : plan.isReadingFinished available ↔
    plan.requiredPartsToRecover ≤ available.length ∨ ∀ p ∈ plan.requestedParts, p ∈ available := by
  simp [isReadingFinished]

/-- the count of the remaining operations, without the arithmetic of `size_t` -/
theorem isFinishingPossible_iff {unreadable : List Part} (h : unreadable.Nodup) : plan.isFinishingPossible unreadable ↔
    (plan.requiredPartsToRecover + unreadable.length ≤ plan.readOperations.length ∨
      plan.readOperations.length < unreadable.length) ∨ ∀ p ∈ plan.requestedParts, p ∉ unreadable := by
  have hu := length_le_of_nodup h
  have ho := plan.length_le
  have hk := plan.required_le
  have hc : plan.requiredPartsToRecover ≤ (plan.readOperations.length + 2 ^ 64 - unreadable.length) % 2 ^ 64 ↔
      plan.requiredPartsToRecover + unreadable.length ≤ plan.readOperations.length ∨
        plan.readOperations.length < unreadable.length := by omega
  simp [isFinishingPossible, ← hc]

theorem length_le_readable (unreadable : List Part) :
    plan.readOperations.length ≤ (plan.readable unreadable).length + unreadable.length := by
  have hl : (plan.parts.filter (unreadable.contains ·)).length ≤ unreadable.length := by
    refine ((plan.nodup.filter _).subperm fun p hp => ?_).length_le
    simpa using (mem_filter.1 hp).2
  have hs := length_eq_length_filter_add (l := plan.parts) (unreadable.contains ·)
  rw [show plan.parts.length = plan.readOperations.length by simp [parts]] at hs
  rw [readable]
  omega

/-- **Giving up.** The test whether the reading can still be finished agrees with the test whether all parts that are
left would finish it exactly if every requested part is left; or enough parts are left, and the difference of the sizes
says so, or no requested part is unreadable; or too few are left, a requested part is unreadable and the difference does
not wrap. For unreadable parts of the plan the tests disagree exactly if too few parts are left and of the requested
parts none is unreadable but one is not in the plan. -/
theorem isFinishingPossible_exact_iff (plan : SliceReadPlan) (unreadable : { l : List Part // l.Nodup }) :
    plan.isFinishingPossible unreadable = plan.isReadingFinished (plan.readable unreadable) ↔
      (∀ p ∈ plan.requestedParts, p ∈ plan.readable unreadable) ∨
      (plan.requiredPartsToRecover ≤ (plan.readable unreadable).length ∧
        ((∀ p ∈ plan.requestedParts, p ∉ unreadable.1) ∨
          plan.requiredPartsToRecover + unreadable.1.length ≤ plan.readOperations.length ∨
          plan.readOperations.length < unreadable.1.length)) ∨
      ((plan.readable unreadable).length < plan.requiredPartsToRecover ∧
        (∃ p ∈ plan.requestedParts, p ∈ unreadable.1) ∧ unreadable.1.length ≤ plan.readOperations.length) := by
  have hle := plan.length_le_readable unreadable
  have hsub : (∀ p ∈ plan.requestedParts, p ∈ plan.readable unreadable) →
      ∀ p ∈ plan.requestedParts, p ∉ unreadable.1 := fun h p hp hu => by
    simpa [hu] using (mem_filter.1 (h p hp)).2
  have hlost : (∃ p ∈ plan.requestedParts, p ∈ unreadable.1) ↔ ¬∀ p ∈ plan.requestedParts, p ∉ unreadable.1 := by
    push Not
    rfl
  rw [Bool.eq_iff_iff, isFinishingPossible_iff plan unreadable.2, isReadingFinished_iff, hlost]
  generalize (∀ p ∈ plan.requestedParts, p ∈ plan.readable unreadable) = left at *
  generalize (∀ p ∈ plan.requestedParts, p ∉ unreadable.1) = spared at *
  by_cases hd : left
  · simp [hd, hsub hd]
  · by_cases hb : spared
    · simp [hd, hb]
    · simp only [hd, hb, or_false, false_or, not_false_eq_true, true_and]
      omega

end SliceReadPlan

/-- three data and two parity parts; the first part is asked for and not on hand, the fifth is missing as well -/
def degradedPlan : SliceReadPlan := SliceReadPlanner.buildPlanFor ⟨43, [0], [1, 2, 3], by decide⟩ 0 1 id

/-- one of the three parts is unreadable: the two others cannot give back the requested part, and the reading goes on -/
theorem hopeless_read_goes_on : getNumberOfDataParts 43 = 3 ∧ degradedPlan.parts = [1, 2, 3] ∧
    degradedPlan.isFinishingPossible [1] = true ∧
    degradedPlan.isReadingFinished (degradedPlan.readable [1]) = false := by
  decide +kernel

/-! ## The executor -/

/-- how the attempt to send a request ends; `executors` is ordered by descriptors, and `below` counts those that are
smaller than the new one. A timeout of the whole call is not caught. -/
inductive Connection where
  | established (below : ℕ)
  | refused
  | timedOut
deriving DecidableEq

/-- what a polled connection brings; a damaged block is the one failure that is not caught -/
inductive Arrival where
  | progress
  | finished
  | failed
  | corrupted
deriving DecidableEq

inductive Phase where
  | start
  | head
  | poll
  | returned
  | thrown
deriving DecidableEq

structure Executor where
  availableParts : List Part
  networkingFailures : List Part
  executors : List Part
  nextWave : ℕ
  failedReads : ℕ
  phase : Phase
deriving DecidableEq

inductive Poll where
  | interrupted
  | error
  | events (arrival : Part → Arrival)

/-- the two halves of a round of the loop: up to the poll, with the timers and what becomes of the requests and prefetch
requests that are sent, and from there on -/
inductive Event where
  | start (totalExpired waveExpired prefetchExpires : Bool) (connect : Part → Connection)
  | poll (result : Poll)

namespace Executor

variable (plan : SliceReadPlan)

/-- `startReadOperation` for each operation of a wave, then the test of `startReadsForWave` -/
def startReads (connect : Part → Connection) : List ReadOperation → Executor → Executor
  | [], s => if plan.isFinishingPossible s.networkingFailures then s else { s with phase := .thrown }
  | op :: ops, s =>
    if op.requestSize ≤ 0 then startReads connect ops { s with availableParts := s.availableParts ++ [op.part] }
    else
      match connect op.part with
      | .established below =>
        startReads connect ops
          { s with executors := s.executors.take below ++ op.part :: s.executors.drop below }
      | .refused =>
        startReads connect ops
          { s with networkingFailures := s.networkingFailures ++ [op.part], failedReads := s.failedReads + 1 }
      | .timedOut => { s with phase := .thrown }

def waveOperations (wave : ℕ) : List ReadOperation := plan.readOperations.filter (·.wave = wave)

def startWave (prefetchExpires : Bool) (connect : Part → Connection) (s : Executor) : Executor :=
  let s := startReads plan connect (waveOperations plan s.nextWave)
    { s with failedReads := 0, phase := if s.phase = .start then .head else .poll }
  { s with nextWave := s.nextWave + 1, phase := if prefetchExpires then .thrown else s.phase }

/-- the loop over the polled connections, which keeps those that go on, and the test behind it -/
def pollLoop (arrival : Part → Arrival) : List Part → Executor → Executor
  | [], s => { s with phase := if plan.isReadingFinished s.availableParts then .returned else .head }
  | p :: polled, s =>
    match arrival p with
    | .progress => pollLoop arrival polled { s with executors := s.executors ++ [p] }
    | .finished => pollLoop arrival polled { s with availableParts := s.availableParts ++ [p] }
    | .failed =>
      let s := { s with networkingFailures := s.networkingFailures ++ [p] }
      if plan.isFinishingPossible s.networkingFailures then
        pollLoop arrival polled { s with failedReads := s.failedReads + 1 }
      else { s with executors := s.executors ++ polled, phase := .thrown }
    | .corrupted => { s with executors := s.executors ++ p :: polled, phase := .thrown }

/-- a wave is started: the first one, or the next one because of the timer or a failure -/
def Starts (s : Executor) (totalExpired waveExpired : Bool) : Bool :=
  s.phase = .start || s.phase = .head && !totalExpired && (waveExpired || 0 < s.failedReads)

def step (s : Executor) : Event → Executor
  | .start totalExpired waveExpired prefetchExpires connect =>
    if s.Starts totalExpired waveExpired then s.startWave plan prefetchExpires connect
    else if s.phase = .head then { s with phase := if totalExpired then .thrown else .poll }
    else s
  | .poll result =>
    if s.phase = .poll then
      if s.executors = [] then { s with failedReads := s.failedReads + 1, phase := .head }
      else
        match result with
        | .interrupted => { s with phase := .head }
        | .error => { s with phase := .thrown }
        | .events arrival => pollLoop plan arrival s.executors { s with executors := [] }
    else s

/-! ## Returning in time -/

def emptyParts (wave : ℕ) : List Part := ((waveOperations plan wave).filter (·.requestSize ≤ 0)).map (·.part)

/-- whoever has the parts it needs has returned -/
def Prompt (s : Executor) : Prop := plan.isReadingFinished s.availableParts → s.phase = .start ∨ s.phase = .returned

/-- a wave that is started does not complete the reading by its empty operations, and no damaged block is polled behind
the last part needed -/
def Proceeds (s : Executor) : Event → Prop
  | .start totalExpired waveExpired _ _ => s.Starts totalExpired waveExpired →
      ¬plan.isReadingFinished (s.availableParts ++ emptyParts plan s.nextWave)
  | .poll (.events arrival) => s.phase = .poll → ∀ before p after, s.executors = before ++ p :: after →
      arrival p = .corrupted → ¬plan.isReadingFinished (s.availableParts ++ before.filter (arrival · = .finished))
  | .poll _ => True

/-- the parts whose operations were started -/
def known (s : Executor) : List Part := s.availableParts ++ s.networkingFailures ++ s.executors

variable {plan} {a : List Part} {s : Executor}

theorem isReadingFinished_append (h : plan.isReadingFinished a) (b : List Part) : plan.isReadingFinished (a ++ b) := by
  rw [SliceReadPlan.isReadingFinished_iff] at h ⊢
  rcases h with h | h
  · exact .inl (h.trans (by simp))
  · exact .inr fun p hp => mem_append_left b (h p hp)

/-- failures among the other parts never spoil a finished reading -/
theorem isFinishingPossible_of_finished {f x : List Part} (h : a ++ f ++ x <+~ plan.parts)
    (hfi : plan.isReadingFinished a) : plan.isFinishingPossible f := by
  obtain ⟨l, hpe, hs⟩ := h
  have hn := (hpe.nodup_iff.1 (hs.nodup plan.nodup)).of_append_left
  have hle : a.length + f.length ≤ plan.readOperations.length := by
    have hl := hpe.length_eq ▸ hs.length_le
    simp only [length_append, SliceReadPlan.parts, length_map] at hl
    omega
  rw [SliceReadPlan.isFinishingPossible_iff plan hn.of_append_right]
  rcases (plan.isReadingFinished_iff).1 hfi with hk | hr
  · exact .inl (.inl (by omega))
  · exact .inr fun p hp hf => disjoint_of_nodup_append hn (hr p hp) hf

/-- the part was put into one of the three lists -/
def Gains (s : Executor) (p : Part) (t : Executor) : Prop :=
  t.nextWave = s.nextWave ∧ ∀ q, t.known.count q = s.known.count q + [p].count q

theorem Gains.perm {t : Executor} {p : Part} (h : s.Gains p t) (l : List Part) : t.known ++ l ~ s.known ++ p :: l :=
  perm_iff_count.2 fun q => by rw [append_cons, count_append, count_append, count_append, h.2]

/-- what starting operations does to the lists, whether or not all of them are started -/
structure Started (s : Executor) (ops : List ReadOperation) (t : Executor) : Prop where
  available : ∃ rest, s.availableParts ++ (ops.filter (·.requestSize ≤ 0)).map (·.part) = t.availableParts ++ rest
  known : t.known <+~ s.known ++ ops.map (·.part)
  nextWave : t.nextWave = s.nextWave

theorem startReads_started (plan : SliceReadPlan) (connect : Part → Connection)
    (ops : List ReadOperation) (s : Executor) : s.Started ops (startReads plan connect ops s) := by
  induction ops generalizing s with
  | nil =>
    unfold startReads
    split <;> exact ⟨⟨[], by simp⟩, by simp [Executor.known, Subperm.refl], rfl⟩
  | cons op ops ih =>
    have hg : ∀ t, s.Gains op.part t →
        t.availableParts = s.availableParts ++ ([op].filter (·.requestSize ≤ 0)).map (·.part) →
        s.Started (op :: ops) (startReads plan connect ops t) := fun t ht ha => by
      obtain ⟨⟨rest, hr⟩, hk, hw⟩ := ih t
      refine ⟨⟨rest, ?_⟩, hk.trans (ht.perm _).subperm, hw.trans ht.1⟩
      rw [← hr, ha, append_assoc, ← map_append, ← filter_append, singleton_append]
    unfold startReads
    split
    · next hs => exact hg _ ⟨rfl, fun q => by simp only [known, count_append]; omega⟩ (by simp [hs])
    · next hs =>
      split
      · next below _ =>
        refine hg _ ⟨rfl, fun q => ?_⟩ (by simp [hs])
        have hc := congrArg (count q) (take_append_drop below s.executors)
        simp only [known, count_append, count_cons, count_nil] at hc ⊢
        omega
      · exact hg _ ⟨rfl, fun q => by simp only [known, count_append]; omega⟩ (by simp [hs])
      · exact ⟨⟨_, rfl⟩, (sublist_append_left _ _).subperm, rfl⟩

structure Polled (plan : SliceReadPlan) (s : Executor) (polled : List Part) (t : Executor) : Prop where
  known : t.known ~ s.known ++ polled
  prompt : t.Prompt plan
  nextWave : t.nextWave = s.nextWave

theorem pollLoop_polled {arrival : Part → Arrival} (polled : List Part) (s : Executor)
    (h : s.known ++ polled <+~ plan.parts)
    (hc : ∀ before p after, polled = before ++ p :: after → arrival p = .corrupted →
      ¬plan.isReadingFinished (s.availableParts ++ before.filter (arrival · = .finished))) :
    s.Polled plan polled (pollLoop plan arrival polled s) := by
  induction polled generalizing s with
  | nil =>
    refine ⟨by simp [pollLoop, Executor.known], fun hf => .inr ?_, rfl⟩
    simp only [pollLoop] at hf ⊢
    rw [if_pos hf]
  | cons p polled ih =>
    have hg : ∀ t, s.Gains p t → t.availableParts = s.availableParts ++ [p].filter (arrival · = .finished) →
        s.Polled plan (p :: polled) (pollLoop plan arrival polled t) := fun t ht ha => by
      obtain ⟨hk, hpr, hw⟩ := ih t ((ht.perm polled).subperm.trans h) fun before q after he hq => by
        rw [ha, append_assoc, ← filter_append]
        exact hc (p :: before) q after (by rw [he, cons_append]) hq
      exact ⟨hk.trans (ht.perm polled), hpr, hw.trans ht.1⟩
    unfold pollLoop
    split
    · next har => exact hg _ ⟨rfl, fun q => by simp only [known, count_append]; omega⟩ (by simp [har])
    · next har => exact hg _ ⟨rfl, fun q => by simp only [known, count_append]; omega⟩ (by simp [har])
    · next har =>
      dsimp only
      split
      · exact hg _ ⟨rfl, fun q => by simp only [known, count_append]; omega⟩ (by simp [har])
      · next hi =>
        have hp : s.availableParts ++ (s.networkingFailures ++ [p]) ++ (s.executors ++ polled) ~
            s.known ++ p :: polled := perm_iff_count.2 fun q => by
          simp only [known, count_append, count_cons, count_nil]
          omega
        exact ⟨hp, fun hf => absurd (isFinishingPossible_of_finished (hp.subperm.trans h) hf) hi, rfl⟩
    · next har =>
      refine ⟨by simp [Executor.known], fun hf => absurd hf ?_, rfl⟩
      simpa using hc [] p polled rfl har

theorem filter_wave_lt_succ (ops : List ReadOperation) (wave : ℕ) :
    ops.filter (·.wave < wave) ++ ops.filter (·.wave = wave) ~ ops.filter (·.wave < wave + 1) := by
  induction ops with
  | nil => rfl
  | cons op ops ih =>
    rcases lt_trichotomy op.wave wave with h | h | h
    · simpa [h, h.ne, h.le] using ih
    · simpa [h] using perm_middle.trans (ih.cons op)
    · simpa [h.ne', h.not_gt, h.not_ge] using ih

/-- every part is in one place only and belongs to a wave that was started -/
structure Inv (plan : SliceReadPlan) (s : Executor) : Prop where
  known : s.known <+~ (plan.readOperations.filter (·.wave < s.nextWave)).map (·.part)
  prompt : s.Prompt plan

theorem known_subperm_parts (h : s.Inv plan) : s.known <+~ plan.parts :=
  h.known.trans ((filter_sublist).map _).subperm

theorem startWave_inv (h : s.Inv plan) (prefetchExpires : Bool) (connect : Part → Connection)
    (he : ¬plan.isReadingFinished (s.availableParts ++ emptyParts plan s.nextWave)) :
    (s.startWave plan prefetchExpires connect).Inv plan := by
  obtain ⟨⟨rest, hr⟩, hk, hw⟩ := startReads_started plan connect (waveOperations plan s.nextWave)
    { s with failedReads := 0, phase := if s.phase = .start then .head else .poll }
  refine ⟨?_, fun hf => absurd ?_ he⟩
  · simp only [startWave, hw]
    refine hk.trans (((subperm_append_right _).2 h.known).trans ?_)
    rw [waveOperations, ← map_append]
    exact ((filter_wave_lt_succ _ _).map _).subperm
  · rw [emptyParts, show s.availableParts ++ _ = _ from hr]
    exact isReadingFinished_append hf rest

theorem step_inv (s : Executor) (e : Event) (ho : s.Proceeds plan e) (h : s.Inv plan) : (s.step plan e).Inv plan := by
  cases e with
  | start totalExpired waveExpired prefetchExpires connect =>
    simp only [step]
    split
    · next hs => exact startWave_inv h prefetchExpires connect (ho hs)
    · split
      · next hh => exact ⟨h.known, fun hf => by simpa [hh] using h.prompt hf⟩
      · exact h
  | poll result =>
    simp only [step]
    split
    · next hpo =>
      -- who polls has not finished
      have hn : ¬plan.isReadingFinished s.availableParts := fun hf => by simpa [hpo] using h.prompt hf
      split
      · exact ⟨h.known, fun hf => absurd hf hn⟩
      · cases result with
        | interrupted | error => exact ⟨h.known, fun hf => absurd hf hn⟩
        | events arrival =>
          have hp : ({ s with executors := [] } : Executor).known ++ s.executors = s.known := by simp [Executor.known]
          obtain ⟨hk, hpr, hw⟩ := pollLoop_polled s.executors { s with executors := [] }
            (hp ▸ known_subperm_parts h) (ho hpo)
          exact ⟨by rw [hw]; exact (hp ▸ hk).subperm.trans h.known, hpr⟩
    · exact h

def initial : Executor := ⟨[], [], [], 0, 0, .start⟩

/-- **A finished reading returns.** In every run, if each wave started leaves something to be polled for and no damaged
block is polled behind the last part needed, the executor returns in the step that makes the reading finished. -/
theorem finished_read_returned (plan : SliceReadPlan) (events : List Event)
    (h : Along (step plan) (Proceeds plan) initial events) : Prompt plan (run (step plan) initial events) :=
  (inv_run step_inv initial events h ⟨by simp [initial, Executor.known], fun _ => .inl rfl⟩).prompt

/-- one copy of a chunk, which is read and returned -/
theorem finished_read_returned_copy : let plan := SliceReadPlanner.buildPlanFor ⟨0, [0], [0], by decide⟩ 0 1 id
    let events : List Event := [.start false false false fun _ => .established 0,
      .start false false false fun _ => .established 0, .poll (.events fun _ => .finished)]
    Prompt plan (run (step plan) initial events) ∧
      (run (step plan) initial events).phase = .returned :=
  ⟨finished_read_returned _ _ ⟨fun _ => by decide +kernel, fun h => absurd h (by decide +kernel),
    fun _ _ _ _ _ h => (Arrival.noConfusion h), trivial⟩, by decide +kernel⟩

/-- the last stripe of a chunk in three data parts and a parity part, where only the first data part has a block -/
def lastStripePlan : SliceReadPlan := SliceReadPlanner.buildPlanFor ⟨3, [1], [1, 0, 2, 3], by decide⟩ 341 1 id

/-- the first data part cannot be reached, the parity part arrives, and the empty parts complete the reading when the
last wave is started: there is nothing left to poll, and the call ends with its timeout -/
theorem finished_read_times_out : let events : List Event := [.start false false false fun _ => .refused,
      .start false false false fun _ => .established 0, .poll (.events fun _ => .finished),
      .start false false false fun _ => .established 0, .poll .interrupted,
      .start false false false fun _ => .established 0]
    let s := run (step lastStripePlan) initial events
    lastStripePlan.readOperations = [⟨1, 65536, 0⟩, ⟨0, 65536, 1⟩, ⟨2, 0, 1⟩, ⟨3, 0, 2⟩] ∧
      s.availableParts = [2, 0, 3] ∧ s.executors = [] ∧ s.phase = .poll ∧ ¬Prompt lastStripePlan s ∧
      (run (step lastStripePlan) s
        [.poll .interrupted, .start true false false fun _ => .established 0]).phase = .thrown := by
  refine ⟨by decide +kernel, by decide +kernel, by decide +kernel, by decide +kernel, fun h => ?_, by decide +kernel⟩
  have hphase := h (by decide +kernel)
  revert hphase
  decide +kernel

end Executor

end SaunaFS.Mount.ReadPlan
