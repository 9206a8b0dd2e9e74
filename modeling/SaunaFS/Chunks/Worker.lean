/-
Which copies the chunk worker removes: steps 7 to 11 of `ChunkWorker::doChunkJobs` and `removeUnneededChunkPart` of
`master/chunks.cc`. What the worker reads around a chunk is a parameter.
-/
import SaunaFS.Chunks.Chunk
import SaunaFS.Chunks.CopiesCalculator

namespace SaunaFS.Chunks

open ModifyFirst List ChunkPart

/-- a copy that replication or rebalancing can make: its sources below their limit, its server and its type -/
structure Replication where
  usable : ChunkPart → Bool
  csid : ℕ
  type : ChunkPartType

structure Surroundings where
  /-- `c->getGoal()` -/
  goal : Goal
  /-- `matocsserv_get_label` -/
  label : ℕ → MediaLabel
  /-- `matocsserv_get_servip` -/
  servip : ℕ → ℕ
  /-- `matocsserv_get_usage` -/
  usage : ℕ → ℚ
  /-- `matocsserv_deletion_counter` is below `TmpMaxDel` -/
  mayDelete : ChunkPart → Bool
  /-- `gUseLinearAssignmentOptimizer` -/
  useLinearAssignmentOptimizer : Bool
  /-- `gAvoidSameIpChunkservers` -/
  avoidSameIpChunkservers : Bool
  /-- the result of `auctionOptimization`, or of the cache before it, for the slice of each type -/
  assignment : ℕ → ℕ → ℕ
  /-- the first `replicateChunkPart` that succeeds in step 7 -/
  replication : Option Replication
  /-- the copy that is made in steps 9 to 11 -/
  rebalancing : Option Replication

variable {type : ChunkPartType}

namespace Surroundings

variable (w : Surroundings) (c : Chunk)

def labelledParts : List LabelledPart := (c.parts.filter isValid).map fun p => (p.type, w.label p.csid)

/-- step 1 -/
def calculator : CopiesCalculator :=
  optimize w.useLinearAssignmentOptimizer w.assignment (availableGoal (w.labelledParts c)) w.goal

/-- step 1: some server has two valid parts -/
def isDegenerate (c : Chunk) : Bool := !decide ((c.parts.filter isValid).map csid).Nodup

/-- step 1a: the valid parts on servers with the address of this one; the counter is empty unless it is asked for -/
def ipOccurrence (csid : ℕ) : ℕ :=
  if w.avoidSameIpChunkservers then
    (c.parts.filter isValid).countP fun p => w.servip p.csid == w.servip csid
  else 1

/-- `std::make_tuple(is_todel, occurrence, usage)` -/
def preference (p : ChunkPart) : Bool ×ₗ ℕ ×ₗ ℚ := toLex (p.isTodel, toLex (w.ipOccurrence c p.csid, w.usage p.csid))

variable (pool : List MediaLabel) (k : CopiesCalculator)

/-- the body of the loop of `removeUnneededChunkPart`. The occurrence of a valid part is positive, so that any part
beats the values the loop starts with. -/
def consider (type : ChunkPartType) (best : Option ChunkPart) (p : ChunkPart) : Option ChunkPart :=
  if !p.isValid || p.type != type then best
  else if !w.mayDelete p then best
  else if !pool.contains (w.label p.csid) then best
  else
    match best with
    | none => some p
    | some q => if w.preference c q < w.preference c p then some p else some q

/-- the loop of `removeUnneededChunkPart`: the first of the parts that come highest -/
def candidate (type : ChunkPartType) : Option ChunkPart := c.parts.foldl (w.consider c pool type) none

/-- `removeUnneededChunkPart` up to its decision -/
def unneededChunkPart (t i : ℕ) : Option ChunkPart :=
  let pool := k.getRemovePool t i
  if pool.isEmpty then none
  else
    match w.candidate c pool ⟨t, i⟩ with
    | none => none
    | some p => if k.canRemovePart t i (w.label p.csid) then some p else none

/-- step 8: nothing is removed of a part that is also missing somewhere -/
def removal : Option ChunkPart :=
  (k.available.flatMap fun s => (List.range s.parts.length).map fun i => (s.type, i)).findSome? fun (t, i) =>
    let operations := k.countPartsToMove t i
    if 0 < operations.1 ∨ operations.2 = 0 then none else w.unneededChunkPart c k t i

/-- steps 7 to 11 -/
def job : Chunk.Job :=
  match w.replication with
  | some r => .replicate r.usable r.csid r.type
  | none =>
    let k := w.calculator c
    if isDegenerate c && decide (0 < k.countPartsToRecover) then .nothing
    else
      match w.removal c k with
      | some p => .remove p.csid p.type
      | none =>
        match w.rebalancing with
        | some r => .replicate r.usable r.csid r.type
        | none => .nothing

variable {w c}

theorem consider_cases (pool : List MediaLabel) (best : Option ChunkPart) {p : ChunkPart} :
    w.consider c pool type best p = best ∨ w.consider c pool type best p = some p ∧ p.isValid ∧ p.type = type := by
  unfold consider
  split_ifs with hs
  · exact .inl rfl
  · exact .inl rfl
  · exact .inl rfl
  · simp only [Bool.or_eq_true, Bool.not_eq_true', bne_iff_ne, not_or, ne_eq, not_not, Bool.not_eq_false] at hs
    cases best with
    | none => exact .inr ⟨rfl, hs⟩
    | some q =>
      simp only
      split_ifs
      · exact .inr ⟨rfl, hs⟩
      · exact .inl rfl

variable {p : ChunkPart}

theorem candidate_spec {pool : List MediaLabel}
    (h : w.candidate c pool type = some p) : p ∈ c.parts ∧ p.isValid ∧ p.type = type := by
  -- over the loop: the best part so far is one of those passed
  have hf : ∀ (l : List ChunkPart) (best : Option ChunkPart), l.foldl (w.consider c pool type) best = some p →
      best = some p ∨ p ∈ l ∧ p.isValid ∧ p.type = type := by
    intro l
    induction l with
    | nil => exact fun best hb => .inl hb
    | cons a l ih =>
      intro best hb
      rcases ih _ hb with hp | ⟨hp, ho⟩
      · rcases consider_cases (w := w) (c := c) pool best with hk | ⟨ht, ho⟩
        · exact .inl (hk ▸ hp)
        · obtain rfl : a = p := Option.some.inj (ht ▸ hp)
          exact .inr ⟨mem_cons_self, ho⟩
      · exact .inr ⟨mem_cons_of_mem a hp, ho⟩
  exact (hf c.parts none h).resolve_left fun hn => nomatch hn

theorem removal_spec (h : w.removal c (w.calculator c) = some p) :
    p ∈ c.parts ∧ p.isValid ∧ p.type.slicePart < expectedParts p.type.sliceType ∧
      (w.calculator c).canRemovePart p.type.sliceType p.type.slicePart (w.label p.csid) := by
  obtain ⟨⟨t, i⟩, hm, hso⟩ := exists_of_findSome?_eq_some h
  obtain ⟨s, hs, hi⟩ := mem_flatMap.1 hm
  obtain ⟨j, hj, hji⟩ := mem_map.1 hi
  obtain ⟨rfl, rfl⟩ := Prod.mk.inj hji
  have hl : s.parts.length = expectedParts s.type := by
    have := congrArg List.length ((collects_availableGoal (w.labelledParts c)).copies s hs)
    simpa [partCopies] using this
  simp only [unneededChunkPart] at hso
  split_ifs at hso
  cases hc : w.candidate c ((w.calculator c).getRemovePool s.type j) ⟨s.type, j⟩ with
  | none => simp [hc] at hso
  | some q =>
    simp only [hc] at hso
    split_ifs at hso with hr
    cases hso
    obtain ⟨hq, hv, ht⟩ := candidate_spec hc
    rw [ht]
    exact ⟨hq, hv, hl ▸ mem_range.1 hj, hr⟩

theorem optimize_target_eq_nil {b : Bool} {assignment : ℕ → ℕ → ℕ} {available target : Goal}
    (h : (optimize b assignment available target).target = []) : target = [] := by
  simpa [optimize] using h

theorem redundancy_without {rest : List ChunkPartType} (hp : p ∈ c.parts) (hv : p.isValid)
    (hr : p.type.slicePart < expectedParts p.type.sliceType) (hpe : c.validTypes.Perm (p.type :: rest))
    (hrem : (w.calculator c).canRemovePart p.type.sliceType p.type.slicePart (w.label p.csid)) :
    (0 ≤ Goal.evalRedundancyLevel w.goal → 0 ≤ evalRedundancyLevel rest) ∧
      (min 1 (Goal.evalRedundancyLevel w.goal) ≤ evalRedundancyLevel rest ↔
        ¬(1 ≤ Goal.evalRedundancyLevel w.goal ∧ (w.calculator c).LastSpare c.validTypes p.type)) := by
  have hty : (w.labelledParts c).map Prod.fst = c.validTypes := by
    simp [labelledParts, Chunk.validTypes, Function.comp_def]
  have hm : (p.type, w.label p.csid) ∈ w.labelledParts c :=
    mem_map_of_mem (f := fun p : ChunkPart => (p.type, w.label p.csid)) (mem_filter.2 ⟨hp, hv⟩)
  by_cases ht : (w.calculator c).target = []
  · -- without a goal anything may go, and nothing is asked for
    have hg : w.goal = [] := optimize_target_eq_nil ht
    have hl : Goal.evalRedundancyLevel w.goal = -1 := by rw [hg]; rfl
    have hres := (contribution_nonneg rest 0).trans (contribution_le rest 0)
    rw [hl]
    exact ⟨by omega, by omega⟩
  · obtain ⟨hre, hl⟩ := CopiesCalculator.canRemovePart_spec (collects_availableGoal (w.labelledParts c))
      ht hm hr (hty ▸ hpe) hrem
    rw [hty] at hl
    refine ⟨fun _ => hre, ?_⟩
    by_cases hg : 1 ≤ Goal.evalRedundancyLevel w.goal
    · rw [min_eq_left hg, hl]
      simp [hg]
    · have : min 1 (Goal.evalRedundancyLevel w.goal) ≤ 0 := by omega
      exact iff_of_true (this.trans hre) fun hs => hg hs.1

end Surroundings

/-! ## A visit of the worker -/

namespace Chunk

variable {c : Chunk}

/-- the parts that count as copies on hand -/
def validParts (c : Chunk) : List ChunkPart := c.parts.filter isValid

theorem validParts_deleteInvalidChunkParts (allowed : ChunkPart → Bool) (c : Chunk) :
    (c.deleteInvalidChunkParts allowed).1.validParts = c.validParts := by
  unfold validParts deleteInvalidChunkParts
  simp only
  induction c.parts with
  | nil => rfl
  | cons p parts ih =>
    simp only [map_cons, filter_cons, ih]
    cases hp : p.isValid <;> cases allowed p <;> simp [hp]

theorem removeUnneededChunkPart_spec {p : ChunkPart} (hp : p ∈ c.parts) (hv : p.isValid) :
    ∃ before q after, c.validParts = before ++ q :: after ∧ q.place = p.place ∧
      (c.removeUnneededChunkPart p.csid p.type).1.validParts = before ++ after := by
  have ha : c.parts.any (fun q => q.isAt p.csid p.type && q.isValid) :=
    any_eq_true.2 ⟨p, hp, by simp [hv]⟩
  obtain ⟨q, hf⟩ := Option.isSome_iff_exists.1 (find?_isSome.2 ⟨p, hp, by simp [hv]⟩ :
    (c.parts.find? fun q => q.isAt p.csid p.type && q.isValid).isSome)
  have hq := find?_some hf
  simp only [Bool.and_eq_true, isAt_iff] at hq
  obtain ⟨before, after, hpa, hm⟩ := modifyFirst_of_find (f := delete) hf
  refine ⟨before.filter isValid, q, after.filter isValid, ?_, ?_, ?_⟩
  · unfold validParts
    rw [hpa, filter_append, filter_cons_of_pos hq.2]
  · simp [place, hq.1]
  · simp only [removeUnneededChunkPart]
    rw [if_pos ha]
    simp [validParts, hm, filter_append]

theorem doChunkJobs_delete {now csid version : ℕ} {allowed : ChunkPart → Bool} {job : Job} (hf : 0 < c.fileCount)
    (h : Effect.deleteChunk csid c.chunkid version type ∈ (c.doChunkJobs now allowed job).2) :
    (∃ p ∈ c.parts, p.isValid = false ∧ p.place = (csid, type)) ∨
      job = .remove csid type ∧ ∃ d : Chunk, d.validParts = c.validParts ∧
        (c.doChunkJobs now allowed job).1 = (d.removeUnneededChunkPart csid type).1 := by
  have hd := validParts_deleteInvalidChunkParts allowed c.updateStats
  have hc : (c.updateStats.deleteInvalidChunkParts allowed).1.fileCount ≠ 0 := hf.ne'
  unfold doChunkJobs at h ⊢
  simp only at h ⊢
  split_ifs at h ⊢
  · cases h
  rcases mem_append.1 h with hi | hl
  · obtain ⟨p, hp, he⟩ := mem_map.1 hi
    obtain ⟨hm, ha⟩ := mem_filter.1 hp
    simp only [Bool.and_eq_true, Bool.not_eq_true'] at ha
    cases he
    exact .inl ⟨p, hm, ha.2, rfl⟩
  · generalize (c.updateStats.deleteInvalidChunkParts allowed).1 = d at hd hl hc ⊢
    unfold doLateJobs at hl ⊢
    simp only [if_neg hc] at hl ⊢
    split_ifs at hl ⊢
    · cases hl
    · cases hl
    · cases hl
    · cases job with
      | nothing => cases hl
      | replicate usable csid' type' =>
        simp only [doJob, tryReplication] at hl
        split_ifs at hl <;> simp at hl
      | remove csid' type' =>
        have hs : csid' = csid ∧ type' = type := by
          simp only [doJob, removeUnneededChunkPart] at hl
          split_ifs at hl <;> simp_all
        obtain ⟨rfl, rfl⟩ := hs
        exact .inr ⟨rfl, d, hd, rfl⟩

end Chunk

namespace Surroundings

variable {w : Surroundings} {c : Chunk}

theorem removal_of_job {csid : ℕ} (h : w.job c = .remove csid type) :
    ∃ p, w.removal c (w.calculator c) = some p ∧ p.place = (csid, type) := by
  unfold job at h
  cases hr : w.replication with
  | some r => simp [hr] at h
  | none =>
    simp only [hr] at h
    split_ifs at h
    cases hrem : w.removal c (w.calculator c) with
    | none =>
      rw [hrem] at h
      cases hre : w.rebalancing <;> simp [hre] at h
    | some p =>
      rw [hrem] at h
      cases h
      exact ⟨p, rfl, rfl⟩

/-- **The worker and redundancy.** A delete that a visit of a chunk in use sends is for an invalid part, or one valid
part goes. What remains is readable if the goal says so, and at least as redundant as `min(1, goal)` exactly unless the
goal is redundant, asks for a single copy of the slice, and the part is the last spare one. -/
theorem never_endangers (w : Surroundings) (c : Chunk) :
    (∀ p ∈ c.parts, p.isValid → p.type.slicePart < expectedParts p.type.sliceType →
      ∀ rest, c.validTypes.Perm (p.type :: rest) →
      (w.calculator c).canRemovePart p.type.sliceType p.type.slicePart (w.label p.csid) →
      (0 ≤ Goal.evalRedundancyLevel w.goal → 0 ≤ evalRedundancyLevel rest) ∧
        (min 1 (Goal.evalRedundancyLevel w.goal) ≤ evalRedundancyLevel rest ↔
          ¬(1 ≤ Goal.evalRedundancyLevel w.goal ∧ (w.calculator c).LastSpare c.validTypes p.type))) ∧
    (0 < c.fileCount → ∀ now csid version type,
      Effect.deleteChunk csid c.chunkid version type ∈ (c.doChunkJobs now w.mayDelete (w.job c)).2 →
      (∃ p ∈ c.parts, p.isValid = false ∧ p.place = (csid, type)) ∨
        ∃ before p after, c.validParts = before ++ p :: after ∧ p.place = (csid, type) ∧
          (c.doChunkJobs now w.mayDelete (w.job c)).1.validParts = before ++ after ∧
          (0 ≤ Goal.evalRedundancyLevel w.goal →
            0 ≤ evalRedundancyLevel (c.doChunkJobs now w.mayDelete (w.job c)).1.validTypes) ∧
          (min 1 (Goal.evalRedundancyLevel w.goal) ≤
              evalRedundancyLevel (c.doChunkJobs now w.mayDelete (w.job c)).1.validTypes ↔
            ¬(1 ≤ Goal.evalRedundancyLevel w.goal ∧ (w.calculator c).LastSpare c.validTypes type))) := by
  refine ⟨fun p hp hvalid hr rest hperm hremove => redundancy_without hp hvalid hr hperm hremove, ?_⟩
  intro hfiles now csid version type hdelete
  rcases Chunk.doChunkJobs_delete hfiles hdelete with hinvalid | ⟨hjob, d, hd, hresult⟩
  · exact .inl hinvalid
  obtain ⟨p, hremoval, hplace⟩ := removal_of_job hjob
  obtain ⟨rfl, rfl⟩ := Prod.mk.inj hplace
  obtain ⟨hp, hvalid, hr, hremove⟩ := removal_spec hremoval
  have hpd : p ∈ d.parts := mem_of_mem_filter (hd ▸ mem_filter.2 ⟨hp, hvalid⟩ : p ∈ d.validParts)
  obtain ⟨before, q, after, hbefore, hq, hafter⟩ := Chunk.removeUnneededChunkPart_spec hpd hvalid
  rw [hd] at hbefore
  rw [hresult]
  generalize (d.removeUnneededChunkPart p.csid p.type).1 = e at hafter ⊢
  have htype : q.type = p.type := congrArg Prod.snd hq
  have hperm : c.validTypes.Perm (p.type :: e.validTypes) := by
    have : (c.validParts.map type).Perm (q.type :: e.validParts.map type) := by
      rw [hbefore, hafter, map_append, map_cons, map_append]
      exact perm_middle
    rwa [htype] at this
  exact .inr ⟨before, q, after, hbefore, hq, hafter, redundancy_without hp hvalid hr hperm hremove⟩

/-- a chunk of two files with different goals, with whole copies on these servers -/
def copiesOn (servers : List ℕ) : Chunk :=
  { Chunk.new 1 1 with
    goalCounters :=
      ⟨[⟨1, 1⟩, ⟨2, 1⟩], by simp [EntriesSorted], by simp [EntriesCounted, u8Max], by simp [countersMax]⟩
    parts := servers.map fun csid => ⟨1, standardPartType, csid, .valid⟩ }

/-- nothing but removal is possible, whatever the server -/
def onlyRemoval (goal : Goal) : Surroundings where
  goal := goal
  label _ := wildcard
  servip csid := csid
  usage _ := 0
  mayDelete _ := true
  useLinearAssignmentOptimizer := true
  avoidSameIpChunkservers := false
  assignment _ k := k
  replication := none
  rebalancing := none

/-- of three copies where two are wanted one goes, and the chunk stays redundant -/
theorem never_endangers_third_copy : 1 ≤ evalRedundancyLevel ((copiesOn [1, 2, 3]).doChunkJobs 5 (fun _ => true)
      ((onlyRemoval [⟨0, [[(wildcard, 2)]]⟩]).job (copiesOn [1, 2, 3]))).1.validTypes := by
  rcases (never_endangers (onlyRemoval [⟨0, [[(wildcard, 2)]]⟩]) (copiesOn [1, 2, 3])).2 (by decide) 5 1
    0 standardPartType
    (by decide +kernel) with ⟨p, hp, hinvalid, -⟩ | ⟨before, p, after, -, -, -, -, hlevel⟩
  · revert p
    decide
  · exact le_trans (by decide +kernel) (hlevel.2 (by decide +kernel))

/-- the goal of a chunk of two files, one with a single copy and one with `xor2` parts -/
def mergedGoal : Goal := [⟨0, [[(wildcard, 1)]]⟩, ⟨2, [[(wildcard, 1)], [(wildcard, 1)], [(wildcard, 1)]]⟩]

/-- a chunk with two copies, and no room for its `xor2` parts at the moment, loses the second copy although its goal is
redundant -/
theorem merged_goal_endangered : 0 < (copiesOn [1, 2]).fileCount ∧ Goal.evalRedundancyLevel mergedGoal = 2 ∧
      (copiesOn [1, 2]).validTypes = [standardPartType, standardPartType] ∧
      Effect.deleteChunk 1 1 0 standardPartType ∈
        ((copiesOn [1, 2]).doChunkJobs 5 (fun _ => true) ((onlyRemoval mergedGoal).job (copiesOn [1, 2]))).2 ∧
      evalRedundancyLevel ((copiesOn [1, 2]).doChunkJobs 5 (fun _ => true)
        ((onlyRemoval mergedGoal).job (copiesOn [1, 2]))).1.validTypes = 0 := by
  decide +kernel

end Surroundings

end SaunaFS.Chunks
