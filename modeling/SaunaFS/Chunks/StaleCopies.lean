/-
The runs of a chunk with its servers (`Chunks/Servers.lean`) keep the invariant `Fresh`.
-/
import SaunaFS.Chunks.Integrity
import SaunaFS.Chunks.Freshness

namespace SaunaFS.Chunks

open ModifyFirst Function List Option Cluster PartState Chunk Stepwise

/-! ## What a chunk holds -/

/-- where a valid part is, and whether it is busy -/
def ChunkPart.holding (p : ChunkPart) : Option ((ℕ × ChunkPartType) × Bool) :=
  if p.isValid then some (p.place, p.isBusy) else none

variable {p : ChunkPart} {s : Cluster}

theorem ChunkPart.holding_eq_some {x : (ℕ × ChunkPartType) × Bool} :
    p.holding = some x ↔ p.isValid ∧ (p.place, p.isBusy) = x := by
  unfold holding
  split_ifs with h <;> simp [h]

theorem ChunkPart.holding_of_not_valid (h : p.isValid = false) : p.holding = none := by
  simp [holding, h]

namespace Chunk

variable {c c' : Chunk} {csid : ℕ} {type : ChunkPartType}

def holdings (c : Chunk) : List ((ℕ × ChunkPartType) × Bool) := c.parts.filterMap ChunkPart.holding

theorem validPlaces_eq : c.validPlaces = c.holdings.map Prod.fst := by
  unfold validPlaces holdings
  induction c.parts with
  | nil => rfl
  | cons p ps ih =>
    cases hv : p.isValid with
    | true | false => simp [hv, ChunkPart.holding, ih]

theorem counted_iff_holdings : c.Counted csid type ↔ ∃ busy, ((csid, type), busy) ∈ c.holdings := by
  rw [counted_iff, validPlaces_eq]
  simp

theorem busyAt_iff_holdings : c.BusyAt csid type ↔ ((csid, type), true) ∈ c.holdings := by
  unfold BusyAt holdings
  rw [mem_filterMap]
  refine exists_congr fun p => and_congr_right fun _ => ?_
  rw [ChunkPart.holding_eq_some]
  exact ⟨fun h => ⟨ChunkPart.isValid_of_isBusy h.2, Prod.ext h.1 h.2⟩, fun h => Prod.mk.inj h.2⟩

theorem idle_iff_holdings : (∀ p ∈ c.parts, p.isBusy = false) ↔ ∀ place, (place, true) ∉ c.holdings := by
  constructor
  · intro h ⟨csid, type⟩ hm
    obtain ⟨p, hp, -, hb⟩ := busyAt_iff_holdings.2 hm
    rw [h p hp] at hb
    cases hb
  · intro h p hp
    by_contra hb
    exact h p.place (busyAt_iff_holdings.1 ⟨p, hp, rfl, by simpa using hb⟩)

section

variable (h : c.SameOperation c')
include h

theorem SameOperation.calm_of_eq (hold : c'.holdings = c.holdings) : c.Calm c' where
  toSameOperation := h
  busy := by
    intro csid type hb
    rwa [busyAt_iff_holdings, hold, ← busyAt_iff_holdings]
  idle := by
    intro hq
    rwa [idle_iff_holdings, hold, ← idle_iff_holdings]
  counted := by
    intro _ csid type hc
    rwa [counted_iff_holdings, hold, ← counted_iff_holdings]
  places := by
    intro hn
    rwa [validPlaces_eq, hold, ← validPlaces_eq]

theorem SameOperation.calm_of_push (place : ℕ × ChunkPartType)
    (hold : c'.holdings = c.holdings ++ [(place, false)]) (hne : place ∉ c.validPlaces) : c.Calm c' where
  toSameOperation := h
  busy := by
    intro csid type hb
    rw [busyAt_iff_holdings] at hb ⊢
    exact hold ▸ mem_append_left _ hb
  idle := by
    intro hq
    rw [idle_iff_holdings] at hq ⊢
    intro pl hm
    rw [hold] at hm
    rcases mem_append.1 hm with hm | hm
    · exact hq pl hm
    · simp at hm
  counted := by
    intro _ csid type hc
    rw [counted_iff_holdings] at hc ⊢
    exact hc.imp fun busy hm => hold ▸ mem_append_left _ hm
  places := by
    intro hn
    rw [validPlaces_eq, hold, map_append, ← validPlaces_eq, map_singleton]
    exact nodup_append.2 ⟨hn, nodup_singleton _, by grind⟩

theorem SameOperation.calm_of_due (ho : c.operation = .none)
    (hq : ∀ p ∈ c.parts, p.isBusy = false) (hnee : c'.needverincrease)
    (hold : c'.holdings.Sublist c.holdings) : c.Calm c' where
  toSameOperation := h
  busy := fun _ _ hb => (hb.not_quiet hq).elim
  idle := by
    intro _
    rw [idle_iff_holdings] at hq ⊢
    exact fun place hm => hq place (hold.subset hm)
  counted := by
    intro ht
    rcases ht.2 with hne | hf
    · exact absurd (h.operation.trans ho) hne
    · exact absurd (hnee.symm.trans hf) (by decide)
  places := by
    rw [validPlaces_eq, validPlaces_eq]
    exact fun hn => hn.sublist (hold.map Prod.fst)

end

theorem not_tight_of_due (ho : c.operation = .none) (hn : c.needverincrease) : ¬ c.Tight := by
  intro ht
  rcases ht.2 with hne | hf
  · exact hne ho
  · exact absurd (hn.symm.trans hf) (by decide)

theorem holdings_eq_of_map (h : c'.parts.map ChunkPart.holding = c.parts.map ChunkPart.holding) :
    c'.holdings = c.holdings := by
  have key : ∀ d : Chunk, d.holdings = (d.parts.map ChunkPart.holding).filterMap id := by
    intro d
    rw [filterMap_map]
    rfl
  rw [key, key, h]

/-! ## References, locks and jobs -/

theorem calm_of_parts (h : c.SameOperation c') (hp : c'.parts = c.parts) : c.Calm c' :=
  h.calm_of_eq (holdings_eq_of_map (congrArg _ hp))

theorem calm_unlock : c.Calm { c with lockedto := 0 } := by
  refine calm_of_parts ⟨rfl, rfl, rfl, id, fun now hl => ?_⟩ rfl
  simp only [isLocked, decide_eq_true_eq] at hl ⊢
  omega

variable {goal now : ℕ} {allowed : ChunkPart → Bool} {job : Job}

theorem calm_addFileInt : c.Calm (c.addFileInt goal).1 := by
  unfold addFileInt
  split
  · exact .refl c
  · exact calm_of_parts ⟨rfl, rfl, rfl, id, fun _ => id⟩ rfl

theorem calm_deleteFileInt : c.Calm (c.deleteFileInt goal).1 := by
  unfold deleteFileInt
  split
  · exact .refl c
  · exact calm_of_parts ⟨rfl, rfl, rfl, id, fun _ => id⟩ rfl

theorem calm_changeFile {prevGoal newGoal : ℕ} : c.Calm (c.changeFile prevGoal newGoal).1 := by
  unfold changeFile
  split
  · exact .refl c
  · split <;> exact calm_of_parts ⟨rfl, rfl, rfl, id, fun _ => id⟩ rfl

theorem Calm.trans {c'' : Chunk} (h : c.Calm c') (h' : c'.Calm c'') : c.Calm c'' where
  version := h'.version.trans h.version
  operation := h'.operation.trans h.operation
  interrupted := h'.interrupted.trans h.interrupted
  needverincrease := fun hf => h.needverincrease (h'.needverincrease hf)
  locked := fun now hl => h.locked now (h'.locked now hl)
  busy := fun csid type hb => h'.busy csid type (h.busy csid type hb)
  idle := fun hq => h'.idle (h.idle hq)
  counted := fun ht csid type hc => h'.counted ht csid type (h.counted (h'.tight ht) csid type hc)
  places := fun hn => h'.places (h.places hn)

/-- a calm change, and what may be sent with it: deletions, and replications while a version increase is due -/
structure Still (c : Chunk) (now : ℕ) (r : Chunk × List Effect) : Prop where
  calm : c.Calm r.1
  sent : ∀ e ∈ r.2, (∃ csid chunkid version type, e = .deleteChunk csid chunkid version type) ∨
    (∃ csid chunkid type sources, e = .replicateChunk csid chunkid c.version type sources) ∧
      ¬ r.1.Tight ∧ r.1.isLocked now = false

theorem still_of_calm (h : c.Calm c') : c.Still now (c', []) := ⟨h, by simp⟩

theorem deleteInvalidChunkParts_still : c.Still now (c.deleteInvalidChunkParts allowed) := by
  refine ⟨SameOperation.calm_of_eq ⟨rfl, rfl, rfl, id, fun _ => id⟩ (holdings_eq_of_map ?_), ?_⟩
  · unfold deleteInvalidChunkParts
    rw [List.map_map]
    refine map_congr_left fun p _ => ?_
    simp only [comp_apply]
    split_ifs with h
    · simp only [Bool.and_eq_true, Bool.not_eq_true'] at h
      rw [ChunkPart.holding_of_not_valid h.2, ChunkPart.holding_of_not_valid p.isValid_delete]
    · rfl
  · intro e he
    obtain ⟨p, -, rfl⟩ := mem_map.1 he
    exact .inl ⟨_, _, _, _, rfl⟩

theorem deleteAllChunkParts_still (ho : c.operation = .none)
    (hq : ∀ p ∈ c.parts, p.isBusy = false) : c.Still now (c.deleteAllChunkParts allowed) := by
  unfold deleteAllChunkParts
  extract_lets chosen
  split_ifs
  · refine ⟨SameOperation.calm_of_due ⟨rfl, rfl, rfl, fun hf => (by cases hf), fun _ => id⟩ ho hq rfl ?_, ?_⟩
    · simp only [holdings, updateStats_parts, filterMap_map]
      induction c.parts with
      | nil => exact List.Sublist.refl _
      | cons p ps ih =>
        rw [filterMap_cons, filterMap_cons]
        simp only [comp_apply]
        split_ifs
        · rw [ChunkPart.holding_of_not_valid p.isValid_delete]
          cases p.holding with
          | none => exact ih
          | some x => exact ih.cons x
        · cases p.holding with
          | none => exact ih
          | some x => exact ih.cons_cons x
    · intro e he
      obtain ⟨p, -, rfl⟩ := mem_map.1 he
      exact .inl ⟨_, _, _, _, rfl⟩
  · exact still_of_calm (.refl c)

theorem doJob_still (ho : c.operation = .none) (hq : ∀ p ∈ c.parts, p.isBusy = false)
    (hl : c.isLocked now = false) : c.Still now (c.doJob job) := by
  cases job with
  | nothing => exact still_of_calm (.refl c)
  | replicate usable csid type =>
    simp only [doJob, tryReplication]
    split_ifs
    · refine ⟨calm_of_parts ⟨rfl, rfl, rfl, fun hf => (by cases hf), fun _ => id⟩ rfl, fun e he => .inr ?_⟩
      rw [mem_singleton.1 he]
      exact ⟨⟨_, _, _, _, rfl⟩, not_tight_of_due ho rfl, hl⟩
    · exact still_of_calm (.refl c)
  | remove csid type =>
    simp only [doJob, removeUnneededChunkPart]
    split_ifs
    · refine ⟨SameOperation.calm_of_due ⟨rfl, rfl, rfl, fun hf => (by cases hf), fun _ => id⟩ ho hq rfl ?_, ?_⟩
      · exact filterMap_modifyFirst_sublist fun p => .inl (ChunkPart.holding_of_not_valid p.isValid_delete)
      · intro e he
        rw [mem_singleton.1 he]
        exact .inl ⟨_, _, _, _, rfl⟩
    · exact still_of_calm (.refl c)

theorem doLateJobs_still : c.Still now (c.doLateJobs now allowed job) := by
  unfold doLateJobs
  split_ifs with ho hb
  · exact still_of_calm (.refl c)
  · exact still_of_calm (.refl c)
  all_goals
    obtain ⟨hn, hl⟩ := not_or.1 ho
    rw [not_not] at hn
    rw [Bool.not_eq_true] at hl hb
    have hq : ∀ p ∈ c.parts, p.isBusy = false := fun p hp => by simpa using List.any_eq_false.1 hb p hp
  · exact deleteAllChunkParts_still hn hq
  · exact still_of_calm (.refl c)
  · exact doJob_still hn hq hl

theorem doChunkJobs_still : c.Still now (c.doChunkJobs now allowed job) := by
  have hs : c.Calm c.updateStats := calm_of_parts ⟨rfl, rfl, rfl, id, fun _ => id⟩ rfl
  unfold doChunkJobs
  extract_lets d r t
  split_ifs
  · exact still_of_calm hs
  have hr : d.Still now r := deleteInvalidChunkParts_still
  have ht : r.1.Still now t := doLateJobs_still
  refine ⟨hs.trans (hr.calm.trans ht.calm), fun e he => ?_⟩
  rcases mem_append.1 he with he | he
  · obtain ⟨p, -, rfl⟩ := mem_map.1 he
    exact .inl ⟨_, _, _, _, rfl⟩
  · exact ht.sent e he

end Chunk

variable {content : ℕ → ℕ}

theorem Fresh.still (h : Fresh s content) {r : Chunk × List Effect}
    (hr : s.chunk.Still s.now r) : Fresh (s.absorb r) content := by
  refine h.calm hr.calm ?_ fun c hc => ?_
  · rw [List.any_eq_false]
    intro e he
    rcases hr.sent e he with ⟨_, _, _, _, rfl⟩ | ⟨⟨_, _, _, _, rfl⟩, -⟩ <;> simp [Effect.isDone]
  · obtain ⟨e, he, hcm⟩ := mem_filterMap.1 hc
    rcases hr.sent e he with ⟨_, _, _, _, rfl⟩ | ⟨⟨_, _, _, _, rfl⟩, hd⟩
    · cases hcm
      exact .inl rfl
    · cases hcm
      exact .inr ⟨⟨_, rfl⟩, hd⟩

/-! ## Messages -/

namespace Chunk

variable {c : Chunk} {csid : ℕ} {type : ChunkPartType}

/-- a version increase is pending, and no operation in progress will clear it -/
def Due (c : Chunk) : Prop := c.operation = .none ∧ c.needverincrease = true

def others (csid : ℕ) (type : ChunkPartType) (c : Chunk) : List ChunkPart := c.parts.filter fun p => !p.isAt csid type

variable {p : ChunkPart} {version : ℕ} {todel failed : Bool}

theorem not_valid_of_not_counted (h : ¬ c.Counted csid type) (hp : p ∈ c.parts)
    (ha : p.isAt csid type) : p.isValid = false := by
  by_contra hv
  rw [ChunkPart.isAt_iff] at ha
  exact h ⟨p, hp, Prod.ext ha.1 ha.2, by simpa using hv⟩

variable {f : ChunkPart → ChunkPart}

theorem updatePart_parts : (c.updatePart csid type f).parts = modifyFirst (ChunkPart.isAt csid type) f c.parts := by
  unfold updatePart
  extract_lets updated
  split_ifs <;> rfl

theorem updatePart_sameOperation : c.SameOperation (c.updatePart csid type f) := by
  unfold updatePart
  extract_lets updated
  split_ifs <;> exact ⟨rfl, rfl, rfl, id, fun _ => id⟩

theorem updatePart_needverincrease : (c.updatePart csid type f).needverincrease = c.needverincrease := by
  unfold updatePart
  extract_lets updated
  split_ifs <;> rfl

variable {f : ChunkPart → ChunkPart}

/-- an update that may only take validity away: the part is not valid anyway, the update keeps it, or a version increase
is due -/
theorem updatePart_calm (hq : c.operation = .none → ∀ p ∈ c.parts, p.isBusy = false)
    (hf : ∀ p, (f p).holding = none ∨ (f p).holding = p.holding)
    (h : (∀ p, (f p).holding = p.holding) ∨ ¬ c.Counted csid type ∨ c.Due) : c.Calm (c.updatePart csid type f) := by
  rcases h with hk | hnot | ⟨ho, hn⟩
  · refine (updatePart_sameOperation).calm_of_eq (holdings_eq_of_map ?_)
    rw [updatePart_parts, map_modifyFirst fun p _ _ => hk p]
  · refine (updatePart_sameOperation).calm_of_eq (holdings_eq_of_map ?_)
    rw [updatePart_parts, map_modifyFirst]
    intro p hp ha
    have hno : p.holding = none := ChunkPart.holding_of_not_valid (not_valid_of_not_counted hnot hp ha)
    exact (hf p).elim (fun h => h.trans hno.symm) id
  · refine (updatePart_sameOperation).calm_of_due ho (hq ho) ?_ ?_
    · rw [updatePart_needverincrease]
      exact hn
    · unfold holdings
      rw [updatePart_parts]
      exact filterMap_modifyFirst_sublist hf

theorem holdings_pushPart : (c.pushPart p).holdings = c.holdings ++ p.holding.toList := by
  unfold holdings pushPart
  rw [updateStats_parts, filterMap_append]
  cases hp : p.holding <;> simp [hp]

theorem pushPart_calm (hn : c.lists p.csid p.type = false) (hb : p.isBusy = false) : c.Calm (c.pushPart p) := by
  have hs : c.SameOperation (c.pushPart p) := ⟨rfl, rfl, rfl, id, fun _ => id⟩
  cases hv : p.isValid with
  | false =>
    refine hs.calm_of_eq ?_
    rw [holdings_pushPart, ChunkPart.holding_of_not_valid hv]
    exact append_nil _
  | true =>
    refine hs.calm_of_push p.place ?_ ?_
    · rw [holdings_pushPart, ChunkPart.holding, if_pos hv, hb]
      rfl
    · intro hm
      have hl := (counted_iff.2 hm).lists
      rw [hn] at hl
      cases hl

theorem holding_reportPart (chunkVersion newVersion : ℕ) (todel : Bool) (p : ChunkPart) :
    (reportPart chunkVersion newVersion todel p).holding = none ∨
      (reportPart chunkVersion newVersion todel p).holding = p.holding := by
  obtain ⟨v, t, cs, st⟩ := p
  by_cases h : newVersion = chunkVersion
  · cases st <;> cases todel <;> simp [reportPart, h, ChunkPart.holding, ChunkPart.isValid, ChunkPart.isBusy,
      ChunkPart.place, isValid, isBusy, markTodel, unmarkTodel,
      ChunkPart.invalidate]
  · cases st <;> simp [reportPart, h, ChunkPart.holding, ChunkPart.isValid, isValid, ChunkPart.invalidate]

theorem holding_reportPart_same : (reportPart version version todel p).holding = p.holding := by
  obtain ⟨v, t, cs, st⟩ := p
  cases st <;> cases todel <;> simp [reportPart, ChunkPart.holding, ChunkPart.isValid, ChunkPart.isBusy,
    ChunkPart.place, isValid, isBusy, markTodel, unmarkTodel,
    ChunkPart.invalidate]

theorem registeredState_not_busy {chunkVersion newVersion : ℕ} :
    (registeredState chunkVersion newVersion todel).isBusy = false := by
  unfold registeredState
  split_ifs <;> rfl

theorem serverHasChunk_calm (hq : c.operation = .none → ∀ p ∈ c.parts, p.isBusy = false)
    (h : version = c.version ∨ ¬ c.Counted csid type ∨ c.Due) : c.Calm (c.serverHasChunk csid type version todel) := by
  unfold serverHasChunk
  split_ifs with hl
  · refine updatePart_calm hq (holding_reportPart _ _ _) (h.imp (fun he p => ?_) id)
    rw [he]
    exact holding_reportPart_same
  · exact pushPart_calm (by simpa using hl) registeredState_not_busy

theorem holding_replicatedPart (chunkVersion newVersion : ℕ) (p : ChunkPart) :
    (replicatedPart chunkVersion newVersion p).holding = none ∨
      (replicatedPart chunkVersion newVersion p).holding = p.holding := by
  unfold replicatedPart
  split_ifs
  · exact .inl rfl
  · exact .inr rfl

theorem gotReplicateStatus_calm (hq : c.operation = .none → ∀ p ∈ c.parts, p.isBusy = false) {now : ℕ}
    (h : failed ∨ version = c.version ∨ ¬ c.Counted csid type ∨ c.Due) :
    c.Calm (c.gotReplicateStatus now csid type version failed) := by
  unfold gotReplicateStatus
  split_ifs with hf hl
  · exact .refl c
  · refine updatePart_calm hq (holding_replicatedPart _ _) ((h.resolve_left hf).imp (fun he p => ?_) id)
    rw [he]
    simp [replicatedPart]
  · exact pushPart_calm (by simpa using hl) rfl
  · exact pushPart_calm (by simpa using hl) rfl

theorem holdings_filter (hn : ¬ c.Counted csid type) :
    (c.parts.filter fun p => !p.isAt csid type).filterMap ChunkPart.holding = c.holdings := by
  unfold holdings
  rw [filterMap_filter]
  refine filterMap_congr fun p hp => ?_
  cases ha : p.isAt csid type with
  | false => simp
  | true => simp [ChunkPart.holding_of_not_valid (not_valid_of_not_counted hn hp ha)]

section

variable (hq : c.operation = .none → ∀ p ∈ c.parts, p.isBusy = false)
include hq

theorem gotDeleteStatus_calm (h : ¬ c.Counted csid type ∨ c.Due) : c.Calm (c.gotDeleteStatus csid type) := by
  unfold gotDeleteStatus
  split_ifs
  · have hs : c.SameOperation (c.dropParts csid type) := ⟨rfl, rfl, rfl, id, fun _ => id⟩
    rcases h with hno | ⟨ho, hn⟩
    · exact hs.calm_of_eq (holdings_filter hno)
    · exact hs.calm_of_due ho (hq ho) hn (filter_sublist.filterMap _)
  · exact .refl c

section

variable (h : ¬ c.Counted csid type ∨ c.operation = .none)
include h

theorem lost_calm : c.Calm (c.lost csid type) := by
  unfold lost
  split_ifs
  · have hs : c.SameOperation { c.dropParts csid type with needverincrease := true } :=
      ⟨rfl, rfl, rfl, fun hf => (by cases hf), fun _ => id⟩
    rcases h with hn | ho
    · exact hs.calm_of_eq (holdings_filter hn)
    · exact hs.calm_of_due ho (hq ho) rfl (filter_sublist.filterMap _)
  · exact .refl c

theorem damaged_calm : c.Calm (c.damaged csid type) := by
  have hn : ∀ p : ChunkPart, p.invalidate.holding = none := fun p =>
    ChunkPart.holding_of_not_valid p.isValid_invalidate
  unfold damaged
  split_ifs
  · have hs : c.SameOperation (updateStats { c with
        parts := modifyFirst (ChunkPart.isAt csid type) ChunkPart.invalidate c.parts, needverincrease := true }) :=
      ⟨rfl, rfl, rfl, fun hf => (by cases hf), fun _ => id⟩
    rcases h with hno | ho
    · refine hs.calm_of_eq (holdings_eq_of_map (map_modifyFirst fun p hp ha => ?_))
      rw [hn, ChunkPart.holding_of_not_valid (not_valid_of_not_counted hno hp ha)]
    · exact hs.calm_of_due ho (hq ho) rfl (filterMap_modifyFirst_sublist fun p => .inl (hn p))
  · refine SameOperation.calm_of_eq ⟨rfl, rfl, rfl, fun hf => (by cases hf), fun _ => id⟩ ?_
    exact (holdings_pushPart).trans (append_nil _)

end

end

/-- the answer of this place is not the last one, or the chunk can still be read after it -/
def Survives (csid : ℕ) (type : ChunkPartType) (failed : Bool) (c : Chunk) : Prop :=
  (c.others csid type).any ChunkPart.isBusy = true ∨ if failed then
      getState (!c.goalCounters.counters.isEmpty) (((c.others csid type).filter ChunkPart.isValid).map ChunkPart.type) ≠
        .lost
    else c.isWritable = true

theorem any_map_busy
    (ha : ∀ p, p.isAt csid type → (f p).isBusy = false) (ho : ∀ p, p.isAt csid type = false → f p = p) :
    (c.parts.map f).any ChunkPart.isBusy = (c.others csid type).any ChunkPart.isBusy := by
  unfold others
  rw [List.any_map, List.any_filter]
  refine any_congr rfl fun p => ?_
  cases h : p.isAt csid type with
  | true => simp [ha p h]
  | false => simp [ho p h]

theorem filter_map_valid
    (ha : ∀ p, p.isAt csid type → (f p).isValid = false) (ho : ∀ p, p.isAt csid type = false → f p = p) :
    (c.parts.map f).filter ChunkPart.isValid = (c.others csid type).filter ChunkPart.isValid := by
  unfold others
  induction c.parts with
  | nil => rfl
  | cons p ps ih =>
    rw [map_cons, filter_cons, filter_cons, ih]
    cases h : p.isAt csid type with
    | true => simp [ha p h]
    | false => simp [ho p h, filter_cons]

theorem Survives.recorded (hl : c.lists csid type) (h : c.Survives csid type failed) :
    (c.recordStatus csid type failed).parts.any ChunkPart.isBusy ∨
      (c.recordStatus csid type failed).isWritable := by
  cases failed with
  | true =>
    rw [recordStatus_failed hl]
    refine h.imp (fun hb => ?_) fun hs => ?_
    · rw [updateStats_parts, any_map_busy (fun p ha => by rw [if_pos ha]; rfl)
        fun p ha => by rw [ha]; rfl]
      exact hb
    · rw [if_pos rfl] at hs
      have ht := filter_map_valid (c := c)
        (f := fun p => if p.isAt csid type then p.invalidate else p) (fun p ha => by rw [if_pos ha]; rfl)
        fun p ha => by rw [ha]; rfl
      simp only [isWritable, isLost, updateStats, validTypes, ht]
      simpa using hs
  | false =>
    rw [recordStatus_done hl]
    refine h.imp (fun hb => ?_) id
    rw [any_map_busy
      (fun p ha => by rw [if_pos ha]; exact isBusy_unmarkBusy _) fun p ha => by rw [ha]; rfl]
    exact hb

end Chunk

/-- when a message may be taken. One that takes a valid part away has to come while the increase it asks for is not
cleared by an operation in progress, and an operation may not end undone without one. -/
def Message.Harmless (c : Chunk) (m : Message) : Prop :=
  match m.report with
  | .status failed => c.needverincrease = true ∨ c.Survives m.csid m.type failed
  | .deleteStatus => ¬ c.Counted m.csid m.type ∨ c.Due
  | .replicateStatus version failed => failed = true ∨ version = c.version ∨ ¬ c.Counted m.csid m.type ∨ c.Due
  | .hasChunk raw => getChunkVersion raw = c.version ∨ ¬ c.Counted m.csid m.type ∨ c.Due
  | .damaged | .lost => ¬ c.Counted m.csid m.type ∨ c.operation = .none

theorem Fresh.receive (h : Fresh s content) {m : Message}
    (hconn : ∀ p ∈ s.chunk.parts, s.connected p.csid) (hv : s.chunk.version + 1 < 2 ^ 32)
    (how : ∀ failed, m.report = .status failed → Owed s m.csid m.type) (hm : m.Harmless s.chunk) :
    ∃ content', Fresh (s.receive m) content' := by
  obtain ⟨csid, type, report⟩ := m
  have calm : ∀ c', s.chunk.Calm c' → Fresh (s.absorb (c', [])) content := fun c' hc =>
    h.still (still_of_calm hc)
  cases report with
  | status failed =>
    have ho := how failed rfl
    exact h.status ho hconn hv failed (hm.imp id (Chunk.Survives.recorded ho.busy.counted.lists))
  | deleteStatus => exact ⟨content, calm _ (gotDeleteStatus_calm h.quiet hm)⟩
  | replicateStatus version failed => exact ⟨content, calm _ (gotReplicateStatus_calm h.quiet hm)⟩
  | hasChunk raw => exact ⟨content, calm _ (serverHasChunk_calm h.quiet hm)⟩
  | damaged => exact ⟨content, calm _ (damaged_calm h.quiet hm)⟩
  | lost => exact ⟨content, calm _ (lost_calm h.quiet hm)⟩

/-! ## Writes and truncations -/

section Client

variable {s : Cluster} {content : ℕ → ℕ} {oc : Chunk} {quota : Bool}

theorem checkReferences_inPlace (h : checkReferences oc quota = .ok .inPlace) : oc.operation = .none := by
  unfold checkReferences at h
  split_ifs at h with _ ho
  · exact not_not.1 ho
  · cases h

variable {env : Env} {lockid : ℕ}

theorem checkModify_inPlace {choice : Choice}
    (h : checkModify env choice oc lockid quota = .ok .inPlace) : oc.operation = .none := by
  unfold checkModify at h
  split_ifs at h
  all_goals exact checkReferences_inPlace h

theorem checkTruncate_inPlace {deny : Bool}
    (h : checkTruncate env oc lockid deny quota = .ok .inPlace) : oc.operation = .none := by
  unfold checkTruncate at h
  split_ifs at h
  exact checkReferences_inPlace h

section

variable (h : Fresh s content)
include h

variable {lockid goal : ℕ}

theorem Fresh.grantValid (ho : s.chunk.operation = .none) (hn : s.chunk.needverincrease = false) {now : ℕ} :
    Fresh { s.absorb (s.chunk.lock now lockid, []) with grant := some ⟨s.chunk.version, s.chunk.validPlaces⟩ }
      content := by
  have ht : s.chunk.Tight := ⟨h.settled ho hn, .inr hn⟩
  have hcm : (s.absorb (s.chunk.lock now lockid, [])).commands = s.commands := append_nil _
  have hba : Base (s.absorb (s.chunk.lock now lockid, [])) content :=
    Base.absorb (h.toBase.withChunk rfl h.places fun _ _ _ _ => id) nofun
  have hno : ∀ c ∈ s.commands, c.order.target ≠ some s.chunk.version :=
    fun c hc hta => (h.ordered ht c hc hta).2.not_quiet (h.quiet ho)
  exact
    { hba with
      quiet := h.quiet
      settled := h.settled
      counted := h.counted
      ordered := by
        rw [hcm]
        exact h.ordered
      idle := fun _ _ => ho
      granted := by
        intro g hg _
        cases hg
        rw [hcm]
        exact ⟨rfl, fun cs t k hk hv => counted_iff.1 (h.counted ht cs t k hk hv), hno⟩ }

section

variable (hconn : ∀ p ∈ s.chunk.parts, s.connected p.csid)
include hconn

theorem Fresh.write (hv : s.chunk.version + 1 < 2 ^ 32) {choice : Choice} {dummy : Bool} :
    ∃ content', Fresh (s.write choice lockid goal dummy quota) content' := by
  unfold Cluster.write
  split
  · exact ⟨content, h⟩
  · next hc =>
    have ho := checkModify_inPlace hc
    extract_lets newLockid t
    simp only [t, increaseIfNeeded]
    cases hn : s.chunk.needverincrease with
    | true =>
      simp only [if_true]
      refine h.toBase.setVersion (h.quiet ho) hconn hv ⟨rfl, rfl, rfl, rfl⟩ (not_done_of_map fun p => rfl) ?_
      simp only [startSetVersion, startOperation]
      rw [command_setVersion, u32_eq hv]
    | false => exact ⟨content, h.grantValid ho hn⟩
  · exact ⟨content, h.still (still_of_calm calm_deleteFileInt)⟩

theorem Fresh.truncate (hv : s.chunk.version + 1 < 2 ^ 32) {length : ℕ} {deny : Bool} :
    ∃ content', Fresh (s.truncate lockid length goal deny quota) content' := by
  unfold Cluster.truncate
  split
  · exact ⟨content, h⟩
  · next hc =>
    have ho := checkTruncate_inPlace hc
    have hset : s.chunk.SetOff ((s.chunk.startTruncate length).1.lock s.now lockid) .truncate := ⟨rfl, rfl, rfl, rfl⟩
    have hse : (s.chunk.startTruncate length).2.filterMap (Effect.command (s.last + 1)) =
        (s.chunk.parts.filter ChunkPart.isValid).map fun p =>
          ⟨p.csid, p.type, .truncate (s.chunk.version + 1) s.chunk.version (s.last + 1), true⟩ := by
      simp only [startTruncate, startOperation]
      rw [command_truncate, u32_eq hv]
    have hs := SetOff.started (s := { s with last := s.last + 1 }) hset (by decide) hv
      (not_done_of_map fun p => rfl) hse rfl rfl
    -- the new version has the new content
    refine ⟨Function.update content (s.chunk.version + 1) (s.last + 1), h.toBase.start ⟨hs.parts, hs.version,
      hs.operation, hs.interrupted, hs.connected, hs.disk, hs.inbox, hs.grant, hs.commands, hs.isOp, hs.target⟩
      (h.quiet ho) hconn (fun u hu => ?_) (update_self _ _ _) (update_self _ _ _)⟩
    exact update_of_ne (by omega) _ _
  · exact ⟨content, h.still (still_of_calm calm_deleteFileInt)⟩

end

theorem Fresh.tick {seconds : ℕ} : Fresh { s with now := s.now + seconds } content := by
  refine { h with granted := fun g hg hl => h.granted g hg ?_ }
  simp only [isLocked, decide_eq_true_eq] at hl ⊢
  omega

theorem Fresh.finishWrite (hlo : s.chunk.isLocked s.now) : ∃ content', Fresh s.finishWrite content' := by
  unfold Cluster.finishWrite
  split
  · exact ⟨content, h⟩
  next g hg =>
  split_ifs with hca
  swap
  · exact ⟨content, h⟩
  simp only [canFinish, List.all_eq_true, Option.any_eq_true, beq_iff_eq] at hca
  obtain ⟨hve, hp, hn⟩ := h.granted g hg hlo
  have hd : ∀ cs t k, (if (cs, t) ∈ g.places then (s.disk cs t).map fun k => { k with stamp := s.last + 1 }
      else s.disk cs t) = some k → ∃ old, s.disk cs t = some old ∧ k.version = old.version ∧
        ((k.version = s.chunk.version ∧ k.stamp = s.last + 1) ∨ (k.version ≠ s.chunk.version ∧ k = old)) := by
    intro cs t k hk
    split_ifs at hk with hm
    · obtain ⟨old, hold, rfl⟩ := map_eq_some_iff.1 hk
      obtain ⟨k', hk', hv⟩ := hca (cs, t) hm
      cases hk'.symm.trans hold
      exact ⟨_, hold, rfl, .inl ⟨hv.trans hve, rfl⟩⟩
    · exact ⟨k, hk, rfl, .inr ⟨fun hv => hm (hp cs t k hk hv), rfl⟩⟩
  refine ⟨Function.update content s.chunk.version (s.last + 1),
    { h with
      last := update_self _ _ _, copies := ?_, orders := ?_, counted := ?_, granted := ?_ }⟩
  · intro cs t k hk
    obtain ⟨old, hold, hv, hcas⟩ := hd cs t k hk
    obtain ⟨hle, hco⟩ := h.copies cs t old hold
    refine ⟨hv ▸ hle, ?_⟩
    rcases hcas with ⟨he, hs⟩ | ⟨hne, rfl⟩
    · rw [he, update_self, hs]
    · rw [update_of_ne hne]
      exact hco
  · intro c hc
    obtain ⟨ha, ht⟩ := h.orders c hc
    refine ⟨ha.congr (fun v hv => ?_) fun u hu => update_of_ne (Nat.ne_of_lt hu) _ _, ht⟩
    exact lt_of_le_of_ne (ht v hv) fun he => hn c hc (he ▸ hv)
  · intro hti cs t k hk hv
    obtain ⟨old, hold, hv', -⟩ := hd cs t k hk
    exact h.counted hti cs t old hold (hv'.symm.trans hv)
  · intro g' hg' hl
    obtain ⟨h1, h2, h3⟩ := h.granted g' hg' hl
    refine ⟨h1, fun cs t k hk hv => ?_, h3⟩
    obtain ⟨old, hold, hv', -⟩ := hd cs t k hk
    exact h2 cs t old hold (hv'.symm.trans hv)

end

end Client

/-! ## Servers -/

section Servers

variable {s : Cluster} {content : ℕ → ℕ}

section

variable (h : Fresh s content)
include h

variable {csid : ℕ} {type : ChunkPartType} {c : Command}

theorem Fresh.connect : Fresh (s.connect csid) content := by
  have hmo : ∀ cs, s.connected cs → (s.connect csid).connected cs := by
    intro cs hcs
    simp only [Cluster.connect]
    split_ifs
    · rfl
    · exact hcs
  refine { h with live := fun c hc hl ho => ?_, answers := fun m hm ha => ?_ }
  · obtain ⟨h1, h2⟩ := h.live c hc hl ho
    exact ⟨hmo _ h1, h2⟩
  · obtain ⟨h1, h2⟩ := h.answers m hm ha
    exact ⟨hmo _ h1, h2⟩

theorem Fresh.tell {report : Report}
    (hr : ∀ failed, report ≠ .status failed) : Fresh (s.tell csid type report) content := by
  have hn : ∀ cs t, Message.answers cs t ⟨csid, type, report⟩ = false := by
    intro cs t
    cases report with
    | status failed => exact absurd rfl (hr failed)
    | _ => simp [Message.answers]
  unfold Cluster.tell
  split_ifs
  swap
  · exact h
  refine { h with count := fun cs t => ?_, answers := fun m hm ha => ?_ }
  · simp only [countP_append, countP_singleton, hn]
    exact h.count cs t
  · rcases mem_append.1 hm with hm | hm
    · exact h.answers m hm ha
    · rw [mem_singleton.1 hm, hn] at ha
      cases ha

theorem Fresh.register {todel : Bool} : Fresh (s.register csid type todel) content := by
  unfold Cluster.register
  split
  · exact h
  · exact h.tell fun failed hf => by cases hf

theorem Fresh.disconnect : Fresh (s.disconnect csid) content := by
  have hcm : ∀ c ∈ (s.disconnect csid).commands, ∃ c' ∈ s.commands, c.order = c'.order ∧ c.csid = c'.csid ∧
      c.type = c'.type ∧ (c.live → c'.live ∧ c'.csid ≠ csid) := by
    intro c hc
    obtain ⟨c', hc', rfl⟩ := mem_map.1 hc
    refine ⟨c', hc', ?_⟩
    split_ifs with he
    · exact ⟨rfl, rfl, rfl, fun hl => by cases hl⟩
    · exact ⟨rfl, rfl, rfl, fun hl => ⟨hl, he⟩⟩
  have hconn : ∀ cs, cs ≠ csid → s.connected cs → (s.disconnect csid).connected cs := by
    intro cs hn hcs
    simp only [Cluster.disconnect, if_neg hn]
    exact hcs
  have hco : ∀ cs t v, (s.disconnect csid).commands.countP (Command.concerns cs t v) =
      s.commands.countP (Command.concerns cs t v) := by
    intro cs t v
    simp only [Cluster.disconnect]
    rw [countP_map]
    refine countP_congr fun c _ => ?_
    simp only [comp_apply]
    split_ifs <;> rfl
  refine { h with orders := ?_, count := ?_, live := ?_, answers := ?_, ordered := ?_, granted := ?_ }
  · intro c hc
    obtain ⟨c', hc', ho, -⟩ := hcm c hc
    rw [ho]
    exact h.orders c' hc'
  · intro cs t
    rw [hco]
    exact (Nat.add_le_add_left (filter_sublist.countP_le) _).trans (h.count cs t)
  · intro c hc hl hop
    obtain ⟨c', hc', ho, hcs, ht, hli⟩ := hcm c hc
    obtain ⟨hl', hn⟩ := hli hl
    obtain ⟨h1, h2, h3⟩ := h.live c' hc' hl' (ho ▸ hop)
    rw [hcs, ht, ho]
    exact ⟨hconn _ hn h1, h2, h3⟩
  · intro m hm ha
    obtain ⟨hm, hn⟩ := mem_filter.1 hm
    obtain ⟨h1, h2⟩ := h.answers m hm ha
    exact ⟨hconn _ (by simpa using hn) h1, h2⟩
  · intro ht c hc hta
    obtain ⟨c', hc', ho, hcs, hty, -⟩ := hcm c hc
    rw [ho, hcs, hty]
    exact h.ordered ht c' hc' (ho ▸ hta)
  · intro g hg hl
    obtain ⟨h1, h2, h3⟩ := h.granted g hg hl
    refine ⟨h1, h2, fun c hc => ?_⟩
    obtain ⟨c', hc', ho, -⟩ := hcm c hc
    rw [ho]
    exact h3 c' hc'

theorem Fresh.setDisk {copy : Option Copy} (hc : ∀ k ∈ copy, k.version ≤ s.chunk.version ∧ content k.version = k.stamp)
    (hco : s.chunk.Tight → ∀ k ∈ copy, k.version = s.chunk.version → s.chunk.Counted csid type)
    (hgr : ∀ g, s.grant = some g → s.chunk.isLocked s.now → ∀ k ∈ copy, k.version ≠ s.chunk.version) :
    Fresh (s.setDisk csid type copy) content := by
  have hd : ∀ cs t k, (s.setDisk csid type copy).disk cs t = some k →
      (cs = csid ∧ t = type ∧ k ∈ copy) ∨ s.disk cs t = some k := by
    intro cs t k hk
    simp only [Cluster.setDisk] at hk
    split_ifs at hk with he
    · exact .inl ⟨he.1, he.2, hk⟩
    · exact .inr hk
  refine { h with copies := ?_, counted := ?_, granted := ?_ }
  · intro cs t k hk
    rcases hd cs t k hk with ⟨-, -, hk⟩ | hk
    · exact hc k hk
    · exact h.copies cs t k hk
  · intro ht cs t k hk hv
    rcases hd cs t k hk with ⟨rfl, rfl, hc'⟩ | hk
    · exact hco ht k hc' hv
    · exact h.counted ht cs t k hk hv
  · intro g hg hl
    obtain ⟨h1, h2, h3⟩ := h.granted g hg hl
    refine ⟨h1, fun cs t k hk hv => ?_, h3⟩
    rcases hd cs t k hk with ⟨-, -, hk⟩ | hk
    · exact absurd hv (hgr g hg hl k hk)
    · exact h2 cs t k hk hv

theorem Fresh.answer (hop : c.live → c.order.isOp → Owed s c.csid c.type) {failed : Bool} :
    Fresh (s.answer c (c.order.answer failed)) content := by
  unfold Cluster.answer
  split_ifs with hli
  swap
  · exact h
  have han : ∀ cs t, Message.answers cs t ⟨c.csid, c.type, c.order.answer failed⟩ →
      cs = c.csid ∧ t = c.type ∧ c.order.isOp := by
    intro cs t hm
    cases ho : c.order <;> simp_all [Message.answers, Order.answer, Order.isOp]
  refine { h with count := fun cs t => ?_, answers := fun m hm ha => ?_ }
  · simp only [countP_append, countP_singleton]
    split_ifs with hm
    · obtain ⟨rfl, rfl, hi⟩ := han cs t hm
      have hl := (hop hli hi).last
      have h1 : s.commands.countP (Command.concerns c.csid c.type s.chunk.version) = 0 :=
        countP_eq_zero.2 fun d hd hc => hl (.inl ⟨d, hd, hc⟩)
      have h2 : s.inbox.countP (Message.answers c.csid c.type) = 0 :=
        countP_eq_zero.2 fun d hd hc => hl (.inr ⟨d, hd, hc⟩)
      simp only [h1, h2]
      exact le_refl _
    · exact h.count cs t
  · rcases mem_append.1 hm with hm | hm
    · exact h.answers m hm ha
    · rw [mem_singleton.1 hm] at ha ⊢
      have ho := hop hli (han _ _ ha).2.2
      exact ⟨ho.connected, ho.busy⟩

theorem Fresh.takeCommand (i : ℕ) : Fresh { s with commands := s.commands.eraseIdx i } content := by
  have hs := eraseIdx_sublist (l := s.commands) (k := i)
  refine { h with
    orders := fun c hc => h.orders c (hs.subset hc)
    count := fun cs t => (Nat.add_le_add_right hs.countP_le _).trans (h.count cs t)
    live := fun c hc => h.live c (hs.subset hc)
    ordered := fun ht c hc => h.ordered ht c (hs.subset hc)
    granted := fun g hg hl => ?_ }
  obtain ⟨h1, h2, h3⟩ := h.granted g hg hl
  exact ⟨h1, h2, fun c hc => h3 c (hs.subset hc)⟩

theorem Fresh.owed_command {i : ℕ} (hc : s.commands[i]? = some c) (hl : c.live) (ho : c.order.isOp) :
    Owed { s with commands := s.commands.eraseIdx i } c.csid c.type := by
  obtain ⟨hi, hg⟩ := List.getElem?_eq_some_iff.1 hc
  obtain ⟨hconn, hb, ht⟩ := h.live c (hg ▸ getElem_mem hi) hl ho
  have hco : c.concerns c.csid c.type s.chunk.version := by simp [Command.concerns, ho, ht]
  have hpe : (c :: s.commands.eraseIdx i).Perm s.commands := by
    have hp := getElem_cons_eraseIdx_perm hi
    rwa [hg] at hp
  have hcou := h.count c.csid c.type
  rw [← hpe.countP_eq, countP_cons_of_pos hco] at hcou
  refine ⟨hconn, hb, ?_⟩
  intro haw
  rcases haw with ⟨d, hd, hco'⟩ | ⟨m, hm, ha⟩
  · have hpo := countP_pos_iff.2 ⟨d, hd, hco'⟩
    change 0 < (s.commands.eraseIdx i).countP (Command.concerns c.csid c.type s.chunk.version) at hpo
    omega
  · have hpo := countP_pos_iff.2 ⟨m, hm, ha⟩
    change 0 < s.inbox.countP (Message.answers c.csid c.type) at hpo
    omega

end

theorem carryOut_agrees {copy : Option Copy} {order : Order} {k : Copy}
    (h : carryOut copy order = some (some k)) (hc : ∀ old ∈ copy, content old.version = old.stamp)
    (ho : order.Agrees content) : order.target = some k.version ∧ content k.version = k.stamp := by
  cases order with
  | create version stamp =>
    simp only [carryOut] at h
    split_ifs at h
    cases h
    exact ⟨rfl, ho⟩
  | setVersion version oldVersion =>
    obtain ⟨old, hold, h⟩ := bind_eq_some_iff.1 h
    split_ifs at h with hv
    cases h
    refine ⟨rfl, ho.2.trans ?_⟩
    rw [← hv]
    exact hc old hold
  | truncate version oldVersion stamp =>
    obtain ⟨old, hold, h⟩ := bind_eq_some_iff.1 h
    split_ifs at h with hv
    cases h
    exact ⟨rfl, ho⟩
  | delete | replicate version sources => cases h
  | fetched version stamp =>
    simp only [carryOut] at h
    split_ifs at h
    cases h
    exact ⟨rfl, ho⟩

variable {i : ℕ}

theorem Fresh.execute (h : Fresh s content) {c : Command} (hc : s.commands[i]? = some c) {outcome : Outcome} :
    Fresh ({ s with commands := s.commands.eraseIdx i }.execute c outcome) content := by
  have hm : c ∈ s.commands := mem_of_getElem? hc
  have hr := h.takeCommand i
  have ho : c.live → c.order.isOp →
      Owed { s with commands := s.commands.eraseIdx i } c.csid c.type := h.owed_command hc
  unfold Cluster.execute
  cases hk : carryOut (s.disk c.csid c.type) c.order with
  | none => exact hr.answer ho
  | some copy =>
    have ha : ∀ k ∈ copy, c.order.target = some k.version ∧ content k.version = k.stamp := by
      intro k hco
      rw [mem_def.1 hco] at hk
      exact carryOut_agrees hk (fun old hold => (h.copies _ _ old hold).2) (h.orders c hm).1
    have hd : Fresh ({ s with commands := s.commands.eraseIdx i }.setDisk c.csid c.type copy) content := by
      refine hr.setDisk (fun k hco => ?_) (fun ht k hco hv => ?_) fun g hg hl k hco hv => ?_
      · obtain ⟨hta, hcon⟩ := ha k hco
        exact ⟨(h.orders c hm).2 _ hta, hcon⟩
      · have hta := (ha k hco).1
        rw [hv] at hta
        exact (h.ordered ht c hm hta).2.counted
      · have hta := (ha k hco).1
        rw [hv] at hta
        exact (h.granted g hg hl).2.2 c hm hta
    have ho' : c.live → c.order.isOp →
        Owed ({ s with commands := s.commands.eraseIdx i }.setDisk c.csid c.type copy) c.csid c.type := by
      intro hl hop
      obtain ⟨h1, h2, h3⟩ := ho hl hop
      exact ⟨h1, h2, h3⟩
    cases outcome with
    | done => exact hd.answer ho'
    | refused => exact hr.answer ho
    | unconfirmed => exact hd.answer ho'

theorem Fresh.fetch (h : Fresh s content) {source : ℕ × ChunkPartType} : Fresh (s.fetch i source) content := by
  unfold Cluster.fetch
  split
  swap
  · exact h
  next csid type version sources live k hc hk =>
  split_ifs with hco
  swap
  · exact h
  have hm : (⟨csid, type, .replicate version sources, live⟩ : Command) ∈ s.commands := mem_of_getElem? hc
  obtain ⟨hi, hge⟩ := List.getElem?_eq_some_iff.1 hc
  have hcm : ∀ c ∈ s.commands.set i ⟨csid, type, .fetched version k.stamp, live⟩,
      c ∈ s.commands ∨ c = ⟨csid, type, .fetched version k.stamp, live⟩ := fun c hc => mem_or_eq_of_mem_set hc
  have hta := (h.orders _ hm).2
  refine { h with orders := ?_, count := ?_, live := ?_, ordered := ?_, granted := ?_ }
  · intro c hc
    rcases hcm c hc with hc | rfl
    · exact h.orders c hc
    · refine ⟨?_, hta⟩
      change content version = k.stamp
      rw [← hco.2]
      exact (h.copies _ _ k hk).2
  · intro cs t
    rw [countP_set hi, hge]
    simp only [Command.concerns, Order.isOp, Bool.and_false, Bool.false_and, Bool.false_eq_true, if_false]
    exact h.count cs t
  · intro c hc hl ho
    rcases hcm c hc with hc | rfl
    · exact h.live c hc hl ho
    · cases ho
  · intro ht c hc hto
    rcases hcm c hc with hc | rfl
    · exact h.ordered ht c hc hto
    · exact absurd (h.ordered ht _ hm hto).1 (by simp [Order.isOp])
  · intro g hg hl
    obtain ⟨h1, h2, h3⟩ := h.granted g hg hl
    refine ⟨h1, h2, fun c hc => ?_⟩
    rcases hcm c hc with hc | rfl
    · exact h3 c hc
    · exact h3 ⟨csid, type, .replicate version sources, live⟩ hm

end Servers

/-! ## Runs -/

section Run

variable {s : Cluster} {content : ℕ → ℕ}

instance (c : Chunk) (csid : ℕ) (type : ChunkPartType) : Decidable (c.Counted csid type) :=
  inferInstanceAs (Decidable (∃ p ∈ c.parts, p.place = (csid, type) ∧ p.isValid = true))

instance (c : Chunk) : Decidable c.Due := inferInstanceAs (Decidable (_ ∧ _))

instance (c : Chunk) (csid : ℕ) (type : ChunkPartType) (failed : Bool) : Decidable (c.Survives csid type failed) := by
  cases failed <;> unfold Survives <;> infer_instance

instance (c : Chunk) (m : Message) : Decidable (m.Harmless c) := by
  obtain ⟨csid, type, report⟩ := m
  cases report <;> unfold Message.Harmless <;> infer_instance

/-- the version does not wrap around, a message is harmless to the chunk it finds, and a write is finished under its
lock -/
def Cluster.Op.Sound (s : Cluster) (o : Op) : Prop :=
  s.chunk.version + 2 < 2 ^ 32 ∧ match o with
    | .deliver i => ∀ m ∈ s.inbox[i]?, m.Harmless s.visit.chunk
    | .finishWrite => s.chunk.isLocked s.now = true
    | _ => True

theorem visit_version_le (hv : s.chunk.version + 1 < 2 ^ 32) : s.visit.chunk.version ≤ s.chunk.version + 1 := by
  unfold visit handleDisconnectedCopies
  split_ifs
  · exact Nat.le_succ _
  extract_lets d
  split_ifs
  · exact Nat.le_succ _
  · exact Nat.le_succ _
  · exact (u32_eq hv).le
  · exact Nat.le_succ _

theorem Fresh.step (h : Fresh s content) {o : Op} (ho : o.Sound s) : ∃ content', Fresh (s.step o) content' := by
  obtain ⟨hw, hm⟩ := ho
  obtain ⟨content', hvi⟩ := h.visit (by omega)
  have hl := visit_version_le (s := s) (by omega)
  have hv : s.visit.chunk.version + 1 < 2 ^ 32 := by omega
  have hconn := visit_connected s
  have calm : ∀ c', s.visit.chunk.Calm c' → Fresh (s.visit.absorb (c', [])) content' := fun c' hc =>
    hvi.still (still_of_calm hc)
  cases o with
  | tick seconds => exact ⟨content, h.tick⟩
  | write choice lockid goal dummy quota => exact hvi.write hconn hv
  | truncate lockid length goal deny quota => exact hvi.truncate hconn hv
  | unlock => exact ⟨content', calm _ calm_unlock⟩
  | addFile goal => exact ⟨content', calm _ calm_addFileInt⟩
  | deleteFile goal => exact ⟨content', calm _ calm_deleteFileInt⟩
  | changeFile prevGoal newGoal => exact ⟨content', calm _ calm_changeFile⟩
  | jobs allowed job => exact ⟨content', hvi.still doChunkJobs_still⟩
  | visit => exact ⟨content', hvi⟩
  | deliver i =>
    simp only [Cluster.step]
    cases hi : s.inbox[i]? with
    | none => exact ⟨content, h⟩
    | some m =>
      obtain ⟨content'', ht⟩ := (h.take i).visit (show s.chunk.version + 1 < 2 ^ 32 by omega)
      exact ht.receive hconn hv (fun failed hr => (h.owed hi hr).visit (h.take i)) (hm m hi)
  | execute i outcome =>
    simp only [Cluster.step]
    cases hi : s.commands[i]? with
    | none => exact ⟨content, h⟩
    | some c => exact ⟨content, h.execute hi⟩
  | fetch i source => exact ⟨content, h.fetch⟩
  | register csid type todel => exact ⟨content, h.register⟩
  | tellDamaged csid type | tellLost csid type => exact ⟨content, h.tell fun failed hf => by cases hf⟩
  | disconnect csid => exact ⟨content, h.disconnect⟩
  | connect csid => exact ⟨content, h.connect⟩
  | finishWrite => exact h.finishWrite hm

instance (s : Cluster) (o : Op) : Decidable (o.Sound s) := by
  cases o <;> unfold Op.Sound <;> infer_instance

/-- a copy at the version of the chunk without the content of the last finished write -/
def Cluster.Stale (s : Cluster) (csid : ℕ) (type : ChunkPartType) : Prop :=
  ∃ k, s.disk csid type = some k ∧ k.version = s.chunk.version ∧ k.stamp ≠ s.last

/-- without an operation in progress or a pending version increase, stale copies do not count as valid, and however the
run goes on none of them is accepted at this version -/
def Cluster.NoStaleVersion (s : Cluster) : Prop :=
  s.chunk.operation = .none → s.chunk.needverincrease = false → ∀ csid type, s.Stale csid type →
    ¬ s.chunk.Counted csid type ∧ ∀ ops, (run step s ops).chunk.version = s.chunk.version →
        (run step s ops).Stale csid type → ¬ (run step s ops).chunk.Counted csid type

/-- the next write reaches every copy of its version: what is not counted as valid has an older version -/
def Cluster.WritesAll (s : Cluster) : Prop :=
  s.chunk.operation = .none → s.chunk.needverincrease = false → ∀ csid type k, s.disk csid type = some k →
    k.version = s.chunk.version → s.chunk.Counted csid type

theorem Fresh.not_stale (h : Fresh s content) {csid : ℕ} {type : ChunkPartType} : ¬ s.Stale csid type := by
  intro ⟨k, hk, hv, hn⟩
  have hc := (h.copies csid type k hk).2
  rw [hv, h.last] at hc
  exact hn hc.symm

theorem Fresh.writesAll (h : Fresh s content) : s.WritesAll := by
  intro ho hn csid type k hk hv
  exact h.counted ⟨h.settled ho hn, .inr hn⟩ csid type k hk hv

variable (operation : Operation) (chunkid goal : ℕ) (places : List (ℕ × ChunkPartType))

theorem created_parts : (created operation chunkid goal places).parts = places.map fun s => ⟨1, s.2, s.1, .busy⟩ := by
  simp only [Chunk.created, updateStats_parts, addFileInt_parts, addFileInt_version]
  rfl

theorem created_version : (created operation chunkid goal places).version = 1 := addFileInt_version goal _

theorem created_operation : (created operation chunkid goal places).operation = operation :=
  (calm_addFileInt).operation

theorem created_validPlaces : (created operation chunkid goal places).validPlaces = places := by
  unfold validPlaces
  rw [created_parts]
  induction places with
  | nil => rfl
  | cons place places ih => exact congrArg (place :: ·) ih

variable {connected : ℕ → Bool} {lockid now : ℕ}

theorem created_fresh {operation : Operation} (hop : operation ≠ .none) {chunkid goal : ℕ}
    {places : List (ℕ × ChunkPartType)} (hpl : places.Nodup) (hconn : ∀ place ∈ places, connected place.1) :
    Fresh (created operation chunkid goal lockid now connected places) fun _ => 0 := by
  have hve : (created operation chunkid goal lockid now connected places).chunk.version = 1 :=
    created_version operation chunkid goal places
  have hop' : (created operation chunkid goal lockid now connected places).chunk.operation ≠ .none := by
    change (created operation chunkid goal places).operation ≠ .none
    rw [created_operation]
    exact hop
  have hcm : ∀ c ∈ (created operation chunkid goal lockid now connected places).commands,
      c.order = .create 1 0 ∧ connected c.csid ∧
        (created operation chunkid goal lockid now connected places).chunk.BusyAt c.csid c.type := by
    intro c hc
    obtain ⟨place, hme, rfl⟩ := mem_map.1 hc
    refine ⟨rfl, hconn place hme, ⟨1, place.2, place.1, .busy⟩, ?_, rfl, rfl⟩
    change _ ∈ (created operation chunkid goal places).parts
    rw [created_parts]
    exact mem_map_of_mem hme
  refine { last := rfl, copies := ?_, orders := ?_, places := ?_, count := ?_, live := ?_, answers := ?_, quiet := ?_,
           settled := ?_, counted := ?_, ordered := ?_, idle := ?_, granted := ?_ }
  · intro _ _ _ hk
    cases hk
  · intro c hc
    obtain ⟨ho, -⟩ := hcm c hc
    rw [ho, hve]
    exact ⟨rfl, fun v hv => (mem_some_iff.1 hv).ge⟩
  · change (created operation chunkid goal places).validPlaces.Nodup
    rw [created_validPlaces]
    exact hpl
  · intro csid type
    calc _ ≤ places.countP (· == (csid, type)) := by
          simp only [Cluster.created, countP_nil, Nat.add_zero, countP_map]
          refine countP_mono_left fun place _ hp => ?_
          simp only [comp_apply, Command.concerns, Bool.and_eq_true, beq_iff_eq] at hp
          rw [beq_iff_eq]
          exact Prod.ext hp.1.1.1 hp.1.1.2
      _ ≤ 1 := nodup_iff_count_le_one.1 hpl _
  · intro c hc _ _
    obtain ⟨ho, hcs, hb⟩ := hcm c hc
    rw [ho, hve]
    exact ⟨hcs, hb, rfl⟩
  · intro m hm
    cases hm
  · exact fun hn => absurd hn hop'
  · exact fun hn => absurd hn hop'
  · intro _ _ _ _ hk
    cases hk
  · intro _ c hc _
    obtain ⟨ho, -, hb⟩ := hcm c hc
    exact ⟨ho ▸ rfl, hb⟩
  · intro g hg
    cases hg
  · intro g hg
    cases hg

theorem fresh_run {operation : Operation} (hop : operation ≠ .none) {chunkid goal : ℕ}
    {places : List (ℕ × ChunkPartType)} (hp : places.Nodup)
    (hconn : ∀ place ∈ places, connected place.1) {ops : List Cluster.Op}
    (hs : Along Cluster.step (fun s o => o.Sound s)
      (Cluster.created operation chunkid goal lockid now connected places) ops) :
    ∃ content, Fresh (run Cluster.step
      (Cluster.created operation chunkid goal lockid now connected places) ops) content := by
  refine inv_run (P := fun s => ∃ content, Fresh s content) ?_ _ ops hs
    ⟨_, created_fresh hop hp hconn⟩
  intro s o ho ⟨content, h⟩
  exact h.step ho

/-- **No stale copy.** For a chunk created on connected servers and any interleaving of steps with harmless messages:
while no operation is in progress and no version increase is pending, no stale copy counts as valid or is accepted
later, and the next write reaches every copy of its version. -/
theorem no_stale_copy (operation : Operation) (hop : operation ≠ .none) (chunkid goal lockid now : ℕ)
    (connected : ℕ → Bool) (places : List (ℕ × ChunkPartType)) (hplaces : places.Nodup)
    (hconn : ∀ place ∈ places, connected place.1) (ops : List Cluster.Op)
    (hs : Along Cluster.step (fun s o => o.Sound s)
      (Cluster.created operation chunkid goal lockid now connected places) ops) :
    (run Cluster.step (Cluster.created operation chunkid goal lockid now connected places)
        ops).NoStaleVersion ∧
      (run Cluster.step (Cluster.created operation chunkid goal lockid now connected places)
        ops).WritesAll := by
  obtain ⟨content, h⟩ := fresh_run hop hplaces hconn hs
  exact ⟨fun _ _ csid type hstale => absurd hstale h.not_stale, h.writesAll⟩

/-- a chunk on two servers, with its first write finished -/
def written : List Op := [.execute 0 .done, .execute 0 .done, .deliver 0, .deliver 0, .finishWrite]

/-- a new chunk on the servers 1 and 2 -/
def twoServers : Cluster :=
  created .create 1 1 7 1000 (fun _ => true) [(1, standardPartType), (2, standardPartType)]

theorem no_stale_copy_first_write : (run Cluster.step twoServers written).NoStaleVersion ∧
      (run Cluster.step twoServers written).WritesAll :=
  no_stale_copy .create (by decide) 1 1 7 1000 (fun _ => true)
    [(1, standardPartType), (2, standardPartType)] (by decide)
    (fun _ _ => rfl) written (by decide +kernel)

/-- a truncation; server 1 answers and then reports the part as lost, server 2 answers -/
def lossInTruncation : List Op :=
  [.unlock, .truncate 0 0 1 false false, .execute 0 .done, .execute 0 .done, .deliver 0, .tellLost 1 standardPartType,
    .deliver 1, .deliver 0]

/-- a write, which the master grants without a version increase, and the return of server 1 -/
def writeAndReturn : List Op :=
  [.unlock, .write oneServer 0 1 true false, .finishWrite, .register 1 standardPartType false, .deliver 0]

/-- The part of server 1 is at the version of the chunk and counts as valid, but does not have the last write. -/
theorem stale_copy_accepted :
    let s := run Cluster.step twoServers (written ++ lossInTruncation ++ writeAndReturn)
    s.chunk.operation = .none ∧ s.chunk.needverincrease = false ∧ s.chunk.Counted 1 standardPartType ∧
      s.disk 1 standardPartType = some ⟨2, 2⟩ ∧ s.chunk.version = 2 ∧ s.last = 3 ∧ ¬ s.NoStaleVersion := by
  intro s
  have hfacts : s.chunk.operation = .none ∧ s.chunk.needverincrease = false ∧ s.chunk.Counted 1 standardPartType ∧
      s.disk 1 standardPartType = some ⟨2, 2⟩ ∧ s.chunk.version = 2 ∧ s.last = 3 := by
    decide +kernel
  obtain ⟨hop, hneed, hcounted, hdisk, hversion, hlast⟩ := hfacts
  refine ⟨hop, hneed, hcounted, hdisk, hversion, hlast, fun hno => ?_⟩
  have hstale : s.Stale 1 standardPartType := ⟨⟨2, 2⟩, hdisk, hversion.symm, by rw [hlast]; decide⟩
  exact (hno hop hneed 1 standardPartType hstale).1 hcounted

end Run

end SaunaFS.Chunks
