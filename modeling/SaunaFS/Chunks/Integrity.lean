/-
Integrity of the part lists: at most one entry for a server and part type, and every valid part at the version of its
chunk. The functions of `master/chunks.cc` keep it, with two exceptions.

`part_list_integrity` is the invariant over every run without these two steps (`ChunkOp.Sound`), from a table just
loaded. `part_list_broken` has a run with each of them.
-/
import SaunaFS.Lib.Stepwise
import SaunaFS.Chunks.Table

namespace SaunaFS.Chunks

open ModifyFirst List ChunkPart Stepwise Chunk

/-- one entry per place, and valid parts at the version of the chunk -/
structure Chunk.Integrity (c : Chunk) : Prop where
  places : (c.parts.map place).Nodup
  versions : ∀ p ∈ c.parts, p.isValid = true → p.version = c.version

variable {csid : ℕ} {type : ChunkPartType}

namespace Chunk

variable {c c' : Chunk}

/-! ## How part lists change -/

section

variable (h : c.Integrity)
include h

theorem Integrity.of_eq (hp : c'.parts = c.parts) (hv : c'.version = c.version) : c'.Integrity where
  places := by
    rw [hp]
    exact h.places
  versions := by
    rw [hp, hv]
    exact h.versions

variable {f : ChunkPart → ChunkPart}

theorem Integrity.map (hp : c'.parts = c.parts.map f) (hpl : ∀ p, (f p).place = p.place)
    (hv : ∀ p ∈ c.parts, (f p).isValid → (f p).version = c'.version) : c'.Integrity where
  places := by
    have hc : place ∘ f = place := funext hpl
    rw [hp, map_map, hc]
    exact h.places
  versions := by
    intro q hq hva
    rw [hp] at hq
    obtain ⟨p, hm, rfl⟩ := mem_map.1 hq
    exact hv p hm hva

theorem Integrity.sublist (hp : c'.parts.Sublist c.parts) (hv : c'.version = c.version) : c'.Integrity where
  places := h.places.sublist (hp.map _)
  versions := by
    intro p hm hva
    rw [hv]
    exact h.versions p (hp.subset hm) hva

theorem Integrity.modifyFirst {q : ChunkPart → Bool}
    (hp : c'.parts = ModifyFirst.modifyFirst q f c.parts) (hc : c'.version = c.version)
    (hpl : ∀ p, (f p).place = p.place)
    (hv : ∀ p ∈ c.parts, (f p).isValid → (f p).version = c.version) : c'.Integrity where
  places := by
    rw [hp, map_modifyFirst fun p _ _ => hpl p]
    exact h.places
  versions := by
    rw [hp, hc]
    exact forall_modifyFirst h.versions fun p hm _ _ hva => hv p hm hva

variable {p : ChunkPart}

theorem Integrity.push (hp : c'.parts = c.parts ++ [p])
    (hc : c'.version = c.version) (hn : c.lists p.csid p.type = false)
    (hv : p.isValid → p.version = c.version) : c'.Integrity where
  places := by
    have hf : p.place ∉ c.parts.map place := by
      intro hm
      obtain ⟨q, hq, hpl⟩ := mem_map.1 hm
      have hl : c.lists p.csid p.type := lists_iff.2 ⟨q, hq, hpl⟩
      rw [hn] at hl
      cases hl
    rw [hp, map_append]
    refine nodup_append.2 ⟨h.places, by simp, ?_⟩
    intro a ha b hb hab
    rw [map_singleton, mem_singleton] at hb
    exact hf (by rw [← hb, ← hab]; exact ha)
  versions := by
    intro q hq hva
    rw [hp] at hq
    rw [hc]
    rcases mem_append.1 hq with hq | hq
    · exact h.versions q hq hva
    · rw [mem_singleton] at hq
      rw [hq] at hva ⊢
      exact hv hva

/-! ## Version operations -/

theorem startOperation_integrity {operation : Operation} {message : ChunkPart → Effect} :
    (c.startOperation operation message).1.Integrity := by
  refine h.map rfl (place_begin _) fun p _ hv => ?_
  rw [isValid_begin] at hv
  exact version_begin hv

theorem startSetVersion_integrity : c.startSetVersion.1.Integrity := startOperation_integrity h

theorem startTruncate_integrity {length : ℕ} : (c.startTruncate length).1.Integrity := startOperation_integrity h

theorem increaseIfNeeded_integrity : c.increaseIfNeeded.1.Integrity := by
  unfold increaseIfNeeded
  split_ifs
  · exact startSetVersion_integrity h
  · exact h

theorem Integrity.lock (now lockid : ℕ) : (c.lock now lockid).Integrity := h.of_eq rfl rfl

theorem handleDisconnectedCopies_integrity (connected : ℕ → Bool) :
    (c.handleDisconnectedCopies connected).1.Integrity := by
  unfold handleDisconnectedCopies
  split_ifs with ha
  · exact h
  have hd : (updateStats { c with
      parts := c.parts.filter (fun p => connected p.csid), needverincrease := true }).Integrity :=
    h.sublist filter_sublist rfl
  extract_lets d
  split_ifs
  · exact hd
  · exact hd.of_eq rfl rfl
  · exact startSetVersion_integrity hd
  · exact hd.of_eq rfl rfl

theorem recordStatus_integrity (csid : ℕ) (type : ChunkPartType) (failed : Bool) :
    (c.recordStatus csid type failed).Integrity := by
  unfold recordStatus
  split_ifs
  · exact h
  · refine h.map rfl (fun p => ?_) fun p hp hv => ?_
    · split_ifs <;> rfl
    · split_ifs at hv ⊢
      · cases hv
      · exact h.versions p hp hv
  · refine h.map rfl (fun p => ?_) fun p hp hv => ?_
    · split_ifs <;> rfl
    · have hp' : p.isValid := by
        split_ifs at hv
        · simpa [isValid] using hv
        · exact hv
      have hve := h.versions p hp hp'
      split_ifs <;> exact hve

theorem operationStatus_integrity (csid : ℕ) (type : ChunkPartType) (failed : Bool) :
    (c.operationStatus csid type failed).1.Integrity := by
  have hr := recordStatus_integrity h csid type failed
  unfold operationStatus finishOperation
  extract_lets d
  split_ifs
  · exact hr
  · exact startSetVersion_integrity hr
  · exact hr.of_eq rfl rfl
  · exact hr.of_eq rfl rfl

/-! ## Reports of chunkservers -/

theorem updatePart_integrity (csid : ℕ) (type : ChunkPartType) (hp : ∀ p, (f p).place = p.place)
    (hv : ∀ p ∈ c.parts, (f p).isValid → (f p).version = c.version) : (c.updatePart csid type f).Integrity := by
  unfold updatePart
  extract_lets d
  split_ifs <;> exact h.modifyFirst rfl rfl hp hv

theorem pushPart_integrity (hn : c.lists p.csid p.type = false)
    (hv : p.isValid → p.version = c.version) : (c.pushPart p).Integrity :=
  h.push rfl rfl hn hv

end

theorem place_reportPart (chunkVersion newVersion : ℕ) (todel : Bool) (p : ChunkPart) :
    (reportPart chunkVersion newVersion todel p).place = p.place := by
  unfold reportPart
  split <;> try rfl
  split_ifs <;> rfl

theorem version_reportPart {chunkVersion newVersion : ℕ} {todel : Bool} {p : ChunkPart}
    (h : (reportPart chunkVersion newVersion todel p).isValid) :
    (reportPart chunkVersion newVersion todel p).version = chunkVersion := by
  unfold reportPart at h ⊢
  split at h
  · cases h
  · next hs => simp [isValid, hs, PartState.isValid] at h
  · by_cases hv : newVersion = chunkVersion
    · rw [if_neg (not_not.2 hv)]
      exact hv
    · rw [if_pos hv] at h
      cases h

section

variable (h : c.Integrity)
include h

variable {version : ℕ}

theorem serverHasChunk_integrity {todel : Bool} : (c.serverHasChunk csid type version todel).Integrity := by
  unfold serverHasChunk
  split_ifs with hl
  · exact updatePart_integrity h csid type (place_reportPart _ _ _) fun _ _ => version_reportPart
  · refine pushPart_integrity h (by simpa using hl) fun hva => ?_
    by_contra hv
    rw [isValid, registeredState, if_neg hv] at hva
    cases hva

theorem damaged_integrity (hs : type = standardPartType ∨ c.lists csid type) : (c.damaged csid type).Integrity := by
  unfold damaged
  split_ifs with hl
  · refine h.modifyFirst rfl rfl place_invalidate fun p _ hv => ?_
    cases hv
  · have hl' : c.lists csid type = false := by simpa using hl
    have ht : type = standardPartType := hs.resolve_right hl
    rw [ht] at hl'
    refine h.push rfl rfl hl' fun hv => ?_
    cases hv

theorem dropParts_integrity : (c.dropParts csid type).Integrity :=
  h.sublist filter_sublist rfl

theorem lost_integrity : (c.lost csid type).Integrity := by
  unfold lost
  split_ifs
  · exact (dropParts_integrity h).of_eq rfl rfl
  · exact h

theorem gotDeleteStatus_integrity : (c.gotDeleteStatus csid type).Integrity := by
  unfold gotDeleteStatus
  split_ifs
  · exact dropParts_integrity h
  · exact h

theorem gotReplicateStatus_integrity {now : ℕ}
    {failed : Bool} : (c.gotReplicateStatus now csid type version failed).Integrity := by
  unfold gotReplicateStatus
  split_ifs with hf hl hv
  · exact h
  · refine updatePart_integrity h csid type (fun p => ?_) fun p hp hva => ?_
    · unfold replicatedPart
      split_ifs <;> rfl
    · unfold replicatedPart at hva ⊢
      split_ifs at hva ⊢
      · cases hva
      · exact h.versions p hp hva
  · refine pushPart_integrity h (by simpa using hl) fun hva => ?_
    cases hva
  · refine pushPart_integrity h (by simpa using hl) fun _ => ?_
    simp only [Bool.or_eq_true, bne_iff_ne, not_or, ne_eq, not_not] at hv
    exact hv.2

end

/-! ## Repair -/

/-- the parts that are not being deleted hold a full copy of this version -/
def FullCopy (version : ℕ) (c : Chunk) : Prop := 0 < getFullCopiesCount (c.typesOfVersion version)

instance (version : ℕ) (c : Chunk) : Decidable (c.FullCopy version) := by
  unfold FullCopy
  infer_instance

/-- a repair does nothing to the versions, or finds no valid part -/
def RepairSafe (now : ℕ) (c : Chunk) : Prop :=
  c.isLocked now = true ∨ (∀ p ∈ c.parts, p.isValid = false) ∨
    (c.FullCopy c.version ∧ ∀ v, c.version < v → ¬ c.FullCopy v) ∨ ∀ v, v ≠ 0 → ¬ c.FullCopy v

variable {v goal prevGoal newGoal : ℕ}

theorem mem_repairable (h : c.FullCopy v) : v ∈ (c.parts.filter fun p => p.state != .del).map ChunkPart.version := by
  by_contra hm
  have hn : c.typesOfVersion v = [] := by
    unfold typesOfVersion
    rw [map_eq_nil_iff, filter_eq_nil_iff]
    intro p hp hb
    rw [Bool.and_eq_true, beq_iff_eq] at hb
    exact hm (mem_map.2 ⟨p, mem_filter.2 ⟨hp, hb.1⟩, hb.2⟩)
  rw [FullCopy, hn] at h
  exact absurd h (by decide)

theorem bestVersion_eq_zero_or : c.bestVersion = 0 ∨ c.FullCopy c.bestVersion := by
  unfold bestVersion
  extract_lets versions
  cases hm : (versions.filter fun v => decide (0 < getFullCopiesCount (c.typesOfVersion v))).max? with
  | none => exact .inl rfl
  | some v =>
    have hme := max?_mem hm
    exact .inr (of_decide_eq_true (mem_filter.1 hme).2)

theorem le_bestVersion (h : c.FullCopy v) : v ≤ c.bestVersion := by
  have hme : v ∈ ((c.parts.filter fun p => p.state != .del).map ChunkPart.version).filter
      fun v => decide (0 < getFullCopiesCount (c.typesOfVersion v)) :=
    mem_filter.2 ⟨mem_repairable h, by simpa [FullCopy] using h⟩
  unfold bestVersion
  extract_lets versions
  cases hm : (versions.filter fun v => decide (0 < getFullCopiesCount (c.typesOfVersion v))).max? with
  | none =>
    rw [max?_eq_none_iff] at hm
    exact absurd hme (by rw [hm]; exact not_mem_nil)
  | some w => exact (max?_eq_some_iff.1 hm).2 v hme

theorem revert_integrity (h : c.Integrity) (hn : ∀ p ∈ c.parts, p.isValid = false) {version : ℕ} :
    (c.revert version).Integrity := by
  refine h.map rfl (fun p => ?_) fun p hp hv => ?_
  · split_ifs <;> rfl
  · split_ifs at hv ⊢ with hi
    · exact hi.2
    · rw [hn p hp] at hv
      cases hv

theorem deleteFileInt_parts : (c.deleteFileInt goal).1.parts = c.parts := by
  unfold deleteFileInt
  split <;> rfl

theorem deleteFileInt_version : (c.deleteFileInt goal).1.version = c.version := by
  unfold deleteFileInt
  split <;> rfl

section

variable (h : c.Integrity)
include h

variable {now : ℕ} {allowed : ChunkPart → Bool} {job : Job}

theorem repair_integrity (hs : c.RepairSafe now) {goal : ℕ} {correctOnly : Bool} :
    (c.repair now goal correctOnly).1.Integrity := by
  unfold repair
  split_ifs with hl hb hz hc
  · exact h
  · exact h
  · exact h
  · exact h.of_eq deleteFileInt_parts deleteFileInt_version
  · have hf := (bestVersion_eq_zero_or).resolve_left hz
    rcases hs with hs | hs | ⟨hcu, ha⟩ | hs
    · exact absurd hs hl
    · exact revert_integrity h hs
    · -- a full copy of the current version and none above it: the best version is the current one
      have hle := le_bestVersion hcu
      exact absurd hf (ha _ (lt_of_le_of_ne hle (Ne.symm hb)))
    · exact absurd hf (hs _ hz)

/-! ## Jobs -/

theorem deleteInvalidChunkParts_integrity : (c.deleteInvalidChunkParts allowed).1.Integrity := by
  refine h.map rfl (fun p => ?_) fun p hp hv => ?_
  · split_ifs <;> rfl
  · split_ifs at hv ⊢
    · cases hv
    · exact h.versions p hp hv

theorem deleteAllChunkParts_integrity : (c.deleteAllChunkParts allowed).1.Integrity := by
  unfold deleteAllChunkParts
  extract_lets chosen
  split_ifs
  · refine h.map rfl (fun p => ?_) fun p hp hv => ?_
    · split_ifs <;> rfl
    · split_ifs at hv ⊢
      · cases hv
      · exact h.versions p hp hv
  · exact h

theorem doJob_integrity : (c.doJob job).1.Integrity := by
  cases job with
  | nothing => exact h
  | replicate usable csid type =>
    simp only [doJob, tryReplication]
    split_ifs
    · exact h.of_eq rfl rfl
    · exact h
  | remove csid type =>
    simp only [doJob, removeUnneededChunkPart]
    split_ifs
    · refine h.modifyFirst rfl rfl place_delete fun p _ hv => ?_
      cases hv
    · exact h

theorem doLateJobs_integrity : (c.doLateJobs now allowed job).1.Integrity := by
  unfold doLateJobs
  split_ifs
  · exact h
  · exact h
  · exact deleteAllChunkParts_integrity h
  · exact h
  · exact doJob_integrity h

theorem doChunkJobs_integrity : (c.doChunkJobs now allowed job).1.Integrity := by
  have hu : c.updateStats.Integrity := h.of_eq rfl rfl
  unfold doChunkJobs
  extract_lets d r t
  split_ifs
  · exact hu
  · exact doLateJobs_integrity (deleteInvalidChunkParts_integrity hu)

end

/-! ## New chunks and references -/

theorem new_integrity (chunkid version : ℕ) : (new chunkid version).Integrity where
  places := nodup_nil
  versions := by simp [new]

theorem addFileInt_parts : (c.addFileInt goal).1.parts = c.parts := by
  unfold addFileInt
  split <;> rfl

theorem addFileInt_version (goal : ℕ) (c : Chunk) : (c.addFileInt goal).1.version = c.version := by
  unfold addFileInt
  split <;> rfl

theorem changeFile_parts : (c.changeFile prevGoal newGoal).1.parts = c.parts := by
  unfold changeFile
  split
  · rfl
  · split <;> rfl

theorem changeFile_version : (c.changeFile prevGoal newGoal).1.version = c.version := by
  unfold changeFile
  split
  · rfl
  · split <;> rfl

theorem created_integrity (operation : Operation) (chunkid goal : ℕ) {places : List (ℕ × ChunkPartType)}
    (h : places.Nodup) : (created operation chunkid goal places).Integrity := by
  have hpa : (created operation chunkid goal places).parts =
      places.map fun s => ⟨1, s.2, s.1, .busy⟩ := by
    simp only [created, updateStats_parts, addFileInt_parts, addFileInt_version]
    rfl
  have hv : (created operation chunkid goal places).version = 1 := by
    simp only [created, updateStats_version, addFileInt_version]
    rfl
  refine ⟨?_, fun p hp _ => ?_⟩
  · rw [hpa, map_map]
    exact (map_id places).symm ▸ h
  · rw [hpa] at hp
    obtain ⟨s, -, rfl⟩ := mem_map.1 hp
    exact hv.symm

theorem validPlaces_nodup (h : c.Integrity) : c.validPlaces.Nodup := h.places.sublist (filter_sublist.map _)

theorem lists_handleDisconnectedCopies {connected : ℕ → Bool} (hc : connected csid) :
    (c.handleDisconnectedCopies connected).1.lists csid type = c.lists csid type := by
  have hf : (c.parts.filter fun p => connected p.csid).any (isAt csid type) = c.lists csid type := by
    rw [any_filter]
    congr 1
    funext p
    cases hp : p.isAt csid type with
    | false => rw [Bool.and_false]
    | true => rw [(isAt_iff.1 hp).1, hc, Bool.and_true]
  have hb : ∀ (v : ℕ) (l : List ChunkPart), (l.map (begin v)).any (isAt csid type) = l.any (isAt csid type) := by
    intro v l
    rw [any_map]
    congr 1
    funext p
    have hpl := place_begin v p
    rw [place, place, Prod.mk.injEq] at hpl
    rw [Function.comp_apply, isAt, isAt, hpl.1, hpl.2]
  unfold handleDisconnectedCopies
  extract_lets d
  split_ifs
  · rfl
  · exact hf
  · exact hf
  · exact (hb _ _).trans hf
  · exact hf

end Chunk

/-! ## The table -/

/-- the step is not one of the two that break part lists: a damaged part that is not listed is a standard one, and a
repair that goes back to another version finds no valid part -/
def ChunkOp.Sound (m : ChunksMetadata) : ChunkOp → Prop
  | .event env (.damaged csid chunkid type) =>
    type = standardPartType ∨ env.connected csid = true ∧ ∃ c, m.chunks chunkid = some c ∧ c.lists csid type = true
  | .call env (.repair _ ochunkid _) =>
    ∀ c, m.chunks ochunkid = some c → (c.handleDisconnectedCopies env.connected).1.RepairSafe env.now
  | _ => True

section Table

variable {m : ChunksMetadata} {env : Env}

section

variable (h : m.All Integrity)
include h

variable {ochunkid goal lockid chunkid : ℕ} {quota : Bool}

theorem copyOnWrite_integrity {oc : Chunk} (ho : oc.Integrity) {operation : Operation} {now : ℕ} :
    (copyOnWrite m ochunkid oc operation goal (lock now lockid)).All Integrity := by
  have hold : (oc.deleteFileInt goal).1.Integrity := ho.of_eq deleteFileInt_parts deleteFileInt_version
  have hn := created_integrity operation m.nextchunkid goal (validPlaces_nodup ho)
  exact (h.set ochunkid hold).set m.nextchunkid (hn.lock now lockid)

theorem chunkMultiModify_integrity {choice : Choice} {usedummylockid : Bool} :
    (chunkMultiModify env choice m ochunkid lockid goal usedummylockid quota).table.All Integrity := by
  unfold chunkMultiModify
  split_ifs with h0
  · unfold modifyNew
    have hn := created_integrity .create m.nextchunkid goal choice.distinct
    split_ifs
    · exact h
    · exact h
    · exact h
    · exact h
    · exact h.set m.nextchunkid (hn.lock env.now _)
  cases hc : m.chunks ochunkid with
  | none => exact h
  | some c =>
    have ho := handleDisconnectedCopies_integrity (h ochunkid c hc) env.connected
    have hf := h.set ochunkid ho
    simp only [modifyFound]
    split
    · exact hf
    · exact h.set ochunkid ((increaseIfNeeded_integrity ho).lock env.now _)
    · exact copyOnWrite_integrity hf ho

theorem chunkMultiTruncate_integrity {length : ℕ} {deny : Bool} :
    (chunkMultiTruncate env m ochunkid lockid length goal deny quota).table.All Integrity := by
  unfold chunkMultiTruncate
  cases hc : m.chunks ochunkid with
  | none => exact h
  | some c =>
    have ho := handleDisconnectedCopies_integrity (h ochunkid c hc) env.connected
    have hf := h.set ochunkid ho
    simp only [truncateFound]
    split
    · exact hf
    · exact h.set ochunkid ((startTruncate_integrity ho).lock env.now lockid)
    · exact copyOnWrite_integrity hf ho

theorem onKnown_integrity {f : Chunk → Chunk × List Effect}
    (hf : ∀ c : Chunk, c.Integrity → (f c).1.Integrity) : (onKnown env m chunkid f).1.All Integrity :=
  onChunk_all h fun c hc => hf _ (handleDisconnectedCopies_integrity (h chunkid c hc) env.connected)

theorem chunkServerHasChunk_integrity {version : ℕ} :
    (chunkServerHasChunk env m csid chunkid version type).1.All Integrity := by
  have hr : ∀ c : Chunk, c.Integrity →
      (c.serverHasChunk csid type (getChunkVersion version) (getTodelFlag version)).Integrity :=
    fun c hc => serverHasChunk_integrity hc
  have hn : (unknown env.now chunkid (getChunkVersion version)).Integrity :=
    (new_integrity chunkid (getChunkVersion version)).of_eq rfl rfl
  unfold chunkServerHasChunk
  cases hc : m.chunks chunkid with
  | some c => exact h.set chunkid (hr _ (handleDisconnectedCopies_integrity (h chunkid c hc) _))
  | none =>
    split_ifs
    · refine ChunksMetadata.All.set ?_ chunkid (hr _ hn)
      unfold fsSetNextchunkid chunkSetNextChunkid
      split_ifs <;> exact h
    · exact h.set chunkid (hr _ hn)

theorem chunkDamaged_integrity (hs : ChunkOp.Sound m (.event env (.damaged csid chunkid type))) :
    (chunkDamaged env m csid chunkid type).1.All Integrity := by
  unfold chunkDamaged
  cases hc : m.chunks chunkid with
  | some c =>
    refine h.set chunkid
      (damaged_integrity (handleDisconnectedCopies_integrity (h chunkid c hc) _) ?_)
    refine hs.imp id ?_
    rintro ⟨hco, d, hd, hl⟩
    rw [hc, Option.some.injEq] at hd
    rw [lists_handleDisconnectedCopies hco, hd]
    exact hl
  | none =>
    have ht : type = standardPartType := by
      refine hs.resolve_right ?_
      rintro ⟨-, d, hd, -⟩
      rw [hc] at hd
      cases hd
    have hda : ((new chunkid 0).damaged csid type).Integrity := damaged_integrity (new_integrity chunkid 0) (.inl ht)
    split_ifs
    · exact ChunksMetadata.All.set (m := { m with nextchunkid := u64 (chunkid + 1) }) h chunkid hda
    · exact h.set chunkid hda

theorem chunkDeleteUnused_integrity : (chunkDeleteUnused env m chunkid).1.All Integrity := by
  unfold chunkDeleteUnused
  cases hc : m.chunks chunkid with
  | none => exact h
  | some c =>
    simp only
    split_ifs
    · intro id d hd
      simp only [Function.update_apply] at hd
      split_ifs at hd
      exact h id d hd
    · exact h.set chunkid (handleDisconnectedCopies_integrity (h chunkid c hc) _)

theorem chunkCall_integrity {call : ChunkCall} (hs : ChunkOp.Sound m (.call env call)) :
    (chunkCall env m call).All Integrity := by
  have hf : ∀ chunkid c, m.chunks chunkid = some c → (c.handleDisconnectedCopies env.connected).1.Integrity :=
    fun chunkid c hc => handleDisconnectedCopies_integrity (h chunkid c hc) _
  cases call with
  | addFile chunkid goal =>
    exact onChunk_all h fun c hc =>
      (hf chunkid c hc).of_eq addFileInt_parts (addFileInt_version goal _)
  | deleteFile chunkid goal =>
    exact onChunk_all h fun c hc =>
      (hf chunkid c hc).of_eq deleteFileInt_parts deleteFileInt_version
  | changeFile chunkid prevGoal newGoal =>
    simp only [chunkCall, chunkChangeFile]
    split_ifs
    · exact h
    · exact onChunk_all h fun c hc =>
        (hf chunkid c hc).of_eq changeFile_parts changeFile_version
  | unlock chunkid => exact onChunk_all h fun c hc => (hf chunkid c hc).of_eq rfl rfl
  | modify choice ochunkid lockid goal dummy quota => exact chunkMultiModify_integrity h
  | truncate ochunkid lockid length goal deny quota => exact chunkMultiTruncate_integrity h
  | repair goal ochunkid correctOnly =>
    simp only [chunkCall, chunkRepair]
    split_ifs
    · exact h
    · exact onChunk_all h fun c hc => repair_integrity (hf ochunkid c hc) (hs c hc)

end

theorem step_integrity (m : ChunksMetadata) {op : ChunkOp} (hs : op.Sound m) (h : m.All Integrity) :
    (step m op).All Integrity := by
  cases op with
  | call env call => exact chunkCall_integrity h hs
  | event env event =>
    cases event with
    | hasChunk csid chunkid version type => exact chunkServerHasChunk_integrity h
    | damaged csid chunkid type => exact chunkDamaged_integrity h hs
    | lost csid chunkid type => exact onKnown_integrity h fun c hc => lost_integrity hc
    | deleteStatus csid chunkid type =>
      exact onKnown_integrity h fun c hc => gotDeleteStatus_integrity hc
    | replicateStatus csid chunkid version type failed =>
      exact onKnown_integrity h fun c hc => gotReplicateStatus_integrity hc
    | operationStatus csid chunkid type failed =>
      exact onKnown_integrity h fun c hc => operationStatus_integrity hc csid type failed
    | jobs chunkid allowed job =>
      exact onKnown_integrity h fun c hc => doChunkJobs_integrity hc
    | visit chunkid => exact onKnown_integrity h fun c hc => hc
    | deleteUnused chunkid => exact chunkDeleteUnused_integrity h

end Table

/-! ## Runs -/

/-- no part list has two entries for a place, and while no operation is in progress valid parts are at the version of
their chunk -/
def Intact (m : ChunksMetadata) : Prop :=
  ∀ chunkid c, m.chunks chunkid = some c → (c.parts.map place).Nodup ∧
      (c.operation = .none → ∀ p ∈ c.parts, p.isValid = true → p.version = c.version)

/-- after the report the damaged part is listed as invalid, and nothing of another type has been listed -/
def RecordsReported (m : ChunksMetadata) (env : Env) (csid chunkid : ℕ) (type : ChunkPartType) : Prop :=
  ∃ c, (step m (.event env (.damaged csid chunkid type))).chunks chunkid = some c ∧
    (∃ p ∈ c.parts, p.place = (csid, type) ∧ p.state = .invalid) ∧
    ∀ p ∈ c.parts, (∀ d, m.chunks chunkid = some d → p.place ∉ d.parts.map place) → p.type = type

variable {type : ChunkPartType} {csid : ℕ} {c : Chunk}

section

variable (hs : type = standardPartType ∨ c.lists csid type)
include hs

theorem Chunk.damaged_lists : ∃ p ∈ (c.damaged csid type).parts, p.place = (csid, type) ∧ p.state = .invalid := by
  unfold damaged
  split_ifs with hl
  · obtain ⟨p, hp⟩ := Option.isSome_iff_exists.1 (find?_isSome.2 (any_eq_true.1 hl))
    have ha : p.isAt csid type := find?_some hp
    refine ⟨p.invalidate, mem_modifyFirst_find hp, ?_, rfl⟩
    rw [place_invalidate, place, (isAt_iff.1 ha).1, (isAt_iff.1 ha).2]
  · have ht : type = standardPartType := hs.resolve_right hl
    refine ⟨⟨0, standardPartType, csid, .invalid⟩, ?_, by rw [ht]; rfl, rfl⟩
    simp [pushPart]

theorem Chunk.damaged_new : ∀ p ∈ (c.damaged csid type).parts, p.place ∉ c.parts.map place → p.type = type := by
  unfold damaged
  split_ifs with hl
  · intro p hp hn
    refine absurd (mem_map_of_mem (f := place) hp) ?_
    rw [updateStats_parts, map_modifyFirst fun p _ _ => place_invalidate p]
    exact hn
  · have ht : type = standardPartType := hs.resolve_right hl
    intro p hp hn
    have hp' : p ∈ c.parts ++ [⟨0, standardPartType, csid, .invalid⟩] := hp
    rcases mem_append.1 hp' with hp' | hp'
    · exact absurd (mem_map_of_mem hp') hn
    · rw [mem_singleton.1 hp', ht]

end

theorem Chunk.handleDisconnectedCopies_places {connected : ℕ → Bool} :
    ((c.handleDisconnectedCopies connected).1.parts.map place).Sublist (c.parts.map place) := by
  have hd : ((c.parts.filter fun p => connected p.csid).map place).Sublist
      (c.parts.map place) := filter_sublist.map _
  unfold handleDisconnectedCopies
  extract_lets d
  split_ifs
  · exact List.Sublist.refl _
  · exact hd
  · exact hd
  · have hb : ∀ v, place ∘ begin v = place := fun v => funext (place_begin v)
    change ((d.parts.map (begin _)).map place).Sublist _
    rw [map_map, hb]
    exact hd
  · exact hd

theorem recordsReported_of_sound {m : ChunksMetadata} {env : Env} {chunkid : ℕ}
    (hs : ChunkOp.Sound m (.event env (.damaged csid chunkid type))) : RecordsReported m env csid chunkid type := by
  unfold RecordsReported
  simp only [step, serverEvent, chunkDamaged]
  cases hc : m.chunks chunkid with
  | some c =>
    have hs' : type = standardPartType ∨ (c.handleDisconnectedCopies env.connected).1.lists csid type := by
      refine hs.imp id ?_
      intro ⟨hco, d, hd, hl⟩
      rw [hc, Option.some.injEq] at hd
      rw [lists_handleDisconnectedCopies hco, hd]
      exact hl
    refine ⟨_, by simp, damaged_lists hs', fun p hp hn => damaged_new hs' p hp fun hm => ?_⟩
    exact hn c rfl ((handleDisconnectedCopies_places).subset hm)
  | none =>
    have ht : type = standardPartType := by
      refine hs.resolve_right fun ⟨_, d, hd, _⟩ => ?_
      rw [hc] at hd
      cases hd
    have hs' : type = standardPartType ∨ (new chunkid 0).lists csid type := .inl ht
    exact ⟨_, by simp, damaged_lists hs', fun p hp _ =>
      damaged_new hs' p hp (by simp [new])⟩

/-- **Part-list integrity.** In every run from a table just loaded without a damage report of an unlisted part of
another than the standard type and without a repair to another version over valid parts, every state is intact, and a
further such report records the part under the type it names. -/
theorem part_list_integrity (m : ChunksMetadata) (hm : ∀ chunkid c, m.chunks chunkid = some c → c.parts = [])
    (ops : List ChunkOp) (hok : Stepwise.Along step (fun m op => op.Sound m) m ops) : Intact (run step m ops) ∧
      ∀ env csid chunkid type, ChunkOp.Sound (run step m ops) (.event env (.damaged csid chunkid type)) →
        RecordsReported (run step m ops) env csid chunkid type := by
  have hstart : m.All Integrity := by
    intro chunkid c hc
    have hparts := hm chunkid c hc
    exact ⟨by simp [hparts], by simp [hparts]⟩
  have hend := inv_run step_integrity m ops hok hstart
  refine ⟨fun chunkid c hc => ?_, fun env csid chunkid type hs => recordsReported_of_sound hs⟩
  have hc' := hend chunkid c hc
  exact ⟨hc'.places, fun _ => hc'.versions⟩

/-! ## The two steps that break it -/

/-- all servers connected, at second 1000 -/
def calmEnv : Env := ⟨1000, fun _ => true⟩

/-- one server was found for a new chunk, and any redundancy is enough -/
def oneServer : Choice := ⟨[(1, standardPartType)], by decide, false, 0, 0⟩

/-- a first write to a file: server 1 is to create a standard part of chunk 1 -/
def firstWrite : ChunkOp := .call calmEnv (.modify oneServer 0 0 1 true false)

theorem part_list_integrity_first_write : Intact (run step .empty
        [firstWrite, .event calmEnv (.operationStatus 1 1 standardPartType false),
          .event calmEnv (.damaged 1 1 standardPartType)]) ∧
      RecordsReported (run step .empty
        [firstWrite, .event calmEnv (.operationStatus 1 1 standardPartType false),
          .event calmEnv (.damaged 1 1 standardPartType)]) calmEnv 2 1 standardPartType := by
  have h := part_list_integrity .empty (fun _ _ hc => by cases hc)
    [firstWrite, .event calmEnv (.operationStatus 1 1 standardPartType false),
      .event calmEnv (.damaged 1 1 standardPartType)] ⟨trivial, trivial, .inl rfl, trivial⟩
  exact ⟨h.1, h.2 calmEnv 2 1 standardPartType (.inl rfl)⟩

/-- server 1, which has the standard part of chunk 1, reports a damaged part 1 of a xor2 slice -/
def damageRun : List ChunkOp := [firstWrite, .event calmEnv (.damaged 1 1 ⟨2, 1⟩)]

/-- chunk 1 is complete on server 1 at version 1; server 9 has it at version 2, from before the metadata were restored
from a backup; then the file is repaired -/
def repairRun : List ChunkOp :=
  [firstWrite, .event calmEnv (.operationStatus 1 1 standardPartType false), .call calmEnv (.unlock 1),
    .event calmEnv (.hasChunk 9 1 2 standardPartType), .call calmEnv (.repair 1 1 false)]

theorem damageRun_places : ((run step .empty damageRun).chunks 1).map (fun c => c.parts.map place) =
      some [(1, standardPartType), (1, standardPartType)] := by
  decide +kernel

theorem repairRun_versions : ((run step .empty repairRun).chunks 1).map
        (fun c => (c.operation, c.version, c.parts.map fun p => (p.csid, p.state, p.version))) =
      some (.none, 2, [(1, .valid, 1), (9, .valid, 2)]) := by
  decide +kernel

/-- **Part lists do break.** After `damageRun` the standard part of server 1 is listed twice, and the damaged part was
recorded under a type nobody reported. After `repairRun` a part of version 1 counts as valid in a chunk of version 2. -/
theorem part_list_broken : ¬ Intact (run step .empty damageRun) ∧
      ¬ RecordsReported (run step .empty [firstWrite]) calmEnv 1 1 ⟨2, 1⟩ ∧
      ¬ Intact (run step .empty repairRun) := by
  have hd := damageRun_places
  have hr := repairRun_versions
  refine ⟨fun h => ?_, fun h => ?_, fun h => ?_⟩
  · obtain ⟨c, hc, hplaces⟩ := Option.map_eq_some_iff.1 hd
    have hnodup := (h 1 c hc).1
    rw [hplaces] at hnodup
    exact absurd hnodup (by decide)
  · obtain ⟨c, hc, ⟨p, hp, hplace, -⟩, -⟩ := h
    obtain ⟨c', hc', hplaces⟩ := Option.map_eq_some_iff.1 hd
    have hcc : c = c' := Option.some.inj (hc.symm.trans hc')
    have hmem := mem_map_of_mem (f := place) hp
    rw [hcc, hplaces, hplace] at hmem
    exact absurd hmem (by decide)
  · obtain ⟨c, hc, hall⟩ := Option.map_eq_some_iff.1 hr
    simp only [Prod.mk.injEq] at hall
    obtain ⟨hop, hversion, hparts⟩ := hall
    have hmem : (1, PartState.valid, 1) ∈ c.parts.map fun p => (p.csid, p.state, p.version) := by
      rw [hparts]
      decide
    obtain ⟨p, hp, hpe⟩ := mem_map.1 hmem
    simp only [Prod.mk.injEq] at hpe
    have hvalid : p.isValid := by
      rw [isValid, hpe.2.1]
      rfl
    have hv := (h 1 c hc).2 hop p hp hvalid
    rw [hpe.2.2, hversion] at hv
    exact absurd hv (by decide)

end SaunaFS.Chunks
