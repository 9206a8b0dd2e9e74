/-
The descriptors of an open chunk: `hddIOBegin` and `hddIOEnd` of `chunkserver-common/hdd_utils.cc` over the pool of
`chunkserver-common/indexed_resource_pool.h`, whose list of released descriptors has the one released first in front.

What the system answers to a call is an argument of it. The entries of other chunks come and go in the list; which
chunks `freeUnused` can lock is left open. `crc` and `begun` record where the CRC table of the open chunk comes from and
how many begins have succeeded and were not ended yet.
-/
import SaunaFS.Lib.Stepwise
import SaunaFS.Chunks.ChunkPart

namespace SaunaFS.Chunkserver.OpenChunk

open Chunks Stepwise OpenChunk

/-! ## The chunk and the pool -/

structure Key where
  id : ℕ
  type : ChunkPartType
deriving DecidableEq

structure ChunkSignature where
  hasValidSignatureId : Bool
  chunkId : ℕ
  chunkVersion : ℕ
  chunkType : ChunkPartType
deriving DecidableEq

/-- the CRC table: not read, read behind a signature for the version asked for, or that of a new chunk -/
inductive CrcTable where
  | unread
  | read (signature : ChunkSignature) (version : ℕ)
  | created
deriving DecidableEq

/-- the chunk, with descriptors below 0 if they are not open, and the list of the pool with its timestamps -/
structure State where
  metaFD : ℤ := -1
  dataFD : ℤ := -1
  refCount : ℕ := 0
  wasChanged : Bool := false
  crc : CrcTable := .unread
  begun : ℕ := 0
  released : List (ℤ × ℕ) := []

namespace State

variable (s : State)

def erase (id : ℤ) : State := { s with released := s.released.filter (·.1 ≠ id) }

def acquire (id : ℤ) : State := if id < 0 then s else s.erase id

def release (id : ℤ) (timestamp : ℕ) : State :=
  if id ≤ 0 then s else { s with released := (s.erase id).released ++ [(id, timestamp)] }

/-- an entry leaves the pool, and `~OpenChunk` closes the descriptors of its chunk -/
def free (id : ℤ) : State :=
  if id = s.metaFD then { s.erase id with metaFD := -1, dataFD := -1 } else s.erase id

/-- the loop of `freeUnused`, behind the entries that were skipped; timestamps have 32 bits -/
def freeLoop (canRemove : ℤ → Bool) (now : ℕ) : ℕ → ℕ → ℕ → State → State
  | 0, _, _, s => s
  | n + 1, skipped, count, s =>
    match s.released[skipped]? with
    | none => s
    | some (id, timestamp) =>
      if count = 0 ∨ now < (timestamp + 4) % 2 ^ 32 then s
      else if canRemove id then freeLoop canRemove now n skipped (count - 1) (s.free id)
      else freeLoop canRemove now n (skipped + 1) count s

def freeUnused (canRemove : ℤ → Bool) (now count : ℕ) : State := freeLoop canRemove now s.released.length 0 count s

end State

/-! ## Beginning and ending -/

/-- `creat` or `open`: both descriptors and whether `errno` is `ENFILE`; then, what can be freed -/
structure Attempt where
  metaFD : ℤ
  dataFD : ℤ
  enfile : Bool
  canRemove : ℤ → Bool

structure BeginIO where
  now : ℕ
  canRemove : ℤ → Bool
  attempts : ℕ → Attempt
  version : ℕ
  signature : Option ChunkSignature
  crcIsRead : Bool

structure EndIO where
  now : ℕ
  writeCrc : Bool
  performFsync : Bool
  fsync : Bool

def maxUInt32Number : ℕ := 2 ^ 32 - 1

/-- the attempts to open the files, numbered backwards; the entry of a new descriptor has a table of its own -/
def tryOpen (attempts : ℕ → Attempt) : ℕ → State → State
  | 0, s => s
  | n + 1, s =>
    let a := attempts n
    let s := { s with metaFD := a.metaFD, dataFD := a.dataFD }
    if 0 ≤ a.metaFD then { s.erase a.metaFD with crc := .unread }
    else if a.enfile then tryOpen attempts n (s.freeUnused a.canRemove maxUInt32Number 4)
    else s

/-- `none` for an error -/
def readChunkCrc (k : Key) (chunkVersion : ℕ) (io : BeginIO) : Option CrcTable := do
  let signature ← io.signature
  let version := if chunkVersion = maxUInt32Number then io.version else chunkVersion
  if signature.hasValidSignatureId ∧ k.id = signature.chunkId ∧ version = signature.chunkVersion ∧
      k.type = signature.chunkType ∧ io.crcIsRead then
    some (.read signature version)
  else none

/-- a begin that returns OK; the counter has 16 bits -/
def begin (table : CrcTable) (s : State) : State :=
  { s with crc := table, refCount := (s.refCount + 1) % 2 ^ 16, begun := s.begun + 1 }

/-- the descriptors are taken out of the list, or opened -/
def openFiles (io : BeginIO) (s : State) : State :=
  if s.metaFD < 0 then tryOpen io.attempts 4 (s.freeUnused io.canRemove io.now 4) else s.acquire s.metaFD

/-- `hddIOBegin`: whether it returns OK, and the new state -/
def hddIOBegin (k : Key) (newFlag : Bool) (chunkVersion : ℕ) (io : BeginIO) (s : State) : Bool × State :=
  if s.refCount = 0 then
    let t := openFiles io s
    if t.metaFD < 0 then (false, t)
    else if newFlag then (true, begin .created t)
    -- the header is read only if the files have just been opened
    else if s.metaFD < 0 then
      match readChunkCrc k chunkVersion io with
      | none => (false, t.release t.metaFD io.now)
      | some table => (true, begin table t)
    else (true, begin t.crc t)
  else (true, begin s.crc s)

/-- `hddIOEnd`, which `begun` counts whatever comes of it -/
def hddIOEnd (io : EndIO) (s : State) : Bool × State :=
  let s := { s with begun := s.begun - 1 }
  if s.wasChanged ∧ ¬ (io.writeCrc ∧ (io.performFsync → io.fsync)) then (false, s)
  else
    let t := { s with wasChanged := false, refCount := s.refCount - 1 }
    (true, if s.refCount = 1 then t.release t.metaFD io.now else t)

inductive Event where
  | ioBegin (newFlag : Bool) (chunkVersion : ℕ) (io : BeginIO)
  | ioEnd (io : EndIO)
  | write
  | freeUnused (canRemove : ℤ → Bool) (now count : ℕ)
  | others (released : List (ℤ × ℕ))

def step (k : Key) (s : State) : Event → State
  | .ioBegin newFlag chunkVersion io => (hddIOBegin k newFlag chunkVersion io s).2
  | .ioEnd io => (hddIOEnd io s).2
  | .write => { s with wasChanged := true }
  | .freeUnused canRemove now count => s.freeUnused canRemove now count
  | .others released => { s with released := released }

def init : State := {}

/-! ## The list has what is open and not in use -/

/-- a chunk that is being begun is `held` -/
structure Inv (held : Bool) (s : State) : Prop where
  ids : ∀ e ∈ s.released, 0 < e.1
  listed : (∃ e ∈ s.released, e.1 = s.metaFD) ↔ 0 ≤ s.metaFD ∧ s.refCount = 0 ∧ held = false
  positive : s.metaFD ≠ 0
  busy : s.refCount ≠ 0 → 0 ≤ s.metaFD
  data : s.metaFD < 0 → s.dataFD < 0

variable {k : Key} {held : Bool} {s : State} {id : ℤ}

theorem mem_erase {e : ℤ × ℕ} : e ∈ (s.erase id).released ↔ e ∈ s.released ∧ e.1 ≠ id := by
  simp [State.erase]

theorem Inv.erase (h : Inv held s) : Inv true (s.erase s.metaFD) :=
  { h with
    ids := fun e he => h.ids e (mem_erase.1 he).1
    listed := ⟨fun ⟨e, he, hi⟩ => absurd hi (mem_erase.1 he).2, fun hk => by simp at hk⟩ }

theorem Inv.free (h : Inv held s) (hm : ∃ e ∈ s.released, e.1 = id) : Inv held (s.free id) := by
  unfold State.free
  split_ifs with hid
  · obtain ⟨-, hz, -⟩ := h.listed.1 (hid ▸ hm)
    have hi : ∀ e ∈ (s.erase id).released, 0 < e.1 := fun e he => h.ids e (mem_erase.1 he).1
    refine ⟨hi, ⟨fun ⟨e, he, heq⟩ => ?_, by simp⟩, by simp, fun hb => absurd hz hb, by simp⟩
    have hp := hi e he
    simp_all
  · refine { h with
      ids := fun e he => h.ids e (mem_erase.1 he).1
      listed := Iff.trans (exists_congr fun e => ?_) h.listed }
    rw [mem_erase]
    exact ⟨fun he => ⟨he.1.1, he.2⟩, fun he => ⟨⟨he.1, fun heq => hid (heq.symm.trans he.2)⟩, he.2⟩⟩

theorem Inv.freeLoop {canRemove : ℤ → Bool} {now n skipped count : ℕ} (h : Inv held s) :
    Inv held (s.freeLoop canRemove now n skipped count) := by
  induction n generalizing s skipped count with
  | zero => exact h
  | succ n ih =>
    unfold State.freeLoop
    split
    · exact h
    · rename_i id timestamp he
      split_ifs
      · exact h
      · exact ih (h.free ⟨_, List.mem_of_getElem? he, rfl⟩)
      · exact ih h

/-- the counters, which freeing and opening leave alone -/
def State.counts (s : State) : ℕ × ℕ := (s.refCount, s.begun)

/-- freeing leaves the table alone and opens nothing -/
theorem free_spec : (s.free id).counts = s.counts ∧ (s.free id).crc = s.crc ∧
    (0 ≤ (s.free id).metaFD → 0 ≤ s.metaFD) := by
  unfold State.free
  split_ifs <;> simp [State.erase, State.counts]

theorem freeLoop_spec {canRemove : ℤ → Bool} {now n skipped count : ℕ} :
    (s.freeLoop canRemove now n skipped count).counts = s.counts ∧
      (s.freeLoop canRemove now n skipped count).crc = s.crc ∧
      (0 ≤ (s.freeLoop canRemove now n skipped count).metaFD → 0 ≤ s.metaFD) := by
  induction n generalizing s skipped count with
  | zero => exact ⟨rfl, rfl, fun h => h⟩
  | succ n ih =>
    unfold State.freeLoop
    split
    · exact ⟨rfl, rfl, fun h => h⟩
    · split_ifs
      · exact ⟨rfl, rfl, fun h => h⟩
      · exact ⟨ih.1.trans free_spec.1, ih.2.1.trans free_spec.2.1, free_spec.2.2 ∘ ih.2.2⟩
      · exact ih

/-- without a descriptor it makes no difference whether the chunk is held -/
theorem Inv.of_closed {held' : Bool} (h : Inv held s) (hn : s.metaFD < 0) : Inv held' s :=
  { h with listed := by simp [h.listed, not_le.2 hn] }

theorem Inv.release (h : Inv true s) (hz : s.refCount = 0) (ts : ℕ) : Inv false (s.release s.metaFD ts) := by
  unfold State.release
  split
  · exact h.of_closed (lt_of_le_of_ne ‹_› h.positive)
  · rename_i hp
    push Not at hp
    refine { h with
      ids := fun e he => ?_
      listed := ⟨fun _ => ⟨hp.le, hz, rfl⟩, fun _ => ⟨(s.metaFD, ts), by simp, rfl⟩⟩ }
    rcases List.mem_append.1 he with he | he
    · exact h.ids e (mem_erase.1 he).1
    · rwa [List.mem_singleton.1 he]

/-! ## Opening -/

/-- the system opens no descriptor twice, and no data file without its metadata file -/
def Sane (attempts : ℕ → Attempt) : ℕ → State → Prop
  | 0, _ => True
  | n + 1, s =>
    let a := attempts n
    a.metaFD ≠ 0 ∧ (0 ≤ a.metaFD → ∀ e ∈ s.released, e.1 ≠ a.metaFD) ∧ (a.metaFD < 0 → a.dataFD < 0 ∧
      Sane attempts n ({ s with metaFD := a.metaFD, dataFD := a.dataFD }.freeUnused a.canRemove maxUInt32Number 4))

theorem Inv.tryOpen {attempts : ℕ → Attempt} {n : ℕ} (h : Inv true s) (hz : s.refCount = 0) (hn : s.metaFD < 0)
    (hs : Sane attempts n s) : Inv true (tryOpen attempts n s) ∧ (tryOpen attempts n s).counts = s.counts ∧
      (0 ≤ (tryOpen attempts n s).metaFD → (tryOpen attempts n s).crc = .unread) := by
  induction n generalizing s with
  | zero => exact ⟨h, rfl, fun hp => absurd hn (not_lt.2 hp)⟩
  | succ n ih =>
    obtain ⟨hne, hfr, hf⟩ := hs
    have ho : Inv true { s with metaFD := (attempts n).metaFD, dataFD := (attempts n).dataFD } := by
      refine ⟨h.ids, ⟨fun ⟨e, he, hi⟩ => ?_, by simp⟩, hne, fun hb => absurd hz hb, fun hn => (hf hn).1⟩
      have hi : e.1 = (attempts n).metaFD := hi
      exact absurd hi (hfr (hi ▸ (h.ids e he).le) e he)
    unfold tryOpen
    dsimp only
    split_ifs with hp hen
    · exact ⟨{ ho.erase with }, rfl, fun _ => rfl⟩
    · obtain ⟨hin, hc, hcr⟩ := ih ho.freeLoop ((congrArg Prod.fst freeLoop_spec.1).trans hz)
        (not_le.1 fun hp' => hp (freeLoop_spec.2.2 hp')) (hf (not_le.1 hp)).2
      exact ⟨hin, hc.trans freeLoop_spec.1, hcr⟩
    · exact ⟨ho, rfl, fun hp' => absurd hp' hp⟩

/-- the table of descriptors that were open stays, that of new ones is not read -/
theorem Inv.openFiles {io : BeginIO} (h : Inv false s) (hz : s.refCount = 0)
    (hs : s.metaFD < 0 → Sane io.attempts 4 (s.freeUnused io.canRemove io.now 4)) :
    Inv true (openFiles io s) ∧ (openFiles io s).counts = s.counts ∧
      (0 ≤ (openFiles io s).metaFD →
        (openFiles io s).crc = if s.metaFD < 0 then .unread else s.crc) := by
  unfold OpenChunk.openFiles
  split_ifs with hn
  · obtain ⟨hi, hc, hcr⟩ := (h.of_closed hn).freeLoop.tryOpen ((congrArg Prod.fst freeLoop_spec.1).trans hz)
      (not_le.1 fun hp => (not_le.2 hn) (freeLoop_spec.2.2 hp)) (hs hn)
    exact ⟨hi, hc.trans freeLoop_spec.1, hcr⟩
  · rw [State.acquire, if_neg hn]
    exact ⟨h.erase, rfl, fun _ => rfl⟩

/-! ## The calls -/

/-- the counter does not wrap around, the system opens no descriptor twice, and other chunks leave the entry alone -/
def Sound (s : State) : Event → Prop
  | .ioBegin _ _ io => s.refCount + 1 < 2 ^ 16 ∧
      (s.metaFD < 0 → Sane io.attempts 4 (s.freeUnused io.canRemove io.now 4))
  | .others released => (∀ e ∈ released, 0 < e.1) ∧
      ((∃ e ∈ released, e.1 = s.metaFD) ↔ ∃ e ∈ s.released, e.1 = s.metaFD)
  | _ => True

/-- the table was read behind a signature of the chunk and of the version asked for -/
def CrcTable.verified (k : Key) : CrcTable → Bool
  | .read g version => g.hasValidSignatureId ∧ g.chunkId = k.id ∧ g.chunkVersion = version ∧ g.chunkType = k.type
  | _ => false

theorem verified_readChunkCrc {chunkVersion : ℕ} {io : BeginIO} {table : CrcTable}
    (h : readChunkCrc k chunkVersion io = some table) : table.verified k := by
  unfold readChunkCrc at h
  obtain ⟨g, -, h⟩ := Option.bind_eq_some_iff.1 h
  dsimp only at h
  generalize (if chunkVersion = maxUInt32Number then io.version else chunkVersion) = version at h
  split at h
  · rename_i hm
    cases h
    simp [CrcTable.verified, hm]
  · cases h

theorem Inv.begin (h : Inv held s) (ho : 0 ≤ s.metaFD) (hf : ¬ (s.refCount = 0 ∧ held = false))
    (hw : s.refCount + 1 < 2 ^ 16) (table : CrcTable) : Inv false (begin table s) := by
  refine { h with listed := h.listed.trans ?_, busy := fun _ => ho }
  have hr : (OpenChunk.begin table s).refCount = s.refCount + 1 := Nat.mod_eq_of_lt hw
  simp [hr, hf]

/-- the table of a begin that returns OK: that of a new chunk, one that was just read, or the one of the open
descriptors -/
def TableOf (k : Key) (newFlag : Bool) (s : State) (table : CrcTable) : Prop :=
  if newFlag = true ∧ s.refCount = 0 then table = .created
  else if s.metaFD < 0 then table.verified k = true
  else table = s.crc

/-- **What a begin does**: it opens and frees descriptors and, if it returns OK, counts. If it fails, the
table of what it leaves open was not read. -/
theorem hddIOBegin_spec {newFlag : Bool} {chunkVersion : ℕ} {io : BeginIO} (h : Inv false s)
    (hs : Sound s (.ioBegin newFlag chunkVersion io)) : ∃ t table, t.counts = s.counts ∧
      (hddIOBegin k newFlag chunkVersion io s = (false, t) ∧ Inv false t ∧ (0 ≤ t.metaFD → t.crc = .unread) ∨
        hddIOBegin k newFlag chunkVersion io s = (true, begin table t) ∧ Inv false (begin table t) ∧ 0 ≤ t.metaFD ∧
          TableOf k newFlag s table) := by
  obtain ⟨hw, hsa⟩ := hs
  unfold hddIOBegin
  by_cases hz : s.refCount = 0
  · obtain ⟨hi, hc, hcr⟩ := h.openFiles hz hsa
    rw [if_pos hz]
    generalize openFiles io s = t at *
    have hz' : t.refCount = 0 := (congrArg Prod.fst hc).trans hz
    have hb (ho : 0 ≤ t.metaFD) (table : CrcTable) : Inv false (begin table t) :=
      hi.begin ho (by simp) (by simp [hz']) table
    dsimp only
    split_ifs with hn hne ha
    · exact ⟨t, .unread, hc, .inl ⟨rfl, hi.of_closed hn, fun hp => absurd hn (not_lt.2 hp)⟩⟩
    · exact ⟨t, .created, hc, .inr ⟨rfl, hb (not_lt.1 hn) _, not_lt.1 hn, by simp [TableOf, hne, hz]⟩⟩
    · cases hr : readChunkCrc k chunkVersion io with
      | none =>
        refine ⟨_, .unread, ?_, .inl ⟨rfl, hi.release hz' io.now, ?_⟩⟩
        · rw [← hc, State.release]
          split <;> rfl
        · have hun := hcr (not_lt.1 hn)
          rw [State.release]
          split <;> simp_all
      | some table =>
        exact ⟨t, table, hc, .inr ⟨rfl, hb (not_lt.1 hn) _, not_lt.1 hn,
          by simp [TableOf, hne, ha, verified_readChunkCrc hr]⟩⟩
    · exact ⟨t, _, hc, .inr ⟨rfl, hb (not_lt.1 hn) _, not_lt.1 hn, by simp [TableOf, hne, ha, hcr (not_lt.1 hn)]⟩⟩
  · rw [if_neg hz]
    have ho := h.busy hz
    exact ⟨s, _, rfl, .inr ⟨rfl, h.begin ho (by simp [hz]) hw _, ho, by simp [TableOf, hz, not_lt.2 ho]⟩⟩

theorem Inv.hddIOEnd {io : EndIO} (h : Inv false s) : Inv false (hddIOEnd io s).2 := by
  unfold OpenChunk.hddIOEnd
  dsimp only
  split_ifs with hf ho
  · exact { h with }
  · have hh : Inv true { s with begun := s.begun - 1, wasChanged := false, refCount := s.refCount - 1 } := by
      refine { h with listed := h.listed.trans ?_, busy := fun _ => h.busy (by omega) }
      simp [ho]
    exact hh.release (Nat.sub_eq_zero_of_le ho.le) io.now
  · have hz : s.refCount - 1 = 0 ↔ s.refCount = 0 := by omega
    refine { h with listed := h.listed.trans ?_, busy := fun hb => h.busy (mt hz.2 hb) }
    simp [hz]

variable {event : Event}

theorem Inv.step (h : Inv false s) (hs : Sound s event) : Inv false (step k s event) := by
  cases event with
  | ioBegin newFlag chunkVersion io =>
    change Inv false (hddIOBegin k newFlag chunkVersion io s).2
    obtain ⟨t, table, -, ⟨he, hi, -⟩ | ⟨he, hi, -⟩⟩ := hddIOBegin_spec h hs
    · rwa [he]
    · rwa [he]
  | ioEnd io => exact h.hddIOEnd
  | write => exact { h with }
  | freeUnused canRemove now count => exact h.freeLoop
  | others released => exact { h with ids := hs.1, listed := hs.2.trans h.listed }

theorem inv_init : Inv false init := ⟨by simp [init], by simp [init], by decide, by decide, by decide⟩

/-! ## Verification -/

/-- a call raises doubt about the table of the open descriptors: a begin that fails, or that makes the chunk -/
def raisesDoubt (k : Key) (s : State) : Event → Bool
  | .ioBegin newFlag chunkVersion io => !(hddIOBegin k newFlag chunkVersion io s).1 || newFlag && s.refCount == 0
  | _ => false

/-- open descriptors are verified or in doubt -/
def DoubtIs (k : Key) (doubt : Bool) (s : State) : Prop := doubt = (decide (0 ≤ s.metaFD) && !s.crc.verified k)

variable {doubt : Bool}

theorem DoubtIs.same {t : State} (h : DoubtIs k doubt s) (hc : t.crc = s.crc)
    (ho : 0 ≤ t.metaFD → 0 ≤ s.metaFD) : DoubtIs k (decide (0 ≤ t.metaFD) && (doubt || false)) t := by
  unfold DoubtIs at *
  by_cases hp : 0 ≤ t.metaFD
  · simp [h, hc, hp, ho hp]
  · simp [hp]

theorem metaFD_hddIOEnd {io : EndIO} : (hddIOEnd io s).2.crc = s.crc ∧ (hddIOEnd io s).2.metaFD = s.metaFD := by
  unfold hddIOEnd State.release
  dsimp only
  split_ifs <;> exact ⟨rfl, rfl⟩

theorem DoubtIs.step (h : DoubtIs k doubt s) (hi : Inv false s) (hs : Sound s event) :
    DoubtIs k (decide (0 ≤ (step k s event).metaFD) && (doubt || raisesDoubt k s event)) (step k s event) := by
  cases event with
  | ioBegin newFlag chunkVersion io =>
    simp only [step, raisesDoubt]
    obtain ⟨t, table, hc, ⟨he, -, hun⟩ | ⟨he, -, ho, ht⟩⟩ := hddIOBegin_spec (k := k) hi hs
    · by_cases hp : 0 ≤ t.metaFD
      · simp [DoubtIs, he, hp, hun hp, CrcTable.verified]
      · simp [DoubtIs, he, hp]
    · unfold TableOf at ht
      unfold DoubtIs at h ⊢
      split_ifs at ht with hnew hneg <;> simp_all [begin, CrcTable.verified]
  | ioEnd io => exact h.same metaFD_hddIOEnd.1 fun hp => hp.trans_eq metaFD_hddIOEnd.2
  | write => exact h.same rfl id
  | freeUnused canRemove now count => exact h.same freeLoop_spec.2.1 freeLoop_spec.2.2
  | others released => exact h.same rfl id

variable {es : List Event}

def someChunk : Key := ⟨7, standardPartType⟩

/-- the files of the chunk can be opened; its header may be unreadable -/
def opening (signature : Option ChunkSignature) : BeginIO :=
  ⟨0, fun _ => false, fun _ => ⟨3, 4, false, fun _ => false⟩, 1, signature, true⟩

def readable : BeginIO := opening (some ⟨true, 7, 1, standardPartType⟩)

theorem sound_opening {signature : Option ChunkSignature} :
    Sound init (.ioBegin false maxUInt32Number (opening signature)) := by
  simp [Sound, Sane, opening, init, State.freeUnused, State.freeLoop]

/-- an end ends something, and what it has to write gets to the disk -/
def Settles (s : State) (event : Event) : Prop :=
  Sound s event ∧ match event with
    | .ioEnd io => 0 < s.begun ∧ (s.wasChanged → io.writeCrc ∧ (io.performFsync → io.fsync))
    | _ => True

theorem counted_step (hi : Inv false s) (hs : Settles s event) (h : s.refCount = s.begun) :
    (step k s event).refCount = (step k s event).begun := by
  have hk {t : State} (ht : t.counts = s.counts) : t.refCount = t.begun :=
    (congrArg Prod.fst ht).trans (h.trans (congrArg Prod.snd ht).symm)
  cases event with
  | ioBegin newFlag chunkVersion io =>
    dsimp only [step]
    obtain ⟨t, table, hc, ⟨he, -⟩ | ⟨he, -⟩⟩ := hddIOBegin_spec hi hs.1
    · rw [he]
      exact hk hc
    · have hr : t.refCount = s.refCount := congrArg Prod.fst hc
      rw [he]
      exact (Nat.mod_eq_of_lt (hr ▸ hs.1.1)).trans (congrArg (· + 1) (hk hc))
  | ioEnd io =>
    obtain ⟨-, hp, hw⟩ := hs
    dsimp only [step, hddIOEnd]
    rw [if_neg fun hf => hf.2 (hw hf.1)]
    unfold State.release
    split_ifs <;> exact congrArg (· - 1) h
  | write => exact h
  | freeUnused canRemove now count => exact hk freeLoop_spec.1
  | others released => exact h

/-- **No descriptor is leaked.** In a run in which every end writes what it has to write, `refCount` counts the begins
that have not been ended, and if it is zero and a descriptor is open, the chunk is in the list of the pool. -/
theorem descriptors_accounted (h : Along (step k) Settles init es) :
    (run (step k) init es).refCount = (run (step k) init es).begun ∧ ((run (step k) init es).refCount = 0 →
      0 ≤ (run (step k) init es).metaFD ∨ 0 ≤ (run (step k) init es).dataFD →
        ∃ e ∈ (run (step k) init es).released, e.1 = (run (step k) init es).metaFD) := by
  have hboth := inv_run (P := fun s => Inv false s ∧ s.refCount = s.begun)
    (fun s event hs hboth => ⟨hboth.1.step hs.1, counted_step hboth.1 hs hboth.2⟩) init es h ⟨inv_init, rfl⟩
  generalize run (step k) init es = s at *
  refine ⟨hboth.2, fun hzero hopen => hboth.1.listed.2 ⟨?_, hzero, rfl⟩⟩
  by_contra hneg
  exact hopen.elim hneg (not_le.2 (hboth.1.data (not_le.1 hneg)))

def served : List Event := [.ioBegin false maxUInt32Number readable, .ioEnd ⟨5, true, false, true⟩]

theorem descriptors_accounted_opening : ∃ e ∈ (run (step someChunk) init served).released, e.1 = 3 :=
  (@descriptors_accounted someChunk served ⟨⟨sound_opening, trivial⟩, ⟨trivial, by decide⟩, trivial⟩).2
    (by decide) (by decide)

/-- **Leaked descriptors.** A begin is counted for good if the table cannot be written at its end, and the data file
stays open if the metadata file cannot be opened. -/
theorem descriptors_leaked :
    let unwritten := run (step someChunk) init
      [.ioBegin false maxUInt32Number readable, .write, .ioEnd ⟨5, false, false, true⟩]
    let half := (hddIOBegin someChunk false maxUInt32Number
      { readable with attempts := fun _ => ⟨-1, 4, false, fun _ => false⟩ } init).2
    unwritten.refCount = 1 ∧ unwritten.begun = 0 ∧ half.refCount = 0 ∧ half.dataFD = 4 ∧ half.released = [] := by
  decide

end SaunaFS.Chunkserver.OpenChunk
