/-
The table of chunks (`gChunksMetadata` of `master/chunks.cc`): the functions that the file operations call, and the
messages and jobs that reach a chunk by its id. Chunk ids are 64 bit, versions, lock ids and times 32 bit.

`chunk_find` drops the parts of disconnected servers from the chunk it returns (`onChunk`).
-/
import SaunaFS.Chunks.Chunk

namespace SaunaFS.Chunks

open Chunk

structure ChunksMetadata where
  chunks : ℕ → Option Chunk
  nextchunkid : ℕ

variable {m : ChunksMetadata}

namespace ChunksMetadata

/-- `chunk_newfs` -/
def empty : ChunksMetadata where
  chunks := fun _ => none
  nextchunkid := 1

def set (m : ChunksMetadata) (chunkid : ℕ) (c : Chunk) : ChunksMetadata :=
  { m with chunks := Function.update m.chunks chunkid (some c) }

@[simp] theorem set_chunks {chunkid : ℕ} {c : Chunk} :
    (m.set chunkid c).chunks = Function.update m.chunks chunkid (some c) := rfl

def All (P : Chunk → Prop) (m : ChunksMetadata) : Prop := ∀ chunkid c, m.chunks chunkid = some c → P c

theorem All.set {P : Chunk → Prop} (h : m.All P) (chunkid : ℕ) {c : Chunk} (hc : P c) : (m.set chunkid c).All P := by
  intro id d hd
  rw [set_chunks, Function.update_apply] at hd
  split_ifs at hd with hi
  · cases hd
    exact hc
  · exact h id d hd

end ChunksMetadata

/-- `chunk_find`, then a function of the chunk found -/
def onChunk {α : Type} (env : Env) (m : ChunksMetadata) (chunkid : ℕ) (absent : α)
    (f : Chunk → Chunk × List Effect × α) : ChunksMetadata × List Effect × α :=
  match m.chunks chunkid with
  | none => (m, [], absent)
  | some c =>
    let h := c.handleDisconnectedCopies env.connected
    let r := f h.1
    (m.set chunkid r.1, h.2 ++ r.2.1, r.2.2)

theorem onChunk_all {α : Type} {P : Chunk → Prop} {env : Env} {chunkid : ℕ} {absent : α}
    {f : Chunk → Chunk × List Effect × α} (h : m.All P)
    (hf : ∀ c, m.chunks chunkid = some c → P (f (c.handleDisconnectedCopies env.connected).1).1) :
    (onChunk env m chunkid absent f).1.All P := by
  unfold onChunk
  cases hc : m.chunks chunkid with
  | none => exact h
  | some c => exact h.set chunkid (hf c hc)

/-! ## Calls of the file operations -/

/-- what `chunk_multi_modify` finds out: the servers for a new chunk, all different; whether an empty answer means that
the disks are full; the redundancy a write needs; a random number -/
structure Choice where
  servers : List (ℕ × ChunkPartType)
  distinct : servers.Nodup
  noSpace : Bool
  minRedundantParts : ℤ
  random : ℕ

/-- the calls below, as one type -/
inductive ChunkCall where
  | addFile (chunkid goal : ℕ)
  | deleteFile (chunkid goal : ℕ)
  | changeFile (chunkid prevGoal newGoal : ℕ)
  | unlock (chunkid : ℕ)
  | modify (choice : Choice) (ochunkid lockid goal : ℕ) (usedummylockid quota : Bool)
  | truncate (ochunkid lockid length goal : ℕ) (denyTruncatingParityParts quota : Bool)
  | repair (goal ochunkid : ℕ) (correctOnly : Bool)

variable (env : Env) (m : ChunksMetadata) (chunkid ochunkid versionWithTodelFlag : ℕ) (choice : Choice)

def chunkAddFile (goal : ℕ) : ChunksMetadata × List Effect × Status :=
  onChunk env m chunkid .nochunk fun c => ((c.addFileInt goal).1, [], (c.addFileInt goal).2)

def chunkDeleteFile (goal : ℕ) : ChunksMetadata × List Effect × Status :=
  onChunk env m chunkid .nochunk fun c => ((c.deleteFileInt goal).1, [], (c.deleteFileInt goal).2)

def chunkChangeFile (prevGoal newGoal : ℕ) : ChunksMetadata × List Effect × Status :=
  if prevGoal = newGoal then (m, [], .ok)
  else
    onChunk env m chunkid .nochunk fun c => ((c.changeFile prevGoal newGoal).1, [], (c.changeFile prevGoal newGoal).2)

/-- `chunk_unlock`; the lock id stays, so that a repeated unlock of the client is accepted -/
def chunkUnlock : ChunksMetadata × List Effect × Status :=
  onChunk env m chunkid .nochunk fun c => ({ c with lockedto := 0 }, [], .ok)

/-- the result of `chunk_multi_modify` and `chunk_multi_truncate` -/
structure Modified where
  table : ChunksMetadata
  effects : List Effect
  status : Status
  lockid : ℕ
  opflag : Bool
  nchunkid : ℕ

/-- a failed call, which leaves the output arguments alone -/
def refused (effects : List Effect) (status : Status) (lockid : ℕ) : Modified :=
  ⟨m, effects, status, lockid, false, 0⟩

/-- the lock id of a successful write -/
def chooseLockid (lockid : ℕ) (usedummylockid : Bool) (random : ℕ) : ℕ :=
  if lockid = 0 then (if usedummylockid then 1 else 2 + random % 0xFFFFFFF0) else lockid

/-- the lock taken at the end of both calls -/
def Chunk.lock (now lockid : ℕ) (c : Chunk) : Chunk := { c with lockedto := u32 (now + lockTimeout), lockid := lockid }

/-- a new chunk with its first reference, with parts that are being created on these servers -/
def Chunk.created (operation : Operation) (chunkid goal : ℕ) (places : List (ℕ × ChunkPartType)) : Chunk :=
  let c := (addFileInt goal { new chunkid 1 with operation := operation }).1
  updateStats { c with parts := c.parts ++ places.map fun s => ⟨c.version, s.2, s.1, .busy⟩ }

def Chunk.validPlaces (c : Chunk) : List (ℕ × ChunkPartType) := (c.parts.filter ChunkPart.isValid).map ChunkPart.place

/-- a copy of a shared chunk for the file that is about to change it; the old chunk loses the reference -/
def copyOnWrite (oc : Chunk) (operation : Operation) (goal : ℕ) (lock : Chunk → Chunk) : ChunksMetadata :=
  let c := created operation m.nextchunkid goal oc.validPlaces
  let m := m.set ochunkid (oc.deleteFileInt goal).1
  { m.set m.nextchunkid (lock c) with nextchunkid := u64 (m.nextchunkid + 1) }

/-- `chunk_multi_modify` with `ochunkid == 0` -/
def modifyNew (m : ChunksMetadata) (lockid goal : ℕ) (usedummylockid quota : Bool) : Modified :=
  if quota then refused m [] .quota lockid
  else if choice.servers.isEmpty then refused m [] (if choice.noSpace then .nospace else .nochunkservers) lockid
  else if !isSafeEnoughToWrite (choice.servers.map Prod.snd) choice.minRedundantParts then
    refused m [] .nochunkservers lockid
  else
    let id := m.nextchunkid
    let lockid := chooseLockid lockid usedummylockid choice.random
    let c := (created .create id goal choice.servers).lock env.now lockid
    { table := { m.set id c with nextchunkid := u64 (id + 1) }
      effects := choice.servers.map fun s => .createChunk s.1 id s.2 1
      status := .ok
      lockid := lockid
      opflag := true
      nchunkid := id }

/-- how a write or truncation that is not refused goes on: the chunk is changed itself, or first copied because other
files share it -/
inductive Decision where
  | inPlace
  | copy
deriving DecidableEq

/-- the last checks of both calls, on references and operations in progress -/
def checkReferences (oc : Chunk) (quota : Bool) : Except Status Decision :=
  if oc.fileCount = 1 then (if oc.operation ≠ .none then .error .chunkbusy else .ok .inPlace)
  else if oc.fileCount = 0 then .error .chunklost
  else if quota then .error .quota
  else .ok .copy

def checkModify (oc : Chunk) (lockid : ℕ) (quota : Bool) : Except Status Decision :=
  if lockid ≠ 0 ∧ lockid ≠ oc.lockid then
    .error (if oc.lockid = 0 ∨ oc.lockedto = 0 then .notlocked else .wronglockid)
  else if lockid = 0 ∧ oc.isLocked env.now then .error .locked
  else if !oc.isWritable then .error .chunklost
  else if !isSafeEnoughToWrite (oc.parts.map ChunkPart.type) choice.minRedundantParts then .error .nochunkservers
  else checkReferences oc quota

/-- the version increase of `chunk_multi_modify`, if one is due -/
def Chunk.increaseIfNeeded (c : Chunk) : Chunk × List Effect :=
  if c.needverincrease then c.startSetVersion else (c, [])

def modifyFound (m : ChunksMetadata) (ochunkid : ℕ) (oc : Chunk)
    (effects : List Effect) (lockid goal : ℕ) (usedummylockid quota : Bool) : Modified :=
  let newLockid := chooseLockid lockid usedummylockid choice.random
  match checkModify env choice oc lockid quota with
  | .error status => refused (m.set ochunkid oc) effects status lockid
  | .ok .inPlace =>
    { table := m.set ochunkid (oc.increaseIfNeeded.1.lock env.now newLockid)
      effects := effects ++ oc.increaseIfNeeded.2
      status := .ok
      lockid := newLockid
      opflag := oc.needverincrease
      nchunkid := ochunkid }
  | .ok .copy =>
    { table := copyOnWrite (m.set ochunkid oc) ochunkid oc .duplicate goal (lock env.now newLockid)
      effects := effects ++ oc.validPlaces.map fun s => .duplicateChunk s.1 m.nextchunkid 1 s.2 ochunkid oc.version
      status := .ok
      lockid := newLockid
      opflag := true
      nchunkid := m.nextchunkid }

def chunkMultiModify (m : ChunksMetadata) (ochunkid lockid goal : ℕ) (usedummylockid quota : Bool) : Modified :=
  if ochunkid = 0 then modifyNew env choice m lockid goal usedummylockid quota
  else
    match m.chunks ochunkid with
    | none => refused m [] .nochunk lockid
    | some c =>
      let h := c.handleDisconnectedCopies env.connected
      modifyFound env choice m ochunkid h.1 h.2 lockid goal usedummylockid quota

def checkTruncate (oc : Chunk) (lockid : ℕ) (denyTruncatingParityParts quota : Bool) : Except Status Decision :=
  if !oc.isWritable then .error .chunklost
  else if oc.isLocked env.now ∧ (lockid = 0 ∨ lockid ≠ oc.lockid) then .error .locked
  else if denyTruncatingParityParts ∧ oc.parts.any (fun p => isParityPart p.type) then .error .notpossible
  else checkReferences oc quota

def truncateFound (oc : Chunk) (effects : List Effect)
    (lockid length goal : ℕ) (denyTruncatingParityParts quota : Bool) : Modified :=
  match checkTruncate env oc lockid denyTruncatingParityParts quota with
  | .error status => refused (m.set ochunkid oc) effects status lockid
  | .ok .inPlace =>
    { table := m.set ochunkid ((oc.startTruncate length).1.lock env.now lockid)
      effects := effects ++ (oc.startTruncate length).2
      status := .ok
      lockid := lockid
      opflag := true
      nchunkid := ochunkid }
  | .ok .copy =>
    { table := copyOnWrite (m.set ochunkid oc) ochunkid oc .duptrunc goal (lock env.now lockid)
      effects := effects ++ oc.validPlaces.map fun s =>
        .duptruncChunk s.1 m.nextchunkid 1 s.2 ochunkid oc.version length
      status := .ok
      lockid := lockid
      opflag := true
      nchunkid := m.nextchunkid }

def chunkMultiTruncate (lockid length goal : ℕ) (denyTruncatingParityParts quota : Bool) : Modified :=
  match m.chunks ochunkid with
  | none => refused m [] .nochunk lockid
  | some c =>
    let h := c.handleDisconnectedCopies env.connected
    truncateFound env m ochunkid h.1 h.2 lockid length goal denyTruncatingParityParts quota

/-- `chunk_repair`: whether the reference changed, and `*nversion` -/
def chunkRepair (goal ochunkid : ℕ) (correctOnly : Bool) : ChunksMetadata × List Effect × Bool × ℕ :=
  if ochunkid = 0 then (m, [], false, 0)
  else
    onChunk env m ochunkid (!correctOnly, 0) fun c =>
      ((c.repair env.now goal correctOnly).1, [], (c.repair env.now goal correctOnly).2)

def chunkCall : ChunkCall → ChunksMetadata
  | .addFile chunkid goal => (chunkAddFile env m chunkid goal).1
  | .deleteFile chunkid goal => (chunkDeleteFile env m chunkid goal).1
  | .changeFile chunkid prevGoal newGoal => (chunkChangeFile env m chunkid prevGoal newGoal).1
  | .unlock chunkid => (chunkUnlock env m chunkid).1
  | .modify choice ochunkid lockid goal dummy quota =>
      (chunkMultiModify env choice m ochunkid lockid goal dummy quota).table
  | .truncate ochunkid lockid length goal deny quota =>
    (chunkMultiTruncate env m ochunkid lockid length goal deny quota).table
  | .repair goal ochunkid correctOnly => (chunkRepair env m goal ochunkid correctOnly).1

/-! ## Messages and jobs -/

def chunkSetNextChunkid (next : ℕ) : ChunksMetadata × Status :=
  if m.nextchunkid ≤ next then ({ m with nextchunkid := next }, .ok) else (m, .mismatch)

def getChunkVersion : ℕ := versionWithTodelFlag % 2 ^ 31

def getTodelFlag : Bool := decide (versionWithTodelFlag / 2 ^ 31 % 2 = 1)

/-- what reaches a chunk from outside the file operations -/
inductive ServerEvent where
  | hasChunk (csid chunkid versionWithTodelFlag : ℕ) (type : ChunkPartType)
  | damaged (csid chunkid : ℕ) (type : ChunkPartType)
  | lost (csid chunkid : ℕ) (type : ChunkPartType)
  | deleteStatus (csid chunkid : ℕ) (type : ChunkPartType)
  | replicateStatus (csid chunkid version : ℕ) (type : ChunkPartType) (failed : Bool)
  | operationStatus (csid chunkid : ℕ) (type : ChunkPartType) (failed : Bool)
  | jobs (chunkid : ℕ) (allowed : ChunkPart → Bool) (job : Job)
  | visit (chunkid : ℕ)
  | deleteUnused (chunkid : ℕ)

def fsSetNextchunkid (next : ℕ) : ChunksMetadata × List Effect :=
  ((chunkSetNextChunkid m next).1, if (chunkSetNextChunkid m next).2 = .ok then [.nextchunkid next] else [])

/-- a chunk that only a chunkserver knows, created for future deletion -/
def Chunk.unknown (now chunkid version : ℕ) : Chunk :=
  { new chunkid version with lockedto := u32 (now + unusedDeleteTimeout), lockid := 0 }

def chunkServerHasChunk (csid chunkid versionWithTodelFlag : ℕ)
    (type : ChunkPartType) : ChunksMetadata × List Effect :=
  let version := getChunkVersion versionWithTodelFlag
  let todel := getTodelFlag versionWithTodelFlag
  match m.chunks chunkid with
  | some c =>
    let h := c.handleDisconnectedCopies env.connected
    (m.set chunkid (h.1.serverHasChunk csid type version todel), h.2)
  | none =>
    let r := if m.nextchunkid ≤ chunkid then fsSetNextchunkid m (u64 (chunkid + 1)) else (m, [])
    (r.1.set chunkid ((unknown env.now chunkid version).serverHasChunk csid type version todel), r.2)

/-- `chunk_damaged`; here the next chunk id is raised without a changelog entry -/
def chunkDamaged (csid chunkid : ℕ) (type : ChunkPartType) : ChunksMetadata × List Effect :=
  match m.chunks chunkid with
  | some c =>
    let h := c.handleDisconnectedCopies env.connected
    (m.set chunkid (h.1.damaged csid type), h.2)
  | none =>
    let m := if m.nextchunkid ≤ chunkid then { m with nextchunkid := u64 (chunkid + 1) } else m
    (m.set chunkid ((new chunkid 0).damaged csid type), [])

/-- a message or job that does nothing for an unknown chunk -/
def onKnown (f : Chunk → Chunk × List Effect) : ChunksMetadata × List Effect :=
  let r := onChunk env m chunkid () fun c => ((f c).1, (f c).2, ())
  (r.1, r.2.1)

def chunkDeleteUnused : ChunksMetadata × List Effect :=
  match m.chunks chunkid with
  | none => (m, [])
  | some c =>
    let h := c.handleDisconnectedCopies env.connected
    if h.1.fileCount = 0 ∧ h.1.parts = [] then
      ({ m with chunks := Function.update m.chunks chunkid none }, h.2)
    else (m.set chunkid h.1, h.2)

def serverEvent : ServerEvent → ChunksMetadata × List Effect
  | .hasChunk csid chunkid version type => chunkServerHasChunk env m csid chunkid version type
  | .damaged csid chunkid type => chunkDamaged env m csid chunkid type
  | .lost csid chunkid type => onKnown env m chunkid fun c => (c.lost csid type, [])
  | .deleteStatus csid chunkid type => onKnown env m chunkid fun c => (c.gotDeleteStatus csid type, [])
  | .replicateStatus csid chunkid version type failed =>
    onKnown env m chunkid fun c => (c.gotReplicateStatus env.now csid type version failed, [])
  | .operationStatus csid chunkid type failed => onKnown env m chunkid (operationStatus csid type failed)
  | .jobs chunkid allowed job => onKnown env m chunkid (doChunkJobs env.now allowed job)
  | .visit chunkid => onKnown env m chunkid fun c => (c, [])
  | .deleteUnused chunkid => chunkDeleteUnused env m chunkid

/-! ## Runs -/

/-- one step of a master: a call of a file operation, or a message or job, at some time and with some servers there -/
inductive ChunkOp where
  | call (env : Env) (call : ChunkCall)
  | event (env : Env) (event : ServerEvent)

def step : ChunkOp → ChunksMetadata
  | .call env call => chunkCall env m call
  | .event env event => (serverEvent env m event).1

end SaunaFS.Chunks
