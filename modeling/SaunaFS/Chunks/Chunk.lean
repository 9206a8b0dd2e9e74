/-
One chunk as the master keeps it (`Chunk` of `master/chunks.cc`) and what each event does to it. A function returns the
new chunk and, in order, the commands to chunkservers, outcomes for a waiting client and changelog entries it sends.

Time, the connected chunkservers and what the worker reads of usage, labels and load are parameters. Statistics, the
checksum and the queue of endangered chunks are left out.
-/
import SaunaFS.Status
import SaunaFS.Lib.ModifyFirst
import SaunaFS.Chunks.GoalCounters
import SaunaFS.Chunks.ChunkPart

namespace SaunaFS.Chunks

open ModifyFirst ChunkPart

/-- 32-bit wrap-around -/
def u32 (n : ℕ) : ℕ := n % 2 ^ 32

/-- 64-bit wrap-around -/
def u64 (n : ℕ) : ℕ := n % 2 ^ 64

def lockTimeout : ℕ := 120

def unusedDeleteTimeout : ℕ := 86400 * 7

inductive Operation where
  | none
  | create
  | setVersion
  | duplicate
  | truncate
  | duptrunc
deriving DecidableEq

/-- what a function of the chunk module sends: `matocsserv_send_*`, `matoclserv_chunk_status` and `fs_changelog`.
The length of a truncation is the one of the chunk; the message has it converted to the part. -/
inductive Effect where
  | createChunk (csid chunkid : ℕ) (type : ChunkPartType) (version : ℕ)
  | setChunkVersion (csid chunkid version oldVersion : ℕ) (type : ChunkPartType)
  | duplicateChunk (csid chunkid version : ℕ) (type : ChunkPartType) (ochunkid oversion : ℕ)
  | truncateChunk (csid chunkid : ℕ) (type : ChunkPartType) (length version oldVersion : ℕ)
  | duptruncChunk (csid chunkid version : ℕ) (type : ChunkPartType) (ochunkid oversion length : ℕ)
  | deleteChunk (csid chunkid version : ℕ) (type : ChunkPartType)
  | replicateChunk (csid chunkid version : ℕ) (type : ChunkPartType) (sources : List (ℕ × ChunkPartType))
  | chunkStatus (chunkid : ℕ) (status : Status)
  | incversion (chunkid : ℕ)
  | nextchunkid (next : ℕ)
deriving DecidableEq

structure Chunk where
  chunkid : ℕ
  parts : List ChunkPart
  goalCounters : ChunkGoalCounters
  version : ℕ
  lockid : ℕ
  lockedto : ℕ
  needverincrease : Bool
  interrupted : Bool
  operation : Operation
  allAvailabilityState : AvailabilityState
deriving DecidableEq

/-- what the master reads around it: `eventloop_time()` and which entries of `csdb` have a connection -/
structure Env where
  now : ℕ
  connected : ℕ → Bool

namespace Chunk

variable (c : Chunk)

/-- the part types that count as copies on hand -/
def validTypes : List ChunkPartType := (c.parts.filter isValid).map type

/-- `updateStats`; `getGoal` is empty exactly if there is no counter -/
@[simps]
def updateStats : Chunk := { c with allAvailabilityState := getState (!c.goalCounters.counters.isEmpty) c.validTypes }

/-- `chunk_new`: a cleared chunk with its id and version -/
def new (chunkid version : ℕ) : Chunk where
  chunkid := chunkid
  parts := []
  goalCounters := .empty
  version := version
  lockid := 0
  lockedto := 0
  needverincrease := true
  interrupted := false
  operation := .none
  allAvailabilityState := getState false []

def fileCount (c : Chunk) : ℕ := c.goalCounters.fileCount

def isLost : Bool := c.allAvailabilityState == .lost

def isWritable : Bool := !c.isLost

variable (now csid : ℕ) (allowed : ChunkPart → Bool)

def isLocked (c : Chunk) : Bool := decide (now ≤ c.lockedto)

/-- some part is listed for this place -/
def lists (type : ChunkPartType) (c : Chunk) : Bool := c.parts.any (isAt csid type)

theorem lists_iff {csid : ℕ} {type : ChunkPartType} {c : Chunk} :
    c.lists csid type ↔ ∃ p ∈ c.parts, p.place = (csid, type) := by
  simp [lists, place]

/-! ## References from files -/

def addFileInt (goal : ℕ) (c : Chunk) : Chunk × Status :=
  match c.goalCounters.addFile goal with
  | none => (c, .chunklost)
  | some g => (updateStats { c with goalCounters := g }, .ok)

/-- `removeFileWithGoal` under the handler of `chunk_delete_file_int` -/
def deleteFileInt (goal : ℕ) (c : Chunk) : Chunk × Status :=
  match c.goalCounters.removeFile goal with
  | none => (c, .chunklost)
  | some g => (updateStats { c with goalCounters := g }, .ok)

/-- `changeFileGoal` under the handler of `chunk_change_file`. If the counters cannot take the new goal the exception
leaves with the old one already removed and the statistics not recomputed. -/
def changeFile (prevGoal newGoal : ℕ) (c : Chunk) : Chunk × Status :=
  match c.goalCounters.removeFile prevGoal with
  | none => (c, .chunklost)
  | some g =>
    match g.addFile newGoal with
    | none => ({ c with goalCounters := g }, .chunklost)
    | some g' => (updateStats { c with goalCounters := g' }, .ok)

/-! ## Version operations -/

def startOperation (operation : Operation) (message : ChunkPart → Effect) (c : Chunk) : Chunk × List Effect :=
  ({ c with
      parts := c.parts.map (begin (u32 (c.version + 1)))
      interrupted := false
      operation := operation
      version := u32 (c.version + 1) },
    (c.parts.filter isValid).map message)

/-- the loop over `matocsserv_send_setchunkversion` -/
def startSetVersion : Chunk × List Effect :=
  c.startOperation .setVersion fun p => .setChunkVersion p.csid c.chunkid (u32 (c.version + 1)) c.version p.type

/-- the loop over `matocsserv_send_truncatechunk` -/
def startTruncate (length : ℕ) (c : Chunk) : Chunk × List Effect :=
  c.startOperation .truncate fun p => .truncateChunk p.csid c.chunkid p.type length (u32 (c.version + 1)) c.version

def emergencyIncreaseVersion : Chunk × List Effect :=
  (c.startSetVersion.1, c.startSetVersion.2 ++ [.incversion c.chunkid])

def handleDisconnectedCopies (connected : ℕ → Bool) (c : Chunk) : Chunk × List Effect :=
  if c.parts.all (fun p => connected p.csid) then (c, [])
  else
    let c := updateStats { c with parts := c.parts.filter (fun p => connected p.csid), needverincrease := true }
    if c.operation = .none then (c, [])
    else if c.parts.any isBusy then ({ c with interrupted := true }, [])
    else if c.isWritable then c.emergencyIncreaseVersion
    else ({ c with operation := .none }, [.chunkStatus c.chunkid .notdone])

/-- the end of `chunk_operation_status`, once no part is busy -/
def finishOperation : Chunk × List Effect :=
  if c.isWritable then
    if c.interrupted then c.emergencyIncreaseVersion
    else ({ c with operation := .none, needverincrease := false }, [.chunkStatus c.chunkid .ok])
  else ({ c with operation := .none }, [.chunkStatus c.chunkid .notdone])

/-- the loop of `chunk_operation_status` -/
def recordStatus (type : ChunkPartType) (failed : Bool) (c : Chunk) : Chunk :=
  if !c.lists csid type then c
  else if failed then
    updateStats
      { c with
        parts := c.parts.map fun p => if p.isAt csid type then p.invalidate else p
        interrupted := true }
  else { c with parts := c.parts.map fun p => if p.isAt csid type then { p with state := p.state.unmarkBusy } else p }

/-- `chunk_operation_status`, which all of `chunk_got_{create,duplicate,setversion,truncate,duptrunc}_status` call -/
def operationStatus (type : ChunkPartType) (failed : Bool) (c : Chunk) : Chunk × List Effect :=
  let c := c.recordStatus csid type failed
  if c.parts.any isBusy then (c, []) else c.finishOperation

/-! ## Reports of chunkservers -/

/-- what `chunk_server_has_chunk` does with a part that is already listed -/
def reportPart (chunkVersion newVersion : ℕ) (todel : Bool) (p : ChunkPart) : ChunkPart :=
  match p.state with
  | .del => p.invalidate
  | .invalid => p
  | _ =>
    if newVersion ≠ chunkVersion then { p with version := newVersion, state := .invalid }
    else { p with version := newVersion, state := if todel then p.state.markTodel else p.state.unmarkTodel }

/-- an update of the first part listed for a place; the statistics are recomputed if its state changes -/
def updatePart (type : ChunkPartType) (f : ChunkPart → ChunkPart) (c : Chunk) : Chunk :=
  let updated := { c with parts := modifyFirst (isAt csid type) f c.parts }
  if (c.parts.find? (isAt csid type)).all fun p => (f p).state == p.state then updated
  else updated.updateStats

/-- a part that was not listed before -/
def pushPart (p : ChunkPart) (c : Chunk) : Chunk := updateStats { c with parts := c.parts ++ [p] }

def registeredState (chunkVersion newVersion : ℕ) (todel : Bool) : PartState :=
  if newVersion = chunkVersion then (if todel then .tdvalid else .valid) else .invalid

def serverHasChunk (type : ChunkPartType) (newVersion : ℕ) (todel : Bool) (c : Chunk) : Chunk :=
  if c.lists csid type then c.updatePart csid type (reportPart c.version newVersion todel)
  else c.pushPart ⟨newVersion, type, csid, registeredState c.version newVersion todel⟩

/-- `chunk_damaged` for a chunk the master knows; a part that is not listed is recorded as a standard one -/
def damaged (type : ChunkPartType) (c : Chunk) : Chunk :=
  if c.lists csid type then
    updateStats
      { c with parts := modifyFirst (isAt csid type) invalidate c.parts, needverincrease := true }
  else { c.pushPart ⟨0, standardPartType, csid, .invalid⟩ with needverincrease := true }

/-- removal of every entry for a place, as `chunk_lost` and `chunk_got_delete_status` do it -/
def dropParts (type : ChunkPartType) (c : Chunk) : Chunk :=
  updateStats { c with parts := c.parts.filter fun p => !p.isAt csid type }

def lost (type : ChunkPartType) (c : Chunk) : Chunk :=
  if c.lists csid type then { c.dropParts csid type with needverincrease := true } else c

/-- `chunk_got_delete_status`; the status is not looked at -/
def gotDeleteStatus (type : ChunkPartType) (c : Chunk) : Chunk :=
  if c.lists csid type then c.dropParts csid type else c

/-- what `chunk_got_replicate_status` does with a part that is already listed -/
def replicatedPart (chunkVersion newVersion : ℕ) (p : ChunkPart) : ChunkPart :=
  if p.state = .valid ∧ newVersion ≠ chunkVersion then { p with version := newVersion, state := .invalid } else p

def gotReplicateStatus (csid : ℕ) (type : ChunkPartType) (version : ℕ) (failed : Bool) (c : Chunk) : Chunk :=
  if failed then c
  else if c.lists csid type then c.updatePart csid type (replicatedPart c.version version)
  else c.pushPart ⟨version, type, csid, if c.isLocked now || version != c.version then .invalid else .valid⟩

/-! ## Repair -/

/-- the parts of a version that `chunk_repair` may build on -/
def typesOfVersion (version : ℕ) (c : Chunk) : List ChunkPartType :=
  (c.parts.filter fun p => p.state != .del && p.version == version).map type

/-- the highest version with a full copy, 0 if there is none -/
def bestVersion : ℕ :=
  let versions := (c.parts.filter fun p => p.state != .del).map ChunkPart.version
  ((versions.filter fun v => decide (0 < getFullCopiesCount (c.typesOfVersion v))).max?).getD 0

/-- the last branch of `chunk_repair`: go back to a version that is readable -/
def revert (version : ℕ) (c : Chunk) : Chunk :=
  updateStats
    { c with
      version := version
      parts := c.parts.map fun p => if p.state = .invalid ∧ p.version = version then { p with state := .valid } else p
      needverincrease := true }

/-- `chunk_repair` for a chunk the master knows: whether anything changed, and `*nversion` -/
def repair (goal : ℕ) (correctOnly : Bool) (c : Chunk) : Chunk × Bool × ℕ :=
  if c.isLocked now then (c, false, 0)
  else if c.bestVersion = c.version then (c, false, 0)
  else if c.bestVersion = 0 then
    if correctOnly then (c, false, 0) else ((c.deleteFileInt goal).1, true, 0)
  else (c.revert c.bestVersion, true, c.bestVersion)

/-! ## Jobs of the chunk worker -/

/-- `deleteInvalidChunkParts`; `allowed` are the parts whose server is below its deletion limit -/
def deleteInvalidChunkParts (c : Chunk) : Chunk × List Effect :=
  ({ c with parts := c.parts.map fun p => if allowed p && !p.isValid then p.delete else p },
    (c.parts.filter fun p => allowed p && !p.isValid).map fun p => .deleteChunk p.csid c.chunkid 0 p.type)

def deleteAllChunkParts (c : Chunk) : Chunk × List Effect :=
  let chosen := fun p : ChunkPart => allowed p && (p.isValid && !p.isBusy)
  if c.parts.any chosen then
    (updateStats { c with parts := c.parts.map fun p => if chosen p then p.delete else p, needverincrease := true },
      (c.parts.filter chosen).map fun p => .deleteChunk p.csid c.chunkid c.version p.type)
  else (c, [])

/-- `removeUnneededChunkPart` once its candidate is chosen -/
def removeUnneededChunkPart (type : ChunkPartType) (c : Chunk) : Chunk × List Effect :=
  let candidate := fun p : ChunkPart => p.isAt csid type && p.isValid
  if c.parts.any candidate then
    (updateStats { c with parts := modifyFirst candidate delete c.parts, needverincrease := true },
      [.deleteChunk csid c.chunkid 0 type])
  else (c, [])

/-- `tryReplication` to a server that has no part of this slice; `usable` are the sources below their read limit -/
def tryReplication (usable : ChunkPart → Bool) (csid : ℕ) (type : ChunkPartType) (c : Chunk) : Chunk × List Effect :=
  let sources := c.parts.filter fun p => p.isValid && !p.isBusy && usable p
  let present := c.parts.any fun p => p.csid == csid && p.type.sliceType == type.sliceType
  let recoverable := getState (!c.goalCounters.counters.isEmpty) (sources.map ChunkPart.type) != .lost
  if !present && recoverable then
    ({ c with needverincrease := true }, [.replicateChunk csid c.chunkid c.version type (sources.map place)])
  else (c, [])

/-- what the worker decides to do with a healthy chunk in steps 7 to 11 -/
inductive Job where
  | nothing
  | replicate (usable : ChunkPart → Bool) (csid : ℕ) (type : ChunkPartType)
  | remove (csid : ℕ) (type : ChunkPartType)

/-- steps 7 to 11 of `doChunkJobs` -/
def doJob : Job → Chunk × List Effect
  | .nothing => (c, [])
  | .replicate usable csid type => c.tryReplication usable csid type
  | .remove csid type => c.removeUnneededChunkPart csid type

/-- steps 4 to 11 of `doChunkJobs` -/
def doLateJobs (allowed : ChunkPart → Bool) (job : Job) (c : Chunk) : Chunk × List Effect :=
  if c.operation ≠ .none ∨ c.isLocked now then (c, [])
  else if c.parts.any isBusy then (c, [])
  else if c.fileCount = 0 then c.deleteAllChunkParts allowed
  else if c.isLost then (c, [])
  else c.doJob job

/-- `ChunkWorker::doChunkJobs` after its step 0 -/
def doChunkJobs (allowed : ChunkPart → Bool) (job : Job) (c : Chunk) : Chunk × List Effect :=
  let c := c.updateStats
  if c.isLost && c.parts.any (fun p => !p.isValid) && decide (0 < c.fileCount) then (c, [])
  else
    let r := c.deleteInvalidChunkParts allowed
    let s := r.1.doLateJobs now allowed job
    (s.1, r.2 ++ s.2)

end Chunk

end SaunaFS.Chunks
