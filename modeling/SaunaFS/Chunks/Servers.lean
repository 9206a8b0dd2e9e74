/-
One chunk together with the servers that store it and the client that writes it. The master side is the model of
`Chunks/Chunk.lean`; around it are the copies on the disks, the commands the servers have not carried out yet, and the
messages on their way to the master.

Messages about an unknown chunk and the creation of chunks are not part of it: a run starts where the chunk was just
created. `chunk_repair` is not among its steps either.
-/
import SaunaFS.Chunks.Table

namespace SaunaFS.Chunks

/-- a copy of a part on a disk -/
structure Copy where
  version : ℕ
  stamp : ℕ
deriving DecidableEq

/-- what a server tells the master about one of its parts -/
inductive Report where
  | status (failed : Bool)
  | deleteStatus
  | replicateStatus (version : ℕ) (failed : Bool)
  | hasChunk (versionWithTodelFlag : ℕ)
  | damaged
  | lost
deriving DecidableEq

/-- what a server is asked to do; `fetched` is a replication that has read its source -/
inductive Order where
  | create (version stamp : ℕ)
  | setVersion (version oldVersion : ℕ)
  | truncate (version oldVersion stamp : ℕ)
  | delete
  | replicate (version : ℕ) (sources : List (ℕ × ChunkPartType))
  | fetched (version stamp : ℕ)
deriving DecidableEq

def Order.answer (failed : Bool) : Order → Report
  | .create _ _ | .setVersion _ _ | .truncate _ _ _ => .status failed
  | .delete => .deleteStatus
  | .replicate version _ | .fetched version _ => .replicateStatus version failed

/-- an order for a part, and whether the connection it came on still exists -/
structure Command where
  csid : ℕ
  type : ChunkPartType
  order : Order
  live : Bool
deriving DecidableEq

structure Message where
  csid : ℕ
  type : ChunkPartType
  report : Report
deriving DecidableEq

/-- the version and the places a client was told to write to -/
structure Grant where
  version : ℕ
  places : List (ℕ × ChunkPartType)
deriving DecidableEq

structure Cluster where
  chunk : Chunk
  now : ℕ
  connected : ℕ → Bool
  disk : ℕ → ChunkPartType → Option Copy
  commands : List Command
  inbox : List Message
  grant : Option Grant
  last : ℕ

/-- the command in a message of the master; `stamp` is the content a truncation leaves -/
def Effect.command (stamp : ℕ) : Effect → Option Command
  | .setChunkVersion csid _ version oldVersion type => some ⟨csid, type, .setVersion version oldVersion, true⟩
  | .truncateChunk csid _ type _ version oldVersion => some ⟨csid, type, .truncate version oldVersion stamp, true⟩
  | .deleteChunk csid _ _ type => some ⟨csid, type, .delete, true⟩
  | .replicateChunk csid _ version type sources => some ⟨csid, type, .replicate version sources, true⟩
  | _ => none

/-- the waiting client is told that its operation is done -/
def Effect.isDone : Effect → Bool
  | .chunkStatus _ .ok => true
  | _ => false

namespace Cluster

/-- where a chunk starts: created on these servers, for a new file or as a copy of a shared chunk -/
def created (operation : Operation) (chunkid goal lockid now : ℕ) (connected : ℕ → Bool)
    (places : List (ℕ × ChunkPartType)) : Cluster where
  chunk := (Chunk.created operation chunkid goal places).lock now lockid
  now := now
  connected := connected
  disk := fun _ _ => none
  commands := places.map fun s => ⟨s.1, s.2, .create 1 0, true⟩
  inbox := []
  grant := none
  last := 0

/-! ## The master -/

variable (s : Cluster)

/-- the result of a function of the chunk module: commands go out, and a client may get its grant -/
def absorb (r : Chunk × List Effect) : Cluster :=
  { s with
    chunk := r.1
    commands := s.commands ++ r.2.filterMap (Effect.command s.last)
    grant :=
      if r.2.any Effect.isDone then some ⟨r.1.version, r.1.validPlaces⟩
      else if r.1.operation = .none then s.grant
      else none }

def env : Env := ⟨s.now, s.connected⟩

/-- `chunk_find` -/
def visit : Cluster := s.absorb (s.chunk.handleDisconnectedCopies s.connected)

/-- `chunk_multi_modify` on the chunk found; without a version increase the client writes at once -/
def write (choice : Choice) (lockid goal : ℕ) (usedummylockid quota : Bool) : Cluster :=
  match checkModify s.env choice s.chunk lockid quota with
  | .error _ => s
  | .ok .inPlace =>
    let newLockid := chooseLockid lockid usedummylockid choice.random
    let t := s.absorb (s.chunk.increaseIfNeeded.1.lock s.now newLockid, s.chunk.increaseIfNeeded.2)
    if s.chunk.needverincrease then t else { t with grant := some ⟨s.chunk.version, s.chunk.validPlaces⟩ }
  | .ok .copy => s.absorb ((s.chunk.deleteFileInt goal).1, [])

/-- `chunk_multi_truncate` on the chunk found; the parts are to have a new content -/
def truncate (lockid length goal : ℕ) (denyTruncatingParityParts quota : Bool) : Cluster :=
  match checkTruncate s.env s.chunk lockid denyTruncatingParityParts quota with
  | .error _ => s
  | .ok .inPlace =>
    { s with last := s.last + 1 }.absorb ((s.chunk.startTruncate length).1.lock s.now lockid,
      (s.chunk.startTruncate length).2)
  | .ok .copy => s.absorb ((s.chunk.deleteFileInt goal).1, [])

/-- what the master does with a message, once it has found the chunk -/
def receive (m : Message) : Cluster :=
  match m.report with
  | .status failed => s.absorb (s.chunk.operationStatus m.csid m.type failed)
  | .deleteStatus => s.absorb (s.chunk.gotDeleteStatus m.csid m.type, [])
  | .replicateStatus version failed =>
    s.absorb (s.chunk.gotReplicateStatus s.now m.csid m.type version failed, [])
  | .hasChunk raw => s.absorb (s.chunk.serverHasChunk m.csid m.type (getChunkVersion raw) (getTodelFlag raw), [])
  | .damaged => s.absorb (s.chunk.damaged m.csid m.type, [])
  | .lost => s.absorb (s.chunk.lost m.csid m.type, [])

/-! ## The servers -/

variable (csid : ℕ)

def setDisk (type : ChunkPartType) (copy : Option Copy) : Cluster :=
  { s with disk := fun c t => if c = csid ∧ t = type then copy else s.disk c t }

/-- an answer reaches the master only on the connection its command came on -/
def answer (c : Command) (report : Report) : Cluster :=
  if c.live then { s with inbox := s.inbox ++ [⟨c.csid, c.type, report⟩] } else s

/-- how it goes: as asked, not at all, or as asked but reported as a failure -/
inductive Outcome where
  | done
  | refused
  | unconfirmed
deriving DecidableEq

/-- the copy after a command has been carried out, if the disk allows it -/
def carryOut (copy : Option Copy) : Order → Option (Option Copy)
  | .create version stamp => if copy.isNone then some (some ⟨version, stamp⟩) else none
  | .setVersion version oldVersion =>
    copy.bind fun k => if k.version = oldVersion then some (some ⟨version, k.stamp⟩) else none
  | .truncate version oldVersion stamp =>
    copy.bind fun k => if k.version = oldVersion then some (some ⟨version, stamp⟩) else none
  | .delete => some none
  | .replicate _ _ => none
  | .fetched version stamp => if copy.isNone then some (some ⟨version, stamp⟩) else none

def execute (c : Command) (outcome : Outcome) : Cluster :=
  match carryOut (s.disk c.csid c.type) c.order with
  | none => s.answer c (c.order.answer true)
  | some copy =>
    match outcome with
    | .done => (s.setDisk c.csid c.type copy).answer c (c.order.answer false)
    | .refused => s.answer c (c.order.answer true)
    | .unconfirmed => (s.setDisk c.csid c.type copy).answer c (c.order.answer true)

/-- a replication reads one of its sources, which has to be at the version asked for -/
def fetch (i : ℕ) (source : ℕ × ChunkPartType) : Cluster :=
  match s.commands[i]?, s.disk source.1 source.2 with
  | some ⟨csid, type, .replicate version sources, live⟩, some k =>
    if source ∈ sources ∧ k.version = version then
      { s with commands := s.commands.set i ⟨csid, type, .fetched version k.stamp, live⟩ }
    else s
  | _, _ => s

/-- what a server says of its own accord -/
def tell (type : ChunkPartType) (report : Report) : Cluster :=
  if s.connected csid then { s with inbox := s.inbox ++ [⟨csid, type, report⟩] } else s

def register (type : ChunkPartType) (todel : Bool) : Cluster :=
  match s.disk csid type with
  | none => s
  | some k => s.tell csid type (.hasChunk (k.version + if todel then 2 ^ 31 else 0))

def disconnect : Cluster :=
  { s with
    connected := fun c => if c = csid then false else s.connected c
    commands := s.commands.map fun c => if c.csid = csid then { c with live := false } else c
    inbox := s.inbox.filter fun m => m.csid != csid }

def connect : Cluster := { s with connected := fun c => if c = csid then true else s.connected c }

/-! ## The client -/

/-- every place of the grant can take the data; nobody asks whether the lock of the grant has run out -/
def canFinish (g : Grant) : Bool :=
  g.places.all fun place => (s.disk place.1 place.2).any fun k => k.version == g.version

/-- the client has its data on every place it was given -/
def finishWrite : Cluster :=
  match s.grant with
  | none => s
  | some g =>
    if s.canFinish g then
      { s with
        disk := fun c t =>
          if (c, t) ∈ g.places then (s.disk c t).map fun k => { k with stamp := s.last + 1 } else s.disk c t
        last := s.last + 1 }
    else s

/-! ## Steps -/

inductive Op where
  | tick (seconds : ℕ)
  | write (choice : Choice) (lockid goal : ℕ) (usedummylockid quota : Bool)
  | truncate (lockid length goal : ℕ) (denyTruncatingParityParts quota : Bool)
  | unlock
  | addFile (goal : ℕ)
  | deleteFile (goal : ℕ)
  | changeFile (prevGoal newGoal : ℕ)
  | jobs (allowed : ChunkPart → Bool) (job : Chunk.Job)
  | visit
  | deliver (i : ℕ)
  | execute (i : ℕ) (outcome : Outcome)
  | fetch (i : ℕ) (source : ℕ × ChunkPartType)
  | register (csid : ℕ) (type : ChunkPartType) (todel : Bool)
  | tellDamaged (csid : ℕ) (type : ChunkPartType)
  | tellLost (csid : ℕ) (type : ChunkPartType)
  | disconnect (csid : ℕ)
  | connect (csid : ℕ)
  | finishWrite

def step : Op → Cluster
  | .tick seconds => { s with now := s.now + seconds }
  | .write choice lockid goal dummy quota => s.visit.write choice lockid goal dummy quota
  | .truncate lockid length goal deny quota => s.visit.truncate lockid length goal deny quota
  | .unlock => s.visit.absorb ({ s.visit.chunk with lockedto := 0 }, [])
  | .addFile goal => s.visit.absorb ((s.visit.chunk.addFileInt goal).1, [])
  | .deleteFile goal => s.visit.absorb ((s.visit.chunk.deleteFileInt goal).1, [])
  | .changeFile prevGoal newGoal => s.visit.absorb ((s.visit.chunk.changeFile prevGoal newGoal).1, [])
  | .jobs allowed job => s.visit.absorb (s.visit.chunk.doChunkJobs s.now allowed job)
  | .visit => s.visit
  | .deliver i =>
    match s.inbox[i]? with
    | none => s
    | some m => ({ s with inbox := s.inbox.eraseIdx i }.visit).receive m
  | .execute i outcome =>
    match s.commands[i]? with
    | none => s
    | some c => { s with commands := s.commands.eraseIdx i }.execute c outcome
  | .fetch i source => s.fetch i source
  | .register csid type todel => s.register csid type todel
  | .tellDamaged csid type => s.tell csid type .damaged
  | .tellLost csid type => s.tell csid type .lost
  | .disconnect csid => s.disconnect csid
  | .connect csid => s.connect csid
  | .finishWrite => s.finishWrite

end Cluster

end SaunaFS.Chunks
