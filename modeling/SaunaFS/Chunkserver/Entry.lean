/-
One connection of a chunkserver: `ChunkserverEntry` of `chunkserver/chunkserver_entry.{h,cc}`.

A handler takes the results of its system calls as arguments and returns the connection, or the way in which the program
ends: a failed `sassert`, an exception that leaves `gotPacket`, or an access outside of a buffer. Buffers are modelled
by their sizes, pointers by offsets. `History` records what the connection has done; no handler reads it. Jobs without a
callback, descriptors, statistics and log messages are left out.
-/
import SaunaFS.Chunkserver.Packets

namespace SaunaFS.Chunkserver

open SaunaFS.Chunks

/-! ## The state of a connection -/

/-- the ways in which a connection can end the program -/
inductive Crash where
  | assertion
  | exception
  | memory
deriving DecidableEq

inductive State where
  | idle
  | read
  | getBlock
  | writeLast
  | connecting
  | writeInit
  | writeForward
  | writeFinish
  | close
  | closeWait
  | closed
deriving DecidableEq

inductive Mode where
  | header
  | data
deriving DecidableEq

/-- the buffers that received bytes are stored in -/
inductive Place where
  | headerBuffer
  | packet
  | alignedBuffer
deriving DecidableEq

/-- the receiving side of a socket: `PacketStruct` with the header buffer and the mode. `start` is `startPtr` as an
offset in its buffer, `current` the packet whose header has been received. -/
structure Receiving where
  mode : Mode := .header
  place : Place := .headerBuffer
  start : ℕ := 0
  bytesLeft : ℕ
  packetSize : ℕ := 0
  alignedCapacity : ℕ := 0
  useAlignedMemory : Bool := false
  current : Packet := ⟨.nop, 0⟩
deriving DecidableEq

/-- the callbacks of the jobs of a connection -/
inductive Callback where
  | readFinished
  | writeFinished
  | getBlocksFinished
  | delayedClose
deriving DecidableEq

/-- a job in the pool; `writeId` is the write that an open (0) or a write job was started for -/
structure Job where
  id : ℕ
  callback : Callback
  writeId : ℕ
deriving DecidableEq

/-- bytes of a packet put on the wire, and whether the job that fills its buffer had finished by then -/
structure Fragment where
  packet : OutPacket
  jobFinished : Bool
deriving DecidableEq

/-- what a connection has done: headers received and packets handed over, from the client and from the next server,
packets passed on, packets and parts of packets sent to the client, READs accepted, writes done by the disk and
acknowledged by the next server -/
structure History where
  headers : List Packet := []
  received : List Packet := []
  fwdHeaders : List Packet := []
  fwdReceived : List Packet := []
  forwarded : List Packet := []
  sent : List OutPacket := []
  wire : List Fragment := []
  reads : List ReadRequest := []
  written : List ℕ := []
  nextDone : List ℕ := []
deriving DecidableEq

structure PollEvents where
  pollIn : Bool
  pollOut : Bool
deriving DecidableEq

/-- `ChunkserverEntry`, with the jobs it has in the pool -/
structure Entry where
  state : State := .idle
  input : Receiving := { bytesLeft := headerSize }
  fwdInput : Receiving := { bytesLeft := 0 }
  pDesc : Option PollEvents := none
  fwdPDesc : Option PollEvents := none
  connectRetryCounter : ℕ := 0
  fwdStartPtr : Bool := false
  fwdBytesLeft : ℕ := 0
  outputPackets : List OutPacket := []
  writeJobId : ℕ := 0
  writeJobWriteId : ℕ := 0
  partiallyCompletedWrites : Finset ℕ := ∅
  readJobId : ℕ := 0
  todoReadCounter : ℕ := 0
  getBlocksJobId : ℕ := 0
  readPacket : Option OutPacket := none
  isChunkOpen : Bool := false
  chunkId : ℕ := 0
  chunkVersion : ℕ := 0
  chunkType : ChunkPartType := standardPartType
  offset : ℕ := 0
  size : ℕ := 0
  messageSerializer : Option Serializer := none
  jobs : List Job := []
  nextJobId : ℕ := 1
  history : History := {}

/-! ## Results of system calls -/

/-- `read`: a number of bytes, zero at the end of the stream, `EAGAIN` or another error -/
inductive ReadResult where
  | got (n : ℕ)
  | again
  | failed
deriving DecidableEq

/-- `write` on the socket of the next server -/
inductive WriteResult where
  | wrote (n : ℕ)
  | again
  | failed
deriving DecidableEq

/-- one attempt to send the first packet of the queue -/
inductive SendResult where
  | all
  | part
  | zero
  | again
  | failed
deriving DecidableEq

/-- the outcome of `initConnection`'s system calls -/
inductive ConnectResult where
  | failed
  | immediate
  | inProgress
deriving DecidableEq

namespace Receiving

/-- the size of the buffer that `startPtr` points into -/
def capacity (r : Receiving) : ℕ :=
  match r.place with
  | .headerBuffer => headerSize
  | .packet => r.packetSize
  | .alignedBuffer => r.alignedCapacity

/-- the next packet starts with its header -/
def expectHeader (r : Receiving) : Receiving :=
  { r with mode := .header, place := .headerBuffer, start := 0, bytesLeft := headerSize }

/-- what a `read` into the buffer comes to -/
inductive Outcome where
  | again
  | lost
  | stored (r : Receiving)

/-- a `read` of at most `bytesLeft` bytes at `startPtr` -/
def read (result : ReadResult) (r : Receiving) : Except Crash Outcome :=
  match result with
  | .again => .ok .again
  | .failed => .ok .lost
  | .got n =>
    if n = 0 then .ok .lost
    else if r.start + min n r.bytesLeft ≤ r.capacity then
      .ok (.stored { r with start := r.start + min n r.bytesLeft, bytesLeft := r.bytesLeft - min n r.bytesLeft })
    else .error .memory

end Receiving

namespace Entry

/-! ## Output packets and jobs -/

def attachPacket (p : OutPacket) (e : Entry) : Entry := { e with outputPackets := e.outputPackets ++ [p] }

/-- `job_new`: the identifier is `nextJobId`, which is never zero -/
def jobNew (callback : Callback) (writeId : ℕ) (e : Entry) : Entry :=
  { e with jobs := e.jobs ++ [⟨e.nextJobId, callback, writeId⟩], nextJobId := e.nextJobId + 1 }

/-- `job_pool_disable_job` and `job_pool_change_callback` as `closeJobs` uses them -/
def delayClose (id : ℕ) (e : Entry) : Entry :=
  { e with
    jobs := e.jobs.map fun j => if j.id = id then { j with callback := .delayedClose } else j
    state := .closeWait }

variable (e : Entry)

/-- `preserveInputPacket`: the buffer of the packet is moved away -/
def preserveInputPacket : Entry :=
  { e with input := if e.input.useAlignedMemory then { e.input with alignedCapacity := 0 }
      else { e.input with packetSize := 0 } }

variable (s : Serializer)

/-- `serializeCstoclWriteStatus` and `createAttachedPacket` -/
def attachWriteStatus (chunkId writeId : ℕ) (status : Status) (e : Entry) : Entry :=
  e.attachPacket (.writeStatus s ⟨chunkId, writeId, status⟩)

def fwdError : Except Crash Entry :=
  match e.messageSerializer with
  | none => .error .assertion
  | some s =>
    let status := if e.state = .connecting then Status.cantconnect else .disconnected
    .ok { e.attachWriteStatus s e.chunkId 0 status with state := .writeFinish }

/-- `initConnection`; `none` if it returns -1 -/
def initConnection (c : ConnectResult) (e : Entry) : Option Entry :=
  match c with
  | .failed => none
  | .immediate => some { e with state := .writeInit }
  | .inProgress => some { e with state := .connecting }

def retryConnect (c : ConnectResult) (e : Entry) : Except Crash Entry :=
  let e := { e with connectRetryCounter := e.connectRetryCounter + 1 }
  if e.connectRetryCounter < connectRetries then
    match e.initConnection c with
    | none => e.fwdError
    | some e => .ok e
  else e.fwdError

/-- `delayedCloseCallback`; only `job_close` depends on whether the chunk is open -/
def delayedCloseCallback : Entry := { e with isChunkOpen := false, state := .closed }

/-! ## Reading -/

/-- the number of the READ being served -/
def request : ℕ := e.history.reads.length - 1

/-- the end of a read: READ_STATUS, and the connection is ready for requests -/
def readDone (status : Status) (e : Entry) : Entry :=
  { e.attachPacket (.readStatus e.request s e.chunkId status) with isChunkOpen := false, state := .idle }

/-- the packet that `readContinue` has prepared joins the output queue -/
def attachReadPacket : Entry :=
  match e.readPacket with
  | none => e
  | some p => { e.attachPacket p with readPacket := none, todoReadCounter := (e.todoReadCounter + 1) % 256 }

/-- `thisPartSize` of `readContinue` -/
def thisPartSize : ℕ := min e.size (blockSize - e.offset % blockSize)

/-- the next part of the range: a packet with an output buffer and the job that fills it -/
def readNextPart (e : Entry) : Entry :=
  let p := OutPacket.readData e.request e.nextJobId s e.chunkId e.offset e.thisPartSize
  { e.jobNew .readFinished 0 with
    readPacket := some p
    readJobId := e.nextJobId
    todoReadCounter := (e.todoReadCounter + 1) % 256
    offset := e.offset + e.thisPartSize
    size := e.size - e.thisPartSize }

def readContinue : Except Crash Entry :=
  let e := e.attachReadPacket
  match e.messageSerializer with
  | none => .error .memory
  | some s =>
    if e.size = 0 then if e.isChunkOpen then .ok (e.readDone s .ok) else .error .assertion
    else .ok (e.readNextPart s)

def readFinishedCallback (status : Status) (e : Entry) : Except Crash Entry :=
  let e := { e with readJobId := 0 }
  if status = .ok then
    let e := { e with todoReadCounter := (e.todoReadCounter + 255) % 256, isChunkOpen := true }
    if e.todoReadCounter = 0 then e.readContinue else .ok e
  else
    match e.messageSerializer with
    | none => .error .memory
    | some s => .ok (e.readDone s status)

def sendFinished : Except Crash Entry :=
  let e := { e with todoReadCounter := (e.todoReadCounter + 255) % 256 }
  if e.todoReadCounter = 0 then e.readContinue else .ok e

def outputCheckReadFinished : Except Crash Entry := if e.state = .read then e.sendFinished else .ok e

end Entry

/-- the status that `readInit` answers at once, `none` for a range that is read -/
def ReadRequest.instantResponse (r : ReadRequest) : Option Status :=
  if r.size = 0 then some .ok
  else if chunkSize < r.size then some .wrongsize
  else if chunkSize ≤ r.offset ∨ chunkSize < r.offset + r.size then some .wrongoffset
  else none

namespace Entry

variable (s : Serializer) (p : Packet) (c : ConnectResult) (e : Entry)

/-- the fields that a READ or a PREFETCH sets; the legacy READ names no part -/
def setRequest (r : ReadRequest) (e : Entry) : Entry :=
  { e with
    chunkId := r.chunkId
    chunkVersion := r.version
    chunkType := if s = .legacy then standardPartType else r.chunkType
    offset := r.offset
    size := r.size }

variable (request : Option ReadRequest) (r : Receiving) (next : Packet) (result : WriteResult) (result₂ : ReadResult)

def readInit (e : Entry) : Except Crash Entry :=
  match request with
  | none => .ok { e with state := .close }
  | some r =>
    let e := { e.setRequest s r with
      messageSerializer := some s
      history := { e.history with reads := e.history.reads ++ [r] } }
    match r.instantResponse with
    | some status => .ok (e.attachPacket (.readStatus e.request s e.chunkId status))
    | none => { e with state := .read, todoReadCounter := 0, readJobId := 0 }.readContinue

def prefetch (e : Entry) : Entry :=
  match request with
  | none => { e with state := .close }
  | some r => e.setRequest .saunafs r

/-! ## Writing -/

def writeInit (f : InitFormat) (request : Option WriteInit) (c : ConnectResult) (e : Entry) : Except Crash Entry :=
  match request with
  | none => .ok { e with state := .close }
  | some r =>
    let e := { e with
      chunkId := r.chunkId
      chunkVersion := r.version
      chunkType := r.part f
      messageSerializer := some f.serializer }
    match r.servers f with
    | [] => .ok { e.jobNew .writeFinished 0 with state := .writeLast, writeJobWriteId := 0, writeJobId := e.nextJobId }
    | next :: chain =>
      if !namesPart e.chunkType next.chunkserverVersion then .error .assertion
      else
        let p := serializeCltocsWriteInit e.chunkId e.chunkVersion e.chunkType chain next.chunkserverVersion
        let e := { e with
          fwdStartPtr := true
          fwdBytesLeft := headerSize + p.length
          connectRetryCounter := 0 }
        match e.initConnection c with
        | none => .ok { e.attachWriteStatus f.serializer e.chunkId 0 .cantconnect with state := .writeFinish }
        | some e =>
          .ok { e.jobNew .writeFinished 0 with
            writeJobWriteId := 0
            writeJobId := e.nextJobId
            history := { e.history with forwarded := e.history.forwarded ++ [p] } }

/-- the status that `writeData` refuses a packet with, `none` for a write that is started -/
def writeRefusal (length : ℕ) (d : WriteData) (e : Entry) : Option Status :=
  if length - dataPrefixSize s ≠ d.size then some .wrongsize
  else if d.chunkId ≠ e.chunkId then some .wrongchunkid
  else none

def writeData (data : Option WriteData) (length : ℕ) (e : Entry) : Except Crash Entry :=
  if e.messageSerializer ≠ some s then .ok { e with state := .close }
  else
    match data with
    | none => .ok { e with state := .close }
    | some d =>
      if s = .legacy ∧ e.chunkType ≠ standardPartType then .error .assertion
      else
        match e.writeRefusal s length d with
        | some status => .ok { e.attachWriteStatus s d.chunkId d.writeId status with state := .writeFinish }
        | none =>
          .ok { e.preserveInputPacket.jobNew .writeFinished d.writeId with
            writeJobWriteId := d.writeId
            writeJobId := e.nextJobId }

/-- one side, the disk or the next server, is done with a write: it is acknowledged if the other side was done before -/
def completeWrite (chunkId writeId : ℕ) (e : Entry) : Entry :=
  if writeId ∈ e.partiallyCompletedWrites then
    { e.attachWriteStatus s chunkId writeId .ok with
      partiallyCompletedWrites := e.partiallyCompletedWrites.erase writeId }
  else { e with partiallyCompletedWrites := insert writeId e.partiallyCompletedWrites }

def writeStatus (status : Option WriteStatus) (e : Entry) : Except Crash Entry :=
  match e.messageSerializer with
  | none => .error .assertion
  | some own =>
    if own ≠ s then .ok { e with state := .close }
    else
      match status with
      | none => .ok { e with state := .close }
      | some w =>
        if s = .legacy ∧ e.chunkType ≠ standardPartType then .error .assertion
        else if e.chunkId ≠ w.chunkId then
          .ok { e.attachWriteStatus s w.chunkId 0 .wrongchunkid with state := .writeFinish }
        else if w.status ≠ .ok then
          .ok { e.attachWriteStatus s w.chunkId w.writeId w.status with state := .writeFinish }
        else
          .ok (({ e with history := { e.history with nextDone := e.history.nextDone ++ [w.writeId] } }).completeWrite
            s w.chunkId w.writeId)

def writeEnd (chunkId : Option ℕ) (e : Entry) : Entry :=
  let e := { e with messageSerializer := none }
  match chunkId with
  | none => { e with state := .writeFinish }
  | some id =>
    if id ≠ e.chunkId then { e with state := .writeFinish }
    else if 0 < e.writeJobId ∨ e.partiallyCompletedWrites ≠ ∅ ∨ e.outputPackets ≠ [] then
      { e with state := .writeFinish }
    else { e with isChunkOpen := false, input := { e.input with useAlignedMemory := false }, state := .idle }

/-! ## Other requests -/

/-- `ping`, with the 32-bit size of the packet that `createAttachedPacket` makes -/
def ping (opSize length : ℕ) (e : Entry) : Except Crash Entry :=
  if length ≠ 4 then .ok { e with state := .close }
  else if (opSize + headerSize) % 2 ^ 32 < headerSize then .error .memory
  else .ok (e.attachPacket (.pingReply opSize))

def getChunkBlocks (request : Option BlocksRequest) (e : Entry) : Except Crash Entry :=
  match request with
  | none => .error .exception
  | some r =>
    .ok { e.jobNew .getBlocksFinished 0 with
      chunkId := r.chunkId
      chunkVersion := r.version
      chunkType := if s = .legacy then standardPartType else r.chunkType
      getBlocksJobId := e.nextJobId
      state := .getBlock }

/-- the three callbacks of GET_CHUNK_BLOCKS, which differ in the format of the reply -/
def getChunkBlocksFinishedCallback (status : Status) (e : Entry) : Entry :=
  { e.attachPacket (.getChunkBlocksStatus e.chunkId e.chunkVersion status) with getBlocksJobId := 0, state := .idle }

/-- a request without data or with a fixed number of bytes of it, answered at once -/
def reportWhen (accepted : Bool) (reply : OutPacket) (e : Entry) : Entry :=
  if accepted then e.attachPacket reply else { e with state := .close }

/-! ## Dispatch -/

/-- the packets that the idle connection takes -/
def gotPacketIdle : Except Crash Entry :=
  match p.message with
  | .ping opSize => e.ping opSize p.length
  | .read s request => e.readInit s request
  | .prefetch request => .ok (e.prefetch request)
  | .writeInit f request => e.writeInit f request c
  | .getChunkBlocks s request => e.getChunkBlocks s request
  | .hddListV2 => .ok (e.reportWhen (p.length == 0) .hddListV2)
  | .listDiskGroups => .ok (e.reportWhen true .listDiskGroups)
  | .chart => .ok (e.reportWhen (p.length == 4) .chart)
  | .chartData => .ok (e.reportWhen (p.length == 4) .chartData)
  | .testChunk wellFormed => .ok (if wellFormed then e else { e with state := .close })
  | _ => .ok { e with state := .close }

/-- the packets that the last server of a chain takes -/
def gotPacketWriteLast : Except Crash Entry :=
  match p.message with
  | .writeData s data => e.writeData s data p.length
  | .writeEnd chunkId => .ok (e.writeEnd chunkId)
  | _ => .ok { e with state := .close }

/-- the packets that any other server of a chain takes, from the client or from the next server -/
def gotPacketWriteForward : Except Crash Entry :=
  match p.message with
  | .writeData s data => e.writeData s data p.length
  | .writeStatus s status => e.writeStatus s status
  | .writeEnd chunkId => .ok (e.writeEnd chunkId)
  | _ => .ok { e with state := .close }

def gotPacket : Except Crash Entry :=
  match p.message with
  | .nop => .ok e
  | .unknownCommand => .ok e
  | .badCommandSize => .ok e
  | _ =>
    match e.state with
    | .idle => e.gotPacketIdle p c
    | .writeLast => e.gotPacketWriteLast p
    | .writeForward => e.gotPacketWriteForward p
    | .writeFinish => .ok (if p.isForwarded then e else { e with state := .close })
    | _ => .ok { e with state := .close }

/-- a packet received from the client is complete: it is handed over and the next header is awaited -/
def takePacket : Except Crash Entry :=
  { e with
    input := e.input.expectHeader
    history := { e.history with received := e.history.received ++ [e.input.current] } }.gotPacket e.input.current c

def checkNextPacket : Except Crash Entry :=
  if e.input.mode = .data ∧ e.input.bytesLeft = 0 ∧ (e.state = .writeForward → e.fwdBytesLeft = 0) then e.takePacket c
  else .ok e

def writeFinishedCallback (status : Status) (writeId : ℕ) (c : ConnectResult) (e : Entry) : Except Crash Entry :=
  let e := { e with writeJobId := 0 }
  match e.messageSerializer with
  | none => .error .assertion
  | some s =>
    if status ≠ .ok then
      .ok { e.attachWriteStatus s e.chunkId e.writeJobWriteId status with state := .writeFinish }
    else
      let e := { e with
        isChunkOpen := e.isChunkOpen || decide (e.writeJobWriteId = 0)
        history := { e.history with written := e.history.written ++ [writeId] } }
      if e.state = .writeLast then (e.attachWriteStatus s e.chunkId e.writeJobWriteId .ok).checkNextPacket c
      else (e.completeWrite s e.chunkId e.writeJobWriteId).checkNextPacket c

/-! ## Sockets -/

def fwdConnected (connected : Bool) (e : Entry) : Except Crash Entry :=
  if connected then .ok { e with state := .writeInit } else e.fwdError

/-- a packet received from the next server is complete -/
def takeFwdPacket : Except Crash Entry :=
  { e with
    fwdInput := e.fwdInput.expectHeader
    history := { e.history with fwdReceived := e.history.fwdReceived ++ [e.fwdInput.current] } }.gotPacket
      e.fwdInput.current c

/-- the second half of `fwdRead`: the data of a packet -/
def fwdReadData (result : ReadResult) (c : ConnectResult) (e : Entry) : Except Crash Entry :=
  if e.fwdInput.bytesLeft = 0 then e.takeFwdPacket c
  else do
    match ← e.fwdInput.read result with
    | .again => .ok e
    | .lost => e.fwdError
    | .stored r => if 0 < r.bytesLeft then .ok { e with fwdInput := r } else takeFwdPacket c { e with fwdInput := r }

/-- `fwdRead` has received a header; the buffer of the packet gets the size of its data -/
def fwdStartData (e : Entry) : Entry :=
  { e with
    fwdInput := { (if p.length = 0 then r else { r with packetSize := p.length, place := .packet, start := 0 }) with
      bytesLeft := p.length
      mode := .data
      current := p }
    history := { e.history with fwdHeaders := e.history.fwdHeaders ++ [p] } }

/-- `fwdRead`, where `next` is the next packet of the stream -/
def fwdRead (result₁ result₂ : ReadResult) (c : ConnectResult) (e : Entry) : Except Crash Entry :=
  match e.fwdInput.mode with
  | .data => e.fwdReadData result₂ c
  | .header => do
    match ← e.fwdInput.read result₁ with
    | .again => .ok e
    | .lost => e.fwdError
    | .stored r =>
      if 0 < r.bytesLeft then .ok { e with fwdInput := r }
      else if maxPacketSize < next.length then fwdError { e with fwdInput := r }
      else (e.fwdStartData next r).fwdReadData result₂ c

def fwdWrite (e : Entry) : Except Crash Entry :=
  if e.fwdBytesLeft = 0 then .ok (fwdWritten e)
  else
    match result with
    | .again => .ok e
    | .failed => e.fwdError
    | .wrote n =>
      if n = 0 then e.fwdError
      else if e.fwdBytesLeft ≤ n then .ok (fwdWritten e)
      else .ok { e with fwdBytesLeft := e.fwdBytesLeft - n }
where
  /-- the packet that forms the chain has been sent -/
  fwdWritten (e : Entry) : Entry :=
    { e with fwdBytesLeft := 0, fwdStartPtr := false, fwdInput := e.fwdInput.expectHeader, state := .writeForward }

/-- the end of `forward`: a packet that is complete, passed on and not behind a running job is handed over -/
def forwardTake : Except Crash Entry :=
  if e.input.bytesLeft = 0 ∧ e.fwdBytesLeft = 0 ∧ e.writeJobId = 0 then do
    let e ← e.takePacket c
    .ok { e with fwdStartPtr := false }
  else .ok e

/-- `forward` passes on what it has received -/
def forwardWrite (c : ConnectResult) (e : Entry) : Except Crash Entry :=
  if e.fwdBytesLeft = 0 then e.forwardTake c
  else if e.fwdStartPtr = false then .error .assertion
  else
    match result with
    | .again => .ok e
    | .failed => e.fwdError
    | .wrote n =>
      if n = 0 then e.fwdError else { e with fwdBytesLeft := e.fwdBytesLeft - n }.forwardTake c

/-- `forward` receives data of a packet -/
def forwardData (w : WriteResult) (c : ConnectResult) (e : Entry) : Except Crash Entry :=
  if e.input.bytesLeft = 0 then e.forwardWrite w c
  else do
    match ← e.input.read result₂ with
    | .again => .ok e
    | .lost => .ok { e with state := .close }
    | .stored r =>
      forwardWrite w c { e with
        input := r
        fwdBytesLeft := if e.fwdStartPtr then e.fwdBytesLeft + (e.input.bytesLeft - r.bytesLeft) else e.fwdBytesLeft }

/-- `forward` has received a header: the packet is stored behind it, and a write is passed on from the header on -/
def forwardStartData (e : Entry) : Entry :=
  { e with
    input := { r with
      packetSize := headerSize + p.length
      place := .packet
      start := headerSize
      bytesLeft := p.length
      mode := .data
      current := p }
    fwdBytesLeft := if p.isForwarded then headerSize else e.fwdBytesLeft
    fwdStartPtr := p.isForwarded || e.fwdStartPtr
    history := { e.history with
      headers := e.history.headers ++ [p]
      forwarded := if p.isForwarded then e.history.forwarded ++ [p] else e.history.forwarded } }

/-- `forward`, where `next` is the next packet of the client's stream -/
def forward (result₁ result₂ : ReadResult) (w : WriteResult) (c : ConnectResult) (e : Entry) : Except Crash Entry :=
  match e.input.mode with
  | .data => e.forwardData result₂ w c
  | .header => do
    match ← e.input.read result₁ with
    | .again => .ok e
    | .lost => .ok { e with state := .close }
    | .stored r =>
      if 0 < r.bytesLeft then .ok { e with input := r }
      else if maxPacketSize < next.length then .ok { e with input := r, state := .close }
      else (e.forwardStartData next r).forwardData result₂ w c

/-- a complete packet waits as long as a write job is running -/
def takeUnlessWriting : Except Crash Entry :=
  if e.writeJobId = 0 then e.takePacket c else .ok e

/-- the second half of `readFromSocket`: the data of a packet -/
def readData (c : ConnectResult) (e : Entry) : Except Crash Entry :=
  if e.input.bytesLeft = 0 then e.takeUnlessWriting c
  else do
    match ← e.input.read result₂ with
    | .again => .ok e
    | .lost => .ok { e with state := .close }
    | .stored r => if 0 < r.bytesLeft then .ok { e with input := r } else takeUnlessWriting c { e with input := r }

/-- the buffer that `readFromSocket` provides for a packet: the aligned one has a fixed size -/
def provide : Receiving :=
  if p.length = 0 then r
  else if p.isAligned then
    { r with
      alignedCapacity := max r.alignedCapacity ioAlignedPacketSize
      place := .alignedBuffer
      start := ioAlignedOffset
      useAlignedMemory := true }
  else { r with packetSize := p.length, place := .packet, start := 0, useAlignedMemory := false }

/-- `readFromSocket` has received a header -/
def startData (e : Entry) : Entry :=
  { e with
    input := { provide p r with bytesLeft := p.length, mode := .data, current := p }
    history := { e.history with headers := e.history.headers ++ [p] } }

/-- `readFromSocket`, where `next` is the next packet of the client's stream -/
def readFromSocket (result₁ result₂ : ReadResult) (c : ConnectResult) (e : Entry) : Except Crash Entry :=
  match e.input.mode with
  | .data => e.readData result₂ c
  | .header =>
    if e.input.place ≠ .headerBuffer ∨ e.input.start + e.input.bytesLeft ≠ headerSize then .error .assertion
    else do
      match ← e.input.read result₁ with
      | .again => .ok e
      | .lost => .ok { e with state := .close }
      | .stored r =>
        if 0 < r.bytesLeft then .ok { e with input := r }
        else if maxPacketSize < next.length then .ok { e with input := r, state := .close }
        else (e.startData next r).readData result₂ c

/-- the job that fills the buffer of a packet is not running -/
def jobFinished : OutPacket → Bool
  | .readData _ job .. => !e.jobs.any fun j => j.id == job
  | _ => true

/-- bytes of the packet go out -/
def putOnWire (p : OutPacket) (e : Entry) : Entry :=
  { e with history := { e.history with wire := e.history.wire ++ [⟨p, e.jobFinished p⟩] } }

/-- the first packet of the queue has been sent -/
def popPacket (p : OutPacket) (rest : List OutPacket) (e : Entry) : Entry :=
  { e.putOnWire p with
    outputPackets := rest
    history := { (e.putOnWire p).history with sent := e.history.sent ++ [p] } }

def writeToSocket : List SendResult → Entry → Except Crash Entry
  | [], e => .ok e
  | result :: results, e =>
    match e.outputPackets with
    | [] => .ok e
    | p :: rest =>
      match result with
      | .again => .ok e
      | .failed => .ok { e with state := .close }
      | .zero => .ok (if p.isReadData then e else { e with state := .close })
      | .part => .ok (e.putOnWire p)
      | .all => do (← (e.popPacket p rest).outputCheckReadFinished).writeToSocket results

def closeJobs : Entry :=
  if 0 < e.readJobId then e.delayClose e.readJobId
  else if 0 < e.writeJobId then e.delayClose e.writeJobId
  else if 0 < e.getBlocksJobId then e.delayClose e.getBlocksJobId
  else { e with isChunkOpen := false, state := .closed }

end Entry

end SaunaFS.Chunkserver
