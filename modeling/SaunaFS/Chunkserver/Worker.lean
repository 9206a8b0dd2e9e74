/-
The loop of a network worker around one connection (`preparePollFds` and `servePoll` of
`chunkserver/network_worker_thread.cc`): it prepares the descriptors, polls, runs the callbacks of finished jobs and
then serves the connection. A callback may change the state of the connection between the poll and the service of its
result. Connections of one worker do not touch each other; one of them is modelled.
-/
import SaunaFS.Chunkserver.Entry
import SaunaFS.Lib.Fallible

namespace SaunaFS.Chunkserver

open SaunaFS.Chunks Fallible

/-- what a round of the loop finds: the results of the poll on both sockets (`hup` stands for POLLERR and POLLHUP), of
the system calls that it may make, and the clock's verdicts on the connection -/
structure Served where
  hup : Bool := false
  pollIn : Bool := false
  pollOut : Bool := false
  fwdHup : Bool := false
  fwdPollIn : Bool := false
  fwdPollOut : Bool := false
  next : Packet := ⟨.nop, 0⟩
  read₁ : ReadResult := .again
  read₂ : ReadResult := .again
  fwdNext : Packet := ⟨.nop, 0⟩
  fwdRead₁ : ReadResult := .again
  fwdRead₂ : ReadResult := .again
  fwdWritten : WriteResult := .again
  forwarded : WriteResult := .again
  sent : List SendResult := []
  connected : Bool := false
  connect : ConnectResult := .failed
  connectTimedOut : Bool := false
  retry : ConnectResult := .failed
  inactive : Bool := false
deriving DecidableEq

/-- the steps of the loop that concern the connection -/
inductive Event where
  | preparePollFds
  | jobFinished (id : ℕ) (status : Status) (c : ConnectResult)
  | servePoll (w : Served)
deriving DecidableEq

namespace Entry

/-! ## Preparation -/

variable (w : Served) (e : Entry)

/-- the events for the socket of the client in the states that read from it and write to it -/
def clientEvents : PollEvents where
  pollIn := decide (0 < e.input.bytesLeft)
  pollOut := !e.outputPackets.isEmpty

def preparePollFds : Entry :=
  match e.state with
  | .idle => { e with pDesc := some e.clientEvents, fwdPDesc := none }
  | .read => { e with pDesc := some e.clientEvents, fwdPDesc := none }
  | .getBlock => { e with pDesc := some e.clientEvents, fwdPDesc := none }
  | .writeLast => { e with pDesc := some e.clientEvents, fwdPDesc := none }
  | .connecting => { e with pDesc := none, fwdPDesc := some ⟨false, true⟩ }
  | .writeInit => { e with pDesc := none, fwdPDesc := if 0 < e.fwdBytesLeft then some ⟨false, true⟩ else none }
  | .writeForward =>
    { e with pDesc := some e.clientEvents, fwdPDesc := some ⟨true, decide (0 < e.fwdBytesLeft)⟩ }
  | .writeFinish =>
    { e with pDesc := if e.outputPackets.isEmpty then none else some ⟨false, true⟩, fwdPDesc := none }
  | .close => { e with pDesc := none, fwdPDesc := none }
  | .closeWait => { e with pDesc := none, fwdPDesc := none }
  | .closed => { e with pDesc := none, fwdPDesc := none }

/-! ## Finished jobs -/

def callBack (j : Job) (status : Status) (c : ConnectResult) (e : Entry) : Except Crash Entry :=
  match j.callback with
  | .readFinished => e.readFinishedCallback status
  | .writeFinished => e.writeFinishedCallback status j.writeId c
  | .getBlocksFinished => .ok (e.getChunkBlocksFinishedCallback status)
  | .delayedClose => .ok e.delayedCloseCallback

/-- `job_pool_check_jobs` for one finished job. A closed connection has been destroyed. -/
def finishJob (id : ℕ) (status : Status) (c : ConnectResult) (e : Entry) : Except Crash Entry :=
  match e.jobs.find? fun j => j.id == id with
  | none => .ok e
  | some j =>
    if e.state = .closed then .error .memory
    else { e with jobs := e.jobs.eraseP fun j => j.id == id }.callBack j status c

/-! ## Service -/

def clientIn : Bool := w.pollIn && e.pDesc.any PollEvents.pollIn

def clientOut : Bool := w.pollOut && e.pDesc.any PollEvents.pollOut

/-- POLLIN on the socket of the next server -/
def fwdIn : Bool := w.fwdPollIn && e.fwdPDesc.any PollEvents.pollIn

/-- POLLOUT on the socket of the next server -/
def fwdOut : Bool := w.fwdPollOut && e.fwdPDesc.any PollEvents.pollOut

def servePollErrors : Except Crash Entry :=
  if w.hup && e.pDesc.isSome then .ok { e with state := .close }
  else if w.fwdHup && e.fwdPDesc.isSome then e.fwdError
  else .ok e

/-- bytes from the client, in the states without forwarding -/
def serveRead : Except Crash Entry :=
  if e.clientIn w then e.readFromSocket w.next w.read₁ w.read₂ w.connect else .ok e

/-- packets to the client, unless the state has changed since the service began -/
def serveWrite (lstate : State) (e : Entry) : Except Crash Entry :=
  if e.clientOut w ∧ e.state = lstate then e.writeToSocket w.sent else .ok e

/-- the states without forwarding -/
def serveClient : Except Crash Entry := do (← e.serveRead w).serveWrite w e.state

/-- after connecting, some data can likely be sent -/
def serveInitAfterConnect : Except Crash Entry :=
  if e.state = .writeInit then e.fwdWrite w.fwdWritten else .ok e

/-- after forming the chain, some data can likely be forwarded -/
def serveForwardAfterInit : Except Crash Entry :=
  if e.state = .writeForward then e.forward w.next w.read₁ w.read₂ w.forwarded w.connect else .ok e

/-- `State::Connecting` -/
def serveConnecting : Except Crash Entry :=
  if e.fwdOut w then do
    let e ← e.fwdConnected w.connected
    let e ← e.serveInitAfterConnect w
    e.serveForwardAfterInit w
  else .ok e

def serveWriteInit : Except Crash Entry :=
  if e.fwdOut w then do
    let e ← e.fwdWrite w.fwdWritten
    e.serveForwardAfterInit w
  else .ok e

/-- bytes from the client to the next server -/
def serveForward : Except Crash Entry :=
  if e.clientIn w || e.fwdOut w then e.forward w.next w.read₁ w.read₂ w.forwarded w.connect else .ok e

/-- statuses from the next server -/
def serveFwdRead : Except Crash Entry :=
  if e.fwdIn w ∧ e.state = .writeForward then e.fwdRead w.fwdNext w.fwdRead₁ w.fwdRead₂ w.connect else .ok e

def serveWriteForward : Except Crash Entry := do
  let e ← e.serveForward w
  let e ← e.serveFwdRead w
  e.serveWrite w .writeForward

def serveState : Except Crash Entry :=
  match e.state with
  | .idle => e.serveClient w
  | .read => e.serveClient w
  | .writeLast => e.serveClient w
  | .writeFinish => e.serveClient w
  | .getBlock => e.serveClient w
  | .connecting => e.serveConnecting w
  | .writeInit => e.serveWriteInit w
  | .writeForward => e.serveWriteForward w
  | _ => .ok e

/-- a failed write is over when its last status has been sent -/
def serveFinish : Entry :=
  if e.state = .writeFinish ∧ e.outputPackets = [] then { e with state := .close } else e

/-- the connection to the next server takes too long -/
def serveConnectTimeout : Except Crash Entry :=
  if e.state = .connecting ∧ w.connectTimedOut then e.retryConnect w.retry else .ok e

/-- a connection that has been inactive for too long is to be closed -/
def serveInactive : Entry :=
  if e.state ≠ .close ∧ e.state ≠ .closeWait ∧ e.state ≠ .closed ∧ w.inactive then { e with state := .close } else e

/-- the jobs of a connection that is to be closed are called off -/
def serveClose : Entry := if e.state = .close then e.closeJobs else e

/-- the descriptors of this round are no longer valid -/
def dropPollFds : Entry := { e with pDesc := none, fwdPDesc := none }

def servePoll : Except Crash Entry := do
  let e ← e.servePollErrors w
  let e ← e.serveState w
  let e ← e.serveFinish.serveConnectTimeout w
  .ok (e.serveInactive w).serveClose.dropPollFds

/-- the loop leaves a closed connection alone -/
theorem ended_unserved (hs : e.state = .closeWait ∨ e.state = .closed) :
    e.preparePollFds = e.dropPollFds ∧
      (e.pDesc = none → e.fwdPDesc = none → e.servePoll w = .ok e.dropPollFds) := by
  rcases hs with hs | hs
  all_goals
    refine ⟨by simp [preparePollFds, dropPollFds, hs], fun hp hf => ?_⟩
    simp [servePoll, servePollErrors, hp, hf, serveState, hs, serveFinish, serveConnectTimeout, serveInactive,
      serveClose, bind, Except.bind]

/-! ## Runs -/

/-- one step of the loop -/
def step : Event → Except Crash Entry
  | .preparePollFds => .ok e.preparePollFds
  | .jobFinished id status c => e.finishJob id status c
  | .servePoll w => e.servePoll w

/-- a run of the loop from a given state -/
def run (es : List Event) : Except Crash Entry := es.foldlM step e

end Entry

/-! ## Packets handed over -/

/-- a READ that starts disk jobs -/
def Packet.isServedRead (p : Packet) : Bool :=
  match p.message with
  | .read _ (some r) => r.instantResponse.isNone
  | _ => false

/-- the read returns all the bytes asked for -/
def ReadResult.completes (n : ℕ) : ReadResult → Bool
  | .got k => decide (n ≤ k)
  | _ => false

/-- the read returns bytes -/
def ReadResult.delivers : ReadResult → Bool
  | .got k => decide (0 < k)
  | _ => false

theorem Receiving.read_stored (r : Receiving) (result : ReadResult) :
    Ensures (r.read result) fun o => ∀ r', o = .stored r' → result.delivers ∧ r'.current = r.current ∧
      r'.mode = r.mode ∧ (r'.bytesLeft = 0 → result.completes r.bytesLeft) := by
  unfold Receiving.read
  repeat' split
  · exact ensures_ok.2 fun r' h => by cases h
  · exact ensures_ok.2 fun r' h => by cases h
  · exact ensures_ok.2 fun r' h => by cases h
  · refine ensures_ok.2 fun r' h => ?_
    cases h
    refine ⟨?_, rfl, rfl, fun hl => ?_⟩
    · simp only [ReadResult.delivers, decide_eq_true_eq]
      omega
    · simp only [ReadResult.completes, decide_eq_true_eq]
      simp only at hl
      omega
  · exact ensures_error

/-- the packet that `readFromSocket` hands over, if it gets all of it -/
def Entry.handedOver (w : Served) (e : Entry) : Option Packet :=
  match e.input.mode with
  | .header =>
    if w.read₁.completes e.input.bytesLeft ∧ (w.next.length = 0 ∨ w.read₂.completes w.next.length) then some w.next
    else none
  | .data => if e.input.bytesLeft = 0 ∨ w.read₂.completes e.input.bytesLeft then some e.input.current else none

namespace Entry

/-- a read of a whole packet -/
def receives (p : Packet) : Served := { pollIn := true, next := p, read₁ := .got headerSize, read₂ := .got p.length }

/-- the socket of the client takes `n` packets -/
def sends (n : ℕ) : Served := { pollOut := true, sent := List.replicate n .all }

/-- a READ of the first kilobyte of a chunk -/
def readPacketOf (chunkId : ℕ) : Packet := ⟨.read .saunafs (some ⟨chunkId, 1, standardPartType, 0, 1024⟩), 30⟩

end Entry

end SaunaFS.Chunkserver
