/-
One server of a write chain: a connection that receives a WRITE_INIT and then WRITE_DATA packets, passes them on and
answers with WRITE_STATUS packets (`chunkserver/chunkserver_entry.cc`). A `Link` says what its client has sent, what the
next server has answered, and what has been taken of both.
-/
import SaunaFS.Chunkserver.Worker

namespace SaunaFS.Chunkserver

open SaunaFS.Chunks Fallible List Nat Entry Packet Receiving

/-! ## Packets of a chain -/

namespace Packet

/-- a WRITE_INIT for a chain with `n` servers behind its receiver, if it can be deserialised -/
def formsChain (n : ℕ) (p : Packet) : Prop :=
  ∃ f request, p.message = .writeInit f request ∧ ∀ r ∈ request, r.chain.length = n

variable (p : Packet)

def isWrite : Prop := ∃ s d, p.message = .writeData s (some d)

def isStatus : Prop := ∃ s w, p.message = .writeStatus s (some w)

/-- the write that a packet asks for; a WRITE_INIT asks for the write 0 -/
def writeId : ℕ :=
  match p.message with
  | .writeData _ (some d) => d.writeId
  | _ => 0

/-- the write that a packet acknowledges -/
def okId : Option ℕ :=
  match p.message with
  | .writeStatus _ (some w) => if w.status = .ok then some w.writeId else none
  | _ => none

end Packet

theorem WriteInit.length_servers {f : InitFormat} {r : WriteInit} : (r.servers f).length = r.chain.length := by
  cases f <;> simp [WriteInit.servers]

theorem serializeCltocsWriteInit_formsChain (chunkId version : ℕ) (chunkType : ChunkPartType) (chain : List ChainLink)
    (targetVersion : ℕ) :
    (serializeCltocsWriteInit chunkId version chunkType chain targetVersion).formsChain chain.length := by
  unfold serializeCltocsWriteInit
  split_ifs <;> exact ⟨_, _, rfl, by simp⟩

/-- a packet as its receiver gets it; of the packets of other requests nothing is said -/
def OutPacket.arriving : OutPacket → Packet
  | .writeStatus .legacy w => ⟨.writeStatus .legacy (some w), 8 + 4 + 1⟩
  | .writeStatus .saunafs w => ⟨.writeStatus .saunafs (some w), 4 + 8 + 4 + 1⟩
  | _ => ⟨.other, 0⟩

variable {s : Serializer}

theorem OutPacket.okId_arriving {w : WriteStatus} :
    (OutPacket.writeStatus s w).arriving.okId = if w.status = .ok then some w.writeId else none := by
  cases s <;> rfl

/-- the packet that is being received, once its header is there -/
def Receiving.pending (r : Receiving) : List Packet :=
  match r.mode with
  | .header => []
  | .data => [r.current]

theorem Receiving.pending_data {r : Receiving} (hm : r.mode = .data) : r.pending = [r.current] := by
  simp [pending, hm]

theorem Receiving.ensures_read {r : Receiving} {result : ReadResult} {f : Outcome → Except Crash Entry}
    {P : Entry → Prop} (ha : Ensures (f .again) P) (hl : Ensures (f .lost) P)
    (hs : ∀ i, result.delivers → i.pending = r.pending → i.mode = r.mode → Ensures (f (.stored i)) P) :
    Ensures (r.read result >>= f) P := by
  refine (r.read_stored result).bind fun o ho => ?_
  cases o with
  | again => exact ha
  | lost => exact hl
  | stored i =>
    obtain ⟨hg, hc, hm, -⟩ := ho i rfl
    exact hs i hg (by simp [pending, hc, hm]) hm

namespace Entry

variable (e : Entry)

/-- the packets for the client, sent or queued -/
def statuses : List OutPacket := e.history.sent ++ e.outputPackets

/-- a packet of the client is complete and has been taken -/
@[simp] def taken : Entry :=
  { e with
    input := e.input.expectHeader
    history := { e.history with received := e.history.received ++ [e.input.current] } }

/-- a packet of the next server has been taken -/
@[simp] def fwdTaken : Entry :=
  { e with
    fwdInput := e.fwdInput.expectHeader
    history := { e.history with fwdReceived := e.history.fwdReceived ++ [e.fwdInput.current] } }

@[simp] def nextIsDone (w : ℕ) (e : Entry) : Entry :=
  { e with history := { e.history with nextDone := e.history.nextDone ++ [w] } }

/-- the writes that have been acknowledged -/
def acks : List ℕ := e.statuses.filterMap fun p => p.arriving.okId

/-- the write that is being done -/
def running : List ℕ := (e.jobs.filter fun j => j.callback = .writeFinished).map Job.writeId

end Entry

/-! ## What a server is linked to -/

/-- the streams of packets that reach a server from its client and from the next server, what it has taken of them, and
what it had answered and passed on at some point before -/
structure Link where
  behind : ℕ
  up : List Packet
  down : List Packet
  headers : List Packet
  fwdHeaders : List Packet
  statuses : List OutPacket
  forwarded : List Packet
  head : ∀ p ∈ up.head?, p.formsChain behind
  tail : ∀ p ∈ up.tail, p.isWrite
  answers : ∀ p ∈ down, p.isStatus
  headers_le : headers <+: up
  fwdHeaders_le : fwdHeaders <+: down

namespace Link

/-- one more header from the client -/
def receive (L : Link) (p : Packet) (h : L.headers ++ [p] <+: L.up) : Link :=
  { L with headers := L.headers ++ [p], headers_le := h }

/-- one more header from the next server -/
def fwdReceive (L : Link) (p : Packet) (h : L.fwdHeaders ++ [p] <+: L.down) : Link :=
  { L with fwdHeaders := L.fwdHeaders ++ [p], fwdHeaders_le := h }

end Link

namespace Link

/-- what a round of the loop reads from the two sockets is what comes next in their streams; a system call that is not
made returns nothing -/
structure Delivers (L : Link) (w : Served) : Prop where
  up : w.read₁.delivers = true → L.headers ++ [w.next] <+: L.up
  down : w.fwdRead₁.delivers = true → L.fwdHeaders ++ [w.fwdNext] <+: L.down

/-- the same streams, with more of them taken perhaps -/
structure Follows (L L' : Link) : Prop where
  behind : L'.behind = L.behind
  up : L'.up = L.up
  down : L'.down = L.down
  statuses : L'.statuses = L.statuses
  forwarded : L'.forwarded = L.forwarded

theorem Follows.refl {L : Link} : L.Follows L := ⟨rfl, rfl, rfl, rfl, rfl⟩

end Link

/-! ## The ledger of a server -/

/-- the books on acknowledged writes: alone, a server acknowledges what its disk has done; before another one, it
acknowledges what both have done, and remembers what one of them has done -/
structure Ledger (behind : ℕ) (acks : List ℕ) (partly : Finset ℕ) (written nextDone : List ℕ) : Prop where
  alone : behind = 0 → ∀ w, acks.count w + (if w ∈ partly then 1 else 0) ≤ written.count w
  paired : 0 < behind → ∀ w, written.count w + nextDone.count w = 2 * acks.count w + if w ∈ partly then 1 else 0

/-- one of the two sides is done with `w`: it is acknowledged if the other side was done before -/
def Toggled (w : ℕ) (acks : List ℕ) (partly : Finset ℕ) (acks' : List ℕ) (partly' : Finset ℕ) : Prop :=
  w ∈ partly ∧ acks' = acks ++ [w] ∧ partly' = partly.erase w ∨ w ∉ partly ∧ acks' = acks ∧ partly' = insert w partly

section Ledger

variable {behind w : ℕ} {acks acks' written nextDone : List ℕ} {partly partly' : Finset ℕ}

theorem Toggled.count (h : Toggled w acks partly acks' partly') (v : ℕ) :
    2 * acks'.count v + (if v ∈ partly' then 1 else 0) =
      2 * acks.count v + (if v ∈ partly then 1 else 0) + [w].count v := by
  rcases h with ⟨hw, rfl, rfl⟩ | ⟨hw, rfl, rfl⟩
  · rcases eq_or_ne v w with rfl | hn
    · simp [hw, mul_add]
    · simp [hn, hn.symm]
  · rcases eq_or_ne v w with rfl | hn
    · simp [hw]
    · simp [hn, hn.symm]

theorem Toggled.mono (h : Toggled w acks partly acks' partly') (v : ℕ) : acks.count v ≤ acks'.count v := by
  rcases h with ⟨-, rfl, -⟩ | ⟨-, rfl, -⟩
  · simp
  · exact le_rfl

theorem Ledger.empty : Ledger behind [] ∅ [] [] := ⟨by simp, by simp⟩

section

variable (h : Ledger behind acks partly written nextDone)
include h

theorem Ledger.disk (ht : Toggled w acks partly acks' partly') :
    Ledger behind acks' partly' (written ++ [w]) nextDone := by
  refine ⟨fun h0 v => ?_, fun hp v => ?_⟩
  · have hv := h.alone h0 v
    have hc := ht.count v
    have hm := ht.mono v
    rw [count_append]
    omega
  · have hv := h.paired hp v
    have hc := ht.count v
    rw [count_append]
    omega

theorem Ledger.next (hp : 0 < behind)
    (ht : Toggled w acks partly acks' partly') : Ledger behind acks' partly' written (nextDone ++ [w]) := by
  refine ⟨fun h0 => absurd h0 hp.ne', fun _ v => ?_⟩
  have hv := h.paired hp v
  have hc := ht.count v
  rw [count_append]
  omega

theorem Ledger.disk_last (h0 : behind = 0) : Ledger behind (acks ++ [w]) partly (written ++ [w]) nextDone := by
  refine ⟨fun _ v => ?_, fun hp => absurd h0 hp.ne'⟩
  have hv := h.alone h0 v
  simp only [count_append]
  omega

end

end Ledger

/-! ## The invariants of a server -/

variable {chunkId : ℕ} {status : Status} {c : ConnectResult}

namespace Entry

/-- what has been received, passed on and written so far is in order -/
structure Kept (L : Link) (e : Entry) : Prop where
  headers : e.history.headers = L.headers
  fwdHeaders : e.history.fwdHeaders = L.fwdHeaders
  received : e.history.received <+: L.headers
  fwdReceived : e.history.fwdReceived <+: L.fwdHeaders
  grown : L.statuses <+: e.statuses
  passedOn : L.forwarded <+: e.history.forwarded
  replies : ∀ p ∈ e.statuses, ∃ s w, p = .writeStatus s w
  writes : (e.history.written ++ e.running).Sublist (e.history.received.map writeId)
  next : e.history.nextDone.Sublist (e.history.fwdReceived.filterMap okId)
  forwarded : e.history.forwarded = [] ∨ 0 < L.behind ∧
    ∃ p tl, e.history.forwarded = p :: tl ∧ p.formsChain (L.behind - 1) ∧ tl <+: L.headers.tail

/-- and so are the books -/
structure Safe (L : Link) (e : Entry) : Prop extends Kept L e where
  ledger : Ledger L.behind e.acks e.partiallyCompletedWrites e.history.written e.history.nextDone

/-- at most one job, an open or a write, and the connection knows it -/
def Working (jobs : List Job) (writeJobId writeJobWriteId nextJobId : ℕ) : Prop :=
  0 < nextJobId ∧ (jobs = [] ∧ writeJobId = 0 ∨
    jobs = [⟨writeJobId, .writeFinished, writeJobWriteId⟩] ∧ 0 < writeJobId)

/-- every packet received is written or being written, and every answer so far was an OK -/
structure Course (received : List Packet) (written running : List ℕ) (statuses : List OutPacket) : Prop where
  begun : received ≠ []
  writes : written ++ running = received.map writeId
  oks : ∀ p ∈ statuses, p.arriving.okId.isSome = true

def Regular (e : Entry) : Prop := Course e.history.received e.history.written e.running e.statuses

/-- every packet received is passed on -/
def PassesOn (L : Link) (e : Entry) : Prop := ∃ p, e.history.forwarded = p :: L.headers.tail

/-- what holds in each state -/
def Phase (L : Link) (e : Entry) : Prop :=
  match e.state with
  | .idle => e.history.received = [] ∧ e.statuses = [] ∧ e.history.forwarded = [] ∧ L.fwdHeaders = [] ∧ e.jobs = [] ∧
      e.partiallyCompletedWrites = ∅ ∧ e.messageSerializer = none
  | .writeLast => L.behind = 0 ∧ e.Regular ∧ e.acks = e.history.written
  | .connecting => 0 < L.behind ∧ e.Regular ∧ e.PassesOn L ∧ L.fwdHeaders = [] ∧ 0 < e.fwdBytesLeft
  | .writeInit => 0 < L.behind ∧ e.Regular ∧ e.PassesOn L ∧ L.fwdHeaders = [] ∧ 0 < e.fwdBytesLeft
  | .writeForward => 0 < L.behind ∧ e.Regular ∧ e.PassesOn L ∧
      e.history.nextDone = e.history.fwdReceived.filterMap okId
  | .writeFinish => e.history.received ≠ []
  | .close => True
  | _ => False

/-- what holds of an open connection in any state -/
structure Open (L : Link) (e : Entry) : Prop where
  safe : e.Safe L
  input : L.headers = e.history.received ++ e.input.pending
  fwdInput : L.fwdHeaders = e.history.fwdReceived ++ e.fwdInput.pending
  working : Working e.jobs e.writeJobId e.writeJobWriteId e.nextJobId
  others : e.readJobId = 0 ∧ e.getBlocksJobId = 0

/-- an open connection of a server of a chain -/
structure Serves (L : Link) (e : Entry) : Prop extends Open L e where
  phase : e.Phase L

variable {L : Link} {e e' : Entry}

theorem phase_idle (hs : e.state = .idle) : e.Phase L ↔ e.history.received = [] ∧ e.statuses = [] ∧
    e.history.forwarded = [] ∧ L.fwdHeaders = [] ∧ e.jobs = [] ∧ e.partiallyCompletedWrites = ∅ ∧
    e.messageSerializer = none := by
  simp only [Phase, hs]

theorem phase_writeLast (hs : e.state = .writeLast) :
    e.Phase L ↔ L.behind = 0 ∧ e.Regular ∧ e.acks = e.history.written := by
  simp only [Phase, hs]

theorem phase_forming (hs : e.state = .connecting ∨ e.state = .writeInit) :
    e.Phase L ↔ 0 < L.behind ∧ e.Regular ∧ e.PassesOn L ∧ L.fwdHeaders = [] ∧ 0 < e.fwdBytesLeft := by
  rcases hs with hs | hs <;> simp only [Phase, hs]

theorem phase_writeForward (hs : e.state = .writeForward) : e.Phase L ↔ 0 < L.behind ∧ e.Regular ∧ e.PassesOn L ∧
    e.history.nextDone = e.history.fwdReceived.filterMap okId := by
  simp only [Phase, hs]

/-! ## The packets of the streams -/

theorem Open.current_formsChain (h : e.Open L) (hr : e.history.received = []) (hm : e.input.mode = .data) :
    e.input.current.formsChain L.behind := by
  have ho : L.headers = [e.input.current] := by rw [h.input, hr, pending_data hm, nil_append]
  obtain ⟨t, ht⟩ := L.headers_le
  refine L.head _ ?_
  rw [← ht, ho]
  rfl

theorem Open.current_isWrite (h : e.Open L) (hr : e.history.received ≠ []) (hm : e.input.mode = .data) :
    e.input.current.isWrite := by
  have hme : e.input.current ∈ L.headers.tail := by
    rw [h.input, pending_data hm, tail_append_of_ne_nil hr]
    simp
  have hl : L.headers.tail <+: L.up.tail := by simpa using L.headers_le.drop 1
  exact L.tail _ (hl.subset hme)

theorem Open.fwdCurrent_isStatus (h : e.Open L) (hm : e.fwdInput.mode = .data) : e.fwdInput.current.isStatus := by
  have hme : e.fwdInput.current ∈ L.fwdHeaders := by
    rw [h.fwdInput, pending_data hm]
    simp
  exact L.answers _ (L.fwdHeaders_le.subset hme)

/-! ## Statuses -/

theorem statuses_attach {writeId : ℕ} : (e.attachWriteStatus s chunkId writeId status).statuses =
    e.statuses ++ [.writeStatus s ⟨chunkId, writeId, status⟩] := by
  simp [statuses, attachWriteStatus, attachPacket]

theorem acks_attach {writeId : ℕ} :
    (e.attachWriteStatus s chunkId writeId status).acks = e.acks ++ if status = .ok then [writeId] else [] := by
  rw [acks, statuses_attach, filterMap_append, acks]
  by_cases ho : status = .ok <;> simp [OutPacket.okId_arriving, ho]

theorem Kept.attach (h : e.Kept L) {writeId : ℕ} : Kept L (e.attachWriteStatus s chunkId writeId status) := by
  refine { h with grown := ?_, replies := fun p hp => ?_ }
  · rw [statuses_attach]
    exact h.grown.trans (prefix_append _ _)
  · rw [statuses_attach] at hp
    rcases mem_append.1 hp with hp | hp
    · exact h.replies p hp
    · exact ⟨s, _, mem_singleton.1 hp⟩

theorem Safe.attach_error (h : e.Safe L) {writeId : ℕ}
    (hs : status ≠ .ok) : Safe L (e.attachWriteStatus s chunkId writeId status) where
  toKept := h.toKept.attach
  ledger := by
    rw [acks_attach, if_neg hs, append_nil]
    exact h.ledger

/-! ## Errors -/

theorem Kept.frame (h : e.Kept L) (hh : e'.history = e.history) (ho : e'.outputPackets = e.outputPackets)
    (hj : e'.jobs = e.jobs) : e'.Kept L := by
  have hs : e'.statuses = e.statuses := by rw [statuses, statuses, hh, ho]
  have hr : e'.running = e.running := by rw [running, running, hj]
  obtain ⟨headers, fwdHeaders, received, fwdReceived, grown, passedOn, replies, writes, next, forwarded⟩ := h
  rw [← hh] at headers fwdHeaders received fwdReceived passedOn writes next forwarded
  rw [← hs] at grown replies
  rw [← hr] at writes
  exact ⟨headers, fwdHeaders, received, fwdReceived, grown, passedOn, replies, writes, next, forwarded⟩

theorem Safe.frame (h : e.Safe L) (hh : e'.history = e.history) (ho : e'.outputPackets = e.outputPackets)
    (hp : e'.partiallyCompletedWrites = e.partiallyCompletedWrites) (hj : e'.jobs = e.jobs) : e'.Safe L where
  toKept := h.toKept.frame hh ho hj
  ledger := by
    rw [show e'.acks = e.acks by rw [acks, acks, statuses, statuses, hh, ho], hp, hh]
    exact h.ledger

/-- what `Open` is about -/
def view (e : Entry) :=
  (e.history, e.input.pending, e.fwdInput.pending, e.outputPackets, e.partiallyCompletedWrites, e.jobs, e.writeJobId,
    e.writeJobWriteId, e.nextJobId, e.readJobId, e.getBlocksJobId)

theorem Open.frame (h : e.Open L) (he : e'.view = e.view) : e'.Open L := by
  simp only [view, Prod.mk.injEq] at he
  obtain ⟨hh, hi, hf, ho, hp, hj, hw, hwi, hn, hr, hg⟩ := he
  exact ⟨h.safe.frame hh ho hp hj, by rw [hh, hi]; exact h.input, by rw [hh, hf]; exact h.fwdInput,
    by rw [hj, hw, hwi, hn]; exact h.working, by rw [hr, hg]; exact h.others⟩

theorem Open.close (h : e.Open L) : Serves L { e with state := .close } :=
  ⟨h.frame rfl, trivial⟩

theorem Open.fail (h : e.Open L) (hr : e.history.received ≠ []) {writeId : ℕ} (hst : status ≠ .ok) :
    Serves L { e.attachWriteStatus s chunkId writeId status with state := .writeFinish } := by
  have hs : Safe L { e.attachWriteStatus s chunkId writeId status with state := .writeFinish } :=
    (h.safe.attach_error hst).frame rfl rfl rfl rfl
  exact ⟨⟨hs, h.input, h.fwdInput, h.working, h.others⟩, hr⟩

theorem Serves.begun (h : e.Serves L) (hi : e.state ≠ .idle) (hc : e.state = .close → e.history.received ≠ []) :
    e.history.received ≠ [] := by
  have hp := h.phase
  unfold Phase at hp
  split at hp
  · contradiction
  · exact hp.2.1.begun
  · exact hp.2.1.begun
  · exact hp.2.1.begun
  · exact hp.2.1.begun
  · exact hp
  · exact hc ‹_›
  · exact hp.elim

theorem Serves.fwdError (h : e.Serves L) (hc : e.state = .close → e.history.received ≠ []) :
    Ensures e.fwdError (Serves L) := by
  dsimp only [Entry.fwdError]
  split
  · exact ensures_error
  · rename_i s hs
    refine ensures_ok.2 (h.toOpen.fail (h.begun (fun hi => ?_) hc) ?_)
    · -- the idle connection has no serialiser
      have hp := h.phase
      simp only [Phase, hi] at hp
      rw [hp.2.2.2.2.2.2] at hs
      cases hs
    · split <;> simp

/-! ## Packets from the client -/

theorem headerSize_pos : 0 < headerSize := by decide

/-- where a connection stands when it has taken a packet: it waits for the next header, and nothing has happened on the
side of the next server -/
structure Lands (L : Link) (e e' : Entry) : Prop where
  serves : e'.Serves L
  mode : e'.input.mode = .header
  left : 0 < e'.input.bytesLeft
  forward : e'.state = .writeForward → e.state = .writeForward ∧ e'.fwdInput = e.fwdInput
  closing : e'.state = .close → e'.jobs = [] ∧ e'.history.received ≠ []

theorem Open.take (h : e.Open L) (hm : e.input.mode = .data) : Open L e.taken := by
  have ha : L.headers = e.history.received ++ [e.input.current] := by rw [h.input, pending_data hm]
  refine { h with safe := ⟨{ h.safe.toKept with received := ?_, writes := ?_ }, h.safe.ledger⟩, input := ?_ }
  · exact ha ▸ prefix_refl _
  · rw [taken, map_append]
    exact h.safe.writes.trans (sublist_append_left _ _)
  · rw [ha]
    simp [pending, expectHeader]

theorem Working.none (h : Working e.jobs e.writeJobId e.writeJobWriteId e.nextJobId) (hw : e.writeJobId = 0) :
    e.jobs = [] := by
  rcases h.2 with ⟨hj, -⟩ | ⟨-, hp⟩
  · exact hj
  · omega

theorem Open.setInput (h : e.Open L) {i : Receiving} (hi : i.pending = e.input.pending) :
    Open L { e with input := i } :=
  h.frame (by simp only [view, hi])

theorem Open.start (h : e.Open L) (hj : e.jobs = []) (ids : List ℕ) (w : ℕ)
    (hre : e.history.received.map writeId = ids ++ [w]) (hl : e.history.written.Sublist ids) :
    Open L { e.jobNew .writeFinished w with writeJobWriteId := w, writeJobId := e.nextJobId } ∧
      (e.jobNew .writeFinished w).running = [w] := by
  have hn : (e.jobNew .writeFinished w).jobs = [⟨e.nextJobId, .writeFinished, w⟩] := by simp [jobNew, hj]
  have hr : (e.jobNew .writeFinished w).running = [w] := by simp [running, hn]
  refine ⟨{ h with safe := ⟨{ h.safe.toKept with writes := ?_ }, h.safe.ledger⟩, working := ?_ }, hr⟩
  · have hs : (e.history.written ++ [w]).Sublist (e.history.received.map writeId) := by
      rw [hre]
      exact hl.append (List.Sublist.refl _)
    rw [← hr] at hs
    exact hs
  · exact ⟨succ_pos _, .inr ⟨hn, h.working.1⟩⟩

theorem Serves.takeWrite (h : e.Serves L) (hm : e.input.mode = .data) (hw : e.writeJobId = 0)
    (hs : e.state = .writeLast ∨ e.state = .writeForward) {d : WriteData}
    (hd : e.input.current.message = .writeData s (some d)) :
    Ensures (writeData s (some d) e.input.current.length e.taken) (Lands L e) := by
  have ho := h.toOpen.take hm
  have hj : e.jobs = [] := Working.none h.working hw
  have hwri : e.history.written ++ e.running = e.history.written := by simp [running, hj]
  have hi : e.input.current.writeId = d.writeId := by simp [writeId, hd]
  dsimp only [writeData]
  repeat' split
  · exact ensures_ok.2 ⟨ho.close, rfl, headerSize_pos, by simp, fun _ => ⟨hj, by simp⟩⟩
  · exact ensures_error
  · rename_i status hsta
    have hst : status ≠ .ok := by
      unfold writeRefusal at hsta
      split_ifs at hsta <;> cases hsta <;> simp
    exact ensures_ok.2 ⟨ho.fail (by simp) hst, rfl, headerSize_pos, by simp, by simp⟩
  · have hsu : e.history.written.Sublist (e.history.received.map writeId) := by
      rw [← hwri]
      exact h.safe.writes
    have hk : Open L (preserveInputPacket e.taken) := by
      refine ho.setInput ?_
      split <;> rfl
    obtain ⟨hstar, hru⟩ := hk.start hj _ d.writeId (by simp [preserveInputPacket, hi]) hsu
    refine ensures_ok.2 ⟨⟨hstar, ?_⟩, ?_, ?_, fun hf => ⟨hf, rfl⟩, fun hc => ?_⟩
    · have hre : ∀ {e₁ : Entry}, e.Regular → e₁.history.received = e.history.received ++ [e.input.current] →
          e₁.history.written = e.history.written → e₁.running = [d.writeId] → e₁.statuses = e.statuses →
          e₁.Regular := by
        intro e₁ hr hrec hwr hru hst
        refine ⟨by simp [hrec], ?_, by rw [hst]; exact hr.oks⟩
        rw [hrec, hwr, hru, map_append, ← hr.writes, hwri]
        simp [hi]
      rcases hs with hs | hs
      · obtain ⟨h0, hr, ha⟩ := (phase_writeLast hs).1 h.phase
        refine (phase_writeLast ?_).2 ⟨h0, hre hr rfl rfl hru rfl, ha⟩
        exact hs
      · obtain ⟨hpo, hr, hp, hn⟩ := (phase_writeForward hs).1 h.phase
        refine (phase_writeForward ?_).2 ⟨hpo, hre hr rfl rfl hru rfl, hp, hn⟩
        exact hs
    · dsimp only [jobNew, preserveInputPacket]
      split <;> rfl
    · dsimp only [jobNew, preserveInputPacket]
      split <;> exact headerSize_pos
    · rw [show e.state = .close from hc] at hs
      simp at hs

theorem Open.passInit (h : e.Open L) (hf : e.history.forwarded = []) (hpo : 0 < L.behind) {p : Packet}
    (hp : p.formsChain (L.behind - 1)) :
    Open L { e with history := { e.history with forwarded := e.history.forwarded ++ [p] } } := by
  refine { h with safe := ⟨{ h.safe.toKept with
    passedOn := ?_, forwarded := .inr ⟨hpo, p, [], ?_, hp, nil_prefix⟩ }, h.safe.ledger⟩ }
  · exact h.safe.passedOn.trans (prefix_append _ _)
  · simp [hf]

theorem Serves.takeInit (h : e.Serves L) (hm : e.input.mode = .data) (hs : e.state = .idle) {f : InitFormat}
    {request : Option WriteInit} (hd : e.input.current.message = .writeInit f request)
    (hl : ∀ r ∈ request, r.chain.length = L.behind) : Ensures (writeInit f request c e.taken) (Lands L e) := by
  have ho := h.toOpen.take hm
  obtain ⟨hr, hst, hfw, hn, hj, hpa, -⟩ := (phase_idle hs).1 h.phase
  have hi : e.input.current.writeId = 0 := by simp [writeId, hd]
  have hwri : e.history.written = [] := by
    have hw := h.safe.writes
    rw [hr] at hw
    exact (append_eq_nil_iff.1 (sublist_nil.1 hw)).1
  have hh : L.headers.tail = [] := by
    rw [h.input, hr, pending_data hm]
    rfl
  have ha : e.acks = [] := by simp [acks, hst]
  have hre : ∀ {e₁ : Entry}, e₁.history.received = e.history.received ++ [e.input.current] →
      e₁.history.written = e.history.written → e₁.running = [0] → e₁.statuses = e.statuses → e₁.Regular := by
    intro e₁ hr' hwr hru hst'
    refine ⟨by simp [hr'], ?_, by simp [hst', hst]⟩
    rw [hr', hwr, hru, hr, hwri]
    simp [hi]
  cases request with
  | none => exact ensures_ok.2 ⟨ho.close, rfl, headerSize_pos, by simp, fun _ => ⟨hj, by simp⟩⟩
  | some r =>
    have hse : (r.servers f).length = L.behind := (r.length_servers).trans (hl r rfl)
    dsimp only [writeInit]
    split
    · rename_i hni
      have h0 : L.behind = 0 := by rw [← hse, hni, length_nil]
      have hset : Open L { e.taken with
          chunkId := r.chunkId, chunkVersion := r.version, chunkType := r.part f
          messageSerializer := some f.serializer } := ho.frame rfl
      obtain ⟨hsta, hru⟩ := hset.start hj [] 0 (by simp [hr, hi]) (by simp [hwri])
      refine ensures_ok.2 ⟨⟨hsta.frame rfl, h0, hre rfl rfl hru rfl, ?_⟩, rfl,
        headerSize_pos, by simp, by simp⟩
      exact ha.trans hwri.symm
    · rename_i next chain hco
      split_ifs
      · exact ensures_error
      have hpo : L.behind = chain.length + 1 := by rw [← hse, hco, length_cons]
      have hin := serializeCltocsWriteInit_formsChain r.chunkId r.version (r.part f) chain next.chunkserverVersion
      generalize serializeCltocsWriteInit r.chunkId r.version (r.part f) chain next.chunkserverVersion = p at hin ⊢
      have hset : ∀ st : State, Open L { e.taken with
          chunkId := r.chunkId, chunkVersion := r.version, chunkType := r.part f
          messageSerializer := some f.serializer, fwdStartPtr := true
          fwdBytesLeft := headerSize + p.length
          connectRetryCounter := 0, state := st } := fun st =>
        ho.frame rfl
      have hfo : ∀ st : State, st = .connecting ∨ st = .writeInit → Lands L e { e with
          input := e.input.expectHeader
          history := { e.history with
            received := e.history.received ++ [e.input.current]
            forwarded := e.history.forwarded ++ [p] }
          chunkId := r.chunkId, chunkVersion := r.version, chunkType := r.part f
          messageSerializer := some f.serializer, fwdStartPtr := true
          fwdBytesLeft := headerSize + p.length
          connectRetryCounter := 0, state := st
          jobs := e.jobs ++ [⟨e.nextJobId, .writeFinished, 0⟩], nextJobId := e.nextJobId + 1
          writeJobWriteId := 0, writeJobId := e.nextJobId } := by
        intro st hst
        obtain ⟨hsta, hru⟩ := (hset st).start hj [] 0 (by simp [hr, hi]) (by simp [hwri])
        have hp := hsta.passInit hfw (by omega) (by rwa [hpo, Nat.add_sub_cancel])
        refine ⟨⟨hp, ?_⟩, rfl, headerSize_pos, fun hf => ?_, fun hc => ?_⟩
        · refine (phase_forming hst).2 ⟨by omega, hre rfl rfl hru rfl, ⟨p, ?_⟩, hn, ?_⟩
          · rw [hh, hfw]
            rfl
          · exact Nat.add_pos_left headerSize_pos _
        · rcases hst with rfl | rfl <;> cases hf
        · rcases hst with rfl | rfl <;> cases hc
      cases c with
      | failed =>
        refine ensures_ok.2 ⟨?_, rfl, headerSize_pos, by simp, by simp⟩
        exact (hset .idle).fail (by simp) (by simp)
      | immediate => exact ensures_ok.2 (hfo .writeInit (.inr rfl))
      | inProgress => exact ensures_ok.2 (hfo .connecting (.inl rfl))

theorem Open.takeOther (h : e.Open L) (hm : e.input.mode = .data) (hw : e.writeJobId = 0) (hi : e.state ≠ .idle)
    (hl : e.state ≠ .writeLast) (hf : e.state ≠ .writeForward) (hr : e.state = .writeFinish → e.history.received ≠ []) :
    Ensures (e.takePacket c) (Lands L e) := by
  have ho := h.take hm
  have hk : e.input.current.formsChain L.behind ∨ e.input.current.isWrite := by
    by_cases hn : e.history.received = []
    · exact .inl (h.current_formsChain hn hm)
    · exact .inr (h.current_isWrite hn hm)
  by_cases hs : e.state = .writeFinish
  · obtain ⟨s, d, hd⟩ := h.current_isWrite (hr hs) hm
    have ht : e.takePacket c = .ok e.taken := by
      simp [takePacket, gotPacket, hd, hs, isForwarded]
    rw [ht]
    refine ensures_ok.2 ⟨⟨ho, ?_⟩, rfl, headerSize_pos, fun hfw => absurd hfw hf, fun hc => ?_⟩
    · simp [Phase, hs]
    · rw [show e.state = .close from hc] at hs
      cases hs
  · have ht : e.takePacket c = .ok { e.taken with
        state := .close } := by
      have hst : e.state = .idle ∨ e.state = .writeLast ∨ e.state = .writeForward ∨ e.state = .writeFinish ∨
          gotPacket e.input.current c e.taken =
          .ok { e.taken with
            state := .close } := by
        rcases hk with ⟨f, request, hd, -⟩ | ⟨s, d, hd⟩
        · cases hs' : e.state <;> simp [gotPacket, hd, hs']
        · cases hs' : e.state <;> simp [gotPacket, hd, hs']
      exact ((hst.resolve_left hi).resolve_left hl).resolve_left hf |>.resolve_left hs
    rw [ht]
    exact ensures_ok.2 ⟨ho.close, rfl, headerSize_pos, by simp, fun _ => ⟨Working.none h.working hw, by simp⟩⟩

theorem Serves.takePacket (h : e.Serves L) (hm : e.input.mode = .data) (hw : e.writeJobId = 0) :
    Ensures (e.takePacket c) (Lands L e) := by
  by_cases hi : e.state = .idle
  · obtain ⟨f, request, hd, hl⟩ := h.toOpen.current_formsChain ((phase_idle hi).1 h.phase).1 hm
    have ht : e.takePacket c = Entry.writeInit f request c e.taken := by
      simp [Entry.takePacket, Entry.gotPacket, gotPacketIdle, hd, hi]
    rw [ht]
    exact h.takeInit hm hi hd hl
  · by_cases hs : e.state = .writeLast ∨ e.state = .writeForward
    · have hr : e.history.received ≠ [] := h.begun hi fun hc => by simp [hc] at hs
      obtain ⟨s, d, hd⟩ := h.toOpen.current_isWrite hr hm
      have ht : e.takePacket c = writeData s (some d) e.input.current.length e.taken := by
        unfold Entry.takePacket Entry.gotPacket
        rcases hs with hs | hs
        · simp [gotPacketWriteLast, hd, hs]
        · simp [Entry.gotPacketWriteForward, hd, hs]
      rw [ht]
      exact h.takeWrite hm hw hs hd
    · push Not at hs
      exact h.toOpen.takeOther hm hw hi hs.1 hs.2 (fun hf => h.begun hi (by simp [hf]))

/-! ## Nothing is left lying -/

end Entry

/-- the states without an error -/
def State.isRegular : State → Bool
  | .idle => true
  | .writeLast => true
  | .connecting => true
  | .writeInit => true
  | .writeForward => true
  | _ => false

namespace Entry

variable {L : Link} {e e' : Entry}

/-- a complete packet of the client waits only for a job or for being passed on -/
structure Heeds (e : Entry) : Prop where
  header : e.state.isRegular = true → e.input.mode = .header → 0 < e.input.bytesLeft
  data : e.state.isRegular = true → e.input.mode = .data → e.input.bytesLeft = 0 →
    e.writeJobId ≠ 0 ∨ e.state = .writeForward ∧ 0 < e.fwdBytesLeft

theorem Heeds.of_header (hm : e.input.mode = .header) (hl : 0 < e.input.bytesLeft) : e.Heeds where
  header _ _ := hl
  data _ hd := by
    rw [hm] at hd
    cases hd

/-- a complete packet of the next server does not wait -/
def FwdHeeds (e : Entry) : Prop := e.state = .writeForward → e.fwdInput.mode = .data → 0 < e.fwdInput.bytesLeft

/-- an open connection in which nothing is left lying -/
structure Attends (L : Link) (e : Entry) : Prop extends Serves L e where
  heeds : e.Heeds
  fwdHeeds : e.FwdHeeds

/-- a connection that is to be closed has no job and has received something -/
def Settles (e : Entry) : Prop := e.state = .close → e.jobs = [] ∧ e.history.received ≠ []

theorem Lands.attends (h : Lands L e e') (hf : e.FwdHeeds) : e'.Attends L where
  toServes := h.serves
  heeds := .of_header h.mode h.left
  fwdHeeds hs hm := by
    obtain ⟨hs', hi⟩ := h.forward hs
    rw [hi] at hm ⊢
    exact hf hs' hm

theorem Serves.attends_of_error (h : e.Serves L) (hs : e.state.isRegular = false) : e.Attends L where
  toServes := h
  heeds := ⟨fun hr => by simp [hs] at hr, fun hr => by simp [hs] at hr⟩
  fwdHeeds hf := by simp [hf, State.isRegular] at hs

/-! ## Finished writes -/

theorem completeWrite_toggled (s : Serializer) (chunkId w : ℕ) : Toggled w e.acks e.partiallyCompletedWrites
    (e.completeWrite s chunkId w).acks (e.completeWrite s chunkId w).partiallyCompletedWrites := by
  unfold completeWrite
  split
  · refine .inl ⟨‹_›, ?_, rfl⟩
    exact acks_attach (e := e)
  · exact .inr ⟨‹_›, rfl, rfl⟩

theorem completeWrite_keeps {w : ℕ} :
    (e.completeWrite s chunkId w).state = e.state ∧ (e.completeWrite s chunkId w).input = e.input ∧
      (e.completeWrite s chunkId w).fwdInput = e.fwdInput ∧
      (e.completeWrite s chunkId w).writeJobId = e.writeJobId ∧
      (e.completeWrite s chunkId w).fwdBytesLeft = e.fwdBytesLeft := by
  unfold completeWrite
  split <;> exact ⟨rfl, rfl, rfl, rfl, rfl⟩

theorem Kept.completeWrite (h : e.Kept L) (s : Serializer) (chunkId w : ℕ) : Kept L (e.completeWrite s chunkId w) := by
  unfold Entry.completeWrite
  split
  · exact (h.attach).frame rfl rfl rfl
  · exact h.frame rfl rfl rfl

theorem Regular.attach_ok (h : e.Regular) {w : ℕ} : Regular (e.attachWriteStatus s chunkId w .ok) := by
  refine ⟨h.begun, h.writes, fun p hp => ?_⟩
  rw [statuses_attach] at hp
  rcases mem_append.1 hp with hp | hp
  · exact h.oks p hp
  · rw [mem_singleton.1 hp, OutPacket.okId_arriving]
    rfl

theorem Regular.completeWrite (h : e.Regular) (s : Serializer) (chunkId w : ℕ) :
    Regular (e.completeWrite s chunkId w) := by
  unfold Entry.completeWrite
  split
  · obtain ⟨hb, hw, ho⟩ := h.attach_ok
    exact ⟨hb, hw, ho⟩
  · exact ⟨h.begun, h.writes, h.oks⟩

theorem Phase.transfer (h : e.Phase L) (hs : e'.state = e.state) (hi : e.state ≠ .idle) (hl : e.state ≠ .writeLast)
    (hr : e.Regular → e'.Regular) (hre : e'.history.received = e.history.received)
    (hf : e'.history.forwarded = e.history.forwarded) (hle : e'.fwdBytesLeft = e.fwdBytesLeft)
    (hn : e.history.nextDone = e.history.fwdReceived.filterMap okId →
      e'.history.nextDone = e'.history.fwdReceived.filterMap okId) : e'.Phase L := by
  unfold Phase at h ⊢
  rw [hs]
  split at h
  · contradiction
  · contradiction
  · rw [hle]
    exact ⟨h.1, hr h.2.1, by unfold PassesOn; rw [hf]; exact h.2.2.1, h.2.2.2⟩
  · rw [hle]
    exact ⟨h.1, hr h.2.1, by unfold PassesOn; rw [hf]; exact h.2.2.1, h.2.2.2⟩
  · exact ⟨h.1, hr h.2.1, by unfold PassesOn; rw [hf]; exact h.2.2.1, hn h.2.2.2⟩
  · rw [hre]
    exact h
  · trivial
  · exact h.elim

theorem serves_completeWrite (hk : e.Kept L) (hin : L.headers = e.history.received ++ e.input.pending)
    (hf : L.fwdHeaders = e.history.fwdReceived ++ e.fwdInput.pending)
    (hw : Working e.jobs e.writeJobId e.writeJobWriteId e.nextJobId)
    (ho : e.readJobId = 0 ∧ e.getBlocksJobId = 0) (hp : e.Phase L) (hi : e.state ≠ .idle)
    (hl : e.state ≠ .writeLast) (s : Serializer) (chunkId : ℕ) {w : ℕ}
    (hle : ∀ {acks' : List ℕ} {partly' : Finset ℕ}, Toggled w e.acks e.partiallyCompletedWrites acks' partly' →
      Ledger L.behind acks' partly' e.history.written e.history.nextDone) : Serves L (e.completeWrite s chunkId w) := by
  have ht := hle (completeWrite_toggled s chunkId w)
  have hk' := hk.completeWrite s chunkId w
  have hre : e.Regular → (e.completeWrite s chunkId w).Regular := fun hr => hr.completeWrite s chunkId w
  revert ht hk' hre
  unfold completeWrite
  split
  all_goals
    intro ht hk' hre
    exact ⟨⟨⟨hk', ht⟩, hin, hf, hw, ho⟩, hp.transfer rfl hi hl hre rfl rfl rfl id⟩

theorem Serves.checkNextPacket (h : e.Serves L) (hw : e.writeJobId = 0)
    (hh : e.state.isRegular → e.input.mode = .header → 0 < e.input.bytesLeft) (hf : e.FwdHeeds)
    (hc : e.state ≠ .close) : Ensures (e.checkNextPacket c) fun e' => e'.Attends L ∧ e'.Settles := by
  unfold Entry.checkNextPacket
  split
  · rename_i hr
    exact (h.takePacket hr.1 hw).mono fun e' h' => ⟨h'.attends hf, h'.closing⟩
  · rename_i hr
    refine ensures_ok.2 ⟨⟨h, ⟨hh, fun _ hm hl => .inr ?_⟩, hf⟩, fun hc' => absurd hc' hc⟩
    by_contra hn
    refine hr ⟨hm, hl, fun hs => ?_⟩
    by_contra hp
    exact hn ⟨hs, pos_of_ne_zero hp⟩

variable {j : Job} {i : Receiving} {result result₂ : ReadResult}

theorem Open.job (h : e.Open L) (hj : j ∈ e.jobs) :
    j = ⟨e.writeJobId, .writeFinished, e.writeJobWriteId⟩ ∧ e.running = [e.writeJobWriteId] := by
  rcases h.working.2 with ⟨hn, -⟩ | ⟨ho, -⟩
  · rw [hn] at hj
    cases hj
  · rw [ho] at hj
    refine ⟨mem_singleton.1 hj, ?_⟩
    simp [running, ho]

theorem Open.forget (h : e.Open L) : Open L { e with jobs := [], writeJobId := 0 } := by
  refine { h with
    safe := ⟨{ h.safe.toKept with writes := ?_ }, h.safe.ledger⟩, working := ⟨h.working.1, .inl ⟨rfl, rfl⟩⟩ }
  refine List.Sublist.trans ?_ h.safe.writes
  exact sublist_append_of_sublist_left (by simp [running])

/-- the job has done its write -/
def wrote (e : Entry) : Entry :=
  { e with
    jobs := []
    writeJobId := 0
    isChunkOpen := e.isChunkOpen || decide (e.writeJobWriteId = 0)
    history := { e.history with written := e.history.written ++ [e.writeJobWriteId] } }

theorem Kept.wrote (h : e.Kept L) (hr : e.running = [e.writeJobWriteId]) : e.wrote.Kept L := by
  refine { h with writes := ?_ }
  have hw := h.writes
  rw [hr] at hw
  simpa [running, Entry.wrote] using hw

theorem Regular.wrote (h : e.Regular) (hr : e.running = [e.writeJobWriteId]) : e.wrote.Regular := by
  refine ⟨h.begun, ?_, h.oks⟩
  have hw := h.writes
  rw [hr] at hw
  simpa [running, Entry.wrote] using hw

theorem Attends.writeFinished (h : e.Attends L) (hc : e.state ≠ .close) (hj : j ∈ e.jobs) :
    Ensures (writeFinishedCallback status j.writeId c { e with jobs := [] })
      fun e' => e'.Attends L ∧ e'.Settles := by
  obtain ⟨rfl, hru⟩ := h.toOpen.job hj
  have hi : e.state ≠ .idle := fun hi => by
    rw [((phase_idle hi).1 h.phase).2.2.2.2.1] at hj
    cases hj
  have hr := h.begun hi fun hc' => absurd hc' hc
  dsimp only [writeFinishedCallback]
  split
  · exact ensures_error
  · rename_i s hser
    split
    · rename_i hst
      refine ensures_ok.2 ⟨Serves.attends_of_error ?_ rfl, fun hc' => by cases hc'⟩
      exact h.toOpen.forget.fail hr hst
    · have hk := h.safe.toKept.wrote hru
      have hw : Working [] 0 e.writeJobWriteId e.nextJobId := ⟨h.working.1, .inl ⟨rfl, rfl⟩⟩
      split
      · rename_i hs
        obtain ⟨h0, hre, ha⟩ := (phase_writeLast hs).1 h.phase
        change Ensures ((e.wrote.attachWriteStatus s e.chunkId e.writeJobWriteId .ok).checkNextPacket c) _
        refine Serves.checkNextPacket ⟨⟨⟨hk.attach, ?_⟩, h.input, h.fwdInput, hw, h.others⟩, ?_⟩ rfl
          h.heeds.header h.fwdHeeds hc
        · rw [acks_attach]
          exact h.safe.ledger.disk_last h0
        · refine (phase_writeLast ?_).2 ⟨h0, (hre.wrote hru).attach_ok, ?_⟩
          · exact hs
          · rw [acks_attach]
            exact congrArg (· ++ [e.writeJobWriteId]) ha
      · rename_i hs
        have hp : e.wrote.Phase L := h.phase.transfer rfl hi hs (fun hr => hr.wrote hru) rfl rfl rfl id
        have hse := serves_completeWrite hk h.input h.fwdInput hw h.others hp hi hs s e.chunkId
          fun ht => h.safe.ledger.disk ht
        obtain ⟨hsta, hin, hf, hjo, -⟩ := completeWrite_keeps (e := e.wrote)
        refine hse.checkNextPacket hjo ?_ ?_ (hsta ▸ hc)
        · rw [hsta, hin]
          exact h.heeds.header
        · unfold FwdHeeds
          rw [hsta, hf]
          exact h.fwdHeeds

/-! ## Packets from the next server -/

theorem FwdHeeds.of_header (hm : e.fwdInput.mode = .header) : e.FwdHeeds := fun _ hd => by
  rw [hm] at hd
  cases hd

theorem Attends.close (h : e.Open L) : Attends L { e with state := .close } := h.close.attends_of_error rfl

theorem Serves.fwdError_attends (h : e.Serves L) (hc : e.state = .close → e.history.received ≠ []) :
    Ensures e.fwdError (Attends L) := by
  have hs : Ensures e.fwdError fun e' => e'.state = .writeFinish := by
    dsimp only [Entry.fwdError]
    split
    · exact ensures_error
    · exact ensures_ok.2 rfl
  intro e' he'
  refine (h.fwdError hc e' he').attends_of_error ?_
  rw [hs e' he']
  rfl

theorem Open.fwdTake (h : e.Open L) (hm : e.fwdInput.mode = .data) : Open L e.fwdTaken := by
  have ha : L.fwdHeaders = e.history.fwdReceived ++ [e.fwdInput.current] := by
    rw [h.fwdInput, pending_data hm]
  refine { h with safe := ⟨{ h.safe.toKept with fwdReceived := ?_, next := ?_ }, h.safe.ledger⟩, fwdInput := ?_ }
  · exact ha ▸ prefix_refl _
  · rw [fwdTaken, filterMap_append]
    exact h.safe.next.trans (sublist_append_left _ _)
  · rw [ha]
    simp [pending, expectHeader]

theorem Serves.takeFwdPacket (h : e.Serves L) (hh : e.Heeds) (hs : e.state = .writeForward)
    (hm : e.fwdInput.mode = .data) : Ensures (e.takeFwdPacket c) (Attends L) := by
  have ho := h.toOpen.fwdTake hm
  have hr := h.begun (by simp [hs]) (by simp [hs])
  obtain ⟨hpo, hre, hpa, hn⟩ := (phase_writeForward hs).1 h.phase
  obtain ⟨s, w, hd⟩ := h.toOpen.fwdCurrent_isStatus hm
  have hta : e.takeFwdPacket c = Entry.writeStatus s (some w) e.fwdTaken := by
    simp [Entry.takeFwdPacket, Entry.gotPacket, Entry.gotPacketWriteForward, hd, hs]
  rw [hta]
  dsimp only [Entry.writeStatus]
  repeat' split
  · exact ensures_error
  · exact ensures_ok.2 (.close ho)
  · exact ensures_error
  · exact ensures_ok.2 ((ho.fail hr (by simp)).attends_of_error rfl)
  · exact ensures_ok.2 ((ho.fail hr ‹_›).attends_of_error rfl)
  · rename_i hst
    push Not at hst
    have hid : e.fwdInput.current.okId = some w.writeId := by simp [Packet.okId, hd, hst]
    have hdo : e.history.nextDone ++ [w.writeId] =
        (e.history.fwdReceived ++ [e.fwdInput.current]).filterMap Packet.okId := by
      rw [filterMap_append, hn]
      simp [hid]
    have hke : Kept L (e.fwdTaken.nextIsDone w.writeId) := by
      have hk := ho.safe.toKept
      refine { hk with next := ?_ }
      exact hdo ▸ List.Sublist.refl _
    have hp : Phase L (e.fwdTaken.nextIsDone w.writeId) := by
      refine (phase_writeForward ?_).2 ⟨hpo, ⟨hre.begun, hre.writes, hre.oks⟩, hpa, hdo⟩
      exact hs
    have hse := serves_completeWrite hke ho.input ho.fwdInput ho.working ho.others hp
      (by simp [hs]) (by simp [hs]) s w.chunkId fun ht => h.safe.ledger.next hpo ht
    obtain ⟨hsta, hi, hf, hj, hl⟩ := completeWrite_keeps (e := e.fwdTaken.nextIsDone w.writeId)
    change Ensures (.ok ((e.fwdTaken.nextIsDone w.writeId).completeWrite s w.chunkId w.writeId)) _
    refine ensures_ok.2 ⟨hse, ⟨?_, ?_⟩, FwdHeeds.of_header ?_⟩
    · rw [hsta, hi]
      exact hh.header
    · rw [hsta, hi, hj, hl]
      exact hh.data
    · rw [hf]
      rfl

theorem Serves.setFwdInput (h : e.Serves L) (hi : i.pending = e.fwdInput.pending) : Serves L { e with fwdInput := i } :=
  ⟨h.toOpen.frame (by simp only [view, hi]), h.phase⟩

theorem Serves.fwdReadData (h : e.Serves L) (hh : e.Heeds) (hs : e.state = .writeForward)
    (hm : e.fwdInput.mode = .data) : Ensures (e.fwdReadData result c) (Attends L) := by
  unfold Entry.fwdReadData
  split
  · exact h.takeFwdPacket hh hs hm
  · rename_i hl
    refine ensures_read (ensures_ok.2 ⟨h, hh, fun _ _ => pos_of_ne_zero hl⟩)
      (h.fwdError_attends (by simp [hs])) fun i _ hp hmo => ?_
    have hi := h.setFwdInput hp
    dsimp only
    split
    · exact ensures_ok.2 ⟨hi, { hh with }, fun _ _ => ‹_›⟩
    · exact hi.takeFwdPacket { hh with } hs (hmo.trans hm)

variable {p next : Packet} {result₁ : ReadResult}

theorem Serves.fwdStartData (h : e.Serves L) (hs : e.state = .writeForward) (hm : e.fwdInput.mode = .header)
    (hp : L.fwdHeaders ++ [p] <+: L.down) : Serves (L.fwdReceive p hp) (e.fwdStartData p i) := by
  have ha : L.fwdHeaders = e.history.fwdReceived := by rw [h.fwdInput]; simp [pending, hm]
  refine ⟨{ h.toOpen with
    safe := ⟨{ h.safe.toKept with fwdHeaders := ?_, fwdReceived := ?_ }, h.safe.ledger⟩, fwdInput := ?_ }, ?_⟩
  · exact congrArg (· ++ [p]) h.safe.fwdHeaders
  · exact h.safe.fwdReceived.trans (prefix_append _ _)
  · exact congrArg (· ++ [p]) ha
  · obtain ⟨hpo, hr, hpa, hn⟩ := (phase_writeForward hs).1 h.phase
    refine (phase_writeForward ?_).2 ⟨hpo, ⟨hr.begun, hr.writes, hr.oks⟩, hpa, hn⟩
    exact hs

theorem Attends.fwdRead (h : e.Attends L) (hs : e.state = .writeForward)
    (hp : result₁.delivers → L.fwdHeaders ++ [next] <+: L.down) : Ensures (e.fwdRead next result₁ result₂ c) fun e' =>
      e'.Attends L ∨ ∃ hp, e'.Attends (L.fwdReceive next hp) := by
  unfold Entry.fwdRead
  cases hm : e.fwdInput.mode with
  | data => exact (h.toServes.fwdReadData h.heeds hs hm).mono fun e' h' => .inl h'
  | header =>
    refine ensures_read (ensures_ok.2 (.inl h))
      ((h.toServes.fwdError_attends (by simp [hs])).mono fun e' h' => .inl h') fun i hg hpe hmo => ?_
    have hi := h.toServes.setFwdInput hpe
    dsimp only
    repeat' split
    · exact ensures_ok.2 (.inl ⟨hi, { h.heeds with }, FwdHeeds.of_header (hmo.trans hm)⟩)
    · refine Ensures.mono (hi.fwdError_attends ?_) fun e' h' => .inl h'
      simp [hs]
    · exact Ensures.mono (Serves.fwdReadData (h.toServes.fwdStartData hs hm (hp hg)) { h.heeds with } hs rfl)
        fun e' h' => .inr ⟨hp hg, h'⟩

/-! ## Passing on -/

theorem Serves.setInput (h : e.Serves L) (hi : i.pending = e.input.pending) : Serves L { e with input := i } :=
  ⟨h.toOpen.setInput hi, h.phase⟩

theorem Serves.setFwdBytesLeft (h : e.Serves L) (hs : e.state = .writeForward) {n : ℕ} :
    Serves L { e with fwdBytesLeft := n } := by
  refine ⟨h.toOpen.frame rfl, (phase_writeForward ?_).2 ?_⟩
  · exact hs
  · exact (phase_writeForward hs).1 h.phase

theorem Attends.setFwdStartPtr (h : e.Attends L) {b : Bool} : Attends L { e with fwdStartPtr := b } :=
  ⟨⟨h.toOpen.frame rfl, h.phase⟩, { h.heeds with }, h.fwdHeeds⟩

theorem Heeds.of_data (hm : e.input.mode = .data) (hd : e.state.isRegular → e.input.bytesLeft = 0 →
    e.writeJobId ≠ 0 ∨ e.state = .writeForward ∧ 0 < e.fwdBytesLeft) : e.Heeds where
  header _ hh := by
    rw [hm] at hh
    cases hh
  data hr _ := hd hr

section

variable (h : e.Serves L) (hs : e.state = .writeForward)
include h hs

theorem Serves.forwardTake (hm : e.input.mode = .data) (hf : e.FwdHeeds) :
    Ensures (e.forwardTake c) (Attends L) := by
  unfold Entry.forwardTake
  split
  · rename_i hr
    refine (h.takePacket hm hr.2.2).bind fun e' h' => ensures_ok.2 ?_
    exact (h'.attends hf).setFwdStartPtr
  · rename_i hr
    refine ensures_ok.2 ⟨h, .of_data hm fun _ hl => ?_, hf⟩
    by_contra hn
    push Not at hn
    exact hr ⟨hl, eq_zero_of_le_zero (hn.2 hs), hn.1⟩

theorem Serves.forwardWrite (hm : e.input.mode = .data) (hf : e.FwdHeeds) {result : WriteResult} :
    Ensures (e.forwardWrite result c) (Attends L) := by
  unfold Entry.forwardWrite
  split
  · exact h.forwardTake hs hm hf
  · rename_i hl
    repeat' split
    · exact ensures_error
    · exact ensures_ok.2 ⟨h, .of_data hm fun _ _ => .inr ⟨hs, pos_of_ne_zero hl⟩, hf⟩
    · exact h.fwdError_attends (by simp [hs])
    · exact h.fwdError_attends (by simp [hs])
    · refine Serves.forwardTake (h.setFwdBytesLeft hs) ?_ ?_ ?_
      exacts [hs, hm, hf]

theorem Serves.forwardData (hm : e.input.mode = .data) (hf : e.FwdHeeds) {w : WriteResult} :
    Ensures (e.forwardData result w c) (Attends L) := by
  unfold Entry.forwardData
  split
  · exact h.forwardWrite hs hm hf
  · rename_i hl
    refine ensures_read (ensures_ok.2 ⟨h, .of_data hm fun _ h0 => absurd h0 hl, hf⟩)
      (ensures_ok.2 (.close h.toOpen)) fun i _ hp hmo => ?_
    exact Serves.forwardWrite ((h.setInput hp).setFwdBytesLeft hs) hs (hmo.trans hm) hf

theorem Serves.forwardStartData (hm : e.input.mode = .header) (hp : L.headers ++ [p] <+: L.up) :
    Serves (L.receive p hp) (e.forwardStartData p i) := by
  obtain ⟨hpo, hr, ⟨q, hq⟩, hnex⟩ := (phase_writeForward hs).1 h.phase
  have ha : L.headers = e.history.received := by rw [h.input]; simp [pending, hm]
  have hne : L.headers ≠ [] := ha ▸ hr.begun
  have ht : (L.headers ++ [p]).tail = L.headers.tail ++ [p] := tail_append_of_ne_nil hne
  have hw : p.isForwarded := by
    have hl : (L.headers ++ [p]).tail <+: L.up.tail := by simpa using hp.drop 1
    obtain ⟨s, d, hd⟩ := L.tail p (hl.subset (by simp [ht]))
    simp [isForwarded, hd]
  have hfw : (e.forwardStartData p i).history.forwarded = q :: (L.headers ++ [p]).tail := by
    rw [ht]
    simp [Entry.forwardStartData, hw, hq]
  have hf : q.formsChain (L.behind - 1) := by
    rcases h.safe.forwarded with hn | ⟨-, q', tl, hc, hf, -⟩
    · rw [hq] at hn
      cases hn
    · rw [hq] at hc
      rw [(List.cons.inj hc).1]
      exact hf
  refine ⟨{ h.toOpen with
    safe := ⟨{ h.safe.toKept with
      headers := ?_, received := ?_, passedOn := ?_
      forwarded := .inr ⟨hpo, q, _, hfw, hf, prefix_refl _⟩ }, h.safe.ledger⟩
    input := ?_ }, ?_⟩
  · exact congrArg (· ++ [p]) h.safe.headers
  · exact h.safe.received.trans (prefix_append _ _)
  · rw [hfw, ht, ← cons_append, ← hq]
    exact h.safe.passedOn.trans (prefix_append _ _)
  · exact congrArg (· ++ [p]) ha
  · refine (phase_writeForward ?_).2 ⟨hpo, hr, ⟨q, hfw⟩, hnex⟩
    exact hs

end

theorem Attends.forward (h : e.Attends L) (hs : e.state = .writeForward)
    (hp : result₁.delivers → L.headers ++ [next] <+: L.up) {w : WriteResult} :
    Ensures (e.forward next result₁ result₂ w c) fun e' =>
      e'.Attends L ∨ ∃ hp, e'.Attends (L.receive next hp) := by
  unfold Entry.forward
  cases hm : e.input.mode with
  | data => exact (h.toServes.forwardData hs hm h.fwdHeeds).mono fun e' h' => .inl h'
  | header =>
    refine ensures_read (ensures_ok.2 (.inl h)) (ensures_ok.2 (.inl (.close h.toOpen)))
      fun i hg hpe hmo => ?_
    have hi := h.toServes.setInput hpe
    dsimp only
    repeat' split
    · exact ensures_ok.2 (.inl ⟨hi, .of_header (hmo.trans hm) ‹_›, h.fwdHeeds⟩)
    · exact ensures_ok.2 (.inl (.close hi.toOpen))
    · exact ((h.toServes.forwardStartData hs hm (hp hg)).forwardData hs rfl h.fwdHeeds).mono
        fun e' h' => .inr ⟨hp hg, h'⟩

/-! ## Receiving without passing on -/

theorem Serves.takeUnlessWriting (h : e.Serves L) (hm : e.input.mode = .data) (hf : e.FwdHeeds) :
    Ensures (e.takeUnlessWriting c) (Attends L) := by
  unfold Entry.takeUnlessWriting
  split
  · exact (h.takePacket hm ‹_›).mono fun e' h' => h'.attends hf
  · exact ensures_ok.2 ⟨h, .of_data hm fun _ _ => .inl ‹_›, hf⟩

theorem Serves.readData (h : e.Serves L) (hm : e.input.mode = .data) (hf : e.FwdHeeds) :
    Ensures (e.readData result c) (Attends L) := by
  unfold Entry.readData
  split
  · exact h.takeUnlessWriting hm hf
  · rename_i hl
    refine ensures_read (ensures_ok.2 ⟨h, .of_data hm fun _ h0 => absurd h0 hl, hf⟩)
      (ensures_ok.2 (.close h.toOpen)) fun i _ hp hmo => ?_
    dsimp only
    split
    · rename_i hpo
      exact ensures_ok.2 ⟨h.setInput hp, .of_data (hmo.trans hm) fun _ h0 => absurd h0 hpo.ne', hf⟩
    · exact (h.setInput hp).takeUnlessWriting (hmo.trans hm) hf

theorem Serves.startData (h : e.Serves L) (hs : e.state = .idle ∨ e.state = .writeLast ∨ e.state = .writeFinish)
    (hm : e.input.mode = .header) (hp : L.headers ++ [p] <+: L.up) : Serves (L.receive p hp) (e.startData p i) := by
  have ha : L.headers = e.history.received := by rw [h.input]; simp [Receiving.pending, hm]
  refine ⟨{ h.toOpen with
    safe := ⟨{ h.safe.toKept with headers := ?_, received := ?_, forwarded := ?_ }, h.safe.ledger⟩, input := ?_ }, ?_⟩
  · exact congrArg (· ++ [p]) h.safe.headers
  · exact h.safe.received.trans (prefix_append _ _)
  · refine h.safe.forwarded.imp_right fun ⟨hpo, q, tl, hq, hf, ht⟩ => ⟨hpo, q, tl, hq, hf, ht.trans ?_⟩
    have hd : L.headers.drop 1 <+: (L.headers ++ [p]).drop 1 := (prefix_append L.headers [p]).drop 1
    simpa [Link.receive] using hd
  · exact congrArg (· ++ [p]) ha
  · rcases hs with hs | hs | hs
    · have hph := (phase_idle hs).1 h.phase
      exact (phase_idle (e := e.startData p i) hs).2 hph
    · have hph := (phase_writeLast hs).1 h.phase
      exact (phase_writeLast (e := e.startData p i) hs).2 hph
    · have hph := h.phase
      simp only [Phase, hs, Entry.startData] at hph ⊢
      exact hph

theorem Attends.readFromSocket (h : e.Attends L) (hs : e.state = .idle ∨ e.state = .writeLast ∨ e.state = .writeFinish)
    (hp : result₁.delivers → L.headers ++ [next] <+: L.up) : Ensures (e.readFromSocket next result₁ result₂ c) fun e' =>
      e'.Attends L ∨ ∃ hp, e'.Attends (L.receive next hp) := by
  unfold Entry.readFromSocket
  cases hm : e.input.mode with
  | data => exact (h.toServes.readData hm h.fwdHeeds).mono fun e' h' => .inl h'
  | header =>
    dsimp only
    split
    · exact ensures_error
    · refine ensures_read (ensures_ok.2 (.inl h)) (ensures_ok.2 (.inl (.close h.toOpen)))
        fun i hg hpe hmo => ?_
      have hi := h.toServes.setInput hpe
      dsimp only
      repeat' split
      · exact ensures_ok.2 (.inl ⟨hi, .of_header (hmo.trans hm) ‹_›, h.fwdHeeds⟩)
      · exact ensures_ok.2 (.inl (.close hi.toOpen))
      · exact ((h.toServes.startData hs hm (hp hg)).readData rfl h.fwdHeeds).mono
          fun e' h' => .inr ⟨hp hg, h'⟩

/-! ## Sending -/

theorem Attends.popPacket (h : e.Attends L) {p : OutPacket} {rest : List OutPacket}
    (ho : e.outputPackets = p :: rest) : (e.popPacket p rest).Attends L := by
  have hs : (e.popPacket p rest).statuses = e.statuses := by simp [statuses, Entry.popPacket, ho]
  have ha : (e.popPacket p rest).acks = e.acks := by rw [acks, hs, acks]
  refine ⟨⟨{ h.toOpen with safe := ⟨{ h.safe.toKept with grown := ?_, replies := ?_ }, ?_⟩ }, ?_⟩, { h.heeds with },
    h.fwdHeeds⟩
  · rw [hs]
    exact h.safe.grown
  · rw [hs]
    exact h.safe.replies
  · rw [ha]
    exact h.safe.ledger
  · have hp := h.phase
    unfold Phase Regular at hp ⊢
    rw [hs, ha]
    exact hp

theorem Attends.writeToSocket {results : List SendResult} (h : e.Attends L) :
    Ensures (e.writeToSocket results) (Attends L) := by
  induction results generalizing e with
  | nil => exact ensures_ok.2 h
  | cons result results ih =>
    unfold writeToSocket
    split
    · exact ensures_ok.2 h
    · rename_i p rest ho
      cases result with
      | again => exact ensures_ok.2 h
      | failed => exact ensures_ok.2 (.close h.toOpen)
      | zero =>
        refine ensures_ok.2 ?_
        split
        · exact h
        · exact .close h.toOpen
      | part =>
        exact ensures_ok.2 ⟨⟨{ h.toOpen with safe := ⟨{ h.safe.toKept with }, h.safe.ledger⟩ }, h.phase⟩,
          { h.heeds with }, h.fwdHeeds⟩
      | all =>
        have hr : (e.popPacket p rest).state ≠ .read := fun hs => by
          have hp := h.phase
          simp [Phase, show e.state = .read from hs] at hp
        rw [outputCheckReadFinished, if_neg hr]
        exact ih (h.popPacket ho)

/-! ## Forming the chain -/

theorem Attends.fwdConnected (h : e.Attends L) (hs : e.state = .connecting) {connected : Bool} :
    Ensures (e.fwdConnected connected) fun e' => e'.Attends L := by
  unfold Entry.fwdConnected
  split
  · refine ensures_ok.2 ⟨⟨h.toOpen.frame rfl, ?_⟩, ⟨?_, ?_⟩, ?_⟩
    · exact (phase_forming (.inl hs)).1 h.phase
    · exact fun _ => h.heeds.header (by rw [hs]; rfl)
    · refine fun _ hm hl => (h.heeds.data (by rw [hs]; rfl) hm hl).imp_right fun hf => ?_
      rw [hs] at hf
      cases hf.1
    · exact fun hf => by cases hf
  · exact h.toServes.fwdError_attends (by simp [hs])

theorem Attends.fwdWrite (h : e.Attends L) (hs : e.state = .writeInit) {result : WriteResult} :
    Ensures (e.fwdWrite result) (Attends L) := by
  obtain ⟨hpo, hre, hp, hno, hle⟩ := (phase_forming (.inr hs)).1 h.phase
  have hfw : e.history.fwdReceived = [] := prefix_nil.1 (hno ▸ h.safe.fwdReceived)
  have hpe : e.fwdInput.pending = [] := by
    have hi := h.fwdInput
    rw [hno, hfw] at hi
    exact hi.symm
  have hd : e.history.nextDone = [] := by
    have hne := h.safe.next
    rw [hfw] at hne
    exact sublist_nil.1 hne
  have hw : Attends L (fwdWrite.fwdWritten e) := by
    refine ⟨⟨h.toOpen.frame ?_, hpo, hre, hp, ?_⟩, ⟨?_, ?_⟩, ?_⟩
    · rw [view, view, hpe]
      rfl
    · simp [fwdWrite.fwdWritten, hd, hfw]
    · exact fun _ => h.heeds.header (by rw [hs]; rfl)
    · refine fun _ hm hl => (h.heeds.data (by rw [hs]; rfl) hm hl).imp_right fun hf => ?_
      rw [hs] at hf
      cases hf.1
    · exact FwdHeeds.of_header rfl
  unfold Entry.fwdWrite
  repeat' split
  · exact ensures_ok.2 hw
  · exact ensures_ok.2 h
  · exact h.toServes.fwdError_attends (by simp [hs])
  · exact h.toServes.fwdError_attends (by simp [hs])
  · exact ensures_ok.2 hw
  · rename_i n hn hmo
    refine ensures_ok.2 ⟨⟨h.toOpen.frame rfl, ?_⟩,
      ⟨h.heeds.header, ?_⟩, h.fwdHeeds⟩
    · refine (phase_forming (.inr ?_)).2 ⟨hpo, hre, hp, hno, ?_⟩
      · exact hs
      · exact Nat.sub_pos_of_lt (Nat.lt_of_not_le hmo)
    · refine fun hr hm hl => (h.heeds.data hr hm hl).imp_right fun hf => ?_
      rw [hs] at hf
      cases hf.1

theorem Attends.retryConnect (h : e.Attends L) (hs : e.state = .connecting) :
    Ensures (e.retryConnect c) (Attends L) := by
  have hp := (phase_forming (.inl hs)).1 h.phase
  have ho : ∀ st n, Open L { e with connectRetryCounter := n, state := st } := fun st n =>
    h.toOpen.frame rfl
  have hh : ∀ st n, st ≠ .writeForward → Heeds { e with connectRetryCounter := n, state := st } := fun st n hst =>
    ⟨fun _ => h.heeds.header (by rw [hs]; rfl), fun _ hm hl =>
      (h.heeds.data (by rw [hs]; rfl) hm hl).imp_right fun hf => by rw [hs] at hf; cases hf.1⟩
  have he : Ensures (fwdError { e with connectRetryCounter := e.connectRetryCounter + 1 }) (Attends L) := by
    refine Serves.fwdError_attends ⟨?_, h.phase⟩ (by simp [hs])
    exact h.toOpen.frame rfl
  dsimp only [Entry.retryConnect]
  split
  · cases c with
    | failed => exact he
    | immediate => exact ensures_ok.2 ⟨⟨ho .writeInit _, hp⟩, hh .writeInit _ (by simp), fun hf => by cases hf⟩
    | inProgress =>
      exact ensures_ok.2 ⟨⟨ho .connecting _, hp⟩, hh .connecting _ (by simp), fun hf => by cases hf⟩
  · exact he

/-! ## Service -/

/-- the connection after a part of its service -/
def AttendsAfter (L : Link) (e : Entry) : Prop := ∃ L', L.Follows L' ∧ e.Attends L'

theorem Attends.after (h : e.Attends L) : e.AttendsAfter L := ⟨L, .refl, h⟩

theorem attendsAfter_receive (h : e.Attends L ∨ ∃ hp, e.Attends (L.receive p hp)) :
    ∃ L', L.Follows L' ∧ L'.fwdHeaders = L.fwdHeaders ∧ e.Attends L' := by
  rcases h with h | ⟨hp, h⟩
  · exact ⟨L, .refl, rfl, h⟩
  · exact ⟨L.receive p hp, ⟨rfl, rfl, rfl, rfl, rfl⟩, rfl, h⟩

section

variable (h : e.Attends L)
include h

theorem Attends.serveWrite {w : Served} {lstate : State} : Ensures (e.serveWrite w lstate) (Attends L) := by
  unfold Entry.serveWrite
  split
  · exact h.writeToSocket
  · exact ensures_ok.2 h

variable {w : Served}

theorem Attends.serveClient (hs : e.state = .idle ∨ e.state = .writeLast ∨ e.state = .writeFinish) (hw : L.Delivers w) :
    Ensures (e.serveClient w) (AttendsAfter L) := by
  unfold Entry.serveClient Entry.serveRead
  split
  · refine (h.readFromSocket hs hw.up).bind fun e₁ h₁ => ?_
    obtain ⟨L₁, hL₁, -, h₁⟩ := attendsAfter_receive h₁
    exact (h₁.serveWrite).mono fun e₂ h₂ => ⟨L₁, hL₁, h₂⟩
  · exact (h.serveWrite).mono fun e₂ h₂ => h₂.after

theorem Attends.serveForwardAfterInit (hw : L.Delivers w) : Ensures (e.serveForwardAfterInit w) (AttendsAfter L) := by
  unfold Entry.serveForwardAfterInit
  split
  · refine (h.forward ‹_› hw.up).mono fun e₁ h₁ => ?_
    obtain ⟨L₁, hL₁, -, h₁⟩ := attendsAfter_receive h₁
    exact ⟨L₁, hL₁, h₁⟩
  · exact ensures_ok.2 h.after

theorem Attends.serveInitAfterConnect : Ensures (e.serveInitAfterConnect w) (Attends L) := by
  unfold Entry.serveInitAfterConnect
  split
  · exact h.fwdWrite ‹_›
  · exact ensures_ok.2 h

theorem Attends.serveConnecting (hs : e.state = .connecting) (hw : L.Delivers w) :
    Ensures (e.serveConnecting w) (AttendsAfter L) := by
  unfold Entry.serveConnecting
  split
  · refine (h.fwdConnected hs).bind fun e₁ h₁ => (h₁.serveInitAfterConnect).bind fun e₂ h₂ => ?_
    exact h₂.serveForwardAfterInit hw
  · exact ensures_ok.2 h.after

theorem Attends.serveWriteInit (hs : e.state = .writeInit) (hw : L.Delivers w) :
    Ensures (e.serveWriteInit w) (AttendsAfter L) := by
  unfold Entry.serveWriteInit
  split
  · exact (h.fwdWrite hs).bind fun e₁ h₁ => h₁.serveForwardAfterInit hw
  · exact ensures_ok.2 h.after

theorem Attends.serveWriteForward (hs : e.state = .writeForward) (hw : L.Delivers w) :
    Ensures (e.serveWriteForward w) (AttendsAfter L) := by
  have hf : Ensures (e.serveForward w) fun e₁ =>
      ∃ L₁, L.Follows L₁ ∧ L₁.fwdHeaders = L.fwdHeaders ∧ e₁.Attends L₁ := by
    unfold serveForward
    split
    · exact (h.forward hs hw.up).mono fun e₁ h₁ => attendsAfter_receive h₁
    · exact ensures_ok.2 ⟨L, .refl, rfl, h⟩
  refine hf.bind fun e₁ ⟨L₁, hL₁, hfw, h₁⟩ => ?_
  have hr : Ensures (e₁.serveFwdRead w) (AttendsAfter L) := by
    unfold serveFwdRead
    split
    · rename_i hi
      refine (h₁.fwdRead hi.2 (fun hd => ?_)).mono fun e₂ h₂ => ?_
      · rw [hfw, hL₁.down]
        exact hw.down hd
      · rcases h₂ with h₂ | ⟨hp, h₂⟩
        · exact ⟨L₁, hL₁, h₂⟩
        · exact ⟨L₁.fwdReceive _ hp, ⟨hL₁.behind, hL₁.up, hL₁.down, hL₁.statuses, hL₁.forwarded⟩, h₂⟩
    · exact ensures_ok.2 ⟨L₁, hL₁, h₁⟩
  refine hr.bind fun e₂ ⟨L₂, hL₂, h₂⟩ => ?_
  exact (h₂.serveWrite).mono fun e₃ h₃ => ⟨L₂, hL₂, h₃⟩

theorem Attends.serveState (hw : L.Delivers w) : Ensures (e.serveState w) (AttendsAfter L) := by
  have hp := h.phase
  unfold Entry.serveState
  cases hs : e.state with
  | idle | writeLast | writeFinish => exact h.serveClient (by simp [hs]) hw
  | connecting => exact h.serveConnecting hs hw
  | writeInit => exact h.serveWriteInit hs hw
  | writeForward => exact h.serveWriteForward hs hw
  | close => exact ensures_ok.2 h.after
  | read | getBlock | closeWait | closed => simp [Phase, hs] at hp

theorem Attends.serveFinish : e.serveFinish.Attends L := by
  unfold Entry.serveFinish
  split
  · exact .close h.toOpen
  · exact h

theorem Attends.serveConnectTimeout : Ensures (e.serveConnectTimeout w) (Attends L) := by
  unfold Entry.serveConnectTimeout
  split
  · rename_i hs
    exact h.retryConnect hs.1
  · exact ensures_ok.2 h

theorem Attends.serveInactive : (e.serveInactive w).Attends L := by
  unfold Entry.serveInactive
  split
  · exact .close h.toOpen
  · exact h

end

/-! ## Closing -/

/-- a closed connection; its job, if any, does not touch it again -/
structure Dead (L : Link) (e : Entry) : Prop where
  safe : e.Safe L
  state : e.state = .closeWait ∨ e.state = .closed
  jobs : ∀ j ∈ e.jobs, j.callback = .delayedClose
  pDesc : e.pDesc = none
  fwdPDesc : e.fwdPDesc = none

/-- where a server of a chain stands between the steps of the loop -/
def Rests (L : Link) (e : Entry) : Prop := e.Attends L ∧ e.Settles ∨ e.Dead L

theorem Safe.jobs_delayed (h : e.Safe L) {js : List Job} (hjs : ∀ j ∈ js, j.callback = .delayedClose) :
    Safe L { e with jobs := js } := by
  refine ⟨{ h.toKept with writes := ?_ }, h.ledger⟩
  have hn : running { e with jobs := js } = [] := by
    simp only [running, map_eq_nil_iff, filter_eq_nil_iff]
    intro j hj
    simp [hjs j hj]
  rw [hn, append_nil]
  exact (sublist_append_left _ _).trans h.writes

theorem Open.closeJobs (h : e.Open L) : e.closeJobs.dropPollFds.Dead L := by
  have hk : ∀ js st chunkOpen, (∀ j ∈ js, j.callback = .delayedClose) → st = .closeWait ∨ st = .closed →
      Dead L { e with jobs := js, state := st, isChunkOpen := chunkOpen, pDesc := none, fwdPDesc := none } :=
    fun js st chunkOpen hj hs => ⟨(h.safe.jobs_delayed hj).frame rfl rfl rfl rfl, hs, hj, rfl, rfl⟩
  have hr : ¬ 0 < e.readJobId := by rw [h.others.1]; exact lt_irrefl 0
  have hb : ¬ 0 < e.getBlocksJobId := by rw [h.others.2]; exact lt_irrefl 0
  unfold Entry.closeJobs
  rw [if_neg hr]
  rcases h.working.2 with ⟨hn, h0⟩ | ⟨ho, hp⟩
  · rw [if_neg (by omega), if_neg hb]
    exact hk e.jobs .closed false (by simp [hn]) (.inr rfl)
  · rw [if_pos hp]
    have hj : ∀ j ∈ (e.delayClose e.writeJobId).jobs, j.callback = .delayedClose := by
      simp [delayClose, ho]
    exact hk _ .closeWait e.isChunkOpen hj (.inl rfl)

theorem Attends.setPollFds (h : e.Attends L) {pDesc fwdPDesc : Option PollEvents} :
    Attends L { e with pDesc := pDesc, fwdPDesc := fwdPDesc } :=
  ⟨⟨h.toOpen.frame rfl, h.phase⟩, { h.heeds with }, h.fwdHeeds⟩

theorem Attends.serveClose (h : e.Attends L) : e.serveClose.dropPollFds.Rests L := by
  unfold Entry.serveClose
  split
  · exact .inr h.toOpen.closeJobs
  · rename_i hs
    exact .inl ⟨h.setPollFds, fun hc => absurd hc hs⟩

/-! ## Steps -/

theorem preparePollFds_eq : ∃ pDesc fwdPDesc, e.preparePollFds = { e with pDesc := pDesc, fwdPDesc := fwdPDesc } := by
  unfold preparePollFds
  split <;> exact ⟨_, _, rfl⟩

theorem Rests.preparePollFds (h : e.Rests L) : e.preparePollFds.Rests L := by
  rcases h with ⟨h, hs⟩ | h
  · obtain ⟨pDesc, fwdPDesc, he⟩ := preparePollFds_eq
    rw [he]
    exact .inl ⟨h.setPollFds, hs⟩
  · rw [(ended_unserved {} e h.state).1]
    exact .inr ⟨h.safe.frame rfl rfl rfl rfl, h.state, h.jobs, rfl, rfl⟩

theorem Rests.finishJob (h : e.Rests L) {id : ℕ} : Ensures (e.finishJob id status c) (Rests L) := by
  unfold Entry.finishJob
  split
  · exact ensures_ok.2 h
  · rename_i j hf
    have hj : j ∈ e.jobs := mem_of_find?_eq_some hf
    split
    · exact ensures_error
    · rcases h with ⟨h, hs⟩ | h
      · have hc : e.state ≠ .close := fun hc => by
          rw [(hs hc).1] at hj
          cases hj
        obtain ⟨he, -⟩ := h.toOpen.job hj
        have ho : e.jobs = [j] := by
          rcases h.working.2 with ⟨hn, -⟩ | ⟨ho, -⟩
          · rw [hn] at hj
            cases hj
          · rw [ho, he]
        have hid := find?_some hf
        have hr : (e.jobs.eraseP fun j => j.id == id) = [] := by
          rw [ho]
          simpa using hid
        have hcb : j.callback = .writeFinished := by rw [he]
        rw [hr]
        simp only [callBack, hcb]
        exact (h.writeFinished hc hj).mono fun e' h' => .inl h'
      · have hsu : ∀ i ∈ e.jobs.eraseP fun j => j.id == id, i.callback = .delayedClose :=
          fun i hi => h.jobs i (mem_of_mem_eraseP hi)
        simp only [callBack, h.jobs j hj]
        exact ensures_ok.2 (.inr ⟨(h.safe.jobs_delayed hsu).frame rfl rfl rfl rfl, .inr rfl, hsu, h.pDesc, h.fwdPDesc⟩)

theorem Attends.servePollErrors (h : e.Attends L) (hs : e.Settles) {w : Served} :
    Ensures (e.servePollErrors w) (Attends L) := by
  unfold Entry.servePollErrors
  repeat' split
  · exact ensures_ok.2 (.close h.toOpen)
  · exact h.toServes.fwdError_attends fun hc => (hs hc).2
  · exact ensures_ok.2 h

theorem Dead.servePoll (h : e.Dead L) {w : Served} : Ensures (e.servePoll w) (Rests L) := by
  rw [(ended_unserved w e h.state).2 h.pDesc h.fwdPDesc]
  exact ensures_ok.2 (.inr ⟨h.safe.frame rfl rfl rfl rfl, h.state, h.jobs, rfl, rfl⟩)

/-- the connection after a step of the loop -/
def RestsAfter (L : Link) (e : Entry) : Prop := ∃ L', L.Follows L' ∧ e.Rests L'

theorem Rests.servePoll (h : e.Rests L) {w : Served} (hw : L.Delivers w) : Ensures (e.servePoll w) (RestsAfter L) := by
  rcases h with ⟨h, hs⟩ | h
  · refine (h.servePollErrors hs).bind fun e₁ h₁ => (h₁.serveState hw).bind fun e₂ ⟨L₂, hL₂, h₂⟩ => ?_
    refine (h₂.serveFinish.serveConnectTimeout).bind fun e₃ h₃ => ensures_ok.2 ⟨L₂, hL₂, ?_⟩
    exact (h₃.serveInactive).serveClose
  · exact (h.servePoll).mono fun e' h' => ⟨L, .refl, h'⟩

/-- **A server of a chain keeps its books.** Whatever step the loop takes: what has been received, passed on, written
and acknowledged remains in order, and without an error no packet is left lying. -/
theorem rests_step (h : e.Rests L) {ev : Event} (he : ∀ w, ev = .servePoll w → L.Delivers w) :
    Ensures (e.step ev) (RestsAfter L) := by
  cases ev with
  | preparePollFds => exact ensures_ok.2 ⟨L, .refl, h.preparePollFds⟩
  | jobFinished id status c => exact (h.finishJob).mono fun e' h' => ⟨L, .refl, h'⟩
  | servePoll w => exact h.servePoll (he w rfl)

theorem rests_new (hh : L.headers = []) (hf : L.fwdHeaders = []) (hst : L.statuses = []) (hfw : L.forwarded = []) :
    Rests L {} := by
  have hsa : Safe L {} :=
    ⟨⟨hh.symm, hf.symm, nil_prefix, nil_prefix, by simp [hst], by simp [hfw], by simp [statuses],
      by simp [running], by simp, .inl rfl⟩, .empty⟩
  refine .inl ⟨⟨⟨⟨hsa, hh, hf, ⟨one_pos, .inl ⟨rfl, rfl⟩⟩, rfl, rfl⟩, rfl, rfl, rfl, hf, rfl, rfl, rfl⟩,
    ⟨?_, ?_⟩, ?_⟩, ?_⟩
  · exact fun _ _ => headerSize_pos
  · exact fun _ hm => by cases hm
  · exact fun hs => by cases hs
  · exact fun hs => by cases hs

end Entry

end SaunaFS.Chunkserver
