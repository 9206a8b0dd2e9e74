/-
What a peer can do to a chunkserver through one connection (`chunkserver/chunkserver_entry.cc`).

- `peers_crash`: seven ways in which a peer ends the program.

The invariant: the room in the buffers, the serialiser of a session, the counter of a read, and the one job that the
state of the connection allows.
-/
import SaunaFS.Chunkserver.Worker

namespace SaunaFS.Chunkserver

open SaunaFS.Chunks Fallible List Nat Receiving Entry Packet State

/-! ## Careful peers -/

namespace Packet

/-- the packet fits into its buffer, its exceptions are caught, the size of its reply does not wrap around, and the next
server of a chain knows of parts of its kind -/
def acceptable (p : Packet) : Bool :=
  match p.message with
  | .writeData .saunafs _ => decide (p.length ≤ ioAlignedPacketSize - ioAlignedOffset)
  | .writeEnd _ => decide (p.length ≤ ioAlignedPacketSize - ioAlignedOffset)
  | .getChunkBlocks _ none => false
  | .ping opSize => decide (opSize + headerSize < 2 ^ 32)
  | .writeInit f (some r) => (r.servers f).head?.all fun next => namesPart (r.part f) next.chunkserverVersion
  | _ => true

end Packet

/-- what the peers and the poll may do in a step: packets of the client are acceptable, the next server sends nothing
but statuses and does not hang up right after a WRITE_END, and a READ does not arrive before the replies to earlier
requests have been sent -/
def Entry.Careful (e : Entry) : Event → Prop
  | .preparePollFds => True
  | .jobFinished _ _ _ => True
  | .servePoll w =>
    w.next.acceptable = true ∧ w.fwdNext.isForwarded = false ∧
    (w.fwdHup = true → e.fwdPDesc.isSome = true → e.messageSerializer.isSome = true) ∧
    (e.state = .idle → ∀ p ∈ e.handedOver w, p.isServedRead = true → e.outputPackets = [])

instance (e : Entry) (ev : Event) : Decidable (e.Careful ev) := by
  cases ev <;> unfold Careful <;> infer_instance

/-! ## The invariant -/

def State.writes : State → Bool
  | .writeLast => true
  | .connecting => true
  | .writeInit => true
  | .writeForward => true
  | _ => false

/-- the states of a connection that is closed or will be when its job has finished -/
def State.ended : State → Bool
  | .closeWait => true
  | .closed => true
  | _ => false

/-- the bytes that are still expected fit into their buffers, and only a packet that is being passed on has bytes to
pass on -/
structure Room (input fwdInput : Receiving) (fwdBytesLeft : ℕ) (fwdStartPtr : Bool) : Prop where
  fits : input.start + input.bytesLeft ≤ input.capacity
  header : input.mode = .header → input.place = .headerBuffer ∧ input.start + input.bytesLeft = headerSize
  current : input.mode = .data → input.current.acceptable = true
  fwdFits : fwdInput.start + fwdInput.bytesLeft ≤ fwdInput.capacity
  fwdCurrent : fwdInput.mode = .data → fwdInput.current.isForwarded = false
  passing : 0 < fwdBytesLeft → fwdStartPtr = true

/-- a session has its serialiser, the legacy one only for the standard part -/
structure Session (state : State) (serializer : Option Serializer) (chunkType : ChunkPartType) : Prop where
  read : state = .read → serializer ≠ none
  writes : state.writes = true → serializer ≠ none
  legacy : state.writes = true → serializer = some .legacy → chunkType = standardPartType

/-- `todoReadCounter` counts the packets in the queue and the running job -/
def Reading (state : State) (outputPackets : List OutPacket) (todo : ℕ) (jobs : List Job) (isChunkOpen : Bool) : Prop :=
  state = .read → outputPackets.length ≤ 1 ∧ todo = outputPackets.length + jobs.length ∧
    (jobs = [] → isChunkOpen = true)

/-- the identifiers of running jobs and the job they stand for -/
inductive Running (state : State) (serializer : Option Serializer) (jobs : List Job) (read write blocks : ℕ) :
    Prop where
  | none (hj : jobs = []) (hr : read = 0) (hw : write = 0) (hb : blocks = 0)
  | read (j : Job) (hj : jobs = [j]) (hc : j.callback = .readFinished) (hp : 0 < j.id) (hr : read = j.id)
      (hw : write = 0) (hb : blocks = 0) (hs : state = .read ∨ state = .close) (hm : serializer ≠ none)
  | write (j : Job) (hj : jobs = [j]) (hc : j.callback = .writeFinished) (hp : 0 < j.id) (hr : read = 0)
      (hw : write = j.id) (hb : blocks = 0) (hs : state.writes = true ∨ state = .writeFinish ∨ state = .close)
      (hm : serializer ≠ none)
  | blocks (j : Job) (hj : jobs = [j]) (hc : j.callback = .getBlocksFinished) (hp : 0 < j.id) (hr : read = 0)
      (hw : write = 0) (hb : blocks = j.id) (hs : state = .getBlock ∨ state = .close)
  | closing (j : Job) (hj : jobs = [j]) (hc : j.callback = .delayedClose) (hs : state = .closeWait)
  | gone (hj : jobs = []) (hs : state = .closed)

theorem Session.of_not {state : State} {serializer : Option Serializer} {chunkType : ChunkPartType}
    (hr : state ≠ .read) (hw : state.writes = false) : Session state serializer chunkType :=
  ⟨fun h => absurd h hr, fun h => absurd h (by simp [hw]), fun h => absurd h (by simp [hw])⟩

namespace Entry

/-- the invariant of a connection -/
structure Sound (e : Entry) : Prop where
  room : Room e.input e.fwdInput e.fwdBytesLeft e.fwdStartPtr
  session : Session e.state e.messageSerializer e.chunkType
  reading : Reading e.state e.outputPackets e.todoReadCounter e.jobs e.isChunkOpen
  running : Running e.state e.messageSerializer e.jobs e.readJobId e.writeJobId e.getBlocksJobId
  ids : 0 < e.nextJobId

/-- the invariant of a connection that is served -/
structure Live (e : Entry) : Prop extends Sound e where
  live : e.state.ended = false

end Entry

/-! ## States and jobs -/

section Jobs

variable {state : State} {serializer : Option Serializer} {jobs : List Job} {r w b : ℕ}

section

variable (h : Running state serializer jobs r w b)
include h

theorem Running.idle (hs : state = .idle) : jobs = [] ∧ r = 0 ∧ w = 0 ∧ b = 0 := by
  cases h with
  | none hj hr hw hb => exact ⟨hj, hr, hw, hb⟩
  | read j _ _ _ _ _ _ h _ => simp [hs] at h
  | write j _ _ _ _ _ _ h _ => simp [hs, writes] at h
  | blocks j _ _ _ _ _ _ h | closing j _ _ h | gone _ h => simp [hs] at h

theorem Running.noJob (hs : state.writes) (hw : w = 0) : jobs = [] ∧ r = 0 ∧ b = 0 := by
  cases h with
  | none hj hr _ hb => exact ⟨hj, hr, hb⟩
  | read j _ _ _ _ _ _ h _ => rcases h with h | h <;> simp [h, writes] at hs
  | write j _ _ hp _ hw' _ _ _ => omega
  | blocks j _ _ _ _ _ _ h => rcases h with h | h <;> simp [h, writes] at hs
  | closing j _ _ h | gone _ h => simp [h, writes] at hs

theorem Running.close (hs : state.ended = false) : Running .close serializer jobs r w b := by
  cases h with
  | none hj hr hw hb => exact .none hj hr hw hb
  | read j hj hc hp hr hw hb _ hm => exact .read j hj hc hp hr hw hb (.inr rfl) hm
  | write j hj hc hp hr hw hb _ hm => exact .write j hj hc hp hr hw hb (.inr (.inr rfl)) hm
  | blocks j hj hc hp hr hw hb _ => exact .blocks j hj hc hp hr hw hb (.inr rfl)
  | closing j _ _ h | gone _ h => simp [h, ended] at hs

theorem Running.writeState {state' : State} (he : state.ended = false) (hj : ∀ j ∈ jobs, j.callback = .writeFinished)
    (hs : state'.writes ∨ state' = .writeFinish ∨ state' = .close) : Running state' serializer jobs r w b := by
  cases h with
  | none hj hr hw hb => exact .none hj hr hw hb
  | read j hj' hc => simp [hj', hc] at hj
  | write j hj hc hp hr hw hb _ hm => exact .write j hj hc hp hr hw hb hs hm
  | blocks j hj' hc | closing j hj' hc => simp [hj', hc] at hj
  | gone _ h => simp [h, ended] at he

theorem Running.writeJobs (hs : state.writes ∨ state = .writeFinish) : ∀ j ∈ jobs, j.callback = .writeFinished := by
  cases h with
  | none hj => simp [hj]
  | read j _ _ _ _ _ _ h _ => rcases h with h | h <;> simp [h, writes] at hs
  | write j hj hc => simp [hj, hc]
  | blocks j _ _ _ _ _ _ h => rcases h with h | h <;> simp [h, writes] at hs
  | closing j _ _ h => simp [h, writes] at hs
  | gone hj => simp [hj]

end

end Jobs

namespace Entry

variable {e : Entry}

/-! ## Small changes -/

section

variable (h : e.Live)
include h

theorem Live.close : Live { e with state := .close } where
  room := h.room
  session := .of_not (by simp) rfl
  reading := by simp [Reading]
  running := h.running.close h.live
  ids := h.ids
  live := rfl

theorem Live.attachPacket {p : OutPacket} (hs : e.state ≠ .read) : Live (e.attachPacket p) where
  room := h.room
  session := h.session
  reading := fun hr => absurd hr hs
  running := h.running
  ids := h.ids
  live := h.live

variable (hj : ∀ j ∈ e.jobs, j.callback = .writeFinished)
include hj

theorem Live.writeState {state : State}
    (hm : state.writes → e.messageSerializer ≠ none ∧
      (e.messageSerializer = some .legacy → e.chunkType = standardPartType))
    (hs : state.writes ∨ state = .writeFinish) : Live { e with state := state } where
  room := h.room
  session := ⟨by rintro rfl; simp [writes] at hs, fun h' => (hm h').1, fun h' => (hm h').2⟩
  reading := by rintro rfl; simp [writes] at hs
  running := h.running.writeState h.live hj (by tauto)
  ids := h.ids
  live := by rcases hs with hs | hs <;> cases state <;> simp_all [writes, ended]

theorem Live.failWrite {p : OutPacket} : Live { e.attachPacket p with state := .writeFinish } where
  room := h.room
  session := .of_not (by simp) rfl
  reading := by simp [Reading]
  running := h.running.writeState h.live hj (by simp)
  ids := h.ids
  live := rfl

theorem Live.fwdError (hm : e.messageSerializer ≠ none) : Yields e.fwdError Live := by
  obtain ⟨s, hs⟩ := Option.ne_none_iff_exists'.1 hm
  simp only [Entry.fwdError, hs, yields_ok]
  exact h.failWrite hj

end

variable {p : Packet} {s : Serializer} {chunkId writeId length : ℕ} {c : ConnectResult} {data : Option WriteData}
  {status : Status} {cb : Callback}

theorem completeWrite_state : (e.completeWrite s chunkId writeId).state = e.state := by
  unfold completeWrite
  split <;> rfl

theorem completeWrite_writeJobId : (e.completeWrite s chunkId writeId).writeJobId = e.writeJobId := by
  unfold completeWrite
  split <;> rfl

theorem Live.completeWrite (h : e.Live) (hs : e.state ≠ .read) : Live (e.completeWrite s chunkId writeId) := by
  unfold Entry.completeWrite
  split <;> exact ⟨⟨h.room, h.session, fun hr => absurd hr hs, h.running, h.ids⟩, h.live⟩

/-! ## Reading -/

/-- a connection between two parts of a read: nothing queued and no job running -/
structure Between (e : Entry) : Prop where
  room : Room e.input e.fwdInput e.fwdBytesLeft e.fwdStartPtr
  serializer : e.messageSerializer ≠ none
  state : e.state = .read ∨ e.state = .close
  todo : e.state = .read → e.outputPackets = [] ∧ e.todoReadCounter = 0
  jobs : e.jobs = []
  readJobId : e.readJobId = 0
  writeJobId : e.writeJobId = 0
  getBlocksJobId : e.getBlocksJobId = 0
  opened : e.size = 0 → e.isChunkOpen = true
  ids : 0 < e.nextJobId

theorem Between.attachReadPacket (h : e.Between) :
    Room e.attachReadPacket.input e.attachReadPacket.fwdInput e.attachReadPacket.fwdBytesLeft
        e.attachReadPacket.fwdStartPtr ∧
      e.attachReadPacket.messageSerializer = e.messageSerializer ∧ e.attachReadPacket.state = e.state ∧
      (e.state = .read → e.attachReadPacket.outputPackets.length ≤ 1 ∧
        e.attachReadPacket.todoReadCounter = e.attachReadPacket.outputPackets.length) ∧
      e.attachReadPacket.jobs = [] ∧ e.attachReadPacket.readJobId = 0 ∧ e.attachReadPacket.writeJobId = 0 ∧
      e.attachReadPacket.getBlocksJobId = 0 ∧ (e.attachReadPacket.size = 0 → e.attachReadPacket.isChunkOpen) ∧
      0 < e.attachReadPacket.nextJobId := by
  unfold Entry.attachReadPacket
  cases e.readPacket with
  | none =>
    refine ⟨h.room, rfl, rfl, fun hr => ?_, h.jobs, h.readJobId, h.writeJobId, h.getBlocksJobId, h.opened, h.ids⟩
    simp [(h.todo hr).1, (h.todo hr).2]
  | some p =>
    refine ⟨h.room, rfl, rfl, fun hr => ?_, h.jobs, h.readJobId, h.writeJobId, h.getBlocksJobId, h.opened, h.ids⟩
    simp [attachPacket, (h.todo hr).1, (h.todo hr).2]

theorem Between.readContinue (h : e.Between) : Yields e.readContinue Live := by
  obtain ⟨room, hse, hsta, ht, hj, hr, hw, hb, ho, hi⟩ := h.attachReadPacket
  obtain ⟨s, hs⟩ := Option.ne_none_iff_exists'.1 h.serializer
  have hse' : e.attachReadPacket.messageSerializer = some s := hse.trans hs
  simp only [Entry.readContinue, hse']
  split
  · rename_i hsi
    simp only [ho hsi, if_true, yields_ok]
    exact ⟨⟨room, .of_not (by simp [readDone]) rfl, by simp [Reading, readDone], .none hj hr hw hb, hi⟩, rfl⟩
  · rw [yields_ok]
    refine ⟨⟨room, ⟨fun _ => ?_, fun hst => ?_, fun hst => ?_⟩, ?_, ?_, succ_pos _⟩, ?_⟩
    · simp [readNextPart, jobNew, hse']
    · rcases h.state with h' | h' <;> simp [readNextPart, jobNew, hsta, h', writes] at hst
    · rcases h.state with h' | h' <;> simp [readNextPart, jobNew, hsta, h', writes] at hst
    · intro hst
      obtain ⟨h1, h2⟩ := ht (hsta ▸ hst)
      simp only [readNextPart, jobNew, hj, h2, nil_append, length_singleton, reduceCtorEq, false_imp_iff,
        and_true]
      omega
    · refine .read ⟨e.attachReadPacket.nextJobId, .readFinished, 0⟩ ?_ rfl hi rfl hw hb ?_ ?_
      · simp [readNextPart, jobNew, hj]
      · simpa [readNextPart, jobNew, hsta] using h.state
      · simp [readNextPart, jobNew, hse']
    · rcases h.state with h' | h' <;> simp [readNextPart, jobNew, hsta, h', ended]

theorem Live.readInit (h : e.Live) (hi : e.state = .idle) {request : Option ReadRequest}
    (hq : ∀ r, request = some r → r.instantResponse = none → e.outputPackets = []) :
    Yields (e.readInit s request) Live := by
  obtain ⟨hj, hr, hw, hb⟩ := h.running.idle hi
  cases request with
  | none => exact yields_ok.2 h.close
  | some r =>
    simp only [Entry.readInit]
    cases hre : r.instantResponse with
    | some status =>
      rw [yields_ok]
      refine ⟨⟨h.room, ⟨?_, ?_, ?_⟩, ?_, .none hj hr hw hb, h.ids⟩, h.live⟩ <;>
        simp [Entry.attachPacket, setRequest, hi, State.writes, Reading]
    | none =>
      refine Between.readContinue ⟨h.room, by simp, .inl rfl, fun _ => ⟨hq r rfl hre, rfl⟩, hj, rfl, hw, hb, ?_,
        h.ids⟩
      intro hsi
      have : r.size = 0 := hsi
      simp [ReadRequest.instantResponse, this] at hre

/-! ## Writing -/

theorem Live.writeInit (h : e.Live) (hi : e.state = .idle) {f : InitFormat} {request : Option WriteInit}
    (ha : acceptable ⟨.writeInit f request, length⟩) : Yields (e.writeInit f request c) Live := by
  obtain ⟨hj, hr, hw, hb⟩ := h.running.idle hi
  have hp : ∀ r : WriteInit, some f.serializer = some Serializer.legacy → r.part f = standardPartType := by
    intro r hf
    cases f <;> simp [InitFormat.serializer] at hf
    rfl
  -- the job that opens the chunk
  have hjo : ∀ state : State, state.writes → Running state (some f.serializer)
      (e.jobs ++ [⟨e.nextJobId, .writeFinished, 0⟩]) e.readJobId e.nextJobId e.getBlocksJobId := fun state hs =>
    .write ⟨e.nextJobId, .writeFinished, 0⟩ (by simp [hj]) rfl h.ids hr rfl hb (.inl hs) (by simp)
  cases request with
  | none => exact yields_ok.2 h.close
  | some r =>
    simp only [Entry.writeInit]
    cases hse : r.servers f with
    | nil =>
      exact yields_ok.2 ⟨⟨h.room, ⟨by simp, by simp [jobNew], fun _ => hp r⟩, by simp [Reading], hjo _ rfl, succ_pos _⟩,
        rfl⟩
    | cons next chain =>
      have hro : Room e.input e.fwdInput (headerSize + (serializeCltocsWriteInit r.chunkId r.version (r.part f) chain
          next.chunkserverVersion).length) true :=
        { h.room with passing := fun _ => rfl }
      have hna : namesPart (r.part f) next.chunkserverVersion := by simpa [acceptable, hse] using ha
      cases c with
      | failed =>
        simp only [initConnection, hna, Bool.not_true, Bool.false_eq_true, ↓reduceIte]
        exact yields_ok.2 ⟨⟨hro, .of_not (by simp) rfl, by simp [Reading], .none hj hr hw hb, h.ids⟩, rfl⟩
      | immediate | inProgress =>
        simp only [initConnection, hna, Bool.not_true, Bool.false_eq_true, ↓reduceIte]
        exact yields_ok.2 ⟨⟨hro,
          ⟨by simp [jobNew], by simp [jobNew], fun _ => hp r⟩, by simp [Reading, jobNew], hjo _ rfl, succ_pos _⟩, rfl⟩

theorem Live.writeData (h : e.Live) (hs : e.state.writes) (hw : e.writeJobId = 0) (hi : e.input.mode = .header) :
    Yields (e.writeData s data length) Live := by
  obtain ⟨hj, hr, hb⟩ := h.running.noJob hs hw
  have hre : e.state ≠ .read := by rintro hst; simp [hst, writes] at hs
  unfold Entry.writeData
  by_cases hse : e.messageSerializer = some s
  · rw [if_neg (not_not.2 hse)]
    cases data with
    | none => exact yields_ok.2 h.close
    | some d =>
      have hle : ¬ (s = .legacy ∧ e.chunkType ≠ standardPartType) := by
        rintro ⟨rfl, hn⟩
        exact hn (h.session.legacy hs hse)
      simp only [if_neg hle]
      cases e.writeRefusal s length d with
      | some status => exact yields_ok.2 (h.failWrite (by simp [hj]))
      | none =>
        rw [yields_ok]
        refine ⟨⟨?_, h.session, fun hst => absurd hst hre, ?_, succ_pos _⟩, h.live⟩
        · -- the buffer that is moved away is not the one of the header
          obtain ⟨hp, hl⟩ := h.room.header hi
          simp only [jobNew, preserveInputPacket]
          split
          all_goals exact { h.room with fits := by simp only [capacity, hp]; exact hl.le }
        · exact .write ⟨e.nextJobId, .writeFinished, d.writeId⟩ (by simp [jobNew, preserveInputPacket, hj]) rfl h.ids hr
            rfl hb (.inl hs) (h.session.writes hs)
  · rw [if_pos hse]
    exact yields_ok.2 h.close

theorem Live.writeStatus (h : e.Live) (hs : e.state.writes) {status : Option WriteStatus} :
    Yields (e.writeStatus s status) Live := by
  have hr : e.state ≠ .read := by rintro hst; simp [hst, writes] at hs
  have hj := h.running.writeJobs (.inl hs)
  unfold Entry.writeStatus
  split
  · exact absurd ‹_› (h.session.writes hs)
  · rename_i own ho
    by_cases hse : own = s
    · subst hse
      rw [if_neg (not_not.2 rfl)]
      cases status with
      | none => exact yields_ok.2 h.close
      | some w =>
        have hl : ¬ (own = .legacy ∧ e.chunkType ≠ standardPartType) := by
          rintro ⟨rfl, hn⟩
          exact hn (h.session.legacy hs ho)
        simp only [if_neg hl]
        split
        · exact yields_ok.2 (h.failWrite hj)
        · split
          · exact yields_ok.2 (h.failWrite hj)
          · refine yields_ok.2 (Live.completeWrite ?_ hr)
            exact ⟨⟨h.room, h.session, h.reading, h.running, h.ids⟩, h.live⟩
    · rw [if_pos hse]
      exact yields_ok.2 h.close

theorem Live.writeEnd (h : e.Live) (hs : e.state.writes) (hw : e.writeJobId = 0) {chunkId : Option ℕ}
    (hi : e.input.mode = .header) : Live (e.writeEnd chunkId) := by
  obtain ⟨hj, hr, hb⟩ := h.running.noJob hs hw
  have he : Live { e with messageSerializer := none, state := .writeFinish } :=
    ⟨⟨h.room, .of_not (by simp) rfl, by simp [Reading], .none hj hr hw hb, h.ids⟩, rfl⟩
  unfold Entry.writeEnd
  cases chunkId with
  | none => exact he
  | some id =>
    dsimp only
    split
    · exact he
    · split
      · exact he
      · refine ⟨⟨{ h.room with current := ?_ }, .of_not (by simp) rfl, by simp [Reading], .none hj hr hw hb, h.ids⟩,
          rfl⟩
        intro hm
        rw [show e.input.mode = .data from hm] at hi
        cases hi

/-! ## Dispatch -/

/-- what a packet that is handed over meets: a write or its end finds no write job and the next header awaited, a READ
that is served finds nothing queued -/
structure Taken (e : Entry) (p : Packet) : Prop where
  acceptable : e.state = .idle → p.acceptable = true
  write : p.isForwarded = true → e.writeJobId = 0 ∧ e.input.mode = .header
  read : e.state = .idle → p.isServedRead = true → e.outputPackets = []

theorem Live.gotPacketIdle (h : e.Live) (ht : e.Taken p) (hi : e.state = .idle) :
    Yields (e.gotPacketIdle p c) Live := by
  obtain ⟨m, length⟩ := p
  have hc := h.close
  have hre : ∀ (accepted : Bool) (reply : OutPacket), Live (e.reportWhen accepted reply) := by
    intro accepted reply
    unfold reportWhen
    split
    · exact h.attachPacket (by simp [hi])
    · exact hc
  obtain ⟨hj, hr, hw, hb⟩ := h.running.idle hi
  cases m with
  | ping opSize =>
    have hsi : opSize + headerSize < 2 ^ 32 := by simpa [acceptable] using ht.acceptable hi
    simp only [gotPacketIdle, ping]
    split
    · exact yields_ok.2 hc
    · rw [if_neg (by rw [mod_eq_of_lt hsi]; omega), yields_ok]
      exact h.attachPacket (by simp [hi])
  | read s request =>
    refine h.readInit hi fun r hreq hres => ht.read hi ?_
    subst hreq
    simp [isServedRead, hres]
  | prefetch request =>
    refine yields_ok.2 ?_
    cases request with
    | none => exact hc
    | some r =>
      refine ⟨⟨h.room, ⟨?_, ?_, ?_⟩, ?_, .none hj hr hw hb, h.ids⟩, h.live⟩ <;>
        simp [prefetch, setRequest, hi, writes, Reading]
  | writeInit f request => exact h.writeInit hi (ht.acceptable hi)
  | getChunkBlocks s request =>
    cases request with
    | none => exact absurd (ht.acceptable hi) (by simp [acceptable])
    | some r =>
      refine yields_ok.2 ⟨⟨h.room, .of_not (by simp) rfl, by simp [Reading], ?_,
        succ_pos _⟩, rfl⟩
      exact .blocks ⟨e.nextJobId, .getBlocksFinished, 0⟩ (by simp [jobNew, hj]) rfl h.ids hr hw rfl (.inl rfl)
  | hddListV2 | listDiskGroups | chart | chartData => exact yields_ok.2 (hre _ _)
  | testChunk wellFormed =>
    refine yields_ok.2 ?_
    cases wellFormed with
    | true => exact h
    | false => exact hc
  | _ => exact yields_ok.2 hc

theorem Live.gotPacket (h : e.Live) (ht : e.Taken p) : Yields (e.gotPacket p c) Live := by
  have hc := h.close
  -- the packets of a write session
  have hwr : ∀ (hs : e.state.writes), Yields (e.gotPacketWriteLast p) Live ∧
      Yields (e.gotPacketWriteForward p) Live := by
    intro hs
    obtain ⟨m, length⟩ := p
    cases m with
    | writeData s data =>
      obtain ⟨hw, hi⟩ := ht.write rfl
      exact ⟨h.writeData hs hw hi, h.writeData hs hw hi⟩
    | writeStatus s status => exact ⟨yields_ok.2 hc, h.writeStatus hs⟩
    | writeEnd chunkId =>
      obtain ⟨hw, hi⟩ := ht.write rfl
      exact ⟨yields_ok.2 (h.writeEnd hs hw hi), yields_ok.2 (h.writeEnd hs hw hi)⟩
    | _ => exact ⟨yields_ok.2 hc, yields_ok.2 hc⟩
  unfold Entry.gotPacket
  split
  · exact yields_ok.2 h
  · exact yields_ok.2 h
  · exact yields_ok.2 h
  · split
    · exact h.gotPacketIdle ht ‹_›
    · exact (hwr (by simp [*, writes])).1
    · exact (hwr (by simp [*, writes])).2
    · rw [yields_ok]
      split
      · exact h
      · exact hc
    · exact yields_ok.2 hc

theorem Live.takePacket (h : e.Live) (hm : e.input.mode = .data) (hw : e.writeJobId = 0)
    (hq : e.state = .idle → e.input.current.isServedRead → e.outputPackets = []) : Yields (e.takePacket c) Live := by
  have hn : Live { e with
      input := e.input.expectHeader
      history := { e.history with received := e.history.received ++ [e.input.current] } } := by
    refine { h with room := { h.room with fits := ?_, header := ?_, current := ?_ } } <;>
      simp [expectHeader, capacity]
  exact hn.gotPacket ⟨fun _ => h.room.current hm, fun _ => ⟨hw, rfl⟩, hq⟩

/-! ## What a step leaves alone -/

/-- the descriptors of the round and the bytes to pass on stay, and every new job has the callback `cb` -/
structure Starts (cb : Callback) (e e' : Entry) : Prop where
  pDesc : e'.pDesc = e.pDesc
  fwdPDesc : e'.fwdPDesc = e.fwdPDesc
  fwdBytesLeft : e'.fwdBytesLeft = e.fwdBytesLeft
  jobs : ∀ j ∈ e'.jobs, j ∈ e.jobs ∨ j.callback = cb

theorem Starts.refl : e.Starts cb e := ⟨rfl, rfl, rfl, fun _ => .inl⟩

theorem Starts.trans {e₁ e₂ : Entry} (h₁ : e.Starts cb e₁) (h₂ : e₁.Starts cb e₂) : e.Starts cb e₂ where
  pDesc := h₂.pDesc.trans h₁.pDesc
  fwdPDesc := h₂.fwdPDesc.trans h₁.fwdPDesc
  fwdBytesLeft := h₂.fwdBytesLeft.trans h₁.fwdBytesLeft
  jobs j hj := (h₂.jobs j hj).elim (h₁.jobs j) .inr

theorem readContinue_starts : Ensures e.readContinue (e.Starts .readFinished) := by
  have ha : e.Starts .readFinished e.attachReadPacket := by
    unfold attachReadPacket
    split <;> exact ⟨rfl, rfl, rfl, fun _ => .inl⟩
  dsimp only [readContinue]
  repeat' split
  · exact ensures_error
  · exact ensures_ok.2 { ha with }
  · exact ensures_error
  · refine ensures_ok.2 { ha with jobs := fun j hj => ?_ }
    rcases mem_append.1 hj with hj | hj
    · exact ha.jobs j hj
    · exact .inr (by rw [mem_singleton.1 hj])

theorem readFinishedCallback_starts : Ensures (e.readFinishedCallback status) (e.Starts .readFinished) := by
  dsimp only [readFinishedCallback]
  repeat' split
  · exact readContinue_starts.mono fun e' h => { h with }
  · exact ensures_ok.2 { Starts.refl (e := e) with }
  · exact ensures_error
  · exact ensures_ok.2 { Starts.refl (e := e) with }

theorem writeData_starts : Ensures (e.writeData s data length) (e.Starts .writeFinished) := by
  unfold writeData
  repeat' split
  · exact ensures_ok.2 { Starts.refl (e := e) with }
  · exact ensures_ok.2 { Starts.refl (e := e) with }
  · exact ensures_error
  · exact ensures_ok.2 { Starts.refl (e := e) with }
  · refine ensures_ok.2 ⟨rfl, rfl, rfl, fun j hj => ?_⟩
    rcases mem_append.1 hj with hj | hj
    · exact .inl hj
    · exact .inr (by rw [mem_singleton.1 hj])

theorem completeWrite_starts : e.Starts cb (e.completeWrite s chunkId writeId) := by
  unfold completeWrite
  split <;> exact ⟨rfl, rfl, rfl, fun _ => .inl⟩

theorem writeStatus_starts {status : Option WriteStatus} :
    Ensures (e.writeStatus s status) (e.Starts .writeFinished) := by
  unfold writeStatus
  repeat' split
  any_goals exact ensures_error
  any_goals exact ensures_ok.2 { Starts.refl (e := e) with }
  refine ensures_ok.2 (.trans ?_ completeWrite_starts)
  exact ⟨rfl, rfl, rfl, fun _ => .inl⟩

theorem writeEnd_starts {chunkId : Option ℕ} : e.Starts cb (e.writeEnd chunkId) := by
  dsimp only [writeEnd]
  repeat' split
  all_goals exact ⟨rfl, rfl, rfl, fun _ => .inl⟩

section

variable (hs : e.state ≠ .idle)
include hs

theorem gotPacket_starts : Ensures (e.gotPacket p c) (e.Starts .writeFinished) := by
  have hsa : e.Starts .writeFinished e := ⟨rfl, rfl, rfl, fun _ => .inl⟩
  have hc : e.Starts .writeFinished { e with state := .close } := ⟨rfl, rfl, rfl, fun _ => .inl⟩
  unfold gotPacket
  split
  · exact ensures_ok.2 hsa
  · exact ensures_ok.2 hsa
  · exact ensures_ok.2 hsa
  · split
    · exact absurd ‹_› hs
    · unfold gotPacketWriteLast
      split
      · exact writeData_starts
      · exact ensures_ok.2 writeEnd_starts
      · exact ensures_ok.2 hc
    · unfold gotPacketWriteForward
      split
      · exact writeData_starts
      · exact writeStatus_starts
      · exact ensures_ok.2 writeEnd_starts
      · exact ensures_ok.2 hc
    · rw [ensures_ok]
      split
      · exact hsa
      · exact hc
    · exact ensures_ok.2 hc

theorem takePacket_starts : Ensures (e.takePacket c) (e.Starts .writeFinished) := by
  unfold takePacket
  exact Ensures.mono (gotPacket_starts hs) fun e' h => { h with }

theorem checkNextPacket_starts : Ensures (e.checkNextPacket c) (e.Starts .writeFinished) := by
  unfold checkNextPacket
  split
  · exact takePacket_starts hs
  · exact ensures_ok.2 { Starts.refl (e := e) with }

theorem writeFinishedCallback_starts :
    Ensures (e.writeFinishedCallback status writeId c) (e.Starts .writeFinished) := by
  dsimp only [writeFinishedCallback]
  repeat' split
  · exact ensures_error
  · exact ensures_ok.2 { Starts.refl (e := e) with }
  · exact Ensures.mono (checkNextPacket_starts hs) fun e' h => { h with }
  · refine Ensures.mono (checkNextPacket_starts (by rw [completeWrite_state]; exact hs)) fun e' h => ?_
    refine .trans (.trans ?_ completeWrite_starts) h
    exact ⟨rfl, rfl, rfl, fun _ => .inl⟩

end

/-! ## Finished jobs -/

/-- the invariant between the steps of the loop: a connection that is polled has not ended, and one whose next server is
polled runs at most a write job -/
structure Settled (e : Entry) : Prop extends Sound e where
  polled : e.pDesc.isSome = true → e.state.ended = false
  fwdPolled : e.fwdPDesc.isSome = true → e.state.ended = false ∧ ∀ j ∈ e.jobs, j.callback = .writeFinished

theorem Live.settled {e' : Entry} (h : e'.Live) (hst : Starts cb e e') (hj : e.jobs = [])
    (hf : e.fwdPDesc.isSome → cb = .writeFinished) : e'.Settled where
  toSound := h.toSound
  polled _ := h.live
  fwdPolled hp := by
    rw [hst.fwdPDesc] at hp
    refine ⟨h.live, fun j hj' => (hst.jobs j hj').elim (fun hold => ?_) fun hn => hn.trans (hf hp)⟩
    rw [hj] at hold
    cases hold

theorem Live.readFinishedCallback (h : e.Live) {j : Job} (hj : e.jobs = [j]) (hw : e.writeJobId = 0)
    (hb : e.getBlocksJobId = 0) (hs : e.state = .read ∨ e.state = .close) (hm : e.messageSerializer ≠ none) :
    Yields ({ e with jobs := [] }.readFinishedCallback status) Live := by
  have hr : e.state = .read → e.outputPackets.length ≤ 1 ∧ e.todoReadCounter = e.outputPackets.length + 1 := by
    intro hst
    obtain ⟨h1, h2, -⟩ := h.reading hst
    exact ⟨h1, by rw [h2, hj]; rfl⟩
  have hd : e.state = .read → (e.todoReadCounter + 255) % 256 = e.outputPackets.length := by
    intro hst
    obtain ⟨h1, h2⟩ := hr hst
    rw [h2]
    omega
  by_cases ho : status = .ok
  · by_cases ht : (e.todoReadCounter + 255) % 256 = 0
    · simp only [Entry.readFinishedCallback, ho, if_true, ht]
      refine Between.readContinue ⟨h.room, hm, hs, fun hst => ⟨?_, rfl⟩, rfl, rfl, hw, hb, fun _ => rfl, h.ids⟩
      exact eq_nil_of_length_eq_zero ((hd hst).symm.trans ht)
    · simp only [Entry.readFinishedCallback, ho, if_true, if_neg ht, yields_ok]
      exact ⟨⟨h.room, h.session, fun hst => ⟨(hr hst).1, hd hst, fun _ => rfl⟩, .none rfl rfl hw hb, h.ids⟩, h.live⟩
  · simp only [Entry.readFinishedCallback, if_neg ho]
    split
    · exact absurd ‹_› hm
    · exact yields_ok.2 ⟨⟨h.room, .of_not (by simp [readDone]) rfl, by simp [Reading, readDone],
        .none rfl rfl hw hb, h.ids⟩, rfl⟩

theorem Live.checkNextPacket (h : e.Live) (hw : e.writeJobId = 0) (hs : e.state ≠ .idle) :
    Yields (e.checkNextPacket c) Live := by
  unfold Entry.checkNextPacket
  split
  · rename_i hn
    exact h.takePacket hn.1 hw (fun hi => absurd hi hs)
  · exact yields_ok.2 h

theorem Live.writeFinishedCallback (h : e.Live) (hr : e.readJobId = 0) (hb : e.getBlocksJobId = 0)
    (hs : e.state.writes ∨ e.state = .writeFinish ∨ e.state = .close) (hm : e.messageSerializer ≠ none) :
    Yields ({ e with jobs := [] }.writeFinishedCallback status writeId c) Live := by
  have hre : e.state ≠ .read := by rintro hst; simp [hst, writes] at hs
  have hi : e.state ≠ .idle := by rintro hst; simp [hst, writes] at hs
  dsimp only [Entry.writeFinishedCallback]
  split
  · exact absurd ‹_› hm
  · rename_i s hse
    have hd : ∀ (isChunkOpen : Bool) (history : History), Live { e with
        jobs := [], writeJobId := 0, isChunkOpen := isChunkOpen, history := history } := fun _ _ =>
      ⟨⟨h.room, h.session, fun hst => absurd hst hre, .none rfl hr rfl hb, h.ids⟩, h.live⟩
    split
    · exact yields_ok.2 ((hd e.isChunkOpen e.history).failWrite (by simp))
    · split
      · exact ((hd _ _).attachPacket hre).checkNextPacket rfl hi
      · refine ((hd _ _).completeWrite hre).checkNextPacket ?_ ?_
        · rw [completeWrite_writeJobId]
        · rw [completeWrite_state]
          exact hi

theorem Settled.getChunkBlocksFinishedCallback (h : e.Settled) (hr : e.readJobId = 0) (hw : e.writeJobId = 0) :
    Settled ({ e with jobs := [] }.getChunkBlocksFinishedCallback status) where
  room := h.room
  session := .of_not (by simp [Entry.getChunkBlocksFinishedCallback]) rfl
  reading := by simp [Reading, Entry.getChunkBlocksFinishedCallback]
  running := .none rfl hr hw rfl
  ids := h.ids
  polled := fun _ => rfl
  fwdPolled := fun _ => ⟨rfl, fun j hj => by cases hj⟩

theorem Settled.delayedCloseCallback (h : e.Settled) (hs : e.state = .closeWait) :
    Settled { e with jobs := [] }.delayedCloseCallback where
  room := h.room
  session := .of_not (by simp [Entry.delayedCloseCallback]) rfl
  reading := by simp [Reading, Entry.delayedCloseCallback]
  running := .gone rfl rfl
  ids := h.ids
  polled := fun hp => absurd (h.polled hp) (by simp [hs, ended])
  fwdPolled := fun hp => absurd (h.fwdPolled hp).1 (by simp [hs, ended])

theorem Settled.finishJob (h : e.Settled) {id : ℕ} : Yields (e.finishJob id status c) Settled := by
  -- the pool has at most one job of the connection
  have ho : ∀ j, e.jobs = [j] → e.state ≠ .closed →
      (j.id = id → Yields ({ e with jobs := [] }.callBack j status c) Settled) →
      Yields (e.finishJob id status c) Settled := by
    intro j hj hs hca
    by_cases hi : j.id = id
    · simpa [Entry.finishJob, hj, hi, hs] using hca hi
    · simpa [Entry.finishJob, hj, hi] using h
  have hli : e.state ≠ .closeWait → e.state ≠ .closed → e.Live := fun h1 h2 =>
    ⟨h.toSound, by cases hs : e.state <;> simp_all [ended]⟩
  cases h.running with
  | none hj => simpa [Entry.finishJob, hj] using h
  | read j hj hc _ _ hw hb hs hm =>
    have hl : e.Live := hli (by rintro h'; simp [h'] at hs) (by rintro h'; simp [h'] at hs)
    refine ho j hj (by rintro h'; simp [h'] at hs) fun _ => ?_
    obtain ⟨e', he', hli'⟩ := hl.readFinishedCallback hj hw hb hs hm
    have hf : e.fwdPDesc.isSome → Callback.readFinished = .writeFinished := fun hp => by
      rw [← hc]
      exact (h.fwdPolled hp).2 j (by simp [hj])
    simp only [callBack, hc]
    have hst := readFinishedCallback_starts (e := { e with jobs := [] }) e' he'
    exact ⟨e', he', hli'.settled hst rfl hf⟩
  | write j hj hc _ hr _ hb hs hm =>
    have hl : e.Live := hli (by rintro h'; simp [h', writes] at hs) (by rintro h'; simp [h', writes] at hs)
    refine ho j hj (by rintro h'; simp [h', writes] at hs) fun _ => ?_
    obtain ⟨e', he', hli'⟩ := hl.writeFinishedCallback hr hb hs hm
    have hid : e.state ≠ .idle := by rintro h'; simp [h', writes] at hs
    simp only [callBack, hc]
    have hst := writeFinishedCallback_starts (e := { e with jobs := [] }) hid e' he'
    exact ⟨e', he', hli'.settled hst rfl fun _ => rfl⟩
  | blocks j hj hc _ hr hw _ hs =>
    refine ho j hj (by rintro h'; simp [h'] at hs) fun _ => ?_
    simp only [callBack, hc, yields_ok]
    exact h.getChunkBlocksFinishedCallback hr hw
  | closing j hj hc hs =>
    refine ho j hj (by simp [hs]) fun _ => ?_
    simp only [callBack, hc, yields_ok]
    exact h.delayedCloseCallback hs
  | gone hj => simpa [Entry.finishJob, hj] using h

end Entry

/-! ## Sockets -/

variable {r input fwdInput : Receiving} {result : ReadResult} {left n : ℕ} {ptr : Bool}

theorem Receiving.read_yields (h : r.start + r.bytesLeft ≤ r.capacity) :
    Yields (r.read result) fun o => ∀ r', o = .stored r' →
      (∃ n ≤ r.bytesLeft, r' = { r with start := r.start + n, bytesLeft := r.bytesLeft - n }) ∧
      (r'.bytesLeft = 0 → result.completes r.bytesLeft) := by
  cases result with
  | again | failed => simp [read]
  | got n =>
    have hmi : r.start + min n r.bytesLeft ≤ r.capacity := by omega
    by_cases hn : n = 0
    · simp [read, hn]
    · simp only [read, if_neg hn, if_pos hmi, yields_ok, Outcome.stored.injEq]
      rintro r' rfl
      refine ⟨⟨min n r.bytesLeft, by omega, rfl⟩, fun h0 => ?_⟩
      simp only [ReadResult.completes, decide_eq_true_eq]
      have h0' : r.bytesLeft - min n r.bytesLeft = 0 := h0
      omega

theorem Receiving.yields_read {f : Outcome → Except Crash Entry} {P : Entry → Prop}
    (h : r.start + r.bytesLeft ≤ r.capacity) (ha : Yields (f .again) P) (hl : Yields (f .lost) P)
    (hst : ∀ n ≤ r.bytesLeft, (r.bytesLeft - n = 0 → result.completes r.bytesLeft) →
      Yields (f (.stored { r with start := r.start + n, bytesLeft := r.bytesLeft - n })) P) :
    Yields (r.read result >>= f) P := by
  refine (r.read_yields h).bind fun o ho => ?_
  cases o with
  | again => exact ha
  | lost => exact hl
  | stored r' =>
    obtain ⟨⟨n, hn, rfl⟩, hal⟩ := ho r' rfl
    exact hst n hn hal

theorem Room.advance (h : Room input fwdInput left ptr) (hn : n ≤ input.bytesLeft) :
    Room { input with start := input.start + n, bytesLeft := input.bytesLeft - n } fwdInput left ptr where
  __ := h
  fits := by
    have := h.fits
    simp only [capacity] at this ⊢
    omega
  header hm := by
    obtain ⟨h1, h2⟩ := h.header hm
    exact ⟨h1, by dsimp only; omega⟩

theorem Room.fwdAdvance (h : Room input fwdInput left ptr) (hn : n ≤ fwdInput.bytesLeft) :
    Room input { fwdInput with start := fwdInput.start + n, bytesLeft := fwdInput.bytesLeft - n } left ptr where
  __ := h
  fwdFits := by
    have := h.fwdFits
    simp only [capacity] at this ⊢
    omega

namespace Entry

variable {e : Entry}

section

variable (h : e.Live)
include h

theorem Live.buffers (history : History) (hr : Room input fwdInput left ptr) : Live { e with
      input := input, fwdInput := fwdInput, fwdBytesLeft := left, fwdStartPtr := ptr, history := history } :=
  { h with room := hr }

variable {c : ConnectResult} {result : ReadResult}

theorem Live.takeUnlessWriting (hm : e.input.mode = .data)
    (hq : e.state = .idle → e.input.current.isServedRead → e.outputPackets = []) :
    Yields (e.takeUnlessWriting c) Live := by
  unfold Entry.takeUnlessWriting
  split
  · exact h.takePacket hm ‹_› hq
  · exact yields_ok.2 h

theorem Live.readData (hm : e.input.mode = .data)
    (hq : e.input.bytesLeft = 0 ∨ result.completes e.input.bytesLeft → e.state = .idle →
      e.input.current.isServedRead → e.outputPackets = []) : Yields (e.readData result c) Live := by
  unfold Entry.readData
  split
  · exact h.takeUnlessWriting hm (hq (.inl ‹_›))
  · refine yields_read h.room.fits (yields_ok.2 h) (yields_ok.2 h.close) fun n hn ha => ?_
    have hl := h.buffers e.history (h.room.advance hn)
    dsimp only
    split
    · exact yields_ok.2 hl
    · rename_i hle
      exact hl.takeUnlessWriting hm (hq (.inr (ha (Nat.eq_zero_of_not_pos hle))))

theorem Live.startData {p : Packet} (hp : p.acceptable) (hn : n ≤ e.input.bytesLeft) :
    Live (e.startData p { e.input with start := e.input.start + n, bytesLeft := e.input.bytesLeft - n }) := by
  refine h.buffers _ { h.room with fits := ?_, header := by simp, current := fun _ => hp }
  have hf := h.room.fits
  unfold provide
  by_cases hl : p.length = 0
  · have he : e.input.start + n + p.length ≤ e.input.capacity := by omega
    rw [if_pos hl]
    exact he
  · rw [if_neg hl]
    split
    · rename_i ha
      have hma : p.length ≤ ioAlignedPacketSize - ioAlignedOffset := by
        unfold isAligned at ha
        unfold acceptable at hp
        split at ha
        · simpa [*] using hp
        · simpa [*] using hp
        · cases ha
      have hsu : ioAlignedOffset + p.length ≤ ioAlignedPacketSize := by
        simp only [ioAlignedPacketSize, ioAlignedOffset, ioBlockSize, blockSize, writeDataPrefixSize] at hma ⊢
        omega
      exact hsu.trans (le_max_right _ _)
    · simp [capacity]

theorem Live.readFromSocket {w : Served} (hp : w.next.acceptable)
    (hq : e.state = .idle → ∀ p ∈ e.handedOver w, p.isServedRead → e.outputPackets = []) :
    Yields (e.readFromSocket w.next w.read₁ w.read₂ c) Live := by
  unfold Entry.readFromSocket
  cases hm : e.input.mode with
  | data =>
    refine h.readData hm fun ha hi => hq hi _ ?_
    simp [handedOver, hm, ha]
  | header =>
    obtain ⟨hpl, hle⟩ := h.room.header hm
    simp only [hpl, hle, ne_eq, not_true_eq_false, or_self, if_false]
    refine yields_read h.room.fits (yields_ok.2 h) (yields_ok.2 h.close) fun n hn ha => ?_
    have hl := h.buffers e.history (h.room.advance hn)
    dsimp only
    split
    · exact yields_ok.2 hl
    · rename_i hno
      split
      · exact yields_ok.2 hl.close
      · refine (h.startData hp hn).readData rfl fun hd hi => hq hi _ ?_
        have hh := ha (Nat.eq_zero_of_not_pos hno)
        have hd' : w.next.length = 0 ∨ w.read₂.completes w.next.length := hd
        simp only [handedOver, hm, hh, true_and]
        rw [if_pos hd']
        rfl

/-! ## Forwarding -/

theorem Live.fwdLost (hs : e.state = .writeForward) : Yields e.fwdError Live :=
  h.fwdError (h.running.writeJobs (by simp [hs, writes])) (h.session.writes (by simp [hs, writes]))

theorem Live.takeFwdPacket (hp : e.fwdInput.current.isForwarded = false) (hs : e.state = .writeForward) :
    Yields (e.takeFwdPacket c) Live := by
  have hn : Live { e with
      fwdInput := e.fwdInput.expectHeader
      history := { e.history with fwdReceived := e.history.fwdReceived ++ [e.fwdInput.current] } } := by
    refine h.buffers _ { h.room with fwdFits := ?_, fwdCurrent := ?_ } <;>
      simp [expectHeader, capacity]
  refine hn.gotPacket ⟨fun hi => ?_, fun hf => ?_, fun hi => ?_⟩
  · rw [show e.state = .idle from hi] at hs
    cases hs
  · rw [hp] at hf
    cases hf
  · rw [show e.state = .idle from hi] at hs
    cases hs

theorem Live.fwdReadData (hs : e.state = .writeForward) (hm : e.fwdInput.mode = .data) :
    Yields (e.fwdReadData result c) Live := by
  unfold Entry.fwdReadData
  split
  · exact h.takeFwdPacket (h.room.fwdCurrent hm) hs
  · refine yields_read h.room.fwdFits (yields_ok.2 h) (h.fwdLost hs) fun n hn _ => ?_
    have hl := h.buffers e.history (h.room.fwdAdvance hn)
    dsimp only
    split
    · exact yields_ok.2 hl
    · exact hl.takeFwdPacket (h.room.fwdCurrent hm) hs

theorem Live.fwdRead (hs : e.state = .writeForward) {next : Packet} (hp : next.isForwarded = false)
    {result₁ result₂ : ReadResult} : Yields (e.fwdRead next result₁ result₂ c) Live := by
  unfold Entry.fwdRead
  cases hm : e.fwdInput.mode with
  | data => exact h.fwdReadData hs hm
  | header =>
    refine yields_read h.room.fwdFits (yields_ok.2 h) (h.fwdLost hs) fun n hn _ => ?_
    have hl := h.buffers e.history (h.room.fwdAdvance hn)
    dsimp only
    split
    · exact yields_ok.2 hl
    · split
      · exact hl.fwdLost hs
      · refine Live.fwdReadData (e := e.fwdStartData next _) ?_ hs rfl
        refine h.buffers _ { h.room with fwdFits := ?_, fwdCurrent := fun _ => hp }
        by_cases hle : next.length = 0
        · have hf := h.room.fwdFits
          have he : e.fwdInput.start + n + next.length ≤ e.fwdInput.capacity := by omega
          rw [if_pos hle]
          exact he
        · simp [if_neg hle, capacity]

theorem Live.fwdWrite (hs : e.state = .writeInit) {result : WriteResult} : Yields (e.fwdWrite result) Live := by
  have hw : e.state.writes := by simp [hs, writes]
  have hj := h.running.writeJobs (.inl hw)
  have hse := h.session.writes hw
  have hsen : Live (fwdWrite.fwdWritten e) := by
    refine Live.writeState (e := { e with
      fwdBytesLeft := 0, fwdStartPtr := false, fwdInput := e.fwdInput.expectHeader }) ?_ hj
      (fun _ => ⟨hse, h.session.legacy hw⟩) (.inl rfl)
    refine h.buffers e.history { h.room with fwdFits := ?_, fwdCurrent := ?_, passing := by simp } <;>
      simp [expectHeader, capacity]
  unfold Entry.fwdWrite
  split
  · exact yields_ok.2 hsen
  · split
    · exact yields_ok.2 h
    · exact h.fwdError hj hse
    · split
      · exact h.fwdError hj hse
      · split
        · exact yields_ok.2 hsen
        · refine yields_ok.2 (h.buffers e.history { h.room with passing := fun hp => h.room.passing ?_ })
          omega

section

variable (hs : e.state = .writeForward)
include hs

variable {c : ConnectResult} {w : WriteResult}

section

variable (hm : e.input.mode = .data)
include hm

theorem Live.forwardTake : Yields (e.forwardTake c) Live := by
  have hi : e.state ≠ .idle := by simp [hs]
  unfold Entry.forwardTake
  split
  · rename_i hd
    obtain ⟨e', he', hl⟩ := h.takePacket hm hd.2.2 (fun h' => absurd h' hi)
    have hle := (takePacket_starts hi e' he').fwdBytesLeft
    rw [he']
    refine yields_ok.2 (hl.buffers e'.history { hl.room with passing := fun hp => ?_ })
    rw [hle, hd.2.1] at hp
    cases hp
  · exact yields_ok.2 h

theorem Live.forwardWrite {result : WriteResult} : Yields (e.forwardWrite result c) Live := by
  unfold Entry.forwardWrite
  split
  · exact h.forwardTake hs hm
  · rename_i hl
    rw [if_neg (by simp [h.room.passing (pos_of_ne_zero hl)])]
    split
    · exact yields_ok.2 h
    · exact h.fwdLost hs
    · split
      · exact h.fwdLost hs
      · refine Live.forwardTake ?_ ?_ ?_
        · refine h.buffers _ { h.room with passing := fun hp => h.room.passing ?_ }
          omega
        · exact hs
        · exact hm

theorem Live.forwardData : Yields (e.forwardData result w c) Live := by
  unfold Entry.forwardData
  split
  · exact h.forwardWrite hs hm
  · refine yields_read h.room.fits (yields_ok.2 h) (yields_ok.2 h.close) fun n hn _ => ?_
    have ha := h.room.advance hn
    refine Live.forwardWrite ?_ ?_ ?_
    · refine h.buffers _ { ha with passing := fun hp => ?_ }
      by_cases hpt : e.fwdStartPtr
      · exact hpt
      · rw [if_neg hpt] at hp
        exact h.room.passing hp
    · exact hs
    · exact hm

end

theorem Live.forward {next : Packet} (hp : next.acceptable) {result₁ result₂ : ReadResult} :
    Yields (e.forward next result₁ result₂ w c) Live := by
  unfold Entry.forward
  cases hm : e.input.mode with
  | data => exact h.forwardData hs hm
  | header =>
    refine yields_read h.room.fits (yields_ok.2 h) (yields_ok.2 h.close) fun n hn _ => ?_
    have hl := h.buffers e.history (h.room.advance hn)
    dsimp only
    split
    · exact yields_ok.2 hl
    · split
      · exact yields_ok.2 hl.close
      · refine Live.forwardData (e := e.forwardStartData next _) ?_ hs rfl
        refine h.buffers _ { h.room with
          fits := ?_, header := by simp, current := fun _ => hp, passing := fun hpo => ?_ }
        · simp [capacity]
        · cases hf : next.isForwarded with
          | true => rfl
          | false =>
            simp only [hf, Bool.false_eq_true, if_false] at hpo
            simp [h.room.passing hpo]

end

/-! ## Sending -/

theorem Live.popPacket {p : OutPacket} {rest : List OutPacket} (ho : e.outputPackets = p :: rest) :
    Yields (e.popPacket p rest).outputCheckReadFinished Live := by
  unfold outputCheckReadFinished
  split
  · rename_i hst
    have hre : e.state = .read := hst
    obtain ⟨hl, ht, hop⟩ := h.reading hre
    have hres : rest = [] := by
      rw [ho, length_cons] at hl
      exact eq_nil_of_length_eq_zero (by omega)
    subst hres
    have ht' : e.todoReadCounter = 1 + e.jobs.length := by rw [ht, ho]; rfl
    have hse := h.session.read hre
    cases h.running with
    | none hj hr hw hb =>
      have hz : (e.todoReadCounter + 255) % 256 = 0 := by simp [ht', hj]
      have h0 : ((e.popPacket p []).todoReadCounter + 255) % 256 = 0 := hz
      simp only [sendFinished, h0, if_true]
      exact Between.readContinue ⟨h.room, hse, .inl hre, fun _ => ⟨rfl, rfl⟩, hj, hr, hw, hb, fun _ => hop hj, h.ids⟩
    | read j hj hc hp hr hw hb hs hm =>
      have hon : (e.todoReadCounter + 255) % 256 = 1 := by simp [ht', hj]
      have h1 : ((e.popPacket p []).todoReadCounter + 255) % 256 = 1 := hon
      simp only [sendFinished, h1, one_ne_zero, if_false, yields_ok]
      refine ⟨⟨h.room, h.session, fun _ => ⟨zero_le _, ?_, fun hn => ?_⟩, .read j hj hc hp hr hw hb hs hm, h.ids⟩,
        h.live⟩
      · change 1 = 0 + e.jobs.length
        rw [hj]
        rfl
      · rw [show e.jobs = [] from hn] at hj
        cases hj
    | write j _ _ _ _ _ _ hs => simp [hre, writes] at hs
    | blocks j _ _ _ _ _ _ hs | closing j _ _ hs | gone _ hs => simp [hre] at hs
  · rename_i hst
    exact yields_ok.2 ⟨⟨h.room, h.session, fun hr => absurd hr hst, h.running, h.ids⟩, h.live⟩

theorem Live.writeToSocket {results : List SendResult} : Yields (e.writeToSocket results) Live := by
  induction results generalizing e with
  | nil => exact yields_ok.2 h
  | cons result results ih =>
    unfold writeToSocket
    split
    · exact yields_ok.2 h
    · rename_i p rest ho
      cases result with
      | again => exact yields_ok.2 h
      | failed => exact yields_ok.2 h.close
      | zero =>
        rw [yields_ok]
        split
        · exact h
        · exact h.close
      | part => exact yields_ok.2 ⟨⟨h.room, h.session, h.reading, h.running, h.ids⟩, h.live⟩
      | all => exact (h.popPacket ho).bind fun e' he' => ih he'

end

/-! ## The loop -/

theorem Sound.preparePollFds (h : e.Sound) : e.preparePollFds.Settled := by
  have hso : e.preparePollFds.Sound := by
    unfold Entry.preparePollFds
    split <;> exact ⟨h.room, h.session, h.reading, h.running, h.ids⟩
  refine ⟨hso, fun hp => ?_, fun hp => ?_⟩
  · cases hs : e.state <;> simp [Entry.preparePollFds, hs, State.ended] at hp ⊢
  · have hj : e.preparePollFds.jobs = e.jobs := by
      unfold Entry.preparePollFds
      split <;> rfl
    rw [hj]
    have hw : e.state.writes := by
      cases hs : e.state <;> simp [Entry.preparePollFds, hs, State.writes] at hp ⊢
    refine ⟨?_, h.running.writeJobs (.inl hw)⟩
    cases hs : e.state <;> simp [Entry.preparePollFds, hs, State.ended, State.writes] at hw ⊢

theorem Settled.servePollErrors (h : e.Settled) {w : Served}
    (hse : w.fwdHup → e.fwdPDesc.isSome → e.messageSerializer.isSome) :
    Yields (e.servePollErrors w) fun e' => e'.Sound ∧ (e'.state = .idle → e' = e) := by
  unfold Entry.servePollErrors
  split
  · rename_i hup
    rw [Bool.and_eq_true] at hup
    exact yields_ok.2 ⟨(Live.close ⟨h.toSound, h.polled hup.2⟩).toSound, fun hi => by cases hi⟩
  · split
    · rename_i hup
      rw [Bool.and_eq_true] at hup
      obtain ⟨hli, hj⟩ := h.fwdPolled hup.2
      have hn : e.messageSerializer ≠ none := Option.isSome_iff_ne_none.1 (hse hup.1 hup.2)
      obtain ⟨e', he', hl⟩ := Live.fwdError ⟨h.toSound, hli⟩ hj hn
      refine ⟨e', he', hl.toSound, fun hi => ?_⟩
      unfold fwdError at he'
      split at he'
      · cases he'
      · cases he'
        cases hi
    · exact yields_ok.2 ⟨h.toSound, fun _ => rfl⟩

section

variable (h : e.Live)
include h

variable {w : Served}

theorem Live.serveWrite {lstate : State} : Yields (e.serveWrite w lstate) Live := by
  unfold Entry.serveWrite
  split
  · exact h.writeToSocket
  · exact yields_ok.2 h

variable (hp : w.next.acceptable)
include hp

theorem Live.serveClient (hq : e.state = .idle → ∀ p ∈ e.handedOver w, p.isServedRead → e.outputPackets = []) :
    Yields (e.serveClient w) Live := by
  have hr : Yields (e.serveRead w) Live := by
    unfold serveRead
    split
    · exact h.readFromSocket hp hq
    · exact yields_ok.2 h
  exact hr.bind fun e' he' => he'.serveWrite

theorem Live.serveForwardAfterInit : Yields (e.serveForwardAfterInit w) Live := by
  unfold Entry.serveForwardAfterInit
  split
  · exact h.forward ‹_› hp
  · exact yields_ok.2 h

theorem Live.serveWriteInit (hs : e.state = .writeInit) : Yields (e.serveWriteInit w) Live := by
  unfold Entry.serveWriteInit
  split
  · exact (h.fwdWrite hs).bind fun e' he' => he'.serveForwardAfterInit hp
  · exact yields_ok.2 h

theorem Live.serveConnecting (hs : e.state = .connecting) : Yields (e.serveConnecting w) Live := by
  have hw : e.state.writes := by simp [hs, writes]
  have hj := h.running.writeJobs (.inl hw)
  have hse := h.session.writes hw
  have hc : Yields (e.fwdConnected w.connected) Live := by
    unfold fwdConnected
    split
    · exact yields_ok.2 (h.writeState hj (fun _ => ⟨hse, h.session.legacy hw⟩) (.inl rfl))
    · exact h.fwdError hj hse
  unfold Entry.serveConnecting
  split
  · refine hc.bind fun e₁ h₁ => ?_
    have hwr : Yields (e₁.serveInitAfterConnect w) Live := by
      unfold serveInitAfterConnect
      split
      · exact h₁.fwdWrite ‹_›
      · exact yields_ok.2 h₁
    exact hwr.bind fun e₂ h₂ => h₂.serveForwardAfterInit hp
  · exact yields_ok.2 h

theorem Live.serveWriteForward (hs : e.state = .writeForward) (hf : w.fwdNext.isForwarded = false) :
    Yields (e.serveWriteForward w) Live := by
  have h₁ : Yields (e.serveForward w) Live := by
    unfold serveForward
    split
    · exact h.forward hs hp
    · exact yields_ok.2 h
  refine h₁.bind fun e₁ he₁ => ?_
  have h₂ : Yields (e₁.serveFwdRead w) Live := by
    unfold serveFwdRead
    split
    · rename_i hst
      exact he₁.fwdRead hst.2 hf
    · exact yields_ok.2 he₁
  exact h₂.bind fun e₂ he₂ => he₂.serveWrite

end

section

variable (h : e.Sound)
include h

variable {w : Served}

theorem Sound.serveState (hp : w.next.acceptable) (hf : w.fwdNext.isForwarded = false)
    (hq : e.state = .idle → ∀ p ∈ e.handedOver w, p.isServedRead → e.outputPackets = []) :
    Yields (e.serveState w) Sound := by
  have hli : e.state.ended = false → e.Live := fun hs => ⟨h, hs⟩
  have hc : e.state.ended = false → Yields (e.serveClient w) Sound := fun hs =>
    ((hli hs).serveClient hp hq).mono fun _ hl => hl.toSound
  unfold Entry.serveState
  split
  any_goals exact hc (by simp [*, ended])
  · exact ((hli (by simp [*, ended])).serveConnecting hp ‹_›).mono fun _ hl => hl.toSound
  · exact ((hli (by simp [*, ended])).serveWriteInit hp ‹_›).mono fun _ hl => hl.toSound
  · exact ((hli (by simp [*, ended])).serveWriteForward hp ‹_› hf).mono fun _ hl => hl.toSound
  · exact yields_ok.2 h

theorem Sound.serveFinish : e.serveFinish.Sound := by
  unfold Entry.serveFinish
  split
  · rename_i hs
    exact (Live.close ⟨h, by simp [hs.1, ended]⟩).toSound
  · exact h

theorem Sound.serveConnectTimeout : Yields (e.serveConnectTimeout w) Sound := by
  unfold Entry.serveConnectTimeout
  split
  · rename_i hs
    have hw : e.state.writes := by simp [hs.1, writes]
    have hl : Live { e with connectRetryCounter := e.connectRetryCounter + 1 } :=
      ⟨⟨h.room, h.session, h.reading, h.running, h.ids⟩, by simp [hs.1, ended]⟩
    have hj := hl.running.writeJobs (.inl hw)
    have hse := hl.session.writes hw
    have hlo := (hl.fwdError hj hse).mono fun _ h' => h'.toSound
    have hsta : ∀ state : State, state.writes →
        Sound { e with connectRetryCounter := e.connectRetryCounter + 1, state := state } := fun state hst =>
      (hl.writeState hj (fun _ => ⟨hse, hl.session.legacy hw⟩) (.inl hst)).toSound
    unfold retryConnect
    dsimp only
    split
    · cases w.retry with
      | failed => exact hlo
      | immediate | inProgress => exact yields_ok.2 (hsta _ rfl)
    · exact hlo
  · exact yields_ok.2 h

theorem Sound.delayClose {j : Job} (hj : e.jobs = [j]) : (e.delayClose j.id).Sound where
  room := h.room
  session := .of_not (by simp [Entry.delayClose]) rfl
  reading := by simp [Reading, Entry.delayClose]
  running := .closing { j with callback := .delayedClose } (by simp [Entry.delayClose, hj]) rfl rfl
  ids := h.ids

theorem Sound.closeJobs (hs : e.state = .close) : e.closeJobs.Sound := by
  unfold Entry.closeJobs
  cases h.running with
  | none hj hr hw hb =>
    simp only [hr, hw, hb, lt_irrefl, if_false]
    exact ⟨h.room, .of_not (by simp) rfl, by simp [Reading], .gone hj rfl, h.ids⟩
  | read j hj _ hp hr =>
    rw [if_pos (hr ▸ hp), hr]
    exact h.delayClose hj
  | write j hj _ hp hr hw =>
    rw [if_neg (by simp [hr]), if_pos (hw ▸ hp), hw]
    exact h.delayClose hj
  | blocks j hj _ hp hr hw hb =>
    rw [if_neg (by simp [hr]), if_neg (by simp [hw]), if_pos (hb ▸ hp), hb]
    exact h.delayClose hj
  | closing j _ _ hst | gone _ hst => simp [hs] at hst

theorem Sound.serveInactive (w : Served) : (e.serveInactive w).Sound := by
  unfold Entry.serveInactive
  split
  · rename_i hs
    exact (Live.close ⟨h, by cases hst : e.state <;> simp_all [ended]⟩).toSound
  · exact h

theorem Sound.serveClose : e.serveClose.Sound := by
  unfold Entry.serveClose
  split
  · exact h.closeJobs ‹_›
  · exact h

end

theorem Settled.servePoll (h : e.Settled) (w : Served) (hc : e.Careful (.servePoll w)) :
    Yields (e.servePoll w) Settled := by
  obtain ⟨hp, hf, hse, hq⟩ := hc
  refine (h.servePollErrors hse).bind fun e₁ h₁ => ?_
  have hq₁ : e₁.state = .idle → ∀ p ∈ e₁.handedOver w, p.isServedRead → e₁.outputPackets = [] := by
    intro hi
    obtain rfl := h₁.2 hi
    exact hq hi
  refine (h₁.1.serveState hp hf hq₁).bind fun e₂ h₂ => ?_
  refine (h₂.serveFinish.serveConnectTimeout).bind fun e₃ h₃ => ?_
  have hs := (h₃.serveInactive w).serveClose
  refine yields_ok.2 ⟨⟨hs.room, hs.session, hs.reading, hs.running, hs.ids⟩, ?_, ?_⟩
  · intro hso
    cases hso
  · intro hso
    cases hso

theorem Settled.step (h : e.Settled) {ev : Event} (hc : e.Careful ev) : Yields (e.step ev) Settled := by
  cases ev with
  | preparePollFds => exact yields_ok.2 h.toSound.preparePollFds
  | jobFinished id status c => exact h.finishJob
  | servePoll w => exact h.servePoll w hc

theorem settled_new : Settled {} where
  room := ⟨by decide, by decide, by simp, by decide, by simp, by simp⟩
  session := .of_not (by simp) rfl
  reading := by simp [Reading]
  running := .none rfl rfl rfl rfl
  ids := by decide
  polled := by simp
  fwdPolled := by simp

/-- **Peers do not bring the chunkserver down.** As long as every step meets `Careful` there is a next state: no
assertion fails, no exception leaves `gotPacket` and no byte is stored outside of its buffer. -/
theorem never_crashes (es : List Event) (h : Along step Careful {} es) : ∃ e, run {} es = .ok e := by
  obtain ⟨e, he, -⟩ := yields_foldlM (P := Settled) (fun s ev hc hs => hs.step hc) {} es h settled_new
  exact ⟨e, he⟩

/-- a ping, then a read that is served while nothing is queued -/
def carefulRun : List Event :=
  [.preparePollFds, .servePoll (receives ⟨.ping 4, 4⟩), .preparePollFds, .servePoll (sends 1),
    .preparePollFds, .servePoll (receives (readPacketOf 1)), .jobFinished 1 .ok .failed, .preparePollFds,
    .servePoll (sends 2)]

theorem never_crashes_read : Along step Careful {} carefulRun ∧ ∃ e, run {} carefulRun = .ok e :=
  ⟨by decide +kernel, never_crashes carefulRun (by decide +kernel)⟩

/-! ## Peers that do -/

/-- how a run ends the program, if it does -/
def crash : Except Crash Entry → Option Crash
  | .ok _ => none
  | .error c => some c

/-- the aligned buffer has room for 65566 bytes behind its offset, but `kMaxPacketSize` lets 165536 through -/
def longWriteData : List Event :=
  [.preparePollFds, .servePoll (receives ⟨.writeData .saunafs (some ⟨1, 1, 0, 0, 99970, 0⟩), 100000⟩)]

/-- the deserialisers of GET_CHUNK_BLOCKS are called without a handler -/
def malformedGetChunkBlocks : List Event := [.preparePollFds, .servePoll (receives ⟨.getChunkBlocks .saunafs none, 3⟩)]

/-- the size of the reply with its header is computed in 32 bits -/
def hugePing : List Event := [.preparePollFds, .servePoll (receives ⟨.ping (2 ^ 32 - 1), 4⟩)]

/-- a READ behind a PING: the reply to the ping is counted as a packet of the read, which ends before its job -/
def readBehindPing : List Event :=
  [.preparePollFds, .servePoll (receives ⟨.ping 4, 4⟩), .preparePollFds, .servePoll (receives (readPacketOf 1)),
    .preparePollFds, .servePoll (sends 1)]

/-- a client forms a chain of two servers -/
def chainFormed : List Event :=
  [.preparePollFds,
    .servePoll { receives ⟨.writeInit .ec (some ⟨1, 1, standardPartType, [⟨1, standardPartType, firstECVersion⟩]⟩), 34⟩
      with connect := .immediate },
    .preparePollFds, .servePoll { fwdPollOut := true, fwdWritten := .wrote 30 }]

def receivesFromNext (p : Packet) : Served :=
  { fwdPollIn := true, fwdNext := p, fwdRead₁ := .got headerSize, fwdRead₂ := .got p.length }

/-- the next server sends WRITE_END while a block is being written and a status waits to be sent -/
def writeEndFromNext : List Event :=
  chainFormed ++ [.jobFinished 1 .ok .failed,
    .preparePollFds, .servePoll (receivesFromNext ⟨.writeStatus .saunafs (some ⟨1, 0, .ok⟩), 17⟩),
    .preparePollFds, .servePoll { receives ⟨.writeData .saunafs (some ⟨1, 1, 0, 0, 4, 0⟩), 34⟩ with
      forwarded := .wrote 42 },
    .preparePollFds, .servePoll (receivesFromNext ⟨.writeEnd (some 1), 12⟩), .jobFinished 2 .ok .failed]

/-- the next server hangs up while the client's WRITE_END waits for the chunk to be opened -/
def hangUpAtWriteEnd : List Event :=
  chainFormed ++ [.preparePollFds, .servePoll { receives ⟨.writeEnd (some 1), 12⟩ with forwarded := .wrote 20 },
    .preparePollFds, .jobFinished 1 .ok .failed, .servePoll { fwdHup := true }]

/-- the next server of the chain is of a version that has no name for parts of an erasure code -/
def partOfOldServer : List Event :=
  [.preparePollFds, .servePoll (receives ⟨.writeInit .ec (some ⟨1, 1, ⟨10, 0⟩, [⟨1, ⟨10, 1⟩, 0x020900⟩]⟩), 34⟩)]

theorem peers_crash :
    crash (run {} longWriteData) = some .memory ∧ crash (run {} malformedGetChunkBlocks) = some .exception ∧
      crash (run {} hugePing) = some .memory ∧ crash (run {} readBehindPing) = some .assertion ∧
      crash (run {} writeEndFromNext) = some .assertion ∧ crash (run {} hangUpAtWriteEnd) = some .assertion ∧
      crash (run {} partOfOldServer) = some .assertion := by
  decide +kernel

end Entry

end SaunaFS.Chunkserver
