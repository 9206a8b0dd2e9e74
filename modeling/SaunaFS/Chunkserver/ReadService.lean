/-
The replies of a chunkserver to the READs of one connection (`chunkserver/chunkserver_entry.cc`).
-/
import SaunaFS.Chunkserver.Worker

namespace SaunaFS.Chunkserver

open SaunaFS.Chunks Fallible List Nat Entry

/-! ## Replies -/

/-- READ_DATA packets of the request number `i` that cover `[offset, offset + n)` in order -/
inductive Covers (i chunkId offset : ℕ) : ℕ → List OutPacket → Prop where
  | nil : Covers i chunkId offset 0 []
  | snoc {n : ℕ} {ps : List OutPacket} (h : Covers i chunkId offset n ps) (job : ℕ) (s : Serializer) (k : ℕ) :
      Covers i chunkId offset (n + k) (ps ++ [.readData i job s chunkId (offset + n) k])

inductive Reply (i : ℕ) (r : ReadRequest) : List OutPacket → Prop where
  | intro {n : ℕ} {ps : List OutPacket} (h : Covers i r.chunkId r.offset n ps) (hn : n ≤ r.size) (s : Serializer)
      (status : Status) (hok : status = .ok → n = r.size) : Reply i r (ps ++ [.readStatus i s r.chunkId status])

/-- the replies to a list of requests, one after the other -/
inductive Answered : List ReadRequest → List OutPacket → Prop where
  | nil : Answered [] []
  | snoc {rs : List ReadRequest} {ps reply : List OutPacket} {r : ReadRequest} (h : Answered rs ps)
      (hr : Reply rs.length r reply) : Answered (rs ++ [r]) (ps ++ reply)

/-- all requests but the last one have been answered, and the reply to the last one has begun -/
def Begun (rs : List ReadRequest) (ps : List OutPacket) : Prop :=
  ∃ rs' ps' parts r n, rs = rs' ++ [r] ∧ ps = ps' ++ parts ∧ Answered rs' ps' ∧
    Covers rs'.length r.chunkId r.offset n parts ∧ n ≤ r.size

/-- the job that fills the buffer of a packet -/
def OutPacket.dataJob : OutPacket → Option ℕ
  | .readData _ job .. => some job
  | _ => none

namespace Entry

/-- the packets in reply to READs, sent or queued -/
def replies (e : Entry) : List OutPacket := (e.history.sent ++ e.outputPackets).filter OutPacket.isReadReply

/-- nothing is queued, prepared or running -/
def atRest (e : Entry) : Bool := e.outputPackets.isEmpty && e.readPacket.isNone && e.jobs.isEmpty

/-- a READ that is served finds the connection at rest; it is never handed over by the end of another job -/
def ReadsAtRest (e : Entry) : Event → Prop
  | .preparePollFds => True
  | .jobFinished _ _ _ => e.state = .idle → e.input.mode = .data → e.input.current.isServedRead = false
  | .servePoll w => e.state = .idle → ∀ p ∈ e.handedOver w, p.isServedRead = true → e.atRest = true

instance (e : Entry) (ev : Event) : Decidable (e.ReadsAtRest ev) :=
  match ev with
  | .preparePollFds => isTrue trivial
  | .jobFinished _ _ _ => inferInstanceAs (Decidable (_ → _ → _ = false))
  | .servePoll _ => inferInstanceAs (Decidable (_ → ∀ _ ∈ _, _ → _))

/-! ## The invariant -/

/-- the jobs of the packets in the queue have finished, and nothing has been sent before its job had -/
structure Filled (e : Entry) : Prop where
  queue : ∀ p ∈ e.outputPackets, ∀ job ∈ p.dataJob, job < e.nextJobId ∧ ∀ j ∈ e.jobs, j.id ≠ job
  jobs : ∀ j ∈ e.jobs, j.id < e.nextJobId
  wire : ∀ f ∈ e.history.wire, f.jobFinished = true ∧ f.packet ∈ e.history.sent ++ e.outputPackets
  ids : 0 < e.nextJobId

/-- every READ has its whole reply, and no read job is running -/
structure Answers (e : Entry) : Prop where
  state : e.state ≠ .read
  answered : Answered e.history.reads e.replies
  jobs : ∀ j ∈ e.jobs, j.callback ≠ .readFinished

/-- the parts of a READ that are queued or sent: they cover the first `n` bytes of its range -/
structure Parts (e : Entry) (rs : List ReadRequest) (r : ReadRequest) (n : ℕ) : Prop where
  reads : e.history.reads = rs ++ [r]
  replies : ∃ ps parts, e.replies = ps ++ parts ∧ Answered rs ps ∧ Covers rs.length r.chunkId r.offset n parts
  chunkId : e.chunkId = r.chunkId

/-- the packet prepared for the next part of a READ, with the job that fills it while that is running -/
structure Prepared (e : Entry) : Prop where
  state : e.state = .read
  parts : ∃ rs r n job s k, e.Parts rs r n ∧
    e.readPacket = some (.readData rs.length job s r.chunkId (r.offset + n) k) ∧
    e.offset = r.offset + (n + k) ∧ e.size + (n + k) = r.size ∧ job < e.nextJobId ∧
    (e.jobs = [] ∨ e.jobs = [⟨job, .readFinished, 0⟩] ∧ e.readJobId = job ∧ 0 < job)
  counter : e.todoReadCounter = e.outputPackets.length + e.jobs.length
  short : e.outputPackets.length ≤ 1

/-- a READ is being served: its job is running, or a part of its reply is still to be sent -/
structure Serving (e : Entry) : Prop where
  prepared : e.Prepared
  busy : e.jobs ≠ [] ∨ e.outputPackets ≠ []

/-- a READ whose connection is about to be closed, with its job -/
structure Closing (e : Entry) : Prop where
  state : e.state = .close
  begun : Begun e.history.reads e.replies
  jobs : ∀ j ∈ e.jobs, j.id = e.readJobId ∧ 0 < e.readJobId

/-- a READ whose connection is closed or waits for its job to be closed -/
structure Cut (e : Entry) : Prop where
  state : e.state = .closeWait ∨ e.state = .closed
  begun : Begun e.history.reads e.replies
  jobs : ∀ j ∈ e.jobs, j.callback = .delayedClose
  pDesc : e.pDesc = none
  fwdPDesc : e.fwdPDesc = none

/-- where the replies of a connection stand while it is served -/
def Standing (e : Entry) : Prop := e.Filled ∧ (e.Answers ∨ e.Serving ∨ e.Closing)

/-- where the replies of a connection stand between the steps of the loop -/
def Resting (e : Entry) : Prop := e.Filled ∧ (e.Answers ∨ e.Serving ∧ e.fwdPDesc = none ∨ e.Cut)

variable {e e' e'' : Entry}

/-! ## Steps aside from reads -/

/-- a step that prepares, sends and answers nothing for a READ: it may queue other packets and start jobs -/
structure Aside (e e' : Entry) : Prop where
  reads : e'.history.reads = e.history.reads
  sent : e'.history.sent = e.history.sent
  wire : e'.history.wire = e.history.wire
  queue : ∃ qs, e'.outputPackets = e.outputPackets ++ qs ∧ ∀ q ∈ qs, q.isReadReply = false
  ids : e.nextJobId ≤ e'.nextJobId
  jobs : ∀ j ∈ e'.jobs, (∃ i ∈ e.jobs, i.id = j.id ∧ (j.callback = .readFinished → i.callback = .readFinished)) ∨
    e.nextJobId ≤ j.id ∧ j.id < e'.nextJobId ∧ j.callback ≠ .readFinished
  state : e'.state = .read → e.state = .read

/-- where a READ leaves its traces -/
def traces (e : Entry) :=
  (e.history.reads, e.history.sent, e.history.wire, e.outputPackets, e.nextJobId, e.jobs)

theorem Aside.same (h : e'.traces = e.traces) (hst : e'.state = .read → e.state = .read) : Aside e e' := by
  simp only [traces, Prod.mk.injEq] at h
  obtain ⟨hr, hs, hw, hq, hn, hj⟩ := h
  exact ⟨hr, hs, hw, ⟨[], by simp [hq], by simp⟩, hn.ge, fun j h => .inl ⟨j, hj ▸ h, rfl, id⟩, hst⟩

theorem Aside.refl : Aside e e := .same rfl id

section

variable (h : Aside e e')
include h

theorem Aside.trans (h' : Aside e' e'') : Aside e e'' where
  reads := h'.reads.trans h.reads
  sent := h'.sent.trans h.sent
  wire := h'.wire.trans h.wire
  queue := by
    obtain ⟨qs, hq, hqs⟩ := h.queue
    obtain ⟨qs', hq', hqs'⟩ := h'.queue
    refine ⟨qs ++ qs', by rw [hq', hq, append_assoc], fun q hm => ?_⟩
    exact (mem_append.1 hm).elim (hqs q) (hqs' q)
  ids := h.ids.trans h'.ids
  jobs j hj := by
    rcases h'.jobs j hj with ⟨i, hi, hid, hc⟩ | ⟨hl, hh, hc⟩
    · rcases h.jobs i hi with ⟨i', hi', hid', hc'⟩ | ⟨hl, hh, hc'⟩
      · exact .inl ⟨i', hi', hid'.trans hid, fun hr => hc' (hc hr)⟩
      · exact .inr ⟨hid ▸ hl, hid ▸ hh.trans_le h'.ids, fun hr => hc' (hc hr)⟩
    · exact .inr ⟨h.ids.trans hl, hh, hc⟩
  state hs := h.state (h'.state hs)

theorem Aside.ensures {x : Except Crash Entry} (hx : Ensures x (Aside e')) : Ensures x (Aside e) :=
  hx.mono fun _ h' => h.trans h'

theorem Aside.replies_eq : e'.replies = e.replies := by
  obtain ⟨qs, hq, hqs⟩ := h.queue
  have hn : qs.filter OutPacket.isReadReply = [] := filter_eq_nil_iff.2 fun q hm => by simp [hqs q hm]
  simp [replies, h.sent, hq, filter_append, hn]

theorem Aside.filled (hf : e.Filled) : e'.Filled where
  queue p hp job hjo := by
    obtain ⟨qs, hq, hqs⟩ := h.queue
    rw [hq, mem_append] at hp
    rcases hp with hp | hp
    · obtain ⟨hl, hn⟩ := hf.queue p hp job hjo
      refine ⟨hl.trans_le h.ids, fun j hj => ?_⟩
      rcases h.jobs j hj with ⟨i, hi, hid, -⟩ | ⟨hlo, -⟩
      · exact hid ▸ hn i hi
      · omega
    · have hno := hqs p hp
      cases p <;> simp [OutPacket.dataJob, OutPacket.isReadReply] at hjo hno
  jobs j hj := by
    rcases h.jobs j hj with ⟨i, hi, hid, -⟩ | ⟨-, hh, -⟩
    · exact hid ▸ (hf.jobs i hi).trans_le h.ids
    · exact hh
  wire f hm := by
    obtain ⟨qs, hq, -⟩ := h.queue
    rw [h.wire] at hm
    obtain ⟨hfi, hin⟩ := hf.wire f hm
    refine ⟨hfi, ?_⟩
    rw [h.sent, hq, ← append_assoc]
    exact mem_append_left _ hin
  ids := hf.ids.trans_le h.ids

theorem Aside.answers (ha : e.Answers) : e'.Answers where
  state hs := ha.state (h.state hs)
  answered := by rw [h.reads, h.replies_eq]; exact ha.answered
  jobs j hj hr := by
    rcases h.jobs j hj with ⟨i, hi, -, hc⟩ | ⟨-, -, hc⟩
    · exact ha.jobs i hi (hc hr)
    · exact hc hr

end

theorem aside_attach {p : OutPacket} (hp : p.isReadReply = false) : Aside e (e.attachPacket p) where
  reads := rfl
  sent := rfl
  wire := rfl
  queue := ⟨[p], rfl, by simpa using hp⟩
  ids := le_rfl
  jobs j hj := .inl ⟨j, hj, rfl, id⟩
  state := id

variable {cb : Callback} {writeId chunkId id : ℕ} {s : Serializer} {status : Status} {c : ConnectResult}
  {i : Receiving} {result : ReadResult} {w : Served}

theorem aside_jobNew (hc : cb ≠ .readFinished) : Aside e (e.jobNew cb writeId) where
  reads := rfl
  sent := rfl
  wire := rfl
  queue := ⟨[], by simp [jobNew], by simp⟩
  ids := le_succ _
  jobs j hj := by
    rcases mem_append.1 hj with hj | hj
    · exact .inl ⟨j, hj, rfl, id⟩
    · rw [mem_singleton.1 hj]
      exact .inr ⟨le_rfl, lt_succ_self _, hc⟩
  state := id

theorem aside_close : Aside e { e with state := .close } := .same rfl (by simp)

theorem aside_fail : Aside e { e.attachWriteStatus s chunkId writeId status with state := .writeFinish } :=
  (aside_attach rfl).trans (.same rfl (by simp))

theorem fwdError_aside : Ensures e.fwdError (Aside e) := by
  dsimp only [fwdError]
  split
  · exact ensures_error
  · exact ensures_ok.2 aside_fail

theorem completeWrite_aside : Aside e (e.completeWrite s chunkId writeId) := by
  unfold completeWrite
  split
  · exact (aside_attach rfl).trans (.same rfl id)
  · exact .same rfl id

theorem writeData_aside {data : Option WriteData} {length : ℕ} : Ensures (e.writeData s data length) (Aside e) := by
  unfold writeData
  repeat' split
  · exact ensures_ok.2 aside_close
  · exact ensures_ok.2 aside_close
  · exact ensures_error
  · exact ensures_ok.2 aside_fail
  · have hm : Aside e e.preserveInputPacket := .same rfl id
    exact ensures_ok.2 ((hm.trans (aside_jobNew (by simp))).trans (.same rfl id))

theorem writeStatus_aside {status : Option WriteStatus} : Ensures (e.writeStatus s status) (Aside e) := by
  unfold writeStatus
  repeat' split
  · exact ensures_error
  · exact ensures_ok.2 aside_close
  · exact ensures_ok.2 aside_close
  · exact ensures_error
  · exact ensures_ok.2 aside_fail
  · exact ensures_ok.2 aside_fail
  · refine ensures_ok.2 (.trans ?_ completeWrite_aside)
    exact .same rfl id

theorem writeEnd_aside {chunkId : Option ℕ} : Aside e (e.writeEnd chunkId) := by
  dsimp only [writeEnd]
  repeat' split
  all_goals exact .same rfl (by simp)

theorem writeInit_aside {f : InitFormat} {request : Option WriteInit} :
    Ensures (e.writeInit f request c) (Aside e) := by
  cases request with
  | none => exact ensures_ok.2 aside_close
  | some r =>
    dsimp only [writeInit]
    split
    · exact ensures_ok.2 ((Aside.trans (.same rfl id) (aside_jobNew (by simp))).trans (.same rfl (by simp)))
    · split_ifs
      · exact ensures_error
      cases c with
      | failed =>
        refine ensures_ok.2 (Aside.trans ?_ aside_fail)
        exact .same rfl id
      | immediate | inProgress => exact ensures_ok.2 ⟨rfl, rfl, rfl, ⟨[], by simp [jobNew], by simp⟩, le_succ _,
          (aside_jobNew (by simp)).jobs, by simp [jobNew]⟩

/-- the packets that are not READs -/
def Aloof (p : Packet) (e : Entry) : Prop := e.state = .idle → ∀ s r, p.message ≠ .read s (some r)

theorem gotPacketIdle_aside {p : Packet} (hp : ∀ s r, p.message ≠ .read s (some r)) :
    Ensures (e.gotPacketIdle p c) (Aside e) := by
  have hr : ∀ (accepted : Bool) (reply : OutPacket), reply.isReadReply = false →
      Aside e (e.reportWhen accepted reply) := by
    intro accepted reply hre
    unfold reportWhen
    split
    · exact aside_attach hre
    · exact aside_close
  obtain ⟨m, length⟩ := p
  cases m with
  | ping opSize =>
    dsimp only [gotPacketIdle, ping]
    repeat' split
    · exact ensures_ok.2 aside_close
    · exact ensures_error
    · exact ensures_ok.2 (aside_attach rfl)
  | read s request =>
    cases request with
    | none => exact ensures_ok.2 aside_close
    | some r => exact absurd rfl (hp s r)
  | prefetch request =>
    refine ensures_ok.2 ?_
    cases request with
    | none => exact aside_close
    | some r => exact .same rfl id
  | writeInit f request => exact writeInit_aside
  | getChunkBlocks s request =>
    cases request with
    | none => exact ensures_error
    | some r => exact ensures_ok.2 ((aside_jobNew (by simp)).trans (.same rfl (by simp)))
  | hddListV2 | listDiskGroups | chart | chartData => exact ensures_ok.2 (hr _ _ rfl)
  | testChunk wellFormed =>
    refine ensures_ok.2 ?_
    cases wellFormed with
    | true => exact .refl
    | false => exact aside_close
  | _ => exact ensures_ok.2 aside_close

theorem gotPacket_aside {p : Packet} (hp : Aloof p e) : Ensures (e.gotPacket p c) (Aside e) := by
  unfold gotPacket
  split
  · exact ensures_ok.2 .refl
  · exact ensures_ok.2 .refl
  · exact ensures_ok.2 .refl
  · split
    · exact gotPacketIdle_aside (hp ‹_›)
    · unfold gotPacketWriteLast
      split
      · exact writeData_aside
      · exact ensures_ok.2 writeEnd_aside
      · exact ensures_ok.2 aside_close
    · unfold gotPacketWriteForward
      split
      · exact writeData_aside
      · exact writeStatus_aside
      · exact ensures_ok.2 writeEnd_aside
      · exact ensures_ok.2 aside_close
    · rw [ensures_ok]
      split
      · exact .refl
      · exact aside_close
    · exact ensures_ok.2 aside_close

theorem takePacket_aside (hp : Aloof e.input.current e) : Ensures (e.takePacket c) (Aside e) := by
  unfold takePacket
  refine Aside.ensures ?_ (gotPacket_aside ?_)
  · exact .same rfl id
  · exact hp

/-! ## Forwarding -/

variable {next : Packet} {result₁ result₂ : ReadResult}

section

variable (hs : e.state = .writeForward)
include hs

variable {c : ConnectResult}

theorem takeFwdPacket_aside : Ensures (e.takeFwdPacket c) (Aside e) := by
  unfold takeFwdPacket
  refine Aside.ensures ?_ (gotPacket_aside (fun hi => ?_))
  · exact .same rfl id
  · rw [show e.state = .idle from hi] at hs
    cases hs

theorem fwdReadData_aside : Ensures (e.fwdReadData result c) (Aside e) := by
  unfold fwdReadData
  split
  · exact takeFwdPacket_aside hs
  · refine Ensures.bind (P := fun _ => True) (fun _ _ => trivial) fun o _ => ?_
    cases o with
    | again => exact ensures_ok.2 .refl
    | lost => exact fwdError_aside
    | stored r =>
      dsimp only
      split
      · exact ensures_ok.2 (.same rfl id)
      · refine Aside.ensures ?_ (takeFwdPacket_aside ?_)
        · exact .same rfl id
        · exact hs

theorem fwdRead_aside : Ensures (e.fwdRead next result₁ result₂ c) (Aside e) := by
  unfold fwdRead
  split
  · exact fwdReadData_aside hs
  · refine Ensures.bind (P := fun _ => True) (fun _ _ => trivial) fun o _ => ?_
    cases o with
    | again => exact ensures_ok.2 .refl
    | lost => exact fwdError_aside
    | stored r =>
      dsimp only
      split
      · exact ensures_ok.2 (.same rfl id)
      · split
        · refine Ensures.mono fwdError_aside fun e' h => Aside.trans ?_ h
          exact .same rfl id
        · refine Aside.ensures ?_ (fwdReadData_aside ?_)
          · exact .same rfl id
          · exact hs

end

theorem fwdWrite_aside {result : WriteResult} : Ensures (e.fwdWrite result) (Aside e) := by
  have hse : Aside e (fwdWrite.fwdWritten e) := .same rfl (by simp [fwdWrite.fwdWritten])
  unfold fwdWrite
  repeat' split
  · exact ensures_ok.2 hse
  · exact ensures_ok.2 .refl
  · exact fwdError_aside
  · exact fwdError_aside
  · exact ensures_ok.2 hse
  · exact ensures_ok.2 (.same rfl id)

section

variable (hs : e.state = .writeForward)
include hs

variable {c : ConnectResult} {w : WriteResult}

theorem forwardTake_aside : Ensures (e.forwardTake c) (Aside e) := by
  unfold forwardTake
  split
  · refine (takePacket_aside (fun hi => ?_)).bind fun e' h => ensures_ok.2 (h.trans ?_)
    · rw [hs] at hi
      cases hi
    · exact .same rfl id
  · exact ensures_ok.2 .refl

theorem forwardWrite_aside {result : WriteResult} : Ensures (e.forwardWrite result c) (Aside e) := by
  unfold forwardWrite
  repeat' split
  · exact forwardTake_aside hs
  · exact ensures_error
  · exact ensures_ok.2 .refl
  · exact fwdError_aside
  · exact fwdError_aside
  · refine Aside.ensures ?_ (forwardTake_aside ?_)
    · exact .same rfl id
    · exact hs

theorem forwardData_aside : Ensures (e.forwardData result w c) (Aside e) := by
  unfold forwardData
  split
  · exact forwardWrite_aside hs
  · refine Ensures.bind (P := fun _ => True) (fun _ _ => trivial) fun o _ => ?_
    cases o with
    | again => exact ensures_ok.2 .refl
    | lost => exact ensures_ok.2 aside_close
    | stored r =>
      refine Aside.ensures ?_ (forwardWrite_aside ?_)
      · exact .same rfl id
      · exact hs

theorem forward_aside : Ensures (e.forward next result₁ result₂ w c) (Aside e) := by
  unfold forward
  split
  · exact forwardData_aside hs
  · refine Ensures.bind (P := fun _ => True) (fun _ _ => trivial) fun o _ => ?_
    cases o with
    | again => exact ensures_ok.2 .refl
    | lost => exact ensures_ok.2 aside_close
    | stored r =>
      dsimp only
      repeat' split
      · exact ensures_ok.2 (.same rfl id)
      · exact ensures_ok.2 (.same rfl (by simp))
      · refine Aside.ensures ?_ (forwardData_aside ?_)
        · exact .same rfl id
        · exact hs

end

theorem retryConnect_aside : Ensures (e.retryConnect c) (Aside e) := by
  dsimp only [retryConnect]
  split
  · cases c with
    | failed =>
      refine Ensures.mono fwdError_aside fun e' h => Aside.trans ?_ h
      exact .same rfl id
    | immediate | inProgress => exact ensures_ok.2 (.same rfl (by simp))
  · refine Ensures.mono fwdError_aside fun e' h => Aside.trans ?_ h
    exact .same rfl id

/-! ## Reading -/

variable {p : OutPacket}

theorem replies_attach (hp : p.isReadReply) : (e.attachPacket p).replies = e.replies ++ [p] := by
  simp [replies, attachPacket, filter_append, hp]

theorem Filled.attach (hf : e.Filled)
    (hp : ∀ job ∈ p.dataJob, job < e.nextJobId ∧ ∀ j ∈ e.jobs, j.id ≠ job) : (e.attachPacket p).Filled where
  queue q hq job hj := by
    rcases mem_append.1 hq with hq | hq
    · exact hf.queue q hq job hj
    · rw [mem_singleton.1 hq] at hj
      exact hp job hj
  jobs := hf.jobs
  wire f hm := by
    refine (hf.wire f hm).imp_right fun hi => ?_
    rw [show (e.attachPacket p).history.sent ++ (e.attachPacket p).outputPackets =
      (e.history.sent ++ e.outputPackets) ++ [p] from (append_assoc ..).symm]
    exact mem_append_left _ hi
  ids := hf.ids

theorem Filled.forget (hf : e.Filled) {js : List Job} (hjs : ∀ j ∈ js, j ∈ e.jobs) : Filled { e with jobs := js } where
  queue p hp job hjo := (hf.queue p hp job hjo).imp_right fun h j hj => h j (hjs j hj)
  jobs j hj := hf.jobs j (hjs j hj)
  wire := hf.wire
  ids := hf.ids

theorem Filled.jobNew (hf : e.Filled) : (e.jobNew cb writeId).Filled where
  queue p hp job hjo := by
    obtain ⟨hl, hn⟩ := hf.queue p hp job hjo
    refine ⟨lt_succ_of_lt hl, fun j hj => ?_⟩
    rcases mem_append.1 hj with hj | hj
    · exact hn j hj
    · rw [mem_singleton.1 hj]
      exact ne_of_gt hl
  jobs j hj := by
    rcases mem_append.1 hj with hj | hj
    · exact lt_succ_of_lt (hf.jobs j hj)
    · rw [mem_singleton.1 hj]
      exact lt_succ_self _
  wire := hf.wire
  ids := succ_pos _

variable {rs : List ReadRequest} {r : ReadRequest} {n : ℕ}

section

variable (h : e.Parts rs r n)
include h

theorem Parts.request : e.request = rs.length := by simp [Entry.request, h.reads]

theorem Parts.begun (hn : n ≤ r.size) : Begun e.history.reads e.replies := by
  obtain ⟨ps, parts, hp, ha, hc⟩ := h.replies
  exact ⟨rs, ps, parts, r, n, h.reads, hp, ha, hc, hn⟩

variable {s : Serializer} {status : Status}

theorem Parts.answered (hn : n ≤ r.size) (ho : status = .ok → n = r.size) :
    Answered e.history.reads (e.attachPacket (.readStatus e.request s e.chunkId status)).replies := by
  obtain ⟨ps, parts, hp, ha, hc⟩ := h.replies
  rw [replies_attach rfl, hp, h.reads, h.request, h.chunkId, append_assoc]
  exact ha.snoc (.intro hc hn s status ho)

theorem Parts.readDone (hn : n ≤ r.size)
    (ho : status = .ok → n = r.size) (hj : e.jobs = []) : (e.readDone s status).Answers where
  state := by simp [Entry.readDone]
  answered := h.answered hn ho
  jobs j hm := by
    rw [show (e.readDone s status).jobs = [] from hj] at hm
    cases hm

end

theorem Filled.readDone (hf : e.Filled) : (e.readDone s status).Filled := by
  have h : (e.attachPacket (.readStatus e.request s e.chunkId status)).Filled := hf.attach fun job hj => by cases hj
  exact ⟨h.queue, h.jobs, h.wire, h.ids⟩

/-- the next part of a READ is due: what has been read of it is queued or sent, and no job is running -/
structure Due (e : Entry) : Prop where
  state : e.state = .read
  parts : ∃ rs r n, e.Parts rs r n ∧ e.offset = r.offset + n ∧ e.size + n = r.size
  jobs : e.jobs = []
  counter : e.todoReadCounter = e.outputPackets.length
  short : e.outputPackets.length ≤ 1

theorem Due.readNextPart (h : e.Due) (hi : 0 < e.nextJobId) : (e.readNextPart s).Serving := by
  obtain ⟨rs, r, n, hp, ho, hsi⟩ := h.parts
  have hl : e.thisPartSize ≤ e.size := min_le_left _ _
  have hj : (e.readNextPart s).jobs = [⟨e.nextJobId, .readFinished, 0⟩] := by
    simp [Entry.readNextPart, Entry.jobNew, h.jobs]
  refine ⟨⟨h.state, ⟨rs, r, n, e.nextJobId, s, e.thisPartSize, ⟨hp.reads, hp.replies, hp.chunkId⟩, ?_, ?_, ?_,
    lt_succ_self _, .inr ⟨hj, rfl, hi⟩⟩, ?_, h.short⟩, .inl ?_⟩
  · simp only [Entry.readNextPart, hp.request, hp.chunkId, ho]
  · simp only [Entry.readNextPart, ho]
    omega
  · simp only [Entry.readNextPart]
    omega
  · have hsh := h.short
    rw [hj]
    simp only [Entry.readNextPart, Entry.jobNew, h.counter, length_singleton]
    omega
  · simp [hj]

theorem Filled.readNextPart (hf : e.Filled) : (e.readNextPart s).Filled := by
  obtain ⟨hq, hj, hw, hn⟩ := hf.jobNew
  exact ⟨hq, hj, hw, hn⟩

/-- where the reply to a READ stands when a part of it is done -/
def Continued (e e' : Entry) : Prop := e'.Filled ∧ (e'.Answers ∨ e'.Serving) ∧ e'.fwdPDesc = e.fwdPDesc

theorem readContinue_continued (hf : e.attachReadPacket.Filled) (h : e.attachReadPacket.Due) :
    Ensures e.readContinue (Continued e) := by
  have hd : e.attachReadPacket.fwdPDesc = e.fwdPDesc := by
    unfold attachReadPacket
    split <;> rfl
  obtain ⟨rs, r, n, hp, -, hsi⟩ := h.parts
  dsimp only [readContinue]
  repeat' split
  · exact ensures_error
  · refine ensures_ok.2 ⟨hf.readDone, .inl (hp.readDone (by omega) (fun _ => by omega) h.jobs), hd⟩
  · exact ensures_error
  · exact ensures_ok.2 ⟨hf.readNextPart, .inr (h.readNextPart hf.ids), hd⟩

section

variable (h : e.Prepared)
include h

theorem Prepared.due (h0 : e.todoReadCounter = 0) (hf : e.Filled) :
    e.attachReadPacket.Due ∧ e.attachReadPacket.Filled := by
  have hco := h.counter
  have ho : e.outputPackets = [] := length_eq_zero_iff.1 (by omega)
  have hjo : e.jobs = [] := length_eq_zero_iff.1 (by omega)
  obtain ⟨rs, r, n, job, s, k, hp, hpk, hof, hsi, hjob, -⟩ := h.parts
  obtain ⟨ps, parts, hps, ha, hc⟩ := hp.replies
  have hat : e.attachReadPacket = { e.attachPacket (.readData rs.length job s r.chunkId (r.offset + n) k) with
      readPacket := none, todoReadCounter := 1 } := by simp [attachReadPacket, hpk, h0]
  rw [hat]
  refine ⟨⟨h.state, ⟨rs, r, n + k, ⟨hp.reads, ⟨ps, _, ?_, ha, hc.snoc job s k⟩, hp.chunkId⟩, hof, hsi⟩, hjo, ?_, ?_⟩,
    ?_⟩
  · rw [← append_assoc, ← hps]
    exact replies_attach (e := e) rfl
  · simp [attachPacket, ho]
  · simp [attachPacket, ho]
  · have hfi : (e.attachPacket (.readData rs.length job s r.chunkId (r.offset + n) k)).Filled := by
      refine hf.attach fun j hj => ?_
      rw [show j = job from (Option.some.inj hj).symm]
      exact ⟨hjob, by simp [hjo]⟩
    exact ⟨hfi.queue, hfi.jobs, hfi.wire, hfi.ids⟩

theorem Prepared.proceed (hf : e.Filled) :
    Ensures (if e.todoReadCounter = 0 then e.readContinue else .ok e) (Continued e) := by
  split
  · obtain ⟨hd, hfi⟩ := h.due ‹_› hf
    exact readContinue_continued hfi hd
  · refine ensures_ok.2 ⟨hf, .inr ⟨h, ?_⟩, rfl⟩
    have hc := h.counter
    by_contra hn
    push Not at hn
    simp [hn.1, hn.2] at hc
    contradiction

theorem Prepared.begun : Begun e.history.reads e.replies := by
  obtain ⟨rs, r, n, job, s, k, hp, -, -, hsi, -⟩ := h.parts
  exact hp.begun (by omega)

theorem Prepared.readFinishedCallback (hf : e.Filled) {j : Job} (hj : j ∈ e.jobs) :
    Ensures (readFinishedCallback status { e with jobs := [] }) (Continued e) := by
  obtain ⟨rs, r, n, job, s, k, hp, hpk, ho, hsi, hjob, hjo⟩ := h.parts
  have hon : e.jobs.length = 1 := by
    rcases hjo with hni | ⟨hso, -⟩
    · rw [hni] at hj
      cases hj
    · simp [hso]
  have hc := h.counter
  have hsh := h.short
  have hfi : Filled { e with jobs := [] } := hf.forget (by simp)
  dsimp only [Entry.readFinishedCallback]
  split
  · have hn : Prepared { e with
        jobs := [], readJobId := 0, todoReadCounter := (e.todoReadCounter + 255) % 256, isChunkOpen := true } := by
      refine ⟨h.state, ?_, ?_, hsh⟩
      · exact ⟨rs, r, n, job, s, k, ⟨hp.reads, hp.replies, hp.chunkId⟩, hpk, ho, hsi, hjob, .inl rfl⟩
      · simp only [length_nil]
        omega
    exact hn.proceed ⟨hfi.queue, hfi.jobs, hfi.wire, hfi.ids⟩
  · split
    · exact ensures_error
    · refine ensures_ok.2 ⟨?_, .inl ?_, rfl⟩
      · refine Filled.readDone ?_
        exact ⟨hfi.queue, hfi.jobs, hfi.wire, hfi.ids⟩
      · have hpa : Parts { e with jobs := [], readJobId := 0 } rs r n := ⟨hp.reads, hp.replies, hp.chunkId⟩
        exact hpa.readDone (by omega) (fun hok => absurd hok ‹_›) rfl

end

/-! ## Sending -/

theorem Filled.jobFinished (hf : e.Filled) (hp : p ∈ e.outputPackets) : e.jobFinished p := by
  cases p with
  | readData i job s chunkId offset size =>
    have hn := (hf.queue _ hp job rfl).2
    simpa [jobFinished] using hn
  | _ => rfl

theorem Filled.putOnWire (hf : e.Filled) (hp : p ∈ e.outputPackets) : (e.putOnWire p).Filled where
  queue := hf.queue
  jobs := hf.jobs
  wire f hm := by
    rcases mem_append.1 hm with hm | hm
    · exact hf.wire f hm
    · rw [mem_singleton.1 hm]
      exact ⟨hf.jobFinished hp, mem_append_right _ hp⟩
  ids := hf.ids

variable {rest : List OutPacket}

theorem Filled.popPacket (hf : e.Filled) (ho : e.outputPackets = p :: rest) : (e.popPacket p rest).Filled where
  queue q hq := hf.queue q (by rw [ho]; exact mem_cons_of_mem _ hq)
  jobs := hf.jobs
  wire f hm := by
    refine ((hf.putOnWire (by simp [ho])).wire f hm).imp_right fun hi => ?_
    simpa [Entry.popPacket, Entry.putOnWire, ho] using hi
  ids := hf.ids

theorem replies_popPacket (ho : e.outputPackets = p :: rest) : (e.popPacket p rest).replies = e.replies := by
  simp [replies, popPacket, ho]

theorem popPacket_continued (hf : e.Filled) (h : e.Answers ∨ e.Serving) (ho : e.outputPackets = p :: rest) :
    Ensures (e.popPacket p rest).outputCheckReadFinished (Continued e) := by
  have hfi := hf.popPacket ho
  unfold outputCheckReadFinished
  rcases h with ha | hs
  · rw [if_neg (show ¬(e.popPacket p rest).state = .read from ha.state)]
    refine ensures_ok.2 ⟨hfi, .inl ⟨ha.state, ?_, ha.jobs⟩, rfl⟩
    rw [replies_popPacket ho]
    exact ha.answered
  · have h := hs.prepared
    have hc := h.counter
    have hsh := h.short
    rw [ho] at hc hsh
    have hr : rest = [] := length_eq_zero_iff.1 (by simpa using hsh)
    subst hr
    rw [if_pos (show (e.popPacket p []).state = .read from h.state)]
    obtain ⟨rs, r, n, job, s, k, hp, hpk, hof, hsi, hjob, hjo⟩ := h.parts
    have hn : Prepared { e.popPacket p [] with todoReadCounter := (e.todoReadCounter + 255) % 256 } := by
      refine ⟨h.state, ?_, ?_, by simp [popPacket]⟩
      · refine ⟨rs, r, n, job, s, k, ⟨hp.reads, ?_, hp.chunkId⟩, hpk, hof, hsi, hjob, hjo⟩
        obtain ⟨ps, parts, hps, hr⟩ := hp.replies
        exact ⟨ps, parts, (replies_popPacket ho).trans hps, hr⟩
      · have hl : e.jobs.length ≤ 1 := by rcases hjo with hj | ⟨hj, -⟩ <;> simp [hj]
        simp only [popPacket, putOnWire, length_nil, length_cons] at hc ⊢
        omega
    exact hn.proceed ⟨hfi.queue, hfi.jobs, hfi.wire, hfi.ids⟩

theorem Standing.close (h : e.Standing) : Standing { e with state := .close } := by
  obtain ⟨hf, h⟩ := h
  refine ⟨⟨hf.queue, hf.jobs, hf.wire, hf.ids⟩, ?_⟩
  rcases h with ha | hs | hc
  · exact .inl ⟨by simp, ha.answered, ha.jobs⟩
  · refine .inr (.inr ⟨rfl, hs.prepared.begun, fun j hj => ?_⟩)
    obtain ⟨rs, r, n, job, s, k, -, -, -, -, -, hn | ⟨ho, hi, hp⟩⟩ := hs.prepared.parts
    · rw [show e.jobs = [] from hn] at hj
      cases hj
    · rw [show e.jobs = [⟨job, .readFinished, 0⟩] from ho] at hj
      rw [mem_singleton.1 hj]
      exact ⟨hi.symm, hi ▸ hp⟩
  · exact .inr (.inr ⟨rfl, hc.begun, hc.jobs⟩)

theorem Standing.of_open (h : e.Answers ∨ e.Serving) (hf : e.Filled) : e.Standing := ⟨hf, h.imp_right .inl⟩

theorem writeToSocket_standing {results : List SendResult} (hf : e.Filled) (h : e.Answers ∨ e.Serving) :
    Ensures (e.writeToSocket results) Standing := by
  induction results generalizing e with
  | nil => exact ensures_ok.2 (.of_open h hf)
  | cons result results ih =>
    unfold writeToSocket
    have hsta : e.Standing := .of_open h hf
    split
    · exact ensures_ok.2 hsta
    · rename_i p rest ho
      cases result with
      | again => exact ensures_ok.2 hsta
      | failed => exact ensures_ok.2 hsta.close
      | zero =>
        refine ensures_ok.2 ?_
        split
        · exact hsta
        · exact hsta.close
      | part =>
        refine ensures_ok.2 ⟨hf.putOnWire (by simp [ho]), ?_⟩
        rcases h with ha | hs
        · exact .inl ⟨ha.state, ha.answered, ha.jobs⟩
        · obtain ⟨⟨hst, ⟨rs, r, n, job, s, k, hp, hpa⟩, hc, hsh⟩, hb⟩ := hs
          exact .inr (.inl ⟨⟨hst, ⟨rs, r, n, job, s, k, ⟨hp.reads, hp.replies, hp.chunkId⟩, hpa⟩, hc, hsh⟩, hb⟩)
      | all => exact (popPacket_continued hf h ho).bind fun e' h' => ih h'.1 h'.2.1

/-! ## Receiving -/

/-- where the replies stand after a packet that may have been a READ -/
def HandedOver (served : Prop) (e : Entry) : Prop := e.Filled ∧ (e.Answers ∨ e.Serving ∧ served)

theorem readInit_handedOver (hf : e.Filled) (ha : e.Answers) (hr : r.instantResponse = none → e.atRest) :
    Ensures (e.readInit s (some r)) (HandedOver (r.instantResponse = none)) := by
  have hp : Parts { e.setRequest s r with
      messageSerializer := some s, history := { e.history with reads := e.history.reads ++ [r] } }
      e.history.reads r 0 :=
    ⟨rfl, ⟨e.replies, [], by simp [replies, setRequest], ha.answered, .nil⟩, rfl⟩
  dsimp only [readInit]
  split
  · rename_i status hst
    refine ensures_ok.2 ⟨?_, .inl ⟨?_, ?_, ha.jobs⟩⟩
    · refine Filled.attach ?_ fun job hjo => by cases hjo
      exact ⟨hf.queue, hf.jobs, hf.wire, hf.ids⟩
    · exact ha.state
    · refine hp.answered (zero_le _) fun hok => ?_
      subst hok
      simp only [ReadRequest.instantResponse] at hst
      split at hst
      · exact (‹r.size = 0›).symm
      · split_ifs at hst <;> cases hst
  · rename_i hn
    obtain ⟨⟨ho, hpk⟩, hj⟩ : (e.outputPackets = [] ∧ e.readPacket = none) ∧ e.jobs = [] := by
      simpa [atRest] using hr hn
    have hat : ∀ e₁ : Entry, e₁.readPacket = none → e₁.attachReadPacket = e₁ := fun e₁ h₁ => by
      simp [attachReadPacket, h₁]
    refine (readContinue_continued ?_ ?_).mono fun e' h' => ⟨h'.1, h'.2.1.imp_right fun hs => ⟨hs, hn⟩⟩
    · rw [hat]
      · exact ⟨hf.queue, hf.jobs, hf.wire, hf.ids⟩
      · exact hpk
    · rw [hat]
      swap
      · exact hpk
      refine ⟨rfl, ⟨e.history.reads, r, 0, ⟨hp.reads, hp.replies, hp.chunkId⟩, rfl, rfl⟩, hj, ?_, ?_⟩
      · simp [setRequest, ho]
      · simp [setRequest, ho]

theorem gotPacket_handedOver (hf : e.Filled) (ha : e.Answers) {p : Packet}
    (hp : e.state = .idle → p.isServedRead → e.atRest) :
    Ensures (e.gotPacket p c) (HandedOver (e.state = .idle ∧ p.isServedRead)) := by
  by_cases hal : Aloof p e
  · exact (gotPacket_aside hal).mono fun e' h => ⟨h.filled hf, .inl (h.answers ha)⟩
  · unfold Aloof at hal
    push Not at hal
    obtain ⟨hi, s, r, hm⟩ := hal
    have hse : r.instantResponse = none → p.isServedRead := fun h => by simp [Packet.isServedRead, hm, h]
    have hg : e.gotPacket p c = e.readInit s (some r) := by
      simp [gotPacket, gotPacketIdle, hm, hi]
    rw [hg]
    refine (readInit_handedOver hf ha fun h => hp hi (hse h)).mono fun e' h => ?_
    exact ⟨h.1, h.2.imp_right fun hs => ⟨hs.1, hi, hse hs.2⟩⟩

theorem takePacket_handedOver (hf : e.Filled) (ha : e.Answers)
    (hp : e.state = .idle → e.input.current.isServedRead → e.atRest) :
    Ensures (e.takePacket c) (HandedOver (e.state = .idle ∧ e.input.current.isServedRead)) := by
  unfold takePacket
  refine gotPacket_handedOver ?_ ?_ ?_
  · exact ⟨hf.queue, hf.jobs, hf.wire, hf.ids⟩
  · exact ⟨ha.state, ha.answered, ha.jobs⟩
  · exact hp

theorem Answers.stored (ha : e.Answers) : Answers { e with input := i } := ⟨ha.state, ha.answered, ha.jobs⟩

section

variable (hf : e.Filled)
include hf

theorem Filled.stored : Filled { e with input := i } := ⟨hf.queue, hf.jobs, hf.wire, hf.ids⟩

theorem takeUnlessWriting_standing (ha : e.Answers) (hp : e.state = .idle → e.input.current.isServedRead → e.atRest) :
    Ensures (e.takeUnlessWriting c) Standing := by
  unfold takeUnlessWriting
  split
  · exact (takePacket_handedOver hf ha hp).mono fun e' h => ⟨h.1, h.2.imp_right fun hs => .inl hs.1⟩
  · exact ensures_ok.2 ⟨hf, .inl ha⟩

theorem readData_standing (ha : e.Answers)
    (hp : e.input.bytesLeft = 0 ∨ result.completes e.input.bytesLeft → e.state = .idle →
      e.input.current.isServedRead → e.atRest) : Ensures (e.readData result c) Standing := by
  unfold readData
  split
  · exact takeUnlessWriting_standing hf ha (hp (.inl ‹_›))
  · refine (e.input.read_stored result).bind fun o ho => ?_
    cases o with
    | again => exact ensures_ok.2 ⟨hf, .inl ha⟩
    | lost => exact ensures_ok.2 (Standing.of_open (.inl ha) hf).close
    | stored i =>
      obtain ⟨-, hc, -, hal⟩ := ho i rfl
      dsimp only
      split
      · exact ensures_ok.2 ⟨hf.stored, .inl ha.stored⟩
      · rename_i hl
        refine takeUnlessWriting_standing hf.stored ha.stored fun hi hse => ?_
        exact hp (.inr (hal (Nat.eq_zero_of_not_pos hl))) hi (hc ▸ hse)

theorem readFromSocket_standing (ha : e.Answers)
    (hq : e.state = .idle → ∀ p ∈ e.handedOver w, p.isServedRead → e.atRest) :
    Ensures (e.readFromSocket w.next w.read₁ w.read₂ c) Standing := by
  unfold readFromSocket
  cases hm : e.input.mode with
  | data =>
    refine readData_standing hf ha fun hal hi => hq hi _ ?_
    simp [handedOver, hm, hal]
  | header =>
    dsimp only
    split
    · exact ensures_error
    · refine (e.input.read_stored w.read₁).bind fun o ho => ?_
      cases o with
      | again => exact ensures_ok.2 ⟨hf, .inl ha⟩
      | lost => exact ensures_ok.2 (Standing.of_open (.inl ha) hf).close
      | stored i =>
        obtain ⟨-, -, -, hal⟩ := ho i rfl
        dsimp only
        repeat' split
        · exact ensures_ok.2 ⟨hf.stored, .inl ha.stored⟩
        · exact ensures_ok.2 (Standing.of_open (.inl ha.stored) hf.stored).close
        · rename_i hl _
          have hfi := hal (Nat.eq_zero_of_not_pos hl)
          refine readData_standing ?_ ?_ fun hr hi hser => ?_
          · exact ⟨hf.queue, hf.jobs, hf.wire, hf.ids⟩
          · exact ⟨ha.state, ha.answered, ha.jobs⟩
          · refine hq hi w.next ?_ hser
            have hse : w.next.length = 0 ∨ w.read₂.completes w.next.length := hr
            simp [handedOver, hm, hfi, hse]

end

section

variable (h : e.Serving)
include h

/-- a READ being served keeps its place while something is received; no packet but a NOP is taken, any other one closes
the connection -/
theorem Serving.receiving (hf : e.Filled) (i : Receiving) (hd rc : List Packet) :
    Standing { e with input := i, history := { e.history with headers := hd, received := rc } } := by
  obtain ⟨⟨hst, ⟨rs, r, n, job, s, k, hp, hpa⟩, hc, hsh⟩, hb⟩ := h
  refine ⟨⟨hf.queue, hf.jobs, hf.wire, hf.ids⟩, .inr (.inl ⟨⟨hst, ?_, hc, hsh⟩, hb⟩)⟩
  exact ⟨rs, r, n, job, s, k, ⟨hp.reads, hp.replies, hp.chunkId⟩, hpa⟩

theorem Serving.takeUnlessWriting (hf : e.Filled) (i : Receiving) (hd rc : List Packet)
    (c : ConnectResult) : Ensures (takeUnlessWriting c
      { e with input := i, history := { e.history with headers := hd, received := rc } }) Standing := by
  have hst := h.prepared.state
  have hsta := h.receiving hf i.expectHeader hd (rc ++ [i.current])
  unfold Entry.takeUnlessWriting
  split
  · dsimp only [takePacket, gotPacket]
    rw [hst] at hsta ⊢
    split
    · exact ensures_ok.2 hsta
    · exact ensures_ok.2 hsta
    · exact ensures_ok.2 hsta
    · exact ensures_ok.2 hsta.close
  · exact ensures_ok.2 (h.receiving hf i hd rc)

theorem Serving.readData (hf : e.Filled) {hd rc : List Packet} : Ensures (readData result c
      { e with input := i, history := { e.history with headers := hd, received := rc } }) Standing := by
  unfold Entry.readData
  split
  · exact h.takeUnlessWriting hf i hd rc c
  · refine Ensures.bind (P := fun _ => True) (fun _ _ => trivial) fun o _ => ?_
    cases o with
    | again => exact ensures_ok.2 (h.receiving hf i hd rc)
    | lost => exact ensures_ok.2 (h.receiving hf i hd rc).close
    | stored i' =>
      dsimp only
      split
      · exact ensures_ok.2 (h.receiving hf i' hd rc)
      · exact h.takeUnlessWriting hf i' hd rc c

theorem Serving.readFromSocket (hf : e.Filled) : Ensures (e.readFromSocket next result₁ result₂ c) Standing := by
  have hsta : e.Standing := .of_open (.inr h) hf
  unfold Entry.readFromSocket
  split
  · exact h.readData hf
  · split
    · exact ensures_error
    · refine Ensures.bind (P := fun _ => True) (fun _ _ => trivial) fun o _ => ?_
      cases o with
      | again => exact ensures_ok.2 hsta
      | lost => exact ensures_ok.2 hsta.close
      | stored i =>
        have hst := h.receiving hf i e.history.headers e.history.received
        dsimp only
        repeat' split
        · exact ensures_ok.2 hst
        · exact ensures_ok.2 hst.close
        · exact h.readData hf

end

/-! ## Service -/

section

variable (h : e.Standing)
include h

theorem Standing.isOpen (hs : e.state ≠ .close) : e.Answers ∨ e.Serving :=
  h.2.imp_right fun h => h.resolve_right fun hc => hs hc.state

theorem Standing.answers (hc : e.state ≠ .close) (hr : e.state ≠ .read) : e.Answers :=
  (h.isOpen hc).resolve_right fun hs => hr hs.prepared.state

theorem Standing.aside (hc : e.state ≠ .close) (hr : e.state ≠ .read) (ha : Aside e e') : e'.Standing :=
  ⟨ha.filled h.1, .inl (ha.answers (h.answers hc hr))⟩

variable {w : Served}

theorem Standing.serveRead (hc : e.state ≠ .close)
    (hq : e.state = .idle → ∀ p ∈ e.handedOver w, p.isServedRead → e.atRest) : Ensures (e.serveRead w) Standing := by
  unfold Entry.serveRead
  split
  · rcases h.isOpen hc with ha | hs
    · exact readFromSocket_standing h.1 ha hq
    · exact hs.readFromSocket h.1
  · exact ensures_ok.2 h

theorem Standing.serveWrite {lstate : State} (hl : lstate ≠ .close) : Ensures (e.serveWrite w lstate) Standing := by
  unfold Entry.serveWrite
  split
  · rename_i hse
    exact writeToSocket_standing h.1 (h.isOpen (hse.2 ▸ hl))
  · exact ensures_ok.2 h

theorem Standing.serveClient (hc : e.state ≠ .close)
    (hq : e.state = .idle → ∀ p ∈ e.handedOver w, p.isServedRead → e.atRest) : Ensures (e.serveClient w) Standing :=
  (h.serveRead hc hq).bind fun _ h' => h'.serveWrite hc

end

theorem serveInitAfterConnect_aside : Ensures (e.serveInitAfterConnect w) (Aside e) := by
  unfold serveInitAfterConnect
  split
  · exact fwdWrite_aside
  · exact ensures_ok.2 .refl

theorem serveForwardAfterInit_aside : Ensures (e.serveForwardAfterInit w) (Aside e) := by
  unfold serveForwardAfterInit
  split
  · exact forward_aside ‹_›
  · exact ensures_ok.2 .refl

theorem fwdConnected_aside {connected : Bool} : Ensures (e.fwdConnected connected) (Aside e) := by
  unfold fwdConnected
  split
  · exact ensures_ok.2 (.same rfl (by simp))
  · exact fwdError_aside

theorem serveConnecting_aside : Ensures (e.serveConnecting w) (Aside e) := by
  unfold serveConnecting
  split
  · refine (fwdConnected_aside).bind fun e₁ h₁ => ?_
    refine (serveInitAfterConnect_aside).bind fun e₂ h₂ => ?_
    exact (h₁.trans h₂).ensures serveForwardAfterInit_aside
  · exact ensures_ok.2 .refl

theorem serveWriteInit_aside : Ensures (e.serveWriteInit w) (Aside e) := by
  unfold serveWriteInit
  split
  · exact (fwdWrite_aside).bind fun e₁ h₁ => h₁.ensures serveForwardAfterInit_aside
  · exact ensures_ok.2 .refl

theorem serveFwdRead_aside : Ensures (e.serveFwdRead w) (Aside e) := by
  unfold serveFwdRead
  split
  · rename_i h
    exact fwdRead_aside h.2
  · exact ensures_ok.2 .refl

theorem serveForward_aside (hs : e.state = .writeForward) : Ensures (e.serveForward w) (Aside e) := by
  unfold serveForward
  split
  · exact forward_aside hs
  · exact ensures_ok.2 .refl

section

variable (h : e.Standing)
include h

theorem Standing.serveState (hq : e.state = .idle → ∀ p ∈ e.handedOver w, p.isServedRead → e.atRest) :
    Ensures (e.serveState w) Standing := by
  have hcl : e.state ≠ .close → Ensures (e.serveClient w) Standing := fun hc => h.serveClient hc hq
  unfold Entry.serveState
  cases hs : e.state with
  | idle | read | writeLast | writeFinish | getBlock => exact hcl (by simp [hs])
  | connecting => exact (serveConnecting_aside).mono fun e' ha => h.aside (by simp [hs]) (by simp [hs]) ha
  | writeInit => exact (serveWriteInit_aside).mono fun e' ha => h.aside (by simp [hs]) (by simp [hs]) ha
  | writeForward =>
    refine (serveForward_aside hs).bind fun e₁ h₁ => (serveFwdRead_aside).bind fun e₂ h₂ => ?_
    exact (h.aside (by simp [hs]) (by simp [hs]) (h₁.trans h₂)).serveWrite (by simp)
  | close | closeWait | closed => exact ensures_ok.2 h

theorem Standing.serveFinish : e.serveFinish.Standing := by
  unfold Entry.serveFinish
  split
  · exact h.close
  · exact h

theorem Standing.serveConnectTimeout : Ensures (e.serveConnectTimeout w) Standing := by
  unfold Entry.serveConnectTimeout
  split
  · rename_i hs
    exact (retryConnect_aside).mono fun e' ha => h.aside (by simp [hs.1]) (by simp [hs.1]) ha
  · exact ensures_ok.2 h

theorem Standing.serveInactive : (e.serveInactive w).Standing := by
  unfold Entry.serveInactive
  split
  · exact h.close
  · exact h

end

/-! ## Closing -/

theorem Filled.delayClose (hf : e.Filled) : (e.delayClose id).Filled := by
  have hb : ∀ j ∈ (e.delayClose id).jobs, ∃ i ∈ e.jobs, i.id = j.id := fun j hj => by
    obtain ⟨i, hi, rfl⟩ := mem_map.1 hj
    refine ⟨i, hi, ?_⟩
    split <;> rfl
  refine ⟨fun p hp job hjo => (hf.queue p hp job hjo).imp_right fun h j hj => ?_, fun j hj => ?_, hf.wire, hf.ids⟩
  · obtain ⟨i, hi, hid⟩ := hb j hj
    exact hid ▸ h i hi
  · obtain ⟨i, hi, hid⟩ := hb j hj
    exact hid ▸ hf.jobs i hi

theorem Answers.delayClose (ha : e.Answers) : (e.delayClose id).Answers where
  state := by simp [Entry.delayClose]
  answered := ha.answered
  jobs j hj := by
    obtain ⟨i, hi, rfl⟩ := mem_map.1 hj
    split
    · simp
    · exact ha.jobs i hi

theorem Filled.closeJobs (hf : e.Filled) : e.closeJobs.Filled := by
  unfold Entry.closeJobs
  repeat' split
  · exact hf.delayClose
  · exact hf.delayClose
  · exact hf.delayClose
  · exact ⟨hf.queue, hf.jobs, hf.wire, hf.ids⟩

theorem Answers.closeJobs (ha : e.Answers) : e.closeJobs.Answers := by
  unfold Entry.closeJobs
  repeat' split
  · exact ha.delayClose
  · exact ha.delayClose
  · exact ha.delayClose
  · exact ⟨by simp, ha.answered, ha.jobs⟩

theorem Closing.closeJobs (h : e.Closing) : (e.closeJobs.state = .closeWait ∨ e.closeJobs.state = .closed) ∧
      Begun e.closeJobs.history.reads e.closeJobs.replies ∧ ∀ j ∈ e.closeJobs.jobs, j.callback = .delayedClose := by
  unfold Entry.closeJobs
  split
  · refine ⟨.inl rfl, h.begun, fun j hj => ?_⟩
    obtain ⟨i, hi, rfl⟩ := mem_map.1 hj
    simp [(h.jobs i hi).1]
  · rename_i h0
    have hn : e.jobs = [] := eq_nil_iff_forall_not_mem.2 fun j hj => h0 (h.jobs j hj).2
    repeat' split
    · exact ⟨.inl rfl, h.begun, by simp [delayClose, hn]⟩
    · exact ⟨.inl rfl, h.begun, by simp [delayClose, hn]⟩
    · exact ⟨.inr rfl, h.begun, by simp [hn]⟩

theorem Standing.serveClose (h : e.Standing) : e.serveClose.dropPollFds.Resting := by
  obtain ⟨hf, h⟩ := h
  have hd : ∀ {e : Entry}, e.Filled → e.dropPollFds.Filled := fun h => ⟨h.queue, h.jobs, h.wire, h.ids⟩
  unfold Entry.serveClose
  split
  · rename_i hs
    refine ⟨hd hf.closeJobs, ?_⟩
    rcases h with ha | hse | hc
    · have ha' := ha.closeJobs
      exact .inl ⟨ha'.state, ha'.answered, ha'.jobs⟩
    · exact absurd (hse.prepared.state.symm.trans hs) (by simp)
    · obtain ⟨hst, hb, hj⟩ := hc.closeJobs
      exact .inr (.inr ⟨hst, hb, hj, rfl, rfl⟩)
  · rename_i hs
    refine ⟨hd hf, ?_⟩
    rcases h with ha | hse | hc
    · exact .inl ⟨ha.state, ha.answered, ha.jobs⟩
    · obtain ⟨⟨hst, ⟨rs, r, n, job, s, k, hp, hpa⟩, hco, hsh⟩, hbu⟩ := hse
      exact .inr (.inl ⟨⟨⟨hst, ⟨rs, r, n, job, s, k, ⟨hp.reads, hp.replies, hp.chunkId⟩, hpa⟩, hco, hsh⟩, hbu⟩, rfl⟩)
    · exact absurd hc.state hs

/-! ## Steps and runs -/

theorem Resting.preparePollFds (h : e.Resting) : e.preparePollFds.Resting := by
  obtain ⟨hf, h⟩ := h
  have hfi : e.preparePollFds.Filled := by
    unfold Entry.preparePollFds
    split <;> exact ⟨hf.queue, hf.jobs, hf.wire, hf.ids⟩
  refine ⟨hfi, ?_⟩
  rcases h with ha | ⟨hs, -⟩ | hc
  · refine .inl ?_
    unfold Entry.preparePollFds
    split <;> exact ⟨ha.state, ha.answered, ha.jobs⟩
  · obtain ⟨⟨hst, ⟨rs, r, n, job, s, k, hp, hpa⟩, hco, hsh⟩, hb⟩ := hs
    have hpr : e.preparePollFds = { e with pDesc := some e.clientEvents, fwdPDesc := none } := by
      simp [Entry.preparePollFds, hst]
    rw [hpr]
    exact .inr (.inl ⟨⟨⟨hst, ⟨rs, r, n, job, s, k, ⟨hp.reads, hp.replies, hp.chunkId⟩, hpa⟩, hco, hsh⟩, hb⟩, rfl⟩)
  · rw [(ended_unserved {} e hc.state).1]
    exact .inr (.inr ⟨hc.state, hc.begun, hc.jobs, rfl, rfl⟩)

theorem Resting.servePollErrors (h : e.Resting) (hc : ¬ e.Cut) :
    Ensures (e.servePollErrors w) fun e' => e'.Standing ∧ (e' = e ∨ e'.state ≠ .idle) := by
  obtain ⟨hf, h⟩ := h
  have ho : e.Answers ∨ e.Serving ∧ e.fwdPDesc = none := h.imp_right fun h => h.resolve_right hc
  have hst : e.Standing := .of_open (ho.imp_right And.left) hf
  unfold Entry.servePollErrors
  repeat' split
  · exact ensures_ok.2 ⟨hst.close, .inr (by simp)⟩
  · rename_i hfw
    rcases ho with ha | ⟨-, hn⟩
    · have hsta : Ensures e.fwdError fun e' => e'.state ≠ .idle := by
        dsimp only [fwdError]
        split
        · exact ensures_error
        · exact ensures_ok.2 (by simp)
      exact fun e' he' => ⟨⟨(fwdError_aside e' he').filled hf, .inl ((fwdError_aside e' he').answers ha)⟩,
        .inr (hsta e' he')⟩
    · simp [hn] at hfw
  · exact ensures_ok.2 ⟨hst, .inl rfl⟩

theorem Cut.servePoll (h : e.Cut) (hf : e.Filled) : Ensures (e.servePoll w) Resting := by
  rw [(ended_unserved w e h.state).2 h.pDesc h.fwdPDesc]
  exact ensures_ok.2 ⟨⟨hf.queue, hf.jobs, hf.wire, hf.ids⟩, .inr (.inr ⟨h.state, h.begun, h.jobs, rfl, rfl⟩)⟩

theorem Resting.servePoll (h : e.Resting) (hw : e.ReadsAtRest (.servePoll w)) : Ensures (e.servePoll w) Resting := by
  by_cases hc : e.Cut
  · exact hc.servePoll h.1
  · refine (h.servePollErrors hc).bind fun e₁ h₁ => ?_
    refine (h₁.1.serveState fun hi p hp hse => ?_).bind fun e₂ h₂ => ?_
    · rcases h₁.2 with rfl | hn
      · exact hw hi p hp hse
      · exact absurd hi hn
    · refine (h₂.serveFinish.serveConnectTimeout).bind fun e₃ h₃ => ensures_ok.2 ?_
      exact (h₃.serveInactive).serveClose

theorem writeFinishedCallback_answers (hf : e.Filled) (ha : e.Answers)
    (hp : e.state = .idle → e.input.mode = .data → e.input.current.isServedRead = false) :
    Ensures (e.writeFinishedCallback status writeId c) fun e' => e'.Filled ∧ e'.Answers := by
  have hn : ∀ {e₁ : Entry}, Aside e e₁ → e₁.state = e.state → e₁.input = e.input →
      Ensures (e₁.checkNextPacket c) fun e' => e'.Filled ∧ e'.Answers := by
    intro e₁ hsi hst hi
    have hf₁ := hsi.filled hf
    have ha₁ := hsi.answers ha
    unfold checkNextPacket
    split
    · rename_i hr
      rw [hi] at hr
      have hno : ¬(e₁.state = .idle ∧ e₁.input.current.isServedRead) := fun hb => by
        rw [hst, hi] at hb
        simp [hp hb.1 hr.1] at hb
      refine (takePacket_handedOver hf₁ ha₁ fun h₁ h₂ => absurd ⟨h₁, h₂⟩ hno).mono fun e' h' => ⟨h'.1, ?_⟩
      exact h'.2.resolve_right fun hs => hno hs.2
    · exact ensures_ok.2 ⟨hf₁, ha₁⟩
  dsimp only [writeFinishedCallback]
  repeat' split
  · exact ensures_error
  · rename_i s hse hst
    have hsi : Aside e { attachWriteStatus s e.chunkId e.writeJobWriteId status { e with writeJobId := 0 } with
        state := .writeFinish } := by
      refine Aside.trans ?_ aside_fail
      exact .same rfl id
    exact ensures_ok.2 ⟨hsi.filled hf, hsi.answers ha⟩
  · refine hn (Aside.trans ?_ (aside_attach rfl)) rfl rfl
    exact .same rfl id
  · refine hn (Aside.trans ?_ completeWrite_aside) ?_ ?_
    · exact .same rfl id
    · unfold completeWrite
      split <;> rfl
    · unfold completeWrite
      split <;> rfl

theorem Resting.finishJob (h : e.Resting)
    (hw : e.ReadsAtRest (.jobFinished id status c)) : Ensures (e.finishJob id status c) Resting := by
  obtain ⟨hf, h⟩ := h
  unfold Entry.finishJob
  split
  · exact ensures_ok.2 ⟨hf, h⟩
  · rename_i j hfi
    have hj : j ∈ e.jobs := mem_of_find?_eq_some hfi
    split
    · exact ensures_error
    · have hsu : ∀ i ∈ e.jobs.eraseP fun j => j.id == id, i ∈ e.jobs := fun i hi => mem_of_mem_eraseP hi
      have hf' := hf.forget hsu
      rcases h with ha | ⟨hs, hn⟩ | hc
      · have ha' : Answers { e with jobs := e.jobs.eraseP fun j => j.id == id } :=
          ⟨ha.state, ha.answered, fun i hi => ha.jobs i (hsu i hi)⟩
        unfold callBack
        split
        · exact absurd ‹_› (ha.jobs j hj)
        · exact (writeFinishedCallback_answers hf' ha' hw).mono fun e' h' => ⟨h'.1, .inl h'.2⟩
        · have hsi : Aside { e with jobs := e.jobs.eraseP fun j => j.id == id }
              (getChunkBlocksFinishedCallback status { e with jobs := e.jobs.eraseP fun j => j.id == id }) :=
            (aside_attach rfl).trans (.same rfl (by simp [getChunkBlocksFinishedCallback]))
          exact ensures_ok.2 ⟨hsi.filled hf', .inl (hsi.answers ha')⟩
        · exact ensures_ok.2 ⟨⟨hf'.queue, hf'.jobs, hf'.wire, hf'.ids⟩, .inl ⟨by simp [delayedCloseCallback],
            ha'.answered, ha'.jobs⟩⟩
      · obtain ⟨rs, r, n, job, s, k, -, -, -, -, -, hni | ⟨ho, -⟩⟩ := hs.prepared.parts
        · rw [hni] at hj
          cases hj
        · have hcb : j.callback = .readFinished := by
            rw [ho] at hj
            rw [mem_singleton.1 hj]
          have hr : (e.jobs.eraseP fun j => j.id == id) = [] := by
            have hid := find?_some hfi
            rw [ho] at hj ⊢
            rw [mem_singleton.1 hj] at hid
            simp [hid]
          rw [hr]
          simp only [callBack, hcb]
          refine (hs.prepared.readFinishedCallback hf hj).mono fun e' h' => ⟨h'.1, ?_⟩
          exact h'.2.1.imp_right fun hse => .inl ⟨hse, h'.2.2.trans hn⟩
      · simp only [callBack, hc.jobs j hj]
        exact ensures_ok.2 ⟨⟨hf'.queue, hf'.jobs, hf'.wire, hf'.ids⟩,
          .inr (.inr ⟨.inr rfl, hc.begun, fun i hi => hc.jobs i (hsu i hi), hc.pDesc, hc.fwdPDesc⟩)⟩

theorem Resting.step (h : e.Resting) {ev : Event} (he : e.ReadsAtRest ev) : Ensures (e.step ev) Resting := by
  cases ev with
  | preparePollFds => exact ensures_ok.2 h.preparePollFds
  | jobFinished id status c => exact h.finishJob he
  | servePoll w => exact h.servePoll he

theorem resting_new : Resting {} := ⟨⟨by simp, by simp, by simp, one_pos⟩, .inl ⟨by simp, .nil, by simp⟩⟩

/-- **Reads are answered.** If every READ that is served finds the connection at rest, only packets whose jobs have
finished have gone out, and the replies to READs are whole and in the order of the READs; only the last one may be under
way, and then the connection is reading it or has been closed. -/
theorem reads_answered (es : List Event) (e : Entry) (hes : Along step ReadsAtRest {} es) (hrun : run {} es = .ok e) :
    (∀ f ∈ e.history.wire, f.jobFinished ∧ f.packet ∈ e.history.sent ++ e.outputPackets) ∧
      (Answered e.history.reads e.replies ∨ Begun e.history.reads e.replies ∧
          (e.state = .read ∧ (e.jobs ≠ [] ∨ e.outputPackets ≠ []) ∨ e.state = .closeWait ∨ e.state = .closed)) := by
  obtain ⟨hf, h⟩ := ensures_foldlM (fun e ev hev h => Resting.step h hev) {} es hes resting_new e hrun
  refine ⟨hf.wire, ?_⟩
  rcases h with ha | ⟨hs, -⟩ | hc
  · exact .inl ha.answered
  · exact .inr ⟨hs.prepared.begun, .inl ⟨hs.prepared.state, hs.busy⟩⟩
  · exact .inr ⟨hc.begun, .inr hc.state⟩

def longRead : Packet := ⟨.read .saunafs (some ⟨7, 1, standardPartType, 1024, 2 * blockSize⟩), 30⟩

/-- the three parts of a READ, two of them filled while the one before is sent -/
def longReadRun : List Event :=
  [.preparePollFds, .servePoll (receives longRead), .jobFinished 1 .ok .failed, .preparePollFds, .servePoll (sends 1),
    .jobFinished 2 .ok .failed, .preparePollFds, .servePoll (sends 1), .jobFinished 3 .ok .failed, .preparePollFds,
    .servePoll (sends 2)]

theorem reads_answered_longRead : ∃ e, run {} longReadRun = .ok e ∧ e.history.sent.length = 4 ∧
      (∀ f ∈ e.history.wire, f.jobFinished ∧ f.packet ∈ e.history.sent ++ e.outputPackets) ∧
      (Answered e.history.reads e.replies ∨ Begun e.history.reads e.replies ∧
          (e.state = .read ∧ (e.jobs ≠ [] ∨ e.outputPackets ≠ []) ∨ e.state = .closeWait ∨ e.state = .closed)) := by
  have hlen : (run {} longReadRun).toOption.map (fun e => e.history.sent.length) = some 4 := by decide +kernel
  cases hrun : run {} longReadRun with
  | error c => simp [hrun, Except.toOption] at hlen
  | ok e =>
    refine ⟨e, rfl, by simpa [hrun, Except.toOption] using hlen, ?_⟩
    exact reads_answered longReadRun e (by decide +kernel) hrun

/-! ## Connections that are not at rest -/

/-- the disk cannot read the range of the first READ; the packet prepared for it waits for the second READ -/
def readBehindFailure : List Event :=
  [.preparePollFds, .servePoll (receives (readPacketOf 7)), .jobFinished 1 (.other 5) .failed, .preparePollFds,
    .servePoll (sends 1), .preparePollFds, .servePoll (receives (readPacketOf 8)), .preparePollFds,
    .servePoll (sends 1)]

/-- a READ arrives before the reply to a PING has been sent -/
def longReadBehindPing : List Event :=
  [.preparePollFds, .servePoll (receives ⟨.ping 0, 4⟩), .preparePollFds, .servePoll (receives longRead),
    .preparePollFds, .servePoll (sends 2)]

/-- a packet of the first READ, of another chunk, is sent in the reply to the second one; a packet whose job is still
running is sent -/
theorem wrong_packets_sent :
    (run {} readBehindFailure).toOption.map (fun e => (e.history.reads.map ReadRequest.chunkId, e.history.sent)) =
        some ([7, 8], [.readStatus 0 .saunafs 7 (.other 5), .readData 0 1 .saunafs 7 0 1024]) ∧
      (run {} longReadBehindPing).toOption.map (fun e => e.history.wire) =
        some [⟨.pingReply 0, true⟩, ⟨.readData 0 1 .saunafs 7 1024 (blockSize - 1024), false⟩] := by
  decide +kernel

end Entry

end SaunaFS.Chunkserver
