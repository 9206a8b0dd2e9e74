/-
A chain of chunkservers: the client writes to the first server, every server passes the packets on to the next one and
waits for its statuses. The servers take their steps in any order, with any results of disk jobs and system calls.
-/
import SaunaFS.Chunkserver.WriteServer

namespace SaunaFS.Chunkserver

open SaunaFS.Chunks Fallible Function List Packet Entry

/-! ## Chains -/

/-- what a client sends: a WRITE_INIT with a chain, and WRITE_DATA packets whose identifiers are distinct and not
zero -/
structure Client where
  format : InitFormat
  init : WriteInit
  initLength : ℕ
  writes : List Packet
  data : ∀ p ∈ writes, p.isWrite
  nodup : (0 :: writes.map writeId).Nodup

namespace Client

def stream (C : Client) : List Packet := ⟨.writeInit C.format (some C.init), C.initLength⟩ :: C.writes

/-- the number of the last server -/
def last (C : Client) : ℕ := C.init.chain.length

def ids (C : Client) : List ℕ := 0 :: C.writes.map writeId

/-- what is sent to a server: by the client, or by the server before it -/
def up (C : Client) (c : ℕ → Entry) : ℕ → List Packet
  | 0 => C.stream
  | k + 1 => (c k).history.forwarded

end Client

open Client

/-- what a server is answered by the one behind it -/
def answers (c : ℕ → Entry) (k : ℕ) : List Packet := (c (k + 1)).statuses.map OutPacket.arriving

/-- a server receives what comes next in its streams -/
def Delivered (C : Client) (c : ℕ → Entry) (k : ℕ) : Event → Prop
  | .servePoll w =>
    (w.read₁.delivers = true → (c k).history.headers ++ [w.next] <+: C.up c k) ∧
      (w.fwdRead₁.delivers = true → (c k).history.fwdHeaders ++ [w.fwdNext] <+: answers c k)
  | _ => True

instance (C : Client) (c : ℕ → Entry) (k : ℕ) (ev : Event) : Decidable (Delivered C c k ev) :=
  match ev with
  | .servePoll _ => inferInstanceAs (Decidable ((_ → _) ∧ (_ → _)))
  | .preparePollFds | .jobFinished _ _ _ => isTrue trivial

/-- the states of a chain; the server 0 is the one the client is connected to -/
inductive Reachable (C : Client) : (ℕ → Entry) → Prop where
  | start : Reachable C fun _ => {}
  | step {c : ℕ → Entry} (h : Reachable C c) {k : ℕ} (hk : k ≤ C.last) {ev : Event}
      (hd : Delivered C c k ev) {e : Entry} (hs : (c k).step ev = .ok e) : Reachable C (Function.update c k e)

/-! ## The invariant of a chain -/

/-- a server keeps its books, linked to its neighbours -/
def Linked (C : Client) (c : ℕ → Entry) (k : ℕ) : Prop :=
  ∃ L : Link, L.behind = C.last - k ∧ L.up = C.up c k ∧ L.down = answers c k ∧ (c k).Rests L

namespace Entry

variable {L L' : Link} {e : Entry}

theorem Safe.relink (h : e.Safe L) (hb : L'.behind = L.behind) (hh : L'.headers = L.headers)
    (hf : L'.fwdHeaders = L.fwdHeaders) (hs : L'.statuses <+: e.statuses)
    (hfw : L'.forwarded <+: e.history.forwarded) : e.Safe L' := by
  obtain ⟨⟨headers, fwdHeaders, received, fwdReceived, -, -, replies, writes, next, forwarded⟩, ledger⟩ := h
  rw [← hh] at headers received forwarded
  rw [← hf] at fwdHeaders fwdReceived
  rw [← hb] at forwarded ledger
  exact ⟨⟨headers, fwdHeaders, received, fwdReceived, hs, hfw, replies, writes, next, forwarded⟩, ledger⟩

theorem Rests.relink (h : e.Rests L) (hb : L'.behind = L.behind) (hh : L'.headers = L.headers)
    (hf : L'.fwdHeaders = L.fwdHeaders) (hst : L'.statuses <+: e.statuses)
    (hfw : L'.forwarded <+: e.history.forwarded) : e.Rests L' := by
  rcases h with ⟨h, hs⟩ | h
  · refine .inl ⟨⟨⟨⟨h.safe.relink hb hh hf hst hfw, hh ▸ h.input, hf ▸ h.fwdInput, h.working, h.others⟩, ?_⟩, h.heeds,
      h.fwdHeeds⟩, hs⟩
    have hp := h.phase
    unfold Phase PassesOn at hp ⊢
    rw [hb, hh, hf]
    exact hp
  · exact .inr ⟨h.safe.relink hb hh hf hst hfw, h.state, h.jobs, h.pDesc, h.fwdPDesc⟩

theorem Rests.safe (h : e.Rests L) : e.Safe L := h.elim (fun h => h.1.safe) Dead.safe

end Entry

variable {C : Client} {c : ℕ → Entry}

theorem stream_head : ∀ p ∈ C.stream.head?, p.formsChain C.last := by
  intro p hp
  obtain rfl : _ = p := Option.some.inj hp
  exact ⟨C.format, some C.init, rfl, fun r hr => by rw [← Option.some.inj hr]; rfl⟩

theorem linked_start {k : ℕ} : Linked C (fun _ => {}) k := by
  refine ⟨{
    behind := C.last - k, up := C.up (fun _ => {}) k, down := [], headers := [], fwdHeaders := [], statuses := []
    forwarded := [], head := ?_, tail := ?_, answers := by simp, headers_le := nil_prefix
    fwdHeaders_le := nil_prefix }, rfl, rfl, rfl, rests_new rfl rfl rfl rfl⟩
  · cases k with
    | zero => exact stream_head
    | succ k => simp [up]
  · cases k with
    | zero => exact C.data
    | succ k => simp [up]

variable {k : ℕ}

theorem Linked.rebase (h : Linked C c k) : ∃ L : Link, L.behind = C.last - k ∧ L.up = C.up c k ∧
    L.down = answers c k ∧ L.headers = (c k).history.headers ∧ L.fwdHeaders = (c k).history.fwdHeaders ∧
    L.statuses = (c k).statuses ∧ L.forwarded = (c k).history.forwarded ∧ (c k).Rests L := by
  obtain ⟨L, hb, hup, hd, h⟩ := h
  refine ⟨{ L with statuses := (c k).statuses, forwarded := (c k).history.forwarded }, hb, hup, hd,
    h.safe.headers.symm, h.safe.fwdHeaders.symm, rfl, rfl, ?_⟩
  exact h.relink rfl rfl rfl (prefix_refl _) (prefix_refl _)

variable {L : Link} {e : Entry}

theorem forwarded_good (h : e.Safe L) :
    (∀ p ∈ e.history.forwarded.head?, p.formsChain (L.behind - 1)) ∧ ∀ p ∈ e.history.forwarded.tail, p.isWrite := by
  rcases h.forwarded with hn | ⟨-, p, tl, hc, hf, ht⟩
  · simp [hn]
  · rw [hc]
    refine ⟨fun q hq => ?_, fun q hq => L.tail q ?_⟩
    · obtain rfl : p = q := Option.some.inj hq
      exact hf
    · have hl : L.headers.tail <+: L.up.tail := by simpa using L.headers_le.drop 1
      exact (ht.trans hl).subset hq

theorem answers_good (h : e.Safe L) : ∀ p ∈ e.statuses.map OutPacket.arriving, p.isStatus := by
  intro p hp
  obtain ⟨q, hq, rfl⟩ := mem_map.1 hp
  obtain ⟨s, w, rfl⟩ := h.replies q hq
  cases s <;> exact ⟨_, w, rfl⟩

theorem linked_step (h : ∀ j ≤ C.last, Linked C c j) (hk : k ≤ C.last) {ev : Event} (hd : Delivered C c k ev)
    (hs : (c k).step ev = .ok e) : ∀ j ≤ C.last, Linked C (Function.update c k e) j := by
  obtain ⟨L, hb, hup, hdo, hhe, hf, hst, hfw, hre⟩ := (h k hk).rebase
  have he : ∀ w, ev = .servePoll w → L.Delivers w := by
    rintro w rfl
    refine ⟨fun hr => ?_, fun hr => ?_⟩
    · rw [hhe, hup]
      exact hd.1 hr
    · rw [hf, hdo]
      exact hd.2 hr
  obtain ⟨L', hL', hre'⟩ := rests_step hre he e hs
  intro j hj
  by_cases hjk : j = k
  · subst hjk
    refine ⟨L', hL'.behind.trans hb, ?_, ?_, ?_⟩
    · rw [hL'.up, hup]
      cases j with
      | zero => rfl
      | succ j => simp [up]
    · rw [hL'.down, hdo, answers, answers, update_of_ne (by simp)]
    · rwa [update_self]
  · obtain ⟨M, hMb, hMup, hMdown, hM⟩ := h j hj
    have hg := hre'.safe.grown
    have hpa := hre'.safe.passedOn
    rw [hL'.statuses, hst] at hg
    rw [hL'.forwarded, hfw] at hpa
    -- the stream of the server behind `k` and the answers to the one before it have grown
    have hne : M.up <+: C.up (update c k e) j ∧
        (∀ p ∈ (C.up (update c k e) j).head?, p.formsChain M.behind) ∧
        ∀ p ∈ (C.up (update c k e) j).tail, p.isWrite := by
      rw [hMup]
      cases j with
      | zero => exact ⟨prefix_refl _, hMup ▸ M.head, hMup ▸ M.tail⟩
      | succ j =>
        by_cases hjk' : j = k
        · subst hjk'
          obtain ⟨hh, ht⟩ := forwarded_good hre'.safe
          simp only [up, update_self]
          refine ⟨hpa, fun p hp => ?_, ht⟩
          have hfo := hh p hp
          rw [hL'.behind, hb] at hfo
          rwa [hMb, ← Nat.sub_sub]
        · simp only [up, update_of_ne hjk']
          have hh := M.head
          have ht := M.tail
          rw [hMup] at hh ht
          exact ⟨prefix_refl _, hh, ht⟩
    have hn : M.down <+: answers (update c k e) j ∧
        ∀ p ∈ answers (update c k e) j, p.isStatus := by
      rw [hMdown]
      by_cases hjk' : j + 1 = k
      · subst hjk'
        simp only [answers, update_self]
        exact ⟨hg.map _, answers_good hre'.safe⟩
      · simp only [answers, update_of_ne hjk']
        have ha := M.answers
        rw [hMdown] at ha
        exact ⟨prefix_refl _, ha⟩
    refine ⟨{ M with
      up := C.up (update c k e) j, down := answers (update c k e) j, head := hne.2.1
      tail := hne.2.2, answers := hn.2, headers_le := M.headers_le.trans hne.1
      fwdHeaders_le := M.fwdHeaders_le.trans hn.1 }, hMb, rfl, rfl, ?_⟩
    rw [update_of_ne hjk]
    exact hM.relink rfl rfl rfl hM.safe.grown hM.safe.passedOn

theorem chain_inv (h : Reachable C c) : ∀ k ≤ C.last, Linked C c k := by
  induction h with
  | start => exact fun k _ => linked_start
  | step _ hk hd hs ih => exact linked_step ih hk hd hs

/-! ## Acknowledged means written -/

variable {n : ℕ}

theorem formsChain_writeId {p : Packet} (h : p.formsChain n) : p.writeId = 0 := by
  obtain ⟨f, request, hm, -⟩ := h
  simp [writeId, hm]

section

variable (h : ∀ k ≤ C.last, Linked C c k)
include h

theorem up_tail_le : ∀ k ≤ C.last, (C.up c k).tail <+: C.writes := by
  intro k
  induction k with
  | zero => exact fun _ => prefix_refl _
  | succ k ih =>
    intro hk
    obtain ⟨L, -, hup, -, hr⟩ := h k (by omega)
    have hh : L.headers.tail <+: L.up.tail := by simpa using L.headers_le.drop 1
    have hl := ih (by omega)
    rcases hr.safe.forwarded with hn | ⟨-, p, tl, hc, -, ht⟩
    · simp [up, hn]
    · simp only [up, hc, tail_cons]
      exact ht.trans (hh.trans (hup ▸ hl))

theorem up_ids_le (hk : k ≤ C.last) : (C.up c k).map writeId <+: C.ids := by
  obtain ⟨L, -, hup, -⟩ := h k hk
  have hh := L.head
  rw [hup] at hh
  have ht := up_tail_le h k hk
  cases hc : C.up c k with
  | nil => exact nil_prefix
  | cons p tl =>
    rw [hc] at hh ht
    rw [map_cons, formsChain_writeId (hh p rfl)]
    exact (prefix_cons_inj 0).2 (ht.map _)

theorem written_count_le (hk : k ≤ C.last) (w : ℕ) : (c k).history.written.count w ≤ 1 := by
  obtain ⟨L, -, hup, -, hr⟩ := h k hk
  have hs := hr.safe
  have hre : ((c k).history.received.map writeId).Sublist C.ids := by
    have hl := (hs.received.trans L.headers_le).map writeId
    rw [hup] at hl
    exact (hl.trans (up_ids_le h hk)).sublist
  have hw : (c k).history.written.Sublist C.ids := (sublist_append_left _ _).trans (hs.writes.trans hre)
  exact nodup_iff_count_le_one.1 (C.nodup.sublist hw) w

theorem nextDone_count_le (hk : k ≤ C.last) (w : ℕ) : (c k).history.nextDone.count w ≤ (c (k + 1)).acks.count w := by
  obtain ⟨L, -, -, hd, hr⟩ := h k hk
  have hl : ((c k).history.fwdReceived.filterMap okId).Sublist (c (k + 1)).acks := by
    have hp := hr.safe.fwdReceived.trans L.fwdHeaders_le
    rw [hd, answers] at hp
    have hs := hp.sublist.filterMap okId
    rwa [filterMap_map] at hs
  exact (hr.safe.next.trans hl).count_le w

theorem acks_count_le (n : ℕ) : ∀ k, k + n = C.last → ∀ w, (c k).acks.count w ≤ 1 := by
  induction n with
  | zero =>
    intro k hk w
    obtain ⟨L, hb, -, -, hr⟩ := h k (by omega)
    have ha := hr.safe.ledger.alone (by omega) w
    have hw := written_count_le h (k := k) (by omega) w
    omega
  | succ n ih =>
    intro k hk w
    obtain ⟨L, hb, -, -, hr⟩ := h k (by omega)
    have hp := hr.safe.ledger.paired (by omega) w
    have hw := written_count_le h (k := k) (by omega) w
    have hn := nextDone_count_le h (k := k) (by omega) w
    have hac := ih (k + 1) (by omega) w
    split at hp <;> omega

theorem ack_written {w : ℕ} {n : ℕ} :
    ∀ k, k + n = C.last → w ∈ (c k).acks → ∀ j, k ≤ j → j ≤ C.last → w ∈ (c j).history.written := by
  induction n with
  | zero =>
    intro k hk hw j hkj hj
    obtain rfl : k = j := by omega
    obtain ⟨L, hb, -, -, hr⟩ := h k hj
    have hal := hr.safe.ledger.alone (by omega) w
    have ha := count_pos_iff.2 hw
    exact count_pos_iff.1 (by omega)
  | succ n ih =>
    intro k hk hw j hkj hj
    obtain ⟨L, hb, -, -, hr⟩ := h k (by omega)
    have hp := hr.safe.ledger.paired (by omega) w
    have ha := count_pos_iff.2 hw
    have hwr := written_count_le h (k := k) (by omega) w
    have hn := nextDone_count_le h (k := k) (by omega) w
    have hac := acks_count_le h n (k + 1) (by omega) w
    rcases eq_or_lt_of_le hkj with rfl | hl
    · exact count_pos_iff.1 (by split at hp <;> omega)
    · refine ih (k + 1) (by omega) (count_pos_iff.1 ?_) j hl hj
      split at hp <;> omega

end

/-! ## When nothing is left to be done -/

/-- no byte of a stream is left to be read -/
def Drained (stream headers : List Packet) (r : Receiving) : Prop :=
  r.mode = .header ∧ headers = stream ∨ r.mode = .data ∧ r.bytesLeft = 0

/-- the loop of a server has nothing to do: no job is running, it wants to send nothing, and where it wants to receive
nothing is left to be read -/
structure AtRest (C : Client) (c : ℕ → Entry) (k : ℕ) : Prop where
  jobs : (c k).jobs = []
  clientOut : ∀ p ∈ (c k).preparePollFds.pDesc, p.pollOut = false
  fwdOut : ∀ p ∈ (c k).preparePollFds.fwdPDesc, p.pollOut = false
  clientIn : ∀ p ∈ (c k).preparePollFds.pDesc, p.pollIn = true →
    Drained (C.up c k) (c k).history.headers (c k).input
  fwdIn : ∀ p ∈ (c k).preparePollFds.fwdPDesc, p.pollIn = true →
    Drained (answers c k) (c k).history.fwdHeaders (c k).fwdInput

/-- a server without an error that is at rest has written what it was sent: alone it has acknowledged that, and
otherwise it has passed it on and has been told of all acknowledgements of the next server -/
structure Complete (C : Client) (c : ℕ → Entry) (k : ℕ) : Prop where
  written : (c k).history.written = (C.up c k).map writeId
  sent : (c k).outputPackets = []
  alone : k = C.last → (c k).acks = (c k).history.written
  passed : k < C.last → ∃ p, (c k).history.forwarded = p :: (C.up c k).tail
  nextDone : k < C.last → (c k).history.nextDone = (c (k + 1)).acks

theorem drained_input (h : (c k).Attends L) (hr : AtRest C c k)
    (hd : (c k).preparePollFds.pDesc = some (c k).clientEvents) (hre : (c k).state.isRegular)
    (hf : (c k).state = .writeForward → (c k).fwdBytesLeft = 0) :
    (c k).history.received = C.up c k ∧ (c k).outputPackets = [] := by
  have hj : (c k).writeJobId = 0 := by
    rcases h.working.2 with ⟨-, h0⟩ | ⟨ho, -⟩
    · exact h0
    · rw [hr.jobs] at ho
      cases ho
  have hl : 0 < (c k).input.bytesLeft := by
    cases hm : (c k).input.mode with
    | header => exact h.heeds.header hre hm
    | data =>
      refine Nat.pos_of_ne_zero fun h0 => ?_
      rcases h.heeds.data hre hm h0 with hn | ⟨hs, hp⟩
      · exact hn hj
      · exact hp.ne' (hf hs)
  refine ⟨?_, ?_⟩
  · rcases hr.clientIn _ hd (by simpa [clientEvents] using hl) with ⟨hm, ha⟩ | ⟨-, h0⟩
    · have hi := h.input
      rw [Receiving.pending, hm, append_nil] at hi
      rw [← ha, h.safe.headers, hi]
    · omega
  · simpa [clientEvents] using hr.clientOut _ hd

theorem complete_of_atRest (h : Linked C c k) (hup : C.up c k ≠ [])
    (hre : (c k).state.isRegular) (hr : AtRest C c k) : Complete C c k := by
  obtain ⟨L, hb, hLup, hLdown, hres⟩ := h
  rcases hres with ⟨h, -⟩ | hd
  swap
  · rcases hd.state with hs | hs <;> simp [hs, State.isRegular] at hre
  have hru : (c k).running = [] := by simp [running, hr.jobs]
  cases hs : (c k).state with
  | idle =>
    have hrec := (drained_input h hr (by simp [preparePollFds, hs]) hre (by simp [hs])).1
    rw [((phase_idle hs).1 h.phase).1] at hrec
    exact absurd hrec.symm hup
  | writeLast =>
    obtain ⟨hrec, ho⟩ := drained_input h hr (by simp [preparePollFds, hs]) hre (by simp [hs])
    obtain ⟨h0, hreg, hac⟩ := (phase_writeLast hs).1 h.phase
    have hw := hreg.writes
    rw [hru, append_nil, hrec] at hw
    exact ⟨hw, ho, fun _ => hac, fun hlt => by omega, fun hlt => by omega⟩
  | connecting =>
    have hba := hr.fwdOut ⟨false, true⟩ (by simp [preparePollFds, hs])
    cases hba
  | writeInit =>
    have hl := ((phase_forming (.inr hs)).1 h.phase).2.2.2.2
    have hba := hr.fwdOut ⟨false, true⟩ (by simp [preparePollFds, hs, hl])
    cases hba
  | writeForward =>
    have hf : (c k).preparePollFds.fwdPDesc = some ⟨true, decide (0 < (c k).fwdBytesLeft)⟩ := by
      simp [preparePollFds, hs]
    have hl : (c k).fwdBytesLeft = 0 := by simpa using hr.fwdOut _ hf
    obtain ⟨hrec, ho⟩ := drained_input h hr (by simp [preparePollFds, hs]) hre (fun _ => hl)
    obtain ⟨hpo, hreg, ⟨p, hp⟩, hn⟩ := (phase_writeForward hs).1 h.phase
    have hw := hreg.writes
    rw [hru, append_nil, hrec] at hw
    have hal : L.headers = C.up c k := by
      have hle := h.safe.received
      rw [hrec] at hle
      exact (hLup ▸ L.headers_le).eq_of_length_le hle.length_le
    refine ⟨hw, ho, fun he => by omega, fun _ => ⟨p, by rw [hp, hal]⟩, fun _ => ?_⟩
    rcases hr.fwdIn _ hf rfl with ⟨hm, ha⟩ | ⟨hm, h0⟩
    · have hi := h.fwdInput
      rw [Receiving.pending, hm, append_nil] at hi
      rw [hn, ← hi, ← h.safe.fwdHeaders, ha, answers, filterMap_map]
      rfl
    · have hl' := h.fwdHeeds hs hm
      omega
  | read | getBlock | writeFinish | close | closeWait | closed => simp [hs, State.isRegular] at hre

theorem complete_all (h : ∀ k ≤ C.last, Linked C c k) (hre : ∀ k ≤ C.last, (c k).state.isRegular)
    (hr : ∀ k ≤ C.last, AtRest C c k) : ∀ k ≤ C.last, Complete C c k ∧ (C.up c k).map writeId = C.ids := by
  intro k
  induction k with
  | zero =>
    intro hk
    exact ⟨complete_of_atRest (h 0 hk) (by simp [up, stream]) (hre 0 hk) (hr 0 hk), rfl⟩
  | succ k ih =>
    intro hk
    obtain ⟨hc, hi⟩ := ih (by omega)
    obtain ⟨p, hp⟩ := hc.passed (by omega)
    have hup : C.up c (k + 1) = p :: (C.up c k).tail := hp
    obtain ⟨L, -, hLup, -⟩ := h (k + 1) hk
    have hf : p.formsChain L.behind := L.head p (by rw [hLup, hup]; rfl)
    refine ⟨complete_of_atRest (h _ hk) (by simp [hup]) (hre _ hk) (hr _ hk), ?_⟩
    rw [hup, map_cons, formsChain_writeId hf, map_tail, hi]
    rfl

theorem acks_count_eq (h : ∀ k ≤ C.last, Linked C c k)
    (ha : ∀ k ≤ C.last, Complete C c k ∧ (C.up c k).map writeId = C.ids) :
    ∀ k, k + n = C.last → ∀ w, (c k).acks.count w = C.ids.count w := by
  induction n with
  | zero =>
    intro k hk w
    obtain ⟨hc, hi⟩ := ha k (by omega)
    rw [hc.alone (by omega), hc.written, hi]
  | succ n ih =>
    intro k hk w
    obtain ⟨L, hb, -, -, hr⟩ := h k (by omega)
    obtain ⟨hc, hi⟩ := ha k (by omega)
    have hp := hr.safe.ledger.paired (by omega) w
    rw [hc.written, hi, hc.nextDone (by omega), ih (k + 1) (by omega) w] at hp
    have hl : C.ids.count w ≤ 1 := nodup_iff_count_le_one.1 C.nodup w
    split at hp <;> omega

/-- **An acknowledged write is written everywhere.** The client has been sent an OK for a write only if every server has
done it, and at most one. When no server has met an error and nothing is left to be done, the OKs are one for each of
its writes and one for the initial id 0. -/
theorem acknowledged_writes (C : Client) (c : ℕ → Entry) (h : Reachable C c) :
    (∀ w ∈ (c 0).acks, ∀ k ≤ C.last, w ∈ (c k).history.written) ∧ (∀ w, (c 0).acks.count w ≤ 1) ∧
      ((∀ k ≤ C.last, (c k).state.isRegular) → (∀ k ≤ C.last, AtRest C c k) →
        ((c 0).history.sent.filterMap fun p => p.arriving.okId).Perm (0 :: C.writes.map writeId)) := by
  have hinv := chain_inv h
  refine ⟨fun w hw k hk => ?_, fun w => ?_, fun hreg hrest => ?_⟩
  · exact ack_written hinv 0 (Nat.zero_add _) hw k (Nat.zero_le k) hk
  · exact acks_count_le hinv C.last 0 (Nat.zero_add _) w
  · have hall := complete_all hinv hreg hrest
    have hout := (hall 0 (Nat.zero_le _)).1.sent
    have hacks : (c 0).acks = (c 0).history.sent.filterMap fun p => p.arriving.okId := by
      rw [acks, statuses, hout, append_nil]
    rw [← hacks]
    exact perm_iff_count.2 fun w => acks_count_eq hinv hall 0 (Nat.zero_add _) w

def Client.run (C : Client) (c : ℕ → Entry) : List (ℕ × Event) → Option (ℕ → Entry)
  | [] => some c
  | (k, ev) :: es =>
    if k ≤ C.last ∧ Delivered C c k ev then
      match (c k).step ev with
      | .ok e => C.run (Function.update c k e) es
      | .error _ => none
    else none

theorem Reachable.run (h : Reachable C c) {es : List (ℕ × Event)} {c' : ℕ → Entry} (hr : C.run c es = some c') :
    Reachable C c' := by
  induction es generalizing c with
  | nil => exact Option.some.inj hr ▸ h
  | cons p es ih =>
    obtain ⟨k, ev⟩ := p
    simp only [Client.run] at hr
    split at hr
    · rename_i ho
      split at hr
      · exact ih (h.step ho.1 ho.2 ‹_›) hr
      · cases hr
    · cases hr

/-- a WRITE_DATA of four bytes -/
def oneWrite : Packet := ⟨.writeData .saunafs (some ⟨1, 7, 0, 0, 4, 0⟩), 34⟩

def twoServers : Client where
  format := .ec
  init := ⟨1, 1, standardPartType, [⟨1, standardPartType, firstECVersion⟩]⟩
  initLength := 34
  writes := [oneWrite]
  data := by
    intro p hp
    rw [mem_singleton.1 hp]
    exact ⟨_, _, rfl⟩
  nodup := by decide

/-- the status that the second server sends -/
def okStatus (writeId : ℕ) : Packet := (OutPacket.writeStatus .saunafs ⟨1, writeId, .ok⟩).arriving

/-- the chain is formed, the data is passed on and written, and the statuses go back -/
def twoServersRun : List (ℕ × Event) :=
  [(0, .preparePollFds), (0, .servePoll { receives (twoServers.stream.getD 0 oneWrite) with connect := .inProgress }),
    (0, .preparePollFds), (0, .servePoll { fwdPollOut := true, connected := true, fwdWritten := .wrote 30 }),
    (1, .preparePollFds),
    (1, .servePoll (receives (serializeCltocsWriteInit 1 1 standardPartType [] firstECVersion))),
    (1, .jobFinished 1 .ok .failed), (0, .jobFinished 1 .ok .failed), (1, .preparePollFds),
    (1, .servePoll (sends 1)), (0, .preparePollFds),
    (0, .servePoll { fwdPollIn := true, fwdNext := okStatus 0, fwdRead₁ := .got 8, fwdRead₂ := .got 17 }),
    (0, .preparePollFds), (0, .servePoll { receives oneWrite with forwarded := .wrote 42 }),
    (1, .preparePollFds), (1, .servePoll (receives oneWrite)), (0, .jobFinished 2 .ok .failed),
    (1, .jobFinished 2 .ok .failed), (1, .preparePollFds), (1, .servePoll (sends 1)), (0, .preparePollFds),
    (0, .servePoll { fwdPollIn := true, fwdNext := okStatus 7, fwdRead₁ := .got 8, fwdRead₂ := .got 17 }),
    (0, .preparePollFds), (0, .servePoll (sends 2))]

theorem acknowledged_writes_twoServers : ∃ c, Reachable twoServers c ∧
    (∀ k ≤ 1, (c k).state.isRegular ∧ AtRest twoServers c k) ∧
    ((c 0).history.sent.filterMap fun p => p.arriving.okId).Perm [0, 7] := by
  have hsome : (twoServers.run (fun _ => {}) twoServersRun).isSome := by decide +kernel
  generalize hrun : twoServers.run (fun _ => {}) twoServersRun = result at hsome
  obtain ⟨c, rfl⟩ := Option.isSome_iff_exists.1 hsome
  have hc : c = (twoServers.run (fun _ => {}) twoServersRun).getD fun _ => {} := by rw [hrun]; rfl
  have hrest : ∀ k ≤ 1, (c k).state.isRegular ∧ AtRest twoServers c k := by
    intro k hk
    subst hc
    interval_cases k
    all_goals
      exact ⟨by decide +kernel, by decide +kernel, by decide +kernel, by decide +kernel,
        fun _ _ _ => .inl (by decide +kernel), fun _ _ _ => .inl (by decide +kernel)⟩
  have hreach : Reachable twoServers c := Reachable.start.run hrun
  exact ⟨c, hreach, hrest, (acknowledged_writes twoServers c hreach).2.2 (fun k hk => (hrest k hk).1)
    fun k hk => (hrest k hk).2⟩

end SaunaFS.Chunkserver
