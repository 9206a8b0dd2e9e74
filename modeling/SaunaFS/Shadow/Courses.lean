/-
What a shadow that is synchronised, or becomes so, has done: the effect of every packet and of every event on the part
of the connection that follows the master, and what `restore` accepts.
-/
import SaunaFS.Shadow.MasterConn

namespace SaunaFS.Shadow

open SaunaFS.Changelog (Call Counters FileSystem restoreReset)

variable {M L : Type}

namespace FromMaster

def isLog : FromMaster L → Bool
  | metachangesLog _ _ => true
  | _ => false

/-- an answer to a registration -/
def isReply : FromMaster L → Bool
  | registerShadow _ _ => true
  | registerShadowStatus _ => true
  | _ => false

end FromMaster

/-! ## What a packet does to the shadow -/

namespace MasterConn

variable {fs : FileSystem M L} {c : MasterConn M} {o : System M L}

/-- the part of the shadow that follows the master -/
structure SameCore (c c' : MasterConn M) : Prop where
  state : c'.state = c.state
  metadata : c'.metadata = c.metadata
  counters : c'.counters = c.counters
  lastlogversion : c'.lastlogversion = c.lastlogversion

theorem SameCore.refl (c : MasterConn M) : SameCore c c := ⟨rfl, rfl, rfl, rfl⟩

variable {c' : MasterConn M} {status : Status} {filenum : DownloadFile} {p : FromMaster L} {resolves : Bool}

theorem SameCore.trans {c'' : MasterConn M} (h : SameCore c c') (h' : SameCore c' c'') : SameCore c c'' :=
  ⟨h'.state.trans h.state, h'.metadata.trans h.metadata, h'.counters.trans h.counters,
    h'.lastlogversion.trans h.lastlogversion⟩

/-- the registrations that are still to be read -/
def registers (c : MasterConn M) : List ToMaster := c.output.filter ToMaster.isRegister

theorem sameCore_killSession : SameCore c c.killSession := by
  unfold killSession
  split_ifs <;> exact ⟨rfl, rfl, rfl, rfl⟩

theorem state_forceMetadataDownload : c.forceMetadataDownload.state = .none := by
  unfold forceMetadataDownload
  cases c.metadata with
  | none => rfl
  | some m => exact (sameCore_killSession).state

theorem state_handleChangelogApplyError : (c.handleChangelogApplyError status).state ≠ .synchronized := by
  unfold handleChangelogApplyError
  split_ifs
  · rw [state_forceMetadataDownload]
    decide
  · exact fun h => (nomatch h)

theorem sameCore_downloadInit (h : filenum ≠ .metadata) : SameCore c (c.downloadInit filenum) := by
  unfold downloadInit
  split_ifs
  · exact ⟨rfl, rfl, rfl, rfl⟩
  · exact SameCore.refl c

/-- a shadow that becomes synchronised, or stays so -/
inductive Course (fs : FileSystem M L) (c : MasterConn M) (p : FromMaster L) (o : System M L) (c' : MasterConn M) :
    Prop where
  /-- nothing that follows the master has changed -/
  | same (core : SameCore c c') (hlog : p.isLog = false)
      (hreply : ∀ vershex reply, p = .registerShadow vershex reply → c.state = .synchronized →
        ∃ m, c.metadata = some m ∧ fs.getversion m = reply)
  /-- an entry has been accepted -/
  | entry (version : UInt64) (line : L) (m m' : M) (v : Counters) (hp : p = .metachangesLog version line)
      (hsync : c.state = .synchronized) (hnext : ¬ (0 < c.lastlogversion ∧ version ≠ c.lastlogversion + 1))
      (hm : c.metadata = some m)
        (hrestore : fs.restore m c.counters ⟨version, line, .dontIgnoreAnyErrors⟩ = (m', v, .ok))
      (hm' : c'.metadata = some m') (hv : c'.counters = v) (hlast : c'.lastlogversion = version)
  /-- the metadata have been loaded -/
  | loaded (m : M) (v : Counters) (hstate : c.state = .downloading)
    (hload : fsLoadall fs c.counters o.directory = (m, v, none))
      (hm : c'.metadata = some m) (hv : c'.counters = v) (hlast : c'.lastlogversion = fs.getversion m - 1)

theorem course_downloadedFile {filenum : Option DownloadFile} (hl : p.isLog = false)
    (hr : p.isReply = false) (hs : (c.downloadedFile fs o filenum).state = .synchronized) :
    Course fs c p o (c.downloadedFile fs o filenum) := by
  have hn (vershex : UInt32) (reply : UInt64) (hp : p = .registerShadow vershex reply) (_ : c.state = .synchronized) :
      ∃ m, c.metadata = some m ∧ fs.getversion m = reply := by
    rw [hp] at hr
    cases hr
  unfold downloadedFile at hs ⊢
  split at hs
  · exact .same (sameCore_downloadInit (by decide)) hl hn
  · exact .same (sameCore_downloadInit (by decide)) hl hn
  · exact .same (sameCore_downloadInit (by decide)) hl hn
  · split_ifs at hs ⊢ with hlo
    · unfold loadDownloaded at hs ⊢
      rcases ha : fsLoadall fs c.counters o.directory with ⟨m, v, _ | status⟩
      · exact .loaded m v hlo.2 ha rfl rfl rfl
      · rw [ha] at hs
        exact absurd hs state_handleChangelogApplyError
    · exact .same (SameCore.refl c) hl hn
  · exact .same (SameCore.refl c) hl hn

variable {d : MasterConn M}

theorem Course.of_core (h : Course fs d p o c') (hc : SameCore c d) : Course fs c p o c' := by
  cases h with
  | same core hlog hre =>
    refine .same (hc.trans core) hlog fun vershex reply hp hs => ?_
    obtain ⟨m, hm, hve⟩ := hre vershex reply hp (hc.state.trans hs)
    exact ⟨m, hc.metadata ▸ hm, hve⟩
  | entry version line m m' v hp hs hn hm hr hm' hv hl =>
    rw [hc.state] at hs
    rw [hc.lastlogversion] at hn
    rw [hc.metadata] at hm
    rw [hc.counters] at hr
    exact .entry version line m m' v hp hs hn hm hr hm' hv hl
  | loaded m v hst hlo hm hv hl =>
    rw [hc.state] at hst
    rw [hc.counters] at hlo
    exact .loaded m v hst hlo hm hv hl

theorem course_downloadNext (hl : p.isLog = false) (hr : p.isReply = false)
    (hs : (c.downloadNext fs o).state = .synchronized) : Course fs c p o (c.downloadNext fs o) := by
  have hsa (d : MasterConn M) (hc : SameCore c d) : Course fs c p o d :=
    .same hc hl fun vershex reply hp => by rw [hp] at hr; cases hr
  unfold downloadNext at hs ⊢
  split_ifs at hs ⊢
  · exact hsa _ ⟨rfl, rfl, rfl, rfl⟩
  · exact (course_downloadedFile hl hr hs).of_core ⟨rfl, rfl, rfl, rfl⟩
  · exact hsa _ ⟨rfl, rfl, rfl, rfl⟩

theorem course_registered {vershex : UInt32} {reply : UInt64} (hr : (c.registered fs vershex reply resolves).running)
    (hs : (c.registered fs vershex reply resolves).state = .synchronized) :
    Course fs c (.registerShadow vershex reply) o (c.registered fs vershex reply resolves) := by
  have hpo : SameCore c (intSendMatoclport { c with version := vershex } resolves) := by
    unfold intSendMatoclport
    split_ifs <;> exact ⟨rfl, rfl, rfl, rfl⟩
  unfold registered at hr hs ⊢
  dsimp only at hr hs ⊢
  split_ifs at hr hs ⊢ with hst
  · split at hr
    · cases hr
    · rename_i m hm
      simp only [hm] at hs ⊢
      split_ifs at hs ⊢ with hn
      · rw [state_forceMetadataDownload] at hs
        cases hs
      · refine .same hpo rfl fun _ _ hp _ => ⟨m, hpo.metadata ▸ hm, ?_⟩
        cases hp
        exact not_not.mp hn
  · exact .same hpo rfl fun _ _ _ hst' => absurd (hpo.state.trans hst') hst

theorem course_metachangesLog {version : UInt64} {line : L} (hru : (c.metachangesLog fs version line).running)
    (hs : (c.metachangesLog fs version line).state = .synchronized) :
    Course fs c (.metachangesLog version line) o (c.metachangesLog fs version line) := by
  unfold metachangesLog at hru hs ⊢
  split_ifs at hru hs ⊢ with hg hst
  · exact absurd hs state_handleChangelogApplyError
  · cases hm : c.metadata with
    | none =>
      rw [hm] at hru
      cases hru
    | some m =>
      simp only [hm] at hs ⊢
      rcases hr : fs.restore m c.counters ⟨version, line, .dontIgnoreAnyErrors⟩ with ⟨m', v, status⟩
      rw [hr] at hs
      by_cases ho : status = .ok
      · subst ho
        exact .entry version line m m' v rfl hst hg hm hr rfl rfl rfl
      · refine absurd hs ?_
        split
        · rename_i he
          cases he
          exact absurd rfl ho
        · exact state_handleChangelogApplyError
  · exact absurd hs hst

theorem course_gotpacket (p : FromMaster L) (hru : (c.gotpacket fs p o).running)
    (hs : (c.gotpacket fs p o).state = .synchronized) : Course fs c p o (c.gotpacket fs p o) := by
  have hsa (d : MasterConn M) (hc : SameCore c d) (hl : p.isLog = false) (hr : p.isReply = false) :
      Course fs c p o d :=
    .same hc hl fun vershex reply hp => by rw [hp] at hr; cases hr
  cases p with
  | nop => exact hsa _ (SameCore.refl c) rfl rfl
  | registerShadowStatus _ => exact .same ⟨rfl, rfl, rfl, rfl⟩ rfl fun _ _ h => (nomatch h)
  | registerShadow vershex reply => exact course_registered hru hs
  | logRotate => exact hsa _ (SameCore.refl c) rfl rfl
  | metachangesLog version line => exact course_metachangesLog hru hs
  | endSession => exact hsa _ sameCore_killSession rfl rfl
  | downloadStartError => exact hsa _ ⟨rfl, rfl, rfl, rfl⟩ rfl rfl
  | downloadStart filesize =>
    unfold gotpacket downloadStart at hs ⊢
    dsimp only at hs ⊢
    split_ifs at hs ⊢
    · exact hsa _ ⟨rfl, rfl, rfl, rfl⟩ rfl rfl
    · exact hsa _ ⟨rfl, rfl, rfl, rfl⟩ rfl rfl
    · exact (course_downloadNext rfl rfl hs).of_core ⟨rfl, rfl, rfl, rfl⟩
  | downloadData offset leng crcMatches =>
    unfold gotpacket downloadData at hs ⊢
    dsimp only at hs ⊢
    split_ifs at hs ⊢
    · exact hsa _ ⟨rfl, rfl, rfl, rfl⟩ rfl rfl
    · exact hsa _ ⟨rfl, rfl, rfl, rfl⟩ rfl rfl
    · exact (course_downloadNext rfl rfl hs).of_core ⟨rfl, rfl, rfl, rfl⟩
    · exact (course_downloadNext rfl rfl hs).of_core ⟨rfl, rfl, rfl, rfl⟩
  | changelogApplyError status =>
    unfold gotpacket changelogApplyError at hs
    dsimp only at hs
    split_ifs at hs
    rw [state_forceMetadataDownload] at hs
    cases hs
  | malformed => exact hsa _ ⟨rfl, rfl, rfl, rfl⟩ rfl rfl

/-! ## Registrations -/

/-- the queue only grows, and not by registrations -/
def Adds (c d : MasterConn M) : Prop :=
  ∃ packets, d.output = c.output ++ packets ∧ ∀ q ∈ packets, ∀ version, q ≠ .registerShadow version

theorem adds_of_output (h : d.output = c.output) : Adds c d := ⟨[], by rw [h, List.append_nil], by simp⟩

theorem adds_of_packet {q : ToMaster} (h : d.output = c.output ++ [q])
    (hq : ∀ version, q ≠ .registerShadow version) : Adds c d :=
  ⟨[q], h, by simpa using hq⟩

theorem Adds.trans {e : MasterConn M} (h : Adds c d) (h' : Adds d e) : Adds c e := by
  obtain ⟨a, ha, hr⟩ := h
  obtain ⟨b, hb, hrb⟩ := h'
  refine ⟨a ++ b, by rw [hb, ha, List.append_assoc], fun q hq => ?_⟩
  rcases List.mem_append.mp hq with hq | hq
  · exact hr q hq
  · exact hrb q hq

theorem Adds.registers (h : Adds c d) : d.registers = c.registers := by
  obtain ⟨packets, ho, hp⟩ := h
  have hn : packets.filter ToMaster.isRegister = [] := by
    refine List.filter_eq_nil_iff.mpr fun p hm => ?_
    cases p with
    | registerShadow version => exact absurd rfl (hp _ hm version)
    | _ => exact Bool.false_ne_true
  rw [MasterConn.registers, ho, List.filter_append, hn, List.append_nil, MasterConn.registers]

theorem adds_killSession : Adds c c.killSession := by
  unfold killSession
  split_ifs <;> exact adds_of_output rfl

theorem adds_forceMetadataDownload : Adds c c.forceMetadataDownload := by
  unfold forceMetadataDownload
  cases c.metadata with
  | none => exact adds_of_output rfl
  | some m => exact Adds.trans (adds_of_output rfl) adds_killSession

theorem adds_handleChangelogApplyError : Adds c (c.handleChangelogApplyError status) := by
  unfold handleChangelogApplyError
  split_ifs
  · exact adds_forceMetadataDownload
  · exact adds_of_packet rfl fun _ h => (nomatch h)

theorem adds_intSendMatoclport : Adds c (c.intSendMatoclport resolves) := by
  unfold intSendMatoclport
  split_ifs
  · exact adds_of_output rfl
  · exact adds_of_packet rfl fun _ h => (nomatch h)

theorem adds_downloadInit : Adds c (c.downloadInit filenum) := by
  unfold downloadInit
  split_ifs <;> first | exact adds_of_output rfl | exact adds_of_packet rfl fun _ h => (nomatch h)

theorem adds_downloadEnd : Adds c c.downloadEnd := adds_of_packet rfl fun _ h => (nomatch h)

theorem adds_downloadNext : Adds c (c.downloadNext fs o) := by
  unfold downloadNext
  split_ifs
  · exact adds_downloadEnd
  · refine (adds_downloadEnd).trans ?_
    generalize c.downloadEnd = d
    unfold downloadedFile
    split
    · exact adds_downloadInit
    · exact adds_downloadInit
    · exact adds_downloadInit
    · split_ifs
      · unfold loadDownloaded
        split
        · exact adds_of_output rfl
        · exact Adds.trans (adds_of_output rfl) adds_handleChangelogApplyError
      · exact adds_of_output rfl
    · exact adds_of_output rfl
  · exact adds_of_packet rfl fun _ h => (nomatch h)

theorem adds_gotpacket (c : MasterConn M) (p : FromMaster L) : Adds c (c.gotpacket fs p o) := by
  have hn (d : MasterConn M) (h : d.output = c.output) : Adds c (d.downloadNext fs o) :=
    Adds.trans (adds_of_output h) adds_downloadNext
  have he (d : MasterConn M) (h : d.output = c.output) : Adds c d.downloadEnd :=
    Adds.trans (adds_of_output h) adds_downloadEnd
  cases p with
  | registerShadow vershex reply =>
    have hp : Adds c (intSendMatoclport { c with version := vershex } o.resolves) :=
      Adds.trans (adds_of_output rfl) adds_intSendMatoclport
    unfold gotpacket registered
    dsimp only
    split_ifs
    · split
      · exact hp.trans (adds_of_output rfl)
      · split_ifs
        · exact hp.trans adds_forceMetadataDownload
        · exact hp
    · exact hp
  | metachangesLog version line =>
    unfold gotpacket metachangesLog
    dsimp only
    split_ifs
    · exact adds_handleChangelogApplyError
    · split
      · exact adds_of_output rfl
      · split
        · exact adds_of_output rfl
        · exact Adds.trans (adds_of_output rfl) adds_handleChangelogApplyError
    · exact adds_of_output rfl
  | endSession => exact adds_killSession
  | downloadStart filesize =>
    unfold gotpacket downloadStart
    dsimp only
    split_ifs
    · exact adds_of_output rfl
    · exact he _ rfl
    · exact hn _ rfl
  | downloadData offset leng crcMatches =>
    unfold gotpacket downloadData
    dsimp only
    split_ifs
    · exact adds_of_output rfl
    · exact he _ rfl
    · exact hn _ rfl
    · exact hn _ rfl
  | changelogApplyError status =>
    unfold gotpacket changelogApplyError
    dsimp only
    split_ifs
    · exact adds_forceMetadataDownload
    · exact adds_of_output rfl
  | _ => exact adds_of_output rfl

/-! ## Events of the shadow alone -/

theorem connected_synchronized (hr : (c.connected fs).running) (hs : (c.connected fs).state = .synchronized) :
    SameCore c (c.connected fs) ∧
      ∃ m, c.metadata = some m ∧ (c.connected fs).registers = [.registerShadow (fs.getversion m)] := by
  unfold connected at hr hs ⊢
  dsimp only at hr hs ⊢
  split_ifs at hr hs ⊢ with hz hp
  · -- without a log version the download begins
    exfalso
    have hmo : (sendregister fs { c with mode := .header, version := 0, output := [] }).mode = .header := by
      unfold sendregister
      dsimp only
      split_ifs <;> first | rfl | (split <;> rfl)
    have hi : (sendregister fs { c with mode := .header, version := 0, output := [] }).downloading = none := by
      unfold sendregister
      dsimp only
      split_ifs <;> first | rfl | (split <;> rfl)
    unfold downloadInit at hs
    rw [if_pos ⟨.inl hmo, hi⟩] at hs
    cases hs
  · cases hs
  · unfold sendregister at hr hs ⊢
    dsimp only at hr hs ⊢
    split_ifs at hr hs ⊢ with hst
    · cases hm : c.metadata with
      | none =>
        rw [hm] at hr
        cases hr
      | some m => exact ⟨⟨rfl, hm.symm, rfl, rfl⟩, m, rfl, rfl⟩
    · exact absurd hs hst

theorem askAgain_synchronized {expired : Bool} (h : (c.askAgain expired).state = .synchronized) :
    c.askAgain expired = c := by
  unfold askAgain at h ⊢
  split_ifs at h ⊢
  · cases h
  · rfl

theorem core_handle (e : Event M L) (hp : ∀ p o, e ≠ .packet p o) (hr : (c.handle fs e).running)
    (hs : (c.handle fs e).state = .synchronized) : SameCore c (c.handle fs e) := by
  cases e with
  | connecttest success =>
    unfold handle connecttest at hr hs ⊢
    dsimp only at hr hs ⊢
    split_ifs at hr hs ⊢
    · exact (connected_synchronized hr hs).1
    · exact ⟨rfl, rfl, rfl, rfl⟩
    · exact SameCore.refl c
  | reconnect attempt expired =>
    unfold handle reconnect at hr hs ⊢
    dsimp only at hr hs ⊢
    have ha := askAgain_synchronized hs
    rw [ha] at hr hs ⊢
    split_ifs at hr hs ⊢
    · cases attempt with
      | failed => exact SameCore.refl c
      | immediate => exact (connected_synchronized hr hs).1
      | inProgress => exact ⟨rfl, rfl, rfl, rfl⟩
    · exact SameCore.refl c
  | sessionsdownloadinit =>
    unfold handle sessionsdownloadinit
    dsimp only
    split_ifs
    · exact sameCore_downloadInit (by decide)
    · exact SameCore.refl c
  | header =>
    unfold handle
    split_ifs <;> exact ⟨rfl, rfl, rfl, rfl⟩
  | packet p o => exact absurd rfl (hp p o)
  | reloadPort resolves =>
    unfold handle intSendMatoclport
    dsimp only
    split_ifs <;> exact ⟨rfl, rfl, rfl, rfl⟩
  | lost => exact sameCore_killSession
  | close =>
    unfold handle close
    split_ifs <;> exact ⟨rfl, rfl, rfl, rfl⟩

theorem adds_handle (e : Event M L) (hp : ∀ p o, e ≠ .packet p o) (ho : c.mode = .header ∨ c.mode = .data) :
    Adds c (c.handle fs e) := by
  have hm (mode : Mode) (h : mode ≠ .header ∧ mode ≠ .data) : ¬ c.mode = mode := by
    rintro rfl
    exact ho.elim h.1 h.2
  cases e with
  | connecttest success =>
    unfold handle
    dsimp only
    rw [if_neg (hm .connecting (by decide))]
    exact adds_of_output rfl
  | reconnect attempt expired =>
    unfold handle reconnect askAgain
    dsimp only
    rw [if_neg (hm .free (by decide))]
    split_ifs
    · exact adds_of_packet rfl fun _ h => (nomatch h)
    · exact adds_of_output rfl
  | sessionsdownloadinit =>
    unfold handle sessionsdownloadinit
    dsimp only
    split_ifs
    · exact adds_downloadInit
    · exact adds_of_output rfl
  | header =>
    unfold handle
    split_ifs <;> exact adds_of_output rfl
  | packet p o => exact absurd rfl (hp p o)
  | reloadPort resolves => exact adds_intSendMatoclport
  | lost => exact adds_killSession
  | close =>
    unfold handle close
    rw [if_neg (hm .kill (by decide))]
    exact adds_of_output rfl

theorem handle_connects (e : Event M L) (hp : ∀ p o, e ≠ .packet p o) (hold : ¬ (c.mode = .header ∨ c.mode = .data))
    (hn : (c.handle fs e).mode = .header ∨ (c.handle fs e).mode = .data)
    (hs : (c.handle fs e).state = .synchronized) : c.handle fs e = c.connected fs := by
  cases e with
  | connecttest success =>
    unfold handle connecttest at hn ⊢
    dsimp only at hn ⊢
    split_ifs at hn ⊢
    · rfl
    · rcases hn with h | h <;> cases h
    · exact absurd hn hold
  | reconnect attempt expired =>
    unfold handle reconnect at hn hs ⊢
    dsimp only at hn hs ⊢
    rw [askAgain_synchronized hs] at hn ⊢
    split_ifs at hn ⊢
    · cases attempt with
      | failed => exact absurd hn hold
      | immediate => rfl
      | inProgress => rcases hn with h | h <;> cases h
    · exact absurd hn hold
  | sessionsdownloadinit =>
    unfold handle sessionsdownloadinit downloadInit at hn
    refine absurd ?_ hold
    split_ifs at hn <;> exact hn
  | header =>
    unfold handle at hn
    dsimp only at hn
    split_ifs at hn with hh
    · exact absurd (.inl hh) hold
    · exact absurd hn hold
  | packet p o => exact absurd rfl (hp p o)
  | reloadPort resolves =>
    unfold handle intSendMatoclport at hn
    dsimp only at hn
    refine absurd ?_ hold
    split_ifs at hn <;> exact hn
  | lost =>
    unfold handle killSession at hn
    dsimp only at hn
    split_ifs at hn
    · exact absurd hn hold
    · rcases hn with h | h <;> cases h
  | close =>
    unfold handle close at hn
    dsimp only at hn
    split_ifs at hn
    · rcases hn with h | h <;> cases h
    · exact absurd hn hold

end MasterConn

/-! ## What `restore` accepts -/

/-- the counters of `restore` do not lie beyond the metadata -/
def NotAhead (fs : FileSystem M L) (m : M) (v : Counters) : Prop :=
  v.currentFsVersion = 0 ∨ v.nextFsVersion = 0 ∨
    (v.currentFsVersion < fs.getversion m ∧ v.nextFsVersion ≤ fs.getversion m)

theorem restore_accepts {fs : FileSystem M L} {m m' : M} {v v' : Counters} {w : UInt64} {line : L} (h : NotAhead fs m v)
    (hm : fs.getversion m ≠ 0) (hw : fs.getversion m ≤ w)
    (hr : fs.restore m v ⟨w, line, .dontIgnoreAnyErrors⟩ = (m', v', .ok)) :
    w = fs.getversion m ∧ fs.applied m ⟨w, line, .dontIgnoreAnyErrors⟩ = some m' ∧ fs.getversion m' = w + 1 ∧
      v' = ⟨fs.getversion m', w⟩ := by
  obtain ⟨cur, hc, hcu, hnex⟩ : ∃ d, fs.counters m v = d ∧ d.currentFsVersion < fs.getversion m ∧
      d.nextFsVersion ≤ fs.getversion m := by
    refine ⟨_, rfl, ?_⟩
    unfold FileSystem.counters
    split_ifs with hu
    · exact ⟨by grind, UInt64.le_refl _⟩
    · rcases h with h | h | h
      · exact absurd (Or.inl h) hu
      · exact absurd (Or.inr h) hu
      · exact h
  unfold FileSystem.restore at hr
  rw [hc] at hr
  have hn : ¬ w < cur.currentFsVersion := by grind
  have hle : cur.nextFsVersion ≤ w := by grind
  have hne : ¬ w = cur.currentFsVersion := by grind
  rw [if_neg hn, if_pos hle, if_neg hne] at hr
  by_cases hg : cur.currentFsVersion + 1 < w
  · rw [if_pos hg] at hr
    cases hr
  have he : w = fs.getversion m := by grind
  rw [if_neg hg] at hr
  cases hl : fs.restoreLine m line with
  | none =>
    rw [hl] at hr
    cases hr
  | some r =>
    obtain ⟨m1, status⟩ := r
    rw [hl] at hr
    dsimp only at hr
    split_ifs at hr with hs hv
    · cases hr
      exact absurd rfl hs
    · cases hr
    · cases hr
      have ho : status = .ok := not_not.mp hs
      subst ho
      exact ⟨he, by rw [FileSystem.applied, hl], (not_not.mp hv).symm, rfl⟩

theorem toNat_succ {v : UInt64} (h : v + 1 ≠ 0) : (v + 1).toNat = v.toNat + 1 := by
  have ho : UInt64.toNat 1 = 1 := rfl
  have hl := v.toNat_lt
  rw [UInt64.toNat_add, ho]
  refine Nat.mod_eq_of_lt (lt_of_le_of_ne (by omega) fun hm => h (UInt64.toNat_inj.mp ?_))
  rw [UInt64.toNat_add, ho, hm]
  rfl

end SaunaFS.Shadow
