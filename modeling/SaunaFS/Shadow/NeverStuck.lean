/-
Can a shadow be connected, not synchronised, and have nothing under way that would change this? A packet that answers a
request comes only while such a request is outstanding; everything else is arbitrary.
-/
import SaunaFS.Shadow.MasterConn

namespace SaunaFS.Shadow

open SaunaFS.Changelog (FileSystem restoreReset)
open List ToMaster

/-! ## Requests and their answers -/

namespace ToMaster

def isStart : ToMaster → Bool
  | downloadStart _ => true
  | _ => false

def isData : ToMaster → Bool
  | downloadData _ _ => true
  | _ => false

def isApplyError : ToMaster → Bool
  | changelogApplyError _ => true
  | _ => false

/-- the requests for a file -/
def isDownload (p : ToMaster) : Bool := p.isStart || p.isData

end ToMaster

/-- the requests that a packet can be the answer to, for a packet that is one -/
def FromMaster.answers {L : Type} : FromMaster L → Option (ToMaster → Bool)
  | downloadStartError => some isStart
  | downloadStart _ => some isStart
  | downloadData _ _ _ => some isData
  | changelogApplyError _ => some isApplyError
  | registerShadowStatus _ => some isRegister
  | registerShadow _ _ => some isRegister
  | _ => none

namespace MasterConn

variable {M L : Type} (fs : FileSystem M L)

/-- the packet is possible: it answers nothing, or something that was asked -/
def expected (c : MasterConn M) (p : FromMaster L) : Bool :=
  match p.answers with
  | none => true
  | some asked => c.output.any asked

/-- the request that the packet answers is no longer outstanding -/
def answered (c : MasterConn M) (p : FromMaster L) : MasterConn M :=
  match p.answers with
  | none => c
  | some asked => { c with output := c.output.eraseP asked }

/-- one event at a shadow whose master answers requests only -/
def shadowStep (c : MasterConn M) : Event M L → MasterConn M
  | .packet p o => if c.expected p then (c.answered p).step fs (.packet p o) else c
  | e => c.step fs e

def afterRun (events : List (Event M L)) : MasterConn M := Stepwise.run (shadowStep fs) init events

/-- a file is being downloaded, and a request for it is outstanding -/
def FileRequested (c : MasterConn M) : Prop :=
  ∃ filenum, c.downloading = some filenum ∧
    (.downloadStart filenum ∈ c.output ∨ ∃ offset leng, .downloadData offset leng ∈ c.output)

def DumpRequested (c : MasterConn M) : Prop := ∃ status, .changelogApplyError status ∈ c.output

/-- something is under way that will end in a new attempt to get the metadata -/
def UnderWay (c : MasterConn M) : Prop :=
  c.FileRequested ∨ (c.state = .dumpRequestPending ∧ c.DumpRequested) ∨
    (c.state = .limbo ∧ ∀ attempt, (c.reconnect fs attempt true).state = .dumpRequestPending ∧
      (c.reconnect fs attempt true).DumpRequested)

/-! ## The condition -/

/-- a connection that begins now would not start a download, and nobody else would -/
def Forgotten (c : MasterConn M) : Prop := c.state = .downloading ∧ c.lastlogversion ≠ 0

/-- the event does not break the download chain off -/
def Allowed (c : MasterConn M) : Event M L → Prop
  | .connecttest success => c.mode = .connecting → success = true → ¬ c.Forgotten
  | .reconnect attempt _ => c.mode = .free → attempt = .immediate → ¬ c.Forgotten
  | .packet .downloadStartError _ => c.state ≠ .downloading
  | .packet (.downloadStart _) o => c.state = .downloading → o.opens = true ∧ o.closes = true ∧ o.renames = true
  | .packet (.downloadData _ _ crcMatches) o =>
    c.state = .downloading → o.closes = true ∧ o.renames = true ∧
      (o.writes = true ∧ crcMatches = true ∧ o.syncs = true ∨ c.downloadretrycnt < 5)
  | _ => True

/-! ## The invariant -/

/-- the file requests that are outstanding fit to what is being downloaded -/
def Requests (c : MasterConn M) : Prop :=
  match c.downloading with
  | none => c.output.filter isDownload = []
  | some filenum =>
    c.output.filter isDownload = [.downloadStart filenum] ∨
      ∃ offset leng, c.output.filter isDownload = [.downloadData offset leng]

structure AtWork (c : MasterConn M) : Prop where
  state : c.state ≠ .none
  requests : c.Requests
  loading : c.state = .downloading → c.downloading ≠ none
  dump : c.state = .dumpRequestPending → c.DumpRequested

/-- a process that has not ended -/
structure Sound (c : MasterConn M) : Prop where
  fresh : c.state = .none → c.lastlogversion = 0
  atWork : c.mode = .header ∨ c.mode = .data → c.AtWork

variable {fs} {c : MasterConn M} {o : System M L} {filenum : DownloadFile}

theorem sound_of_mode (hf : c.state = .none → c.lastlogversion = 0) (hm : c.mode = .free ∨ c.mode = .connecting ∨
    c.mode = .kill) : c.Sound := by
  refine ⟨hf, fun h => ?_⟩
  rcases h with h | h <;> rcases hm with h' | h' | h' <;> rw [h] at h' <;> cases h'

theorem AtWork.sound (h : c.AtWork) : c.Sound := ⟨fun hn => absurd hn h.state, fun _ => h⟩

/-- the goal of every handler: the process has ended or is sound -/
def Good (c : MasterConn M) : Prop := c.running = true → c.Sound

theorem Sound.good (h : c.Sound) : c.Good := fun _ => h

theorem AtWork.good (h : c.AtWork) : c.Good := h.sound.good

theorem good_of_mode (hf : c.state = .none → c.lastlogversion = 0) (hm : c.mode = .free ∨ c.mode = .connecting ∨
    c.mode = .kill) : c.Good :=
  (sound_of_mode hf hm).good

theorem good_ended (h : c.running = false) : c.Good := fun hr => absurd (h.symm.trans hr) (by decide)

theorem sound_killSession (hf : c.state = .none → c.lastlogversion = 0) : c.killSession.Sound := by
  unfold killSession
  split_ifs with h
  · exact sound_of_mode hf (.inl h)
  · exact sound_of_mode hf (.inr (.inr rfl))

theorem good_forceMetadataDownload : c.forceMetadataDownload.Good := by
  unfold forceMetadataDownload
  cases c.metadata with
  | none => exact good_ended rfl
  | some m => exact (sound_killSession fun _ => rfl).good

/-! ## The handlers -/

variable {p : ToMaster} {l : List ToMaster} {e : Event M L}

theorem requests_append (hp : p.isDownload = false) (h : c.Requests) : (c.createpacket p).Requests := by
  unfold Requests createpacket at *
  simpa only [filter_append, filter_cons, hp, Bool.false_eq_true, if_false, filter_nil, append_nil] using h

theorem atWork_requestMetadataDump (h : c.Requests) : c.requestMetadataDump.AtWork where
  state := fun h => (nomatch h)
  requests := requests_append rfl h
  loading := fun h => (nomatch h)
  dump := fun _ => ⟨c.errorStatus, mem_append_right _ (mem_singleton_self _)⟩

theorem good_handleChangelogApplyError {status : Status} (h : c.Requests) :
    (c.handleChangelogApplyError status).Good := by
  unfold handleChangelogApplyError
  split_ifs
  · exact good_forceMetadataDownload
  · exact AtWork.good (atWork_requestMetadataDump h)

theorem atWork_downloadInit (ho : c.mode = .header ∨ c.mode = .data) (hi : c.downloading = none)
    (hf : c.output.filter isDownload = []) (hs : filenum ≠ .metadata → c.state ≠ .none)
    (hd : c.state = .dumpRequestPending → c.DumpRequested) : (c.downloadInit filenum).AtWork := by
  unfold downloadInit
  rw [if_pos ⟨ho, hi⟩]
  constructor
  · dsimp only [createpacket]
    split_ifs with h
    · exact fun h => (nomatch h)
    · exact hs h
  · refine .inl ?_
    simp only [createpacket, filter_append, hf, nil_append]
    rfl
  · exact fun _ h => (nomatch h)
  · dsimp only [createpacket]
    split_ifs
    · exact fun h => (nomatch h)
    · intro h
      obtain ⟨status, hm⟩ := hd h
      exact ⟨status, mem_append_left _ hm⟩

/-- a connection whose file request has just been answered -/
structure Between (c : MasterConn M) : Prop where
  online : c.mode = .header ∨ c.mode = .data
  state : c.state ≠ .none
  file : c.output.filter isDownload = []
  downloading : c.downloading ≠ none
  dump : c.state = .dumpRequestPending → c.DumpRequested

theorem Between.filter_downloadEnd (h : c.Between) : c.downloadEnd.output.filter isDownload = [] := by
  simp only [downloadEnd, createpacket, filter_append, h.file, nil_append]
  rfl

theorem Between.dump_downloadEnd (h : c.Between) (hs : c.state = .dumpRequestPending) :
    c.downloadEnd.DumpRequested := by
  obtain ⟨status, hm⟩ := h.dump hs
  exact ⟨status, mem_append_left _ hm⟩

theorem Between.downloadEnd (h : c.Between) (hs : c.state ≠ .downloading) : c.downloadEnd.AtWork :=
  ⟨h.state, h.filter_downloadEnd, fun hl => absurd hl hs, h.dump_downloadEnd⟩

theorem good_loadDownloaded {directory : Directory M L} (h : c.output.filter isDownload = [])
    (hi : c.downloading = none) : (c.loadDownloaded fs directory).Good := by
  have hr : c.Requests := by
    unfold Requests
    rw [hi]
    exact h
  unfold loadDownloaded
  split
  · refine AtWork.good ⟨fun h => (nomatch h), hr, fun h => (nomatch h), fun h => (nomatch h)⟩
  · exact good_handleChangelogApplyError hr

section

variable (h : c.Between)
include h

theorem Between.good_downloadedFile (hr : c.state = .downloading → o.renames) :
    (c.downloadEnd.downloadedFile fs o c.downloading).Good := by
  have hn (filenum : DownloadFile) : (c.downloadEnd.downloadInit filenum).Good :=
    AtWork.good (atWork_downloadInit h.online rfl h.filter_downloadEnd (fun _ => h.state) h.dump_downloadEnd)
  cases hf : c.downloading with
  | none => exact absurd hf h.downloading
  | some filenum =>
    cases filenum with
    | metadata | changelog | changelog1 => exact hn _
    | sessions =>
      unfold downloadedFile
      split_ifs with hl
      · exact good_loadDownloaded h.filter_downloadEnd rfl
      · exact AtWork.good (h.downloadEnd fun hs => hl ⟨hr hs, hs⟩)

theorem Between.good_downloadNext
    (ho : c.state = .downloading → o.closes ∧ o.renames) : (c.downloadNext fs o).Good := by
  unfold downloadNext
  split_ifs with he hc
  · exact AtWork.good (h.downloadEnd fun hs => absurd (ho hs).1 (by rw [hc.2]; decide))
  · exact h.good_downloadedFile fun hs => (ho hs).2
  · obtain ⟨filenum, hf⟩ := Option.ne_none_iff_exists'.mp h.downloading
    refine AtWork.good ⟨h.state, ?_, fun _ => h.downloading, fun hs => ?_⟩
    · unfold Requests createpacket
      simp only [hf, filter_append, h.file, nil_append]
      exact .inr ⟨_, _, rfl⟩
    · obtain ⟨status, hm⟩ := h.dump hs
      exact ⟨status, mem_append_left _ hm⟩

theorem Between.update {retry : ℕ} {fd : Bool} {size offset : UInt64} :
    Between { c with downloadretrycnt := retry, metafd := fd, filesize := size, dloffset := offset } :=
  ⟨h.online, h.state, h.file, h.downloading, h.dump⟩

theorem Between.good_downloadStart (filesize : UInt64) (ho : c.state = .downloading → o.opens ∧ o.closes ∧ o.renames) :
    (c.downloadStart fs filesize o).Good := by
  unfold downloadStart
  rw [if_neg h.downloading]
  split_ifs with hop
  · exact AtWork.good ((h.update).downloadEnd fun hs => absurd (ho hs).1 (by rw [hop]; decide))
  · exact (h.update).good_downloadNext fun hs => (ho hs).2

theorem Between.good_downloadData (offset : UInt64) (leng : UInt32) (crcMatches : Bool)
    (ho : c.state = .downloading → o.closes ∧ o.renames ∧
      (o.writes ∧ crcMatches ∧ o.syncs ∨ c.downloadretrycnt < 5)) :
    (c.downloadData fs offset leng crcMatches o).Good := by
  have hn (hst : c.state = .downloading) := (⟨(ho hst).1, (ho hst).2.1⟩ : o.closes ∧ o.renames)
  unfold downloadData
  split_ifs with hb hf hr
  · exact good_of_mode (fun hno => absurd hno h.state) (.inr (.inr rfl))
  · refine AtWork.good (h.downloadEnd fun hst => ?_)
    rcases (ho hst).2.2 with hok | hl
    · rcases hf with hw | hc | hs
      · rw [hok.1] at hw; cases hw
      · rw [hok.2.1] at hc; cases hc
      · rw [hok.2.2] at hs; cases hs
    · omega
  · exact (h.update).good_downloadNext hn
  · exact (h.update).good_downloadNext hn

end

theorem AtWork.good_metachangesLog (h : c.AtWork) {version : UInt64} {entry : L} :
    (c.metachangesLog fs version entry).Good := by
  unfold metachangesLog
  split_ifs with hg hs
  · exact good_handleChangelogApplyError h.requests
  · cases c.metadata with
    | none => exact good_ended rfl
    | some m =>
      dsimp only
      split
      · exact AtWork.good ⟨h.state, h.requests, h.loading, h.dump⟩
      · exact good_handleChangelogApplyError h.requests
  · exact AtWork.good ⟨h.state, h.requests, h.loading, h.dump⟩

theorem AtWork.good_registered (h : c.AtWork) {masterVersion : UInt32} {masterMetadataVersion : UInt64}
    {resolves : Bool} : (c.registered fs masterVersion masterMetadataVersion resolves).Good := by
  have hp : (intSendMatoclport { c with version := masterVersion } resolves).AtWork := by
    unfold intSendMatoclport
    split_ifs
    · exact ⟨h.state, h.requests, h.loading, h.dump⟩
    · refine ⟨h.state, requests_append rfl h.requests, h.loading, fun hs => ?_⟩
      obtain ⟨status, hm⟩ := h.dump hs
      exact ⟨status, mem_append_left _ hm⟩
  unfold registered
  dsimp only
  split_ifs
  · split
    · exact good_ended rfl
    · split_ifs
      · exact good_forceMetadataDownload
      · exact hp.good
  · exact hp.good

/-! ## Answers -/

variable {asked : ToMaster → Bool}

theorem filter_eraseP_of_ne (hd : ∀ p, asked p → p.isDownload = false) :
    (l.eraseP asked).filter isDownload = l.filter isDownload := by
  induction l with
  | nil => rfl
  | cons p l ih =>
    by_cases hp : asked p
    · rw [eraseP_cons_of_pos hp, filter_cons, hd p hp]
      rfl
    · rw [eraseP_cons_of_neg (by simpa using hp), filter_cons, filter_cons, ih]

theorem filter_eraseP_of_single (hs : ∀ p, asked p → p.isDownload) {q : ToMaster} (hl : l.filter isDownload = [q])
    (han : l.any asked) : (l.eraseP asked).filter isDownload = [] := by
  obtain ⟨p, hp, ha⟩ := any_eq_true.mp han
  have hle : ((l.eraseP asked).filter isDownload).length + 1 = (l.filter isDownload).length := by
    clear hl
    induction l with
    | nil => cases hp
    | cons x l ih =>
      by_cases hx : asked x
      · rw [eraseP_cons_of_pos hx, filter_cons, hs x hx]
        rfl
      · have hp' : p ∈ l := by
          rcases mem_cons.mp hp with rfl | h
          · exact absurd ha hx
          · exact h
        rw [eraseP_cons_of_neg (by simpa using hx), filter_cons, filter_cons]
        have := ih (any_eq_true.mpr ⟨p, hp', ha⟩) hp'
        split_ifs
        · simp only [length_cons]
          omega
        · exact this
  rw [hl, length_singleton] at hle
  exact length_eq_zero_iff.mp (by omega)

theorem mem_eraseP_of_ne (hp : asked p = false) (h : p ∈ l) : p ∈ l.eraseP asked :=
  (mem_eraseP_of_neg (by simp [hp])).mpr h

theorem AtWork.requests_eraseP (h : c.AtWork) (hd : ∀ p, asked p → p.isDownload = false) :
    Requests { c with output := c.output.eraseP asked } := by
  have := h.requests
  unfold Requests at this ⊢
  rwa [filter_eraseP_of_ne hd]

theorem AtWork.between (h : c.AtWork)
    (hsu : ∀ p, asked p → p.isDownload) (hno : ∀ status, asked (.changelogApplyError status) = false)
    (han : c.output.any asked) : Between { c with output := c.output.eraseP asked, mode := .header } := by
  have hr := h.requests
  unfold Requests at hr
  refine ⟨.inl rfl, h.state, ?_, ?_, fun hst => ?_⟩
  · cases hf : c.downloading with
    | none =>
      rw [hf] at hr
      obtain ⟨p, hp, ha⟩ := any_eq_true.mp han
      have : p ∈ c.output.filter isDownload := mem_filter.mpr ⟨hp, hsu p ha⟩
      rw [hr] at this
      cases this
    | some filenum =>
      rw [hf] at hr
      rcases hr with hs | ⟨offset, leng, hs⟩
      · exact filter_eraseP_of_single hsu hs han
      · exact filter_eraseP_of_single hsu hs han
  · intro hn
    rw [show c.downloading = none from hn] at hr
    obtain ⟨p, hp, ha⟩ := any_eq_true.mp han
    have : p ∈ c.output.filter isDownload := mem_filter.mpr ⟨hp, hsu p ha⟩
    rw [hr] at this
    cases this
  · obtain ⟨status, hm⟩ := h.dump hst
    exact ⟨status, mem_eraseP_of_ne (hno status) hm⟩

theorem isDownload_of_isStart (p : ToMaster) (h : p.isStart) : p.isDownload := by
  rw [isDownload, h, Bool.true_or]

theorem isDownload_of_isData (p : ToMaster) (h : p.isData) : p.isDownload := by
  rw [isDownload, h, Bool.or_true]

/-! ## Steps -/

theorem AtWork.mode (h : c.AtWork) {mode : Mode} : AtWork { c with mode := mode } :=
  ⟨h.state, h.requests, h.loading, h.dump⟩

theorem AtWork.good_packet (h : c.AtWork) {p : FromMaster L} (he : c.expected p) (ho : c.Allowed (.packet p o)) :
    (gotpacket fs { c.answered p with mode := .header } p o).Good := by
  have hf (hn : c.state = .none) : c.lastlogversion = 0 := absurd hn h.state
  cases p with
  | nop => exact (h.mode).good
  | registerShadowStatus _ => exact good_of_mode hf (.inr (.inr rfl))
  | registerShadow masterVersion masterMetadataVersion =>
    have hr : Requests { c with output := c.output.eraseP isRegister } :=
      h.requests_eraseP fun p hp => by cases p <;> first | rfl | cases hp
    refine AtWork.good_registered (c := { c with output := c.output.eraseP isRegister, mode := .header })
      ⟨h.state, hr, h.loading, fun hs => ?_⟩
    · obtain ⟨status, hm⟩ := h.dump hs
      exact ⟨status, mem_eraseP_of_ne rfl hm⟩
  | logRotate => exact (h.mode).good
  | metachangesLog version entry => exact (h.mode).good_metachangesLog
  | endSession => exact Sound.good (sound_killSession (c := { c with mode := .header }) hf)
  | downloadStartError =>
    have hb := h.between isDownload_of_isStart (fun _ => rfl) he
    exact AtWork.good ⟨h.state, hb.file, fun hs => absurd hs ho, hb.dump⟩
  | downloadStart filesize =>
    exact (h.between isDownload_of_isStart (fun _ => rfl) he).good_downloadStart filesize ho
  | downloadData offset leng crcMatches =>
    exact (h.between isDownload_of_isData (fun _ => rfl) he).good_downloadData offset leng crcMatches ho
  | changelogApplyError status =>
    unfold gotpacket changelogApplyError
    dsimp only
    split_ifs
    · exact good_forceMetadataDownload
    · refine AtWork.good ⟨fun h => (nomatch h), h.requests_eraseP ?_, fun h => (nomatch h), fun h => (nomatch h)⟩
      intro p hp
      cases p <;> first | rfl | cases hp
  | malformed => exact good_of_mode hf (.inr (.inr rfl))

theorem sendregister_spec {fs : FileSystem M L} :
    (c.sendregister fs).state = c.state ∧ (c.sendregister fs).lastlogversion = c.lastlogversion ∧
      (c.sendregister fs).mode = c.mode ∧ (c.sendregister fs).downloading = none ∧
      (c.sendregister fs).output.filter isDownload = c.output.filter isDownload := by
  have ha (version : UInt64) :
      (c.output ++ [registerShadow version]).filter isDownload = c.output.filter isDownload := by
    rw [filter_append]
    exact append_nil _
  unfold sendregister
  dsimp only
  split_ifs
  · cases c.metadata with
    | none => exact ⟨rfl, rfl, rfl, rfl, rfl⟩
    | some m => exact ⟨rfl, rfl, rfl, rfl, ha _⟩
  · exact ⟨rfl, rfl, rfl, rfl, ha _⟩

theorem good_connected (hfr : c.state = .none → c.lastlogversion = 0) (ho : ¬ c.Forgotten) : (c.connected fs).Good := by
  unfold connected
  obtain ⟨hs, hla, hm, hi, hf⟩ := sendregister_spec
  generalize sendregister fs { c with mode := .header, version := 0, output := [] } = d at *
  have hr : d.Requests := by
    unfold Requests
    rw [hi]
    exact hf
  dsimp only
  split_ifs with hz hp
  · unfold downloadInit
    rw [if_pos ⟨.inl hm, hi⟩]
    refine AtWork.good ⟨fun h => (nomatch h), .inl ?_, fun _ h => (nomatch h), fun h => (nomatch h)⟩
    simp only [createpacket, filter_append, hf, filter_nil, nil_append]
    rfl
  · exact AtWork.good (atWork_requestMetadataDump hr)
  · rw [hla] at hz
    refine AtWork.good ⟨fun hn => hz (hfr (hs ▸ hn)), hr, fun hl => ?_, fun h => absurd h hp⟩
    exact absurd ⟨hs ▸ hl, hz⟩ ho

theorem Sound.good_handle (h : c.Sound) (hp : ∀ p o, e ≠ .packet p o) (hok : c.Allowed e) : (c.handle fs e).Good := by
  cases e with
  | connecttest success =>
    unfold handle connecttest
    dsimp only
    split_ifs with hm hs
    · exact good_connected h.fresh (hok hm hs)
    · exact good_of_mode h.fresh (.inl rfl)
    · exact h.good
  | reconnect attempt expired =>
    have ha (d : MasterConn M) (hd : d.Good) : (d.askAgain expired).Good := by
      unfold askAgain
      split_ifs with hl
      · exact fun hru => (atWork_requestMetadataDump ((hd hru).atWork hl.1).requests).sound
      · exact hd
    refine ha _ ?_
    split_ifs with hf
    · cases attempt with
      | failed => exact h.good
      | immediate => exact good_connected h.fresh (hok hf rfl)
      | inProgress => exact good_of_mode h.fresh (.inr (.inl rfl))
    · exact h.good
  | sessionsdownloadinit =>
    unfold handle sessionsdownloadinit
    dsimp only
    split_ifs with hsy
    · by_cases hi : (c.mode = .header ∨ c.mode = .data) ∧ c.downloading = none
      · have hw := h.atWork hi.1
        have hr := hw.requests
        unfold Requests at hr
        rw [hi.2] at hr
        exact AtWork.good (atWork_downloadInit hi.1 hi.2 hr (fun _ => hw.state) hw.dump)
      · rw [downloadInit, if_neg hi]
        exact h.good
    · exact h.good
  | header =>
    unfold handle
    dsimp only
    split_ifs with hm
    · exact ((h.atWork (.inl hm)).mode).good
    · exact h.good
  | packet p o => exact absurd rfl (hp p o)
  | reloadPort resolves =>
    unfold handle intSendMatoclport
    dsimp only
    split_ifs
    · exact h.good
    · refine Sound.good ⟨h.fresh, fun ho => ?_⟩
      have hw := h.atWork ho
      refine ⟨hw.state, requests_append rfl hw.requests, hw.loading, fun hst => ?_⟩
      obtain ⟨status, hme⟩ := hw.dump hst
      exact ⟨status, mem_append_left _ hme⟩
  | lost => exact (sound_killSession h.fresh).good
  | close =>
    unfold handle close
    dsimp only
    split_ifs
    · exact good_of_mode h.fresh (.inl rfl)
    · exact h.good

theorem good_shadowStep (hok : c.Allowed e) (h : c.Good) : (c.shadowStep fs e).Good := by
  by_cases hr : c.running
  case neg =>
    -- a process that has ended stays as it is
    have hste (d : MasterConn M) (hd : d.running = c.running) : (d.step fs e).Good := by
      unfold step
      rw [hd, if_neg hr]
      exact fun h => absurd (hd ▸ h) hr
    cases e with
    | packet p o =>
      unfold shadowStep
      dsimp only
      split_ifs
      · refine hste _ ?_
        unfold answered
        split <;> rfl
      · exact h
    | _ => exact hste c rfl
  have hs := h hr
  cases e with
  | packet p o =>
    unfold shadowStep
    dsimp only
    split_ifs with he
    · have hru : (c.answered p).running := by
        unfold answered
        split <;> exact hr
      have hm : (c.answered p).mode = c.mode := by
        unfold answered
        split <;> rfl
      unfold step
      unfold handle receive
      dsimp only
      rw [hm]
      split_ifs with ho
      · exact (hs.atWork ho).good_packet he hok
      · -- packets come to connected sockets only
        have hst : (c.answered p).state = c.state ∧ (c.answered p).lastlogversion = c.lastlogversion := by
          unfold answered
          split <;> exact ⟨rfl, rfl⟩
        refine Sound.good ⟨fun hn => ?_, fun h' => absurd (hm ▸ h') ho⟩
        rw [hst.2]
        exact hs.fresh (hst.1 ▸ hn)
    · exact h
  | _ =>
    unfold shadowStep step
    dsimp only
    rw [if_pos hr]
    exact hs.good_handle (fun _ _ h => (nomatch h)) hok

theorem good_init : (init : MasterConn M).Good := good_of_mode (fun _ => rfl) (.inl rfl)

/-! ## What a sound connection has under way -/

theorem AtWork.underWay (h : c.AtWork) (ho : c.mode = .header ∨ c.mode = .data) (hst : c.state ≠ .synchronized) :
    c.UnderWay fs := by
  have hfr : ¬ c.mode = .free := by
    rcases ho with h | h <;> rw [h] <;> decide
  cases hs : c.state with
  | none => exact absurd hs h.state
  | synchronized => exact absurd hs hst
  | downloading =>
    obtain ⟨filenum, hf⟩ := Option.ne_none_iff_exists'.mp (h.loading hs)
    have hr := h.requests
    unfold Requests at hr
    rw [hf] at hr
    refine .inl ⟨filenum, hf, ?_⟩
    rcases hr with hsi | ⟨offset, leng, hsi⟩
    · exact .inl (mem_of_mem_filter (hsi ▸ mem_singleton_self _))
    · exact .inr ⟨offset, leng, mem_of_mem_filter (hsi ▸ mem_singleton_self _)⟩
  | dumpRequestPending => exact .inr (.inl ⟨hs, h.dump hs⟩)
  | limbo =>
    refine .inr (.inr ⟨hs, fun attempt => ?_⟩)
    unfold reconnect askAgain
    rw [if_neg hfr, if_pos ⟨ho, hs, rfl⟩]
    exact ⟨rfl, c.errorStatus, mem_append_right _ (mem_singleton_self _)⟩

/-- **A shadow never gets stuck unsynchronised**, in runs in which the download chain is not broken off: one that is
connected and registered and not synchronised has asked for the file it downloads or for a dump, or is in `kLimbo` and
will ask when the timer comes. -/
theorem never_stuck (fs : FileSystem M L) (events : List (Event M L))
    (hok : Stepwise.Along (shadowStep fs) Allowed init events)
    (hconnected : (afterRun fs events).isConnected) (hstate : (afterRun fs events).state ≠ .synchronized) :
    (afterRun fs events).UnderWay fs := by
  have hgood : (afterRun fs events).Good :=
    Stepwise.inv_run (fun _ e hok h => good_shadowStep hok h) _ events hok good_init
  exact ((hgood hconnected.1.1).atWork hconnected.1.2).underWay hconnected.1.2 hstate

/-- an operating system without failures, and a directory without metadata -/
def fine : System UInt64 Unit := ⟨true, true, true, true, true, true, .unusable 0 .unknown⟩

/-- metadata that are nothing but their version -/
def versions : FileSystem UInt64 Unit := ⟨id, fun m _ => some (m + 1, .ok)⟩

/-- a shadow that connects, registers and starts to download -/
def beginning : List (Event UInt64 Unit) :=
  [.reconnect .immediate false, .packet (.registerShadow (saunafsVersion 4 0 0) 8) fine,
    .packet (.downloadStart 3000000) fine]

theorem never_stuck_beginning :
    (afterRun versions beginning).isConnected ∧ (afterRun versions beginning).state ≠ .synchronized ∧
      (afterRun versions beginning).UnderWay versions :=
  ⟨by decide, by decide, never_stuck versions beginning
    ⟨fun _ _ h => absurd rfl h.2, trivial, fun _ => ⟨rfl, rfl, rfl⟩, trivial⟩ (by decide) (by decide)⟩

/-- an entry arrives during the download, the connection is lost, and the shadow connects and registers again -/
def lossDuringDownload : List (Event UInt64 Unit) :=
  beginning ++ [.packet (.metachangesLog 8 ()) fine, .lost, .close, .reconnect .immediate false,
    .packet (.registerShadow (saunafsVersion 4 0 0) 9) fine]

/-- after that the shadow is connected, not synchronised, and waits for nothing: it is downloading no file, has no
request outstanding, and the timer asks for nothing -/
theorem stuck_after_loss : (afterRun versions lossDuringDownload).isConnected ∧
      (afterRun versions lossDuringDownload).state = .downloading ∧
      (afterRun versions lossDuringDownload).downloading = none ∧
      (afterRun versions lossDuringDownload).output = [.matoclport] ∧
      ¬ (afterRun versions lossDuringDownload).UnderWay versions := by
  have hstate : (afterRun versions lossDuringDownload).state = .downloading := by decide
  have hfile : (afterRun versions lossDuringDownload).downloading = none := by decide
  refine ⟨by decide, hstate, hfile, by decide, ?_⟩
  rintro (⟨filenum, hfile', -⟩ | ⟨hpending, -⟩ | ⟨hlimbo, -⟩)
  · rw [hfile] at hfile'
    cases hfile'
  · rw [hstate] at hpending
    cases hpending
  · rw [hstate] at hlimbo
    cases hlimbo

end MasterConn

end SaunaFS.Shadow
