/-
One master, one shadow, and the connections between them. The packets to the shadow arrive in order; what the master
sends beside its log is arbitrary, and so are losses of the connection, the timers, and what the shadow finds when it
loads.
-/
import SaunaFS.Shadow.Courses
import SaunaFS.Shadow.OldChanges

namespace SaunaFS.Shadow

open Bool Stepwise

open SaunaFS.Changelog (Call Counters FileSystem restoreReset)
open List MasterConn

variable {M L : Type}

/-! ## Model -/

/-- the entry in a packet -/
def FromMaster.change : FromMaster L → Option (Change L)
  | metachangesLog version entry => some (version, entry)
  | _ => none

/-- the packet that carries an entry -/
def logPacket (e : Change L) : FromMaster L := .metachangesLog e.1 e.2

/-- the entries on their way -/
def logs (channel : List (FromMaster L)) : List (Change L) := channel.filterMap FromMaster.change

structure Pair (M L : Type) where
  shadow : MasterConn M
  /-- the version of the master's metadata -/
  metaversion : UInt64
  /-- everything the master has logged -/
  history : List (Change L)
  oldChanges : List (OldChangesBlock L)
  /-- `ChangelogSecondsToRemember` -/
  secondsToRemember : UInt16
  /-- the master's end of the connection is open -/
  attached : Bool
  /-- the shadow has registered on it (`eptr->version > 0`) -/
  registered : Bool
  channel : List (FromMaster L)
  /-- the metadata that were loaded when the shadow became synchronised -/
  base : Option M
  /-- the entries accepted since then -/
  applied : List (Change L)
  /-- the connection was begun, and has been used, by a synchronised shadow -/
  resumed : Bool

/-- the actions of both parties; `own` is an event at the shadow that is not a packet -/
inductive Action (M L : Type) where
  | update (line : L) (ts : UInt32)
  | rotate
  | configure (seconds : UInt16)
  | masterHandles (vershex : UInt32) (accepts : Bool)
  | masterSends (p : FromMaster L)
  | masterCloses
  | deliver (o : System M L)
  | own (e : Event M L)

namespace Pair

variable (fs : FileSystem M L) (s : Pair M L)

/-- `matomlserv_createpacket` -/
def send (packets : List (FromMaster L)) : Pair M L := { s with channel := s.channel ++ packets }

/-- `matomlserv_broadcast_logstring`, `matomlserv_broadcast_logrotate`: only a registered shadow gets the packet -/
def broadcast (p : FromMaster L) : Pair M L := if s.registered then s.send [p] else s

/-- `fs_changelog` -/
def update (line : L) (ts : UInt32) : Pair M L :=
  { s with
    metaversion := s.metaversion + 1
    history := s.history ++ [(s.metaversion, line)]
    oldChanges := storeLogstring s.oldChanges s.secondsToRemember ts (s.metaversion, line) }.broadcast
      (logPacket (s.metaversion, line))

def registerShadow (s : Pair M L) (shadowMetadataVersion : UInt64) (vershex : UInt32) (accepts : Bool) : Pair M L :=
  let s := { s with registered := true }
  if accepts then
    let reply := replyVersion s.oldChanges s.metaversion shadowMetadataVersion
    s.send (.registerShadow vershex reply :: (sendOldChanges s.oldChanges (reply - 1)).map logPacket)
  else s.send [.registerShadowStatus .unknown]

/-- the master takes the next packet of the shadow -/
def masterHandles (vershex : UInt32) (accepts : Bool) : Pair M L :=
  if s.attached then
    match s.shadow.output with
    | [] => s
    | p :: rest =>
      let s := { s with shadow := { s.shadow with output := rest } }
      match p with
      | .registerShadow version => s.registerShadow version vershex accepts
      | _ => s
  else s

/-- the records after the shadow has changed to `c`, having got the packet `p` -/
def become (c : MasterConn M) (p : Option (FromMaster L)) (connects : Bool) : Pair M L :=
  if s.shadow.state ≠ .synchronized ∧ c.state = .synchronized then
    { s with shadow := c, base := c.metadata, applied := [], resumed := false }
  else
    { s with
      shadow := c
      applied := if c.state = .synchronized then s.applied ++ (p.bind FromMaster.change).toList else s.applied
      resumed := decide (c.online ∧ c.state = .synchronized) && (s.resumed || connects) }

/-- the next packet of the master arrives -/
def deliver (o : System M L) : Pair M L :=
  if s.shadow.online then
    match s.channel with
    | [] => s
    | p :: rest => { s with channel := rest }.become (s.shadow.step fs (.packet p o)) (some p) false
  else s

/-- an event at the shadow alone; a new connection begins with an empty channel -/
def own (e : Event M L) : Pair M L :=
  let c := s.shadow.step fs e
  if ¬ s.shadow.online ∧ c.online then
    { s with attached := true, registered := false, channel := [] }.become c none true
  else s.become c none false

def step : Action M L → Pair M L
  | .update line ts => s.update line ts
  | .rotate => s.broadcast .logRotate
  | .configure seconds => { s with secondsToRemember := seconds }
  | .masterHandles vershex accepts => s.masterHandles vershex accepts
  | .masterSends p => if s.attached ∧ p.isLog = false ∧ p.isReply = false then s.send [p] else s
  | .masterCloses => { s with attached := false, registered := false }
  | .deliver o => s.deliver fs o
  | .own (.packet _ _) => s
  | .own e => s.own fs e

/-- a master with metadata of some version, and a shadow that has just been started -/
def init (version : UInt64) : Pair M L where
  shadow := MasterConn.init
  metaversion := version
  history := []
  oldChanges := []
  secondsToRemember := 600
  attached := false
  registered := false
  channel := []
  base := none
  applied := []
  resumed := false

def afterRun (version : UInt64) (actions : List (Action M L)) :
    Pair M L := run (step fs) (init version) actions

/-! ## Condition and result -/

/-- a load does not end behind the counters of `restore`, and the versions of the master do not overflow -/
def Allowed : Action M L → Prop
  | .update _ _ => s.metaversion + 1 ≠ 0
  | .deliver o =>
    s.shadow.state = .downloading → ∀ m v, fsLoadall fs s.shadow.counters o.directory = (m, v, none) → NotAhead fs m v
  | _ => True

/-- the call of `restore` for an entry that was received -/
def call (e : Change L) : Call L := ⟨e.1, e.2, .dontIgnoreAnyErrors⟩

/-- the metadata are what was loaded, plus consecutive entries of the master, each applied once -/
def InStep : Prop :=
  ∃ m₀ m, s.base = some m₀ ∧ s.shadow.metadata = some m ∧ Numbered (fs.getversion m₀).toNat s.applied ∧
    (∀ e ∈ s.applied, e ∈ s.history) ∧ replay fs.applied m₀ (s.applied.map call) = some m ∧
    (fs.getversion m).toNat = (fs.getversion m₀).toNat + s.applied.length

/-- the entries that the shadow lacks, for a master whose log begins with version `first` -/
def missing (first : ℕ) (version : UInt64) : List (Change L) := s.history.drop (version.toNat - first)

/-- a shadow that has dropped its metadata and will download when it connects again -/
def Forced (c : MasterConn M) : Prop := c.state = .none ∧ c.metadata = none ∧ c.lastlogversion = 0 ∧ c.mode = .kill

/-- what a shadow that connected while synchronised has to expect: its registration has not been read yet, or will be
rejected, or the reply is on its way and makes it download or is followed by all that it lacks, or all that it lacks is
on its way -/
def Served (first : ℕ) : Prop :=
  ∃ m, s.shadow.metadata = some m ∧
    ((s.registered = false ∧ .registerShadow (fs.getversion m) ∈ s.shadow.output ∧ logs s.channel = []) ∨
      (∃ status, .registerShadowStatus status ∈ s.channel) ∨
      (∃ before vershex reply after, s.channel = before ++ .registerShadow vershex reply :: after ∧ logs before = [] ∧
        (reply ≠ fs.getversion m ∧ (∀ o, Forced (s.shadow.step fs (.packet (.registerShadow vershex reply) o))) ∨
          reply = fs.getversion m ∧ logs after = s.missing first (fs.getversion m))) ∨
      logs s.channel = s.missing first (fs.getversion m))

end Pair

/-! ## The invariant -/

namespace Pair

variable {fs : FileSystem M L} {s : Pair M L} {first : ℕ} {o : System M L}

/-- a synchronised shadow, with what the next entry will be compared to -/
structure Follows (fs : FileSystem M L) (s : Pair M L) (m₀ m : M) : Prop where
  base : s.base = some m₀
  metadata : s.shadow.metadata = some m
  numbered : Numbered (fs.getversion m₀).toNat s.applied
  genuine : ∀ e ∈ s.applied, e ∈ s.history
  replayed : replay fs.applied m₀ (s.applied.map call) = some m
  version : (fs.getversion m).toNat = (fs.getversion m₀).toNat + s.applied.length
  lastlogversion : s.shadow.lastlogversion = fs.getversion m - 1
  counters : NotAhead fs m s.shadow.counters

/-- no answer to a registration is among the packets -/
def NoReply (channel : List (FromMaster L)) : Prop := ∀ p ∈ channel, p.isReply = false

structure Coming (s : Pair M L) (first : ℕ) (version : UInt64) (channel : List (FromMaster L)) : Prop where
  lower : first ≤ version.toNat
  upper : version.toNat ≤ s.metaversion.toNat
  noReply : NoReply channel
  logs : logs channel = s.missing first version

/-- what a shadow of this version that connected while synchronised has to expect -/
inductive Expects (s : Pair M L) (first : ℕ) (version : UInt64) : Prop where
  | asking (hreg : s.registered = false) (hask : s.shadow.registers = [.registerShadow version])
      (hlogs : logs s.channel = []) (hreply : NoReply s.channel)
  | rejected (before : List (FromMaster L)) (status : Status) (after : List (FromMaster L))
      (hreg : s.shadow.registers = []) (hchannel : s.channel = before ++ .registerShadowStatus status :: after)
      (hlogs : logs before = []) (hreply : NoReply before)
  | answered (before : List (FromMaster L)) (vershex : UInt32) (reply : UInt64) (after : List (FromMaster L))
      (hreg : s.registered = true ∧ s.shadow.registers = [])
      (hchannel : s.channel = before ++ .registerShadow vershex reply :: after)
      (hlogs : logs before = []) (hreply : NoReply before) (hcoming : reply = version → s.Coming first version after)
  | served (hreg : s.registered = true ∧ s.shadow.registers = []) (hcoming : s.Coming first version s.channel)

structure Inv (fs : FileSystem M L) (first : ℕ) (s : Pair M L) : Prop where
  positive : 0 < first
  numbered : Numbered first s.history
  version : s.metaversion.toNat = first + s.history.length
  remembers : Remembers first s.history s.oldChanges
  genuine : ∀ e ∈ logs s.channel, e ∈ s.history
  attached : s.registered = true → s.attached = true
  follows : s.shadow.running = true → s.shadow.state = .synchronized → ∃ m₀ m, Follows fs s m₀ m
  resumed : s.resumed = true → s.shadow.online ∧ s.shadow.state = .synchronized
  expects : s.resumed = true → s.attached = true → ∀ m, s.shadow.metadata = some m → s.Expects first (fs.getversion m)

/-! ## Channels -/

variable {a b channel : List (FromMaster L)} {p : FromMaster L} {m₀ m : M}

@[simp] theorem logs_append : logs (a ++ b) = logs a ++ logs b := by
  simp [logs, filterMap_append]

theorem logs_cons : logs (p :: channel) = p.change.toList ++ logs channel := by
  unfold logs
  rw [filterMap_cons]
  cases p.change <;> rfl

theorem logs_cons_of_isLog (h : p.isLog = false) : logs (p :: channel) = logs channel := by
  cases p <;> first | rfl | cases h

theorem logs_map_logPacket {l : List (Change L)} : logs (l.map logPacket) = l := by
  induction l with
  | nil => rfl
  | cons e l ih =>
    rw [map_cons, logs_cons, ih]
    rfl

theorem noReply_append : NoReply (a ++ b) ↔ NoReply a ∧ NoReply b := forall_mem_append

theorem noReply_map_logPacket (l : List (Change L)) : NoReply (l.map logPacket) := by
  intro p hp
  obtain ⟨e, -, rfl⟩ := mem_map.mp hp
  rfl

/-! ## Steps of the master -/

variable {version : UInt64} {s' : Pair M L}

theorem Expects.send (h : s.Expects first version) {new : List (Change L)}
    {packets : List (FromMaster L)} (hs : s'.shadow = s.shadow) (hreg : s'.registered = s.registered)
    (hh : s'.history = s.history ++ new) (hm : s.metaversion.toNat ≤ s'.metaversion.toNat)
    (hlen : s.metaversion.toNat = first + s.history.length)
    (hcha : s'.channel = s.channel ++ packets) (hl : logs packets = if s.registered then new else [])
    (hrep : NoReply packets) : s'.Expects first version := by
  have hco {channel : List (FromMaster L)} (hre : s.registered) (hc : s.Coming first version channel) :
      s'.Coming first version (channel ++ packets) := by
    refine ⟨hc.lower, hc.upper.trans hm, noReply_append.mpr ⟨hc.noReply, hrep⟩, ?_⟩
    have hle : version.toNat - first ≤ s.history.length := by
      have := hc.upper
      omega
    rw [logs_append, hc.logs, hl, hre, if_pos rfl, missing, missing, hh, drop_append_of_le_length hle]
  cases h with
  | asking ha hask he hn =>
    refine .asking (hreg.trans ha) (hs ▸ hask) ?_ (hcha ▸ noReply_append.mpr ⟨hn, hrep⟩)
    rw [hcha, logs_append, he, hl, ha]
    rfl
  | rejected before status after hr hch he hn =>
    exact .rejected before status (after ++ packets) (hs ▸ hr) (by rw [hcha, hch]; simp) he hn
  | answered before vershex reply after hr hch he hn hc =>
    exact .answered before vershex reply (after ++ packets) ⟨hreg.trans hr.1, hs ▸ hr.2⟩
      (by rw [hcha, hch]; simp) he hn fun h => hco hr.1 (hc h)
  | served hr hc => exact .served ⟨hreg.trans hr.1, hs ▸ hr.2⟩ (hcha ▸ hco hr.1 hc)

theorem Follows.mono (h : Follows fs s m₀ m) (hc : SameCore s.shadow s'.shadow)
    (hb : s'.base = s.base) (ha : s'.applied = s.applied) (hh : ∀ e ∈ s.history, e ∈ s'.history) : Follows fs s' m₀ m :=
  ⟨hb ▸ h.base, hc.metadata ▸ h.metadata, ha ▸ h.numbered,
    fun e he => hh e (h.genuine e (ha ▸ he)), ha ▸ h.replayed, ha ▸ h.version,
    hc.lastlogversion ▸ h.lastlogversion, hc.counters ▸ h.counters⟩

variable {line : L} {vershex : UInt32}

section

variable (h : Inv fs first s)
include h

theorem Inv.update {ts : UInt32} (ho : s.metaversion + 1 ≠ 0) : Inv fs first (s.update line ts) := by
  have hne := toNat_succ ho
  have hn : Numbered first (s.history ++ [(s.metaversion, line)]) :=
    numbered_append.mpr ⟨h.numbered, numbered_cons.mpr ⟨h.version, numbered_nil _⟩⟩
  have hv : (s.metaversion + 1).toNat = first + (s.history ++ [(s.metaversion, line)]).length := by
    rw [hne, h.version, length_append]
    rfl
  have hr := remembers_store (e := (s.metaversion, line)) h.remembers h.version s.secondsToRemember ts
  have hme (e : Change L) (he : e ∈ s.history) : e ∈ s.history ++ [(s.metaversion, line)] := mem_append_left _ he
  unfold Pair.update broadcast
  split_ifs with hreg
  · refine ⟨h.positive, hn, hv, hr, ?_, h.attached, fun hru hs => ?_, h.resumed,
      fun hre ha m hm => ?_⟩
    · intro e he
      change e ∈ logs (s.channel ++ [logPacket (s.metaversion, line)]) at he
      rw [logs_append] at he
      rcases mem_append.mp he with he | he
      · exact hme e (h.genuine e he)
      · exact mem_append_right _ he
    · obtain ⟨m₀, m, hf⟩ := h.follows hru hs
      exact ⟨m₀, m, hf.mono (.refl _) rfl rfl hme⟩
    · refine (h.expects hre ha m hm).send rfl rfl rfl ?_ h.version rfl ?_
        (noReply_map_logPacket [_])
      · change s.metaversion.toNat ≤ (s.metaversion + 1).toNat
        omega
      · rw [show s.registered from hreg]
        rfl
  · refine ⟨h.positive, hn, hv, hr, fun e he => hme e (h.genuine e he), h.attached,
      fun hru hs => ?_, h.resumed, fun hre ha m hm => ?_⟩
    · obtain ⟨m₀, m, hf⟩ := h.follows hru hs
      exact ⟨m₀, m, hf.mono (.refl _) rfl rfl hme⟩
    · refine (h.expects hre ha m hm).send rfl rfl rfl ?_ h.version (append_nil _).symm ?_ (fun _ h => nomatch h)
      · change s.metaversion.toNat ≤ (s.metaversion + 1).toNat
        omega
      · rw [if_neg (by simpa using hreg)]
        rfl

theorem Inv.send {packets : List (FromMaster L)} (hl : logs packets = []) (hr : NoReply packets) :
    Inv fs first (s.send packets) := by
  refine ⟨h.positive, h.numbered, h.version, h.remembers, fun e he => ?_, h.attached, fun hru hs => ?_, h.resumed,
    fun hre ha m hm => ?_⟩
  · unfold Pair.send at he
    rw [logs_append, hl, append_nil] at he
    exact h.genuine e he
  · obtain ⟨m₀, m, hf⟩ := h.follows hru hs
    exact ⟨m₀, m, hf.mono (.refl _) rfl rfl fun _ h => h⟩
  · refine (h.expects hre ha m hm).send rfl rfl (append_nil _).symm le_rfl h.version rfl ?_ hr
    rw [hl]
    split_ifs <;> rfl

theorem Inv.oldChanges :
    (∀ e ∈ sendOldChanges s.oldChanges (replyVersion s.oldChanges s.metaversion version - 1), e ∈ s.history) ∧
      (replyVersion s.oldChanges s.metaversion version = version →
        first ≤ version.toNat ∧ version.toNat ≤ s.metaversion.toNat ∧
          sendOldChanges s.oldChanges (replyVersion s.oldChanges s.metaversion version - 1) =
            s.missing first version) := by
  obtain ⟨k, hk, hrem, hbl⟩ := h.remembers.ends
  have hs (v : UInt64) (e : Change L) (he : e ∈ sendOldChanges s.oldChanges v) : e ∈ s.history := by
    unfold sendOldChanges at he
    rw [sendBlocks_eq hbl, hrem] at he
    exact mem_of_mem_drop (mem_of_mem_filter he)
  refine ⟨hs _, fun hr => ?_⟩
  rw [hr]
  have hp (v : UInt64) (hv : 0 < v.toNat) : (v - 1).toNat + 1 = v.toNat := by
    have hl : (1 : UInt64) ≤ v := hv
    have ho : UInt64.toNat 1 = 1 := rfl
    rw [UInt64.toNat_sub_of_le _ _ hl, ho]
    omega
  have hm := h.version
  have hpo := h.positive
  cases hb : s.oldChanges with
  | nil =>
    -- nothing is remembered, so the shadow is up to date
    rw [hb] at hr
    have : s.metaversion = version := hr
    subst this
    refine ⟨by omega, le_rfl, ?_⟩
    unfold missing
    rw [drop_of_length_le (by omega)]
    rfl
  | cons head rest =>
    rw [hb] at hbl hr
    have hmi : head.minversion.toNat = first + k := hbl.1
    unfold replyVersion at hr
    dsimp only at hr
    have hbo : head.minversion.toNat ≤ version.toNat ∧ version.toNat ≤ s.metaversion.toNat := by
      split_ifs at hr with hc
      · exact ⟨hc.2, Nat.le_of_lt hc.1⟩
      · subst hr
        omega
    refine ⟨by omega, hbo.2, ?_⟩
    have hre := h.remembers
    rw [hb] at hre
    rw [sendOldChanges_eq hre _ (.inr ⟨head, rfl, by rw [hp _ (by omega)]; exact hbo.1⟩),
      if_neg (cons_ne_nil _ _), hp _ (by omega), missing]

theorem Inv.registerShadow {rest : List ToMaster}
    (ho : s.shadow.output = .registerShadow version :: rest) (hat : s.attached) {accepts : Bool} :
    Inv fs first ({ s with shadow := { s.shadow with output := rest } }.registerShadow version vershex accepts) := by
  have hreg : s.shadow.registers = .registerShadow version :: rest.filter ToMaster.isRegister := by
    unfold registers
    rw [ho]
    rfl
  have hc : SameCore s.shadow { s.shadow with output := rest } := ⟨rfl, rfl, rfl, rfl⟩
  -- the registration was the one that the shadow sent when it connected
  have ha (hres : s.resumed) (m : M) (hm : s.shadow.metadata = some m) :
      version = fs.getversion m ∧ rest.filter ToMaster.isRegister = [] ∧ logs s.channel = [] ∧ NoReply s.channel := by
    cases h.expects hres hat m hm with
    | asking hr hask hl hre =>
      rw [hreg, cons.injEq] at hask
      exact ⟨by cases hask.1; rfl, hask.2, hl, hre⟩
    | rejected _ _ _ hr => rw [hreg] at hr; cases hr
    | answered _ _ _ _ hr | served hr => rw [hreg] at hr; cases hr.2
  obtain ⟨hsu, hco⟩ := h.oldChanges
  cases accepts with
  | false =>
    refine ⟨h.positive, h.numbered, h.version, h.remembers, fun e he => ?_, fun _ => hat, fun hru hs => ?_, h.resumed,
      fun hres _ m hm => ?_⟩
    · change e ∈ logs (s.channel ++ [.registerShadowStatus .unknown]) at he
      exact h.genuine e (by simpa [logs, FromMaster.change] using he)
    · obtain ⟨m₀, m, hf⟩ := h.follows hru hs
      exact ⟨m₀, m, hf.mono hc rfl rfl fun _ h => h⟩
    · obtain ⟨-, hrest, hl, hre⟩ := ha hres m hm
      exact .rejected s.channel .unknown [] hrest rfl hl hre
  | true =>
    refine ⟨h.positive, h.numbered, h.version, h.remembers, fun e he => ?_, fun _ => hat, fun hru hs => ?_, h.resumed,
      fun hres _ m hm => ?_⟩
    · change e ∈ logs (s.channel ++ .registerShadow vershex _ :: map logPacket _) at he
      rw [logs_append, logs_cons_of_isLog rfl, logs_map_logPacket] at he
      rcases mem_append.mp he with he | he
      · exact h.genuine e he
      · exact hsu e he
    · obtain ⟨m₀, m, hf⟩ := h.follows hru hs
      exact ⟨m₀, m, hf.mono hc rfl rfl fun _ h => h⟩
    · obtain ⟨hv, hrest, hl, hre⟩ := ha hres m hm
      refine .answered s.channel vershex _ _ ⟨rfl, hrest⟩ rfl hl hre fun heq => ?_
      rw [← hv] at heq ⊢
      obtain ⟨hlo, hu, hse⟩ := hco heq
      exact ⟨hlo, hu, noReply_map_logPacket _, by rw [logs_map_logPacket]; exact hse⟩

end

theorem Expects.congr (h : s.Expects first version)
    (hr : s'.shadow.registers = s.shadow.registers) (hre : s'.registered = s.registered)
    (hh : s'.history = s.history) (hm : s'.metaversion = s.metaversion) (hcha : s'.channel = s.channel) :
    s'.Expects first version := by
  have hco {channel : List (FromMaster L)} (hc : s.Coming first version channel) : s'.Coming first version channel :=
    ⟨hc.lower, hm ▸ hc.upper, hc.noReply, by rw [hc.logs, missing, missing, hh]⟩
  cases h with
  | asking ha hask he hno =>
    exact .asking (hre.trans ha) (hr.trans hask) (hcha ▸ he) (hcha ▸ hno)
  | rejected before status after hn hch he hno =>
    exact .rejected before status after (hr.trans hn) (hcha.trans hch) he hno
  | answered before vershex reply after hn hch he hno hc =>
    exact .answered before vershex reply after ⟨hre.trans hn.1, hr.trans hn.2⟩ (hcha.trans hch) he hno
      fun h => hco (hc h)
  | served hn hc => exact .served ⟨hre.trans hn.1, hr.trans hn.2⟩ (hcha ▸ hco hc)

theorem Inv.masterHandles (h : Inv fs first s) {accepts : Bool} : Inv fs first (s.masterHandles vershex accepts) := by
  unfold Pair.masterHandles
  split_ifs with ha
  · cases hou : s.shadow.output with
    | nil => exact h
    | cons p rest =>
      by_cases hp : p.isRegister
      · cases p with
        | registerShadow version => exact h.registerShadow hou ha
        | _ => cases hp
      · -- the other packets have no effect that is modelled here
        have hr : ({ s.shadow with output := rest } : MasterConn M).registers = s.shadow.registers := by
          unfold registers
          rw [hou, filter_cons, if_neg hp]
        have ho : Inv fs first { s with shadow := { s.shadow with output := rest } } := by
          refine ⟨h.positive, h.numbered, h.version, h.remembers, h.genuine, h.attached, fun hru hs => ?_, h.resumed,
            fun hre ha m hm => (h.expects hre ha m hm).congr hr rfl rfl rfl rfl⟩
          obtain ⟨m₀, m, hf⟩ := h.follows hru hs
          exact ⟨m₀, m, hf.mono ⟨rfl, rfl, rfl, rfl⟩ rfl rfl fun _ h => h⟩
        cases p with
        | registerShadow version => exact absurd rfl hp
        | _ => exact ho
  · exact h

theorem Inv.masterCloses (h : Inv fs first s) : Inv fs first { s with attached := false, registered := false } := by
  refine ⟨h.positive, h.numbered, h.version, h.remembers, h.genuine, fun h => (nomatch h), fun hr hs => ?_, h.resumed,
    fun _ ha => (nomatch ha)⟩
  obtain ⟨m₀, m, hf⟩ := h.follows hr hs
  exact ⟨m₀, m, hf.mono (.refl _) rfl rfl fun _ h => h⟩

/-! ## Steps of the shadow -/

theorem Follows.entry {t : Pair M L} {m' : M} {v : Counters} (h : Follows fs s m₀ m)
    (hme : (version, line) ∈ s.history) (hp : 0 < version.toNat)
    (hn : ¬ (0 < s.shadow.lastlogversion ∧ version ≠ s.shadow.lastlogversion + 1)) (hl : version + 1 ≠ 0)
    (hr : fs.restore m s.shadow.counters ⟨version, line, .dontIgnoreAnyErrors⟩ = (m', v, .ok))
    (hb : t.base = s.base) (ha : t.applied = s.applied ++ [(version, line)]) (hh : t.history = s.history)
    (hm' : t.shadow.metadata = some m') (hv : t.shadow.counters = v) (hla : t.shadow.lastlogversion = version) :
    version = fs.getversion m ∧ fs.getversion m' = version + 1 ∧ Follows fs t m₀ m' := by
  have hlas := h.lastlogversion
  have hz : version ≠ 0 := by
    rintro rfl
    exact absurd hp (by decide)
  -- either the number was compared with the last one, or the metadata have version 1
  have hc : fs.getversion m ≠ 0 ∧ fs.getversion m ≤ version := by
    by_cases h0 : 0 < s.shadow.lastlogversion
    · have heq : version = s.shadow.lastlogversion + 1 := not_not.mp fun hne => hn ⟨h0, hne⟩
      have : version = fs.getversion m := by grind
      exact ⟨this ▸ hz, this ▸ UInt64.le_refl _⟩
    · have : fs.getversion m = 1 := by grind
      rw [this]
      exact ⟨by decide, by grind⟩
  obtain ⟨heq, hap, hve, hco⟩ := restore_accepts h.counters hc.1 hc.2 hr
  have hs := toNat_succ hl
  refine ⟨heq, hve, hb ▸ h.base, hm', ?_, ?_, ?_, ?_, ?_, ?_⟩
  · rw [ha]
    refine numbered_append.mpr ⟨h.numbered, numbered_cons.mpr ⟨?_, numbered_nil _⟩⟩
    rw [← h.version, ← heq]
  · intro e he
    rw [ha] at he
    rw [hh]
    rcases mem_append.mp he with he | he
    · exact h.genuine e he
    · rwa [mem_singleton.mp he]
  · rw [ha, map_append, replay_append, h.replayed, Option.bind_some, map_singleton,
      replay_single]
    exact hap
  · rw [ha, length_append, hve, hs, heq, h.version]
    rfl
  · rw [hla, hve]
    grind
  · rw [hv, hco]
    refine .inr (.inr ⟨?_, UInt64.le_refl _⟩)
    rw [hve]
    exact (show version.toNat < (version + 1).toNat by omega)

theorem Inv.mem_history (h : Inv fs first s) {e : Change L} (he : e ∈ s.history) :
    0 < e.1.toNat ∧ e.1.toNat < s.metaversion.toNat := by
  have hm : e.1.toNat ∈ s.history.map fun e => e.1.toNat := mem_map_of_mem he
  rw [h.numbered, mem_range'_1] at hm
  have := h.version
  have := h.positive
  omega

theorem state_step_packet (hr : s.shadow.online) :
    s.shadow.step fs (.packet p o) = gotpacket fs { s.shadow with mode := .header } p o := by
  unfold MasterConn.step MasterConn.handle MasterConn.receive
  dsimp only
  rw [if_pos hr.1, if_pos hr.2]

variable {rest : List (FromMaster L)}

section

variable (h : s.Expects first version)
include h

theorem Expects.tail (hcha : s.channel = p :: rest)
    (hlo : p.isLog = false) (hr : p.isReply = false) : Expects { s with channel := rest } first version := by
  have hlog : logs (p :: rest) = logs rest := logs_cons_of_isLog hlo
  have hno {l : List (FromMaster L)} (hl : NoReply (p :: l)) : NoReply l := fun q hq => hl q (mem_cons_of_mem _ hq)
  -- the reply is not the first packet
  have hs {before after : List (FromMaster L)} {q : FromMaster L} (hch : s.channel = before ++ q :: after)
      (hq : q.isReply) : ∃ before', before = p :: before' ∧ rest = before' ++ q :: after := by
    rw [hcha] at hch
    cases before with
    | nil =>
      cases hch
      rw [hr] at hq
      cases hq
    | cons a before' =>
      rw [cons_append, cons.injEq] at hch
      exact ⟨before', by rw [hch.1], hch.2⟩
  cases h with
  | asking haske hask he hn =>
    rw [hcha] at he hn
    exact .asking haske hask (hlog.symm.trans he) (hno hn)
  | rejected before status after hni hch he hn =>
    obtain ⟨before', rfl, hs⟩ := hs hch rfl
    exact .rejected before' status after hni hs (by rwa [logs_cons_of_isLog hlo] at he) (hno hn)
  | answered before vershex reply after hni hch he hn hc =>
    obtain ⟨before', rfl, hs⟩ := hs hch rfl
    exact .answered before' vershex reply after hni hs (by rwa [logs_cons_of_isLog hlo] at he) (hno hn)
      fun heq => ⟨(hc heq).lower, (hc heq).upper, (hc heq).noReply, (hc heq).logs⟩
  | served hni hc =>
    have hn := hc.noReply
    have ha := hc.logs
    rw [hcha] at hn ha
    exact .served hni ⟨hc.lower, hc.upper, hno hn, hlog.symm.trans ha⟩

theorem Expects.entry (hcha : s.channel = .metachangesLog version line :: rest) (hl : version + 1 ≠ 0)
    (hi : s.metaversion.toNat = first + s.history.length) : Expects { s with channel := rest } first (version + 1) := by
  have hb {before after : List (FromMaster L)} {q : FromMaster L} (hch : s.channel = before ++ q :: after)
      (hq : q.isReply) (he : logs before = []) : False := by
    rw [hcha] at hch
    cases before with
    | nil => cases hch; cases hq
    | cons a before' =>
      rw [cons_append, cons.injEq] at hch
      rw [← hch.1, logs_cons] at he
      cases he
  cases h with
  | asking _ _ he _ =>
    rw [hcha, logs_cons] at he
    cases he
  | rejected before status after hn hch he hno => exact (hb hch rfl he).elim
  | answered before vershex reply after hn hch he hno hc => exact (hb hch rfl he).elim
  | served hn hc =>
    have ha := hc.logs
    have hno := hc.noReply
    rw [hcha] at ha hno
    have hs := toNat_succ hl
    have hlo := hc.lower
    have hco : (version, line) :: logs rest = s.history.drop (version.toNat - first) := ha
    have hlt : version.toNat - first < s.history.length := by
      by_contra hg
      rw [drop_of_length_le (by omega)] at hco
      cases hco
    refine .served hn ⟨by omega, ?_, fun q hq => hno q (mem_cons_of_mem _ hq), ?_⟩
    · change (version + 1).toNat ≤ s.metaversion.toNat
      omega
    · rw [drop_eq_getElem_cons hlt, cons.injEq] at hco
      rw [hco.2, missing, hs]
      congr 1
      omega

theorem Expects.reply (hcha : s.channel = .registerShadow vershex version :: rest) :
    Expects { s with channel := rest } first version := by
  have hh {l : List (FromMaster L)} (hl : NoReply (.registerShadow vershex version :: l)) : False :=
    Bool.noConfusion (hl _ List.mem_cons_self)
  cases h with
  | asking _ _ _ hn =>
    rw [hcha] at hn
    exact (hh hn).elim
  | rejected before status after hni hch he hn =>
    rw [hcha] at hch
    cases before with
    | nil => cases hch
    | cons a before' =>
      rw [cons_append, cons.injEq] at hch
      rw [← hch.1] at hn
      exact (hh hn).elim
  | answered before vershex' reply' after hni hch he hn hc =>
    rw [hcha] at hch
    cases before with
    | nil =>
      cases hch
      exact .served hni ⟨(hc rfl).lower, (hc rfl).upper, (hc rfl).noReply, (hc rfl).logs⟩
    | cons a before' =>
      rw [cons_append, cons.injEq] at hch
      rw [← hch.1] at hn
      exact (hh hn).elim
  | served hni hc =>
    have hn := hc.noReply
    rw [hcha] at hn
    exact (hh hn).elim

end

section

variable (h : Inv fs first s)
include h

theorem Inv.succ_ne_zero {e : Change L} (he : e ∈ s.history) : e.1 + 1 ≠ 0 := by
  obtain ⟨hp, hl⟩ := h.mem_history he
  have hm := s.metaversion.toNat_lt
  intro hz
  have hs := UInt64.toNat_add e.1 1
  have ho : UInt64.toNat 1 = 1 := rfl
  have hn : UInt64.toNat 0 = 0 := rfl
  rw [hz, ho, hn] at hs
  omega

theorem Inv.deliver
    (hok : s.shadow.state = .downloading → ∀ m v, fsLoadall fs s.shadow.counters o.directory = (m, v, none) →
      NotAhead fs m v) : Inv fs first (s.deliver fs o) := by
  unfold Pair.deliver
  split_ifs with ho
  swap
  · exact h
  cases hc : s.channel with
  | nil => exact h
  | cons p rest =>
    dsimp only
    rw [state_step_packet ho]
    have hreg : (gotpacket fs { s.shadow with mode := .header } p o).registers = s.shadow.registers :=
      (adds_gotpacket { s.shadow with mode := .header } p).registers
    have hco (hru : (gotpacket fs { s.shadow with mode := .header } p o).running)
        (hs : (gotpacket fs { s.shadow with mode := .header } p o).state = .synchronized) :=
      (course_gotpacket p hru hs).of_core (c := s.shadow) ⟨rfl, rfl, rfl, rfl⟩
    have hrej (status : Status) (hp : p = .registerShadowStatus status) :
        ¬ (gotpacket fs { s.shadow with mode := .header } p o).online := by
      rw [hp]
      rintro ⟨-, hmo | hmo⟩ <;> cases hmo
    generalize gotpacket fs { s.shadow with mode := .header } p o = c at hreg hco hrej ⊢
    have hg (e : Change L) (he : e ∈ logs rest) : e ∈ s.history :=
      h.genuine e (by rw [hc, logs_cons]; exact mem_append_right _ he)
    unfold become
    split_ifs with hn hs'
    · -- the metadata have been loaded
      refine ⟨h.positive, h.numbered, h.version, h.remembers, hg, h.attached, fun hru hs => ?_,
        fun h => (nomatch h), fun h => (nomatch h)⟩
      cases hco hru hs with
      | same core => exact absurd (core.state.symm.trans hs) hn.1
      | entry _ _ _ _ _ _ hst => exact absurd hst hn.1
      | loaded m v hst hloa hm hv hl =>
        refine ⟨m, m, hm, hm, numbered_nil _, fun _ h => (nomatch h), rfl, rfl, hl, ?_⟩
        exact hv ▸ hok hst m v hloa
    · -- the shadow stays synchronised
      have hw : s.shadow.state = .synchronized := not_not.mp fun hne => hn ⟨hne, hs'⟩
      obtain ⟨m₀, m, hf⟩ := h.follows ho.1 hw
      refine ⟨h.positive, h.numbered, h.version, h.remembers, hg, h.attached, fun hru _ => ?_, fun hr => ?_,
        fun hr ha m1 hm1 => ?_⟩
      · cases hco hru hs' with
        | same core hlo =>
          refine ⟨m₀, m, hf.mono core rfl ?_ fun _ h => h⟩
          cases p <;> first | exact append_nil _ | cases hlo
        | entry version line m1 m' v hp _ hnex hm hre hm' hv hl =>
          subst hp
          rw [hf.metadata] at hm
          cases hm
          have hme : (version, line) ∈ s.history :=
            h.genuine _ (by rw [hc, logs_cons]; exact mem_append_left _ (mem_singleton_self _))
          exact ⟨m₀, m', And.right (And.right (Follows.entry hf hme (h.mem_history hme).1 hnex (h.succ_ne_zero hme) hre
            rfl rfl rfl hm' hv hl))⟩
        | loaded _ _ hst => rw [hw] at hst; cases hst
      · simp only [and_eq_true, decide_eq_true_eq] at hr
        exact hr.1
      · simp only [Bool.and_eq_true, decide_eq_true_eq, Bool.or_false] at hr
        have hexp := h.expects hr.2 ha m hf.metadata
        cases hco hr.1.1.1 hs' with
        | same core hlo hve =>
          rw [core.metadata, hf.metadata] at hm1
          cases hm1
          by_cases hrep : p.isReply
          · cases p with
            | registerShadow vershex reply =>
              obtain ⟨m2, hm2, rfl⟩ := hve vershex reply rfl hw
              rw [hf.metadata] at hm2
              cases hm2
              exact (hexp.reply hc).congr hreg rfl rfl rfl rfl
            | registerShadowStatus status => exact absurd hr.1.1 (hrej status rfl)
            | _ => cases hrep
          · exact (hexp.tail hc hlo (by simpa using hrep)).congr hreg rfl rfl rfl rfl
        | entry version line m2 m' v hp _ hnex hm2 hre hm' hv hl =>
          subst hp
          rw [hf.metadata] at hm2
          cases hm2
          rw [hm'] at hm1
          cases hm1
          have hme : (version, line) ∈ s.history :=
            h.genuine _ (by rw [hc, logs_cons]; exact mem_append_left _ (mem_singleton_self _))
          obtain ⟨heq, hn, -⟩ := Follows.entry (t := { s with
            shadow := c, applied := s.applied ++ [(version, line)] }) hf hme (h.mem_history hme).1 hnex
            (h.succ_ne_zero hme) hre rfl rfl rfl hm' hv hl
          rw [hn]
          rw [← heq] at hexp
          exact (hexp.entry hc (h.succ_ne_zero hme) h.version).congr hreg rfl rfl rfl rfl
        | loaded _ _ hst => rw [hw] at hst; cases hst
    · -- the shadow is not synchronised any more
      refine ⟨h.positive, h.numbered, h.version, h.remembers, hg, h.attached, fun _ hs => absurd hs hs',
        fun hr => ?_, fun hr => ?_⟩
      · simp only [and_eq_true, decide_eq_true_eq] at hr
        exact absurd hr.1.2 hs'
      · simp only [and_eq_true, decide_eq_true_eq] at hr
        exact absurd hr.1.2 hs'

theorem Inv.become_own {c : MasterConn M} {attached registered : Bool}
    {connects : Bool} (hg : ∀ e ∈ logs channel, e ∈ s.history) (ha : registered → attached)
    (hc : c.running → c.state = .synchronized → s.shadow.running ∧ SameCore s.shadow c)
    (he : c.online → c.state = .synchronized → (s.resumed || connects) → attached → ∀ m, c.metadata = some m →
        Expects { s with shadow := c, attached, registered, channel } first (fs.getversion m)) :
    Inv fs first ({ s with attached, registered, channel }.become c none connects) := by
  unfold become
  split_ifs with hn hs'
  · refine ⟨h.positive, h.numbered, h.version, h.remembers, hg, ha, fun hru hs => ?_, fun h => (nomatch h),
      fun h => (nomatch h)⟩
    exact absurd ((hc hru hs).2.state.symm.trans hs) hn.1
  · refine ⟨h.positive, h.numbered, h.version, h.remembers, hg, ha, fun hru hs => ?_, fun hr => ?_,
      fun hr ha' m hm => ?_⟩
    · obtain ⟨hru', core⟩ := hc hru hs
      obtain ⟨m₀, m, hf⟩ := h.follows hru' (core.state.symm.trans hs)
      exact ⟨m₀, m, hf.mono core rfl (append_nil _) fun _ h => h⟩
    · simp only [and_eq_true, decide_eq_true_eq] at hr
      exact hr.1
    · simp only [and_eq_true, decide_eq_true_eq] at hr
      exact (he hr.1.1 hr.1.2 hr.2 ha' m hm).congr rfl rfl rfl rfl rfl
  · refine ⟨h.positive, h.numbered, h.version, h.remembers, hg, ha, fun _ hs => absurd hs hs',
      fun hr => ?_, fun hr => ?_⟩
    · simp only [and_eq_true, decide_eq_true_eq] at hr
      exact absurd hr.1.2 hs'
    · simp only [and_eq_true, decide_eq_true_eq] at hr
      exact absurd hr.1.2 hs'

theorem Inv.own {e : Event M L} (hp : ∀ p o, e ≠ .packet p o) : Inv fs first (s.own fs e) := by
  have hst : s.shadow.step fs e = if s.shadow.running then s.shadow.handle fs e else s.shadow := rfl
  have hc (hru : (s.shadow.step fs e).running) (hs : (s.shadow.step fs e).state = .synchronized) :
      s.shadow.running ∧ SameCore s.shadow (s.shadow.step fs e) := by
    rw [hst] at hru hs ⊢
    split_ifs at hru hs ⊢ with hr
    · exact ⟨hr, core_handle e hp hru hs⟩
    · exact absurd hru hr
  unfold Pair.own
  dsimp only
  split_ifs with hco
  · refine h.become_own (fun _ h => (nomatch h)) (fun _ => rfl) hc fun ho hs _ _ m hm => ?_
    -- the packets of this connection so far are those of `masterconn_connected`
    obtain ⟨hr, core⟩ := hc ho.1 hs
    rw [hst, if_pos hr] at ho hs hm ⊢
    have he : s.shadow.handle fs e = s.shadow.connected fs :=
      handle_connects e hp (fun hmo => hco.1 ⟨hr, hmo⟩) ho.2 hs
    rw [he] at ho hs hm ⊢
    obtain ⟨hsa, m1, hm1, hre⟩ := connected_synchronized ho.1 hs
    rw [hsa.metadata, hm1] at hm
    cases hm
    exact .asking rfl hre rfl fun _ h => (nomatch h)
  · refine h.become_own h.genuine h.attached hc
      fun ho hs hres ha m hm => ?_
    rw [Bool.or_false] at hres
    obtain ⟨hr, core⟩ := hc ho.1 hs
    have ho' := (h.resumed hres).1
    have hre : (s.shadow.step fs e).registers = s.shadow.registers := by
      rw [hst, if_pos hr]
      exact (adds_handle e hp ho'.2).registers
    rw [core.metadata] at hm
    exact (h.expects hres ha m hm).congr hre rfl rfl rfl rfl

end

theorem inv_init (hv : version ≠ 0) : Inv fs version.toNat (init version) where
  positive := Nat.pos_of_ne_zero fun h => hv (UInt64.toNat_inj.mp h)
  numbered := numbered_nil _
  version := rfl
  remembers := remembers_nil _ _
  genuine := fun _ h => (nomatch h)
  attached := fun h => (nomatch h)
  follows := fun _ h => (nomatch h)
  resumed := fun h => (nomatch h)
  expects := fun h => (nomatch h)

theorem Inv.step (h : Inv fs first s) {a : Action M L} (ho : s.Allowed fs a) : Inv fs first (s.step fs a) := by
  cases a with
  | update line ts => exact h.update ho
  | rotate =>
    unfold Pair.step broadcast
    split_ifs
    · exact h.send rfl fun p hp => by rw [mem_singleton.mp hp]; rfl
    · exact h
  | configure seconds =>
    refine ⟨h.positive, h.numbered, h.version, h.remembers, h.genuine, h.attached, fun hru hs => ?_, h.resumed,
      fun hr ha m hm => (h.expects hr ha m hm).congr rfl rfl rfl rfl rfl⟩
    obtain ⟨m₀, m, hf⟩ := h.follows hru hs
    exact ⟨m₀, m, hf.mono (.refl _) rfl rfl fun _ h => h⟩
  | masterHandles vershex accepts => exact h.masterHandles
  | masterSends p =>
    unfold Pair.step
    dsimp only
    split_ifs with hp
    · refine h.send ?_ fun q hq => by rw [mem_singleton.mp hq]; exact hp.2.2
      rw [logs_cons_of_isLog hp.2.1]
      rfl
    · exact h
  | masterCloses => exact h.masterCloses
  | deliver o => exact h.deliver ho
  | own e =>
    cases e with
    | packet p o => exact h
    | _ => exact h.own fun _ _ h => (nomatch h)

/-! ## The result -/

theorem forced_of_reply (ho : s.shadow.online) (hs : s.shadow.state = .synchronized)
    (hm : s.shadow.metadata = some m) (vershex : UInt32) {reply : UInt64} (hn : reply ≠ fs.getversion m)
    (o : System M L) : Forced (s.shadow.step fs (.packet (.registerShadow vershex reply) o)) := by
  rw [state_step_packet ho]
  unfold MasterConn.gotpacket MasterConn.registered
  dsimp only
  have hp : SameCore s.shadow (intSendMatoclport
      { s.shadow with mode := .header, version := vershex } o.resolves) ∧
      (intSendMatoclport { s.shadow with mode := .header, version := vershex } o.resolves).mode = .header := by
    unfold intSendMatoclport
    split_ifs <;> exact ⟨⟨rfl, rfl, rfl, rfl⟩, rfl⟩
  generalize intSendMatoclport { s.shadow with mode := .header, version := vershex } o.resolves = c at hp ⊢
  rw [if_pos (hp.1.state.trans hs), hp.1.metadata, hm]
  dsimp only
  rw [if_pos hn.symm]
  unfold forceMetadataDownload killSession
  rw [hp.1.metadata, hm]
  rw [if_neg (by rw [hp.2]; decide)]
  exact ⟨rfl, rfl, rfl, rfl⟩

theorem Inv.served (h : Inv fs first s) (hres : s.resumed) (hat : s.attached) : s.Served fs first := by
  obtain ⟨ho, hs⟩ := h.resumed hres
  obtain ⟨m₀, m, hf⟩ := h.follows ho.1 hs
  refine ⟨m, hf.metadata, ?_⟩
  cases h.expects hres hat m hf.metadata with
  | asking hr ha hl hre =>
    have hm : .registerShadow (fs.getversion m) ∈ s.shadow.registers := ha ▸ mem_singleton_self _
    exact .inl ⟨hr, mem_of_mem_filter hm, hl⟩
  | rejected before status after hr hc hl hre =>
    exact .inr (.inl ⟨status, hc ▸ mem_append_right _ mem_cons_self⟩)
  | answered before vershex reply after hr hc hl hre hco =>
    refine .inr (.inr (.inl ⟨before, vershex, reply, after, hc, hl, ?_⟩))
    by_cases he : reply = fs.getversion m
    · exact .inr ⟨he, (hco he).logs⟩
    · exact .inl ⟨he, forced_of_reply ho hs hf.metadata vershex he⟩
  | served hr hco => exact .inr (.inr (.inr hco.logs))

/-- **Shadow synchronisation is gap-free**, in runs in which no load ends behind the counters of `restore`. A
synchronised shadow has the metadata it loaded last, plus consecutive entries of the master's log, each applied once.
One that connected while synchronised will be rejected, or be made to download, or has every entry from its version to
the master's on its way, in order. -/
theorem gap_free (fs : FileSystem M L) (version : UInt64) (hversion : version ≠ 0) (actions : List (Action M L))
    (hok : Along (step fs) (Allowed fs) (init version) actions) :
    (Numbered version.toNat (afterRun fs version actions).history ∧ (afterRun fs version actions).metaversion.toNat =
        version.toNat + (afterRun fs version actions).history.length) ∧
    ((afterRun fs version actions).shadow.running → (afterRun fs version actions).shadow.state = .synchronized →
      (afterRun fs version actions).InStep fs) ∧
    ((afterRun fs version actions).resumed → (afterRun fs version actions).attached →
      (afterRun fs version actions).Served fs version.toNat) := by
  have hinv : Inv fs version.toNat (afterRun fs version actions) :=
    inv_run (fun _ a hok h => h.step hok) _ actions hok (inv_init hversion)
  refine ⟨⟨hinv.numbered, hinv.version⟩, fun hrun hsync => ?_, hinv.served⟩
  obtain ⟨m₀, m, hf⟩ := hinv.follows hrun hsync
  exact ⟨m₀, m, hf.base, hf.metadata, hf.numbered, hf.genuine, hf.replayed, hf.version⟩

/-- metadata that are nothing but their version -/
def onlyVersion : FileSystem UInt64 Unit := ⟨id, fun m _ => some (m + 1, .ok)⟩

variable (directory : Directory UInt64 Unit)

/-- an operating system without failures -/
def finding : System UInt64 Unit := ⟨true, true, true, true, true, true, directory⟩

/-- the shadow connects, the master reads its registration, and the shadow gets the reply -/
def connecting : List (Action UInt64 Unit) :=
  [.own (.reconnect .immediate false), .masterHandles (saunafsVersion 4 0 0) true,
    .deliver (finding (.unusable 0 .unknown))]

/-- four empty files are downloaded, and the shadow loads what is in its directory -/
def downloading : List (Action UInt64 Unit) :=
  [.masterSends (.downloadStart 0), .deliver (finding (.unusable 0 .unknown)), .masterSends (.downloadStart 0),
    .deliver (finding (.unusable 0 .unknown)), .masterSends (.downloadStart 0),
      .deliver (finding (.unusable 0 .unknown)),
    .masterSends (.downloadStart 0), .deliver (finding directory)]

/-- the connection is lost -/
def losing : List (Action UInt64 Unit) := [.own .lost, .own .close]

/-- a shadow loads version 5, and is away while the master logs two changes -/
def returning : List (Action UInt64 Unit) :=
  connecting ++ downloading (.image 5 []) ++ losing ++ [.update () 1, .update () 2] ++ connecting

theorem gap_free_returning : (afterRun onlyVersion 5 returning).Served onlyVersion 5 ∧
      logs (afterRun onlyVersion 5 returning).channel = [(5, ()), (6, ())] := by
  have hnone (s : Pair UInt64 Unit) : s.Allowed onlyVersion (.deliver (finding (.unusable 0 .unknown))) :=
    fun _ m v h => by cases h
  have hupdate (s : Pair UInt64 Unit) (ts : UInt32) (h : s.metaversion + 1 ≠ 0) : s.Allowed onlyVersion
    (.update () ts) := h
  refine ⟨(gap_free onlyVersion 5 (by decide) returning ?_).2.2 (by decide +kernel)
    (by decide +kernel), by decide +kernel⟩
  refine ⟨trivial, trivial, hnone _, trivial, hnone _, trivial, hnone _, trivial, hnone _, trivial,
    ?_, trivial, trivial,
    hupdate _ _ (by decide +kernel), hupdate _ _ (by decide +kernel), trivial, trivial, hnone _, trivial⟩
  intro _ m v h
  cases h
  exact .inl (by decide +kernel)

/-- a load that was abandoned after two entries, a second one that does not find the file that had stopped it, and a
third connection -/
def retrying : List (Action UInt64 Unit) :=
  [.update () 1, .update () 2] ++ connecting ++
    downloading (.image 5 [.ok [(5, ()), (6, ())], .error .unknown]) ++ losing ++ connecting ++
    downloading (.image 5 [.ok [(5, ()), (6, ())], .ok []]) ++ losing ++ connecting ++
    [.deliver (finding (.unusable 0 .unknown)), .deliver (finding (.unusable 0 .unknown))]

/-- the shadow then counts the entries 5 and 6 as applied, and its metadata still have version 5 -/
theorem entries_passed_over : (afterRun onlyVersion 5 retrying).shadow.running ∧
      (afterRun onlyVersion 5 retrying).shadow.state = .synchronized ∧
      (afterRun onlyVersion 5 retrying).shadow.lastlogversion = 6 ∧
      (afterRun onlyVersion 5 retrying).shadow.metadata = some 5 ∧
      (afterRun onlyVersion 5 retrying).applied = [(5, ()), (6, ())] ∧
      ¬ (afterRun onlyVersion 5 retrying).InStep onlyVersion := by
  have hm : (afterRun onlyVersion 5 retrying).shadow.metadata = some 5 := by decide +kernel
  have hbase : (afterRun onlyVersion 5 retrying).base = some 5 := by decide +kernel
  have happlied : (afterRun onlyVersion 5 retrying).applied = [(5, ()), (6, ())] := by decide +kernel
  refine ⟨by decide +kernel, by decide +kernel, by decide +kernel, hm, happlied, ?_⟩
  rintro ⟨m₀, m, hb, hm', -, -, -, hversion⟩
  rw [hbase] at hb
  rw [hm] at hm'
  cases hb
  cases hm'
  rw [happlied] at hversion
  exact absurd hversion (by decide)

end Pair

end SaunaFS.Shadow
