/-
Quotas on the master and on a shadow: `fs_quota_set` and the SETQUOTA entries it writes, `do_setquota` and
`fs_apply_setquota`, which read them. Operations that change what is used stand between the calls; what they use may
differ on the shadow, the nodes they remove are the same there.
-/
import SaunaFS.Changelog.Text
import SaunaFS.Lib.Stepwise
import SaunaFS.Quota.Database

namespace SaunaFS.Quota

open QuotaDatabase

open Namespace (QuotaResource Inode Name)
open Stepwise
open Changelog (eat getChar getU32 lit u32 eat_cons getU32_comma)

/-! ## The text of an entry -/

def rigorName : QuotaRigor → UInt8
  | .soft => 83
  | .hard => 72
  | .used => 85

def resourceName : QuotaResource → UInt8
  | .inodes => 73
  | .size => 83

def ownerName : QuotaOwnerType → UInt8
  | .user => 85
  | .group => 71
  | .inode => 73

/-- the entry that `fs_quota_set` writes, without its keyword -/
def setquotaText (e : QuotaEntry) : Name :=
  lit "(" ++ [rigorName e.rigor] ++ lit "," ++ [resourceName e.resource] ++ lit "," ++
    [ownerName e.ownerType] ++ lit "," ++
    u32 e.ownerId ++ lit "," ++ Decimal.print e.limit.toNat ++ lit ")"

def decodeChar {α : Type*} (values : List (UInt8 × α)) (key : UInt8) : Option α :=
  (values.find? fun v => v.1 == key).map Prod.snd

/-- the arguments of `fs_apply_setquota` -/
structure SetQuota where
  rigor : UInt8
  resource : UInt8
  ownerType : UInt8
  ownerId : UInt32
  limit : UInt64
deriving DecidableEq

def getU64 (s : Name) : UInt64 × Name := Decimal.strtoul s

/-- `do_setquota` up to its call -/
def doSetquota (s : Name) : Option SetQuota := do
  let (rigor, s) ← getChar (← eat 40 s)
  let (resource, s) ← getChar (← eat 44 s)
  let (ownerType, s) ← getChar (← eat 44 s)
  let (ownerId, s) := getU32 (← eat 44 s)
  let (limit, s) := getU64 (← eat 44 s)
  let _ ← eat 41 s
  some ⟨rigor, resource, ownerType, ownerId, limit⟩

theorem doSetquota_setquotaText {e : QuotaEntry} : doSetquota (setquotaText e) =
      some ⟨rigorName e.rigor, resourceName e.resource, ownerName e.ownerType, e.ownerId, e.limit⟩ := by
  have hl : getU64 (Decimal.print e.limit.toNat ++ [41]) = (e.limit, [41]) := by
    rw [getU64, Decimal.strtoul_print e.limit.toNat_lt (by simp; decide), UInt64.ofNat_toNat]
  have hr := getU32_comma e.ownerId (Decimal.print e.limit.toNat ++ [41])
  simp [setquotaText, doSetquota, lit, getChar, eat_cons, hr, hl]

/-! ## The two sides -/

/-- the part of `gMetadata` that quotas are about -/
structure QuotaState where
  nodes : Finset Inode
  quotaDatabase : QuotaDatabase
  quotaChecksum : XorWord 64
  metaversion : ℕ

/-- the caller of `fs_quota_set` -/
structure Caller where
  readonly : Bool
  uid : UInt32
  allCanChangeQuota : Bool
deriving DecidableEq

/-- a call of `fsnodes_quota_update` for one resource -/
structure Usage where
  uid : UInt32
  gid : UInt32
  resource : QuotaResource
  delta : UInt64
deriving DecidableEq

/-- what a changelog entry is replayed as: the text of a SETQUOTA entry, or an operation on nodes -/
inductive LogEntry where
  | setquota (text : Name)
  | nodes (usage : List Usage) (created removed : List Inode)
deriving DecidableEq

/-- an operation of the master; an operation on nodes may use other amounts when it is replayed -/
inductive Op where
  | quotaSet (caller : Caller) (entries : List QuotaEntry)
  | nodes (usage replayedUsage : List Usage) (created removed : List Inode)
deriving DecidableEq

namespace QuotaState

variable (hash : QuotaEntry → XorWord 64)

/-- no node but the root and no quota -/
def initial (root : Inode) : QuotaState := ⟨{root}, .empty, empty.checksum hash, 1⟩

/-- the change that `fs_quota_set` and `fs_apply_setquota` make for one entry -/
def setLimit (s : QuotaState) (e : QuotaEntry) : QuotaState :=
  let db := (s.quotaDatabase.set e.ownerType e.ownerId e.rigor e.resource e.limit).removeEmpty e.ownerType e.ownerId
  { s with quotaDatabase := db, quotaChecksum := db.checksum hash, metaversion := s.metaversion + 1 }

def quotaUpdate (s : QuotaState) (u : Usage) : QuotaState :=
  if u.delta = 0 then s
  else
    { s with
      quotaDatabase :=
        (s.quotaDatabase.update .user u.uid .used u.resource u.delta).update .group u.gid .used u.resource u.delta }

/-- the end of `fsnodes_remove_node`, with `fsnodes_quota_remove` -/
def removeNode (s : QuotaState) (id : Inode) : QuotaState :=
  let db := s.quotaDatabase.remove .inode id
  { s with nodes := s.nodes.erase id, quotaDatabase := db, quotaChecksum := db.checksum hash }

def createNode (s : QuotaState) (id : Inode) : QuotaState := { s with nodes := insert id s.nodes }

/-- an operation on nodes -/
def changeNodes (s : QuotaState) (usage : List Usage) (created removed : List Inode) : QuotaState :=
  let s := created.foldl createNode s
  let s := removed.foldl (removeNode hash) (usage.foldl quotaUpdate s)
  { s with metaversion := s.metaversion + 1 }

/-- the checks of `fs_quota_set` -/
def quotaSetStatus (s : QuotaState) (caller : Caller) (entries : List QuotaEntry) : Status :=
  if caller.readonly then .erofs
  else if caller.uid ≠ 0 ∧ caller.allCanChangeQuota = false then .eperm
  else if entries.any fun e => e.ownerType == .inode && !decide (e.ownerId ∈ s.nodes) then .einval
  else .ok

/-- the master: the next state and what it writes to the changelog -/
def exec (s : QuotaState) : Op → QuotaState × List LogEntry
  | .quotaSet caller entries =>
    if s.quotaSetStatus caller entries = .ok then
      (entries.foldl (setLimit hash) s, entries.map fun e => .setquota (setquotaText e))
    else (s, [])
  | .nodes usage replayedUsage created removed =>
    (s.changeNodes hash usage created removed, [.nodes replayedUsage created removed])

/-- `fs_apply_setquota`; none is `SAUNAFS_ERROR_EINVAL` -/
def fsApplySetquota (s : QuotaState) (q : SetQuota) : Option QuotaState :=
  match decodeChar [(83, QuotaRigor.soft), (72, .hard)] q.rigor,
    decodeChar [(83, QuotaResource.size), (73, .inodes)] q.resource,
    decodeChar [(85, QuotaOwnerType.user), (71, .group), (73, .inode)] q.ownerType with
  | some rigor, some resource, some ownerType => some (s.setLimit hash ⟨ownerType, q.ownerId, rigor, resource, q.limit⟩)
  | _, _, _ => none

/-- the shadow: the state after an entry, or none if it refuses it -/
def apply (s : QuotaState) : LogEntry → Option QuotaState
  | .setquota text => (doSetquota text).bind (s.fsApplySetquota hash)
  | .nodes usage created removed => some (s.changeNodes hash usage created removed)

/-! ## The two sides agree -/

/-- the same nodes, limits, version and checksum -/
structure Agrees (m s : QuotaState) : Prop where
  nodes : m.nodes = s.nodes
  limits : m.quotaDatabase.SameLimits s.quotaDatabase
  checksum : m.quotaChecksum = s.quotaChecksum
  metaversion : m.metaversion = s.metaversion

variable {m s : QuotaState}

section

variable (h : Agrees m s)
include h

theorem Agrees.setLimit (e : QuotaEntry) : Agrees (m.setLimit hash e) (s.setLimit hash e) where
  nodes := h.nodes
  limits := (h.limits.set _ _ _ _ _).removeEmpty _ _
  checksum := checksum_congr hash ((h.limits.set _ _ _ _ _).removeEmpty _ _)
  metaversion := congrArg (· + 1) h.metaversion

theorem Agrees.removeNode (id : Inode) : Agrees (m.removeNode hash id) (s.removeNode hash id) where
  nodes := congrArg (·.erase id) h.nodes
  limits := h.limits.remove _ _
  checksum := checksum_congr hash (h.limits.remove _ _)
  metaversion := h.metaversion

theorem Agrees.quotaUpdate_left {u : Usage} : Agrees (m.quotaUpdate u) s := by
  unfold quotaUpdate
  split_ifs
  · exact h
  · refine ⟨h.nodes, ?_, h.checksum, h.metaversion⟩
    exact ((SameLimits.update_used _ _ _ _ _).trans
      (SameLimits.update_used _ _ _ _ _)).trans
      h.limits

theorem Agrees.symm : Agrees s m := ⟨h.nodes.symm, h.limits.symm, h.checksum.symm, h.metaversion.symm⟩

theorem Agrees.foldl_quotaUpdate_left (usage : List Usage) : Agrees (usage.foldl quotaUpdate m) s := by
  induction usage generalizing m with
  | nil => exact h
  | cons u usage ih => exact ih h.quotaUpdate_left

end

theorem Agrees.foldl {α : Type*} {f : QuotaState → α → QuotaState}
    (hf : ∀ {m s : QuotaState} (a : α), Agrees m s → Agrees (f m a) (f s a)) (h : Agrees m s) (l : List α) :
    Agrees (l.foldl f m) (l.foldl f s) := by
  induction l generalizing m s with
  | nil => exact h
  | cons a l ih => exact ih (hf a h)

theorem Agrees.changeNodes (h : Agrees m s) (usage : List Usage) {usage' : List Usage} {created removed : List Inode} :
    Agrees (m.changeNodes hash usage created removed) (s.changeNodes hash usage' created removed) := by
  have hc : Agrees (created.foldl createNode m) (created.foldl createNode s) :=
    h.foldl (f := createNode) (fun id h => ⟨congrArg (insert id) h.nodes, h.limits, h.checksum, h.metaversion⟩) created
  have hu := ((hc.foldl_quotaUpdate_left usage).symm.foldl_quotaUpdate_left usage').symm
  have hr := hu.foldl (f := QuotaState.removeNode hash) (fun id h => h.removeNode hash id) removed
  exact ⟨hr.nodes, hr.limits, hr.checksum, congrArg (· + 1) hr.metaversion⟩

theorem apply_setquotaText {e : QuotaEntry} :
    s.apply hash (.setquota (setquotaText e)) = if e.rigor = .used then none else some (s.setLimit hash e) := by
  obtain ⟨ownerType, ownerId, rigor, resource, limit⟩ := e
  simp only [apply, doSetquota_setquotaText, Option.bind_some]
  cases rigor <;> cases resource <;> cases ownerType <;> rfl

theorem replay_entries (h : Agrees m s) (entries : List QuotaEntry) : if ∀ e ∈ entries, e.rigor ≠ .used then
      ∃ s', replay (apply hash) s (entries.map fun e => .setquota (setquotaText e)) = some s' ∧
        Agrees (entries.foldl (QuotaState.setLimit hash) m) s'
    else replay (apply hash) s (entries.map fun e => .setquota (setquotaText e)) = none := by
  induction entries generalizing m s with
  | nil => simpa [replay] using h
  | cons e entries ih =>
    by_cases hu : e.rigor = .used
    · rw [if_neg fun ha => ha e List.mem_cons_self hu]
      simp [replay, apply_setquotaText hash, hu]
    · have hr := ih (h.setLimit hash e)
      simp only [List.map_cons, replay, apply_setquotaText hash, List.forall_mem_cons, ne_eq, hu,
        not_false_eq_true, true_and, List.foldl_cons]
      exact hr

/-- an accepted call of `fs_quota_set` sets no used amount -/
def SetsLimits (m : QuotaState) : Op → Prop
  | .quotaSet caller entries => m.quotaSetStatus caller entries = .ok → ∀ e ∈ entries, e.rigor ≠ .used
  | .nodes .. => True

theorem replay_exec (h : Agrees m s) {o : Op} :
    (SetsLimits m o → ∃ s', replay (apply hash) s (m.exec hash o).2 = some s' ∧ Agrees (m.exec hash o).1 s') ∧
      (¬SetsLimits m o → replay (apply hash) s (m.exec hash o).2 = none) := by
  cases o with
  | nodes usage replayedUsage created removed =>
    refine ⟨fun _ => ⟨_, replay_single s _, h.changeNodes hash usage⟩, fun hn => ?_⟩
    exact absurd trivial hn
  | quotaSet caller entries =>
    by_cases ho : m.quotaSetStatus caller entries = .ok
    · have he := replay_entries hash h entries
      simp only [exec, SetsLimits, ho, true_implies]
      split_ifs at he with ha
      · exact ⟨fun _ => he, fun hn => absurd ha hn⟩
      · exact ⟨fun ha' => absurd ha' ha, fun _ => he⟩
    · simp only [exec, SetsLimits, if_neg ho]
      exact ⟨fun _ => ⟨s, rfl, h⟩, fun hn => absurd (fun ho' => absurd ho' ho) hn⟩

theorem replay_none (h : Agrees m s) {ops : List Op}
    (hn : ¬Stepwise.Along (fun m o => (m.exec hash o).1) SetsLimits m ops) :
    replay (apply hash) s (logOf (exec hash) m ops).2 = none := by
  induction ops generalizing m s with
  | nil => exact absurd trivial hn
  | cons o ops ih =>
    simp only [logOf, replay_append]
    by_cases ho : SetsLimits m o
    · obtain ⟨s', hr, ha⟩ := (replay_exec hash h).1 ho
      rw [hr, Option.bind_some]
      exact ih ha fun hre => hn ⟨ho, hre⟩
    · rw [(replay_exec hash h).2 ho, Option.bind_none]

/-- **Quotas on the shadow.** For every run of the master from a state the shadow agrees with, the shadow accepts every
entry exactly if no accepted call of `fs_quota_set` sets a used amount, and then it has the same limits and the same
checksums. -/
theorem quota_replication (hash : QuotaEntry → XorWord 64) (m s : QuotaState) (h : Agrees m s) (ops : List Op) :
    let log := (logOf (exec hash) m ops).2
    let m' := (logOf (exec hash) m ops).1
    (Stepwise.Along (fun m o => (m.exec hash o).1) SetsLimits m ops →
      ∃ s', replay (apply hash) s log = some s' ∧ m'.quotaDatabase.SameLimits s'.quotaDatabase ∧
        m'.quotaDatabase.checksum hash = s'.quotaDatabase.checksum hash ∧ m'.quotaChecksum = s'.quotaChecksum) ∧
    (¬Stepwise.Along (fun m o => (m.exec hash o).1) SetsLimits m ops → replay (apply hash) s log = none) := by
  intro log m'
  constructor
  · intro hok
    obtain ⟨s', hreplay, hagrees⟩ :=
      replay_logOf (fun m s o ho (hms : Agrees m s) => (replay_exec hash hms).1 ho) m s ops hok h
    exact ⟨s', hreplay, hagrees.limits, checksum_congr hash hagrees.limits, hagrees.checksum⟩
  · intro hnot
    exact replay_none hash h hnot

/-- a user gets a limit and a directory one that goes away with it; the shadow uses nothing -/
theorem quota_replication_limits : ∃ s', replay (apply fun _ => 0) (initial (fun _ => 0) 1)
      (logOf (exec fun _ => 0) (initial (fun _ => 0) 1)
        [.nodes [⟨7, 7, .inodes, 1⟩] [] [2] [],
          .quotaSet ⟨false, 0, false⟩ [⟨.user, 7, .hard, .size, 100⟩, ⟨.inode, 2, .soft, .inodes, 9⟩],
          .nodes [] [] [] [2]]).2 = some s' ∧ (s'.quotaDatabase.limitsOf .user 7).hardSize = 100 := by
  obtain ⟨s', hreplay, hlimits, -⟩ := (quota_replication (fun _ => 0) (initial (fun _ => 0) 1) (initial (fun _ => 0) 1)
    ⟨rfl, fun _ _ _ _ _ => rfl, rfl, rfl⟩
    [.nodes [⟨7, 7, .inodes, 1⟩] [] [2] [],
      .quotaSet ⟨false, 0, false⟩ [⟨.user, 7, .hard, .size, 100⟩, ⟨.inode, 2, .soft, .inodes, 9⟩],
      .nodes [] [] [] [2]]).1 ⟨trivial, fun _ => by decide, trivial, trivial⟩
  exact ⟨s', hreplay, (hlimits .user 7 .hard .size (by decide)).symm.trans (by decide +kernel)⟩

/-- `fs_quota_set` accepts a used amount, and the shadow refuses the entry that is written for it -/
theorem used_amount_refused :
    (initial (fun _ => 0) 1).quotaSetStatus ⟨false, 0, false⟩ [⟨.user, 7, .used, .inodes, 5⟩] = .ok ∧
      ((initial (fun _ => 0) 1).exec (fun _ => 0) (.quotaSet ⟨false, 0, false⟩ [⟨.user, 7, .used, .inodes, 5⟩])).2 =
        [.setquota (lit "(U,I,U,7,5)")] ∧
      ((initial (fun _ => 0) 1).apply (fun _ => 0) (.setquota (lit "(U,I,U,7,5)"))).isNone := by
  refine ⟨by decide, ?_, ?_⟩
  · decide +kernel
  · decide +kernel

end QuotaState

end SaunaFS.Quota
