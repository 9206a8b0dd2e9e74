/-
Replication of the lock tables (`master/filesystem_operations.cc`, `master/restore.cc`). `FLCK` has no non-blocking flag
and is written even when the request failed, and replayed requests have request id 0, so `RMPLOCK` does not find them.
Everywhere else the shadow has the tables of the master without request and message ids.
-/
import SaunaFS.Lib.Stepwise
import SaunaFS.Locks.Image

namespace SaunaFS.Locks

open Stepwise

/-! ## Master and shadow -/

/-- the metadata version and the two lock tables of `gMetadata` -/
structure LockState where
  metaversion : ℕ
  flock : FileLocks
  posix : FileLocks

variable (s : LockState) (kind : LockKind)

def LockState.table : LockKind → FileLocks
  | .flock => s.flock
  | .posix => s.posix

/-- a changed table and the metadata version that goes with the log entry -/
def LockState.put (t : FileLocks) : LockState :=
  match kind with
  | .flock => { s with metaversion := s.metaversion + 1, flock := t }
  | .posix => { s with metaversion := s.metaversion + 1, posix := t }

/-- `safs_locks::Type` as a number: `kFlock`, `kPosix`, and values the lock functions refuse -/
def lockKind? : ℕ → Option LockKind
  | 0 => some .flock
  | 1 => some .posix
  | _ => none

inductive LockRequest where
  | flockOp (inode : ℕ) (owner : Owner) (op : LockOp) (nonblocking : Bool)
  | posixlockOp (inode : ℕ) (start end_ : UInt64) (owner : Owner) (op : LockOp) (nonblocking : Bool)
  | clearSession (type inode sessionid : ℕ)
  | unlockInode (type inode : ℕ)
  | removePending (type ownerid sessionid inode reqid : ℕ)

inductive LockEntry where
  | flck (type inode start end_ owner sessionid : ℕ) (op : LockOp)
  | clrlck (type inode sessionid : ℕ)
  | flckinode (type inode : ℕ)
  | rmplock (type ownerid sessionid inode reqid : ℕ)
deriving DecidableEq

section Functions

variable (nodes : ℕ → Bool) (s : LockState)

def fsFlockOp (inode : ℕ) (owner : Owner) (op : LockOp) (nonblocking : Bool) : LockState × Status :=
  let r := fsLockOp nodes s.flock inode 0 1 owner op nonblocking
  (s.put .flock r.table, r.status)

def fsPosixlockOp (inode start end_ : ℕ) (owner : Owner) (op : LockOp) (nonblocking : Bool) : LockState × Status :=
  let r := fsLockOp nodes s.posix inode start end_ owner op nonblocking
  (s.put .posix r.table, r.status)

/-- the state after a request, and what the master logs: `FLCK` always, the others unless the type is refused -/
def execute : LockRequest → LockState × List LockEntry
  | .flockOp inode owner op nonblocking =>
    ((fsFlockOp nodes s inode owner op nonblocking).1, [.flck 0 inode 0 1 owner.owner owner.sessionid op])
  | .posixlockOp inode start end_ owner op nonblocking =>
    ((fsPosixlockOp nodes s inode start.toNat end_.toNat owner op nonblocking).1,
      [.flck 1 inode start.toNat end_.toNat owner.owner owner.sessionid op])
  | .clearSession type inode sessionid =>
    match lockKind? type with
    | none => (s, [])
    | some kind => (s.put kind (fsLocksClearSession (s.table kind) inode sessionid).table,
        [.clrlck type inode sessionid])
  | .unlockInode type inode =>
    match lockKind? type with
    | none => (s, [])
    | some kind => (s.put kind (fsLocksUnlockInode kind (s.table kind) inode).table, [.flckinode type inode])
  | .removePending type ownerid sessionid inode reqid =>
    match lockKind? type with
    | none => (s, [])
    | some kind => (s.put kind (fsLocksRemovePending (s.table kind) ownerid sessionid inode reqid).table,
        [.rmplock type ownerid sessionid inode reqid])

/-- `do_lock_op`, `do_lock_clear_session`, `do_lock_unlock_inode`, `do_remove_pending_op` -/
def doEntry : LockEntry → LockState × Status
  | .flck type inode start end_ owner sessionid op =>
    match lockKind? type with
    | some .flock =>
      let (s', status) := fsFlockOp nodes s inode ⟨owner, sessionid, 0, 0⟩ op false
      (s', if status = .waiting then .ok else status)
    | some .posix =>
      let (s', status) := fsPosixlockOp nodes s inode start end_ ⟨owner, sessionid, 0, 0⟩ op false
      (s', if status = .waiting then .ok else status)
    | none => (s, .einval)
  | .clrlck type inode sessionid =>
    match lockKind? type with
    | none => (s, .einval)
    | some kind => (s.put kind (fsLocksClearSession (s.table kind) inode sessionid).table, .ok)
  | .flckinode type inode =>
    match lockKind? type with
    | none => (s, .einval)
    | some kind => (s.put kind (fsLocksUnlockInode kind (s.table kind) inode).table, .ok)
  | .rmplock type ownerid sessionid inode reqid =>
    match lockKind? type with
    | none => (s, .einval)
    | some kind => (s.put kind (fsLocksRemovePending (s.table kind) ownerid sessionid inode reqid).table, .ok)

/-- `restore`: an entry is accepted if its function succeeds and moves the metadata version by one -/
def restoreEntry (e : LockEntry) : Option LockState :=
  let (s', status) := doEntry nodes s e
  if status = .ok ∧ s'.metaversion = s.metaversion + 1 then some s' else none

end Functions

/-! ## The image of a state -/

/-- the tables as a metadata image carries them -/
def LockState.image (s : LockState) : LockState := ⟨s.metaversion, s.flock.image, s.posix.image⟩

theorem LockState.image_table : s.image.table kind = (s.table kind).image := by
  cases kind <;> rfl

theorem LockState.image_put (t : FileLocks) : s.image.put kind t.image = (s.put kind t).image := by
  cases kind <;> rfl

variable {t : FileLocks} {i : ℕ} {nonblocking : Bool}

@[simp] theorem LockState.put_metaversion : (s.put kind t).metaversion = s.metaversion + 1 := by
  cases kind <;> rfl

/-! ## What the log does not carry -/

/-- the request exists in the log as it was executed: its inode exists and its `op` is one of the four, and if it must
not block then it goes through -/
def LockOp.Logged (nodes : ℕ → Bool) (t : FileLocks) (inode start end_ : ℕ) (owner : Owner) (op : LockOp)
    (nonblocking : Bool) : Prop :=
  nodes inode = true ∧ match op with
    | .shared => nonblocking = true → fits (t.active inode) (.single .shared start end_ owner) = true
    | .exclusive => nonblocking = true → fits (t.active inode) (.single .exclusive start end_ owner) = true
    | .unlock => True
    | .release => True
    | .other _ => False

/-- the request is replayed as it was executed; an interrupt must match the waiting requests of its owner exactly if its
request id is the 0 that the shadow knows them by -/
def LockRequest.Replicable (nodes : ℕ → Bool) (s : LockState) : LockRequest → Prop
  | .flockOp inode owner op nonblocking => op.Logged nodes s.flock inode 0 1 owner nonblocking
  | .posixlockOp inode start end_ owner op nonblocking =>
    op.Logged nodes s.posix inode start.toNat end_.toNat owner nonblocking
  | .removePending type ownerid sessionid inode reqid =>
    ∀ kind, lockKind? type = some kind → ∀ l ∈ (s.table kind).pending inode, ∀ o, l.owners.head? = some o →
      o.owner = ownerid → o.sessionid = sessionid → (o.reqid = reqid ↔ reqid = 0)
  | _ => True

theorem apply_of_fits {l : LockRange} (h : fits (t.active i) l) : t.apply i l nonblocking = t.apply i l false := by
  simp [FileLocks.apply, h]

theorem fsLockOp_logged {nodes : ℕ → Bool} {s e : ℕ} {o : Owner} {op : LockOp}
    (h : op.Logged nodes t i s e o nonblocking) :
    fsLockOp nodes t i s e o op nonblocking = fsLockOp nodes t i s e o op false ∧
      ((fsLockOp nodes t i s e o op false).status = .ok ∨ (fsLockOp nodes t i s e o op false).status = .waiting) := by
  obtain ⟨hn, ho⟩ := h
  have hs : ∀ b : Bool, (if b then Status.ok else Status.waiting) = .ok ∨
      (if b then Status.ok else Status.waiting) = .waiting := by
    intro b
    cases b <;> simp
  have hl : ∀ type, (nonblocking → fits (t.active i) (.single type s e o)) →
      t.lock type i s e o nonblocking = t.lock type i s e o false := by
    intro type hf
    cases nonblocking with
    | true => exact apply_of_fits (hf rfl)
    | false => rfl
  cases op with
  | shared =>
    simp only [fsLockOp, hn, hl .shared ho]
    exact ⟨trivial, hs _⟩
  | exclusive =>
    simp only [fsLockOp, hn, hl .exclusive ho]
    exact ⟨trivial, hs _⟩
  | release | unlock =>
    simp only [fsLockOp, hn, Bool.not_true, Bool.false_eq_true, ↓reduceIte]
    exact ⟨trivial, hs _⟩
  | other code => exact absurd ho id

/-! ## One request -/

section Step

variable {nodes : ℕ → Bool} {s : LockState}

theorem restoreEntry_of_ok {e : LockEntry} {s' : LockState} (h : doEntry nodes s e = (s', .ok))
    (hv : s'.metaversion = s.metaversion + 1) : restoreEntry nodes s e = some s' := by
  simp [restoreEntry, h, hv]

variable {inode : ℕ}

theorem replay_lockOp (kind : LockKind) {start end_ : ℕ} {owner : Owner} {op : LockOp}
    (h : op.Logged nodes (s.table kind) inode start end_ owner nonblocking) :
    let r := fsLockOp nodes (s.table kind) inode start end_ owner op nonblocking
    let r' := fsLockOp nodes (s.image.table kind) inode start end_ ⟨owner.owner, owner.sessionid, 0, 0⟩ op false
    s.image.put kind r'.table = (s.put kind r.table).image ∧
      (if r'.status = .waiting then .ok else r'.status) = .ok := by
  intro r r'
  obtain ⟨hf, hst⟩ := fsLockOp_logged h
  have hi : r' = r.image := by
    have hr : r = fsLockOp nodes (s.table kind) inode start end_ owner op false := hf
    rw [hr, ← fsLockOp_image, ← LockState.image_table]
    rfl
  refine ⟨?_, ?_⟩
  · rw [hi, LockResult.image, LockState.image_put]
  · have hs : r'.status = (fsLockOp nodes (s.table kind) inode start end_ owner op false).status := by
      rw [hi, ← hf]
      rfl
    rw [hs]
    rcases hst with h1 | h1 <;> simp [h1]

theorem removePending_image {ownerid sessionid reqid : ℕ}
    (h : ∀ l ∈ t.pending inode, ∀ o, l.owners.head? = some o → o.owner = ownerid → o.sessionid = sessionid →
      (o.reqid = reqid ↔ reqid = 0)) : (fsLocksRemovePending t.image ownerid sessionid inode reqid).table =
      (fsLocksRemovePending t ownerid sessionid inode reqid).table.image := by
  refine t.image_removePending inode fun l hl => ?_
  have hl' := h l hl
  cases hos : l.owners with
  | nil => simp [hos]
  | cons o os =>
    have ho := hl' o (by simp [hos])
    simp only [LockRange.image_owners, hos, List.map_cons, List.head?_cons, Option.any_some, Owner.image]
    rw [Bool.eq_iff_iff]
    simp only [Bool.and_eq_true, beq_iff_eq]
    constructor
    · rintro ⟨⟨h1, h2⟩, h3⟩
      exact ⟨⟨h1, h2⟩, (ho h1 h2).2 h3.symm⟩
    · rintro ⟨⟨h1, h2⟩, h3⟩
      exact ⟨⟨h1, h2⟩, ((ho h1 h2).1 h3).symm⟩

theorem execute_sim {r : LockRequest} (h : r.Replicable nodes s) :
    replay (restoreEntry nodes) s.image (execute nodes s r).2 = some (execute nodes s r).1.image := by
  cases r with
  | flockOp inode owner op nonblocking =>
    obtain ⟨h1, h2⟩ := replay_lockOp .flock h
    rw [execute, replay_single]
    exact restoreEntry_of_ok (Prod.ext h1 h2) rfl
  | posixlockOp inode start end_ owner op nonblocking =>
    obtain ⟨h1, h2⟩ := replay_lockOp .posix h
    rw [execute, replay_single]
    exact restoreEntry_of_ok (Prod.ext h1 h2) rfl
  | clearSession type inode sessionid =>
    cases hk : lockKind? type with
    | none =>
      simp only [execute, hk]
      rfl
    | some kind =>
      simp only [execute, hk, replay_single]
      refine restoreEntry_of_ok ?_ (by simp [LockState.image])
      simp only [doEntry, hk, LockState.image_table, fsLocksClearSession_image, LockResult.image, LockState.image_put]
  | unlockInode type inode =>
    cases hk : lockKind? type with
    | none =>
      simp only [execute, hk]
      rfl
    | some kind =>
      simp only [execute, hk, replay_single]
      refine restoreEntry_of_ok ?_ (by simp [LockState.image])
      simp only [doEntry, hk, LockState.image_table, fsLocksUnlockInode_image, LockResult.image, LockState.image_put]
  | removePending type ownerid sessionid inode reqid =>
    cases hk : lockKind? type with
    | none =>
      simp only [execute, hk]
      rfl
    | some kind =>
      simp only [execute, hk, replay_single]
      refine restoreEntry_of_ok ?_ (by simp [LockState.image])
      simp only [doEntry, hk, LockState.image_table, removePending_image (h kind hk), LockState.image_put]

end Step

/-! ## Main results -/

/-- **The lock tables replicate.** In every run of requests each of which is `Replicable` where it executes, from any
tables, a shadow that starts with the image of the master's tables accepts every entry and ends with the image of the
master's. -/
theorem lock_replication (nodes : ℕ → Bool) (m : LockState) (reqs : List LockRequest)
    (h : Stepwise.Along (fun s r => (execute nodes s r).1) (LockRequest.Replicable nodes) m reqs) :
    replay (restoreEntry nodes) m.image (logOf (execute nodes) m reqs).2 =
      some (logOf (execute nodes) m reqs).1.image := by
  have hsim : ∀ (m s : LockState) (r : LockRequest), r.Replicable nodes m → s = m.image →
      ∃ s', replay (restoreEntry nodes) s (execute nodes m r).2 = some s' ∧ s' = (execute nodes m r).1.image := by
    intro m s r hr hms
    exact ⟨_, hms ▸ execute_sim hr, rfl⟩
  obtain ⟨s, hs, rfl⟩ := replay_logOf hsim m m.image reqs h rfl
  exact hs

/-- from empty tables, with inode 7 the only one: a non-blocking request that is turned away waits on the shadow; an
inode or an `op` that does not exist stops the replay; an interrupted request stays in the queue of the shadow -/
theorem lock_replication_fails : let nodes : ℕ → Bool := fun i => i == 7
    let m : LockState := ⟨1, .empty, .empty⟩
    let holder : Owner := ⟨1, 1, 3, 3⟩
    let waiter : Owner := ⟨2, 2, 5, 5⟩
    let log := fun reqs => logOf (execute nodes) m reqs
    let shadow := fun reqs => replay (restoreEntry nodes) m.image (log reqs).2
    let busy : LockRequest := .posixlockOp 7 0 10 holder .exclusive false
    let turnedAway := [busy, .posixlockOp 7 0 10 waiter .exclusive true]
    let interrupted := [busy, .posixlockOp 7 0 10 waiter .exclusive false, .removePending 1 2 2 7 5]
    ((log turnedAway).1.posix.pending 7 = [] ∧
      (shadow turnedAway).map (fun s => s.posix.pending 7) = some [.single .exclusive 0 10 waiter.image]) ∧
    (shadow [.flockOp 8 holder .exclusive false]).isNone ∧
    (shadow [.flockOp 7 holder (.other 8) false]).isNone ∧
    (log interrupted).1.posix.pending 7 = [] ∧
    (shadow interrupted).map (fun s => s.posix.pending 7) = some [.single .exclusive 0 10 waiter.image] := by
  decide

/-- a lock, a request that waits for it and the release of the lock replicate -/
theorem lock_replication_release : let nodes : ℕ → Bool := fun i => i == 7
    let m : LockState := ⟨1, .empty, .empty⟩
    let holder : Owner := ⟨1, 1, 3, 3⟩
    let waiter : Owner := ⟨2, 2, 5, 5⟩
    let reqs : List LockRequest := [.posixlockOp 7 0 10 holder .exclusive false,
      .posixlockOp 7 0 20 waiter .exclusive false, .posixlockOp 7 0 10 holder .unlock true]
    replay (restoreEntry nodes) m.image (logOf (execute nodes) m reqs).2 =
      some (logOf (execute nodes) m reqs).1.image ∧
    (logOf (execute nodes) m reqs).1.posix.active 7 = [.single .exclusive 0 20 waiter] := by
  intro nodes m holder waiter reqs
  refine ⟨lock_replication nodes m reqs ⟨⟨rfl, ?_⟩, ⟨rfl, ?_⟩, ⟨rfl, trivial⟩, trivial⟩, by decide⟩
  · intro h
    cases h
  · intro h
    cases h

end SaunaFS.Locks
