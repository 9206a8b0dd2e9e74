/-
`FileLocks` (`master/locks.h`, `master/locks.cc`) and the lock operations of the master
(`master/filesystem_operations.cc`): the active ranges and the queue of waiting requests of every inode.

The two unordered maps are functions from inodes to lists. `fsnodes_check_lock_permissions` runs here without session
data, where it only asks whether the inode exists; `nodes` answers that.
-/
import SaunaFS.Locks.LockRange
import SaunaFS.Status

namespace SaunaFS.Locks

open SortedSearch

/-- `std::numeric_limits<uint64_t>::max()` -/
def u64Max : ℕ := 2 ^ 64 - 1

/-! ## The class -/

structure FileLocks where
  active : ℕ → List LockRange
  pending : ℕ → List LockRange

namespace FileLocks

def empty : FileLocks := ⟨fun _ => [], fun _ => []⟩

variable (t : FileLocks) (inode : ℕ) (data : List LockRange)

def setActive (data : List LockRange) : FileLocks := { t with active := Function.update t.active inode data }

def setPending (queue : List LockRange) : FileLocks := { t with pending := Function.update t.pending inode queue }

def enqueue (lock : LockRange) : FileLocks :=
  let queue := t.pending inode
  t.setPending inode ((queue.takeWhile fun l => decide (l.queueKey < lock.queueKey)) ++
    lock :: queue.dropWhile fun l => decide (l.queueKey < lock.queueKey))

def apply (lock : LockRange) (nonblocking : Bool) : FileLocks × Bool :=
  if fits (t.active inode) lock then (t.setActive inode (insert (t.active inode) lock), true)
  else if !nonblocking && !lock.unlocking then (t.enqueue inode lock, false)
  else (t, false)

/-- `sharedLock`, `exclusiveLock` and `unlock` of a range -/
def lock (type : LockType) (inode start end_ : ℕ) (owner : Owner) (nonblocking : Bool) : FileLocks × Bool :=
  t.apply inode (.single type start end_ owner) nonblocking

def gatherCandidates (start end_ : ℕ) : FileLocks × List LockRange :=
  let w := window LockRange.start (t.pending inode) start end_
  (t.setPending inode (w.before ++ w.after), w.inside)

def removePending (pred : LockRange → Bool) : FileLocks :=
  t.setPending inode ((t.pending inode).filter fun l => !pred l)

def unlockInode : FileLocks := t.setActive inode []

/-- the ranges that lose an owner to `unlock(inode, pred)` -/
def affected (pred : Owner → Bool) : List LockRange := data.filter fun r => r.owners.any pred

/-- the ranges without the owners that match, and without the ranges left with none -/
def dropOwners (pred : Owner → Bool) : List LockRange :=
  (data.map fun r => { r with owners := r.owners.filter fun o => !pred o }).filter fun r => !r.owners.isEmpty

/-- the least start and the greatest end of the ranges, from an empty range on -/
def hull (hit : List LockRange) : ℕ × ℕ :=
  (hit.foldl (fun s r => min s r.start) u64Max, hit.foldl (fun e r => max e r.end_) 0)

/-- `unlock(inode, pred)`: the table without the owners, and the hull of the ranges that were affected -/
def unlockOwners (pred : Owner → Bool) : FileLocks × (ℕ × ℕ) :=
  (t.setActive inode (dropOwners (t.active inode) pred), hull (affected (t.active inode) pred))

end FileLocks

/-! ## The operations of the master -/

/-- what an operation leaves, returns and has granted to waiting requests -/
structure LockResult where
  table : FileLocks
  status : Status
  granted : List LockRange

/-- the owners the master wakes up -/
def LockResult.applied (r : LockResult) : List Owner := r.granted.flatMap LockRange.owners

/-- apply the candidates one by one; those that do not fit go back to the queue -/
def applyCandidates (t : FileLocks) (inode : ℕ) : List LockRange → FileLocks × List LockRange
  | [] => (t, [])
  | candidate :: queue =>
    let (t', success) := t.apply inode candidate false
    let (t'', granted) := applyCandidates t' inode queue
    (t'', if success then candidate :: granted else granted)

def fsManageLockTryLockPending (t : FileLocks) (inode start end_ : ℕ) : FileLocks × List LockRange :=
  let (t', queue) := t.gatherCandidates inode start end_
  applyCandidates t' inode queue

/-- the `op` of a lock request: the values that `fs_lock_op` switches on, and any other -/
inductive LockOp where
  | unlock
  | shared
  | exclusive
  | release
  | other (code : ℕ)
deriving DecidableEq

/-- requests of one owner, as `kRelease` drops them -/
def ofOwner (ownerid sessionid : ℕ) (l : LockRange) : Bool :=
  l.owners.head?.any fun o => o.sessionid == sessionid && o.owner == ownerid

def fsLockOp (nodes : ℕ → Bool) (t : FileLocks) (inode start end_ : ℕ) (owner : Owner) (op : LockOp)
    (nonblocking : Bool) : LockResult :=
  if !nodes inode then ⟨t, .enoent, []⟩
  else
    -- the switch: the table, the range to look at afterwards, and whether the request went through
    match op with
    | .shared =>
      let (t', success) := t.lock .shared inode start end_ owner nonblocking
      let (t'', granted) := fsManageLockTryLockPending t' inode start end_
      ⟨t'', if success then .ok else .waiting, granted⟩
    | .exclusive =>
      let (t', success) := t.lock .exclusive inode start end_ owner nonblocking
      ⟨t', if success then .ok else .waiting, []⟩
    | .release =>
      let (t', success) := (t.removePending inode (ofOwner owner.owner owner.sessionid)).lock .unlock inode 0 u64Max
        owner false
      let (t'', granted) := fsManageLockTryLockPending t' inode 0 u64Max
      ⟨t'', if success then .ok else .waiting, granted⟩
    | .unlock =>
      let (t', success) := t.lock .unlock inode start end_ owner false
      let (t'', granted) := fsManageLockTryLockPending t' inode start end_
      ⟨t'', if success then .ok else .waiting, granted⟩
    | .other _ => ⟨t, .einval, []⟩

/-- `safs_locks::Type`: which of the two tables a request is about -/
inductive LockKind where
  | flock
  | posix
deriving DecidableEq

def LockKind.wholeEnd : LockKind → ℕ
  | .flock => 1
  | .posix => u64Max

def ofSession (sessionid : ℕ) (o : Owner) : Bool := o.sessionid == sessionid

/-- `fs_locks_clear_session` on the table: the candidates are taken out of the queue and reported -/
def fsLocksClearSession (t : FileLocks) (inode sessionid : ℕ) : LockResult :=
  let t' := t.removePending inode fun l => l.owners.head?.any (ofSession sessionid)
  let (t'', first, second) := t'.unlockOwners inode (ofSession sessionid)
  if first < second then
    let (t₃, queue) := t''.gatherCandidates inode first second
    ⟨t₃, .ok, queue⟩
  else ⟨t'', .ok, []⟩

variable (kind : LockKind)

def fsLocksUnlockInode (t : FileLocks) (inode : ℕ) : LockResult :=
  let (t', granted) := fsManageLockTryLockPending (t.unlockInode inode) inode 0 kind.wholeEnd
  ⟨t', .ok, granted⟩

/-- `fs_locks_remove_pending` on the table: an interrupted request leaves the queue -/
def fsLocksRemovePending (t : FileLocks) (ownerid sessionid inode reqid : ℕ) : LockResult :=
  ⟨t.removePending inode fun l => l.owners.head?.any fun o =>
    o.owner == ownerid && o.sessionid == sessionid && o.reqid == reqid, .ok, []⟩

/-- a call that changes one lock table; `fs_flock_op` passes the range `[0, 1)` whatever the request -/
inductive Call where
  | lockOp (inode : ℕ) (start end_ : UInt64) (owner : Owner) (op : LockOp) (nonblocking : Bool)
  | clearSession (inode sessionid : ℕ)
  | unlockInode (inode : ℕ)
  | removePending (ownerid sessionid inode reqid : ℕ)

def LockKind.range (start end_ : UInt64) : ℕ × ℕ :=
  match kind with
  | .flock => (0, 1)
  | .posix => (start.toNat, end_.toNat)

def exec (nodes : ℕ → Bool) (t : FileLocks) : Call → LockResult
  | .lockOp inode start end_ owner op nonblocking =>
    fsLockOp nodes t inode (kind.range start end_).1 (kind.range start end_).2 owner op nonblocking
  | .clearSession inode sessionid => fsLocksClearSession t inode sessionid
  | .unlockInode inode => fsLocksUnlockInode kind t inode
  | .removePending ownerid sessionid inode reqid => fsLocksRemovePending t ownerid sessionid inode reqid

def step (nodes : ℕ → Bool) (t : FileLocks) (c : Call) : FileLocks := (exec kind nodes t c).table

end SaunaFS.Locks
