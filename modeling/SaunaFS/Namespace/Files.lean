/-
Contents of files (`master/filesystem_operations.cc`, `master/filesystem_node.cc`).

What the chunk table answers to a call is an argument: a status, or the number of the chunk to be used. Repairing a file
before it is read or written (`fs_auto_repair_if_needed`) is a step of its own.
-/
import SaunaFS.Namespace.Operations

namespace SaunaFS.Namespace

def maxIndex : ℕ := 0x7FFFFFFF

/-- the size to which a vector of chunks grows -/
def roundedSize (n : ℕ) : ℕ :=
  if n ≤ 8 then n
  else if n ≤ 64 then (n - 1) / 8 * 8 + 8
  else (n - 1) / 64 * 64 + 64

/-- `resize` of a vector, with holes at the end -/
def resizeChunks (chunks : List ℕ) (size : ℕ) : List ℕ := chunks ++ List.replicate (size - chunks.length) 0

namespace Metadata

/-! ## Length -/

def spaceCredit (state : FileState) (amount : ℤ) : Account → ℤ :=
  match state with
  | .live => 0
  | .trash => credit .trashspace amount
  | .reserved => credit .reservedspace amount

variable (cfg : Config) (t : Metadata) (c : FsContext)

/-- the space of trashed or reserved files that a new length takes -/
def adjustSpace (f : FileData) (length : ℕ) : Metadata :=
  { t with accounts := t.accounts + spaceCredit f.state ((length : ℤ) - f.length) }

def setFile (id : Inode) (k : FileData → FileData) : Metadata :=
  t.modifyNode id fun n => { n with data := n.data.mapFile k }

/-- the number of chunks that a length takes, cut to 32 bits -/
def chunksOfLength (length : ℕ) : ℕ := if 0 < length then ((length - 1) / chunkSize + 1) % 2 ^ 32 else 0

def fsnodesSetlength (id : Inode) (n : FSNode) (f : FileData) (length : ℕ) : Metadata :=
  let psr := t.fsnodesGetStats cfg id
  let t := t.adjustSpace f length
  let chunks := chunksOfLength length
  let t := t.addCalls (chunkCalls (.delete · n.goal) (f.chunks.drop chunks))
  let t := t.setFile id fun f => { f with length := length, chunks := f.chunks.take chunks }
  let t := t.recountFile cfg id n n.parent psr
  t.fsnodesUpdateChecksum cfg id

/-- the end of an operation that changes a file: `mtime`, `ctime` and the checksum -/
def touchFile (id : Inode) (ts : UInt32) : Metadata :=
  let t := t.modifyNode id fun n => { n with mtime := ts }
  (t.fsnodesUpdateCtime id ts).fsnodesUpdateChecksum cfg id

/-- the file that an operation works on -/
def fileOf (n : FSNode) : Except Failure FileData :=
  match n.data with
  | .file f => .ok f
  | _ => .error (.status .eperm)

@[simp] theorem fileOf_eq_ok {n : FSNode} {f : FileData} : fileOf n = .ok f ↔ n.data = .file f := by
  unfold fileOf
  cases n.data <;> simp

variable (inode : Inode)

def fsDoSetlength (length : ℕ) : Outcome := do
  requireSession c .any
  let (p, n) ← forOperation (t.fsnodesGetNodeForOperation c .file modeMaskEmpty inode)
  let f ← fileOf n
  .ok ((t.fsnodesSetlength cfg p n f length).touchFile cfg p c.ts, [])

/-- `fs_try_setlength`: the chunk at the new end is truncated, and may be replaced by a copy -/
def fsTrySetlength (opened : Bool) (length : ℕ) (answer : Except Status ℕ+) : Outcome := do
  requireSession c .notMeta
  let (p, n) ← forOperation (t.fsnodesGetNodeForOperation c .file (if opened then modeMaskEmpty else modeMaskW) inode)
  let f ← fileOf n
  let indx := length / chunkSize % 2 ^ 32
  let ochunkid := f.chunks.getD indx 0
  if length % chunkSize ≠ 0 ∧ 0 < ochunkid then
    match answer with
    | .error s => .error (.status s)
    | .ok nchunkid =>
      let t := t.addCalls [.modify ochunkid n.goal nchunkid]
      let t := t.setFile p fun f => { f with chunks := f.chunks.set indx nchunkid }
      .ok (t.fsnodesUpdateChecksum cfg p, [])
  else .ok (t, [])

/-! ## Writing -/

/-- `fs_writechunk`. When the chunk table refuses, the holes at the end stay. -/
def fsWritechunk (indx : ℕ) (answer : Except Status ℕ+) : Outcome := do
  requireSession c .notMeta
  let (p, n) ← forOperation (t.fsnodesGetNodeForOperation c .file modeMaskEmpty inode)
  let f ← fileOf n
  require (indx ≤ maxIndex) .indextoobig
  require (decide (indx < f.chunks.length) || !cfg.quotaSize t.toTables p) .quota
  let psr := t.fsnodesGetStats cfg p
  let size := if indx < f.chunks.length then f.chunks.length else roundedSize (indx + 1)
  let t := t.setFile p fun f => { f with chunks := resizeChunks f.chunks size }
  match answer with
  | .error _ => .ok (t.fsnodesUpdateChecksum cfg p, [])
  | .ok nchunkid =>
    let t := t.addCalls [.modify (f.chunks.getD indx 0) n.goal nchunkid]
    let t := t.setFile p fun f => { f with chunks := f.chunks.set indx nchunkid }
    let t := t.recountFile cfg p n n.parent psr
    .ok (t.touchFile cfg p c.ts, [])

/-- `fs_writeend`, where the chunk may be unlocked -/
def fsWriteend (ts : UInt32) (inode : Inode) (length : ℕ) : Outcome := do
  if length = 0 then .ok (t, [])
  else
    let n ← t.nodeOf inode
    let f ← fileOf n
    if f.length < length then .ok ((t.fsnodesSetlength cfg inode n f length).touchFile cfg inode ts, [])
    else .ok (t, [])

def appendedChunks (dst src : FileData) : List ℕ :=
  let resultChunks := src.chunkCount + dst.chunkCount
  let chunks := if dst.chunks.length < resultChunks
    then resizeChunks dst.chunks (roundedSize resultChunks) else dst.chunks
  chunks.take dst.chunkCount ++ src.chunks.take src.chunkCount ++ chunks.drop resultChunks

/-- the new length in `fsnodes_appendchunks`: the bytes in the chunks of the destination are cut to 32 bits, and the sum
to 64 -/
def appendedLength (dst src : FileData) : ℕ := (dst.chunkCount * chunkSize % 2 ^ 32 + src.length) % 2 ^ 64

def fsnodesAppendchunks (ts : UInt32) (dst src : Inode) (n : FSNode) (f g : FileData) : Metadata :=
  let psr := t.fsnodesGetStats cfg dst
  let length := appendedLength f g
  let t := t.addCalls (chunkCalls (.add · n.goal) (g.chunks.take g.chunkCount))
  let t := t.adjustSpace f length
  let t := t.setFile dst fun f => { f with length := length, chunks := appendedChunks f g }
  let t := t.recountFile cfg dst n n.parent psr
  let t := t.modifyNode dst fun n => { n with mtime := ts, atime := ts }
  let t := t.modifyNode src fun n => { n with atime := ts }
  (t.fsnodesUpdateChecksum cfg src).fsnodesUpdateChecksum cfg dst

def fsAppend (inodeSrc : Inode) : Outcome := do
  require (inode ≠ inodeSrc) .einval
  requireSession c .notMeta
  let (p, n) ← forOperation (t.fsnodesGetNodeForOperation c .file modeMaskW inode)
  let (sp, sn) ← forOperation (t.fsnodesGetNodeForOperation c .file modeMaskR inodeSrc)
  let f ← fileOf n
  let g ← fileOf sn
  require (!(c.isPersonalityMaster && cfg.quotaSize t.toTables p)) .quota
  if g.chunks = [] then .ok (t, [])
  else
    require (g.chunkCount + f.chunkCount ≤ maxIndex + 1) .indextoobig
    .ok (t.fsnodesAppendchunks cfg c.ts p sp n f g, [])

/-! ## Repair and goals -/

/-- the chunks of a file after the loop of `fs_repair`; an answer is the new version of a chunk, 0 for one that is
erased -/
def repairedChunks (chunks : List ℕ) (answers : ℕ → Option ℕ) : List ℕ :=
  chunks.mapIdx fun indx chunkid => if answers indx = some 0 then 0 else chunkid

/-- the chunks that the loop of `fs_repair` gives up -/
def erasedChunks (chunks : List ℕ) (answers : ℕ → Option ℕ) : List ℕ :=
  chunks.mapIdx fun indx chunkid => if answers indx = some 0 then chunkid else 0

/-- whether the loop of `fs_repair` changes anything; it leaves holes alone -/
def isRepaired (chunks : List ℕ) (answers : ℕ → Option ℕ) : Bool :=
  (chunks.mapIdx fun indx chunkid => decide (0 < chunkid) && (answers indx).isSome).any id

def fsRepair (answers : ℕ → Option ℕ) : Outcome := do
  requireSession c .any
  let (p, n) ← forOperation (t.fsnodesGetNodeForOperation c .file modeMaskW inode)
  let f ← fileOf n
  let psr := t.fsnodesGetStats cfg p
  let t := t.addCalls (chunkCalls (.repair · n.goal) (erasedChunks f.chunks answers))
  let t := t.setFile p fun f => { f with chunks := repairedChunks f.chunks answers }
  let t :=
    if isRepaired f.chunks answers
      then (t.modifyNode p fun n => { n with mtime := c.ts }).fsnodesUpdateCtime p c.ts else t
  let t := t.recountFile cfg p n n.parent psr
  .ok (t.fsnodesUpdateChecksum cfg p, [])

def fsnodesChangefilegoal (id : Inode) (n : FSNode) (f : FileData) (goal : ℕ) : Metadata :=
  let psr := t.fsnodesGetStats cfg id
  let t := t.modifyNode id fun n => { n with goal := goal }
  let nsr := t.fsnodesGetStats cfg id
  let t := t.updateParentStats n.parent (nsr - psr)
  let t := t.addCalls (chunkCalls (.change · n.goal goal) f.chunks)
  t.fsnodesUpdateChecksum cfg id

/-- `SetGoalTask::setGoal` in `SetGoalTask::execute`; `set` says that the mode is `SMODE_SET` or `SMODE_RSET`. The
entries of a directory are steps of their own. -/
def setGoal (ts uid : UInt32) (inode : Inode) (goal : ℕ) (set : Bool) : Outcome := do
  let n ← t.nodeOf inode
  require (!(n.mode &&& eattrNoowner = 0 && uid ≠ 0 && n.uid ≠ uid)) .eperm
  if set && n.goal ≠ goal then
    match n.data with
    | .file f =>
      let t := t.fsnodesChangefilegoal cfg inode n f goal
      .ok ((t.fsnodesUpdateCtime inode ts).fsnodesUpdateChecksum cfg inode, [])
    | .directory _ =>
      let t := t.modifyNode inode fun n => { n with goal := goal }
      .ok ((t.fsnodesUpdateCtime inode ts).fsnodesUpdateChecksum cfg inode, [])
    | _ => .ok (t, [])
  else .ok (t, [])

end Metadata

end SaunaFS.Namespace
