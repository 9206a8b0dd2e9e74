/-
Steps of a snapshot (`master/snapshot_task.cc`): a node is cloned into a directory, as a new node or onto the node that
already has the name. The entries of a directory are cloned by steps of their own.
-/
import SaunaFS.Namespace.Operations

namespace SaunaFS.Namespace

open Changelog

namespace Metadata

variable (cfg : Config) (t : Metadata) (src : FSNode) (ts : UInt32)

/-- `SnapshotTask::cloneNodeTest`; `origInode` is 0 on a shadow -/
def cloneNodeTest (inodeSrc parentDst origInode : Inode)
    (dst : Option (Inode × FSNode)) (canOverwrite : Bool) : Except Failure Unit := do
  require (!cfg.quotaClone t.toTables inodeSrc parentDst) .quota
  match dst with
  | none => .ok ()
  | some (id, n) =>
    require (origInode = 0 || id ≠ origInode) .einval
    require (n.type = src.type) .eperm
    require (src.isDirectory || canOverwrite) .eexist

/-- `cloneChunkData`: the file takes over goal, trash time and contents -/
def cloneChunkData (f : FileData) (dst parentDst : Inode) : Metadata :=
  match t.nodes.get dst with
  | none => t
  | some n =>
    let psr := t.fsnodesGetStats cfg dst
    let t := t.modifyNode dst fun n =>
      { n with
        goal := src.goal
        trashtime := src.trashtime
        data := n.data.mapFile fun g => { g with chunks := f.chunks, length := f.length } }
    let t := t.addCalls (chunkCalls (.add · src.goal) f.chunks)
    t.recountFile cfg dst n [parentDst] psr

def cloneSymlinkData (path : Name) (dst parentDst : Inode) : Metadata :=
  let psr := t.fsnodesGetStats cfg dst
  let t := t.modifyNode dst fun n => { n with data := .symlink path }
  let nsr := t.fsnodesGetStats cfg dst
  t.fsnodesAddStats parentDst (nsr - psr)

/-- the part of the contents that a step takes over by the type of the source, files apart -/
def cloneData (dst parentDst : Inode) : Metadata :=
  match src.data with
  | .symlink path => t.cloneSymlinkData cfg path dst parentDst
  | .blockDev rdev | .charDev rdev => t.modifyNode dst fun n => { n with data := n.data.setRdev rdev }
  | _ => t

/-- what `cloneToNewNode` does to the node that it has created -/
def cloneNewData (dst parentDst : Inode) : Metadata :=
  let t := t.modifyNode dst fun n =>
    { n with goal := src.goal, trashtime := src.trashtime, mode := src.mode, atime := src.atime, mtime := src.mtime }
  match src.data with
  | .file f => t.cloneChunkData cfg src f dst parentDst
  | _ => t.cloneData cfg src dst parentDst

def cloneToNewNode (inodeSrc : Inode) (src : FSNode) (parentDst : Inode)
    (name : Name) (inode : Inode) : Except Failure Metadata := do
  let t ← created (t.fsnodesCreateNode cfg ts parentDst name src.type src.mode 0 src.uid src.gid false .dontInheritAcl
    inode)
  -- the creation has changed the times of the directory, which may be the source itself
  let src := (t.nodes.get inodeSrc).getD src
  .ok (t.cloneNewData cfg src inode parentDst)

/-- the attributes that `cloneToExistingNode` sets in the end -/
def cloneAttributes (src : FSNode) (dst : Inode) : Metadata :=
  t.modifyNode dst fun n =>
    { n with mode := src.mode, uid := src.uid, gid := src.gid, atime := src.atime, mtime := src.mtime, ctime := ts }

/-- the test of `cloneToExistingFileNode` -/
def sameContents (f g : FileData) : Bool := f.length = g.length && f.chunks = g.chunks

/-- `cloneToExistingFileNode` for other contents: the old file is unlinked, and a new one takes its place -/
def replaceFileNode (src : FSNode) (f : FileData) (parentDst : Inode)
    (name : Name) (dst inode : Inode) : Except Failure Metadata := do
  let t := t.fsnodesUnlink cfg ts parentDst name dst
  let t ← created (t.fsnodesCreateNode cfg ts parentDst name .file src.mode 0 src.uid src.gid false
    .dontInheritAcl inode)
  .ok (t.cloneChunkData cfg src f inode parentDst)

/-- `cloneToExistingNode` with `cloneToExistingFileNode`: the number of the node in the end, and the metadata -/
def cloneToExistingNode (src : FSNode) (parentDst : Inode) (name : Name)
    (dst : Inode) (n : FSNode) (inode : Inode) : Except Failure (Inode × Metadata) :=
  match src.data, n.data with
  | .file f, .file g =>
    if sameContents g f then .ok (dst, t.cloneAttributes ts src dst)
    else t.replaceFileNode cfg ts src f parentDst name dst inode >>= fun t =>
      .ok (inode, t.cloneAttributes ts src inode)
  | _, _ => .ok (dst, (t.cloneData cfg src dst parentDst).cloneAttributes ts src dst)

/-- the end of `cloneNode`: checksums, the number of the new node on a shadow, the entry -/
def cloneEnd (inodeSrc parentDst inodeDst : Inode) (name : Name) (canOverwrite : Bool) (id : Inode) : Outcome := do
  let t := (t.fsnodesUpdateChecksum cfg id).fsnodesUpdateChecksum cfg parentDst
  require (inodeDst = 0 || inodeDst = id) .mismatch
  .ok (t, [⟨ts, .clone inodeSrc parentDst id name canOverwrite⟩])

/-- `SnapshotTask::cloneNode`; `inodeDst` is 0 on the master and the number in the changelog on a shadow, and `inode` is
the number for a new node -/
def cloneNode (inodeSrc origInode parentDst inodeDst : Inode) (name : Name)
    (canOverwrite : Bool) (inode : Inode) : Outcome := do
  let src ← t.nodeOf inodeSrc
  require (src.type ≠ .trash && src.type ≠ .reserved) .enoent
  let p ← t.nodeOf parentDst .einval
  require p.isDirectory .einval
  match t.fsnodesLookup parentDst name with
  | some dst =>
    let n ← t.nodeOf dst
    t.cloneNodeTest cfg src inodeSrc parentDst origInode (some (dst, n)) canOverwrite
    let (id, t) ← t.cloneToExistingNode cfg ts src parentDst name dst n inode
    t.cloneEnd cfg ts inodeSrc parentDst inodeDst name canOverwrite id
  | none =>
    t.cloneNodeTest cfg src inodeSrc parentDst origInode none canOverwrite
    let t ← t.cloneToNewNode cfg ts inodeSrc src parentDst name inode
    t.cloneEnd cfg ts inodeSrc parentDst inodeDst name canOverwrite inode

end Metadata

end SaunaFS.Namespace
