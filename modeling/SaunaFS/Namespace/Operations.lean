/-
The operations on names of `master/filesystem_operations.cc`, the removal task and the periodic emptying of the trash.

An operation either fails, and then leaves the metadata as it was, or gives the new metadata and its entries. Failing
means a status or that the process stops, when it runs out of inode numbers.
-/
import SaunaFS.Changelog.Text
import SaunaFS.Namespace.Edges

namespace SaunaFS.Namespace

/-! ## Outcomes -/

open Changelog

inductive Failure where
  | status (s : Status)
  | stop
deriving DecidableEq

abbrev Outcome := Except Failure (Metadata × List Logged)

/-- go on if the condition holds -/
def require (p : Bool) (s : Status) : Except Failure Unit := if p then .ok () else .error (.status s)

theorem bind_eq_ok {α β : Type} {x : Except Failure α} {f : α → Except Failure β} {b : β} :
    (x >>= f) = .ok b ↔ ∃ a, x = .ok a ∧ f a = .ok b := by
  cases x with
  | error e => exact ⟨fun h => (by cases h), fun ⟨_, h, _⟩ => (by cases h)⟩
  | ok a => exact ⟨fun h => ⟨a, rfl, h⟩, fun ⟨_, rfl, h⟩ => h⟩

/-- `verify_session` of a call that changes the metadata -/
abbrev requireSession (c : FsContext) (type : SessionType) : Except Failure Unit :=
  require (verifySession c .readWrite type = .ok) (verifySession c .readWrite type)

@[simp] theorem require_eq_ok {p : Bool} {s : Status} {u : Unit} : require p s = .ok u ↔ p := by
  unfold require
  split_ifs with h <;> simp [h]

/-- the nodes that an operation works on, with a failure of their own type -/
def forOperation (x : Except Status (Inode × FSNode)) : Except Failure (Inode × FSNode) :=
  match x with
  | .ok a => .ok a
  | .error s => .error (.status s)

@[simp] theorem forOperation_eq_ok {x : Except Status (Inode × FSNode)} {a : Inode × FSNode} :
    forOperation x = .ok a ↔ x = .ok a := by
  cases x <;> simp [forOperation]

namespace Metadata

variable (cfg : Config) (t : Metadata) (c : FsContext) (id parent inode : Inode) (ts : UInt32)

/-- the node behind a number, if the number is not stale -/
def nodeOf (missing : Status := .enoent) : Except Failure FSNode :=
  match t.nodes.get id with
  | some n => .ok n
  | none => .error (.status missing)

@[simp] theorem nodeOf_eq_ok {t : Metadata} {id : Inode} {missing : Status} {n : FSNode} :
    t.nodeOf id missing = .ok n ↔ t.nodes.get id = some n := by
  unfold nodeOf
  cases t.nodes.get id <;> simp

def childOf (d : Inode) (name : Name) : Except Failure (Inode × FSNode) :=
  match t.fsnodesLookup d name with
  | none => .error (.status .enoent)
  | some child => t.nodeOf child >>= fun n => .ok (child, n)

theorem childOf_eq_ok {t : Metadata} {d id : Inode} {name : Name} {n : FSNode} :
    t.childOf d name = .ok (id, n) ↔ t.fsnodesLookup d name = some id ∧ t.nodes.get id = some n := by
  unfold childOf
  cases t.fsnodesLookup d name with
  | none => simp
  | some child =>
    simp only [bind_eq_ok, nodeOf_eq_ok, Except.ok.injEq, Prod.mk.injEq, Option.some.injEq]
    constructor
    · rintro ⟨_, hg, rfl, rfl⟩
      exact ⟨rfl, hg⟩
    · rintro ⟨rfl, hg⟩
      exact ⟨n, hg, rfl, rfl⟩

def created (t : Option Metadata) : Except Failure Metadata :=
  match t with
  | some t => .ok t
  | none => .error .stop

@[simp] theorem created_eq_ok {o : Option Metadata} {t : Metadata} : created o = .ok t ↔ o = some t := by
  cases o <;> simp [created]

/-! ## Creating and linking -/

/-- `fs_lookup`: the metadata, changed or not, and the answer -/
def fsLookup (name : Name) : Metadata × Except Status Inode :=
  if verifySession c .readOnly .notMeta ≠ .ok then (t, .error (verifySession c .readOnly .notMeta))
  else
    match t.fsnodesGetNodeForOperation c .directory modeMaskX parent with
    | .error s => (t, .error s)
    | .ok (wd, n) =>
      let inSession (id : Inode) := if some id = c.session.map Session.rootinode then rootInode else id
      if name = [46] then (t, .ok (inSession wd))
      else if name = [46, 46] then
        (t, .ok (if some wd = c.session.map Session.rootinode then rootInode
          else (n.parent.head?.map inSession).getD rootInode))
      else if !fsnodesNamecheck name then (t, .error .einval)
      else
        let insensitive := (c.session.map Session.caseInsensitive).getD false
        let t := { t with fold := t.fold.set wd { t.foldOf wd with insensitive := insensitive } }
        (t, match t.fsnodesLookup wd name with
          | none => .error .enoent
          | some child => .ok child)

/-- the part of `fs_symlink` after the creation: the records get the full length of the path -/
def setSymlinkPath (wd inode : Inode) (path : Name) : Metadata :=
  let t := t.modifyNode inode fun n => { n with data := .symlink path }
  let t := t.fsnodesUpdateChecksum cfg inode
  t.fsnodesAddStats wd fun
    | .length => path.length
    | _ => 0

/-- `fs_symlink`; `inode` is the number for the new node -/
def fsSymlink (name path : Name) (inode : Inode) : Outcome := do
  requireSession c .notMeta
  let (wd, _) ← forOperation (t.fsnodesGetNodeForOperation c .directory modeMaskW parent)
  require (path ≠ [] && !path.contains 0) .einval
  require (fsnodesNamecheck name) .einval
  require (!t.fsnodesNameisused wd name) .eexist
  require (!(c.isPersonalityMaster && cfg.quotaCreate t.toTables c.uid c.gid wd)) .quota
  let t ← created (t.fsnodesCreateNode cfg c.ts wd name .symlink 0o777 0 c.uid c.gid false .dontInheritAcl inode)
  let t := t.setSymlinkPath cfg wd inode path
  .ok (t, [⟨c.ts, .symlink wd name path c.uid c.gid inode⟩])

/-- the types that `fs_mknod` accepts -/
def isMknodType (type : NodeType) : Bool :=
  type = .file || type = .socket || type = .fifo || type = .blockDev || type = .charDev

/-- the permission bits of a node as they are logged -/
def loggedMode : BitVec 16 := ((t.nodes.get id).map FSNode.mode).getD 0 &&& 0o7777

/-- the number of a device, and the checksum with it -/
def setRdev (cfg : Config) (t : Metadata) (id : Inode) (rdev : UInt32) : Metadata :=
  (t.modifyNode id fun n => { n with data := n.data.setRdev rdev }).fsnodesUpdateChecksum cfg id

def fsMknod (name : Name) (type : NodeType) (mode umask : BitVec 16) (rdev : UInt32) (inode : Inode) : Outcome := do
  requireSession c .notMeta
  require (isMknodType type) .einval
  let (wd, _) ← forOperation (t.fsnodesGetNodeForOperation c .directory modeMaskW parent)
  require (fsnodesNamecheck name) .einval
  require (!t.fsnodesNameisused wd name) .eexist
  require (!cfg.quotaCreate t.toTables c.uid c.gid wd) .quota
  let t ← created (t.fsnodesCreateNode cfg c.ts wd name type mode umask c.uid c.gid false .inheritAcl inode)
  let t := t.setRdev cfg inode rdev
  .ok (t, [⟨c.ts, .create wd name type (t.loggedMode inode) c.uid c.gid rdev inode⟩])

def fsMkdir (name : Name) (mode umask : BitVec 16) (copysgid : Bool) (inode : Inode) : Outcome := do
  requireSession c .notMeta
  let (wd, _) ← forOperation (t.fsnodesGetNodeForOperation c .directory modeMaskW parent)
  require (fsnodesNamecheck name) .einval
  require (!t.fsnodesNameisused wd name) .eexist
  require (!cfg.quotaCreate t.toTables c.uid c.gid wd) .quota
  let t ← created (t.fsnodesCreateNode cfg c.ts wd name .directory mode umask c.uid c.gid copysgid .inheritAcl inode)
  .ok (t, [⟨c.ts, .create wd name .directory (t.loggedMode inode) c.uid c.gid 0 inode⟩])

def fsLink (inodeSrc parentDst : Inode) (nameDst : Name) : Outcome := do
  requireSession c .notMeta
  let (dwd, _) ← forOperation (t.fsnodesGetNodeForOperation c .directory modeMaskW parentDst)
  let (sp, n) ← forOperation (t.fsnodesGetNodeForOperation c .notDirectory modeMaskEmpty inodeSrc)
  require (n.type ≠ .trash && n.type ≠ .reserved) .enoent
  require (fsnodesNamecheck nameDst) .einval
  require (!t.fsnodesNameisused dwd nameDst) .eexist
  .ok (t.fsnodesLink cfg c.ts dwd sp nameDst, [⟨c.ts, .link sp dwd nameDst⟩])

/-! ## Unlinking and renaming -/

def fsUnlink (name : Name) : Outcome := do
  requireSession c .notMeta
  let (wd, n) ← forOperation (t.fsnodesGetNodeForOperation c .directory modeMaskW parent)
  require (fsnodesNamecheck name) .einval
  let (child, cn) ← t.childOf wd name
  require (fsnodesStickyAccess n cn c.uid) .eperm
  require (!cn.isDirectory) .eperm
  .ok (t.fsnodesUnlink cfg c.ts wd name child, [⟨c.ts, .unlink wd name child⟩])

def fsRmdir (name : Name) : Outcome := do
  requireSession c .notMeta
  let (wd, n) ← forOperation (t.fsnodesGetNodeForOperation c .directory modeMaskW parent)
  require (fsnodesNamecheck name) .einval
  let (child, cn) ← t.childOf wd name
  require (fsnodesStickyAccess n cn c.uid) .eperm
  require cn.isDirectory .enotdir
  require cn.entries.isEmpty .enotempty
  .ok (t.fsnodesUnlink cfg c.ts wd name child, [⟨c.ts, .unlink wd name child⟩])

/-- the step of `RemoveTask::execute` that removes a node; for a full directory it only queues further steps -/
def removeTaskUnlink (name : Name) : Outcome := do
  let n ← t.nodeOf parent
  require (fsnodesAccess c n modeMaskW) .eacces
  let (child, cn) ← t.childOf parent name
  require (fsnodesStickyAccess n cn c.uid) .eperm
  if cn.isDirectory && !cn.entries.isEmpty then .ok (t, [])
  else .ok (t.fsnodesUnlink cfg c.ts parent name child, [⟨c.ts, .unlink parent name child⟩])

/-- the checks of `fs_rename` on a node that is already there under the new name -/
def replaceable (dn : FSNode) (de : Option Inode) : Except Failure Unit :=
  match de with
  | none => .ok ()
  | some id => do
    let n ← t.nodeOf id
    require (!(n.isDirectory && !n.entries.isEmpty)) .enotempty
    require (!c.canCheckPermissions || fsnodesStickyAccess dn n c.uid) .eperm

/-- the changes of `fs_rename` -/
def moveEdge (swd : Inode) (nameSrc : Name) (dwd : Inode) (nameDst : Name)
    (se : Inode) (de : Option Inode) : Metadata :=
  let t := match de with
    | none => t
    | some id => t.fsnodesUnlink cfg ts dwd nameDst id
  (t.fsnodesRemoveEdge cfg ts swd nameSrc se).fsnodesLink cfg ts dwd se nameDst

/-- `fs_rename`; on a shadow `inode` is the number in the changelog -/
def fsRename (parentSrc : Inode) (nameSrc : Name) (parentDst : Inode) (nameDst : Name) (inode : Inode) : Outcome := do
  requireSession c .any
  let (dwd, dn) ← forOperation (t.fsnodesGetNodeForOperation c .directory modeMaskW parentDst)
  let (swd, sn) ← forOperation (t.fsnodesGetNodeForOperation c .directory modeMaskW parentSrc)
  require (fsnodesNamecheck nameSrc) .einval
  let (se, n) ← t.childOf swd nameSrc
  require (!c.canCheckPermissions || fsnodesStickyAccess sn n c.uid) .eperm
  require (c.isPersonalityMaster || se = inode) .mismatch
  require (!(n.isDirectory && t.fsnodesIsancestor se dn)) .einval
  require (fsnodesNamecheck nameDst) .einval
  let de := t.fsnodesLookup dwd nameDst
  if de = some se then .ok (t, [])
  else
    t.replaceable c dn de
    require (!cfg.quotaRename t.toTables dwd swd se de) .quota
    .ok (t.moveEdge cfg c.ts swd nameSrc dwd nameDst se de, [⟨c.ts, .move swd nameSrc dwd nameDst se⟩])

/-! ## Trash and open files -/

/-- a part of a path that `fsnodes_undel` refuses: empty, too long, `.` or `..`, or with a zero byte -/
def isBadPart (part : Name) : Bool :=
  part = [] || decide (255 < part.length) || part = [46] || part = [46, 46] || part.contains 0

/-- the parts of a path for `fsnodes_undel`, if it can be created -/
def undelParts (path : Name) : Option (List Name) :=
  let parts := (path.dropWhile (· = 47)).splitOn 47
  if parts.any isBadPart then none else some parts

/-- a trashed file is linked again: the end of `fsnodes_undel` -/
def undelNode (id : Inode) (n : FSNode) (length : ℕ) (parent : Inode) (name : Name) : Metadata :=
  let t := { t with trash := t.trash.erase (n.trashPathKey id) }
  let t := (t.setFileState id .live).setCtime id ts
  let t := t.fsnodesUpdateChecksum cfg id
  let t := t.fsnodesLink cfg ts parent id name
  (t.adjust .trashspace (-length)).adjust .trashnodes (-1)

/-- the loop of `fsnodes_undel` that creates what is missing of the path and links the file; `inodes` are the numbers
for new directories -/
def undelWalk (cfg : Config) (ts : UInt32) (id : Inode) (node : FSNode) (length : ℕ) :
    Metadata → Inode → Bool → List Name → List Inode → Except Failure (Metadata × List Logged)
  | _, _, _, [], _ => .error (.status .cantcreatepath)
  | t, p, _, [name], _ =>
    if t.fsnodesNameisused p name then .error (.status .eexist)
    else .ok (t.undelNode cfg ts id node length p name, [])
  | t, p, isNew, name :: rest, inodes =>
    match if isNew then none else t.fsnodesLookup p name with
    | some n =>
      if ((t.nodes.get n).map FSNode.isDirectory).getD false then undelWalk cfg ts id node length t n false rest inodes
      else .error (.status .cantcreatepath)
    | none =>
      match inodes with
      | [] => .error .stop
      | inode :: inodes => do
        let t ← created (t.fsnodesCreateNode cfg ts p name .directory 0o755 0 0 0 false .dontInheritAcl inode)
        let (t', log) ← undelWalk cfg ts id node length t inode true rest inodes
        .ok (t', ⟨ts, .create p name .directory (t.loggedMode inode) 0 0 0 inode⟩ :: log)

def fsUndel (inodes : List Inode) : Outcome := do
  requireSession c .onlyMeta
  let (p, n) ← forOperation (t.fsnodesGetNodeForOperation c .any modeMaskEmpty inode)
  match n.data with
  | .file ⟨.trash, length, _, _⟩ =>
    match t.trash.get (n.trashPathKey p) with
    | none => .error .stop
    | some path =>
      match undelParts path with
      | none => .error (.status .cantcreatepath)
      | some parts =>
        let (t, log) ← undelWalk cfg c.ts p n length t rootInode false parts inodes
        .ok (t, log ++ [⟨c.ts, .undel p⟩])
  | _ => .error (.status .enoent)

def fsSettrashpath (path : Name) : Outcome := do
  requireSession c .onlyMeta
  let (p, n) ← forOperation (t.fsnodesGetNodeForOperation c .any modeMaskEmpty inode)
  require (n.type = .trash) .enoent
  require (path ≠ [] && !path.contains 0) .einval
  .ok ({ t with trash := t.trash.set (n.trashPathKey p) path }, [⟨c.ts, .setpath p path⟩])

def fsPurge : Outcome := do
  requireSession c .onlyMeta
  let (p, n) ← forOperation (t.fsnodesGetNodeForOperation c .any modeMaskEmpty inode)
  require (n.type = .trash) .enoent
  .ok (t.fsnodesPurge cfg c.ts p, [⟨c.ts, .purge p⟩])

/-- one round of the loop of `fs_do_emptytrash`, at some entry whose time has come -/
def emptyTrashEntry (key : TrashPathKey) : Outcome := do
  require ((t.trash.get key).isSome && decide (key.timestamp < ts.toNat)) .enoent
  match t.nodes.get key.id with
  | none => .ok ({ t with trash := t.trash.erase key }, [])
  | some _ => .ok (t.fsnodesPurge cfg ts key.id, [⟨ts, .purge key.id⟩])

/-- one round of the loop of `fs_do_emptyreserved` -/
def emptyReservedEntry (inode : Inode) : Outcome := do
  require (t.reserved.get inode).isSome .enoent
  match t.nodes.get inode with
  | none => .ok ({ t with reserved := t.reserved.erase inode }, [])
  | some _ => .ok (t.fsnodesPurge cfg ts inode, [⟨ts, .purge inode⟩])

/-- a change of the sessions that have a file open -/
def setSessions (k : List UInt32 → List UInt32) : Metadata :=
  t.modifyNode id fun n => { n with data := n.data.mapFile fun f => { f with sessionid := k f.sessionid } }

def fsAcquire (inode : Inode) (sessionid : UInt32) : Outcome := do
  let n ← t.nodeOf inode
  match n.data with
  | .file f =>
    require (!f.sessionid.contains sessionid) .einval
    let t := t.setSessions inode (· ++ [sessionid])
    .ok (t.fsnodesUpdateChecksum cfg inode, [⟨ts, .acquire inode sessionid⟩])
  | _ => .error (.status .eperm)

def fsRelease (inode : Inode) (sessionid : UInt32) : Outcome := do
  let n ← t.nodeOf inode
  match n.data with
  | .file f =>
    require (f.sessionid.contains sessionid) .einval
    let t := t.setSessions inode (·.erase sessionid)
    let t :=
      if n.type = .reserved && (f.sessionid.erase sessionid).isEmpty then t.fsnodesPurge cfg ts inode
      else t.fsnodesUpdateChecksum cfg inode
    .ok (t, [⟨ts, .release inode sessionid⟩])
  | _ => .error (.status .eperm)

end Metadata

end SaunaFS.Namespace
