/-
Attributes and access control lists of nodes (`master/filesystem_operations.cc`, `master/filesystem_node.cc`) and
`SetTrashtimeTask`. Extended attributes themselves are not kept; whether `xattr_setattr` accepts one is an argument.
-/
import SaunaFS.Namespace.Operations
import SaunaFS.Namespace.PosixAcl

namespace SaunaFS.Namespace

open Changelog

/-! ## Owner, mode and times -/

inductive SugidClearMode where
  | never
  | always
  | osx
  | bsd
  | ext
  | sfs
deriving DecidableEq

/-- `setmask` of `fs_setattr` -/
structure SetMask where
  mode : Bool
  uid : Bool
  gid : Bool
  atime : Bool
  atimeNow : Bool
  mtime : Bool
  mtimeNow : Bool
deriving DecidableEq

/-- the change of owner or group that is asked for -/
def SetMask.chown (s : SetMask) : Bool := s.uid || s.gid

/-- the bits that `fs_setattr` takes away from a node whose owner or group changes -/
def SugidClearMode.cleared (m : SugidClearMode) (uid : UInt32) (s : SetMask) (n : FSNode) (attrgid : UInt32) :
    BitVec 16 :=
  -- both bits if the group may execute, the set-user bit only if not
  let byGroupExec := if n.mode &&& 0o10 ≠ 0 then 0o6000 else 0o4000
  match m with
  | .never => 0
  | .always => 0o6000
  | .osx => if uid ≠ 0 then 0o6000 else 0
  | .bsd => if uid ≠ 0 ∧ s.gid ∧ n.gid ≠ attrgid then 0o6000 else 0
  | .ext => if n.isDirectory then 0 else byGroupExec
  | .sfs => if !n.isDirectory then byGroupExec else if uid ≠ 0 then 0o6000 else 0

/-- the mode after `fs_setattr` -/
def newMode (m : SugidClearMode) (uid : UInt32) (s : SetMask) (n : FSNode) (attrmode : BitVec 16) (attrgid : UInt32) :
    BitVec 16 :=
  let cleared := if n.mode &&& 0o6000 ≠ 0 ∧ s.chown then m.cleared uid s n attrgid else 0
  -- a change of owner and mode at once is a change of owner for which the kernel has cleared the bits
  let attrmode := if s.chown && s.mode then attrmode ||| (n.mode &&& 0o6000) else attrmode
  let mode := n.mode &&& ~~~cleared
  if s.mode then (attrmode &&& ~~~cleared &&& 0o7777) ||| (mode &&& 0xF000) else mode

namespace Metadata

/-- `fsnodes_change_uid_gid`; a node that is not a file has no size -/
def fsnodesChangeUidGid (t : Metadata) (id : Inode) (n : FSNode) (uid gid : UInt32) : Metadata :=
  let t := t.fsnodesQuotaUpdate n .inodes (-1)
  let t := t.fsnodesQuotaUpdate n .size (-n.size)
  let t := t.modifyNode id fun n => { n with uid := uid, gid := gid }
  let t := t.fsnodesQuotaUpdate { n with uid := uid, gid := gid } .inodes 1
  t.fsnodesQuotaUpdate { n with uid := uid, gid := gid } .size n.size

/-- the changes of `fs_setattr` and `fs_apply_attr` to a node -/
def setAttributes (cfg : Config) (t : Metadata) (ts : UInt32) (id : Inode) (n : FSNode) (mode : BitVec 16)
    (acl : Option RichAcl) (chown : Bool) (uid gid atime mtime : UInt32) : Metadata :=
  let t := t.modifyNode id fun n => { n with mode := mode, acl := acl }
  let t := if chown then t.fsnodesChangeUidGid id n uid gid else t
  let t := t.modifyNode id fun n => { n with atime := atime, mtime := mtime }
  (t.fsnodesUpdateCtime id ts).fsnodesUpdateChecksum cfg id

def fsSetattr (cfg : Config) (t : Metadata) (c : FsContext) (inode : Inode) (s : SetMask) (attrmode : BitVec 16)
    (attruid attrgid attratime attrmtime : UInt32) (sugid : SugidClearMode) : Outcome := do
  requireSession c .notMeta
  let (p, n) ← forOperation (t.fsnodesGetNodeForOperation c .any modeMaskEmpty inode)
  require (!(c.uid ≠ 0 && (c.session.map Session.mapall).getD false && s.chown)) .eperm
  let foreign := n.mode &&& eattrNoowner = 0 && c.uid ≠ 0 && c.uid ≠ n.uid
  require (!(foreign && (s.mode || s.chown))) .eperm
  require (!(foreign && s.atime && !s.atimeNow)) .eperm
  require (!(foreign && s.mtime && !s.mtimeNow)) .eperm
  require (!(foreign && (s.atimeNow || s.mtimeNow) && !fsnodesAccess c n modeMaskW)) .eacces
  require (!(c.uid ≠ 0 && c.uid ≠ attruid && s.uid)) .eperm
  require ((c.session.map Session.ignoreGid).getD false || !(c.uid ≠ 0 && s.gid && !c.hasGroup attrgid)) .eperm
  let mode := newMode sugid c.uid s n attrmode attrgid
  -- the list follows the mode only when the mode has been asked for
  let acl := if s.mode then n.acl.map (·.setMode mode n.isDirectory) else n.acl
  let uid := if s.uid then attruid else n.uid
  let gid := if s.gid then attrgid else n.gid
  let atime := if s.atimeNow then c.ts else if s.atime then attratime else n.atime
  let mtime := if s.mtimeNow then c.ts else if s.mtime then attrmtime else n.mtime
  .ok (t.setAttributes cfg c.ts p n mode acl s.chown uid gid atime mtime,
    [⟨c.ts, .attr p (mode &&& 0o7777).toNat.toUInt32 uid gid atime mtime⟩])

/-- `fs_update_atime`, after a node has been read -/
def fsUpdateAtime (cfg : Config) (t : Metadata) (ts : UInt32) (inode : Inode) : Outcome := do
  let n ← t.nodeOf inode
  if cfg.atimeDisabled || n.atime = ts then .ok (t, [])
  else .ok ((t.modifyNode inode fun n => { n with atime := ts }).fsnodesUpdateChecksum cfg inode, [])

/-! ## Access control lists -/

/-- mode and list of a node after a change of either, with the new `ctime` and checksum -/
def setAcl (cfg : Config) (t : Metadata) (ts : UInt32) (id : Inode) (mode : BitVec 16) (acl : Option RichAcl) :
    Metadata :=
  let t := t.modifyNode id fun n => { n with mode := mode, acl := acl }
  (t.fsnodesUpdateCtime id ts).fsnodesUpdateChecksum cfg id

end Metadata

/-- a mode with the permission bits of another one -/
def withPermissions (mode perms : BitVec 16) : BitVec 16 := (mode &&& ~~~0o777) ||| (perms &&& 0o777)

namespace FSNode

/-- mode and list after `fsnodes_setacl` with a `RichACL`: a list that a mode can express is not stored -/
def setRichAcl (n : FSNode) (acl : RichAcl) : BitVec 16 × Option RichAcl :=
  match acl.equivMode n.mode n.isDirectory with
  | some mode => (withPermissions n.mode mode, none)
  | none =>
    if acl.has RichAcl.autoSetMode then
      (n.mode, some ({ acl with flags := acl.flags &&& ~~~RichAcl.autoSetMode }.setMode n.mode n.isDirectory))
    else (withPermissions n.mode acl.getMode, some acl)

/-- the list of a node split into what applies to it and what is inherited, with one part removed; `withFlagSet` says
that the inherited part goes -/
def aclWithout (n : FSNode) (withFlagSet : Bool) : Option RichAcl :=
  n.acl.map fun acl => acl.createExplicitInheritance.removeInheritOnly withFlagSet

/-- mode and list after `fsnodes_setacl` with a POSIX list -/
def setPosixAcl (n : FSNode) (isDefault : Bool) (posix : AccessControlList) : BitVec 16 × RichAcl :=
  let acl := (n.aclWithout isDefault).getD ⟨0, 0, 0, 0, []⟩
  if isDefault then (n.mode, (acl.appendDefaultPosixACL posix).setMode n.mode true)
  else
    let acl := acl.appendPosixACL posix n.isDirectory
    (withPermissions n.mode acl.getMode, acl)

/-- the list after `fsnodes_deleteacl` -/
def deleteAcl (n : FSNode) (type : AclType) : Option RichAcl :=
  match type with
  | .richAcl => none
  | .default => (n.aclWithout true).filter fun acl => !acl.aceList.isEmpty
  | .access => (n.aclWithout false).filter fun acl => !acl.aceList.isEmpty

end FSNode

namespace Metadata

def fsnodesSetRichAcl (cfg : Config) (t : Metadata) (ts : UInt32) (p : Inode) (n : FSNode) (acl : RichAcl) :
    Except Failure Metadata := do
  require (acl.checkInheritFlags n.isDirectory) .enotsup
  .ok (t.setAcl cfg ts p (n.setRichAcl acl).1 (n.setRichAcl acl).2)

/-- `fsnodes_setacl` with a POSIX list -/
def fsnodesSetPosixAcl (cfg : Config) (t : Metadata) (ts : UInt32) (p : Inode) (n : FSNode) (isDefault : Bool)
    (acl : AccessControlList) : Except Failure Metadata := do
  require (!isDefault || n.isDirectory) .enotsup
  .ok (t.setAcl cfg ts p (n.setPosixAcl isDefault acl).1 (some (n.setPosixAcl isDefault acl).2))

def fsnodesDeleteacl (cfg : Config) (t : Metadata) (ts : UInt32) (p : Inode) (n : FSNode) (type : AclType) :
    Except Failure Metadata := do
  require (type ≠ .default || n.isDirectory) .enotsup
  .ok (t.setAcl cfg ts p n.mode (n.deleteAcl type))

def fsDeleteacl (cfg : Config) (t : Metadata) (c : FsContext) (inode : Inode) (type : AclType) : Outcome := do
  requireSession c .notMeta
  let (p, n) ← forOperation (t.fsnodesGetNodeForOperation c .any modeMaskEmpty inode)
  let t ← t.fsnodesDeleteacl cfg c.ts p n type
  .ok (t, [⟨c.ts, .deleteacl p type⟩])

def fsSetRichAcl (cfg : Config) (t : Metadata) (c : FsContext) (inode : Inode) (acl : RichAcl) : Outcome := do
  requireSession c .notMeta
  let (p, n) ← forOperation (t.fsnodesGetNodeForOperation c .any modeMaskEmpty inode)
  let t ← t.fsnodesSetRichAcl cfg c.ts p n acl
  .ok (t, [⟨c.ts, .setrichacl p acl.toString⟩])

/-- the character by which a POSIX list is logged -/
def posixTypeChar (isDefault : Bool) : UInt8 := if isDefault then 100 else 97

/-- `fs_setacl` with a POSIX list -/
def fsSetPosixAcl (cfg : Config) (t : Metadata) (c : FsContext) (inode : Inode) (isDefault : Bool)
    (acl : AccessControlList) : Outcome := do
  requireSession c .notMeta
  let (p, n) ← forOperation (t.fsnodesGetNodeForOperation c .any modeMaskEmpty inode)
  let t ← t.fsnodesSetPosixAcl cfg c.ts p n isDefault acl
  .ok (t, [⟨c.ts, .setacl p (posixTypeChar isDefault) acl.toString⟩])

end Metadata

/-! ## Trash time, extra attributes -/

/-- `SMODE_SET` and so on -/
inductive SMode where
  | set
  | increase
  | decrease
deriving DecidableEq

def SMode.trashtime (m : SMode) (old new : UInt32) : UInt32 :=
  match m with
  | .set => new
  | .increase => if old < new then new else old
  | .decrease => if new < old then new else old

namespace Metadata

/-- the changes of `SetTrashtimeTask::setTrashtime` -/
def changeTrashtime (cfg : Config) (t : Metadata) (ts : UInt32) (id : Inode) (n : FSNode) (trashtime : UInt32) :
    Metadata :=
  let t := t.modifyNode id fun n => { n with trashtime := trashtime, ctime := ts }
  let key := n.trashPathKey id
  let t :=
    if n.type = .trash then
      { t with
        stopped := t.stopped || (t.trash.get key).isNone
        trash := rekey t.trash key ({ n with trashtime := trashtime, ctime := ts }.trashPathKey id) }
    else t
  t.fsnodesUpdateChecksum cfg id

/-- `SetTrashtimeTask::setTrashtime` in `SetTrashtimeTask::execute`; the entries of a directory are steps of their
own -/
def setTrashtime (cfg : Config) (t : Metadata) (ts uid : UInt32) (inode : Inode) (trashtime : UInt32) (smode : SMode) :
    Outcome := do
  let n ← t.nodeOf inode
  require (!(n.mode &&& eattrNoowner = 0 && uid ≠ 0 && n.uid ≠ uid)) .eperm
  let new := smode.trashtime n.trashtime trashtime
  if (n.isDirectory || n.isAnyFile) && new ≠ n.trashtime then .ok (t.changeTrashtime cfg ts inode n new, [])
  else .ok (t, [])

end Metadata

/-- the extra attributes after `fsnodes_seteattr_recursive`, in the highest bits of a mode -/
def SMode.eattr (m : SMode) (old eattr : BitVec 16) : BitVec 16 :=
  match m with
  | .set => eattr
  | .increase => old ||| eattr
  | .decrease => old &&& ~~~eattr

/-- `EATTR_NOECACHE << 12` -/
def eattrNoecache : BitVec 16 := 0x4000

namespace Metadata

/-- the part of `fsnodes_seteattr_recursive` at one node; `eattr` has the attributes in its highest bits -/
def seteattrNode (t : Metadata) (ts uid : UInt32) (eattr : BitVec 16) (smode : SMode) (id : Inode) : Metadata :=
  match t.nodes.get id with
  | none => t
  | some n =>
    if n.mode &&& eattrNoowner = 0 ∧ uid ≠ 0 ∧ n.uid ≠ uid then t
    else
      let keep := if n.isDirectory then 0 else eattrNoecache
      let mode := n.mode &&& ~~~keep
      let new := smode.eattr (mode &&& 0xF000) (eattr &&& 0xF000 &&& ~~~keep)
      if new ≠ mode &&& 0xF000 then
        let mode := (mode &&& 0xFFF) ||| new
        let t := t.modifyNode id fun n => { n with mode := mode, acl := n.acl.map (·.setMode mode n.isDirectory) }
        t.fsnodesUpdateCtime id ts
      else t.modifyNode id fun n => { n with mode := mode }

/-- `fsnodes_seteattr_recursive`; `depth` bounds the recursion into directories, which needs no more levels than there
are nodes -/
def fsnodesSeteattrRecursive (cfg : Config) (ts uid : UInt32) (eattr : BitVec 16) (smode : SMode) (recursive : Bool) :
    ℕ → Metadata → Inode → Metadata
  | 0, t, _ => { t with stopped := true }
  | depth + 1, t, id =>
    let t := t.seteattrNode ts uid eattr smode id
    let t :=
      if recursive then
        ((t.entries id).map Prod.snd).foldl (fsnodesSeteattrRecursive cfg ts uid eattr smode recursive depth) t
      else t
    t.fsnodesUpdateChecksum cfg id

def fsSeteattr (cfg : Config) (t : Metadata) (c : FsContext) (inode : Inode) (eattr : BitVec 16) (smode : SMode)
    (recursive : Bool) : Outcome := do
  require (eattr &&& 0xFFF = 0) .einval
  requireSession c .notMeta
  let (p, n) ← forOperation (t.fsnodesGetNodeForOperation c .any modeMaskEmpty inode)
  require (recursive || !(n.mode &&& eattrNoowner = 0 && c.uid ≠ 0 && n.uid ≠ c.uid)) .eperm
  .ok (t.fsnodesSeteattrRecursive cfg c.ts c.uid eattr smode recursive t.nodes.keys.card p, [])

def fsSetxattr (cfg : Config) (t : Metadata) (c : FsContext) (inode : Inode) (opened : Bool) (attrname attrvalue : Name)
    (mode : UInt32) (answer : Status) : Outcome := do
  requireSession c .notMeta
  let (p, _) ← forOperation (t.fsnodesGetNodeForOperation c .any (if opened then modeMaskEmpty else modeMaskW) inode)
  require (!attrname.contains 0) .einval
  require (mode ≤ 3) .einval
  -- the length of a name is one byte; `xattr_setattr` refuses empty names and long values
  require (attrvalue.length ≤ 65536) .erange
  require (attrname ≠ [] && decide (attrname.length ≤ 255)) .einval
  require (answer = .ok) answer
  .ok ((t.fsnodesUpdateCtime p c.ts).fsnodesUpdateChecksum cfg p, [⟨c.ts, .setxattr p attrname attrvalue mode⟩])

end Metadata

end SaunaFS.Namespace
