/-
Who asks for an operation, and what is checked before it (`master/fs_context.h`; `fsnodes_namecheck`, `fsnodes_access`,
`fsnodes_sticky_access`, `verify_session` and `fsnodes_get_node_for_operation` of `master/filesystem_node.cc`).

The same operation runs on the master for a session, and on a shadow without one: `getForRestore` checks no permissions.
-/
import SaunaFS.Namespace.Node

namespace SaunaFS.Namespace

/-! ## Contexts -/

/-- the session flags that are looked at -/
structure Session where
  rootinode : Inode
  readonly : Bool
  ignoreGid : Bool
  noMasterPermCheck : Bool
  mapall : Bool
  caseInsensitive : Bool
deriving DecidableEq

/-- `FsContext`; `groups` holds the secondary groups -/
structure FsContext where
  ts : UInt32
  isPersonalityMaster : Bool
  session : Option Session
  uid : UInt32
  gid : UInt32
  groups : List UInt32
  hasUidGidData : Bool
deriving DecidableEq

namespace FsContext

def canCheckPermissions (c : FsContext) : Bool := c.session.isSome && c.hasUidGidData && c.isPersonalityMaster

def hasGroup (c : FsContext) (gid : UInt32) : Bool := gid ∈ c.gid :: c.groups

end FsContext

/-- `OperationMode::kReadWrite` or `kReadOnly` -/
inductive OperationMode where
  | readWrite
  | readOnly
deriving DecidableEq

inductive SessionType where
  | notMeta
  | onlyMeta
  | any
deriving DecidableEq

def verifySession (c : FsContext) (mode : OperationMode) (type : SessionType) : Status :=
  match c.session with
  | none => .ok
  | some s =>
    if s.readonly ∧ mode = .readWrite then .erofs
    else if s.rootinode = 0 ∧ type = .notMeta then .enoent
    else if s.rootinode ≠ 0 ∧ type = .onlyMeta then .eperm
    else .ok

/-! ## Names and permissions -/

/-- `fsnodes_namecheck`: 46 is the dot and 47 the slash -/
def fsnodesNamecheck (name : Name) : Bool :=
  name ≠ [] && decide (name.length ≤ 255) && name ≠ [46] && name ≠ [46, 46] && !name.contains 0 && !name.contains 47

def modeMaskR : BitVec 16 := 4
def modeMaskW : BitVec 16 := 2
def modeMaskX : BitVec 16 := 1
def modeMaskEmpty : BitVec 16 := 0

/-- `EATTR_NOOWNER << 12` -/
def eattrNoowner : BitVec 16 := 0x1000

def fsnodesAccess (c : FsContext) (n : FSNode) (modemask : BitVec 16) : Bool :=
  if (c.session.map Session.noMasterPermCheck).getD false || c.uid == 0 then true
  else
    match n.acl with
    | some acl =>
      let mask := RichAcl.convertMode2Mask modemask
      let mask := if n.isDirectory then mask else mask &&& ~~~Ace.deleteChild
      acl.checkPermission mask n.uid n.gid c.uid (c.gid :: c.groups)
    | none =>
      let nodemode :=
        if c.uid = n.uid ∨ n.mode &&& eattrNoowner ≠ 0 then (n.mode >>> 6) &&& 7
        else if (c.session.map Session.ignoreGid).getD false then ((n.mode >>> 3) ||| n.mode) &&& 7
        else if c.hasGroup n.gid then (n.mode >>> 3) &&& 7
        else n.mode &&& 7
      nodemode &&& modemask == modemask

def fsnodesStickyAccess (parent n : FSNode) (uid : UInt32) : Bool :=
  if uid = 0 ∨ parent.mode &&& 0o1000 = 0 then true
  else uid == parent.uid || parent.mode &&& eattrNoowner != 0 || uid == n.uid || n.mode &&& eattrNoowner != 0

inductive ExpectedNodeType where
  | directory
  | notDirectory
  | file
  | fileOrDirectory
  | any
deriving DecidableEq

/-- the answer to a node of the wrong type -/
def ExpectedNodeType.check (e : ExpectedNodeType) (n : FSNode) : Status :=
  match e with
  | .directory => if n.isDirectory then .ok else .enotdir
  | .notDirectory => if n.isDirectory then .eperm else .ok
  | .file => if n.isAnyFile then .ok else .eperm
  | .fileOrDirectory => if n.isDirectory || n.isAnyFile then .ok else .eperm
  | .any => .ok

/-- the node that an inode number means in a session: 1 is the root of the session -/
def Metadata.resolve (t : Metadata) (c : FsContext) (inode : Inode) : Except Status Inode :=
  match c.session with
  | none => if (t.nodes.get inode).isSome then .ok inode else .error .enoent
  | some s =>
    if s.rootinode = rootInode ∨ s.rootinode = 0 then
      match t.nodes.get inode with
      | none => .error .enoent
      | some n => if s.rootinode = 0 ∧ n.type ≠ .trash ∧ n.type ≠ .reserved then .error .eperm else .ok inode
    else
      match t.nodes.get s.rootinode with
      | none => .error .enoent
      | some rn =>
        if !rn.isDirectory then .error .enoent
        else if inode = rootInode then .ok s.rootinode
        else
          match t.nodes.get inode with
          | none => .error .enoent
          | some n =>
            if t.fsnodesIsancestorOrNodeReservedOrTrash s.rootinode n then .ok inode else .error .eperm

/-- `fsnodes_get_node_for_operation`: the number of the node and the node itself -/
def Metadata.fsnodesGetNodeForOperation (t : Metadata) (c : FsContext) (e : ExpectedNodeType) (modemask : BitVec 16)
    (inode : Inode) : Except Status (Inode × FSNode) :=
  match t.resolve c inode with
  | .error s => .error s
  | .ok id =>
    match t.nodes.get id with
    | none => .error .enoent
    | some n =>
      if e.check n ≠ .ok then .error (e.check n)
      else if c.canCheckPermissions && !fsnodesAccess c n modemask then .error .eacces
      else .ok (id, n)

/-! ## Restoring -/

namespace Metadata

variable {t : Metadata} {c : FsContext} {e : ExpectedNodeType} {modemask : BitVec 16} {inode id : Inode} {n : FSNode}

theorem getNodeForOperation_inv (h : t.fsnodesGetNodeForOperation c e modemask inode = .ok (id, n)) :
    t.nodes.get id = some n ∧ e.check n = .ok := by
  unfold fsnodesGetNodeForOperation at h
  split at h
  · cases h
  · split at h
    · cases h
    · rename_i id' hr _ n' hg
      split_ifs at h with hc hp
      obtain ⟨rfl, rfl⟩ : id' = id ∧ n' = n := by simpa using h
      exact ⟨hg, not_not.1 hc⟩

end Metadata

theorem ExpectedNodeType.check_directory {n : FSNode} : ExpectedNodeType.directory.check n = .ok ↔ n.isDirectory := by
  unfold check
  split_ifs with h <;> simp [h]

end SaunaFS.Namespace
