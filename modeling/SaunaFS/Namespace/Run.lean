/-
Runs of the master from the empty file system (`fs_new` of `master/filesystem_store.cc`).

An operation is a request of a client, a step of a task, or one round of a periodic loop; what is decided elsewhere
(numbers for new nodes, answers of the chunk table) is among its arguments. An operation during which the process ends
has no outcome.
-/
import SaunaFS.Lib.Stepwise
import SaunaFS.Namespace.Attributes
import SaunaFS.Namespace.Clone
import SaunaFS.Namespace.Files

namespace SaunaFS.Namespace

open Changelog

/-! ## Operations -/

/-- an operation on the master with its arguments -/
inductive Op where
  | lookup (c : FsContext) (parent : Inode) (name : Name)
  | symlink (c : FsContext) (parent : Inode) (name path : Name) (inode : Inode)
  | mknod (c : FsContext) (parent : Inode) (name : Name) (type : NodeType) (mode umask : BitVec 16) (rdev : UInt32)
    (inode : Inode)
  | mkdir (c : FsContext) (parent : Inode) (name : Name) (mode umask : BitVec 16) (copysgid : Bool) (inode : Inode)
  | link (c : FsContext) (inodeSrc parentDst : Inode) (nameDst : Name)
  | unlink (c : FsContext) (parent : Inode) (name : Name)
  | rmdir (c : FsContext) (parent : Inode) (name : Name)
  | removeTask (c : FsContext) (parent : Inode) (name : Name)
  | rename (c : FsContext) (parentSrc : Inode) (nameSrc : Name) (parentDst : Inode) (nameDst : Name)
  | undel (c : FsContext) (inode : Inode) (inodes : List Inode)
  | settrashpath (c : FsContext) (inode : Inode) (path : Name)
  | purge (c : FsContext) (inode : Inode)
  | emptyTrash (ts : UInt32) (key : TrashPathKey)
  | emptyReserved (ts : UInt32) (inode : Inode)
  | acquire (ts : UInt32) (inode : Inode) (sessionid : UInt32)
  | release (ts : UInt32) (inode : Inode) (sessionid : UInt32)
  | clone (ts : UInt32) (inodeSrc origInode parentDst : Inode) (name : Name) (canOverwrite : Bool) (inode : Inode)
  | setattr (c : FsContext) (inode : Inode) (s : SetMask) (attrmode : BitVec 16)
    (attruid attrgid attratime attrmtime : UInt32) (sugid : SugidClearMode)
  | updateAtime (ts : UInt32) (inode : Inode)
  | setRichAcl (c : FsContext) (inode : Inode) (acl : RichAcl)
  | setPosixAcl (c : FsContext) (inode : Inode) (isDefault : Bool) (acl : AccessControlList)
  | deleteacl (c : FsContext) (inode : Inode) (type : AclType)
  | setxattr (c : FsContext) (inode : Inode) (opened : Bool) (attrname attrvalue : Name)
      (mode : UInt32) (answer : Status)
  | seteattr (c : FsContext) (inode : Inode) (eattr : BitVec 16) (smode : SMode) (recursive : Bool)
  | setTrashtime (ts uid : UInt32) (inode : Inode) (trashtime : UInt32) (smode : SMode)
  | setGoal (ts uid : UInt32) (inode : Inode) (goal : ℕ) (set : Bool)
  | trySetlength (c : FsContext) (inode : Inode) (opened : Bool) (length : ℕ) (answer : Except Status ℕ+)
  | doSetlength (c : FsContext) (inode : Inode) (length : ℕ)
  | writechunk (c : FsContext) (inode : Inode) (indx : ℕ) (answer : Except Status ℕ+)
  | writeend (ts : UInt32) (inode : Inode) (length : ℕ)
  | append (c : FsContext) (inode inodeSrc : Inode)
  | repair (c : FsContext) (inode : Inode) (answers : ℕ → Option ℕ)

/-- the context on the master, whoever asks -/
def FsContext.onMaster (c : FsContext) : FsContext := { c with isPersonalityMaster := true }

/-- an operation during which the process ends has no outcome -/
def finish (o : Outcome) : Outcome :=
  match o with
  | .error f => .error f
  | .ok (t, log) => if t.stopped then .error .stop else .ok (t, log)

theorem finish_eq_ok {o : Outcome} {t : Metadata} {log : List Logged} :
    finish o = .ok (t, log) ↔ o = .ok (t, log) ∧ t.stopped = false := by
  unfold finish
  split
  · simp
  · split_ifs with hs
    · simp only [Except.ok.injEq, Prod.mk.injEq, false_iff, not_and, Bool.not_eq_false]
      rintro ⟨rfl, -⟩
      exact hs
    · simp only [Except.ok.injEq, Prod.mk.injEq, iff_self_and, and_imp]
      rintro rfl -
      simpa using hs

namespace Metadata

variable (cfg : Config)

/-- what an operation does on the master, up to the end of the process -/
def perform (t : Metadata) : Op → Outcome
  | .lookup c parent name => .ok ((t.fsLookup c.onMaster parent name).1, [])
  | .symlink c parent name path inode => t.fsSymlink cfg c.onMaster parent name path inode
  | .mknod c parent name type mode umask rdev inode => t.fsMknod cfg c.onMaster parent name type mode umask rdev inode
  | .mkdir c parent name mode umask copysgid inode => t.fsMkdir cfg c.onMaster parent name mode umask copysgid inode
  | .link c inodeSrc parentDst nameDst => t.fsLink cfg c.onMaster inodeSrc parentDst nameDst
  | .unlink c parent name => t.fsUnlink cfg c.onMaster parent name
  | .rmdir c parent name => t.fsRmdir cfg c.onMaster parent name
  | .removeTask c parent name => t.removeTaskUnlink cfg c.onMaster parent name
  | .rename c parentSrc nameSrc parentDst nameDst => t.fsRename cfg c.onMaster parentSrc nameSrc parentDst nameDst 0
  | .undel c inode inodes => t.fsUndel cfg c.onMaster inode inodes
  | .settrashpath c inode path => t.fsSettrashpath c.onMaster inode path
  | .purge c inode => t.fsPurge cfg c.onMaster inode
  | .emptyTrash ts key => t.emptyTrashEntry cfg ts key
  | .emptyReserved ts inode => t.emptyReservedEntry cfg ts inode
  | .acquire ts inode sessionid => t.fsAcquire cfg ts inode sessionid
  | .release ts inode sessionid => t.fsRelease cfg ts inode sessionid
  | .clone ts inodeSrc origInode parentDst name canOverwrite inode =>
    t.cloneNode cfg ts inodeSrc origInode parentDst 0 name canOverwrite inode
  | .setattr c inode s attrmode attruid attrgid attratime attrmtime sugid =>
    t.fsSetattr cfg c.onMaster inode s attrmode attruid attrgid attratime attrmtime sugid
  | .updateAtime ts inode => t.fsUpdateAtime cfg ts inode
  | .setRichAcl c inode acl => t.fsSetRichAcl cfg c.onMaster inode acl
  | .setPosixAcl c inode isDefault acl => t.fsSetPosixAcl cfg c.onMaster inode isDefault acl
  | .deleteacl c inode type => t.fsDeleteacl cfg c.onMaster inode type
  | .setxattr c inode opened attrname attrvalue mode answer =>
    t.fsSetxattr cfg c.onMaster inode opened attrname attrvalue mode answer
  | .seteattr c inode eattr smode recursive => t.fsSeteattr cfg c.onMaster inode eattr smode recursive
  | .setTrashtime ts uid inode trashtime smode => t.setTrashtime cfg ts uid inode trashtime smode
  | .setGoal ts uid inode goal set => t.setGoal cfg ts uid inode goal set
  | .trySetlength c inode opened length answer => t.fsTrySetlength cfg c.onMaster inode opened length answer
  | .doSetlength c inode length => t.fsDoSetlength cfg c.onMaster inode length
  | .writechunk c inode indx answer => t.fsWritechunk cfg c.onMaster inode indx answer
  | .writeend ts inode length => t.fsWriteend cfg ts inode length
  | .append c inode inodeSrc => t.fsAppend cfg c.onMaster inode inodeSrc
  | .repair c inode answers => t.fsRepair cfg c.onMaster inode answers

/-- an operation on the master -/
def exec (t : Metadata) (op : Op) : Outcome := finish (t.perform cfg op)

/-- the metadata after an operation and the entries it logged -/
def logged (t : Metadata) (o : Outcome) : Metadata × List Logged :=
  match o with
  | .ok r => r
  | .error _ => (t, [])

/-- one step of the master -/
def step (t : Metadata) (op : Op) : Metadata := (t.logged (t.exec cfg op)).1

/-! ## The empty file system -/

/-- the root directory of `fs_new` -/
def rootNode (ts : UInt32) : FSNode :=
  { ctime := ts
    mtime := ts
    atime := ts
    goal := defaultGoal
    trashtime := defaultTrashtime
    mode := 0o777
    uid := 0
    gid := 0
    parent := []
    acl := none
    data := .directory [] }

def nodeChecksumSeed : XorWord 64 := (12345 : BitVec 64)

def noNodes : Metadata :=
  { nodes := FiniteTable.empty
    trash := FiniteTable.empty
    reserved := FiniteTable.empty
    stats := 0
    accounts := 0
    calls := []
    stopped := false
    fold := FiniteTable.empty
    checksum := 0
    fsNodesChecksum := nodeChecksumSeed
    entriesHash := 0 }

def fsNew (ts : UInt32) : Metadata :=
  let t := noNodes.placeNode rootInode (rootNode ts)
  let t := (t.adjust .nodes 1).adjust .dirnodes 1
  let t := t.fsnodesUpdateChecksum cfg rootInode
  t.fsnodesQuotaUpdate (rootNode ts) .inodes 1

/-- the metadata after a run that starts with an empty file system -/
abbrev after (ts : UInt32) (ops : List Op) : Metadata := Stepwise.run (step cfg) (fsNew cfg ts) ops

end Metadata

/-! ## Runs on fixed inputs -/

/-- every goal is one copy, and no quota refuses anything -/
def Config.unlimited : Config where
  goals := fun _ => [.copies 1]
  nameHash := fun name => BitVec.ofNat 16 (name.foldl (fun h c => 31 * h + c.toNat) 0)
  hashCombine := fun values => BitVec.ofNat 64 (values.foldl (fun h v => 31 * h + v) 0)
  atimeDisabled := false
  quotaCreate := fun _ _ _ _ => false
  quotaRename := fun _ _ _ _ _ => false
  quotaClone := fun _ _ _ => false
  quotaSize := fun _ _ => false

/-- a user with all rights on the whole file system -/
def FsContext.admin (ts : UInt32) : FsContext :=
  ⟨ts, true, some ⟨rootInode, false, false, false, false, false⟩, 0, 0, [], true⟩

end SaunaFS.Namespace
