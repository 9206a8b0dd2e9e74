/-
The functions of `master/filesystem_node.cc` that change the tree: edges, creation and removal of nodes, the trash.

`fsnodes_get_next_id` takes its number from a pool. On the master it may be any number that is not in use; on a shadow
it is the number in the changelog, and a number in use is a mismatch. Both are the argument `inode` of
`fsnodesCreateNode`, which gives nothing if the number is in use.
-/
import SaunaFS.Namespace.Access
import SaunaFS.Namespace.Books

namespace SaunaFS.Namespace

open Function

namespace Metadata

/-! ## Edges -/

variable (cfg : Config) (t : Metadata)

/-- take an entry out of a directory, and the name out of the lower-case names; the hashes lose the name that was asked
for -/
def eraseEntry (d : Inode) (name : Name) (e : Name × Inode) : Metadata :=
  { t with
    nodes := t.nodes.modify d fun n => { n with data := n.data.mapEntries (·.erase e) }
    entriesHash := update t.entriesHash d (t.entriesHash d - cfg.nameHash name)
    fold :=
      if (t.foldOf d).insensitive then
        t.fold.modify d fun f =>
          { f with
            lower := f.lower.eraseP fun e => e.1 = hstringToLowerCase name
            hash := f.hash - cfg.nameHash (hstringToLowerCase name) }
      else t.fold }

variable (ts : UInt32) (id : Inode)

def fsnodesRemoveEdge (parent : Inode) (name : Name) (child : Inode) : Metadata :=
  let t := match t.find parent name with
    | none => t
    | some e => t.eraseEntry cfg parent name e
  let t := t.fsnodesAddStats parent (-t.fsnodesGetStats cfg child)
  let t := t.modifyNode parent fun n => { n with mtime := ts, ctime := ts }
  let t := t.fsnodesUpdateChecksum cfg parent
  let t := t.modifyNode child fun n => { n with parent := n.parent.erase parent, ctime := ts }
  t.fsnodesUpdateChecksum cfg child

/-- put an entry into a directory -/
def insertEntry (d : Inode) (name : Name) (child : Inode) : Metadata :=
  { t with
    nodes := t.nodes.modify d fun n => { n with data := n.data.mapEntries (·.orderedInsert cfg.before (name, child)) }
    entriesHash := update t.entriesHash d (t.entriesHash d + cfg.nameHash name)
    fold :=
      if (t.foldOf d).insensitive then
        t.fold.modify d fun f =>
          { f with
            lower := f.lower.orderedInsert cfg.before (hstringToLowerCase name, child)
            hash := f.hash + cfg.nameHash (hstringToLowerCase name) }
      else t.fold }

def fsnodesLink (parent child : Inode) (name : Name) : Metadata :=
  let t := t.insertEntry cfg parent name child
  let t := t.modifyNode child fun n => { n with parent := n.parent ++ [parent] }
  let t := t.fsnodesAddStats parent (t.fsnodesGetStats cfg child)
  if 0 < ts then
    let t := t.modifyNode parent fun n => { n with mtime := ts, ctime := ts }
    let t := t.fsnodesUpdateChecksum cfg parent
    let t := t.modifyNode child fun n => { n with ctime := ts }
    t.fsnodesUpdateChecksum cfg child
  else t

/-! ## Creation -/

inductive AclInheritance where
  | inheritAcl
  | dontInheritAcl
deriving DecidableEq

/-- the extra attributes that a new node takes over from its directory; `EATTR_NOECACHE` is for directories only -/
def inheritedAttributes (type : NodeType) (parent : FSNode) : BitVec 16 :=
  parent.mode &&& if type = .directory then 0xF000 else 0xB000

/-- mode and list of a new node before the set-group bit -/
def newModeAcl (parent : FSNode) (type : NodeType) (mode umask : BitVec 16) (inheritacl : AclInheritance) :
    BitVec 16 × Option RichAcl :=
  let base := (mode &&& 0o7777) ||| inheritedAttributes type parent
  match if inheritacl = .inheritAcl then parent.acl else none with
  | some parentAcl =>
    let r := parentAcl.inheritInode base umask (type = .directory)
    (base &&& (r.1 ||| ~~~0o777), r.2)
  | none => (base &&& ~~~(umask &&& 0o777), none)

def defaultGoal : ℕ := 1

def defaultTrashtime : UInt32 := 86400

/-- the node that `fsnodes_create_node` makes, before it is linked -/
def newNode (parent : FSNode) (type : NodeType) (mode umask : BitVec 16) (uid gid : UInt32)
    (copysgid : Bool) (inheritacl : AclInheritance) : FSNode :=
  let inherits := type = .directory ∨ type = .file
  let setgid := parent.mode &&& 0o2000 = 0o2000
  let r := newModeAcl parent type mode umask inheritacl
  { ctime := ts
    mtime := ts
    atime := ts
    goal := if inherits then parent.goal else defaultGoal
    trashtime := if inherits then parent.trashtime else defaultTrashtime
    mode := if setgid ∧ copysgid ∧ type = .directory then r.1 ||| 0o2000 else r.1
    acl := r.2
    uid := uid
    gid := if setgid then parent.gid else gid
    parent := []
    data := .create type }

/-- an amount for the counter of the nodes of a type, if there is one -/
def typeCredit (data : NodeData) (amount : ℤ) : Account → ℤ :=
  match data with
  | .directory _ => credit .dirnodes amount
  | .file _ => credit .filenodes amount
  | .symlink _ => credit .linknodes amount
  | _ => 0

def countType (data : NodeData) (delta : ℤ) : Metadata := { t with accounts := t.accounts + typeCredit data delta }

/-- a node as its constructor leaves it, put among the nodes -/
def placeNode (n : FSNode) : Metadata :=
  { t with
    nodes := t.nodes.set id n
    stats := update t.stats id 0
    checksum := update t.checksum id 0
    entriesHash := update t.entriesHash id 0
    fold := t.fold.erase id }

def fsnodesCreateNode (parent : Inode) (name : Name) (type : NodeType)
    (mode umask : BitVec 16) (uid gid : UInt32) (copysgid : Bool) (inheritacl : AclInheritance) (inode : Inode) :
    Option Metadata :=
  match t.nodes.get parent with
  | none => none
  | some p =>
    if inode = 0 ∨ (t.nodes.get inode).isSome then none
    else
      let node := newNode ts p type mode umask uid gid copysgid inheritacl
      let t := (t.adjust .nodes 1).countType node.data 1
      let t := t.placeNode inode node
      let t := t.fsnodesUpdateChecksum cfg inode
      let t := t.fsnodesLink cfg ts parent inode name
      let t := t.fsnodesQuotaUpdate node .inodes 1
      -- a new file has no size
      some (t.fsnodesQuotaUpdate node .size node.size)

/-! ## Removal -/

/-- one call for every chunk of a file; holes are 0 -/
def chunkCalls (call : ℕ → ChunkCall) (chunks : List ℕ) : List ChunkCall := (chunks.filter (0 < ·)).map call

def addCalls (calls : List ChunkCall) : Metadata := { t with calls := t.calls ++ calls }

/-- the part of `fsnodes_remove_node` for a node without links -/
def dropNode (n : FSNode) : Metadata :=
  let t := { t with
    nodes := t.nodes.erase id
    fsNodesChecksum := t.fsNodesChecksum - t.checksum id }
  let t := (t.adjust .nodes (-1)).countType n.data (-1)
  let t := t.addCalls (chunkCalls (.delete · n.goal) ((n.data.file?.map FileData.chunks).getD []))
  let t := t.fsnodesQuotaUpdate n .size (-n.size)
  t.fsnodesQuotaUpdate n .inodes (-1)

def fsnodesRemoveNode (toremove : Inode) : Metadata :=
  match t.nodes.get toremove with
  | none => t
  | some n => if n.parent ≠ [] then t else t.dropNode toremove n

def setFileState (state : FileState) : Metadata :=
  t.modifyNode id fun n => { n with data := n.data.mapFile fun f => { f with state := state } }

/-- a file that has lost its last link goes to the trash -/
def moveToTrash (id : Inode) (n : FSNode) (length : ℕ) (path : Name) : Metadata :=
  let t := (t.setFileState id .trash).setCtime id ts
  let t := t.fsnodesUpdateChecksum cfg id
  let t := { t with trash := t.trash.insertNew ({ n with ctime := ts }.trashPathKey id) path }
  (t.adjust .trashspace length).adjust .trashnodes 1

/-- a file that has lost its last link is kept for those who have it open -/
def moveToReserved (length : ℕ) (path : Name) : Metadata :=
  let t := t.setFileState id .reserved
  let t := t.fsnodesUpdateChecksum cfg id
  let t := { t with reserved := t.reserved.insertNew id path }
  (t.adjust .reservedspace length).adjust .reservednodes 1

def dropLastLink (child : Inode) (n : FSNode) (path : Name) : Metadata :=
  match n.data with
  | .file ⟨.live, length, sessionid, _⟩ =>
    if 0 < n.trashtime then t.moveToTrash cfg ts child n length path
    else if sessionid ≠ [] then t.moveToReserved cfg child length path
    else t.fsnodesRemoveNode child
  | _ => t.fsnodesRemoveNode child

def fsnodesUnlink (parent : Inode) (name : Name) (child : Inode) : Metadata :=
  -- the path is only used for the last link of a file, and has to be taken while the edge is still there
  let path := t.fsnodesGetpath parent child
  let t := t.fsnodesRemoveEdge cfg ts parent name child
  match t.nodes.get child with
  | none => t
  | some n => if n.parent ≠ [] then t else t.dropLastLink cfg ts child n path

def fsnodesPurge (p : Inode) : Metadata :=
  match t.nodes.get p with
  | none => t
  | some n =>
    match n.data with
    | .file ⟨.trash, length, sessionid, _⟩ =>
      let t := (t.adjust .trashspace (-length)).adjust .trashnodes (-1)
      if sessionid ≠ [] then
        let t := t.setFileState p .reserved
        let t := t.fsnodesUpdateChecksum cfg p
        let t := (t.adjust .reservedspace length).adjust .reservednodes 1
        match t.trash.get (n.trashPathKey p) with
        | none => { t with stopped := true }
        | some path =>
          { t with trash := t.trash.erase (n.trashPathKey p), reserved := t.reserved.insertNew p path }
      else
        let t := { t with trash := t.trash.erase (n.trashPathKey p) }
        ((t.setCtime p ts).fsnodesUpdateChecksum cfg p).fsnodesRemoveNode p
    | .file ⟨.reserved, length, _, _⟩ =>
      let t := (t.adjust .reservedspace (-length)).adjust .reservednodes (-1)
      let t := { t with reserved := t.reserved.erase p }
      ((t.setCtime p ts).fsnodesUpdateChecksum cfg p).fsnodesRemoveNode p
    | _ => t

end Metadata

end SaunaFS.Namespace
