/-
Nodes of the file system tree and the tables of `gMetadata` that hold them (`master/filesystem_node_types.h`,
`master/filesystem_metadata.h`, `master/filesystem_node.cc`).

The access control list of a node is a field here: it is set and erased with its node. What is stored so that it need
not be computed again (statistics, checksums, hashes of names) is kept in tables beside the nodes. What makes a
directory case-insensitive is kept apart, because it is in no image and in no changelog.

Left out: link counts of directories, extended attributes, and the limits of the quotas, of which only the refusals
matter (`Config`). The calls into the chunk table are recorded in `calls`.
-/
import SaunaFS.Lib.FiniteTable
import SaunaFS.Lib.XorWord
import SaunaFS.Status
import SaunaFS.Namespace.RichAcl

namespace SaunaFS.Namespace

/-! ## Nodes -/

abbrev Inode := UInt32

/-- names of directory entries and paths, as bytes -/
abbrev Name := List UInt8

def rootInode : Inode := 1

/-- `FSNode::kFile` and the other types -/
inductive NodeType where
  | file
  | directory
  | symlink
  | fifo
  | blockDev
  | charDev
  | socket
  | trash
  | reserved
deriving DecidableEq

/-- the characters `TYPE_FILE` and so on -/
def NodeType.char : NodeType → UInt8
  | .file => 102
  | .directory => 100
  | .symlink => 108
  | .fifo => 113
  | .blockDev => 98
  | .charDev => 99
  | .socket => 115
  | .trash => 116
  | .reserved => 114

/-- whether a file is linked, in the trash or only kept open -/
inductive FileState where
  | live
  | trash
  | reserved
deriving DecidableEq

/-- the fields of `FSNodeFile` -/
structure FileData where
  state : FileState
  length : ℕ
  sessionid : List UInt32
  chunks : List ℕ
deriving DecidableEq

/-- what a node has on top of the fields of `FSNode` -/
inductive NodeData where
  | file (f : FileData)
  | directory (entries : List (Name × Inode))
  | symlink (path : Name)
  | fifo
  | socket
  | blockDev (rdev : UInt32)
  | charDev (rdev : UInt32)
deriving DecidableEq

namespace NodeData

def type : NodeData → NodeType
  | file ⟨.live, _, _, _⟩ => .file
  | file ⟨.trash, _, _, _⟩ => .trash
  | file ⟨.reserved, _, _, _⟩ => .reserved
  | directory _ => .directory
  | symlink _ => .symlink
  | fifo => .fifo
  | socket => .socket
  | blockDev _ => .blockDev
  | charDev _ => .charDev

/-- `FSNode::create`; nodes are never created in the trash or reserved -/
def create : NodeType → NodeData
  | .file | .trash | .reserved => file ⟨.live, 0, [], []⟩
  | .directory => directory []
  | .symlink => symlink []
  | .fifo => fifo
  | .socket => socket
  | .blockDev => blockDev 0
  | .charDev => charDev 0

def isDirectory : NodeData → Bool
  | directory _ => true
  | _ => false

/-- the fields of a file, linked or not -/
def file? : NodeData → Option FileData
  | file f => some f
  | _ => none

def setRdev (rdev : UInt32) : NodeData → NodeData
  | blockDev _ => blockDev rdev
  | charDev _ => charDev rdev
  | d => d

def entries : NodeData → List (Name × Inode)
  | directory es => es
  | _ => []

def mapEntries (f : List (Name × Inode) → List (Name × Inode)) : NodeData → NodeData
  | directory es => directory (f es)
  | d => d

def mapFile (g : FileData → FileData) : NodeData → NodeData
  | file f => file (g f)
  | d => d

end NodeData

structure FSNode where
  ctime : UInt32
  mtime : UInt32
  atime : UInt32
  goal : ℕ
  mode : BitVec 16
  uid : UInt32
  gid : UInt32
  trashtime : UInt32
  parent : List Inode
  acl : Option RichAcl
  data : NodeData
deriving DecidableEq

namespace FSNode

def type (n : FSNode) : NodeType := n.data.type

def isDirectory (n : FSNode) : Bool := n.data.isDirectory

def isAnyFile (n : FSNode) : Bool := n.data.file?.isSome

def entries (n : FSNode) : List (Name × Inode) := n.data.entries

end FSNode

/-- `TrashPathKey`; the time is cut to 32 bits -/
structure TrashPathKey where
  timestamp : ℕ
  id : Inode
deriving DecidableEq

def FSNode.trashPathKey (n : FSNode) (id : Inode) : TrashPathKey :=
  ⟨min (n.ctime.toNat + n.trashtime.toNat) (2 ^ 32 - 1), id⟩

/-! ## Tables -/

inductive StatField where
  | inodes
  | dirs
  | files
  | links
  | chunks
  | length
  | size
  | realsize
deriving DecidableEq

/-- `statsrecord`; its fields are only added and subtracted, and the machine keeps them modulo 2^32 or 2^64 -/
abbrev Stats := StatField → ℤ

inductive QuotaOwner where
  | user (uid : UInt32)
  | group (gid : UInt32)
deriving DecidableEq

inductive QuotaResource where
  | inodes
  | size
deriving DecidableEq

/-- the counters of `gMetadata`, and what `quota_database` has recorded as used; all of them are integers here, as the
fields of `statsrecord` are -/
inductive Account where
  | nodes
  | dirnodes
  | filenodes
  | linknodes
  | trashnodes
  | trashspace
  | reservednodes
  | reservedspace
  | used (owner : QuotaOwner) (resource : QuotaResource)
deriving DecidableEq

/-- a call into the chunk table: `chunk_add_file`, `chunk_delete_file`, `chunk_change_file`, `chunk_repair` that erases
a chunk, and `chunk_multi_modify` or `chunk_multi_truncate` with their answer -/
inductive ChunkCall where
  | add (chunkid goal : ℕ)
  | delete (chunkid goal : ℕ)
  | change (chunkid old new : ℕ)
  | repair (chunkid goal : ℕ)
  | modify (old goal new : ℕ)
deriving DecidableEq

/-- the part of `gMetadata` that decides what operations do -/
structure Tables where
  nodes : FiniteTable Inode FSNode
  trash : FiniteTable TrashPathKey Name
  reserved : FiniteTable Inode Name
  /-- the records of the directories -/
  stats : Inode → Stats
  accounts : Account → ℤ
  calls : List ChunkCall
  /-- the process has come to an end: it would recurse for ever, or an entry is missing that must be there -/
  stopped : Bool

/-- `case_insensitive`, `lowerCaseEntries` and `lowerCaseEntriesHash` of a directory -/
structure CaseFold where
  insensitive : Bool
  lower : List (Name × Inode)
  hash : XorWord 16
deriving DecidableEq

abbrev Nodes := FiniteTable Inode FSNode

/-- the entries of a directory -/
def Nodes.entries (nodes : Nodes) (d : Inode) : List (Name × Inode) := ((nodes.get d).map FSNode.entries).getD []

structure Metadata extends Tables where
  fold : FiniteTable Inode CaseFold
  /-- the checksums of the nodes, and that of all of them -/
  checksum : Inode → XorWord 64
  fsNodesChecksum : XorWord 64
  /-- `entries_hash` of the directories -/
  entriesHash : Inode → XorWord 16

/-- a slice of a goal: full copies, or data and parity parts -/
inductive Slice where
  | copies (n : ℕ)
  | parts (data parity : ℕ)
deriving DecidableEq

/-- what is configured, and the functions that do not matter: the definitions of the goals, hash functions, and the
decisions of the quota checks -/
structure Config where
  goals : ℕ → List Slice
  /-- `HString::hash`, cut to 16 bits -/
  nameHash : Name → XorWord 16
  /-- where the string of the name of an entry is stored -/
  address : Name × Inode → BitVec 48 := fun _ => 0
  /-- `hashCombine` of a list of values -/
  hashCombine : List ℕ → XorWord 64
  /-- `gAtimeDisabled` -/
  atimeDisabled : Bool
  /-- creation by this user and group in this directory -/
  quotaCreate : Tables → UInt32 → UInt32 → Inode → Bool
  /-- moving to the first directory from the second one the third node, replacing another one -/
  quotaRename : Tables → Inode → Inode → Inode → Option Inode → Bool
  /-- cloning a node into a directory -/
  quotaClone : Tables → Inode → Inode → Bool
  /-- more data in this file -/
  quotaSize : Tables → Inode → Bool

/-- the handle of the name of an entry -/
def Config.handle (cfg : Config) (e : Name × Inode) : BitVec 64 := BitVec.append (cfg.nameHash e.1) (cfg.address e)

/-- the order of `EntriesContainer` -/
def Config.before (cfg : Config) (e e' : Name × Inode) : Prop := cfg.handle e < cfg.handle e'

instance (cfg : Config) : DecidableRel cfg.before := fun e e' =>
    inferInstanceAs (Decidable (cfg.handle e < cfg.handle e'))

namespace Metadata

def foldOf (t : Metadata) (d : Inode) : CaseFold := (t.fold.get d).getD ⟨false, [], 0⟩

def entries (t : Metadata) (d : Inode) : List (Name × Inode) := Nodes.entries t.nodes d

def modifyNode (t : Metadata) (id : Inode) (f : FSNode → FSNode) : Metadata := { t with nodes := t.nodes.modify id f }

end Metadata

/-! ## Lookups -/

/-- `::tolower` on one byte -/
def toLowerByte (c : UInt8) : UInt8 := if 65 ≤ c ∧ c ≤ 90 then c + 32 else c

/-- `hstringToLowerCase`, which goes through a C string -/
def hstringToLowerCase (name : Name) : Name := (name.takeWhile (· ≠ 0)).map toLowerByte

namespace Metadata

/-- `FSNodeDirectory::find` by name: the entry it points at. In a case-insensitive directory the lower-case name leads
to a node, and the entry is the first one with that node, in the order of the handles. -/
def find (t : Metadata) (d : Inode) (name : Name) : Option (Name × Inode) :=
  if (t.foldOf d).insensitive then
    ((t.foldOf d).lower.find? fun e => e.1 = hstringToLowerCase name).bind fun e =>
      (t.entries d).find? fun e' => e'.2 = e.2
  else (t.entries d).find? fun e => e.1 = name

def fsnodesLookup (t : Metadata) (d : Inode) (name : Name) : Option Inode := (t.find d name).map Prod.snd

def fsnodesNameisused (t : Metadata) (d : Inode) (name : Name) : Bool := (t.fsnodesLookup d name).isSome

end Metadata

/-! ## Walks towards the root -/

namespace Nodes

/-- the directories met on the way up from `d`; `fuel` bounds the loop, which needs no more rounds than there are nodes
unless it is caught in a cycle -/
def chain (nodes : Nodes) : ℕ → Inode → List Inode
  | 0, _ => []
  | fuel + 1, d =>
    match nodes.get d with
    | none => []
    | some n => if n.isDirectory then d :: (n.parent.head?.map (chain nodes fuel)).getD [] else []

def getChildName (nodes : Nodes) (d child : Inode) : Name :=
  (((entries nodes d).find? fun e => e.2 = child).map Prod.fst).getD []

/-- the names on the way from the root to `child` in `parent`, joined -/
def fullPath (nodes : Nodes) : ℕ → Inode → Inode → Name
  | 0, parent, child => getChildName nodes parent child
  | fuel + 1, parent, child =>
    let above :=
      if parent = rootInode then none
      else (nodes.get parent).bind fun n => n.parent.head?
    match above with
    | none => getChildName nodes parent child
    | some p => fullPath nodes fuel p parent ++ 47 :: getChildName nodes parent child

end Nodes

namespace Metadata

def fsnodesIsancestor (t : Metadata) (ancestor : Inode) (n : FSNode) : Bool :=
  n.parent.any fun p => ancestor ∈ Nodes.chain t.nodes t.nodes.keys.card p

def fsnodesIsancestorOrNodeReservedOrTrash (t : Metadata) (ancestor : Inode) (n : FSNode) : Bool :=
  n.type = .reserved || n.type = .trash || t.fsnodesIsancestor ancestor n

/-- `fsnodes_getpath`, which keeps the last 65535 bytes -/
def fsnodesGetpath (t : Metadata) (parent child : Inode) : Name :=
  let path := Nodes.fullPath t.nodes t.nodes.keys.card parent child
  path.drop (path.length - 65535)

end Metadata

end SaunaFS.Namespace
