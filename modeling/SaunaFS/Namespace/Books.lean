/-
What the master keeps beside the nodes: the statistics of directories, the usage of quotas, the checksums of nodes and
the keys of the trash (`master/filesystem_node.cc`, `filesystem_quota.cc`, `filesystem_checksum.cc`).

`fsnodes_add_stats` calls itself for the parents of a directory. On a cycle it does not come to an end; the model stops
then, as the process does.
-/
import SaunaFS.Chunks.ChunkPart
import SaunaFS.Namespace.Node

namespace SaunaFS.Namespace

/-! ## Sizes of files -/

/-- `SFSBLOCKSINCHUNK` -/
def blocksInChunk : ℕ := 1024

/-- `SFSHDRSIZE` -/
def headerSize : ℕ := 4 * blocksInChunk + 1024

namespace FileData

variable (f : FileData)

/-- the last byte, which wraps around for an empty file -/
def lastByte : ℕ := (f.length + (2 ^ 64 - 1)) % 2 ^ 64

/-- the index of the last chunk, cut to 32 bits -/
def lastChunk : ℕ := f.lastByte / chunkSize % 2 ^ 32

def lastChunkBlocks : ℕ := f.lastByte % chunkSize / blockSize + 1

def lastChunkNonempty : Bool := f.chunks.getD f.lastChunk 0 ≠ 0

def fileChunks : ℕ := f.chunks.countP (· ≠ 0)

def fileSize : ℤ :=
  f.fileChunks * (chunkSize + headerSize) +
    if f.lastChunkNonempty then (f.lastChunkBlocks * blockSize : ℤ) - chunkSize else 0

def ecChunkRealsize (blocks data parity : ℕ) : ℕ :=
  blocks * blockSize + parity * ((blocks + data - 1) / data) * blockSize + 4096 * (data + parity)

/-- the part of `file_realsize` for one slice of the goal -/
def sliceRealsize : Slice → ℤ
  | .copies n => f.fileSize * n
  | .parts data parity =>
    f.fileChunks * ecChunkRealsize blocksInChunk data parity + if f.lastChunkNonempty then
        (ecChunkRealsize f.lastChunkBlocks data parity : ℤ) - ecChunkRealsize blocksInChunk data parity
      else 0

def fileRealsize (cfg : Config) (goal : ℕ) (f : FileData) : ℤ := ((cfg.goals goal).map f.sliceRealsize).sum

def chunkCount : ℕ := (f.chunks.reverse.dropWhile (· = 0)).length

end FileData

/-- the size that counts for the owner of a node -/
def FSNode.size (n : FSNode) : ℤ := (n.data.file?.map FileData.fileSize).getD 0

/-! ## Statistics -/

variable (cfg : Config)

/-- what a node adds to the records of the directories above it, apart from what is in it -/
def FSNode.ownStats (n : FSNode) : Stats :=
  match n.data with
  | .directory _ => fun
    | .inodes | .dirs => 1
    | _ => 0
  | .file f => fun
    | .inodes | .files => 1
    | .chunks => f.fileChunks
    | .length => f.length
    | .size => f.fileSize
    | .realsize => f.fileRealsize cfg n.goal
    | _ => 0
  -- `path_length` has 16 bits
  | .symlink path => fun
    | .inodes | .links => 1
    | .length => (path.length % 2 ^ 16 : ℕ)
    | _ => 0
  | _ => fun
    | .inodes => 1
    | _ => 0

namespace Metadata

def fsnodesGetStats (cfg : Config) (t : Metadata) (id : Inode) : Stats :=
  match t.nodes.get id with
  | none => 0
  | some n => n.ownStats cfg + if n.isDirectory then t.stats id else 0

/-- the directories whose records `fsnodes_add_stats` and `fsnodes_sub_stats` change, or none if the recursion does not
come to an end -/
def statsPath (nodes : Nodes) : ℕ → Inode → Option (List Inode)
  | 0, _ => none
  | fuel + 1, d =>
    match nodes.get d with
    | none => some []
    | some n =>
      if d = rootInode then some [d] else (n.parent.mapM (statsPath nodes fuel)).map fun paths => d :: paths.flatten

variable (t : Metadata)

/-- `statsPath` from several directories; a recursion deeper than the number of nodes is caught in a cycle -/
def statsPaths (ds : List Inode) : Option (List Inode) :=
  (ds.mapM (statsPath t.nodes t.nodes.keys.card)).map List.flatten

/-- `fsnodes_add_sub_stats` for all parents of a node -/
def updateParentStats (parents : List Inode) (sr : Stats) : Metadata :=
  { t with
    stopped := t.stopped || (t.statsPaths parents).isNone
    stats := fun d => t.stats d + ((t.statsPaths parents).getD []).count d • sr }

/-- `fsnodes_add_stats`; for `fsnodes_sub_stats` the record has the opposite sign -/
def fsnodesAddStats (parent : Inode) (sr : Stats) : Metadata := t.updateParentStats [parent] sr

end Metadata

/-! ## Accounts -/

def credit (a : Account) (amount : ℤ) : Account → ℤ := Pi.single a amount

/-- an amount for the owner and the group of a node -/
def FSNode.usage (n : FSNode) (r : QuotaResource) (amount : ℤ) : Account → ℤ :=
  credit (.used (.user n.uid) r) amount + credit (.used (.group n.gid) r) amount

namespace Metadata

def adjust (t : Metadata) (a : Account) (delta : ℤ) : Metadata := { t with accounts := t.accounts + credit a delta }

def fsnodesQuotaUpdate (t : Metadata) (n : FSNode) (r : QuotaResource) (delta : ℤ) : Metadata :=
  { t with accounts := t.accounts + n.usage r delta }

/-- what follows a change of a file: the records of these parents and the size used by its owners; `psr` is what the
file had before -/
def recountFile (cfg : Config) (t : Metadata) (id : Inode) (n : FSNode) (parents : List Inode) (psr : Stats) :
    Metadata :=
  let nsr := t.fsnodesGetStats cfg id
  (t.updateParentStats parents (nsr - psr)).fsnodesQuotaUpdate n .size (nsr .size - psr .size)

end Metadata

/-! ## Checksums -/

/-- the values that `fsnodes_checksum` combines, in their order -/
def FSNode.digest (n : FSNode) (id : Inode) (entriesHash lowerHash : XorWord 16) : List ℕ :=
  [n.type.char.toNat, id.toNat, n.goal, n.mode.toNat, n.uid.toNat, n.gid.toNat, n.atime.toNat,
    n.mtime.toNat, n.ctime.toNat, n.trashtime.toNat] ++
  match n.data with
  | .directory _ => [BitVec.toNat entriesHash, BitVec.toNat lowerHash]
  | .fifo | .socket => []
  | .blockDev rdev | .charDev rdev => [rdev.toNat]
  | .symlink path => [BitVec.toNat (cfg.nameHash path)]
  | .file f =>
    [f.length, if f.length = 0 then 0 else f.chunks.getD 0 0, if f.length = 0 then 0 else f.chunks.getD f.lastChunk 0]

def FSNode.fsnodesChecksum (n : FSNode) (id : Inode) (entriesHash lowerHash : XorWord 16) : XorWord 64 :=
  cfg.hashCombine (n.digest cfg id entriesHash lowerHash)

namespace Metadata

/-- `fsnodes_checksum` of the node behind a number -/
def checksumOf (cfg : Config) (t : Metadata) (id : Inode) : Option (XorWord 64) :=
  (t.nodes.get id).map fun n => n.fsnodesChecksum cfg id (t.entriesHash id) (t.foldOf id).hash

def fsnodesUpdateChecksum (cfg : Config) (t : Metadata) (id : Inode) : Metadata :=
  let checksum := (t.checksumOf cfg id).getD (t.checksum id)
  { t with
    fsNodesChecksum := t.fsNodesChecksum - t.checksum id + checksum
    checksum := Function.update t.checksum id checksum }

/-! ## Keys of the trash -/

def setCtime (t : Metadata) (id : Inode) (ts : UInt32) : Metadata := t.modifyNode id fun n => { n with ctime := ts }

/-- put an entry of the trash under another key -/
def rekey (trash : FiniteTable TrashPathKey Name) (old new : TrashPathKey) : FiniteTable TrashPathKey Name :=
  match trash.get old with
  | none => trash
  | some path => (trash.erase old).set new path

/-- `fsnodes_update_ctime`: a trashed node is put under its new key -/
def fsnodesUpdateCtime (t : Metadata) (id : Inode) (ts : UInt32) : Metadata :=
  { t.setCtime id ts with
    trash :=
      match t.nodes.get id with
      | none => t.trash
      | some n =>
        if n.type = .trash ∧ n.ctime ≠ ts then
          rekey t.trash (n.trashPathKey id) ({ n with ctime := ts }.trashPathKey id)
        else t.trash }

end Metadata

end SaunaFS.Namespace
