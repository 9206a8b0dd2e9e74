/-
What a connection of a chunkserver receives and sends (`protocol/cltocs.h`, `protocol/cstocl.h`, `protocol/packet.h`).

A received packet is its header and what the deserialiser of its type makes of its data, `none` standing for an
`IncorrectDeserializationException`. A packet to be sent is described by the arguments of its serialiser.
-/
import SaunaFS.Chunks.ChunkPart

namespace SaunaFS.Chunkserver

open SaunaFS.Chunks

/-! ## Sizes -/

def headerSize : ℕ := 8

def maxPacketSize : ℕ := 100000 + blockSize

def ioBlockSize : ℕ := 4096

def writeDataPrefixSize : ℕ := 30

def ioAlignedPacketSize : ℕ := ioBlockSize + blockSize

def ioAlignedOffset : ℕ := ioBlockSize - writeDataPrefixSize

def connectRetries : ℕ := 10

def stdVersion : ℕ := 0x020600

def firstXorVersion : ℕ := 0x020900

def firstECVersion : ℕ := 0x030905

/-! ## Packets received -/

/-- `SAUNAFS_STATUS_OK` and the errors that the connection itself reports; a disk job may report any other -/
inductive Status where
  | ok
  | wrongsize
  | wrongoffset
  | wrongchunkid
  | cantconnect
  | disconnected
  | other (code : ℕ)
deriving DecidableEq

/-- the two `MessageSerializer`s -/
inductive Serializer where
  | legacy
  | saunafs
deriving DecidableEq

/-- the arguments of a READ or a PREFETCH -/
structure ReadRequest where
  chunkId : ℕ
  version : ℕ
  chunkType : ChunkPartType
  offset : ℕ
  size : ℕ
deriving DecidableEq

/-- the formats of a WRITE_INIT: `CLTOCS_WRITE` and the two packet versions of `SAU_CLTOCS_WRITE_INIT` -/
inductive InitFormat where
  | std
  | xor
  | ec
deriving DecidableEq

def InitFormat.serializer : InitFormat → Serializer
  | .std => .legacy
  | .xor => .saunafs
  | .ec => .saunafs

/-- a server of a write chain, `ChunkTypeWithAddress` -/
structure ChainLink where
  address : ℕ
  chunkType : ChunkPartType
  chunkserverVersion : ℕ
deriving DecidableEq

structure WriteInit where
  chunkId : ℕ
  version : ℕ
  chunkType : ChunkPartType
  chain : List ChainLink
deriving DecidableEq

structure WriteData where
  chunkId : ℕ
  writeId : ℕ
  blocknum : ℕ
  offset : ℕ
  size : ℕ
  crc : ℕ
deriving DecidableEq

structure WriteStatus where
  chunkId : ℕ
  writeId : ℕ
  status : Status
deriving DecidableEq

/-- the arguments of a GET_CHUNK_BLOCKS -/
structure BlocksRequest where
  chunkId : ℕ
  version : ℕ
  chunkType : ChunkPartType
deriving DecidableEq

/-- a packet by its type, with its deserialised data -/
inductive Message where
  | nop
  | unknownCommand
  | badCommandSize
  | ping (opSize : ℕ)
  | read (s : Serializer) (request : Option ReadRequest)
  | prefetch (request : Option ReadRequest)
  | writeInit (f : InitFormat) (request : Option WriteInit)
  | writeData (s : Serializer) (data : Option WriteData)
  | writeStatus (s : Serializer) (status : Option WriteStatus)
  | writeEnd (chunkId : Option ℕ)
  | getChunkBlocks (s : Serializer) (request : Option BlocksRequest)
  | hddListV2
  | listDiskGroups
  | chart
  | chartData
  | testChunk (wellFormed : Bool)
  | other
deriving DecidableEq

/-- a packet with the length its header announces -/
structure Packet where
  message : Message
  length : ℕ
deriving DecidableEq

namespace Packet

/-- the types that `readFromSocket` stores in the aligned buffer -/
def isAligned (p : Packet) : Bool :=
  match p.message with
  | .writeData .saunafs _ => true
  | .writeEnd _ => true
  | _ => false

/-- the types that `forward` passes on to the next server -/
def isForwarded (p : Packet) : Bool :=
  match p.message with
  | .writeData _ _ => true
  | .writeEnd _ => true
  | _ => false

end Packet

/-- the bytes of a WRITE_DATA in front of the data -/
def dataPrefixSize : Serializer → ℕ
  | .legacy => 24
  | .saunafs => writeDataPrefixSize

namespace WriteInit

/-- the chain with the versions that `writeInit` gives to its servers where the format carries none -/
def servers (f : InitFormat) (r : WriteInit) : List ChainLink :=
  match f with
  | .std => r.chain.map fun c => ⟨c.address, standardPartType, stdVersion⟩
  | .xor => r.chain.map fun c => ⟨c.address, r.chunkType, firstXorVersion⟩
  | .ec => r.chain

/-- the part that the format names; `CLTOCS_WRITE` names none -/
def part (f : InitFormat) (r : WriteInit) : ChunkPartType :=
  match f with
  | .std => standardPartType
  | .xor => r.chunkType
  | .ec => r.chunkType

end WriteInit

/-- the `assert`s of `serializeCltocsWriteInit`: the format for a receiver of this version has a name for the part -/
def namesPart (chunkType : ChunkPartType) (targetVersion : ℕ) : Bool :=
  if firstECVersion ≤ targetVersion then true
  else if firstXorVersion ≤ targetVersion then decide (chunkType.sliceType < 10)
  else isStandard chunkType.sliceType

/-- `serializeCltocsWriteInit`: the format is chosen by the version of the receiver -/
def serializeCltocsWriteInit (chunkId version : ℕ) (chunkType : ChunkPartType) (chain : List ChainLink)
    (targetVersion : ℕ) : Packet :=
  if firstECVersion ≤ targetVersion then
    { message := .writeInit .ec (some ⟨chunkId, version, chunkType, chain⟩)
      length := 4 + 8 + 4 + 2 + 4 + 12 * chain.length }
  else if firstXorVersion ≤ targetVersion then
    { message := .writeInit .xor (some ⟨chunkId, version, chunkType, chain⟩)
      length := 4 + 8 + 4 + 1 + 4 + 6 * chain.length }
  else
    { message := .writeInit .std (some ⟨chunkId, version, chunkType, chain⟩)
      length := 8 + 4 + 6 * chain.length }

/-! ## Packets sent -/

/-- a packet of the output queue. A reply to a READ carries the number of the request it was prepared for, and a
READ_DATA the job that reads its data into the output buffer; neither is sent. -/
inductive OutPacket where
  | readData (request job : ℕ) (s : Serializer) (chunkId offset size : ℕ)
  | readStatus (request : ℕ) (s : Serializer) (chunkId : ℕ) (status : Status)
  | writeStatus (s : Serializer) (status : WriteStatus)
  | pingReply (size : ℕ)
  | getChunkBlocksStatus (chunkId version : ℕ) (status : Status)
  | hddListV2
  | listDiskGroups
  | chart
  | chartData
deriving DecidableEq

namespace OutPacket

/-- the packets with an `outputBuffer` -/
def isReadData : OutPacket → Bool
  | .readData .. => true
  | _ => false

def isReadReply : OutPacket → Bool
  | .readData .. => true
  | .readStatus .. => true
  | _ => false

end OutPacket

end SaunaFS.Chunkserver
