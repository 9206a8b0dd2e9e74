/-
The connection of a shadow master with the master: `master/masterconn.cc`, built without `METALOGGER`.

A `MasterConn` is the `masterconn` singleton together with the globals that its functions read. What the operating
system and the data directory answer while a handler runs is an argument of it (`System`).

`fs_unload` throws if there are no metadata. No caller catches this, so the process ends: `running` becomes false.
-/
import SaunaFS.Changelog.Restore

namespace SaunaFS.Shadow

open SaunaFS.Changelog (Counters FileSystem RestoreRigor restoreReset)

/-! ## Types -/

/-- `FREE, CONNECTING, HEADER, DATA, KILL` -/
inductive Mode where
  | free
  | connecting
  | header
  | data
  | kill
deriving DecidableEq

inductive MasterConnectionState where
  | none
  | synchronized
  | downloading
  | dumpRequestPending
  | limbo
deriving DecidableEq

/-- the files that are downloaded: `DOWNLOAD_METADATA_SFS`, `DOWNLOAD_SESSIONS_SFS`, `DOWNLOAD_CHANGELOG_SFS` and
`DOWNLOAD_CHANGELOG_SFS_1` -/
inductive DownloadFile where
  | metadata
  | sessions
  | changelog
  | changelog1
deriving DecidableEq

/-- the packets to the master -/
inductive ToMaster where
  | registerShadow (metadataVersion : UInt64)
  | matoclport
  | downloadStart (filenum : DownloadFile)
  | downloadData (offset leng : UInt64)
  | downloadEnd
  | changelogApplyError (status : Status)
deriving DecidableEq

def ToMaster.isRegister : ToMaster → Bool
  | registerShadow _ => true
  | _ => false

/-- the packets from the master; `malformed` stands for every packet that makes its handler, or the dispatcher, kill the
session: a wrong size or content, an unknown type -/
inductive FromMaster (L : Type) where
  | nop
  | registerShadowStatus (status : Status)
  | registerShadow (masterVersion : UInt32) (masterMetadataVersion : UInt64)
  | logRotate
  | metachangesLog (version : UInt64) (entry : L)
  | endSession
  | downloadStartError
  | downloadStart (filesize : UInt64)
  | downloadData (offset : UInt64) (leng : UInt32) (crcMatches : Bool)
  | changelogApplyError (status : Status)
  | malformed
deriving DecidableEq

/-- a changelog file: its entries, or the exception that reading its last version throws -/
abbrev ChangelogFile (L : Type) := Except Status (List (UInt64 × L))

/-- what `fs_loadall` finds: no usable image, with the metadata that the attempt leaves, or an image and the changelogs
`.2`, `.1` and the present one, as far as they exist -/
inductive Directory (M L : Type) where
  | unusable (left : M) (status : Status)
  | image (metadata : M) (changelogs : List (ChangelogFile L))

/-- the answers of the operating system while a packet is handled -/
structure System (M L : Type) where
  /-- `MATOCL_LISTEN_PORT` can be resolved -/
  resolves : Bool
  /-- the temporary file can be opened -/
  opens : Bool
  /-- a block is written completely, and `fsync` succeeds -/
  writes : Bool
  syncs : Bool
  closes : Bool
  /-- the downloaded sessions file gets its name -/
  renames : Bool
  directory : Directory M L

structure MasterConn (M : Type) where
  mode : Mode
  /-- the version of the master, 0 before registration -/
  version : UInt32
  output : List ToMaster
  downloadretrycnt : ℕ
  downloading : Option DownloadFile
  /-- `metafd >= 0` -/
  metafd : Bool
  filesize : UInt64
  dloffset : UInt64
  state : MasterConnectionState
  errorStatus : Status
  lastlogversion : UInt64
  /-- `gMetadata` -/
  metadata : Option M
  /-- the counters of `restore` -/
  counters : Counters
  running : Bool

/-! ## Loading -/

section Loading

variable {M L : Type} (fs : FileSystem M L)

def fsLoadChangelog : M → Counters → List (UInt64 × L) → M × Counters × Option Status
  | m, v, [] => (m, v, none)
  | m, v, (id, line) :: entries =>
    if id < fs.getversion m then fsLoadChangelog m v entries
    else
      match fs.restore m v ⟨id, line, .ignoreParseErrors⟩ with
      | (m', v', .ok) => fsLoadChangelog m' v' entries
      | (m', v', status) => (m', v', some status)

def fsLoadChangelogs : M → Counters → List (ChangelogFile L) → M × Counters × Option Status
  | m, v, [] => (m, v, none)
  | m, v, .error status :: _ => (m, v, some status)
  | m, v, .ok entries :: files =>
    let first := (entries.head?.map Prod.fst).getD 0
    let last := (entries.getLast?.map Prod.fst).getD 0
    if last < first then (m, v, some .unknown)
    else if last < fs.getversion m then fsLoadChangelogs m v files
    else
      match fsLoadChangelog fs m v entries with
      | (m', v', none) => fsLoadChangelogs m' v' files
      | r => r

/-- `fs_loadall`: the metadata, the counters of `restore`, and the status of the exception if one was thrown -/
def fsLoadall (v : Counters) : Directory M L → M × Counters × Option Status
  | .unusable m status => (m, v, some status)
  | .image m files => fsLoadChangelogs fs m v files

end Loading

def saunafsVersion (major minor micro : UInt32) : UInt32 := 0x010000 * major + 0x0100 * minor + micro

def metaDlBlock : UInt64 := 1000000

namespace MasterConn

variable {M L : Type}

/-! ## Small steps -/

variable (c : MasterConn M)

/-- the socket is connected -/
def online : Prop := c.running = true ∧ (c.mode = .header ∨ c.mode = .data)

instance (c : MasterConn M) : Decidable c.online := inferInstanceAs (Decidable (_ ∧ _))

/-- `masterconn_is_connected`: the socket is connected and the registration was successful -/
def isConnected : Prop := c.online ∧ 0 < c.version

instance (c : MasterConn M) : Decidable c.isConnected := inferInstanceAs (Decidable (_ ∧ _))

def createpacket (p : ToMaster) : MasterConn M := { c with output := c.output ++ [p] }

def killSession : MasterConn M := if c.mode = .free then c else { c with mode := .kill }

def forceMetadataDownload : MasterConn M :=
  match c.metadata with
  | none => { c with state := .none, running := false }
  | some _ => killSession { c with state := .none, metadata := none, counters := restoreReset, lastlogversion := 0 }

def requestMetadataDump : MasterConn M :=
  { c.createpacket (.changelogApplyError c.errorStatus) with state := .dumpRequestPending }

def handleChangelogApplyError (status : Status) : MasterConn M :=
  if c.version ≤ saunafsVersion 2 5 0 then c.forceMetadataDownload
  else requestMetadataDump { c with errorStatus := status }

def intSendMatoclport (resolves : Bool) : MasterConn M :=
  if c.version < saunafsVersion 2 5 5 ∨ resolves = false then c else c.createpacket .matoclport

def downloadInit (filenum : DownloadFile) : MasterConn M :=
  if (c.mode = .header ∨ c.mode = .data) ∧ c.downloading = none then
    { c.createpacket (.downloadStart filenum) with
      downloading := some filenum
      state := if filenum = .metadata then .downloading else c.state }
  else c

def downloadEnd (c : MasterConn M) : MasterConn M :=
  { c.createpacket .downloadEnd with downloading := none, metafd := false }

/-! ## Packets -/

section Packets

variable (fs : FileSystem M L) (c : MasterConn M)

/-- `masterconn_registered`, for a response that is not a status -/
def registered (masterVersion : UInt32) (masterMetadataVersion : UInt64) (resolves : Bool) : MasterConn M :=
  let c := intSendMatoclport { c with version := masterVersion } resolves
  if c.state = .synchronized then
    match c.metadata with
    | none => { c with running := false }
    | some m => if fs.getversion m ≠ masterMetadataVersion then c.forceMetadataDownload else c
  else c

def metachangesLog (version : UInt64) (entry : L) : MasterConn M :=
  if 0 < c.lastlogversion ∧ version ≠ c.lastlogversion + 1 then
    c.handleChangelogApplyError .metadataversionmismatch
  else if c.state = .synchronized then
    match c.metadata with
    | none => { c with running := false }
    | some m =>
      match fs.restore m c.counters ⟨version, entry, .dontIgnoreAnyErrors⟩ with
      | (m', v', .ok) => { c with metadata := some m', counters := v', lastlogversion := version }
      | (m', v', status) => handleChangelogApplyError { c with metadata := some m', counters := v' } status
  else { c with lastlogversion := version }

/-- the end of the last download -/
def loadDownloaded (directory : Directory M L) : MasterConn M :=
  match fsLoadall fs c.counters directory with
  | (m, v, none) =>
    { c with metadata := some m, counters := v, lastlogversion := fs.getversion m - 1, state := .synchronized }
  | (m, v, some status) =>
    handleChangelogApplyError { c with metadata := some m, counters := v }
      (if status = .ok then .changeloginconsistent else status)

/-- what follows the file that has been downloaded -/
def downloadedFile (o : System M L) : Option DownloadFile → MasterConn M
  | some .metadata => c.downloadInit .changelog
  | some .changelog => c.downloadInit .changelog1
  | some .changelog1 => c.downloadInit .sessions
  | some .sessions => if o.renames = true ∧ c.state = .downloading then c.loadDownloaded fs o.directory else c
  | none => c

def downloadNext (o : System M L) : MasterConn M :=
  if c.filesize ≤ c.dloffset then
    if c.metafd = true ∧ o.closes = false then c.downloadEnd
    else c.downloadEnd.downloadedFile fs o c.downloading
  else c.createpacket (.downloadData c.dloffset (min (c.filesize - c.dloffset) metaDlBlock))

/-- `masterconn_download_start`, for a reply with the size of the file -/
def downloadStart (filesize : UInt64) (o : System M L) : MasterConn M :=
  let c := { c with filesize := filesize, dloffset := 0, downloadretrycnt := 0 }
  if c.downloading = none then { c with mode := .kill }
  else if o.opens = false then ({ c with metafd := false } : MasterConn M).downloadEnd
  else downloadNext fs { c with metafd := true } o

def downloadData (offset : UInt64) (leng : UInt32) (crcMatches : Bool) (o : System M L) : MasterConn M :=
  if c.metafd = false ∨ offset ≠ c.dloffset ∨ c.filesize < offset + leng.toUInt64 then { c with mode := .kill }
  else if o.writes = false ∨ crcMatches = false ∨ o.syncs = false then
    if 5 ≤ c.downloadretrycnt then c.downloadEnd
    else downloadNext fs { c with downloadretrycnt := c.downloadretrycnt + 1 } o
  else downloadNext fs { c with dloffset := c.dloffset + leng.toUInt64, downloadretrycnt := 0 } o

def changelogApplyError (status : Status) : MasterConn M :=
  if status = .ok then c.forceMetadataDownload else { c with state := .limbo }

def gotpacket (p : FromMaster L) (o : System M L) : MasterConn M :=
  match p with
  | .nop => c
  | .registerShadowStatus _ => { c with mode := .kill }
  | .registerShadow masterVersion masterMetadataVersion =>
    c.registered fs masterVersion masterMetadataVersion o.resolves
  | .logRotate => c
  | .metachangesLog version entry => c.metachangesLog fs version entry
  | .endSession => c.killSession
  | .downloadStartError => { c with downloading := none }
  | .downloadStart filesize => c.downloadStart fs filesize o
  | .downloadData offset leng crcMatches => c.downloadData fs offset leng crcMatches o
  | .changelogApplyError status => c.changelogApplyError status
  | .malformed => { c with mode := .kill }

/-! ## Connections and timers -/

def sendregister : MasterConn M :=
  let c := { c with downloading := none, metafd := false }
  if c.state = .synchronized then
    match c.metadata with
    | none => { c with running := false }
    | some m => c.createpacket (.registerShadow (fs.getversion m))
  else c.createpacket (.registerShadow 0)

def connected : MasterConn M :=
  let c := sendregister fs { c with mode := .header, version := 0, output := [] }
  if c.lastlogversion = 0 then c.downloadInit .metadata
  else if c.state = .dumpRequestPending then c.requestMetadataDump
  else c

inductive Attempt where
  | failed
  | immediate
  | inProgress
deriving DecidableEq

def initconnect : Attempt → MasterConn M
  | .failed => c
  | .immediate => c.connected fs
  | .inProgress => { c with mode := .connecting }

def connecttest (success : Bool) : MasterConn M :=
  if success then c.connected fs else { c with mode := .free, version := 0 }

/-- the second half of `masterconn_reconnect`: a master that refused to dump its metadata is asked again -/
def askAgain (expired : Bool) : MasterConn M :=
  if (c.mode = .header ∨ c.mode = .data) ∧ c.state = .limbo ∧ expired = true then c.requestMetadataDump else c

def reconnect (attempt : Attempt) (expired : Bool) : MasterConn M :=
  askAgain (if c.mode = .free then c.initconnect fs attempt else c) expired

def sessionsdownloadinit : MasterConn M :=
  if c.state = .synchronized then c.downloadInit .sessions else c

/-- the end of `masterconn_serve` -/
def close : MasterConn M :=
  if c.mode = .kill then { c with metafd := false, output := [], mode := .free, version := 0 } else c

/-- what happens to the connection; `lost` is everything that kills the session from outside of the handlers: the end of
the stream, an error, a timeout, a packet that is too long, a new address of the master, the exit -/
inductive Event (M L : Type) where
  | connecttest (success : Bool)
  | reconnect (attempt : Attempt) (expired : Bool)
  | sessionsdownloadinit
  | header
  | packet (p : FromMaster L) (o : System M L)
  | reloadPort (resolves : Bool)
  | lost
  | close

/-- `masterconn_read`: the rest of a packet has come -/
def receive (p : FromMaster L) (o : System M L) : MasterConn M :=
  if c.mode = .header ∨ c.mode = .data then gotpacket fs { c with mode := .header } p o else c

/-- one event in a process that is running -/
def handle : Event M L → MasterConn M
  | .connecttest success => if c.mode = .connecting then c.connecttest fs success else c
  | .reconnect attempt expired => c.reconnect fs attempt expired
  | .sessionsdownloadinit => c.sessionsdownloadinit
  | .header => if c.mode = .header then { c with mode := .data } else c
  | .packet p o => c.receive fs p o
  | .reloadPort resolves => c.intSendMatoclport resolves
  | .lost => c.killSession
  | .close => c.close

/-- nothing happens in a process that has ended -/
def step (e : Event M L) : MasterConn M := if c.running = true then c.handle fs e else c

/-- `masterconn_init`, up to the first attempt to connect -/
def init : MasterConn M where
  mode := .free
  version := 0
  output := []
  downloadretrycnt := 0
  downloading := none
  metafd := false
  filesize := 0
  dloffset := 0
  state := .none
  errorStatus := .ok
  lastlogversion := 0
  metadata := none
  counters := restoreReset
  running := true

end Packets

end MasterConn

end SaunaFS.Shadow
