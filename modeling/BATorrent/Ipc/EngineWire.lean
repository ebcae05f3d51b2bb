import BATorrent.Lib.DataStream.Lenient

namespace BATorrent.EngineWire

open Lib.DataStream

-- What QDataStream writes and reads without the help of this code.
structure Qt where
  QString : Type
  QStringList : Type
  Float : Type
  string : Codec QString
  strings : Codec QStringList
  float : Codec Float

variable (qt : Qt)

section Counted

variable {α : Type}

-- What was read, and for how many elements `reserve` or `assign` made room.
structure Reserved (α : Type) where
  value : α
  reserved : Nat

-- The count of a vector as it is sent.
def putCount (n : Nat) : Bytes := putI32 (Int32.ofNat n)

-- How often `for (qint32 i = 0; i < n; ++i)` runs.
def rounds (n : Int32) : Nat := n.toInt.toNat

-- A std::vector takes a size_t: a negative count is beyond max_size() and throws.
def reserveVector (n : Int32) : Decoder Nat := if n < 0 then failure else pure (rounds n)

def writeVec (put : α → Bytes) (v : List α) : Bytes := putCount v.length ++ v.flatMap put

def readVec (get : Decoder α) : Decoder (Reserved (List α)) := do
  let n ← getI32
  let reserved ← reserveVector n
  let v ← getMany get (rounds n)
  pure ⟨v, reserved⟩

def putFlag (b : Bool) : Bytes := putU8 (if b then 1 else 0)

def getFlag : Decoder Bool := (· ≠ 0) <$> getU8

def writeBoolVec (v : List Bool) : Bytes := putCount v.length ++ v.flatMap putFlag

-- `assign` makes the elements, and the loop gives each its value.
def readBoolVec : Decoder (Reserved (List Bool)) := do
  let n ← getI32
  let assigned ← reserveVector n
  let v ← getMany getFlag (rounds n)
  pure ⟨v, assigned⟩

end Counted

section Options

structure AddOptions where
  savePath : qt.QString
  filePriorities : List Int32
  paused : Bool

def putAddOptions (o : AddOptions qt) : Bytes :=
  qt.string.put o.savePath ++ putCount o.filePriorities.length ++ o.filePriorities.flatMap putI32 ++
    putBool o.paused

def getAddOptions : Decoder (Reserved (AddOptions qt)) := do
  let savePath ← qt.string.read
  let n ← getI32
  let reserved := rounds (max 0 n)
  let filePriorities ← getMany getI32 (rounds n)
  let paused ← getBool
  pure ⟨⟨savePath, filePriorities, paused⟩, reserved⟩

-- The arguments of the request of that name.
structure AddTorrentWithPriorities where
  filePath : qt.QString
  savePath : qt.QString
  priorities : List Int32

def putAddTorrentWithPriorities (a : AddTorrentWithPriorities qt) : Bytes :=
  qt.string.put a.filePath ++ qt.string.put a.savePath ++ putCount a.priorities.length ++
    a.priorities.flatMap putI32

def getAddTorrentWithPriorities : Decoder (Reserved (AddTorrentWithPriorities qt)) := do
  let filePath ← qt.string.read
  let savePath ← qt.string.read
  let n ← getI32
  let reserved ← reserveVector n
  let priorities ← getMany getI32 (rounds n)
  pure ⟨⟨filePath, savePath, priorities⟩, reserved⟩

end Options

section Records

-- The handle of a torrent means nothing in the other process and is not sent.
structure TorrentInfo where
  name : qt.QString
  savePath : qt.QString
  totalSize : Int64
  totalDone : Int64
  progress : qt.Float
  downloadRate : Int32
  uploadRate : Int32
  numPeers : Int32
  numSeeds : Int32
  stateString : qt.QString
  stateDetail : qt.QString
  stateDetailShort : qt.QString
  paused : Bool
  completed : Bool
  finished : Bool
  seeding : Bool
  filesMissing : Bool
  hasError : Bool
  diskFull : Bool
  fetchingMetadata : Bool
  fetchingSecs : Int64
  queued : Bool
  queuePos : Int32
  ratio : qt.Float
  availability : qt.Float
  totalUploaded : Int64
  addedTime : Int64
  completedTime : Int64
  category : qt.QString
  tags : qt.QStringList

def putTorrentInfo (t : TorrentInfo qt) : Bytes :=
  qt.string.put t.name ++ qt.string.put t.savePath ++ putI64 t.totalSize ++ putI64 t.totalDone ++
    qt.float.put t.progress ++ putI32 t.downloadRate ++ putI32 t.uploadRate ++
    putI32 t.numPeers ++ putI32 t.numSeeds ++ qt.string.put t.stateString ++
    qt.string.put t.stateDetail ++ putBool t.paused ++ putBool t.completed ++
    qt.float.put t.ratio ++ qt.float.put t.availability ++ putI64 t.totalUploaded ++
    putI64 t.addedTime ++ qt.string.put t.category ++ qt.strings.put t.tags ++
    putBool t.queued ++ putI32 t.queuePos ++ putBool t.filesMissing ++ putBool t.finished ++
    putBool t.seeding ++ putBool t.fetchingMetadata ++ putI64 t.fetchingSecs ++
    putBool t.hasError ++ qt.string.put t.stateDetailShort ++ putBool t.diskFull ++
    putI64 t.completedTime

def getTorrentInfo : Decoder (TorrentInfo qt) := do
  let name ← qt.string.read
  let savePath ← qt.string.read
  let totalSize ← getI64
  let totalDone ← getI64
  let progress ← qt.float.read
  let dr ← getI32
  let ur ← getI32
  let np ← getI32
  let ns ← getI32
  let stateString ← qt.string.read
  let stateDetail ← qt.string.read
  let paused ← getBool
  let completed ← getBool
  let ratio ← qt.float.read
  let availability ← qt.float.read
  let totalUploaded ← getI64
  let addedTime ← getI64
  let category ← qt.string.read
  let tags ← qt.strings.read
  let queued ← getBool
  let qp ← getI32
  let filesMissing ← getBool
  let finished ← getBool
  let seeding ← getBool
  let fetchingMetadata ← getBool
  let fetchingSecs ← getI64
  let hasError ← getBool
  let stateDetailShort ← qt.string.read
  let diskFull ← getBool
  let completedTime ← getI64
  pure
    { name, savePath, totalSize, totalDone, progress, stateString, stateDetail, stateDetailShort,
      paused, completed, finished, seeding, filesMissing, hasError, diskFull, fetchingMetadata,
      fetchingSecs, queued, ratio, availability, totalUploaded, addedTime, completedTime, category,
      tags, downloadRate := dr, uploadRate := ur, numPeers := np, numSeeds := ns, queuePos := qp }

structure FileInfo where
  path : qt.QString
  size : Int64
  progress : qt.Float
  priority : Int32

def putFileInfo (f : FileInfo qt) : Bytes :=
  qt.string.put f.path ++ putI64 f.size ++ qt.float.put f.progress ++ putI32 f.priority

def getFileInfo : Decoder (FileInfo qt) := do
  let path ← qt.string.read
  let size ← getI64
  let progress ← qt.float.read
  let pr ← getI32
  pure { path, size, progress, priority := pr }

structure PeerInfo where
  ip : qt.QString
  port : Int32
  downloadRate : Int32
  uploadRate : Int32
  progress : qt.Float
  client : qt.QString

def putPeerInfo (p : PeerInfo qt) : Bytes :=
  qt.string.put p.ip ++ putI32 p.port ++ putI32 p.downloadRate ++ putI32 p.uploadRate ++
    qt.float.put p.progress ++ qt.string.put p.client

def getPeerInfo : Decoder (PeerInfo qt) := do
  let ip ← qt.string.read
  let port ← getI32
  let dr ← getI32
  let ur ← getI32
  let progress ← qt.float.read
  let client ← qt.string.read
  pure { ip, progress, client, port, downloadRate := dr, uploadRate := ur }

structure TrackerInfo where
  url : qt.QString
  tier : Int32
  status : qt.QString

def putTrackerInfo (t : TrackerInfo qt) : Bytes :=
  qt.string.put t.url ++ putI32 t.tier ++ qt.string.put t.status

def getTrackerInfo : Decoder (TrackerInfo qt) := do
  let url ← qt.string.read
  let tier ← getI32
  let status ← qt.string.read
  pure { url, status, tier }

structure RemovedEntry where
  hash : qt.QString
  name : qt.QString
  totalSize : Int64
  removedAt : Int64
  resumePath : qt.QString

def putRemovedEntry (r : RemovedEntry qt) : Bytes :=
  qt.string.put r.hash ++ qt.string.put r.name ++ putI64 r.totalSize ++ putI64 r.removedAt ++
    qt.string.put r.resumePath

def getRemovedEntry : Decoder (RemovedEntry qt) := do
  let hash ← qt.string.read
  let name ← qt.string.read
  let totalSize ← getI64
  let removedAt ← getI64
  let resumePath ← qt.string.read
  pure { hash, name, totalSize, removedAt, resumePath }

structure DetailedStats where
  dhtNodes : Int32
  peersCount : Int32
  totalWasted : Int64
  diskReadQueue : Int32
  diskWriteQueue : Int32
  hasIncomingConnections : Bool

def putDetailedStats (d : DetailedStats) : Bytes :=
  putI32 d.dhtNodes ++ putI32 d.peersCount ++ putI64 d.totalWasted ++ putI32 d.diskReadQueue ++
    putI32 d.diskWriteQueue ++ putBool d.hasIncomingConnections

def getDetailedStats : Decoder DetailedStats := do
  let dht ← getI32
  let peers ← getI32
  let totalWasted ← getI64
  let rq ← getI32
  let wq ← getI32
  let hasIncomingConnections ← getBool
  pure
    { totalWasted, hasIncomingConnections, dhtNodes := dht, peersCount := peers,
      diskReadQueue := rq, diskWriteQueue := wq }

structure AdvancedSettings where
  aioThreads : Int32
  hashingThreads : Int32
  filePoolSize : Int32
  checkingMemUsage : Int32
  diskIOReadMode : Int32
  diskIOWriteMode : Int32
  connectionsLimit : Int32
  connectionSpeed : Int32
  maxUploadsPerTorrent : Int32
  maxConnectionsPerTorrent : Int32
  unchokeSlotsLimit : Int32
  chokingAlgorithm : Int32
  seedChokingAlgorithm : Int32
  sendBufferWatermark : Int32
  outgoingPortMin : Int32
  outgoingPortMax : Int32
  rateLimitIpOverhead : Bool
  ignoreLimitsOnLAN : Bool

def putAdvancedSettings (a : AdvancedSettings) : Bytes :=
  putI32 a.aioThreads ++ putI32 a.hashingThreads ++ putI32 a.filePoolSize ++
    putI32 a.checkingMemUsage ++ putI32 a.diskIOReadMode ++ putI32 a.diskIOWriteMode ++
    putI32 a.connectionsLimit ++ putI32 a.connectionSpeed ++ putI32 a.maxUploadsPerTorrent ++
    putI32 a.maxConnectionsPerTorrent ++ putI32 a.unchokeSlotsLimit ++ putI32 a.chokingAlgorithm ++
    putI32 a.seedChokingAlgorithm ++ putI32 a.sendBufferWatermark ++ putI32 a.outgoingPortMin ++
    putI32 a.outgoingPortMax ++ putBool a.rateLimitIpOverhead ++ putBool a.ignoreLimitsOnLAN

def getAdvancedSettings : Decoder AdvancedSettings := do
  let v ← getMany getI32 16
  let rateLimitIpOverhead ← getBool
  let ignoreLimitsOnLAN ← getBool
  let at' := fun i => v.getD i 0
  pure
    { rateLimitIpOverhead, ignoreLimitsOnLAN
      aioThreads := at' 0, hashingThreads := at' 1, filePoolSize := at' 2
      checkingMemUsage := at' 3, diskIOReadMode := at' 4, diskIOWriteMode := at' 5
      connectionsLimit := at' 6, connectionSpeed := at' 7, maxUploadsPerTorrent := at' 8
      maxConnectionsPerTorrent := at' 9, unchokeSlotsLimit := at' 10, chokingAlgorithm := at' 11
      seedChokingAlgorithm := at' 12, sendBufferWatermark := at' 13, outgoingPortMin := at' 14
      outgoingPortMax := at' 15 }

end Records

section Snapshot

structure EngineSnapshot where
  hashes : qt.QStringList
  rows : List (TorrentInfo qt)
  globalUploaded : Int64
  globalDownloaded : Int64
  sessionUploaded : Int64
  sessionDownloaded : Int64
  globalRatio : qt.Float
  totalTorrentsAdded : Int32
  portStatus : Int32
  listenPort : Int32
  dhtEnabled : Bool
  altSpeedsActive : Bool
  detailed : DetailedStats

def putEngineSnapshot (k : EngineSnapshot qt) : Bytes :=
  qt.strings.put k.hashes ++ putCount k.rows.length ++ k.rows.flatMap (putTorrentInfo qt) ++
    putI64 k.globalUploaded ++ putI64 k.globalDownloaded ++ putI64 k.sessionUploaded ++
    putI64 k.sessionDownloaded ++ qt.float.put k.globalRatio ++ putI32 k.totalTorrentsAdded ++
    putI32 k.portStatus ++ putI32 k.listenPort ++ putBool k.dhtEnabled ++
    putBool k.altSpeedsActive ++ putDetailedStats k.detailed

-- A QList takes a negative count for none.
def getEngineSnapshot : Decoder (Reserved (EngineSnapshot qt)) := do
  let hashes ← qt.strings.read
  let n ← getI32
  let reserved := rounds n
  let rows ← getMany (getTorrentInfo qt) (rounds n)
  let globalUploaded ← getI64
  let globalDownloaded ← getI64
  let sessionUploaded ← getI64
  let sessionDownloaded ← getI64
  let globalRatio ← qt.float.read
  let totalTorrentsAdded ← getI32
  let portStatus ← getI32
  let listenPort ← getI32
  let dhtEnabled ← getBool
  let altSpeedsActive ← getBool
  let detailed ← getDetailedStats
  pure
    ⟨{ hashes, rows, globalUploaded, globalDownloaded, sessionUploaded, sessionDownloaded,
       globalRatio, totalTorrentsAdded, portStatus, listenPort, dhtEnabled, altSpeedsActive,
       detailed }, reserved⟩

end Snapshot

end BATorrent.EngineWire
