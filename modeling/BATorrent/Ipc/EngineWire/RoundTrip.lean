import BATorrent.Ipc.EngineWire

namespace BATorrent.EngineWire

open Lib.DataStream

variable (qt : Qt)

section Counts

variable {α : Type}

-- Above this the count is sent as a negative number.
def countLimit : Nat := 2 ^ 31

theorem toInt_ofNat_count {n : Nat} (h : n < countLimit) : (Int32.ofNat n).toInt = n := by
  unfold countLimit at h
  rw [Int32.toInt_ofNat']
  exact Int.bmod_eq_of_le_mul_two (by simp [Int32.size]; omega) (by simp [Int32.size]; omega)

theorem rounds_ofNat {n : Nat} (h : n < countLimit) : rounds (Int32.ofNat n) = n := by
  rw [rounds, toInt_ofNat_count h]
  rfl

theorem reserveVector_ofNat {n : Nat} (h : n < countLimit) :
    reserveVector (Int32.ofNat n) = pure n := by
  have hnonneg : ¬ Int32.ofNat n < 0 := by
    rw [Int32.lt_iff_toInt_lt, toInt_ofNat_count h]
    simp
  rw [reserveVector, if_neg hnonneg, rounds_ofNat h]

theorem reads_putCount (n : Nat) : Reads getI32.run (putCount n) (Int32.ofNat n) := reads_putI32 _

-- The counted loop, after its count was read.
theorem reads_counted {get : Decoder α} {put : α → Bytes} (h : ∀ a, Reads get.run (put a) a)
    {l : List α} (hcount : l.length < countLimit) :
    Reads (getMany get (rounds (Int32.ofNat l.length))).run (l.flatMap put) l := by
  rw [rounds_ofNat hcount]
  exact reads_getMany h l

theorem reads_reserveVector {n : Nat} (h : n < countLimit) :
    Reads (reserveVector (Int32.ofNat n)).run [] n := by
  rw [reserveVector_ofNat h]
  exact reads_pure

theorem reads_writeVec {get : Decoder α} {put : α → Bytes} (h : ∀ a, Reads get.run (put a) a)
    {v : List α} (hcount : v.length < countLimit) :
    Reads (readVec get).run (writeVec put v) ⟨v, v.length⟩ := by
  refine reads_bind (reads_putCount _) ?_
  exact reads_bind (reads_reserveVector hcount) (reads_last (reads_counted h hcount))

theorem reads_putFlag (b : Bool) : Reads getFlag.run (putFlag b) b := by
  have hflag := reads_putU8 (if b then 1 else 0)
  intro rest
  rw [getFlag, StateT.run_map, putFlag, hflag]
  cases b <;> rfl

theorem reads_writeBoolVec {v : List Bool} (hcount : v.length < countLimit) :
    Reads readBoolVec.run (writeBoolVec v) ⟨v, v.length⟩ := by
  refine reads_bind (reads_putCount _) ?_
  exact reads_bind (reads_reserveVector hcount) (reads_last (reads_counted reads_putFlag hcount))

end Counts

section Records

theorem reads_torrentInfo (t : TorrentInfo qt) :
    Reads (getTorrentInfo qt).run (putTorrentInfo qt t) t := by
  -- The equation of so long a definition is slow to make.
  delta putTorrentInfo
  simp only [List.append_assoc]
  refine reads_bind (qt.string.reads t.name) (reads_bind (qt.string.reads t.savePath) ?_)
  refine reads_bind (reads_putI64 t.totalSize) (reads_bind (reads_putI64 t.totalDone) ?_)
  refine reads_bind (qt.float.reads t.progress) (reads_bind (reads_putI32 t.downloadRate) ?_)
  refine reads_bind (reads_putI32 t.uploadRate) (reads_bind (reads_putI32 t.numPeers) ?_)
  refine reads_bind (reads_putI32 t.numSeeds) (reads_bind (qt.string.reads t.stateString) ?_)
  refine reads_bind (qt.string.reads t.stateDetail) (reads_bind (reads_putBool t.paused) ?_)
  refine reads_bind (reads_putBool t.completed) (reads_bind (qt.float.reads t.ratio) ?_)
  refine reads_bind (qt.float.reads t.availability) (reads_bind (reads_putI64 t.totalUploaded) ?_)
  refine reads_bind (reads_putI64 t.addedTime) (reads_bind (qt.string.reads t.category) ?_)
  refine reads_bind (qt.strings.reads t.tags) (reads_bind (reads_putBool t.queued) ?_)
  refine reads_bind (reads_putI32 t.queuePos) (reads_bind (reads_putBool t.filesMissing) ?_)
  refine reads_bind (reads_putBool t.finished) (reads_bind (reads_putBool t.seeding) ?_)
  refine reads_bind (reads_putBool t.fetchingMetadata) (reads_bind (reads_putI64 t.fetchingSecs) ?_)
  refine reads_bind (reads_putBool t.hasError) (reads_bind (qt.string.reads t.stateDetailShort) ?_)
  exact reads_bind (reads_putBool t.diskFull) (reads_last (reads_putI64 t.completedTime))

theorem reads_fileInfo (f : FileInfo qt) : Reads (getFileInfo qt).run (putFileInfo qt f) f := by
  simp only [putFileInfo, List.append_assoc]
  refine reads_bind (qt.string.reads f.path) (reads_bind (reads_putI64 f.size) ?_)
  exact reads_bind (qt.float.reads f.progress) (reads_last (reads_putI32 f.priority))

theorem reads_peerInfo (p : PeerInfo qt) : Reads (getPeerInfo qt).run (putPeerInfo qt p) p := by
  simp only [putPeerInfo, List.append_assoc]
  refine reads_bind (qt.string.reads p.ip) (reads_bind (reads_putI32 p.port) ?_)
  refine reads_bind (reads_putI32 p.downloadRate) (reads_bind (reads_putI32 p.uploadRate) ?_)
  exact reads_bind (qt.float.reads p.progress) (reads_last (qt.string.reads p.client))

theorem reads_trackerInfo (t : TrackerInfo qt) :
    Reads (getTrackerInfo qt).run (putTrackerInfo qt t) t := by
  simp only [putTrackerInfo, List.append_assoc]
  refine reads_bind (qt.string.reads t.url) (reads_bind (reads_putI32 t.tier) ?_)
  exact reads_last (qt.string.reads t.status)

theorem reads_removedEntry (r : RemovedEntry qt) :
    Reads (getRemovedEntry qt).run (putRemovedEntry qt r) r := by
  simp only [putRemovedEntry, List.append_assoc]
  refine reads_bind (qt.string.reads r.hash) (reads_bind (qt.string.reads r.name) ?_)
  refine reads_bind (reads_putI64 r.totalSize) (reads_bind (reads_putI64 r.removedAt) ?_)
  exact reads_last (qt.string.reads r.resumePath)

theorem reads_detailedStats (d : DetailedStats) :
    Reads getDetailedStats.run (putDetailedStats d) d := by
  simp only [putDetailedStats, List.append_assoc]
  refine reads_bind (reads_putI32 d.dhtNodes) (reads_bind (reads_putI32 d.peersCount) ?_)
  refine reads_bind (reads_putI64 d.totalWasted) (reads_bind (reads_putI32 d.diskReadQueue) ?_)
  refine reads_bind (reads_putI32 d.diskWriteQueue) ?_
  exact reads_last (reads_putBool d.hasIncomingConnections)

-- The numbers that the reader takes in one loop, in the order in which they were sent.
def AdvancedSettings.numbers (a : AdvancedSettings) : List Int32 :=
  [a.aioThreads, a.hashingThreads, a.filePoolSize, a.checkingMemUsage, a.diskIOReadMode,
    a.diskIOWriteMode, a.connectionsLimit, a.connectionSpeed, a.maxUploadsPerTorrent,
    a.maxConnectionsPerTorrent, a.unchokeSlotsLimit, a.chokingAlgorithm, a.seedChokingAlgorithm,
    a.sendBufferWatermark, a.outgoingPortMin, a.outgoingPortMax]

theorem reads_advancedSettings (a : AdvancedSettings) :
    Reads getAdvancedSettings.run (putAdvancedSettings a) a := by
  have hput : putAdvancedSettings a = a.numbers.flatMap putI32 ++
      (putBool a.rateLimitIpOverhead ++ putBool a.ignoreLimitsOnLAN) := by
    simp [putAdvancedSettings, AdvancedSettings.numbers, List.append_assoc]
  rw [hput]
  refine reads_bind (reads_getMany reads_putI32 a.numbers) ?_
  refine reads_bind (reads_putBool a.rateLimitIpOverhead) ?_
  exact reads_last (reads_putBool a.ignoreLimitsOnLAN)

theorem reads_addOptions {o : AddOptions qt} (h : o.filePriorities.length < countLimit) :
    Reads (getAddOptions qt).run (putAddOptions qt o) ⟨o, o.filePriorities.length⟩ := by
  have hreserved : rounds (max 0 (Int32.ofNat o.filePriorities.length)) = o.filePriorities.length := by
    have hle : (0 : Int32) ≤ Int32.ofNat o.filePriorities.length := by
      rw [Int32.le_iff_toInt_le, toInt_ofNat_count h]
      simp
    have hmax : max 0 (Int32.ofNat o.filePriorities.length) = Int32.ofNat o.filePriorities.length :=
      if_pos hle
    rw [hmax, rounds_ofNat h]
  simp only [putAddOptions, List.append_assoc]
  refine reads_bind (qt.string.reads o.savePath) (reads_bind (reads_putCount _) ?_)
  rw [hreserved]
  exact reads_bind (reads_counted reads_putI32 h) (reads_last (reads_putBool o.paused))

theorem reads_engineSnapshot {k : EngineSnapshot qt} (h : k.rows.length < countLimit) :
    Reads (getEngineSnapshot qt).run (putEngineSnapshot qt k) ⟨k, k.rows.length⟩ := by
  have hreserved := rounds_ofNat h
  simp only [putEngineSnapshot, List.append_assoc]
  refine reads_bind (qt.strings.reads k.hashes) (reads_bind (reads_putCount _) ?_)
  refine reads_bind (reads_counted (reads_torrentInfo qt) h) ?_
  refine reads_bind (reads_putI64 k.globalUploaded) (reads_bind (reads_putI64 k.globalDownloaded) ?_)
  refine reads_bind (reads_putI64 k.sessionUploaded) ?_
  refine reads_bind (reads_putI64 k.sessionDownloaded) ?_
  refine reads_bind (qt.float.reads k.globalRatio) (reads_bind (reads_putI32 k.totalTorrentsAdded) ?_)
  refine reads_bind (reads_putI32 k.portStatus) (reads_bind (reads_putI32 k.listenPort) ?_)
  refine reads_bind (reads_putBool k.dhtEnabled) (reads_bind (reads_putBool k.altSpeedsActive) ?_)
  rw [hreserved]
  exact reads_last (reads_detailedStats k.detailed)

end Records

section Wire

-- Every type of the wire comes back as it was sent, and what follows it is left alone.
structure RoundTrips : Prop where
  engineSnapshot : ∀ k : EngineSnapshot qt, k.rows.length < countLimit →
    Reads (getEngineSnapshot qt).run (putEngineSnapshot qt k) ⟨k, k.rows.length⟩
  torrentInfo : ∀ t, Reads (getTorrentInfo qt).run (putTorrentInfo qt t) t
  detailedStats : ∀ d, Reads getDetailedStats.run (putDetailedStats d) d
  addOptions : ∀ o : AddOptions qt, o.filePriorities.length < countLimit →
    Reads (getAddOptions qt).run (putAddOptions qt o) ⟨o, o.filePriorities.length⟩
  advancedSettings : ∀ a, Reads getAdvancedSettings.run (putAdvancedSettings a) a
  removedEntry : ∀ r, Reads (getRemovedEntry qt).run (putRemovedEntry qt r) r
  files : ∀ v : List (FileInfo qt), v.length < countLimit →
    Reads (readVec (getFileInfo qt)).run (writeVec (putFileInfo qt) v) ⟨v, v.length⟩
  peers : ∀ v : List (PeerInfo qt), v.length < countLimit →
    Reads (readVec (getPeerInfo qt)).run (writeVec (putPeerInfo qt) v) ⟨v, v.length⟩
  trackers : ∀ v : List (TrackerInfo qt), v.length < countLimit →
    Reads (readVec (getTrackerInfo qt)).run (writeVec (putTrackerInfo qt) v) ⟨v, v.length⟩
  pieces : ∀ v : List Bool, v.length < countLimit →
    Reads readBoolVec.run (writeBoolVec v) ⟨v, v.length⟩

theorem roundTrips : RoundTrips qt where
  engineSnapshot _ h := reads_engineSnapshot qt h
  torrentInfo := reads_torrentInfo qt
  detailedStats := reads_detailedStats
  addOptions _ h := reads_addOptions qt h
  advancedSettings := reads_advancedSettings
  removedEntry := reads_removedEntry qt
  files _ h := reads_writeVec (reads_fileInfo qt) h
  peers _ h := reads_writeVec (reads_peerInfo qt) h
  trackers _ h := reads_writeVec (reads_trackerInfo qt) h
  pieces _ h := reads_writeBoolVec h

-- The count of so many bits is sent as the least number there is, and `assign` throws.
theorem not_reads_writeBoolVec :
    ¬ ∃ reserved, Reads readBoolVec.run (writeBoolVec (List.replicate countLimit true))
      ⟨List.replicate countLimit true, reserved⟩ := by
  rintro ⟨reserved, hreads⟩
  have hneg : Int32.ofNat countLimit < 0 := by decide
  have hthrow : reserveVector (Int32.ofNat countLimit) = failure := if_pos hneg
  have hread := hreads []
  rw [writeBoolVec, List.length_replicate, List.append_assoc, readBoolVec, StateT.run_bind,
    reads_putCount countLimit] at hread
  simp only [Option.bind_eq_bind, Option.bind_some, hthrow] at hread
  cases hread

end Wire

section Plain

-- Texts as QDataStream sends them, up to the size that its count of bytes can hold.
abbrev PlainString := { s : QString // 2 * s.length < kNull }

abbrev PlainStringList := { l : List QString // l.length < 2 ^ 32 ∧ ∀ s ∈ l, 2 * s.length < kNull }

def emptyString : PlainString := ⟨[], by decide⟩

def emptyStringList : PlainStringList := ⟨[], by decide, fun _ h => nomatch h⟩

def plainString : Codec PlainString where
  put s := putString s.val
  get bs :=
    match getString bs with
    | none => (emptyString, [])
    | some (s, rest) => if h : 2 * s.length < kNull then (⟨s, h⟩, rest) else (emptyString, rest)
  least := 4
  smallest := emptyString
  get_put s rest := by simp [reads_putString s.property rest, s.property]
  least_le s := by
    unfold putString
    split_ifs <;> simp
  length_smallest := rfl

def plainStringList : Codec PlainStringList where
  put l := putStringList l.val
  get bs :=
    match getStringList bs with
    | none => (emptyStringList, [])
    | some (l, rest) =>
        if h : l.length < 2 ^ 32 ∧ ∀ s ∈ l, 2 * s.length < kNull then (⟨l, h⟩, rest)
        else (emptyStringList, rest)
  least := 4
  smallest := emptyStringList
  get_put l rest := by
    have hget := reads_putStringList l.property.1 l.property.2 rest
    simp only [hget, dif_pos l.property]
  least_le l := by simp [putStringList]
  length_smallest := rfl

-- A float goes as the double of the same value, here as its bits.
def plainFloat : Codec UInt64 where
  put x := putBE 8 x.toNat
  get bs := (((getBE 8 0).map UInt64.ofNat) bs).getD (0, [])
  least := 8
  smallest := 0
  get_put x rest := by
    have hget := ((reads_putBE (k := 8) x.toNat_lt).map UInt64.ofNat) rest
    rw [hget, UInt64.ofNat_toNat]
    rfl
  least_le x := (length_putBE 8 _).ge
  length_smallest := rfl

def plainQt : Qt where
  QString := PlainString
  QStringList := PlainStringList
  Float := UInt64
  string := plainString
  strings := plainStringList
  float := plainFloat

theorem roundTrips_plainQt : RoundTrips plainQt := roundTrips plainQt

end Plain

end BATorrent.EngineWire
