import BATorrent.Lib.Rows
import Mathlib.Logic.Function.Basic
import BATorrent.Torrent.NetworkSettings

namespace BATorrent.Pausing

open Lib
open NetworkSettings (Text Adapter interfaceFromName)

section State

abbrev Handle := Nat

inductive TorrentState where
  | checkingFiles
  | downloadingMetadata
  | downloading
  | finished
  | seeding
  | checkingResumeData
deriving DecidableEq

structure Status where
  state : TorrentState
  paused : Bool
  hasMetadata : Bool
  hash : Text
  downloadRate : Int
  isFinished : Bool
  seedingDuration : Int
  totalPayloadDownload : Int
  totalPayloadUpload : Int
  totalWantedDone : Int
deriving DecidableEq

def Status.downloads (st : Status) : Bool :=
  st.state = .downloading || st.state = .downloadingMetadata

-- Who paused a torrent.
inductive Cause where
  | user
  | queue
  | killSwitch
  | diskPressure
  | fileError
  | missingData
  | memoryGuard
  | completed
  | stopAfterDownload
deriving DecidableEq

-- `queued` says whether the queue counted the torrent among those it had paused itself.
structure Pause where
  cause : Cause
  queued : Bool
deriving DecidableEq

-- What the session is started with. A handle without a live status is not valid.
structure Config where
  torrents : List Handle
  distinct : torrents.Nodup
  live : Handle → Option Status
  magnetHashes : Handle → Option Text
  net : NetworkSettings.Session
  killSwitchEnabled : Bool
  autoResume : Bool
  forceStartHashes : List Text
  completedTorrents : List Text
  maxActiveDownloads : Int
  seedRatio : Option (Int → Int → Bool)
  maxSeedSeconds : Int
  perTorrentMaxSeed : Text → Option Int
  autoCompleteSeconds : Int
  stopAfterDownload : Bool
  perTorrentStopAfter : Text → Option Int
  pauseOnMissingData : Bool
  missingHashes : List Text
  missingPaused : List Text

-- `pausedBy` is kept for the statements alone: the last pause since a resume.
structure State extends Config where
  pausedBy : Handle → Option Pause
  statusCache : Handle → Option Status
  queuePaused : List Handle
  killSwitchActive : Bool
  killSwitchPaused : List Handle
  lastFastAt : Handle → Option Int
  diskAutoPaused : Bool
  missingProbeRunning : Bool
  missingSeen : List Text
  faults : List (Handle × Int × Nat)
  memWarnedAt : Int

structure Nic extends Adapter where
  up : Bool
  running : Bool

inductive MemGuardAction where
  | none
  | pause
  | panic
deriving DecidableEq

-- What one tick finds: the time, the free space, the adapters, whether a probe is due.
structure World where
  now : Int
  diskFree : Int
  nics : List Nic
  live : Int
  probeDue : Bool
  candidates : Handle → Bool
  rssMB : Int
  capMB : Int

end State

namespace State

section Torrents

def valid (s : State) (h : Handle) : Bool := (s.live h).isSome

def setPaused (s : State) (h : Handle) (paused : Bool) : State :=
  { s with live := Function.update s.live h ((s.live h).map fun st => { st with paused := paused }) }

-- Auto-management is off: only these two calls change the flag.
def pause (s : State) (cause : Cause) (h : Handle) : State :=
  { s.setPaused h true with
    pausedBy := Function.update s.pausedBy h (some ⟨cause, decide (h ∈ s.queuePaused)⟩) }

def resume (s : State) (h : Handle) : State :=
  { s.setPaused h false with pausedBy := Function.update s.pausedBy h none }

-- The cached status, or else the live one, which is then cached.
def cachedStatus (s : State) (h : Handle) : Option Status := (s.statusCache h).or (s.live h)

def warm (s : State) (h : Handle) : State :=
  { s with statusCache := Function.update s.statusCache h (s.cachedStatus h) }

def isPaused (s : State) (h : Handle) : Bool := (s.cachedStatus h).any (·.paused)

-- A torrent without metadata is known by the hash of its magnet link.
def torrentHash (s : State) (h : Handle) : Option Text :=
  if s.valid h then
    (s.cachedStatus h).bind fun st => if st.hasMetadata then some st.hash else s.magnetHashes h
  else none

def isForceStart (s : State) (h : Handle) : Bool := (s.torrentHash h).any (· ∈ s.forceStartHashes)

def pauseIf (s : State) (cause : Cause) (p : Status → Bool) (h : Handle) : State :=
  if s.valid h ∧ (s.cachedStatus h).any p then (s.warm h).pause cause h else s.warm h

end Torrents

section Completed

def markCompleted (s : State) (h : Handle) : State :=
  if ¬ s.valid h then s
  else
    match s.cachedStatus h with
    | none => s
    | some st =>
        if ¬ st.hasMetadata ∨ st.hash ∈ s.completedTorrents then s.warm h
        else
          { s.warm h with completedTorrents := st.hash :: s.completedTorrents }.pause .completed h

def unmarkCompleted (s : State) (h : Handle) : State :=
  match s.cachedStatus h with
  | none => s
  | some st =>
      if st.hasMetadata ∧ st.hash ∈ s.completedTorrents then
        { s.warm h with completedTorrents := s.completedTorrents.filter (· ≠ st.hash) }.resume h
      else s.warm h

def effectiveMaxSeedSeconds (s : State) (hash : Text) : Int :=
  (s.perTorrentMaxSeed hash).getD s.maxSeedSeconds

def effectiveStopAfterDownload (s : State) (hash : Text) : Bool :=
  match s.perTorrentStopAfter hash with
  | some choice => choice = 1
  | none => s.stopAfterDownload

-- A seed whose time has come is marked completed.
def checkSeeds (due : Status → Bool) (s : State) : State :=
  s.torrents.foldl (fun s h =>
    if (s.cachedStatus h).any fun st => st.state = .seeding && !st.paused && due st then
      (s.warm h).markCompleted h
    else s.warm h) s

def checkSeedRatios (s : State) : State :=
  match s.seedRatio with
  | none => s
  | some reached =>
      s.checkSeeds fun st =>
        decide (0 < st.totalPayloadDownload) && reached st.totalPayloadUpload st.totalPayloadDownload

def checkSeedingLimits (s : State) : State :=
  s.checkSeeds fun st =>
    decide (0 < s.effectiveMaxSeedSeconds st.hash ∧
      s.effectiveMaxSeedSeconds st.hash ≤ st.seedingDuration)

def checkAutoComplete (s : State) : State :=
  if s.autoCompleteSeconds ≤ 0 then s
  else s.checkSeeds fun st => decide (s.autoCompleteSeconds ≤ st.seedingDuration)

end Completed

section Guards

variable (w : World)

def checkDiskPressure (s : State) : State :=
  if 0 ≤ w.diskFree ∧ w.diskFree < 512 * 1024 * 1024 ∧ ¬ s.diskAutoPaused then
    { s.torrents.foldl
        (fun s h => s.pauseIf .diskPressure (fun st => st.downloads && !st.paused) h) s with
      diskAutoPaused := true }
  else if 2 * 1024 * 1024 * 1024 ≤ w.diskFree then { s with diskAutoPaused := false }
  else s

def releaseKillSwitch (s : State) : State :=
  { s.killSwitchPaused.foldl resume { s with killSwitchActive := false } with killSwitchPaused := [] }

def setOutgoingInterface (adapters : List Adapter) (name : Text) (live : Int) (s : State) : State :=
  { s.releaseKillSwitch with net := s.net.setOutgoingInterface adapters name live }

def interfaceOk (nics : List Nic) (name : Text) : Bool :=
  (nics.find? (·.name = name)).any fun nic => nic.up && nic.running && !nic.addresses.isEmpty

def fireOne (s : State) (h : Handle) : State :=
  if (s.live h).any fun st => !st.paused then
    { s.pause .killSwitch h with killSwitchPaused := s.killSwitchPaused.insert h }
  else s

def fireKillSwitch (s : State) : State :=
  s.torrents.foldl fireOne { s with killSwitchActive := true, killSwitchPaused := [] }

-- The torrents that wait are those of the set as it stood before the setter cleared it.
def restoreInterface (s : State) : State :=
  let s :=
    { s with killSwitchActive := false }.setOutgoingInterface (w.nics.map Nic.toAdapter)
      s.net.outgoingInterface w.live
  let s := if s.autoResume then s.killSwitchPaused.foldl resume s else s
  { s with killSwitchPaused := [] }

def checkInterfaceStatus (s : State) : State :=
  if s.net.outgoingInterface = [] ∨ ¬ s.killSwitchEnabled ∨ 0 < s.net.vpnProxyPort then s
  else if ¬ interfaceOk w.nics s.net.outgoingInterface ∧ ¬ s.killSwitchActive then s.fireKillSwitch
  else if interfaceOk w.nics s.net.outgoingInterface ∧ s.killSwitchActive then s.restoreInterface w
  else s

def checkMissingFiles (s : State) : State :=
  if s.missingProbeRunning ∨ ¬ w.probeDue then s
  else
    let s := (s.torrents.filter s.valid).foldl warm s
    let probed := s.torrents.any fun h =>
      s.valid h && w.candidates h &&
        (s.cachedStatus h).any fun st => st.hasMetadata && decide (0 < st.totalWantedDone)
    if probed then { s with missingProbeRunning := true }
    else { s with missingHashes := [], missingSeen := [] }

def pauseMissingOne (confirmed : List Text) (s : State) (h : Handle) : State :=
  if ¬ s.valid h then s
  else
    match s.cachedStatus h with
    | none => s
    | some st =>
        if st.hasMetadata ∧ ¬ st.paused ∧ st.hash ∈ confirmed ∧ st.hash ∉ s.missingPaused then
          { (s.warm h).pause .missingData h with missingPaused := st.hash :: s.missingPaused }
        else s.warm h

def pauseMissing (confirmed : List Text) (s : State) : State :=
  if ¬ s.pauseOnMissingData ∨ confirmed = [] then s
  else s.torrents.foldl (pauseMissingOne confirmed) s

-- Two probes in a row must miss the data.
def probed (missing : List Text) (s : State) : State :=
  let confirmed := missing.filter (· ∈ s.missingSeen)
  { { s with
      missingSeen := missing
      missingHashes := confirmed
      missingPaused := s.missingPaused.filter (· ∈ confirmed) }.pauseMissing confirmed with
    missingProbeRunning := false }

def memGuardEvaluate (rssMB capMB : Int) : MemGuardAction :=
  if capMB ≤ 0 ∨ rssMB < 0 then .none
  else if capMB * 2 ≤ rssMB then .panic
  else if capMB ≤ rssMB then .pause
  else .none

def pauseAll (s : State) (cause : Cause) : State :=
  (s.torrents.filter s.valid).foldl (fun s h => s.pause cause h) s

def checkMemoryGuard (s : State) : State :=
  if memGuardEvaluate w.rssMB w.capMB = .pause ∧ 300 ≤ w.now - s.memWarnedAt then
    { s with memWarnedAt := w.now }.pauseAll .memoryGuard
  else s

end Guards

section Queue

def kSlowTorrentThresholdBps : Int := 10 * 1024

def kSlowTorrentTimeoutSec : Int := 60

def exempt (s : State) (st : Status) : Bool := st.hasMetadata && decide (st.hash ∈ s.forceStartHashes)

def isStalled (s : State) (now : Int) (h : Handle) : Bool :=
  (s.lastFastAt h).any fun last => kSlowTorrentTimeoutSec < now - last

-- A download that moves, or that is new here, is stamped.
def stamp (s : State) (now : Int) (h : Handle) (st : Status) : State :=
  if s.lastFastAt h = none ∨ kSlowTorrentThresholdBps ≤ st.downloadRate then
    { s with lastFastAt := Function.update s.lastFastAt h (some now) }
  else s

-- The pass over the torrents, with the calls it makes.
structure Pass where
  s : State
  active : List Handle
  queued : List Handle
  paused : List Handle
  resumed : List Handle

def scanOne (now : Int) (p : Pass) (h : Handle) : Pass :=
  if ¬ p.s.valid h then p
  else
    match p.s.cachedStatus h with
    | none => p
    | some st =>
        let s := p.s.warm h
        if s.exempt st then
          if st.paused then { p with s := s.resume h, resumed := p.resumed ++ [h] }
          else { p with s := s }
        else if st.downloads ∧ ¬ st.paused then
          let s := s.stamp now h st
          if s.isStalled now h then { p with s := s }
          else { p with s := s, active := p.active ++ [h] }
        else if st.downloads ∧ st.paused ∧ h ∈ s.queuePaused then
          { p with s := s, queued := p.queued ++ [h] }
        else { p with s := s }

def scan (now : Int) (s : State) : Pass := s.torrents.foldl (scanOne now) ⟨s, [], [], [], []⟩

def demote (p : Pass) (h : Handle) : Pass :=
  { p with
    s := { p.s.pause .queue h with queuePaused := p.s.queuePaused.insert h }
    paused := p.paused ++ [h] }

def promote (p : Pass) (h : Handle) : Pass :=
  { p with
    s := { p.s.resume h with queuePaused := p.s.queuePaused.filter (· ≠ h) }
    resumed := p.resumed ++ [h] }

def balance (limit : Nat) (p : Pass) : Pass :=
  if limit < p.active.length then (p.active.drop limit).reverse.foldl demote p
  else (p.queued.take (limit - p.active.length)).foldl promote p

def queuePass (now : Int) (s : State) : Pass :=
  if s.maxActiveDownloads ≤ 0 then ⟨s, [], [], [], []⟩
  else balance s.maxActiveDownloads.toNat (scan now s)

def enforceDownloadQueue (now : Int) (s : State) : State := (queuePass now s).s

end Queue

section Tick

variable (w : World)

def beforeInterface (s : State) : State :=
  s.checkSeedRatios.checkSeedingLimits.checkAutoComplete.checkDiskPressure w

def beforeQueue (s : State) : State :=
  (((s.beforeInterface w).checkInterfaceStatus w).checkMissingFiles w).checkMemoryGuard w

def updateStats (s : State) : State := (s.beforeQueue w).enforceDownloadQueue w.now

end Tick

section Alerts

def onStateUpdate (sts : List (Handle × Status)) (s : State) : State :=
  { s with
    statusCache := sts.foldl (fun cache p => Function.update cache p.1 (some p.2)) s.statusCache }

def onTorrentChecked (h : Handle) (s : State) : State :=
  if s.valid h then { s with statusCache := Function.update s.statusCache h (s.live h) } else s

def onTorrentFinished (h : Handle) (s : State) : State :=
  match s.live h with
  | none => s
  | some st =>
      let s := if 0 < st.totalPayloadDownload ∧ s.effectiveStopAfterDownload st.hash then
        s.pause .stopAfterDownload h else s
      { s with queuePaused := s.queuePaused.filter (· ≠ h) }

-- Eight errors, each within two minutes of the last, isolate a torrent.
def noteTorrentFault (h : Handle) (now : Int) (s : State) : State :=
  match s.live h with
  | none => s
  | some st =>
      let (last, n) := ((s.faults.find? (·.1 = h)).map Prod.snd).getD (0, 0)
      let n := (if 120 < now - last then 0 else n) + 1
      let others := s.faults.filter (·.1 ≠ h)
      if n < 8 then { s with faults := (h, now, n) :: others }
      else
        let s := if st.paused then s else s.pause .fileError h
        { s with faults := if 500 ≤ others.length then [] else (h, now, 0) :: others }

def onFileError (h : Handle) (diskFull : Bool) (now : Int) (s : State) : State :=
  if diskFull then
    s.torrents.foldl
      (fun s h => s.pauseIf .fileError (fun st => st.state = .downloading && !st.paused) h) s
  else
    let finished := (s.live h).any fun st =>
      (st.isFinished || st.state = .finished || st.state = .seeding) && !st.paused
    (if finished then s.pause .fileError h else s).noteTorrentFault h now

end Alerts

section User

-- A call on a row of the list whose torrent is still there.
def onRow (i : Nat) (f : State → Handle → State) (s : State) : State :=
  match s.torrents[i]? with
  | none => s
  | some h => if s.valid h then f s h else s

def pauseTorrent (i : Nat) (s : State) : State := s.onRow i fun s h => s.pause .user h

def stopSeedingTorrent (i : Nat) (s : State) : State := s.onRow i fun s h => s.pause .user h

def resumeTorrent (i : Nat) (s : State) : State :=
  s.onRow i fun s h => (s.unmarkCompleted h).resume h

def resumeAll (s : State) : State := (s.torrents.filter s.valid).foldl resume s

def setForceStart (i : Nat) (on : Bool) (s : State) : State :=
  match s.torrents[i]? with
  | none => s
  | some h =>
      match s.torrentHash h with
      | none => s.warm h
      | some hash =>
          if on then
            let s := { s.warm h with forceStartHashes := s.forceStartHashes.insert hash }.resume h
            { s with queuePaused := s.queuePaused.filter (· ≠ h) }
          else { s.warm h with forceStartHashes := s.forceStartHashes.filter (· ≠ hash) }

def setMaxActiveDownloads (max : Int) (s : State) : State := { s with maxActiveDownloads := max }

def setKillSwitchEnabled (enabled : Bool) (s : State) : State :=
  let s := { s with killSwitchEnabled := enabled }
  if enabled then s else s.releaseKillSwitch

def setVpnProxy (adapters : List Adapter) (port : Int) (user pass : Text) (live : Int) (s : State) :
    State :=
  let net := s.net.setVpnProxy adapters port user pass live
  if 0 < s.net.vpnProxyPort ∧ net.vpnProxyPort = 0 then { s.releaseKillSwitch with net := net }
  else { s with net := net }

def setTorrentStopAfterDownload (i : Nat) (value : Int) (s : State) : State :=
  match s.torrents[i]? with
  | none => s
  | some h =>
      match s.torrentHash h with
      | none => s.warm h
      | some hash =>
          { s.warm h with
            perTorrentStopAfter := Function.update s.perTorrentStopAfter hash
              (if value < 0 then none else some (if value = 0 then 0 else 1)) }

def setTorrentMaxSeedSeconds (i : Nat) (seconds : Int) (s : State) : State :=
  match s.torrents[i]? with
  | none => s
  | some h =>
      match s.torrentHash h with
      | none => s.warm h
      | some hash =>
          { s.warm h with
            perTorrentMaxSeed := Function.update s.perTorrentMaxSeed hash
              (if seconds < 0 then none else some seconds) }

def setAutoCompleteSeconds (seconds : Int) (s : State) : State :=
  { s with autoCompleteSeconds := if seconds < 0 then 0 else seconds }

def setTorrentQueuePosition (i position : Nat) (s : State) : State :=
  if hrows : i < s.torrents.length ∧ position < s.torrents.length ∧ i ≠ position then
    { s with
      torrents := moveRow s.torrents i position hrows.1
      distinct := nodup_moveRow hrows.1 hrows.2.1 s.distinct }
  else s

def setPauseOnMissingData (enabled : Bool) (s : State) : State :=
  { s with
    pauseOnMissingData := enabled
    missingPaused := if enabled then s.missingPaused else [] }

def forceRecheck (i : Nat) (s : State) : State :=
  s.onRow i fun s h => { s with statusCache := Function.update s.statusCache h none }

def forget (h : Handle) (hash : Text) (s : State) : State :=
  { s with
    live := Function.update s.live h none
    statusCache := Function.update s.statusCache h none
    lastFastAt := Function.update s.lastFastAt h none
    magnetHashes := Function.update s.magnetHashes h none
    pausedBy := Function.update s.pausedBy h none
    queuePaused := s.queuePaused.filter (· ≠ h)
    killSwitchPaused := s.killSwitchPaused.filter (· ≠ h)
    completedTorrents := s.completedTorrents.filter (· ≠ hash)
    forceStartHashes := s.forceStartHashes.filter (· ≠ hash) }

def removeTorrent (i : Nat) (s : State) : State :=
  match s.torrents[i]? with
  | none => s
  | some h =>
      let s' := match s.live h with
        | none => s
        | some st => s.forget h (if st.hasMetadata then st.hash else (s.magnetHashes h).getD st.hash)
      { s' with torrents := s.torrents.eraseIdx i, distinct := s.distinct.eraseIdx i }

-- A torrent the session did not have, as libtorrent takes it.
def addTorrent (h : Handle) (st : Status) (magnetHash : Option Text) (s : State)
    (hnew : h ∉ s.torrents) : State :=
  { s with
    torrents := s.torrents ++ [h]
    distinct := List.Nodup.append s.distinct (List.nodup_singleton h) (by simpa using hnew)
    live := Function.update s.live h (some st)
    magnetHashes := Function.update s.magnetHashes h magnetHash
    pausedBy := Function.update s.pausedBy h none }

-- libtorrent moves a torrent on. It pauses one after a disk error, and resumes none.
def progress (h : Handle) (st : Status) (s : State) : State :=
  { s with
    live := Function.update s.live h
      ((s.live h).map fun old => { st with paused := old.paused || st.paused }) }

end User

end State

section Machine

inductive Event where
  | tick (w : World)
  | pauseTorrent (i : Nat)
  | resumeTorrent (i : Nat)
  | stopSeedingTorrent (i : Nat)
  | markCompleted (i : Nat)
  | unmarkCompleted (i : Nat)
  | pauseAll
  | resumeAll
  | setForceStart (i : Nat) (on : Bool)
  | setMaxActiveDownloads (max : Int)
  | setTorrentQueuePosition (i position : Nat)
  | setSeedRatioLimit (reached : Option (Int → Int → Bool))
  | setMaxSeedSeconds (seconds : Int)
  | setTorrentMaxSeedSeconds (i : Nat) (seconds : Int)
  | setAutoCompleteSeconds (seconds : Int)
  | setStopAfterDownload (enabled : Bool)
  | setTorrentStopAfterDownload (i : Nat) (value : Int)
  | setOutgoingInterface (adapters : List Adapter) (name : Text) (live : Int)
  | setKillSwitchEnabled (enabled : Bool)
  | setAutoResumeOnReconnect (enabled : Bool)
  | setVpnProxy (adapters : List Adapter) (port : Int) (user pass : Text) (live : Int)
  | setPauseOnMissingData (enabled : Bool)
  | addTorrent (h : Handle) (st : Status) (magnetHash : Option Text)
  | removeTorrent (i : Nat)
  | forceRecheck (i : Nat)
  | progress (h : Handle) (st : Status)
  | stateUpdate (sts : List (Handle × Status))
  | torrentChecked (h : Handle)
  | torrentFinished (h : Handle)
  | torrentError (h : Handle) (now : Int)
  | fileError (h : Handle) (diskFull : Bool) (now : Int)
  | probed (missing : List Text)

abbrev Out := Empty

def step (s : State) : Event → Option State
  | .tick w => some (s.updateStats w)
  | .pauseTorrent i => some (s.pauseTorrent i)
  | .resumeTorrent i => some (s.resumeTorrent i)
  | .stopSeedingTorrent i => some (s.stopSeedingTorrent i)
  | .markCompleted i => some (s.onRow i State.markCompleted)
  | .unmarkCompleted i => some (s.onRow i State.unmarkCompleted)
  | .pauseAll => some (s.pauseAll .user)
  | .resumeAll => some s.resumeAll
  | .setForceStart i on => some (s.setForceStart i on)
  | .setMaxActiveDownloads max => some (s.setMaxActiveDownloads max)
  | .setTorrentQueuePosition i position => some (s.setTorrentQueuePosition i position)
  | .setSeedRatioLimit reached => some { s with seedRatio := reached }
  | .setMaxSeedSeconds seconds => some { s with maxSeedSeconds := seconds }
  | .setTorrentMaxSeedSeconds i seconds => some (s.setTorrentMaxSeedSeconds i seconds)
  | .setAutoCompleteSeconds seconds => some (s.setAutoCompleteSeconds seconds)
  | .setStopAfterDownload enabled => some { s with stopAfterDownload := enabled }
  | .setTorrentStopAfterDownload i value => some (s.setTorrentStopAfterDownload i value)
  | .setOutgoingInterface adapters name live => some (s.setOutgoingInterface adapters name live)
  | .setKillSwitchEnabled enabled => some (s.setKillSwitchEnabled enabled)
  | .setAutoResumeOnReconnect enabled => some { s with autoResume := enabled }
  | .setVpnProxy adapters port user pass live =>
      some (s.setVpnProxy adapters port user pass live)
  | .setPauseOnMissingData enabled => some (s.setPauseOnMissingData enabled)
  | .addTorrent h st magnetHash =>
      if hnew : h ∉ s.torrents then
        if s.live h = none then some (s.addTorrent h st magnetHash hnew) else none
      else none
  | .removeTorrent i => some (s.removeTorrent i)
  | .forceRecheck i => some (s.forceRecheck i)
  | .progress h st => some (s.progress h st)
  | .stateUpdate sts => some (s.onStateUpdate sts)
  | .torrentChecked h => some (s.onTorrentChecked h)
  | .torrentFinished h => some (s.onTorrentFinished h)
  | .torrentError h now => some (s.noteTorrentFault h now)
  | .fileError h diskFull now => some (s.onFileError h diskFull now)
  | .probed missing => if s.missingProbeRunning then some (s.probed missing) else none

def start (c : Config) : State where
  toConfig := c
  pausedBy := fun _ => none
  statusCache := fun _ => none
  queuePaused := []
  killSwitchActive := false
  killSwitchPaused := []
  lastFastAt := fun _ => none
  diskAutoPaused := false
  missingProbeRunning := false
  missingSeen := c.missingHashes
  faults := []
  memWarnedAt := 0

def machine (c : Config) : Machine State Event Out where
  init := start c
  next s e := (step s e).map fun s => (s, [])

end Machine

section Cases

open NetworkSettings (plain unset)

def fetching : Status where
  state := .downloading
  paused := false
  hasMetadata := true
  hash := ['a']
  downloadRate := 0
  isFinished := false
  seedingDuration := 0
  totalPayloadDownload := 0
  totalPayloadUpload := 0
  totalWantedDone := 0

-- Two downloads and one slot, the session bound to an adapter.
def twoDownloads : Config where
  torrents := [0, 1]
  distinct := by decide
  live := fun h => if h = 0 then some fetching else if h = 1 then some { fetching with hash := ['b'] }
    else none
  magnetHashes := fun _ => none
  net := { NetworkSettings.start plain unset with outgoingInterface := ['t', 'u', 'n'] }
  killSwitchEnabled := true
  autoResume := false
  forceStartHashes := []
  completedTorrents := []
  maxActiveDownloads := 1
  seedRatio := none
  maxSeedSeconds := 0
  perTorrentMaxSeed := fun _ => none
  autoCompleteSeconds := 0
  stopAfterDownload := false
  perTorrentStopAfter := fun _ => none
  pauseOnMissingData := true
  missingHashes := []
  missingPaused := []

def tun : Nic where
  name := ['t', 'u', 'n']
  humanReadableName := []
  addresses := [⟨['1', '0', '.', '0', '.', '0', '.', '2'], by simp, by decide⟩]
  up := true
  running := true

-- A tick with room on the disk and in memory.
def calm (now : Int) (nics : List Nic) : World where
  now := now
  diskFree := 1024 * 1024 * 1024
  nics := nics
  live := 0
  probeDue := false
  candidates := fun _ => false
  rssMB := 100
  capMB := 8192

end Cases

end BATorrent.Pausing
