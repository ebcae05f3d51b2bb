import BATorrent.Lib.Run
import Mathlib.Data.Finset.Basic
import BATorrent.Lib.Text

namespace BATorrent.MissingData

open Lib

abbrev Text := List Char

-- What QDir makes of a path's separators on the system at hand.
structure Separators where
  fromNative : Text → Text
  toNative : Text → Text

section Content

variable (sep : Separators)

def incompleteSuffix : Text := ['.', '!', 'b', 't']

-- The folder of a torrent with several files, or its only file, and the path that its name gives.
def contentRootCandidates (savePath firstFileRelPath displayName : Text) (multiFile : Bool) : List Text :=
  if savePath = [] then []
  else
    let base := if ['/'] <:+ savePath then savePath.dropLast else savePath
    let rel := sep.fromNative firstFileRelPath
    let rel := if multiFile then rel.take ((rel.idxOf? '/').getD 0) else rel
    let out := if rel = [] then [] else [base ++ '/' :: rel]
    let byName := base ++ '/' :: displayName
    if displayName = [] ∨ byName ∈ out then out else out ++ [byName]

def pathVariants (path : Text) : List Text :=
  if path = [] then []
  else
    let native := sep.toNative path
    path :: (if native = path then [] else [native]) ++ [path ++ incompleteSuffix]

def contentPresent (candidates : List Text) (existing : Text → Bool) : Bool :=
  candidates.isEmpty || candidates.any fun candidate => (pathVariants sep candidate).any existing

end Content

-- A handle with the status that the cache has for it. The paths are those of its metadata.
structure Torrent where
  valid : Bool
  hash : Text
  hasMetadata : Bool
  paused : Bool
  totalWantedDone : Int
  savePath : Text
  name : Text
  filePaths : List Text

structure Probe where
  hash : Text
  candidates : List Text

structure State where
  torrents : List Torrent
  pauseOnMissingData : Bool
  missingProbeRunning : Option (List Probe)
  lastMissingProbe : Int
  missingHashes : Finset Text
  missingSeen : Finset Text
  missingPaused : Finset Text
  started : Bool

def init (pauseOnMissingData : Bool) : State where
  torrents := []
  pauseOnMissingData := pauseOnMissingData
  missingProbeRunning := none
  lastMissingProbe := 0
  missingHashes := ∅
  missingSeen := ∅
  missingPaused := ∅
  started := false

-- A resume file of the startup, by what its torrent is on disk: a wanted file with nothing there, and
-- the pieces it had. None for the torrent where libtorrent does not take it.
structure Loaded where
  hash : Text
  wantedAbsent : Bool
  had : Nat
  recoveredFromCorrupt : Bool
  torrent : Option Torrent

def Loaded.gone (l : Loaded) : Bool := l.wantedAbsent && 0 < l.had && !l.recoveredFromCorrupt

-- A change of a status is what resuming, pausing, moving and metadata come to. What a probe finds is
-- given for each torrent it looks for.
inductive Event where
  | loaded (l : Loaded)
  | added (t : Torrent)
  | removed (index : Nat)
  | changed (index : Nat) (t : Torrent)
  | setPauseOnMissingData (enabled : Bool)
  | tick (now : Int)
  | probed (existing : Text → Text → Bool)

inductive Out where
  | paused (hash : Text)
  | torrentError (paused : Nat) (lastName : Text)
deriving DecidableEq

namespace State

variable (sep : Separators) (missingProbeMs : Int)

def load (s : State) (l : Loaded) : State :=
  let s :=
    if s.pauseOnMissingData && l.gone then
      { s with
        missingHashes := insert l.hash s.missingHashes
        missingSeen := insert l.hash s.missingSeen
        missingPaused := insert l.hash s.missingPaused }
    else s
  { s with torrents := s.torrents ++ l.torrent.toList }

def setPauseOnMissingData (s : State) (enabled : Bool) : State :=
  { s with
    pauseOnMissingData := enabled
    missingPaused := if enabled then s.missingPaused else ∅ }

-- None where nothing was written yet, or where there is no path to look at.
def probeOf (t : Torrent) : Option Probe :=
  if !t.valid || !t.hasMetadata || t.totalWantedDone ≤ 0 then none
  else
    let rel := t.filePaths.headD []
    let multiFile := decide (1 < t.filePaths.length)
    let candidates := contentRootCandidates sep t.savePath rel t.name multiFile
    if candidates = [] then none else some ⟨t.hash, candidates⟩

def probes (s : State) : List Probe := s.torrents.filterMap (probeOf sep)

def Due (s : State) (now : Int) : Prop :=
  s.missingProbeRunning = none ∧ missingProbeMs ≤ now - s.lastMissingProbe

instance (s : State) (now : Int) : Decidable (s.Due missingProbeMs now) :=
  inferInstanceAs (Decidable (s.missingProbeRunning = none ∧ _))

def checkMissingFiles (s : State) (now : Int) : State :=
  if s.Due missingProbeMs now then
    let s := { s with lastMissingProbe := now }
    if (s.probes sep).isEmpty then { s with missingHashes := ∅, missingSeen := ∅ }
    else { s with missingProbeRunning := some (s.probes sep) }
  else s

-- The torrents acted on before are in the first part, those paused now in the second.
def pauseOne (confirmed : Finset Text) (acc : Finset Text × List Torrent) (t : Torrent) :
    Finset Text × List Torrent :=
  if !t.valid || !t.hasMetadata || t.paused then acc
  else if t.hash ∉ confirmed ∨ t.hash ∈ acc.1 then acc
  else (insert t.hash acc.1, acc.2 ++ [t])

def pauseMissing (s : State) (confirmed : Finset Text) : State × List Out :=
  if !s.pauseOnMissingData || confirmed = ∅ then (s, [])
  else
    let (missingPaused, paused) := s.torrents.foldl (pauseOne confirmed) (s.missingPaused, [])
    ({ s with missingPaused := missingPaused },
      (paused.map fun t => .paused t.hash) ++
        paused.getLast?.toList.map fun t => .torrentError paused.length t.name)

def missing (probes : List Probe) (existing : Text → Text → Bool) : Finset Text :=
  ((probes.filter fun p => !contentPresent sep p.candidates (existing p.hash)).map Probe.hash).toFinset

def finishProbe (s : State) (probes : List Probe) (existing : Text → Text → Bool) : State × List Out :=
  let missing := missing sep probes existing
  let confirmed := missing ∩ s.missingSeen
  let s := { s with
    missingSeen := missing
    missingHashes := confirmed
    missingPaused := s.missingPaused ∩ confirmed }
  let (s, outs) := s.pauseMissing confirmed
  ({ s with missingProbeRunning := none }, outs)

-- The resume files are read before anything else can happen.
def next (s : State) : Event → Option (State × List Out)
  | .loaded l => if s.started then none else some (s.load l, [])
  | .added t => some ({ s with torrents := s.torrents ++ [t], started := true }, [])
  | .removed i =>
      if i < s.torrents.length then
        some ({ s with torrents := s.torrents.eraseIdx i, started := true }, [])
      else none
  | .changed i t =>
      if i < s.torrents.length then
        some ({ s with torrents := s.torrents.set i t, started := true }, [])
      else none
  | .setPauseOnMissingData enabled =>
      some ({ s.setPauseOnMissingData enabled with started := true }, [])
  | .tick now => some ({ s.checkMissingFiles sep missingProbeMs now with started := true }, [])
  | .probed existing =>
      s.missingProbeRunning.map fun probes => { s with started := true }.finishProbe sep probes existing

end State

def machine (sep : Separators) (missingProbeMs : Int) (pauseOnMissingData : Bool) :
    Machine State Event Out where
  init := init pauseOnMissingData
  next := State.next sep missingProbeMs

end BATorrent.MissingData
