import BATorrent.Torrent.Pausing.KillSwitch

namespace BATorrent.Pausing.Completion

open Lib
open NetworkSettings (Text Adapter)

section Session

def dontDownload : Nat := 0

def defaultPriority : Nat := 4

def topPriority : Nat := 7

-- The session with the priority of each file of a torrent, as libtorrent holds them.
structure Session extends State where
  priorities : Handle → List Nat

-- A priority reaches libtorrent as a byte, and is capped there.
def filePriority (priority : Int) : Nat := min (priority % 256).toNat topPriority

end Session

namespace Session

section Completed

-- Before its metadata a torrent has no files.
def prioritizeFiles (priority : Nat) (h : Handle) (s : Session) : Session :=
  if (s.live h).any (·.hasMetadata) then
    { s with
      priorities := Function.update s.priorities h ((s.priorities h).map fun _ => priority) }
  else s

def markCompleted (s : Session) (h : Handle) : Session :=
  if s.valid h ∧ (s.cachedStatus h).any fun st =>
      st.hasMetadata && decide (st.hash ∉ s.completedTorrents) then
    { s.prioritizeFiles dontDownload h with toState := s.toState.markCompleted h }
  else { s with toState := s.toState.markCompleted h }

def unmarkCompleted (s : Session) (h : Handle) : Session :=
  if (s.cachedStatus h).any fun st =>
      st.hasMetadata && decide (st.hash ∈ s.completedTorrents) then
    { s.prioritizeFiles defaultPriority h with toState := s.toState.unmarkCompleted h }
  else { s with toState := s.toState.unmarkCompleted h }

def checkSeeds (due : Status → Bool) (s : Session) : Session :=
  s.torrents.foldl (fun s h =>
    if (s.cachedStatus h).any fun st => st.state = .seeding && !st.paused && due st then
      { s with toState := s.warm h }.markCompleted h
    else { s with toState := s.warm h }) s

def checkSeedRatios (s : Session) : Session :=
  match s.seedRatio with
  | none => s
  | some reached =>
      s.checkSeeds fun st =>
        decide (0 < st.totalPayloadDownload) && reached st.totalPayloadUpload st.totalPayloadDownload

def checkSeedingLimits (s : Session) : Session :=
  s.checkSeeds fun st =>
    decide (0 < s.effectiveMaxSeedSeconds st.hash ∧
      s.effectiveMaxSeedSeconds st.hash ≤ st.seedingDuration)

def checkAutoComplete (s : Session) : Session :=
  if s.autoCompleteSeconds ≤ 0 then s
  else s.checkSeeds fun st => decide (s.autoCompleteSeconds ≤ st.seedingDuration)

end Completed

section User

def onRow (i : Nat) (f : Session → Handle → Session) (s : Session) : Session :=
  match s.torrents[i]? with
  | none => s
  | some h => if s.valid h then f s h else s

def setFilePriority (i file : Nat) (priority : Int) (s : Session) : Session :=
  s.onRow i fun s h =>
    if (s.live h).any (·.hasMetadata) then
      { s with
        priorities := Function.update s.priorities h
          ((s.priorities h).set file (filePriority priority)) }
    else s

-- Of the calls that leave the files alone the last case is all there is to say.
def prioritiesAfter (s : Session) : Event → Handle → List Nat
  | .tick _ => s.checkSeedRatios.checkSeedingLimits.checkAutoComplete.priorities
  | .markCompleted i => (s.onRow i markCompleted).priorities
  | .unmarkCompleted i => (s.onRow i unmarkCompleted).priorities
  | .resumeTorrent i => (s.onRow i unmarkCompleted).priorities
  | _ => s.priorities

end User

section Admits

-- A status handed over is one that the torrent had.
def had (s : Session) (h : Handle) (st : Status) : Bool :=
  (s.live h).all fun live => !st.hasMetadata || (live.hasMetadata && live.hash = st.hash)

-- No two torrents of the session share a hash.
def alone (s : Session) (h : Handle) (st : Status) : Bool :=
  s.torrents.all fun g => g = h || (s.live g).all (·.hash ≠ st.hash)

-- libtorrent's side. Torrents and metadata come with their files, by calls of their own.
def admits (s : Session) : Event → Bool
  | .stateUpdate sts => sts.all fun p => s.had p.1 p.2
  | .progress h st => (s.live h).all fun old =>
      old.hash = st.hash && old.hasMetadata = st.hasMetadata
  | .addTorrent _ _ _ => false
  | _ => true

end Admits

end Session

section Machine

inductive Call where
  | session (e : Event)
  | setFilePriority (i file : Nat) (priority : Int)
  | addTorrent (h : Handle) (st : Status) (magnetHash : Option Text) (priorities : List Nat)
  | metadata (h : Handle) (st : Status) (priorities : List Nat)

def step (s : Session) : Call → Option Session
  | .session e =>
      if s.admits e then
        (Pausing.step s.toState e).map fun t => { toState := t, priorities := s.prioritiesAfter e }
      else none
  | .setFilePriority i file priority => some (s.setFilePriority i file priority)
  | .addTorrent h st magnetHash priorities =>
      if s.statusCache h = none ∧ s.alone h st then
        (Pausing.step s.toState (.addTorrent h st magnetHash)).map fun t =>
          { toState := t, priorities := Function.update s.priorities h priorities }
      else none
  | .metadata h st priorities =>
      if (s.live h).any (!·.hasMetadata) ∧ st.hasMetadata ∧ s.alone h st then
        some { toState := s.progress h st, priorities := Function.update s.priorities h priorities }
      else none

-- The torrents the session is started with, no two of one hash.
structure Setup extends Config where
  priorities : Handle → List Nat
  alone : ∀ h ∈ torrents, ∀ g ∈ torrents, ∀ st st', live h = some st → live g = some st' →
    st.hash = st'.hash → h = g

def begin (c : Setup) : Session := { toState := start c.toConfig, priorities := c.priorities }

def machine (c : Setup) : Machine Session Call Out where
  init := begin c
  next s call := (step s call).map fun s => (s, [])

end Machine

section Frozen

-- A torrent whose hash is in the set.
def completed (s : State) (h : Handle) : Bool := (s.live h).any (·.hash ∈ s.completedTorrents)

def Frozen (s : Session) : Prop :=
  ∀ h ∈ s.torrents, completed s.toState h = true →
    s.pausedNow h = true ∧ ∀ priority ∈ s.priorities h, priority = dontDownload

-- A mark taken back at once.
def Session.markedAndBack (s : Session) (i : Nat) : Session :=
  (s.onRow i Session.markCompleted).onRow i Session.unmarkCompleted

instance (s : Session) : Decidable (Frozen s) := inferInstanceAs (Decidable (∀ h ∈ s.torrents, _))

-- What a call resumes without a look at the set.
def Thaws (s : State) : Event → Handle → Prop
  | .resumeTorrent i, h => s.torrents[i]? = some h ∧ (s.cachedStatus h).any (·.hasMetadata) = false
  | .resumeAll, _ => True
  | .setForceStart i on, h =>
      on = true ∧ s.torrents[i]? = some h ∧ (s.torrentHash h).isSome = true
  | .setOutgoingInterface _ _ _, h => h ∈ s.killSwitchPaused
  | .setKillSwitchEnabled enabled, h => enabled = false ∧ h ∈ s.killSwitchPaused
  | .setVpnProxy adapters port user pass live, h =>
      (0 < s.net.vpnProxyPort ∧ (s.net.setVpnProxy adapters port user pass live).vpnProxyPort = 0) ∧
        h ∈ s.killSwitchPaused
  | _, _ => False

-- The same of a tick, by the return of the interface and by the queue.
def ThawsAtReturn (s : State) (w : World) (h : Handle) : Prop :=
  (s.beforeInterface w).Restores w ∧ h ∈ (s.beforeInterface w).killSwitchPaused

def ThawsInQueue (s : State) (w : World) (h : Handle) : Prop :=
  0 < (s.beforeQueue w).maxActiveDownloads ∧
    ((s.beforeQueue w).verdict w.now h = .resume ∨ h ∈ (s.beforeQueue w).promotes w.now)

instance (s : State) (w : World) (h : Handle) : Decidable (ThawsAtReturn s w h) :=
  inferInstanceAs (Decidable (_ ∧ _))

instance (s : State) (w : World) (h : Handle) : Decidable (ThawsInQueue s w h) :=
  inferInstanceAs (Decidable (_ ∧ (_ ∨ _)))

-- No call resumes a completed torrent or gives its files a priority.
def Spares (s : Session) : Call → Prop
  | .session (.tick w) =>
      (∀ h ∈ s.torrents, ThawsAtReturn s.toState w h →
        completed (s.beforeInterface w) h = false) ∧
      ∀ h ∈ s.torrents, ThawsInQueue s.toState w h → completed (s.beforeQueue w) h = false
  | .session e => ∀ h ∈ s.torrents, Thaws s.toState e h → completed s.toState h = false
  | .setFilePriority i _ priority => filePriority priority = dontDownload ∨
      ∀ h, s.torrents[i]? = some h → completed s.toState h = false
  | .addTorrent _ st _ priorities => st.hash ∈ s.completedTorrents →
      st.paused = true ∧ ∀ priority ∈ priorities, priority = dontDownload
  | .metadata h st priorities => st.hash ∈ s.completedTorrents →
      (s.pausedNow h = true ∨ st.paused = true) ∧ ∀ priority ∈ priorities, priority = dontDownload

end Frozen

section Cases

-- A seed, whose second file the user had left out.
def seeded : Setup where
  toConfig :=
    { twoDownloads with
      torrents := [0]
      distinct := by decide
      live := fun h => if h = 0 then some { fetching with state := .seeding } else none }
  priorities := fun h => if h = 0 then [4, 0] else []
  alone := by
    intro h hh g hg _ _ _ _ _
    exact (List.mem_singleton.mp hh).trans (List.mem_singleton.mp hg).symm

-- The same, with both files wanted.
def whole : Setup := { seeded with priorities := fun h => if h = 0 then [4, 4] else [] }

end Cases

end BATorrent.Pausing.Completion
