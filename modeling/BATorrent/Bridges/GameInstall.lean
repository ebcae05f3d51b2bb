import BATorrent.Lib.Run
import Mathlib.Logic.Function.Basic

namespace BATorrent.GameInstall

open Lib

abbrev Text := List Char

abbrev InfoHash := Text

inductive GameInstallState where
  | downloading
  | readyToInstall
  | extracting
  | installing
  | ready
  | playing
  | needsSetup
  | failed
deriving DecidableEq

section Pure

structure DeriveIn where
  overlay : Option GameInstallState
  running : Bool
  hasExePath : Bool
  exeExists : Bool
  completed : Bool

def derive (i : DeriveIn) : GameInstallState :=
  if i.running then .playing
  else
    match i.overlay with
    | some overlay => overlay
    | none =>
        if i.hasExePath && i.exeExists then .ready
        else if !i.completed then .downloading
        else .readyToInstall

inductive PendingAction where
  | wait
  | emitInstallProgress
  | emitDownloadProgress
  | kickInstall
  | launchAndFinish
  | finishOnly
  | failNeedSetup
  | failGeneric
  | failTimeout
deriving DecidableEq

structure PendingIn where
  state : GameInstallState
  downloadDone : Bool
  installAlreadyKicked : Bool
  torrentMissing : Bool
  ageSec : Int

def missingTimeoutSec : Int := 180

def overallTimeoutSec : Int := 1800

def nextPendingAction (p : PendingIn) : PendingAction :=
  if p.torrentMissing then if missingTimeoutSec < p.ageSec then .failTimeout else .wait
  else if p.state = .ready then .launchAndFinish
  else if p.state = .playing then .finishOnly
  else if p.state = .needsSetup then .failNeedSetup
  else if p.state = .failed then .failGeneric
  else if p.downloadDone ∧ overallTimeoutSec < p.ageSec then .failTimeout
  else if p.downloadDone ∧ !p.installAlreadyKicked ∧ p.state ≠ .extracting ∧ p.state ≠ .installing then .kickInstall
  else if p.state = .extracting ∨ p.state = .installing then .emitInstallProgress
  else .emitDownloadProgress

end Pure

-- What the engine says of a torrent.
structure Torrent where
  dataComplete : Bool
  hasArchives : Bool
  hasVideo : Bool
  isGame : Bool
deriving DecidableEq

-- What is kept for one game. `checking` and `finalizing` are the threads that look at its folder,
-- `extracting` the extractions that the pipeline started and `installers` the installers it started that
-- are not seen to be gone.
structure Game where
  torrent : Option Torrent
  state : Option GameInstallState
  extracted : Bool
  extractProgress : Option Int
  installWatch : Option Int
  installTarget : Option Text
  gameExe : Text
  pendingInstall : Option (Text × Int)
  installStarted : Bool
  checking : Nat
  finalizing : Nat
  extracting : Nat
  installers : Nat
deriving DecidableEq

inductive Out where
  | toast (msg : String)
  | installFolderNeeded
  | gameReady
  | movieReady
  | installProgress
  | launchGame
  | installFinished (title : Text)
  | installFailed (title : Text) (reason : String)
deriving DecidableEq

-- What a thread finds in the folder of a game; the path is empty where there is nothing.
structure Found where
  exe : Text
  isInstaller : Bool

-- What there is when an installer is to be run: an exe of the game that is installed already, whether the
-- installer runs unattended and where to, and the process, which is zero where it does not start.
structure Setup where
  installed : Text
  silent : Bool
  targetDir : Text
  pid : Int

namespace Game

variable (g : Game)

def inFlight : Bool := g.state = some .extracting || g.state = some .installing

def finalizeInstall : Game × List Out := ({ g with finalizing := g.finalizing + 1 }, [])

def installGame : Game × List Out :=
  match g.torrent with
  | none => (g, [])
  | some info =>
      if !info.dataComplete then (g, [])
      else if g.inFlight then (g, [])
      else if info.hasArchives then
        ({ g with state := some .extracting, checking := g.checking + 1 }, [])
      else g.finalizeInstall

-- The first thread is back. `starts` is whether the engine finds an archive to unpack.
def checked (found : Found) (starts : Bool) : Game × List Out :=
  if found.exe ≠ [] ∧ (!found.isInstaller ∨ g.extracted) then { g with extracted := true }.finalizeInstall
  else if g.torrent = none then ({ g with state := none }, [])
  else
    ({ g with
      extractProgress := some 0
      extracting := if starts then g.extracting + 1 else g.extracting }, [])

def onExtractionProgress (percent : Int) : Game × List Out :=
  if g.extractProgress = some percent then (g, []) else ({ g with extractProgress := some percent }, [])

def onExtractionCompleted (success : Bool) : Game × List Out :=
  let g := { g with extractProgress := none, extracted := g.extracted || success }
  if g.state ≠ some .extracting then (g, [])
  else if !success then ({ g with state := some .failed }, [.toast "hub_install_failed"])
  else g.finalizeInstall

def runInstaller (setup : Setup) : Game × List Out :=
  let g := { g with state := some .installing }
  if setup.silent then
    if setup.targetDir = [] then ({ g with state := none }, [.installFolderNeeded])
    else if setup.pid ≤ 0 then ({ g with state := some .failed }, [.toast "hub_install_need_exe"])
    else
      ({ g with
        installWatch := some setup.pid
        installTarget := some setup.targetDir
        installers := g.installers + 1 }, [.toast "hub_game_installing"])
  else if 0 < setup.pid then
    ({ g with installWatch := some setup.pid, installers := g.installers + 1 }, [.toast "hub_game_installing"])
  else ({ g with state := some .needsSetup }, [])

-- The second thread is back.
def finalized (found : Found) (setup : Setup) : Game × List Out :=
  if found.exe = [] then ({ g with state := some .needsSetup }, [.toast "hub_install_need_exe"])
  else if !found.isInstaller then ({ g with gameExe := found.exe, state := none }, [.toast "hub_install_ready"])
  else if setup.installed ≠ [] then ({ g with gameExe := setup.installed, state := none }, [.toast "hub_install_ready"])
  else g.runInstaller setup

-- Nothing of the installer is running any more; the exe is the one found by then.
def installerGone (found : Found) : Game × List Out :=
  let g := { g with installWatch := none, installTarget := none, installers := g.installers - 1 }
  if found.exe ≠ [] ∧ !found.isInstaller then
    ({ g with gameExe := found.exe, state := none }, [.toast "hub_install_ready"])
  else ({ g with state := some .needsSetup }, [.toast "hub_install_need_exe"])

def pollInstallWatch (alive : Bool) (found : Found) : Game × List Out :=
  if g.installWatch = none ∨ alive then (g, []) else g.installerGone found

def onGameTorrentFinished (autoInstall : Bool) : Game × List Out :=
  match g.torrent with
  | none => (g, [])
  | some info =>
      if info.isGame then
        if g.pendingInstall.isSome then (g, [])
        else if autoInstall then g.installGame
        else (g, [.gameReady])
      else if info.hasVideo then (g, [.movieReady])
      else (g, [])

def installWhenReady (title : Text) (now : Int) : Game × List Out :=
  ({ g with pendingInstall := some (title, now), installStarted := false }, [.installProgress])

def cancelInstall : Game × List Out := ({ g with pendingInstall := none, installStarted := false }, [])

def gameInstallState (running exeExists completed : Bool) : GameInstallState :=
  derive ⟨g.state, running, g.gameExe ≠ [], exeExists, completed⟩

-- Whether the game runs and whether its exe is there, and no wrong one, is what the system says.
def pendingAction (startedAt now : Int) (running exeExists : Bool) : PendingAction :=
  let downloadDone := g.torrent.any Torrent.dataComplete
  let state := if g.torrent.isSome then g.gameInstallState running exeExists downloadDone else .downloading
  nextPendingAction ⟨state, downloadDone, g.installStarted, g.torrent.isNone, now - startedAt⟩

def pollPendingInstall (now : Int) (running exeExists : Bool) : Game × List Out :=
  match g.pendingInstall with
  | none => (g, [])
  | some (title, startedAt) =>
      let done := { g with pendingInstall := none, installStarted := false }
      match g.pendingAction startedAt now running exeExists with
      | .wait => (g, [])
      | .emitInstallProgress => (g, [.installProgress])
      | .emitDownloadProgress => (g, [.installProgress])
      | .kickInstall =>
          let (g, outs) := { g with installStarted := true }.installGame
          (g, .installProgress :: outs)
      | .launchAndFinish => (done, [.launchGame, .installFinished title])
      | .finishOnly => (done, [.installFinished title])
      | .failNeedSetup => (done, [.installFailed title "gi_need_setup"])
      | .failGeneric => (done, [.installFailed title "gi_failed"])
      | .failTimeout => (done, [.installFailed title "gi_failed"])

end Game

-- `torrentChanged` has the torrent come, change and go. An extraction may be one that the pipeline did not
-- start, the automatic one at the end of a download or one by hand.
inductive Event where
  | torrentChanged (t : Option Torrent)
  | installGame
  | torrentFinished (autoInstall : Bool)
  | installWhenReady (title : Text) (now : Int)
  | cancelInstall
  | pollPendingInstall (now : Int) (running exeExists : Bool)
  | checked (found : Found) (starts : Bool)
  | extractionProgress (percent : Int)
  | extractionCompleted (success : Bool)
  | otherExtractionCompleted (success : Bool)
  | finalized (found : Found) (setup : Setup)
  | pollInstallWatch (alive : Bool) (found : Found)

def Game.next (g : Game) : Event → Option (Game × List Out)
  | .torrentChanged t => some ({ g with torrent := t }, [])
  | .installGame => some g.installGame
  | .torrentFinished autoInstall => some (g.onGameTorrentFinished autoInstall)
  | .installWhenReady title now => some (g.installWhenReady title now)
  | .cancelInstall => some g.cancelInstall
  | .pollPendingInstall now running exeExists => some (g.pollPendingInstall now running exeExists)
  | .checked found starts =>
      if 0 < g.checking then some ({ g with checking := g.checking - 1 }.checked found starts) else none
  | .extractionProgress percent => some (g.onExtractionProgress percent)
  | .extractionCompleted success =>
      if 0 < g.extracting then some ({ g with extracting := g.extracting - 1 }.onExtractionCompleted success) else none
  | .otherExtractionCompleted success => some (g.onExtractionCompleted success)
  | .finalized found setup =>
      if 0 < g.finalizing then some ({ g with finalizing := g.finalizing - 1 }.finalized found setup) else none
  | .pollInstallWatch alive found => some (g.pollInstallWatch alive found)

def noGame : Game where
  torrent := none
  state := none
  extracted := false
  extractProgress := none
  installWatch := none
  installTarget := none
  gameExe := []
  pendingInstall := none
  installStarted := false
  checking := 0
  finalizing := 0
  extracting := 0
  installers := 0

-- The pipeline of one game.
def game : Machine Game Event Out where
  init := noGame
  next := Game.next

-- The pipelines of all games, each under its hash.
def machine : Machine (InfoHash → Game) (InfoHash × Event) Out where
  init _ := noGame
  next s e := ((s e.1).next e.2).map fun r => (Function.update s e.1 r.1, r.2)

end BATorrent.GameInstall
