import BATorrent.Lib.Run
import BATorrent.Services.PlayLog
import Mathlib.Data.List.AList
import Mathlib.Logic.Function.Basic

namespace BATorrent.RunningGames

open Lib PlayLog

abbrev Text := List Char

abbrev InfoHash := Text

-- The pid, the start and the exe of a followed game, of three maps with the same keys.
structure Running where
  pid : Int
  startMs : Int
  exe : Text
deriving DecidableEq

-- What the settings remember of it, written as pid;startMs;lastAliveMs;exe.
structure Entry where
  pid : Int
  startMs : Int
  lastAliveMs : Int
  exe : Text
deriving DecidableEq

-- One run of a game that was followed: the last sighting that was saved, when its end was noticed, and the
-- sessions that were credited for it. The program keeps no such thing.
structure Played where
  startMs : Int
  savedMs : Int
  noticed : Option Int
  credited : List Session
deriving DecidableEq

-- `running`, `savedMs`, `restored` and `outsideScanMs` are lost when the program ends; `settings` and
-- `playLog` are files. `clock` is the last reading of the clock, `calls` what recordSession was called with
-- and `history` the runs of each game, both newest first.
structure State where
  running : AList fun _ : InfoHash => Running
  savedMs : Int
  restored : Bool
  outsideScanMs : Int
  settings : AList fun _ : InfoHash => Entry
  playLog : InfoHash → Game
  clock : Int
  calls : InfoHash → List Session
  history : InfoHash → List Played

-- A call of launchGame with what it finds: the exe that it settles on and whether that is there and is an
-- installer, whether the process starts and under which pid, and how long after the last reading the clock
-- is read.
structure Launch where
  hash : InfoHash
  exe : Text
  there : Bool
  isInstaller : Bool
  started : Bool
  pid : Int
  elapsed : Nat

-- A process found under the folder of a saved exe.
structure Outside where
  hash : InfoHash
  pid : Int
  path : Text

-- The keys of a hash table come in an order of its own.
structure KeyOrder where
  keys : List InfoHash → List InfoHash
  perm : ∀ l, (keys l).Perm l

-- A poll with what the system says of the processes: whether the remembered one is alive and from under the
-- folder of the exe (`under`), whether the followed one is alive, and which process there is under the folder
-- (zero for none), each at the moment it is asked.
structure Poll where
  order : KeyOrder
  restoreElapsed : Nat
  under : InfoHash → Bool
  elapsed : Nat
  outside : List Outside
  alive : InfoHash → Bool
  next : InfoHash → Int
  exitElapsed : InfoHash → Nat

def Played.sighted (r : Played) (nowMs : Int) : Played := { r with savedMs := nowMs }

def Played.ended (r : Played) (startMs secs nowMs : Int) (counted : Bool) : Played :=
  { r with
    noticed := some nowMs
    credited := if counted then ⟨startMs, secs⟩ :: r.credited else r.credited }

namespace State

variable (s : State)

-- The last run of a game.
def modifyLast (hash : InfoHash) (f : Played → Played) : State :=
  { s with history := Function.update s.history hash ((s.history hash).modifyHead f) }

def recordLaunch (hash : InfoHash) (nowMs : Int) : State :=
  { s with playLog := Function.update s.playLog hash ((s.playLog hash).recordLaunch nowMs) }

def recordSession (hash : InfoHash) (startMs secs nowMs : Int) : State :=
  let (log, counted) := (s.playLog hash).recordSession startMs secs
  { s with
    playLog := Function.update s.playLog hash log
    calls := Function.update s.calls hash (⟨startMs, secs⟩ :: s.calls hash) }.modifyLast hash
      fun r => r.ended startMs secs nowMs counted

def persistRunningGame (hash : InfoHash) (g : Running) (nowMs : Int) : State :=
  { s with settings := s.settings.insert hash ⟨g.pid, g.startMs, nowMs, g.exe⟩ }.modifyLast hash
    fun r => r.sighted nowMs

-- The maps are written, and then the settings.
def follow (hash : InfoHash) (g : Running) (nowMs : Int) : State :=
  { s with running := s.running.insert hash g }.persistRunningGame hash g nowMs

def followRunningGame (hash : InfoHash) (pid : Int) (exe : Text) (nowMs : Int) : State :=
  { s with history := Function.update s.history hash (⟨nowMs, nowMs, none, []⟩ :: s.history hash) }.follow
    hash ⟨pid, nowMs, exe⟩ nowMs

def restoreGame (p : Poll) (nowMs : Int) (hash : InfoHash) : State :=
  match s.settings.lookup hash with
  | none => s
  | some e =>
      let s := { s with settings := s.settings.erase hash }
      if e.startMs ≤ 0 ∨ e.exe = [] then s
      else if p.under hash then s.follow hash ⟨e.pid, e.startMs, e.exe⟩ nowMs
      else if e.startMs < e.lastAliveMs then
        s.recordSession hash e.startMs ((e.lastAliveMs - e.startMs).tdiv 1000) nowMs
      else s

def restoreRunningGames (p : Poll) : State :=
  let nowMs := s.clock + p.restoreElapsed
  (p.order.keys s.settings.keys).foldl (fun s hash => s.restoreGame p nowMs hash) { s with clock := nowMs }

def launchGame (l : Launch) : State :=
  if l.exe ≠ [] ∧ l.there ∧ l.started then
    let nowMs := s.clock + l.elapsed
    let s := { s with clock := nowMs }.recordLaunch l.hash nowMs
    if !l.isInstaller ∧ 0 < l.pid ∧ l.hash ∉ s.running then s.followRunningGame l.hash l.pid l.exe nowMs
    else s
  else s

def noticeOutside (nowMs : Int) (o : Outside) : State :=
  if o.path = [] ∨ o.hash ∈ s.running then s
  else (s.recordLaunch o.hash nowMs).followRunningGame o.hash o.pid o.path nowMs

def noticeOutsideLaunches (outside : List Outside) (nowMs : Int) : State :=
  if nowMs - s.outsideScanMs < 5000 then s
  else outside.foldl (fun s o => s.noticeOutside nowMs o) { s with outsideScanMs := nowMs }

def pollGame (p : Poll) (saveAlive : Bool) (nowMs : Int) (hash : InfoHash) : State :=
  match s.running.lookup hash with
  | none => s
  | some g =>
      if p.alive hash then if saveAlive then s.persistRunningGame hash g nowMs else s
      else
        let next := if g.exe = [] then 0 else p.next hash
        if next ≠ 0 then s.follow hash { g with pid := next } nowMs
        else
          let readMs := s.clock + p.exitElapsed hash
          { s with
            settings := s.settings.erase hash
            running := s.running.erase hash
            clock := readMs }.recordSession hash g.startMs ((readMs - g.startMs).tdiv 1000) readMs

-- The games of the last start are picked up at the first poll.
def pickedUp (p : Poll) : State :=
  if s.restored then s else { s with restored := true }.restoreRunningGames p

def pollRunningGames (p : Poll) : State :=
  let s := s.pickedUp p
  let nowMs := s.clock + p.elapsed
  let s := { s with clock := nowMs }.noticeOutsideLaunches p.outside nowMs
  if s.running.keys = [] then s
  else
    let saveAlive : Bool := 60 * 1000 ≤ nowMs - s.savedMs
    let s := if saveAlive then { s with savedMs := nowMs } else s
    (p.order.keys s.running.keys).foldl (fun s hash => s.pollGame p saveAlive nowMs hash) s

def restarted : State := { s with running := ∅, savedMs := 0, restored := false, outsideScanMs := 0 }

end State

inductive Event where
  | launchGame (l : Launch)
  | pollRunningGames (p : Poll)
  | restarted

def State.next (s : State) : Event → Option (State × List Unit)
  | .launchGame l => some (s.launchGame l, [])
  | .pollRunningGames p => some (s.pollRunningGames p, [])
  | .restarted => some (s.restarted, [])

-- The clock reads a time after the epoch.
def State.new : State where
  running := ∅
  savedMs := 0
  restored := false
  outsideScanMs := 0
  settings := ∅
  playLog _ := .new
  clock := 1
  calls _ := []
  history _ := []

def machine : Machine State Event Unit where
  init := .new
  next := State.next

end BATorrent.RunningGames
