import BATorrent.Lib.Rows
import BATorrent.Lib.Run
import Mathlib.Data.List.AList
import Mathlib.Data.List.Dedup

namespace BATorrent.ResumeFlush

open Lib

abbrev Handle := Nat

-- One call of save_resume_data that libtorrent took.
structure Request where
  number : Nat
  handle : Handle
deriving DecidableEq

inductive Alert where
  | saveResumeData (r : Request)
  | saveResumeDataFailed (r : Request)
  | pieceFinished (h : Handle)
  | metadataReceived (h : Handle)
  | fileRenamed (h : Handle)
  | other
deriving DecidableEq

namespace Alert

def handle : Alert → Option Handle
  | .saveResumeData r => some r.handle
  | .saveResumeDataFailed r => some r.handle
  | .pieceFinished h => some h
  | .metadataReceived h => some h
  | .fileRenamed h => some h
  | .other => none

def request : Alert → Option Request
  | .saveResumeData r => some r
  | .saveResumeDataFailed r => some r
  | _ => none

end Alert

def answers (alerts : List Alert) : List Request := alerts.filterMap Alert.request

-- What processing an answer came to. persistResumeAlert writes nothing for a torrent removed
-- meanwhile, nor where the file does not open.
inductive Fate where
  | onDisk
  | refused
  | failed
deriving DecidableEq

-- The loop of flushResumeDataBlocking, and whether it was left before the deadline.
inductive Loop where
  | notYet
  | running (deadline : Int)
  | left (early : Bool)
deriving DecidableEq

-- `valid` are the torrents of the session, `asked` the requests it has not answered and `posted`
-- its alert queue. An alert that found the queue full is `lost`, one of a waiting magnet
-- `passedOver`. `now` is in seconds since the epoch, `steady` in milliseconds.
structure State where
  valid : List Handle
  hasMetadata : List Handle
  accepted : List Request
  asked : List Request
  posted : List Alert
  lost : List Request
  torrents : List Handle
  staged : List Handle
  lastResumeSaveAt : AList fun _ : Handle => Int
  resumeOutstanding : Nat
  alertDrain : List Alert
  passedOver : List Request
  processed : List (Request × Fate)
  loop : Loop
  now : Int
  steady : Int

def init : State where
  valid := []
  hasMetadata := []
  accepted := []
  asked := []
  posted := []
  lost := []
  torrents := []
  staged := []
  lastResumeSaveAt := ∅
  resumeOutstanding := 0
  alertDrain := []
  passedOver := []
  processed := []
  loop := .notYet
  now := 0
  steady := 0

namespace State

variable (s : State)

-- The requests whose answer has not been processed.
def unprocessed : List Request :=
  s.asked ++ answers s.posted ++ answers s.alertDrain ++ s.lost ++ s.passedOver

section Requests

def isValid (h : Handle) : Bool := h ∈ s.valid

def isStaged (h : Handle) : Bool := h ∈ s.staged

-- save_resume_data of a valid handle.
def ask (h : Handle) : State :=
  let r : Request := ⟨s.accepted.length, h⟩
  { s with accepted := s.accepted ++ [r], asked := s.asked ++ [r] }

def askCounted (h : Handle) : State :=
  let s' := s.ask h
  { s' with resumeOutstanding := s'.resumeOutstanding + 1 }

def saveNow (h : Handle) : State :=
  let s' := s.askCounted h
  { s' with lastResumeSaveAt := s'.lastResumeSaveAt.insert h s'.now }

def stageResumeSave (h : Handle) : State := if s.isValid h then s.saveNow h else s

def saveResumeData : State :=
  (s.torrents.filter fun h => s.isValid h && h ∈ s.hasMetadata).foldl saveNow s

def pauseTorrent (i : Nat) : State :=
  match s.torrents[i]? with
  | some h => if s.isValid h then s.ask h else s
  | none => s

def resumeTorrent (i : Nat) : State := s.pauseTorrent i

def pauseAll : State := (s.torrents.filter s.isValid).foldl ask s

def resumeAll : State := s.pauseAll

end Requests

section Rows

def addTorrent (h : Handle) : State :=
  { s with valid := s.valid.insert h, torrents := s.torrents ++ [h] }.stageResumeSave h

-- A torrent that comes without a request: a magnet, or one that loadResumeData or
-- importFromQBittorrent reads.
def adopt (h : Handle) : State :=
  { s with valid := s.valid.insert h, torrents := s.torrents ++ [h] }

def addMagnet (added : Option Handle) : State :=
  match added with
  | some h => s.adopt h
  | none => s

-- `found` is the answer of torrentIndexByInfoHash.
def addMagnetWith (added : Option Handle) (paused : Bool) (found : Option Nat) : State :=
  let s' := s.addMagnet added
  match paused, found with
  | true, some i => s'.pauseTorrent i
  | _, _ => s'

def restoreFromResumeData (h : Handle) : State := (s.adopt h).askCounted h

def stageMagnet (h : Handle) : State :=
  { s with valid := s.valid.insert h, staged := s.staged.insert h }

def discardStaged (h : Handle) : State := { s with staged := s.staged.erase h }

def commitStaged (h : Handle) (hasMeta : Bool) (added : Option Handle) (paused : Bool)
    (found : Option Nat) : State :=
  if s.isStaged h then
    let s' := { s with staged := s.staged.erase h }
    if s'.isValid h then
      let s' := { s' with torrents := s'.torrents ++ [h] }
      if hasMeta then s'.stageResumeSave h else s'
    else s'.addMagnetWith added paused found
  else s

def removeTorrent (i : Nat) : State :=
  match s.torrents[i]? with
  | some h =>
      if s.isValid h then
        { s with
          torrents := s.torrents.eraseIdx i
          hasMetadata := s.hasMetadata.erase h
          lastResumeSaveAt := s.lastResumeSaveAt.erase h }
      else { s with torrents := s.torrents.eraseIdx i }
  | none => s

def setTorrentQueuePosition (i position : Nat) : State :=
  if hi : i < s.torrents.length then
    if position < s.torrents.length then
      { s with torrents := moveRow s.torrents i position hi }
    else s
  else s

end Rows

section Alerts

def settle (r : Request) (fate : Fate) : State :=
  { s with processed := s.processed ++ [(r, fate)], resumeOutstanding := s.resumeOutstanding - 1 }

def onResumeDataReady (persists : Request → Bool) (r : Request) : State :=
  s.settle r (if persists r then .onDisk else .refused)

def onResumeDataFailed (r : Request) : State := s.settle r .failed

def onPieceFinished (h : Handle) : State :=
  if s.isValid h then
    match s.lastResumeSaveAt.lookup h with
    | some savedAt => if s.now - savedAt ≥ 60 then s.saveNow h else s
    | none => s.saveNow h
  else s

def onMetadataReceived (h : Handle) : State := s.stageResumeSave h

def passOver (a : Alert) : State := { s with passedOver := s.passedOver ++ a.request.toList }

-- One turn of the loop of processAlerts.
def processAlert (persists : Request → Bool) (a : Alert) : State :=
  if a.handle.any s.isStaged then s.passOver a
  else
    match a with
    | .saveResumeData r => s.onResumeDataReady persists r
    | .saveResumeDataFailed r => s.onResumeDataFailed r
    | .pieceFinished h => s.onPieceFinished h
    | .metadataReceived h => s.onMetadataReceived h
    | .fileRenamed _ => s
    | .other => s

def renamed (batch : List Alert) : List Handle :=
  (batch.filterMap fun a =>
    match a with
    | .fileRenamed h => if s.isStaged h then none else some h
    | _ => none).dedup

def kMaxPerTick : Nat := 1000

def popAlerts : State :=
  if s.alertDrain = [] then { s with alertDrain := s.posted, posted := [] } else s

-- The batch goes out of m_alertDrain first: no handler looks there.
def processAlerts (persists : Request → Bool) : State :=
  let s' := s.popAlerts
  let batch := s'.alertDrain.take kMaxPerTick
  let s' := { s' with alertDrain := s'.alertDrain.drop kMaxPerTick }
  (s'.renamed batch).foldl stageResumeSave (batch.foldl (fun t a => t.processAlert persists a) s')

end Alerts

section Flush

def flushResumeDataBlocking (timeoutMs : Int) : State :=
  let s' := s.saveResumeData
  { s' with loop := .running (s'.steady + timeoutMs) }

-- One turn of the loop. With nothing to process it waits, at most until the deadline.
def turn (persists : Request → Bool) : Option State :=
  match s.loop with
  | .running deadline =>
      if 0 < s.resumeOutstanding ∧ s.steady < deadline then
        if s.alertDrain = [] ∧ s.posted = [] then none else some (s.processAlerts persists)
      else some { s with loop := .left (s.steady < deadline) }
  | _ => none

end Flush

section Libtorrent

-- Each request is answered once.
def answer (r : Request) (saved : Bool) : Option State :=
  if r ∈ s.asked then
    some { s with
      asked := s.asked.erase r
      posted := s.posted ++ [if saved then .saveResumeData r else .saveResumeDataFailed r] }
  else none

def dropAnswer (r : Request) : Option State :=
  if r ∈ s.asked then some { s with asked := s.asked.erase r, lost := s.lost ++ [r] } else none

def post (a : Alert) : Option State :=
  if a.request = none then some { s with posted := s.posted ++ [a] } else none

def statusKnown (h : Handle) (hasMeta : Bool) : State :=
  { s with hasMetadata := if hasMeta then s.hasMetadata.insert h else s.hasMetadata.erase h }

end Libtorrent

end State

inductive Event where
  | addTorrent (h : Handle)
  | adopt (h : Handle)
  | addMagnetWith (added : Option Handle) (paused : Bool) (found : Option Nat)
  | restoreFromResumeData (h : Handle)
  | stageMagnet (h : Handle)
  | discardStaged (h : Handle)
  | commitStaged (h : Handle) (hasMeta : Bool) (added : Option Handle) (paused : Bool)
      (found : Option Nat)
  | removeTorrent (i : Nat)
  | setTorrentQueuePosition (i position : Nat)
  | pauseTorrent (i : Nat)
  | resumeTorrent (i : Nat)
  | pauseAll
  | resumeAll
  | saveResumeData
  | processAlerts (persists : Request → Bool)
  | flushResumeDataBlocking (timeoutMs : Int)
  | turn (persists : Request → Bool)
  -- What goes on besides.
  | answer (r : Request) (saved : Bool)
  | dropAnswer (r : Request)
  | post (a : Alert)
  | statusKnown (h : Handle) (hasMeta : Bool)
  | removalDone (h : Handle)
  | clock (now : Int)
  | elapse (ms : Nat)

namespace State

variable (s : State)

-- The flush is the last thing the program does, and nothing else of it runs meanwhile.
def whileUp (s' : State) : Option State := if s.loop = .notYet then some s' else none

def act : Event → Option State
  | .addTorrent h => s.whileUp (s.addTorrent h)
  | .adopt h => s.whileUp (s.adopt h)
  | .addMagnetWith added paused found => s.whileUp (s.addMagnetWith added paused found)
  | .restoreFromResumeData h => s.whileUp (s.restoreFromResumeData h)
  | .stageMagnet h => s.whileUp (s.stageMagnet h)
  | .discardStaged h => s.whileUp (s.discardStaged h)
  | .commitStaged h hasMeta added paused found =>
      s.whileUp (s.commitStaged h hasMeta added paused found)
  | .removeTorrent i => s.whileUp (s.removeTorrent i)
  | .setTorrentQueuePosition i position => s.whileUp (s.setTorrentQueuePosition i position)
  | .pauseTorrent i => s.whileUp (s.pauseTorrent i)
  | .resumeTorrent i => s.whileUp (s.resumeTorrent i)
  | .pauseAll => s.whileUp s.pauseAll
  | .resumeAll => s.whileUp s.resumeAll
  | .saveResumeData => s.whileUp s.saveResumeData
  | .processAlerts persists => s.whileUp (s.processAlerts persists)
  | .flushResumeDataBlocking timeoutMs => s.whileUp (s.flushResumeDataBlocking timeoutMs)
  | .turn persists => s.turn persists
  | .answer r saved => s.answer r saved
  | .dropAnswer r => s.dropAnswer r
  | .post a => s.post a
  | .statusKnown h hasMeta => some (s.statusKnown h hasMeta)
  | .removalDone h => some { s with valid := s.valid.erase h }
  | .clock now => some { s with now := now }
  | .elapse ms => some { s with steady := s.steady + ms }

end State

def machine : Machine State Event Empty where
  init := init
  next s e := (s.act e).map fun s' => (s', [])

end BATorrent.ResumeFlush
