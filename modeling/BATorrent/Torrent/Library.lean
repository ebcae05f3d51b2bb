import BATorrent.Lib.Rows
import BATorrent.Lib.Run
import BATorrent.Torrent.Library.Session
import BATorrent.Torrent.SessionConfig
import BATorrent.Torrent.SessionResume
import Mathlib.Data.List.AList

namespace BATorrent.Library

open Lib Lib.FilePath SessionResume

section State

-- What parse_magnet_uri reads.
structure Magnet where
  hashes : InfoHashes
  name : Text

structure Staged where
  handle : Handle
  uri : Magnet

inductive Alert where
  | saved (h : Handle) (p : Params)
  | saveFailed (h : Handle)
  | metadataReceived (h : Handle)
  | fileRenamed (h : Handle)

def Alert.handle : Alert → Handle
  | .saved h _ => h
  | .saveFailed h => h
  | .metadataReceived h => h
  | .fileRenamed h => h

-- A move to the trash, or a deletion, that waits for its timer.
structure Scheduled where
  permanent : Bool
  targets : List Text
  attempt : Nat

-- The resume files and the removed ones are kept by the hash they are named after. `requests` are
-- the calls of save_resume_data not answered yet, `unloaded` the files loadResumeData has not reached.
structure State where
  session : Session
  requests : List Handle
  alerts : List Alert
  torrents : List Handle
  staged : AList fun _ : Sha1Hash => Staged
  magnetHashes : AList fun _ : Handle => Sha1Hash
  removedHashes : List Sha1Hash
  resumeDir : AList fun _ : Sha1Hash => Params
  removedDir : AList fun _ : Sha1Hash => Params
  unloaded : List Sha1Hash
  timers : List Scheduled
  pendingTrash : List Text
  pendingDelete : List Text
  tempPath : Option Text
  contentLayout : Int

def init : State where
  session := .start
  requests := []
  alerts := []
  torrents := []
  staged := ∅
  magnetHashes := ∅
  removedHashes := []
  resumeDir := ∅
  removedDir := ∅
  unloaded := []
  timers := []
  pendingTrash := []
  pendingDelete := []
  tempPath := none
  contentLayout := 0

end State

namespace State

variable (s : State)

section Handles

-- A handle is valid as long as the session has its torrent.
def torrent (h : Handle) : Option Torrent := s.session.torrent h

def valid (h : Handle) : Bool := (s.torrent h).isSome

def hasMetadata (h : Handle) : Bool := (s.torrent h).any (·.info.isSome)

def isDuplicate (ih : InfoHashes) : Bool :=
  s.torrents.any fun h => (s.torrent h).any (·.hashes = ih)

def isStaged (h : Handle) : Bool := s.staged.entries.any (·.2.handle = h)

-- A torrent without metadata is known by the hash of its magnet link.
def torrentHash (h : Handle) : Option Sha1Hash :=
  (s.torrent h).bind fun t => if t.info.isSome then some t.hashes.best else s.magnetHashes.lookup h

def torrentIndexByInfoHash (hash : Sha1Hash) : Option Nat :=
  s.torrents.findIdx? fun h => s.torrentHash h = some hash

end Handles

section Saving

def request (h : Handle) : State := { s with requests := s.requests ++ [h] }

def stageResumeSave (h : Handle) : State := if s.valid h then s.request h else s

def pauseTorrent (i : Nat) : State :=
  match s.torrents[i]? with
  | some h => s.stageResumeSave h
  | none => s

def resumeTorrent (i : Nat) : State := s.pauseTorrent i

def saveWhere (p : Handle → Bool) : State :=
  { s with requests := s.requests ++ s.torrents.filter fun h => s.valid h && p h }

def pauseAll : State := s.saveWhere fun _ => true

def resumeAll : State := s.saveWhere fun _ => true

def saveResumeData : State := s.saveWhere s.hasMetadata

-- A file that does not commit leaves the old one as it was.
def writeResume (hash : Sha1Hash) (p : Params) (commits : Bool) : State :=
  if commits then { s with resumeDir := s.resumeDir.insert hash p } else s

def persistMagnetParams (p : Params) (hash : Sha1Hash) (finalSavePath : Text) (commits : Bool) :
    State := s.writeResume hash { p with savePath := finalSavePath } commits

def persistResumeAlert (p : Params) (commits : Bool) : State :=
  if p.hashes.best ∈ s.removedHashes then s else s.writeResume p.hashes.best p commits

end Saving

section Adding

-- add_torrent, and the handle it gives goes to the end of the list.
def adopt (p : Params) : State × Handle :=
  let (session, h) := s.session.add p
  ({ s with session := session, torrents := s.torrents ++ [h] }, h)

def downloadPath (savePath : Text) : Text := s.tempPath.getD savePath

-- The layout gives way to the suffix, except for a file that has it already.
def addedNames (layout : Int) (ti : TorrentInfo) : List Text :=
  let paths := ti.files.map TorrentFile.path
  let plan := SessionConfig.planContentLayout layout ti.name paths
  paths.zipIdx.map fun (path, i) =>
    let suffixed := withIncompleteSuffix path
    if suffixed = path then (plan.lookup i).getD path else suffixed

def infoParams (ti : TorrentInfo) (savePath : Text) (names : List Text) : Params where
  hashes := ti.hashes
  info := some ti
  savePath := savePath
  name := ti.name
  names := names
  agrees := ti.agrees

def magnetParams (uri : Magnet) (savePath name : Text) : Params where
  hashes := uri.hashes
  info := none
  savePath := savePath
  name := name
  names := []
  agrees _ h := absurd h (Option.some_ne_none _).symm

def addWithInfo (ti : TorrentInfo) (savePath : Text) (fails : Bool) : State :=
  if s.isDuplicate ti.hashes ∨ fails then s
  else
    let (s', h) := s.adopt (infoParams ti (s.downloadPath savePath) (addedNames s.contentLayout ti))
    s'.stageResumeSave h

def addTorrent (ti : TorrentInfo) (savePath : Text) (fails : Bool) : State :=
  s.addWithInfo ti savePath fails

def addTorrentInfo (ti : TorrentInfo) (savePath : Text) (fails : Bool) : State :=
  s.addWithInfo ti savePath fails

def magnetName (uri : Magnet) (coverHint : Text) : Text :=
  if coverHint ≠ [] then coverHint else uri.name

def addMagnet (uri : Magnet) (savePath coverHint : Text) (fails commits : Bool) : State :=
  if s.isDuplicate uri.hashes ∨ fails then s
  else
    let p := magnetParams uri (s.downloadPath savePath) (magnetName uri coverHint)
    let (s', h) := s.adopt p
    let realHash := uri.hashes.best
    { s' with magnetHashes := s'.magnetHashes.insert h realHash }.persistMagnetParams p realHash savePath
      commits

def addMagnetWith (uri : Magnet) (savePath : Text) (paused fails commits : Bool) : State :=
  let s' := s.addMagnet uri savePath [] fails commits
  if paused then
    match s'.torrentIndexByInfoHash uri.hashes.best with
    | some i => s'.pauseTorrent i
    | none => s'
  else s'

-- What a backup folder has of one torrent. Parameters made of the torrent file alone carry no hash,
-- so they equal no torrent's.
structure Backup where
  torrent : TorrentInfo
  fastresume : Option Params

-- One turn of the loop of importFromQBittorrent.
def importFromQBittorrent (file : Backup) (defaultSavePath : Text) (fails : Bool) : State :=
  match file.fastresume with
  | some p =>
      if s.isDuplicate p.hashes ∨ fails then s
      else (s.adopt { p with savePath := if p.savePath = [] then defaultSavePath else p.savePath }).1
  | none =>
      if fails then s
      else
        (s.adopt (infoParams file.torrent defaultSavePath
          (file.torrent.files.map TorrentFile.path))).1

end Adding

section Metadata

-- A hybrid magnet goes by another hash once its metadata is there.
def rekey (h : Handle) : State :=
  match s.magnetHashes.lookup h, s.torrent h with
  | some oldHash, some t =>
      if t.hashes.best ≠ oldHash then
        { s with
          resumeDir := s.resumeDir.erase oldHash
          magnetHashes := s.magnetHashes.insert h t.hashes.best }
      else s
  | _, _ => s

def handleMetadata (h : Handle) : State := (s.rekey h).stageResumeSave h

def processAlert (a : Alert) (commits : Bool) : State :=
  if s.isStaged a.handle then s
  else
    match a with
    | .saved _ p => s.persistResumeAlert p commits
    | .saveFailed _ => s
    | .metadataReceived h => if s.valid h then s.handleMetadata h else s
    | .fileRenamed h => s.stageResumeSave h

end Metadata

section Staging

def stageMagnet (uri : Magnet) (scratchDir : Text) (fails : Bool) : State :=
  let hash := uri.hashes.best
  if s.isDuplicate uri.hashes ∨ (s.staged.lookup hash).isSome ∨ fails then s
  else
    let (session, h) := s.session.add (magnetParams uri scratchDir uri.name)
    { s with session := session, staged := s.staged.insert hash ⟨h, uri⟩ }

def discardStaged (hash : Sha1Hash) : State :=
  match s.staged.lookup hash with
  | none => s
  | some st => { s with session := s.session.remove st.handle, staged := s.staged.erase hash }

-- The storage moves later, if at all.
def commitStaged (hash : Sha1Hash) (savePath : Text) (paused fails commits : Bool) : State :=
  match s.staged.lookup hash with
  | none => s
  | some st =>
      let s' := { s with staged := s.staged.erase hash }
      if ¬ s'.valid st.handle then s'.addMagnetWith st.uri savePath paused fails commits
      else
        let s' := { s' with
          torrents := s'.torrents ++ [st.handle]
          magnetHashes := s'.magnetHashes.insert st.handle hash }
        if s'.hasMetadata st.handle then s'.handleMetadata st.handle
        else s'.persistMagnetParams (magnetParams st.uri savePath st.uri.name) hash savePath commits

end Staging

section Restoring

def restoreFromResumeData (p : Params) (fails : Bool) : State :=
  if fails then s
  else
    let (s', h) := s.adopt p
    let s' := s'.request h
    match s'.torrent h with
    | some t =>
        if t.info.isSome then
          { s' with removedHashes := s'.removedHashes.filter (· ≠ t.hashes.best) }
        else s'
    | none => s'

def restoreRemoved (hash : Sha1Hash) (fails : Bool) : State :=
  match s.removedDir.lookup hash with
  | none => s
  | some p =>
      if fails then s
      else
        let s' := s.restoreFromResumeData p fails
        { s' with removedDir := s'.removedDir.erase hash }

-- A file that is whole under its plain name, or under the suffixed one, goes on under that name.
def reconcile (rules : Rules) (disk : Text → Option Int) (p : Params) : Params :=
  match p.info with
  | none => p
  | some ti =>
      { p with
        names := (p.names.zip ti.files).map fun (name, file) =>
          let base := filePath rules (folder p.savePath) (chopIncompleteSuffix name)
          reconcileIncompleteSuffix name file.size (disk base) (disk (base ++ kIncompleteSuffix)) }

-- One turn of the loop of loadResumeData.
def loadResumeData (rules : Rules) (hash : Sha1Hash) (fails : Bool) (disk : Text → Option Int) :
    State :=
  match s.resumeDir.lookup hash with
  | none => s
  | some p =>
      if fails then s
      else
        let (s', h) := s.adopt (reconcile rules disk p)
        if p.info = none then { s' with magnetHashes := s'.magnetHashes.insert h p.hashes.best }
        else s'

end Restoring

section Deleting

def pendingTargets (permanent : Bool) : List Text :=
  if permanent then s.pendingDelete else s.pendingTrash

def setPendingTargets (permanent : Bool) (targets : List Text) : State :=
  if permanent then { s with pendingDelete := targets } else { s with pendingTrash := targets }

def addPendingTargets (permanent : Bool) (targets : List Text) : State :=
  s.setPendingTargets permanent
    (targets.foldl (fun pending t => if t ∈ pending then pending else pending ++ [t])
      (s.pendingTargets permanent))

def clearDoneTargets (permanent : Bool) (attempted remaining : List Text) : State :=
  s.setPendingTargets permanent
    ((s.pendingTargets permanent).filter fun t => ¬ (t ∈ attempted ∧ t ∉ remaining))

def schedule (permanent : Bool) (targets : List Text) (attempt : Nat) : State :=
  let s' := if attempt = 0 then s.addPendingTargets permanent targets else s
  { s' with timers := s'.timers ++ [⟨permanent, targets, attempt⟩] }

def scheduleTrash (targets : List Text) (attempt : Nat) : State := s.schedule false targets attempt

def scheduleDelete (targets : List Text) (attempt : Nat) : State := s.schedule true targets attempt

-- One timer fires. `existing` are the paths on disk, `failed` those that could not be taken away.
def attempt (i : Nat) (existing failed : List Text) : Option (State × Scheduled) :=
  (s.timers[i]?).map fun timer =>
    let targets := timer.targets.filter (· ∈ existing)
    let remaining := targets.filter (· ∈ failed)
    let s' := { s with timers := s.timers.eraseIdx i }.clearDoneTargets timer.permanent timer.targets
      remaining
    (if remaining ≠ [] ∧ timer.attempt < 10 then
      s'.schedule timer.permanent remaining (timer.attempt + 1)
    else s', { timer with targets := targets })

end Deleting

section Removing

-- The resume file goes to the removed ones, in place of an older one there.
def shelve (hash : Sha1Hash) : State :=
  { s with
    resumeDir := s.resumeDir.erase hash
    removedDir :=
      match s.resumeDir.lookup hash with
      | some p => s.removedDir.insert hash p
      | none => s.removedDir.erase hash }

def noteRemoved (hash : Sha1Hash) : State :=
  let removedHashes := if hash ∈ s.removedHashes then s.removedHashes else hash :: s.removedHashes
  { s with removedHashes := if removedHashes.length > 500 then [] else removedHashes }

-- Without metadata the status has no hash.
def removedHash (t : Torrent) : Sha1Hash :=
  if t.info.isSome then t.hashes.best else (s.magnetHashes.lookup t.handle).getD zeroHash

def removalTargets (rules : Rules) (t : Torrent) : List Text :=
  RemovedTorrent.trashTargets rules
    { savePath := t.savePath
      name := t.name
      files := t.info.map fun _ => t.names
      hash := s.removedHash t }

-- What is forgotten of a torrent before its row goes.
def release (t : Torrent) : State :=
  let hash := s.removedHash t
  let s' := (s.shelve hash).noteRemoved hash
  { s' with
    magnetHashes := s'.magnetHashes.erase t.handle
    session := s'.session.remove t.handle }

def scheduleRemoval (deleteFiles permanent : Bool) (targets : List Text) : State :=
  match removalDisposition deleteFiles permanent targets with
  | .trash => s.scheduleTrash targets 0
  | .permanentDelete => s.scheduleDelete targets 0
  | .keep => s

def eraseRow (i : Nat) : State := { s with torrents := s.torrents.eraseIdx i }

def removeTorrent (rules : Rules) (i : Nat) (deleteFiles permanent : Bool) : State :=
  match s.torrents[i]? with
  | none => s
  | some h =>
      match s.torrent h with
      | none => s.eraseRow i
      | some t =>
          let targets := if deleteFiles then s.removalTargets rules t else []
          ((s.release t).scheduleRemoval deleteFiles permanent targets).eraseRow i

end Removing

section Restarting

-- What outlives the program: the files and the settings.
def restart (files : List Sha1Hash) : State :=
  let s' := { init with
    resumeDir := s.resumeDir
    removedDir := s.removedDir
    unloaded := files
    tempPath := s.tempPath
    contentLayout := s.contentLayout }
  let s' := if s.pendingTrash ≠ [] then s'.scheduleTrash s.pendingTrash 0 else s'
  if s.pendingDelete ≠ [] then s'.scheduleDelete s.pendingDelete 0 else s'

end Restarting

end State

section Machine

-- `fails` says that add_torrent throws, `commits` that a resume file is written.
inductive Event where
  | addTorrent (ti : TorrentInfo) (savePath : Text) (fails : Bool)
  | addTorrentInfo (ti : TorrentInfo) (savePath : Text) (fails : Bool)
  | addMagnet (uri : Magnet) (savePath coverHint : Text) (fails commits : Bool)
  | addMagnetWith (uri : Magnet) (savePath : Text) (paused fails commits : Bool)
  | stageMagnet (uri : Magnet) (scratchDir : Text) (fails : Bool)
  | discardStaged (hash : Sha1Hash)
  | commitStaged (hash : Sha1Hash) (savePath : Text) (paused fails commits : Bool)
  | restoreFromResumeData (p : Params) (fails : Bool)
  | restoreRemoved (hash : Sha1Hash) (fails : Bool)
  | importFromQBittorrent (file : State.Backup) (defaultSavePath : Text) (fails : Bool)
  | removeTorrent (i : Nat) (deleteFiles permanent : Bool)
  | pruneRemovedHistory (hashes : List Sha1Hash)
  | setTorrentQueuePosition (i position : Nat)
  | pauseTorrent (i : Nat)
  | resumeTorrent (i : Nat)
  | pauseAll
  | resumeAll
  | saveResumeData
  | setTempPath (path : Option Text)
  | setContentLayout (layout : Int)
  | processAlerts (commits : Bool)
  | attempt (i : Nat) (existing failed : List Text)
  | restart (files : List Sha1Hash)
  | loadResumeData (fails : Bool) (disk : Text → Option Int)
  -- What libtorrent does by itself.
  | pieceFinished (h : Handle)
  | answerSave (i : Nat) (saved : Bool)
  | metadataArrives (h : Handle) (ti : TorrentInfo)
  | fileRenamed (h : Handle) (file : Nat) (name : Text)
  | storageMoved (h : Handle) (savePath : Text)
  | removalDone (h : Handle)

-- A path that an attempt moves to the trash or deletes.
structure Out where
  permanent : Bool
  path : Text

namespace State

variable (s : State)

-- Alerts are processed one by one, in the order they came in.
def processAlerts (commits : Bool) : Option State :=
  match s.alerts with
  | [] => none
  | a :: rest => some ({ s with alerts := rest }.processAlert a commits)

def loadNext (rules : Rules) (fails : Bool) (disk : Text → Option Int) : Option State :=
  match s.unloaded with
  | [] => none
  | hash :: rest => some ({ s with unloaded := rest }.loadResumeData rules hash fails disk)

-- A torrent that is being removed has no resume data to give, unless it was asked before.
def answerSave (i : Nat) (saved : Bool) : Option State :=
  (s.requests[i]?).bind fun h =>
    let answer := fun a : Alert =>
      { s with requests := s.requests.eraseIdx i, alerts := s.alerts ++ [a] }
    match s.torrent h with
    | some t =>
        if saved then some (answer (.saved h t.toParams))
        else if t.removing then some (answer (.saveFailed h))
        else none
    | none => if saved then none else some (answer (.saveFailed h))

def metadataArrives (h : Handle) (ti : TorrentInfo) : Option State :=
  (s.torrent h).bind fun t =>
    if t.info = none ∧ t.removing = false ∧ ∀ k ∈ t.hashes.keys, k ∈ ti.hashes.keys then
      (s.session.receive h ti).map fun session =>
        { s with session := session, alerts := s.alerts ++ [.metadataReceived h] }
    else none

def removalDone (h : Handle) : Option State :=
  (s.torrent h).bind fun t =>
    if t.removing then some { s with session := s.session.drop h } else none

def setTorrentQueuePosition (i position : Nat) : State :=
  if hi : i < s.torrents.length then
    if position < s.torrents.length then
      { s with torrents := moveRow s.torrents i position hi }
    else s
  else s

def pruneRemovedHistory (hashes : List Sha1Hash) : State :=
  { s with removedDir := hashes.foldl (fun dir hash => dir.erase hash) s.removedDir }

-- The names in the resume folder come in an order of its own. After a load that crashed the program
-- the next start loads nothing.
def act (rules : Rules) : Event → Option State
  | .addTorrent ti savePath fails => some (s.addTorrent ti savePath fails)
  | .addTorrentInfo ti savePath fails => some (s.addTorrentInfo ti savePath fails)
  | .addMagnet uri savePath coverHint fails commits =>
      some (s.addMagnet uri savePath coverHint fails commits)
  | .addMagnetWith uri savePath paused fails commits =>
      some (s.addMagnetWith uri savePath paused fails commits)
  | .stageMagnet uri scratchDir fails => some (s.stageMagnet uri scratchDir fails)
  | .discardStaged hash => some (s.discardStaged hash)
  | .commitStaged hash savePath paused fails commits =>
      some (s.commitStaged hash savePath paused fails commits)
  | .restoreFromResumeData p fails => some (s.restoreFromResumeData p fails)
  | .restoreRemoved hash fails => some (s.restoreRemoved hash fails)
  | .importFromQBittorrent file defaultSavePath fails =>
      some (s.importFromQBittorrent file defaultSavePath fails)
  | .removeTorrent i deleteFiles permanent => some (s.removeTorrent rules i deleteFiles permanent)
  | .pruneRemovedHistory hashes => some (s.pruneRemovedHistory hashes)
  | .setTorrentQueuePosition i position => some (s.setTorrentQueuePosition i position)
  | .pauseTorrent i => some (s.pauseTorrent i)
  | .resumeTorrent i => some (s.resumeTorrent i)
  | .pauseAll => some s.pauseAll
  | .resumeAll => some s.resumeAll
  | .saveResumeData => some s.saveResumeData
  | .setTempPath path => some { s with tempPath := path }
  | .setContentLayout layout => some { s with contentLayout := layout }
  | .processAlerts commits => s.processAlerts commits
  | .attempt i existing failed => (s.attempt i existing failed).map Prod.fst
  | .restart files =>
      if files = [] ∨ files.Perm s.resumeDir.keys then some (s.restart files) else none
  | .loadResumeData fails disk => s.loadNext rules fails disk
  | .pieceFinished h => some (s.stageResumeSave h)
  | .answerSave i saved => s.answerSave i saved
  | .metadataArrives h ti => s.metadataArrives h ti
  | .fileRenamed h file name =>
      some { s with session := s.session.rename h file name, alerts := s.alerts ++ [.fileRenamed h] }
  | .storageMoved h savePath => some { s with session := s.session.move h savePath }
  | .removalDone h => s.removalDone h

def touched : Event → List Out
  | .attempt i existing failed =>
      match s.attempt i existing failed with
      | some (_, timer) => timer.targets.map fun path => ⟨timer.permanent, path⟩
      | none => []
  | _ => []

end State

def Event.loads : Event → Bool
  | .loadResumeData _ _ => true
  | .restart _ => true
  | _ => false

-- Nothing else happens while the resume files are loaded.
def next (rules : Rules) (s : State) (e : Event) : Option (State × List Out) :=
  if s.unloaded = [] ∨ e.loads then (s.act rules e).map fun s' => (s', s.touched e) else none

def machine (rules : Rules) : Machine State Event Out where
  init := init
  next := next rules

end Machine

end BATorrent.Library
