import BATorrent.Torrent.Library.Survives

namespace BATorrent.Library

open Lib Lib.FilePath SessionResume State

section Filing

-- The folder of a torrent's most recent add, and whether the torrent waits in the temp folder for
-- a move there that the running program knows of.
structure Choice where
  path : Option Text
  waits : Bool

-- The library with the folders its torrents go to. `moving` are the moves asked of libtorrent and
-- not done, and `choice` is kept for the statements alone.
structure Filing extends State where
  torrentIntendedPath : Sha1Hash → Option Text
  autoMoveEnabled : Bool
  autoMovePath : Text
  moving : Handle → Option Text
  choice : Sha1Hash → Choice

end Filing

namespace Filing

variable (s : Filing)

section Intended

-- What an add writes before it hands the torrent to libtorrent, with a temp folder to write it for.
def intend (hash : Sha1Hash) (savePath : Text) : Sha1Hash → Option Text :=
  if s.tempPath.isSome then Function.update s.torrentIntendedPath hash (some savePath)
  else s.torrentIntendedPath

def intendUnlessDuplicate (ih : InfoHashes) (savePath : Text) : Sha1Hash → Option Text :=
  if s.isDuplicate ih then s.torrentIntendedPath else s.intend ih.best savePath

-- The record of the old hash, if there is one, takes the place of what is under the new one.
def rekeyPaths (paths : Sha1Hash → Option Text) (oldHash best : Sha1Hash) : Sha1Hash → Option Text :=
  if best ≠ oldHash ∧ (paths oldHash).isSome then
    Function.update (Function.update paths best (paths oldHash)) oldHash none
  else paths

def intendedAtMetadata (h : Handle) : Sha1Hash → Option Text :=
  match s.magnetHashes.lookup h, s.torrent h with
  | some oldHash, some t => rekeyPaths s.torrentIntendedPath oldHash t.hashes.best
  | _, _ => s.torrentIntendedPath

def intendedAtCommit (hash : Sha1Hash) (savePath : Text) : Sha1Hash → Option Text :=
  match s.staged.lookup hash with
  | none => s.torrentIntendedPath
  | some st =>
      match s.torrent st.handle with
      | none => s.intendUnlessDuplicate st.uri.hashes savePath
      | some t =>
          if t.info.isSome then rekeyPaths (s.intend hash savePath) hash t.hashes.best
          else s.intend hash savePath

def intendedAfter : Event → Sha1Hash → Option Text
  | .addTorrent ti savePath _ => s.intendUnlessDuplicate ti.hashes savePath
  | .addTorrentInfo ti savePath _ => s.intendUnlessDuplicate ti.hashes savePath
  | .addMagnet uri savePath _ _ _ => s.intendUnlessDuplicate uri.hashes savePath
  | .addMagnetWith uri savePath _ _ _ => s.intendUnlessDuplicate uri.hashes savePath
  | .commitStaged hash savePath _ _ _ => s.intendedAtCommit hash savePath
  | .processAlerts _ =>
      match s.alerts.head? with
      | some (.metadataReceived h) =>
          if s.isStaged h = false ∧ s.valid h then s.intendedAtMetadata h else s.torrentIntendedPath
      | _ => s.torrentIntendedPath
  | .restart _ => fun _ => none
  | _ => s.torrentIntendedPath

-- A magnet that waits in the Add window is moved out of its scratch folder.
def movingAfter : Event → Handle → Option Text
  | .commitStaged hash savePath _ _ _ =>
      match s.staged.lookup hash with
      | none => s.moving
      | some st =>
          if s.valid st.handle then
            Function.update s.moving st.handle (some (s.downloadPath savePath))
          else s.moving
  | .storageMoved h _ => Function.update s.moving h none
  | .restart _ => fun _ => none
  | _ => s.moving

end Intended

section Choice

-- The torrent that libtorrent gives for an add may be one it has.
def addedHash (ih : InfoHashes) : Sha1Hash := ((s.session.find ih).map (·.hashes.best)).getD ih.best

def choose (best : Sha1Hash) (savePath : Text) : Sha1Hash → Choice :=
  Function.update s.choice best ⟨some savePath, s.tempPath.isSome⟩

def chooseAtAdd (ih : InfoHashes) (savePath : Text) (fails : Bool) : Sha1Hash → Choice :=
  if s.isDuplicate ih ∨ fails then s.choice else s.choose (s.addedHash ih) savePath

def choiceAfter : Event → Sha1Hash → Choice
  | .addTorrent ti savePath fails => s.chooseAtAdd ti.hashes savePath fails
  | .addTorrentInfo ti savePath fails => s.chooseAtAdd ti.hashes savePath fails
  | .addMagnet uri savePath _ fails _ => s.chooseAtAdd uri.hashes savePath fails
  | .addMagnetWith uri savePath _ fails _ => s.chooseAtAdd uri.hashes savePath fails
  | .commitStaged hash savePath _ fails _ =>
      match s.staged.lookup hash with
      | none => s.choice
      | some st =>
          match s.torrent st.handle with
          | none => s.chooseAtAdd st.uri.hashes savePath fails
          | some t => s.choose t.hashes.best savePath
  | .importFromQBittorrent file defaultSavePath fails =>
      if file.refused s.toState ∨ fails then s.choice
      else
        Function.update s.choice (s.addedHash (file.params defaultSavePath).hashes)
          ⟨some (file.params defaultSavePath).savePath, false⟩
  | .metadataArrives h ti =>
      match s.torrent h with
      | none => s.choice
      | some t => Function.update s.choice ti.hashes.best (s.choice t.hashes.best)
  | .restart _ => fun hash => { s.choice hash with waits := false }
  | _ => s.choice

end Choice

section Finished

def destination (hash : Sha1Hash) : Text :=
  finishMoveDestination ((s.torrentIntendedPath hash).getD []) s.autoMoveEnabled s.autoMovePath

-- The part about the folder. The record is taken.
def onTorrentFinished (h : Handle) (totalPayloadDownload : Int) : Filing :=
  match s.torrent h with
  | none => s
  | some t =>
      if downloadedPayloadThisSession totalPayloadDownload then
        let hash := t.hashes.best
        let dest := s.destination hash
        { s with
          torrentIntendedPath := Function.update s.torrentIntendedPath hash none
          moving := if dest ≠ [] then Function.update s.moving h (some dest) else s.moving
          choice := Function.update s.choice hash { s.choice hash with waits := false } }
      else s

end Finished

end Filing

section Machine

inductive Call where
  | session (e : Event)
  | setAutoMove (enabled : Bool) (path : Text)
  | torrentFinished (h : Handle) (totalPayloadDownload : Int)

namespace Filing

variable (s : Filing)

-- Its metadata came before a torrent's end, and alerts are processed in order.
def metadataPending (h : Handle) : Bool :=
  s.alerts.any fun
    | .metadataReceived g => g = h
    | _ => false

-- libtorrent moves a torrent where it was asked to.
def moves : Event → Bool
  | .storageMoved h path => s.moving h = some path
  | _ => true

def start : Filing where
  toState := init
  torrentIntendedPath := fun _ => none
  autoMoveEnabled := false
  autoMovePath := []
  moving := fun _ => none
  choice := fun _ => ⟨none, false⟩

def follow (e : Event) (t : State) : Filing :=
  { s with
    toState := t
    torrentIntendedPath := s.intendedAfter e
    moving := s.movingAfter e
    choice := s.choiceAfter e }

def step (rules : Rules) : Call → Option Filing
  | .session e =>
      if s.moves e then (Library.next rules s.toState e).map fun r => s.follow e r.1 else none
  | .setAutoMove enabled path => some { s with autoMoveEnabled := enabled, autoMovePath := path }
  | .torrentFinished h total =>
      if s.unloaded ≠ [] ∨ s.hasMetadata h = false ∨ s.metadataPending h then none
      else some (if s.isStaged h then s else s.onTorrentFinished h total)

end Filing

def filing (rules : Rules) : Machine Filing Call Empty where
  init := .start
  next s call := (s.step rules call).map fun s => (s, [])

end Machine

section Property

namespace Filing

variable (s : Filing)

-- Where a torrent's data is, once the moves asked for are done.
def folder (t : Torrent) : Text := (s.moving t.handle).getD t.savePath

-- A torrent that waits goes to the folder chosen, and any other is there and stays.
def Lands (h : Handle) : Prop :=
  ∀ t, s.torrent h = some t →
    if (s.choice t.hashes.best).waits then
      some (s.destination t.hashes.best) = (s.choice t.hashes.best).path
    else
      s.destination t.hashes.best = [] ∧ some (s.folder t) = (s.choice t.hashes.best).path

-- The record under `key` and the folder say what is so of the torrent known by `best`.
def Settled (key best : Sha1Hash) (folder : Text) : Prop :=
  if (s.choice best).waits then
    ∃ path, (s.choice best).path = some path ∧ path ≠ [] ∧ s.torrentIntendedPath key = some path
  else s.torrentIntendedPath key = none ∧ (s.choice best).path = some folder

-- An add with a temp folder names a folder, and one without finds no record of an older add.
def AddsClean (ih : InfoHashes) (savePath : Text) (fails : Bool) : Prop :=
  s.isDuplicate ih ∨
    if s.tempPath.isSome then savePath ≠ [] ∧ s.session.find ih = none
    else fails ∨ s.torrentIntendedPath ih.best = none

def CommitsClean (hash : Sha1Hash) (savePath : Text) (fails : Bool) : Prop :=
  ∀ st, s.staged.lookup hash = some st →
    match s.torrent st.handle with
    | none => s.AddsClean st.uri.hashes savePath fails
    | some t =>
        if s.tempPath.isSome then savePath ≠ []
        else s.torrentIntendedPath hash = none ∧ s.torrentIntendedPath t.hashes.best = none

-- No record of another torrent, or of another add, is found in a torrent's place.
def Clean : Event → Prop
  | .addTorrent ti savePath fails => s.AddsClean ti.hashes savePath fails
  | .addTorrentInfo ti savePath fails => s.AddsClean ti.hashes savePath fails
  | .addMagnet uri savePath _ fails _ => s.AddsClean uri.hashes savePath fails
  | .addMagnetWith uri savePath _ fails _ => s.AddsClean uri.hashes savePath fails
  | .commitStaged hash savePath _ fails _ => s.CommitsClean hash savePath fails
  | .restoreFromResumeData p fails => fails ∨ s.Settled p.hashes.best p.hashes.best p.savePath
  | .restoreRemoved hash fails =>
      ∀ p, s.removedDir.lookup hash = some p →
        fails ∨ s.Settled p.hashes.best p.hashes.best p.savePath
  | .importFromQBittorrent file defaultSavePath fails =>
      file.refused s.toState ∨ fails ∨
        s.torrentIntendedPath (file.params defaultSavePath).hashes.best = none
  | .loadResumeData fails _ =>
      ∀ hash p, s.unloaded.head? = some hash → s.resumeDir.lookup hash = some p →
        fails ∨ s.Settled p.hashes.best p.hashes.best p.savePath
  | .processAlerts _ =>
      ∀ h, s.alerts.head? = some (.metadataReceived h) → h ∈ s.torrents →
        ∀ oldHash t, s.magnetHashes.lookup h = some oldHash → s.torrent h = some t →
          t.hashes.best = oldHash ∨ (s.torrentIntendedPath oldHash).isSome ∨
            s.torrentIntendedPath t.hashes.best = none
  | .metadataArrives h ti =>
      h ∈ s.torrents → s.magnetHashes.lookup h = none → ∀ t, s.torrent h = some t →
        ti.hashes.best = t.hashes.best ∨
          (s.choice t.hashes.best).waits = false ∧ s.torrentIntendedPath ti.hashes.best = none
  | _ => True

def Careful : Call → Prop
  | .session e => AddsNew s.toState e ∧ AddsUnheld s.toState e ∧ s.Clean e
  | .setAutoMove _ _ => True
  | .torrentFinished h _ => s.autoMoveEnabled = false ∨ s.autoMovePath = [] ∨
      ∀ t, s.torrent h = some t → (s.choice t.hashes.best).waits

end Filing

end Property

end BATorrent.Library
