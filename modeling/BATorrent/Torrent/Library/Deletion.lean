import BATorrent.Torrent.Library.Once

namespace BATorrent.Library

open Lib Lib.FilePath SessionResume State

section Property

-- Where a torrent's files are.
def Params.locations (rules : Rules) (p : Params) : List Text :=
  p.names.map (filePath rules (folder p.savePath))

namespace State

variable (rules : Rules) (s : State)

def filesAt (h : Handle) : List Text :=
  match s.torrent h with
  | some t => t.locations rules
  | none => []

def files : List Text := s.torrents.flatMap (s.filesAt rules)

-- The targets of the timers, and those that the next start tries again.
def waiting : List Text := s.timers.flatMap Scheduled.targets ++ s.pendingTrash ++ s.pendingDelete

-- The torrent that libtorrent gives for an add.
def given (p : Params) : Params :=
  match s.session.find p.hashes with
  | some t => t.toParams
  | none => p

def givenUnless (refused : Prop) [Decidable refused] (p : Params) : List Text :=
  if refused then [] else (s.given p).locations rules

-- The files of a row's torrent once it is changed.
def changed (h : Handle) (f : Torrent → Params) : List Text :=
  if h ∈ s.torrents then
    match s.torrent h with
    | some t => (f t).locations rules
    | none => []
  else []

-- The files that an event brings to the list: a torrent's that comes in, or that is renamed or moved.
def arriving : Event → List Text
  | .addTorrent ti savePath fails =>
      s.givenUnless rules (s.isDuplicate ti.hashes = true ∨ fails = true)
        (infoParams ti (s.downloadPath savePath) (addedNames s.contentLayout ti))
  | .addTorrentInfo ti savePath fails =>
      s.givenUnless rules (s.isDuplicate ti.hashes = true ∨ fails = true)
        (infoParams ti (s.downloadPath savePath) (addedNames s.contentLayout ti))
  | .addMagnet uri savePath coverHint fails _ =>
      s.givenUnless rules (s.isDuplicate uri.hashes = true ∨ fails = true)
        (magnetParams uri (s.downloadPath savePath) (magnetName uri coverHint))
  | .addMagnetWith uri savePath _ fails _ =>
      s.givenUnless rules (s.isDuplicate uri.hashes = true ∨ fails = true)
        (magnetParams uri (s.downloadPath savePath) (magnetName uri []))
  | .commitStaged hash savePath _ fails _ =>
      match s.staged.lookup hash with
      | none => []
      | some st =>
          if s.valid st.handle = true then s.filesAt rules st.handle
          else
            s.givenUnless rules (s.isDuplicate st.uri.hashes = true ∨ fails = true)
              (magnetParams st.uri (s.downloadPath savePath) (magnetName st.uri []))
  | .restoreFromResumeData p fails => s.givenUnless rules (fails = true) p
  | .restoreRemoved hash fails =>
      match s.removedDir.lookup hash with
      | none => []
      | some p => s.givenUnless rules (fails = true) p
  | .importFromQBittorrent file defaultSavePath fails =>
      s.givenUnless rules (file.refused s = true ∨ fails = true) (file.params defaultSavePath)
  | .loadResumeData fails disk =>
      match s.unloaded.head?.bind fun hash => s.resumeDir.lookup hash with
      | none => []
      | some p => s.givenUnless rules (fails = true) (reconcile rules disk p)
  | .metadataArrives h ti => s.changed rules h fun t => (t.received ti).toParams
  | .fileRenamed h file name =>
      s.changed rules h fun t => { t.toParams with names := t.names.set file name }
  | .storageMoved h path => s.changed rules h fun t => { t.toParams with savePath := path }
  | _ => []

-- The targets of a removal with its files.
def scheduled : Event → List Text
  | .removeTorrent i true _ =>
      match (s.torrents[i]?).bind s.torrent with
      | some t => s.removalTargets rules t
      | none => []
  | _ => []

-- The files of the rows that are there after the event as well.
def staying : Event → List Text
  | .removeTorrent i _ _ => (s.torrents.eraseIdx i).flatMap (s.filesAt rules)
  | _ => s.files rules

end State

-- `under` says of a path and a file that the file is there or below, on this file system.
structure Spares (under : Text → Text → Prop) (rules : Rules) (s : State) (e : Event) : Prop where
  arriving : ∀ f ∈ s.arriving rules e, ∀ p ∈ s.waiting, ¬ under p f
  staying : ∀ f ∈ s.staying rules e, ∀ p ∈ s.scheduled rules e, ¬ under p f

-- No target that waits has a file of the list's torrents.
def Clear (under : Text → Text → Prop) (rules : Rules) (s : State) : Prop :=
  ∀ f ∈ s.files rules, ∀ p ∈ s.waiting, ¬ under p f

end Property

end BATorrent.Library
