import BATorrent.Lib.RowChange
import BATorrent.Torrent.Library.Once

namespace BATorrent.RowCommand

open Lib Lib.FilePath Lib.RowChange
open Library (Handle Text State Torrent)

section Commands

-- The mutations that name a torrent by its row, with the rest of their arguments.
inductive Method where
  | pauseTorrent
  | resumeTorrent
  | unmarkCompleted
  | markCompleted
  | stopSeedingTorrent
  | forceRecheck
  | forceReannounce
  | removeTorrent (del perm : Bool)
  | setFilePriority (fi pr : Int)
  | setTorrentQueuePosition (p : Int)
  | setSequentialDownload (seq : Bool)
  | prioritizeFilePieceBoundaries (fi : Int)
  | renameFile (fi : Int) (p : Text)
  | extractTorrent (pw : Text)
  | setTorrentUploadLimit (k : Int)
  | setTorrentDownloadLimit (k : Int)
  | setTorrentTags (t : List Text)
  | setTorrentStopAfterDownload (v : Int)
  | setTorrentMaxSeedSeconds (s : Int)
  | setTorrentCategory (c : Text)
  | setSuperSeeding (on : Bool)
  | setForceStart (on : Bool)
  | moveStorage (p : Text)
  | addTracker (u : Text)
  | replaceTrackers (u : List Text)

-- What a snapshot shows of the rows. `torrents` and `version`, whose torrents these are and how many
-- changes the list had seen, are kept for the statements alone.
structure Snapshot where
  hashes : List (Option Sha1Hash)
  torrents : List Handle
  version : Nat

-- A request in flight. `snap` is what the UI had when it was issued, for the statements alone.
structure Command where
  row : Nat
  method : Method
  snap : Snapshot

-- A command takes effect on a torrent.
structure Effect where
  command : Command
  torrent : Torrent

end Commands

section Engine

variable (s : State) (row : Nat)

def hashAt : Option Sha1Hash := (s.torrents[row]?).bind s.torrentHash

-- A row past the end, or of a handle that is not valid any more, is no torrent's.
def torrentAt : Option Torrent := (s.torrents[row]?).bind s.torrent

-- The torrent that a call takes effect on, if there is one.
def Method.reaches : Method → Option Torrent
  | .setTorrentTags _ | .setTorrentStopAfterDownload _ | .setTorrentMaxSeedSeconds _
  | .setTorrentCategory _ | .setForceStart _ =>
      if (hashAt s row).isSome then torrentAt s row else none
  | .unmarkCompleted | .markCompleted => (torrentAt s row).filter (·.info.isSome)
  | .prioritizeFilePieceBoundaries fi =>
      (torrentAt s row).filter (·.info.any fun ti => 0 ≤ fi ∧ fi < ti.files.length)
  | .setTorrentQueuePosition p =>
      if 0 ≤ p ∧ p < s.torrents.length ∧ p ≠ row then torrentAt s row else none
  | _ => torrentAt s row

-- The calls that the list or the saved torrents have a part in.
def Method.event : Method → Option Library.Event
  | .pauseTorrent => some (.pauseTorrent row)
  | .resumeTorrent => some (.resumeTorrent row)
  | .removeTorrent del perm => some (.removeTorrent row del perm)
  | .setTorrentQueuePosition p =>
      if 0 ≤ p then some (.setTorrentQueuePosition row p.toNat) else none
  | _ => none

-- What an event does to the rows that were there.
def change : Library.Event → List RowChange
  | .removeTorrent i _ _ => if i < s.torrents.length then [.removed i] else []
  | .setTorrentQueuePosition i position =>
      if i < s.torrents.length ∧ position < s.torrents.length then [.moved i position] else []
  | .restart _ => [.cleared]
  | _ => []

end Engine

section Machine

-- The engine's process and the UI's, with what is in flight each way. `log` are the changes of the
-- list so far, newest first, for the statements alone.
structure System where
  engine : State
  connected : Bool
  toEngine : List Command
  toUi : List Snapshot
  snap : Snapshot
  log : List RowChange

-- A call waits for its reply for a while only, and what runs meanwhile issues calls of its own, so
-- the UI may issue a command at any time.
inductive Event where
  | engine (e : Library.Event)
  | connect
  | pushSnapshot
  | receive
  | issue (row : Nat) (method : Method)
  | dispatch

namespace System

variable (s : System)

def start : System where
  engine := Library.init
  connected := false
  toEngine := []
  toUi := []
  snap := ⟨[], [], 0⟩
  log := []

def pushed : Snapshot where
  hashes := s.engine.torrents.map s.engine.torrentHash
  torrents := s.engine.torrents
  version := s.log.length

-- The changes since a snapshot was pushed.
def since (snap : Snapshot) : List RowChange := s.log.take (s.log.length - snap.version)

-- An engine that dies takes what is in flight with it.
def react (e : Library.Event) (engine : State) : System :=
  match e with
  | .restart _ =>
      { s with
        engine := engine
        connected := false
        toEngine := []
        toUi := []
        log := change s.engine e ++ s.log }
  | _ => { s with engine := engine, log := change s.engine e ++ s.log }

def handle (rules : Rules) (e : Library.Event) : Option System :=
  (Library.next rules s.engine e).map fun r => s.react e r.1

def dispatched (c : Command) : List Effect :=
  ((c.method.reaches s.engine c.row).map fun t => ⟨c, t⟩).toList

def dispatch (rules : Rules) (c : Command) : Option System :=
  match c.method.event c.row with
  | some e => s.handle rules e
  | none => some s

-- The engine listens once its torrents are loaded.
def next (rules : Rules) : Event → Option (System × List Effect)
  | .engine e => (s.handle rules e).map fun s' => (s', [])
  | .connect =>
      if s.connected ∨ s.engine.unloaded ≠ [] then none
      else some ({ s with connected := true, toEngine := [], toUi := [s.pushed] }, [])
  | .pushSnapshot =>
      if s.connected ∧ s.engine.unloaded = [] then
        some ({ s with toUi := s.toUi ++ [s.pushed] }, [])
      else none
  | .receive =>
      match s.toUi with
      | [] => none
      | snap :: rest => some ({ s with toUi := rest, snap := snap }, [])
  | .issue row method =>
      if s.connected ∧ row < s.snap.hashes.length then
        some ({ s with toEngine := s.toEngine ++ [⟨row, method, s.snap⟩] }, [])
      else none
  | .dispatch =>
      match s.toEngine with
      | [] => none
      | c :: rest =>
          if s.engine.unloaded ≠ [] then none
          else (dispatch { s with toEngine := rest } rules c).map fun s' => (s', s.dispatched c)

end System

def machine (rules : Rules) : Machine System Event Effect where
  init := .start
  next s e := s.next rules e

end Machine

section Property

namespace System

variable (s : System)

-- The torrent is the one that the snapshot shows at the row: its handle has been there since, or
-- it is known by the hash shown.
def Shows (snap : Snapshot) (row : Nat) (t : Torrent) : Prop :=
  snap.torrents[row]? = some t.handle ∧ .cleared ∉ s.since snap ∨
    (s.engine.torrentHash t.handle).isSome ∧
      snap.hashes[row]? = some (s.engine.torrentHash t.handle)

instance (snap : Snapshot) (row : Nat) (t : Torrent) : Decidable (s.Shows snap row t) :=
  inferInstanceAs (Decidable (_ ∨ _))

-- No change since the snapshot put another of its rows in the place of this one.
def Steady (c : Command) : Prop :=
  s.engine.torrents.length ≤ c.row ∨ originOf (s.since c.snap) c.row = some c.row ∨
    (∀ k, originOf (s.since c.snap) c.row = some k → c.snap.torrents.length ≤ k) ∧
      (hashAt s.engine c.row).isSome ∧ c.snap.hashes[c.row]? = some (hashAt s.engine c.row)

def Careful : Event → Prop
  | .dispatch => ∀ c, s.toEngine.head? = some c → s.Steady c
  | _ => True

end System

end Property

end BATorrent.RowCommand
