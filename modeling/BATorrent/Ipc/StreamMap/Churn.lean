import BATorrent.Lib.Rows
import BATorrent.Ipc.StreamMap.InFlight

namespace BATorrent.StreamChurn

open Lib
open Lib.DataStream
open Protocol (Frame Kind takeFrame writeFrame drainFrames)
open StreamMap (Content Torrent StreamGeo Ui Activation colon geoKey isInt32 replyFrame
  requestFrame eventFrame pieceFrame snapshotFrame readRequest readRow putRow putVariantMap
  streamGeometryName pieceFinishedName snapshotName torrentRemovedName)

section Engine

-- A torrent of the list, under the handle that libtorrent gave it. Its hash is hexadecimal.
structure Entry where
  handle : Nat
  torrent : Torrent
  plain : colon ∉ torrent.hash

def Entry.hash (x : Entry) : QString := x.torrent.hash

def Entry.withContent (x : Entry) (c : Content) : Entry :=
  { x with torrent := { x.torrent with content := some c } }

def Entry.stream (x : Entry) : Entry := { x with torrent := x.torrent.stream }

-- A recheck finds what it finds: it may take pieces away.
def recheckedContent (c : Content) (bits : List Bool) (hbits : bits.length = c.info.numPieces) :
    Content := { c with have_ := bits, length_have := hbits }

structure Task where
  id : UInt32
  handle : Nat
  content : Content
  file : Nat × Nat
  bits : List Bool

-- The alerts name handles, and outlive their torrents.
structure Engine where
  torrents : List Entry
  nextHandle : Nat
  alerts : List (Nat × Nat)
  buf : Bytes
  task : Option Task

namespace Engine

def hashes (e : Engine) : List QString := e.torrents.map Entry.hash

def entry (e : Engine) (handle : Nat) : Option Entry := e.torrents.find? (·.handle = handle)

def modify (e : Engine) (handle : Nat) (f : Entry → Entry) : Engine :=
  { e with torrents := e.torrents.map fun x => if x.handle = handle then f x else x }

-- The row and the file a request names, if the torrent can be streamed.
def find (e : Engine) (row file : Int) : Option (Entry × Content × (Nat × Nat)) :=
  if 0 ≤ row ∧ 0 ≤ file then
    e.torrents[row.toNat]?.bind fun x =>
      x.torrent.content.bind fun c => c.info.files[file.toNat]?.map fun f => (x, c, f)
  else none

def streamGeometry (e : Engine) (id : UInt32) (row file : Int) : Engine × Option Frame :=
  match e.find row file with
  | some (x, c, f) => ({ e.modify x.handle Entry.stream with task := some ⟨id, x.handle, c, f, []⟩ }, none)
  | none => (e, some (replyFrame id (putVariantMap [])))

def dispatch (e : Engine) (f : Frame) (result : Bytes) : Engine × Option Frame :=
  if f.kind = Kind.ping.code then (e, some ⟨Kind.pong.code, []⟩)
  else if f.kind = Kind.request.code then
    let r := readRequest f.payload
    if r.2.1 = streamGeometryName then
      let at_ := readRow r.2.2
      e.streamGeometry r.1 at_.1 at_.2
    else (e, some (replyFrame r.1 result))
  else (e, none)

end Engine

def Task.geometry (k : Task) : StreamGeo where
  pieceSize := k.content.info.pieceLength
  fileOffset := k.file.1
  fileSize := k.file.2
  have_ := k.bits

def removedFrame (row : Nat) : Frame := eventFrame torrentRemovedName (putInt 4 row)

def helloFrame : Frame := ⟨Kind.hello.code, []⟩

end Engine

structure State where
  engine : Engine
  ui : Ui
  toUi : Bytes
  toEngine : Bytes

-- A row is removed by the engine's thread alone, which also serves the requests. A new engine has
-- the torrents of the resume files, and the UI keeps what it has.
inductive Event where
  | pieceFinishes (handle piece : Nat)
  | recheck (handle : Nat) (bits : List Bool)
  | metadataArrives (handle : Nat) (c : Content)
  | addTorrent (t : Torrent) (plain : colon ∉ t.hash)
  | removeTorrent (row : Nat)
  | moveTorrent (row position : Nat)
  | popAlert
  | sendEvent (name : QString) (args : Bytes)
  | pushSnapshot (rest : Bytes)
  | engineReads (n : Nat)
  | serve (result : Bytes)
  | readPiece
  | respawn (torrents : List Entry) (nextHandle : Nat)
  | request (method : QString) (args : Bytes)
  | streamGeo (row file : Int)
  | pump (n : Nat)
  | drain
  | handled
  | returns

abbrev Out := Empty

namespace State

def toUiFrame (s : State) (f : Option Frame) : State :=
  match f with
  | some f => { s with toUi := s.toUi ++ writeFrame f }
  | none => s

def ask (s : State) (method : QString) (args : Bytes) (file : Option (QString × Int)) : State :=
  { s with
    ui := s.ui.request file
    toEngine := s.toEngine ++ writeFrame (requestFrame s.ui.nextId method args) }

def pieceFinishes (s : State) (handle piece : Nat) : Option State :=
  (s.engine.entry handle).bind fun x =>
    x.torrent.content.bind fun c =>
      if c.have_[piece]? = some false then
        some { s with
          engine := { s.engine.modify handle (·.withContent (c.finish piece)) with
            alerts := s.engine.alerts ++ [(handle, piece)] } }
      else none

def recheck (s : State) (handle : Nat) (bits : List Bool) : Option State :=
  (s.engine.entry handle).bind fun x =>
    x.torrent.content.bind fun c =>
      if hbits : bits.length = c.info.numPieces then
        some { s with
          engine := s.engine.modify handle (·.withContent (recheckedContent c bits hbits)) }
      else none

def metadataArrives (s : State) (handle : Nat) (c : Content) : Option State :=
  (s.engine.entry handle).bind fun x =>
    if x.torrent.content.isNone then
      some { s with engine := s.engine.modify handle (·.withContent c) }
    else none

-- A hash is in the session once, and a handle is never given again.
def addTorrent (s : State) (t : Torrent) (plain : colon ∉ t.hash) : Option State :=
  if t.streamed = none ∧ t.hash ∉ s.engine.hashes then
    some { s with
      engine := { s.engine with
        torrents := s.engine.torrents ++ [⟨s.engine.nextHandle, t, plain⟩]
        nextHandle := s.engine.nextHandle + 1 } }
  else none

def removeTorrent (s : State) (row : Nat) : Option State :=
  if row < s.engine.torrents.length then
    some ({ s with engine := { s.engine with torrents := s.engine.torrents.eraseIdx row } }.toUiFrame
      (some (removedFrame row)))
  else none

def moveTorrent (s : State) (row position : Nat) : Option State :=
  if hrows : row < s.engine.torrents.length ∧ position < s.engine.torrents.length ∧ row ≠ position then
    some { s with
      engine := { s.engine with torrents := moveRow s.engine.torrents row position hrows.1 } }
  else none

def popAlert (s : State) : Option State :=
  match s.engine.alerts with
  | [] => none
  | (handle, piece) :: rest =>
      let s := { s with engine := { s.engine with alerts := rest } }
      some (s.toUiFrame (((s.engine.entry handle).bind (·.torrent.streamed)).map (pieceFrame · piece)))

def engineReads (s : State) (n : Nat) : State :=
  { s with
    engine := { s.engine with buf := s.engine.buf ++ s.toEngine.take n }
    toEngine := s.toEngine.drop n }

def serve (s : State) (result : Bytes) : Option State :=
  match takeFrame s.engine.buf with
  | .wait => none
  | .reset => some { s with engine := { s.engine with buf := [] } }
  | .empty rest => some { s with engine := { s.engine with buf := rest } }
  | .frame f rest =>
      let r := ({ s.engine with buf := rest } : Engine).dispatch f result
      some ({ s with engine := r.1 }.toUiFrame r.2)

-- One call of have_piece, or the reply after the last one.
def readPiece (s : State) (k : Task) : State :=
  match (s.engine.entry k.handle).bind (·.torrent.content) with
  | some c =>
      match c.have_[k.bits.length]? with
      | some b => { s with engine := { s.engine with task := some { k with bits := k.bits ++ [b] } } }
      | none =>
          { s with engine := { s.engine with task := none } }.toUiFrame
            (some (replyFrame k.id (putVariantMap k.geometry.toMap)))
  | none => { s with engine := { s.engine with task := none } }

-- What was on its way is lost. The maps, the replies and the unread bytes of the UI are kept.
def respawn (s : State) (torrents : List Entry) (nextHandle : Nat) : Option State :=
  if (torrents.map Entry.hash).Nodup ∧ (torrents.map Entry.handle).Nodup ∧
      ∀ x ∈ torrents, x.handle < nextHandle ∧ x.torrent.streamed = none then
    some { s with
      engine := ⟨torrents, nextHandle, [], [], none⟩
      toUi := writeFrame helloFrame
      toEngine := [] }
  else none

def streamGeo (s : State) (row file : Int) : State :=
  let hash := s.ui.torrentHashAt row
  if hash = [] ∨ (s.ui.streamGeo (geoKey hash file)).isSome then s
  else s.ask streamGeometryName (putRow row file) (some (hash, file))

def pump (s : State) (n : Nat) : State :=
  { s with
    ui := { s.ui with buf := s.ui.buf ++ s.toUi.take n, stack := .drain :: s.ui.stack }
    toUi := s.toUi.drop n }

def drain (s : State) (below : List Activation) : State :=
  match takeFrame s.ui.buf with
  | .wait => { s with ui := { s.ui with stack := below } }
  | .reset => { s with ui := { s.ui with buf := [], stack := below } }
  | .empty rest => { s with ui := { s.ui with buf := rest } }
  | .frame f rest => { s with ui := ({ s.ui with buf := rest } : Ui).handleFrame f }

def returns (s : State) (id : UInt32) (file : Option (QString × Int)) (below : List Activation) :
    State :=
  let blob := (s.ui.replies.lookup id).getD []
  let ui := { s.ui with replies := s.ui.replies.filter (fun kept => kept.1 ≠ id), stack := below }
  { s with ui := ui.returned file blob }

end State

def step (s : State) : Event → Option State
  | .pieceFinishes handle piece => s.pieceFinishes handle piece
  | .recheck handle bits => s.recheck handle bits
  | .metadataArrives handle c => s.metadataArrives handle c
  | .addTorrent t plain => if s.engine.task.isNone then s.addTorrent t plain else none
  | .removeTorrent row => if s.engine.task.isNone then s.removeTorrent row else none
  | .moveTorrent row position => if s.engine.task.isNone then s.moveTorrent row position else none
  | .popAlert => if s.engine.task.isNone then s.popAlert else none
  | .sendEvent name args =>
      if s.engine.task.isNone ∧ name ≠ pieceFinishedName ∧ name ≠ snapshotName ∧
          name ≠ torrentRemovedName then
        some (s.toUiFrame (some (eventFrame name args)))
      else none
  | .pushSnapshot rest =>
      if s.engine.task.isNone then some (s.toUiFrame (some (snapshotFrame s.engine.hashes rest)))
      else none
  | .engineReads n => some (s.engineReads n)
  | .serve result => if s.engine.task.isNone then s.serve result else none
  | .readPiece => s.engine.task.map s.readPiece
  | .respawn torrents nextHandle => if s.ui.free then s.respawn torrents nextHandle else none
  | .request method args => if s.ui.free then some (s.ask method args none) else none
  | .streamGeo row file =>
      if s.ui.free ∧ isInt32 row ∧ isInt32 file then some (s.streamGeo row file) else none
  | .pump n => if s.ui.mayPump then some (s.pump n) else none
  | .drain =>
      match s.ui.stack with
      | .drain :: below => some (s.drain below)
      | _ => none
  | .handled =>
      match s.ui.stack with
      | .handler :: below => some { s with ui := { s.ui with stack := below } }
      | _ => none
  | .returns =>
      match s.ui.stack with
      | .wait id file :: below => some (s.returns id file below)
      | _ => none

def init : State where
  engine := ⟨[], 0, [], [], none⟩
  ui := StreamMap.init.ui
  toUi := []
  toEngine := []

def machine : Machine State Event Out where
  init := init
  next s e := (step s e).map fun s' => (s', [])

end BATorrent.StreamChurn
