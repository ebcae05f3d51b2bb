import BATorrent.Ipc.StreamMap.Messages
import BATorrent.Lib.Run

namespace BATorrent.StreamMap

open Lib
open Lib.DataStream
open Protocol (Frame Kind takeFrame writeFrame drainFrames)

section Engine

structure Info where
  pieceLength : Nat
  numPieces : Nat
  files : List (Nat × Nat)
  pieceLength_lt : pieceLength < 2 ^ 63
  numPieces_lt : numPieces < 2 ^ 28
  files_lt : ∀ f ∈ files, f.1 < 2 ^ 63 ∧ f.2 < 2 ^ 63

-- What is known of a torrent once its metadata is there.
structure Content where
  info : Info
  have_ : List Bool
  length_have : have_.length = info.numPieces

def Content.finish (c : Content) (piece : Nat) : Content where
  info := c.info
  have_ := c.have_.set piece true
  length_have := by rw [List.length_set, c.length_have]

-- `streamed` is the hash that its pieces are announced under, once a player reads it.
structure Torrent where
  hash : QString
  content : Option Content
  streamed : Option QString
  hash_short : hash.length ≤ 64

-- A call of streamGeometry that is reading the pieces one after the other.
structure Task where
  id : UInt32
  row : Nat
  content : Content
  file : Nat × Nat
  bits : List Bool

structure Engine where
  torrents : List Torrent
  alerts : List (Nat × Nat)
  buf : Bytes
  task : Option Task

def Engine.hashes (e : Engine) : List QString := e.torrents.map Torrent.hash

def Engine.setTorrent (e : Engine) (row : Nat) (t : Torrent) : Engine :=
  { e with torrents := e.torrents.set row t }

def Torrent.stream (t : Torrent) : Torrent := { t with streamed := some (t.streamed.getD t.hash) }

def pieceFrame (hash : QString) (piece : Nat) : Frame :=
  eventFrame pieceFinishedName (putPiece hash piece)

def snapshotFrame (hashes : List QString) (rest : Bytes) : Frame :=
  eventFrame snapshotName (putStringList hashes ++ rest)

def Task.geometry (k : Task) : StreamGeo where
  pieceSize := k.content.info.pieceLength
  fileOffset := k.file.1
  fileSize := k.file.2
  have_ := k.bits

-- The row and the file a request names, if the torrent can be streamed.
def Engine.find (e : Engine) (row file : Int) : Option (Torrent × Content × (Nat × Nat)) :=
  if 0 ≤ row ∧ 0 ≤ file then
    e.torrents[row.toNat]?.bind fun t =>
      t.content.bind fun c => c.info.files[file.toNat]?.map fun f => (t, c, f)
  else none

def Engine.streamGeometry (e : Engine) (id : UInt32) (row file : Int) : Engine × Option Frame :=
  match e.find row file with
  | some (t, c, f) =>
      ({ e.setTorrent row.toNat t.stream with task := some ⟨id, row.toNat, c, f, []⟩ }, none)
  | none => (e, some (replyFrame id (putVariantMap [])))

-- `result` is what the other methods answer.
def Engine.dispatch (e : Engine) (f : Frame) (result : Bytes) : Engine × Option Frame :=
  if f.kind = Kind.ping.code then (e, some ⟨Kind.pong.code, []⟩)
  else if f.kind = Kind.request.code then
    let r := readRequest f.payload
    if r.2.1 = streamGeometryName then
      let at_ := readRow r.2.2
      e.streamGeometry r.1 at_.1 at_.2
    else (e, some (replyFrame r.1 result))
  else (e, none)

end Engine

section Ui

-- What the UI thread is in the middle of, innermost first: the loop over the buffer, the slot
-- of a signal, or a request that waits, for a file's map or for something else.
inductive Activation where
  | drain
  | handler
  | wait (id : UInt32) (file : Option (QString × Int))
deriving DecidableEq

structure Ui where
  hashes : List QString
  streamGeo : QString → Option StreamGeo
  replies : List (UInt32 × Bytes)
  nextId : UInt32
  buf : Bytes
  stack : List Activation

def geoKey (hash : QString) (file : Int) : QString := hash ++ colon :: number file

def StreamGeo.setBit (g : StreamGeo) (piece : Int) : StreamGeo :=
  if 0 ≤ piece ∧ piece < g.have_.length then { g with have_ := g.have_.set piece.toNat true } else g

namespace Ui

def torrentHashAt (u : Ui) (row : Int) : QString :=
  if 0 ≤ row then (u.hashes[row.toNat]?).getD [] else []

-- Slots and the event loop may call, a loop over the buffer may not.
def free (u : Ui) : Bool :=
  match u.stack with
  | [] => true
  | .handler :: _ => true
  | _ => false

-- The socket is read by the event loop, or by a request that has no reply yet.
def mayPump (u : Ui) : Bool :=
  match u.stack with
  | .drain :: _ => false
  | .wait id _ :: _ => (u.replies.lookup id).isNone
  | _ => true

def emit (u : Ui) : Ui := { u with stack := .handler :: u.stack }

def request (u : Ui) (file : Option (QString × Int)) : Ui :=
  { u with
    replies := if u.replies.length > 64 then [] else u.replies
    nextId := u.nextId + 1
    stack := .wait u.nextId file :: u.stack }

def setBits (u : Ui) (hash : QString) (piece : Int) : Ui :=
  { u with
    streamGeo := fun key =>
      if (hash ++ [colon]).isPrefixOf key then (u.streamGeo key).map (·.setBit piece)
      else u.streamGeo key }

def dispatchEvent (u : Ui) (name : QString) (args : Bytes) : Ui :=
  if name = snapshotName then { u with hashes := (read getStringList [] args).1 }.emit
  else if name = pieceFinishedName then
    let piece := readPiece args
    (u.setBits piece.1 piece.2).emit
  else if name = torrentRemovedName then { u with streamGeo := fun _ => none }.emit
  else u.emit

def handleFrame (u : Ui) (f : Frame) : Ui :=
  if f.kind = Kind.hello.code then u.emit
  else if f.kind = Kind.event.code then
    let e := readEvent f.payload
    u.dispatchEvent e.1 e.2
  else if f.kind = Kind.reply.code then
    let r := readReply f.payload
    { u with replies := r :: u.replies.filter (fun kept => kept.1 ≠ r.1) }
  else u

-- What the call does with the reply it was given, empty if none came in time.
def returned (u : Ui) (file : Option (QString × Int)) (blob : Bytes) : Ui :=
  match file with
  | none => u
  | some (hash, file) =>
      match geometryOf blob with
      | none => u
      | some g =>
          { u with
            streamGeo := fun key => if key = geoKey hash file then some g else u.streamGeo key }

end Ui

end Ui

structure State where
  engine : Engine
  ui : Ui
  toUi : Bytes
  toEngine : Bytes

-- The network thread finishes pieces, the engine's thread and the UI's do the rest.
inductive Event where
  | pieceFinishes (row piece : Nat)
  | addTorrent (t : Torrent)
  | metadataArrives (row : Nat) (c : Content)
  | popAlert
  | sendEvent (name : QString) (args : Bytes)
  | pushSnapshot (rest : Bytes)
  | engineReads (n : Nat)
  | serve (result : Bytes)
  | readPiece
  | request (method : QString) (args : Bytes)
  | streamGeo (row file : Int)
  | pump (n : Nat)
  | drain
  | handled
  | returns

abbrev Out := Empty

namespace State

def toUiFrame (s : State) (f : Option Frame) : State :=
  match f with
  | some f => { s with toUi := s.toUi ++ writeFrame f }
  | none => s

def ask (s : State) (method : QString) (args : Bytes) (file : Option (QString × Int)) : State :=
  { s with
    ui := s.ui.request file
    toEngine := s.toEngine ++ writeFrame (requestFrame s.ui.nextId method args) }

def pieceFinishes (s : State) (row piece : Nat) : Option State :=
  s.engine.torrents[row]?.bind fun t =>
    t.content.bind fun c =>
      if c.have_[piece]? = some false then
        some { s with
          engine := { s.engine.setTorrent row { t with content := some (c.finish piece) } with
            alerts := s.engine.alerts ++ [(row, piece)] } }
      else none

-- A hash is in the session once.
def addTorrent (s : State) (t : Torrent) : Option State :=
  if t.streamed = none ∧ t.hash ∉ s.engine.hashes then
    some { s with engine := { s.engine with torrents := s.engine.torrents ++ [t] } }
  else none

def metadataArrives (s : State) (row : Nat) (c : Content) : Option State :=
  s.engine.torrents[row]?.bind fun t =>
    if t.content.isNone then
      some { s with engine := s.engine.setTorrent row { t with content := some c } }
    else none

def popAlert (s : State) : Option State :=
  match s.engine.alerts with
  | [] => none
  | (row, piece) :: rest =>
      let s := { s with engine := { s.engine with alerts := rest } }
      some (s.toUiFrame ((s.engine.torrents[row]?.bind Torrent.streamed).map (pieceFrame · piece)))

def engineReads (s : State) (n : Nat) : State :=
  { s with
    engine := { s.engine with buf := s.engine.buf ++ s.toEngine.take n }
    toEngine := s.toEngine.drop n }

def serve (s : State) (result : Bytes) : Option State :=
  match takeFrame s.engine.buf with
  | .wait => none
  | .reset => some { s with engine := { s.engine with buf := [] } }
  | .empty rest => some { s with engine := { s.engine with buf := rest } }
  | .frame f rest =>
      let r := ({ s.engine with buf := rest } : Engine).dispatch f result
      some ({ s with engine := r.1 }.toUiFrame r.2)

-- One call of have_piece, or the reply after the last one.
def readPiece (s : State) (k : Task) : State :=
  match s.engine.torrents[k.row]?.bind Torrent.content with
  | some c =>
      match c.have_[k.bits.length]? with
      | some b => { s with engine := { s.engine with task := some { k with bits := k.bits ++ [b] } } }
      | none =>
          { s with engine := { s.engine with task := none } }.toUiFrame
            (some (replyFrame k.id (putVariantMap k.geometry.toMap)))
  | none => { s with engine := { s.engine with task := none } }

def streamGeo (s : State) (row file : Int) : State :=
  let hash := s.ui.torrentHashAt row
  if hash = [] ∨ (s.ui.streamGeo (geoKey hash file)).isSome then s
  else s.ask streamGeometryName (putRow row file) (some (hash, file))

def pump (s : State) (n : Nat) : State :=
  { s with
    ui := { s.ui with buf := s.ui.buf ++ s.toUi.take n, stack := .drain :: s.ui.stack }
    toUi := s.toUi.drop n }

def drain (s : State) (below : List Activation) : State :=
  match takeFrame s.ui.buf with
  | .wait => { s with ui := { s.ui with stack := below } }
  | .reset => { s with ui := { s.ui with buf := [], stack := below } }
  | .empty rest => { s with ui := { s.ui with buf := rest } }
  | .frame f rest => { s with ui := ({ s.ui with buf := rest } : Ui).handleFrame f }

def returns (s : State) (id : UInt32) (file : Option (QString × Int)) (below : List Activation) :
    State :=
  let blob := (s.ui.replies.lookup id).getD []
  let ui := { s.ui with replies := s.ui.replies.filter (fun kept => kept.1 ≠ id), stack := below }
  { s with ui := ui.returned file blob }

end State

-- The numbers of rows and files are 32-bit.
def isInt32 (n : Int) : Bool := -(2 ^ 31) ≤ n ∧ n < 2 ^ 31

def step (s : State) : Event → Option State
  | .pieceFinishes row piece => s.pieceFinishes row piece
  | .addTorrent t => s.addTorrent t
  | .metadataArrives row c => s.metadataArrives row c
  | .popAlert => if s.engine.task.isNone then s.popAlert else none
  | .sendEvent name args =>
      if s.engine.task.isNone ∧ name ≠ pieceFinishedName ∧ name ≠ snapshotName then
        some (s.toUiFrame (some (eventFrame name args)))
      else none
  | .pushSnapshot rest =>
      if s.engine.task.isNone then some (s.toUiFrame (some (snapshotFrame s.engine.hashes rest)))
      else none
  | .engineReads n => some (s.engineReads n)
  | .serve result => if s.engine.task.isNone then s.serve result else none
  | .readPiece => s.engine.task.map s.readPiece
  | .request method args => if s.ui.free then some (s.ask method args none) else none
  | .streamGeo row file =>
      if s.ui.free ∧ isInt32 row ∧ isInt32 file then some (s.streamGeo row file) else none
  | .pump n => if s.ui.mayPump then some (s.pump n) else none
  | .drain =>
      match s.ui.stack with
      | .drain :: below => some (s.drain below)
      | _ => none
  | .handled =>
      match s.ui.stack with
      | .handler :: below => some { s with ui := { s.ui with stack := below } }
      | _ => none
  | .returns =>
      match s.ui.stack with
      | .wait id file :: below => some (s.returns id file below)
      | _ => none

def init : State where
  engine := { torrents := [], alerts := [], buf := [], task := none }
  ui :=
    { hashes := []
      streamGeo := fun _ => none
      replies := []
      nextId := 1
      buf := []
      stack := [] }
  toUi := []
  toEngine := []

def machine : Machine State Event Out where
  init := init
  next s e := (step s e).map fun s' => (s', [])

end BATorrent.StreamMap
