import BATorrent.Lib.Run
import BATorrent.Lib.Text

namespace BATorrent.MediaFeed

open Lib

abbrev Bytes := List UInt8

def kWindow : Nat := 16 * 1024 * 1024
def kKeepBehind : Nat := 2 * 1024 * 1024
def kNearAhead : Nat := 4 * 1024 * 1024
def kMinAnswer : Nat := 64 * 1024
def kMaxRequest : Nat := 4 * 1024 * 1024
def kMaxPending : Nat := 16

structure Pending where
  id : UInt32
  offset : Nat
  length : Nat
deriving DecidableEq, Repr

structure Headers where
  status : Nat
  contentRange : List Char
deriving DecidableEq, Repr

-- A GET in flight. `avail` is what has arrived and was not read, `arrived` counts all of it.
structure Reply where
  serial : Nat
  requested : Nat
  headers : Option Headers
  arrived : Nat
  avail : Bytes
  finished : Bool
  connected : Bool
deriving DecidableEq, Repr

namespace Reply

def get (serial offset : Nat) : Reply where
  serial := serial
  requested := offset
  headers := none
  arrived := 0
  avail := []
  finished := false
  connected := true

def abort (r : Reply) : Reply := { r with finished := true, connected := false }

def drained (r : Reply) : Bool := r.finished && r.avail.isEmpty

end Reply

-- `queued` counts the calls of onHttpData waiting in the event loop, `made` the replies so far.
structure State where
  size : Int
  file : Option Bytes
  reply : Option Reply
  replyChecked : Bool
  retriedAt : Option Nat
  pull : Bool
  buf : Bytes
  bufStart : Nat
  readerAt : Nat
  pending : List Pending
  queued : Nat
  made : Nat

inductive Out where
  | ready (size : Nat)
  | data (id : UInt32) (offset : Nat) (bytes : Bytes)
  | refused (id : UInt32)
deriving DecidableEq

namespace State

def initial : State where
  size := -1
  file := none
  reply := none
  replyChecked := false
  retriedAt := none
  pull := false
  buf := []
  bufStart := 0
  readerAt := 0
  pending := []
  queued := 0
  made := 0

def bufEnd (s : State) : Nat := s.bufStart + s.buf.length

def drained (s : State) : Bool :=
  match s.reply with
  | none => true
  | some r => r.drained

-- The old reply is dropped with its signals and its unread bytes.
def streamFrom (s : State) (offset : Nat) : State :=
  { s with
    buf := []
    bufStart := offset
    readerAt := offset
    replyChecked := false
    reply := some (.get s.made offset)
    made := s.made + 1 }

def await (s : State) (p : Pending) : State := { s with pending := s.pending ++ [p] }

def markChecked (s : State) : State := { s with replyChecked := true }

def keepFrom (s : State) : Int :=
  s.pending.foldl (fun keep p => min keep p.offset) ((s.readerAt : Int) - kKeepBehind)

def dropCount (s : State) : Nat :=
  let drop := max 0 (min (s.keepFrom - s.bufStart) s.buf.length)
  if drop < kWindow / 4 then 0 else drop.toNat

def trimBuffer (s : State) : State :=
  { s with buf := s.buf.drop s.dropCount, bufStart := s.bufStart + s.dropCount }

end State

def rangeUnit : List Char := ['b', 'y', 't', 'e', 's', ' ']

-- Where a Content-Range of the form `bytes START-END/TOTAL` starts.
def rangeStart (range : List Char) : Option Int :=
  match range.idxOf? '-' with
  | some dash =>
      if rangeUnit.isPrefixOf range ∧ dash > 6 then
        some (Text.toLongLong ((range.drop 6).take (dash - 6)))
      else none
  | none => none

def Headers.startAt (h : Headers) (bufStart : Nat) : Bool :=
  if h.status = 206 then rangeStart h.contentRange = some (bufStart : Int)
  else h.status = 200 ∧ bufStart = 0

-- Headers that have not arrived have the status 0.
def replyStartsAtBuffer (s : State) (r : Reply) : Bool :=
  s.replyChecked ||
    match r.headers with
    | none => false
    | some h => h.startAt s.bufStart

-- How many bytes of a waiting request the buffer holds.
def buffered (s : State) (p : Pending) : Nat := min p.length (s.bufEnd - p.offset)

def inBuffer (s : State) (p : Pending) : Bool := s.bufStart ≤ p.offset ∧ p.offset < s.bufEnd

def enough (s : State) (p : Pending) : Bool :=
  buffered s p ≥ min p.length kMinAnswer ∨ p.offset + buffered s p ≥ s.size

def answer (s : State) (p : Pending) : Out :=
  .data p.id p.offset ((s.buf.drop (p.offset - s.bufStart)).take (buffered s p))

-- What the loop over the waiting requests leaves: `retried` when it reconnected and returned.
structure Served where
  state : State
  out : List Out
  retried : Bool

def Served.after (o : Out) (r : Served) : Served := { r with out := o :: r.out }

-- `kept` are the requests the loop has left waiting so far.
def serveLoop (kept : List Pending) : List Pending → State → Served
  | [], s => { state := { s with pending := kept }, out := [], retried := false }
  | p :: todo, s =>
      if inBuffer s p then
        if enough s p ∨ s.drained then
          (serveLoop kept todo
            { s with retriedAt := none, readerAt := p.offset + buffered s p }).after (answer s p)
        else serveLoop (kept ++ [p]) todo s
      else if s.drained then
        if s.retriedAt ≠ some p.offset then
          { state := ({ s with
              retriedAt := some p.offset, pending := kept ++ p :: todo }).streamFrom p.offset
            out := []
            retried := true }
        else (serveLoop kept todo s).after (.refused p.id)
      else serveLoop (kept ++ [p]) todo s

-- The polling timer runs while a request waits, and bytes left over ask for another call.
def settle (s : State) : State :=
  let s := { s with pull := s.reply.isSome && !s.pending.isEmpty }
  let s := s.trimBuffer
  let more := s.reply.any (fun r => !r.avail.isEmpty) && s.buf.length < kWindow
  { s with queued := if more then s.queued + 1 else s.queued }

def servePending (s : State) : State × List Out :=
  let r := serveLoop [] s.pending s
  (if r.retried then r.state else settle r.state, r.out)

-- The window takes what it has room for.
def readReply (s : State) (r : Reply) : State :=
  let room := kWindow - s.buf.length
  { s with
    reply := some { r with avail := r.avail.drop room }
    buf := s.buf ++ r.avail.take room }

def refuseAll (s : State) (r : Reply) : State × List Out :=
  ({ s with reply := some r.abort, pending := [] }, s.pending.map (fun p => .refused p.id))

def onHttpData (s : State) : State × List Out :=
  match s.reply with
  | none => (s, [])
  | some r =>
      if replyStartsAtBuffer s r then servePending (readReply s.markChecked r)
      else refuseAll s r

def takes (s : State) (offset length : Int) : Prop :=
  ¬ (s.size < 0 ∨ offset < 0 ∨ offset ≥ s.size ∨ length ≤ 0 ∨ length > kMaxRequest ∨
    s.pending.length ≥ kMaxPending)

instance (s : State) (offset length : Int) : Decidable (takes s offset length) :=
  inferInstanceAs (Decidable (¬ _))

def comingSoon (s : State) (p : Pending) : Bool :=
  s.reply.isSome ∧ p.offset ≥ s.bufEnd ∧ p.offset ≤ s.bufEnd + kNearAhead

-- The request as it is kept: cut at the end of the source.
def asPending (s : State) (id : UInt32) (offset length : Int) : Pending where
  id := id
  offset := offset.toNat
  length := (min length (s.size - offset)).toNat

def request (s : State) (id : UInt32) (offset length : Int) : State × List Out :=
  if takes s offset length then
    let p := asPending s id offset length
    match s.file with
    | some content =>
        let bytes := (content.drop p.offset).take p.length
        (s, [if bytes.isEmpty then .refused id else .data id p.offset bytes])
    | none =>
        let s := s.await p
        if inBuffer s p ∨ comingSoon s p then servePending s else (s.streamFrom p.offset, [])
  else (s, [.refused id])

-- What calls onHttpData.
inductive Caller where
  | readyRead
  | finished
  | pull
  | queued
deriving DecidableEq, Repr

inductive Event where
  | openFile (content : Bytes)
  | headAnswered (len : Nat)
  | request (id : UInt32) (offset length : Int)
  | headersArrive (h : Headers)
  | bodyArrives (chunk : Bytes)
  | replyEnds
  | httpData (caller : Caller)
  | replyDeleted

-- The network's own steps change the reply in place.
def onReply (s : State) (canStep : Reply → Bool) (f : Reply → Reply) : Option (State × List Out) :=
  match s.reply with
  | some r => if canStep r then some ({ s with reply := some (f r) }, []) else none
  | none => none

def calls (s : State) : Caller → Bool
  | .readyRead => s.reply.any (fun r => r.connected && r.headers.isSome)
  | .finished => s.reply.any (fun r => r.connected && r.finished)
  | .pull => s.pull
  | .queued => 0 < s.queued

def next (s : State) : Event → Option (State × List Out)
  | .openFile content =>
      if s.size = -1 ∧ content.length < 2 ^ 63 then
        some ({ s with size := content.length, file := some content }, [.ready content.length])
      else none
  | .headAnswered len =>
      if s.size = -1 ∧ 0 < len ∧ len < 2 ^ 63 then some ({ s with size := len }, [.ready len])
      else none
  | .request id offset length => some (request s id offset length)
  | .headersArrive h =>
      onReply s (fun r => !r.finished && r.headers.isNone) (fun r => { r with headers := some h })
  | .bodyArrives chunk =>
      onReply s (fun r => !r.finished && r.headers.isSome)
        (fun r => { r with avail := r.avail ++ chunk, arrived := r.arrived + chunk.length })
  | .replyEnds => onReply s (fun r => !r.finished) (fun r => { r with finished := true })
  | .httpData caller =>
      if calls s caller then
        some (onHttpData { s with queued := if caller = .queued then s.queued - 1 else s.queued })
      else none
  | .replyDeleted =>
      if s.reply.any (fun r => !r.connected) then some ({ s with reply := none }, []) else none

def machine : Machine State Event Out where
  init := .initial
  next := next

end BATorrent.MediaFeed
