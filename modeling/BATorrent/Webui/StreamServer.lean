import BATorrent.Lib.Run
import BATorrent.Services.MediaGuard

namespace BATorrent.StreamServer

open Lib
open Lib.DataStream (Bytes)
open MediaSniff (Text)
open MediaGuard (Guard keyFor)

def kChunk : Int := 256 * 1024

def kWriteHigh : Int := 4 * 1024 * 1024

def kGiveUpMs : Int := 90 * 1000

-- A request that parses: the range is what its two ends are, where they are given.
structure Request where
  head : Bool
  hash : Text
  fileIdx : Int
  range : Option (Option Int × Option Int)

-- A client that has got its headers. `file` is the path of the open file.
structure Conn where
  hash : Text
  fileIdx : Int
  admitted : Bool
  pos : Int
  last : Int
  file : Option Text
  connected : Bool

structure State where
  guard : Guard
  conns : List Conn

-- What the engine and the disk answer in the course of one pump, each question with its own answer,
-- and what the socket and the clock say.
structure Answers where
  bytesToWrite : Int
  elapsed : Int
  torrentIndex : Int
  avail : Int
  guard : MediaGuard.Answers
  path : Text
  opens : Bool
  seeks : Bool
  data : Bytes

inductive Event where
  | requested (request : Request) (torrentIndex size : Int) (path : Text)
  | pump (conn : Nat) (answers : Answers)
  | disconnected (conn : Nat)
  | asked (infoHash : Text) (fileIndex : Int) (answers : MediaGuard.Answers)
  | torrentFinished (infoHash : Text) (torrentIndex : Int) (files : List MediaGuard.FileInfo)
      (answers : Nat → MediaGuard.Answers)
  | restarted

inductive Out where
  | failed (code : Nat)
  | headers (code : Nat) (start last size : Int)
  | guard (out : MediaGuard.Out)
  | body (key path : Text) (bytes : Bytes)
deriving DecidableEq

section Model

variable (toLower : Text → Text)

namespace Conn

def key (c : Conn) : Text := keyFor toLower c.hash c.fileIdx

def disconnectFromHost (c : Conn) : Conn := { c with connected := false }

def waitOrGiveUp (c : Conn) (elapsed : Int) : Conn :=
  if kGiveUpMs < elapsed then c.disconnectFromHost else c

-- The path is looked up only where no file is open.
def ensureOpen (c : Conn) (a : Answers) : Conn × Bool :=
  match c.file with
  | some _ => (c, a.seeks)
  | none =>
      if a.path = [] || !a.opens then (c, false) else ({ c with file := some a.path }, a.seeks)

-- What an admitted connection sends.
def serve (c : Conn) (a : Answers) : Conn × List Out :=
  match c.ensureOpen a with
  | (c, false) => (c.waitOrGiveUp a.elapsed, [])
  | (c, true) =>
      let want := min a.avail (c.last - c.pos + 1)
      let buf := a.data.take want.toNat
      if buf = [] then ({ c with file := none }, [])
      else
        let sent := { c with pos := c.pos + buf.length }
        (if sent.last < sent.pos then sent.disconnectFromHost else sent,
          [.body (c.key toLower) (c.file.getD []) buf])

def pump (g : Guard) (c : Conn) (a : Answers) : Guard × Conn × List Out :=
  if !c.connected then (g, c, [])
  else if c.last < c.pos then (g, c.disconnectFromHost, [])
  else if kWriteHigh < a.bytesToWrite then (g, c, [])
  else if a.torrentIndex < 0 then (g, c.disconnectFromHost, [])
  else if a.avail ≤ 0 then (g, c.waitOrGiveUp a.elapsed, [])
  else if c.admitted then (g, c.serve toLower a)
  else match g.admitFile toLower c.hash c.fileIdx a.guard with
    | (.block, g, outs) => (g, c.disconnectFromHost, outs.map .guard)
    | (.wait, g, outs) => (g, c.waitOrGiveUp a.elapsed, outs.map .guard)
    | (.allow, g, outs) =>
        let (c, sent) := { c with admitted := true }.serve toLower a
        (g, c, outs.map .guard ++ sent)

end Conn

namespace State

-- The part of the file that a request is for, both ends within it.
def rangeOf (range : Option (Option Int × Option Int)) (size : Int) : Int × Int :=
  let start := (range.bind Prod.fst).getD 0
  let last := (range.bind Prod.snd).getD (size - 1)
  (max start 0, if size ≤ last then size - 1 else last)

def begin (s : State) (r : Request) (torrentIndex size : Int) (path : Text) : State × List Out :=
  if torrentIndex < 0 ∨ size ≤ 0 ∨ path = [] then (s, [.failed 404])
  else if s.guard.isQuarantined (keyFor toLower r.hash r.fileIdx) then (s, [.failed 403])
  else
    let (start, last) := rangeOf r.range size
    if last < start then (s, [.failed 416])
    else
      let code := if r.range.isSome then 206 else 200
      let conn : Conn := ⟨r.hash, r.fileIdx, false, start, last, none, true⟩
      (if r.head then s else { s with conns := s.conns ++ [conn] }, [.headers code start last size])

-- A restart reads the quarantined files back and forgets the rest.
def next (s : State) : Event → Option (State × List Out)
  | .requested request torrentIndex size path => some (s.begin toLower request torrentIndex size path)
  | .pump i a =>
      s.conns[i]?.map fun c =>
        let (guard, c, outs) := c.pump toLower s.guard a
        (⟨guard, s.conns.set i c⟩, outs)
  | .disconnected i =>
      s.conns[i]?.map fun c => ({ s with conns := s.conns.set i c.disconnectFromHost }, [])
  | .asked infoHash fileIndex a =>
      let (_, guard, outs) := s.guard.admitFile toLower infoHash fileIndex a
      some ({ s with guard := guard }, outs.map .guard)
  | .torrentFinished infoHash torrentIndex files answers =>
      let (guard, outs) := s.guard.onTorrentFinished toLower infoHash torrentIndex files answers
      some ({ s with guard := guard }, outs.map .guard)
  | .restarted => some (⟨.ofSaved s.guard.saved, []⟩, [])

end State

def machine (saved : List (Text × Text)) : Machine State Event Out where
  init := ⟨.ofSaved saved, []⟩
  next := State.next toLower

end Model

end BATorrent.StreamServer
