import BATorrent.Downloads.RangePlan
import BATorrent.Lib.FileBytes
import BATorrent.Lib.FilePath
import BATorrent.Lib.Run
import BATorrent.Lib.Text
import Mathlib.Algebra.GroupWithZero.Nat

namespace BATorrent.HttpDownload

open Lib
open RangePlan (ByteRange planSegments)

abbrev Bytes := List UInt8

abbrev Path := List Char

abbrev Disk := Path → Option Bytes

def Disk.set (disk : Disk) (path : Path) (content : Option Bytes) : Disk :=
  fun p => if p = path then content else disk p

@[simp] theorem Disk.set_self (disk : Disk) (path : Path) (content : Option Bytes) :
    disk.set path content path = content := if_pos rfl

theorem Disk.set_of_ne (disk : Disk) {path p : Path} (content : Option Bytes) (h : p ≠ path) :
    disk.set path content p = disk p := if_neg h

def kMaxTotal : Int := 2 ^ 42

inductive Phase where
  | queued
  | probing
  | downloading
  | paused
  | completed
  | failed
deriving DecidableEq, Repr

-- A GET in flight: the byte it was made for, whether it asked for a range, and how much of
-- its body was read.
structure Reply where
  asked : Nat
  ranged : Bool
  status : Option Nat
  read : Nat
deriving DecidableEq, Repr

structure Segment where
  range : ByteRange
  received : Nat
  reply : Option Reply
deriving DecidableEq, Repr

namespace Segment

def plan (range : ByteRange) : Segment where
  range := range
  received := 0
  reply := none

def done (g : Segment) : Bool := g.range.size ≤ g.received

def writeAt (g : Segment) : Nat := g.range.start + g.received

end Segment

-- The entry of the sidecar.
structure Saved where
  fileName : Path
  total : Int
  acceptRanges : Bool
  phase : Phase
  segments : List (ByteRange × Nat)

-- `disk` holds the files by path, `sidecar` what was saved last; `gone` is set once the
-- download was stopped for good. An open file keeps the name it was opened by.
structure State where
  disk : Disk
  sidecar : Option Saved
  gone : Bool
  saveDir : Path
  fileName : Path
  phase : Phase
  total : Int
  acceptRanges : Bool
  error : String
  fileOpen : Bool
  openName : Path
  segments : List Segment
  probe : Bool
  stallRetried : Bool

-- Whether the file operations of a step succeed; `written` is how far a write got.
structure Io where
  opens : Bool
  written : Nat
  renames : Bool

-- `disposition` is the name that a Content-Disposition gives.
structure ProbeReply where
  error : Option String
  code : Nat
  contentRange : List Char
  contentLength : Option Int
  disposition : Option Path

inductive Out where
  | finished (ok : Bool)
deriving DecidableEq

def kConns : Int := 4

def startsAsDownload (name : Path) : Bool :=
  ['d', 'o', 'w', 'n', 'l', 'o', 'a', 'd', '-'].isPrefixOf name

-- What follows the last slash, when it is a size that can be.
def totalFromContentRange (cr : List Char) : Int :=
  if '/' ∈ cr then
    let tail := Text.trim (cr.reverse.takeWhile (· ≠ '/')).reverse
    match Text.signed? tail with
    | some v => if 0 < v ∧ v ≤ kMaxTotal then v else -1
    | none => -1
  else -1

def ProbeReply.announced (p : ProbeReply) : Int :=
  if p.code = 206 then totalFromContentRange p.contentRange
  else
    match p.contentLength with
    | some len => if 0 < len ∧ len ≤ kMaxTotal then len else -1
    | none => -1

namespace State

def finalPath (s : State) : Path := FilePath.filePath FilePath.unix s.saveDir s.fileName

def partPath (s : State) : Path := s.finalPath ++ ['.', 'p', 'a', 'r', 't']

def put (s : State) (path : Path) (content : Bytes) : State :=
  { s with disk := s.disk.set path (some content) }

def receivedBytes (s : State) : Nat := (s.segments.map Segment.received).sum

def abortReplies (s : State) : State :=
  { s with probe := false, segments := s.segments.map (fun g => { g with reply := none }) }

def fail (s : State) (why : String) : State × List Out :=
  ({ s.abortReplies with error := why, fileOpen := false, phase := .failed }, [.finished false])

-- A stream without ranges asks for everything from the start.
def spawnSegment (s : State) (g : Segment) : Segment :=
  if g.reply.isSome ∨ g.done then g
  else
    { g with
      reply := some
        { asked := g.writeAt
          ranged := s.acceptRanges ∧ 0 ≤ g.range.last
          status := none
          read := 0 } }

def spawnAll (s : State) : State := { s with segments := s.segments.map s.spawnSegment }

def finalize (s : State) (io : Io) : State × List Out :=
  let disk := s.disk.set s.finalPath none
  match disk s.partPath, io.renames with
  | some content, true =>
      ({ s with
          disk := (disk.set s.finalPath (some content)).set s.partPath none
          phase := .completed },
        [.finished true])
  | _, _ => { s with disk := disk }.fail ("cannot finalize " ++ String.ofList s.finalPath)

def maybeComplete (s : State) (io : Io) : State × List Out :=
  if s.segments.all Segment.done then
    if 0 < s.total ∧ (s.receivedBytes : Int) ≠ s.total then
      s.fail ("size mismatch: got " ++ toString s.receivedBytes ++ " of " ++ toString s.total)
    else { s with fileOpen := false }.finalize io
  else (s, [])

-- What opening the .part leaves in it.
def opened (s : State) : Bytes :=
  let content := (s.disk s.partPath).getD []
  if 0 < s.total ∧ (content.length : Int) ≠ s.total then FileBytes.resize content 0 s.total.toNat
  else content

def launch (s : State) (io : Io) : State × List Out :=
  ({ s with phase := .downloading, stallRetried := false }.spawnAll).maybeComplete io

def openPart (s : State) : State :=
  { s.put s.partPath s.opened with fileOpen := true, openName := s.partPath }

def beginSegments (s : State) (io : Io) : State × List Out :=
  if s.fileOpen then s.launch io
  else if io.opens then s.openPart.launch io
  else s.fail ("cannot open " ++ String.ofList s.partPath)

def start (s : State) (io : Io) : State × List Out :=
  if s.phase = .downloading ∨ s.phase = .probing then (s, [])
  else
    let s := { s with error := "" }
    if 0 < s.total ∧ s.segments ≠ [] then s.beginSegments io
    else ({ s with phase := .probing, probe := true }, [])

-- A name made up from the id gives way to the server's.
def named (s : State) (p : ProbeReply) : State :=
  { s with
    fileName :=
      match p.disposition with
      | some fn => if startsAsDownload s.fileName ∧ fn ≠ [] then fn else s.fileName
      | none => s.fileName }

-- One stream where the ranges or the size are missing; its end is -1 if the size is.
def planned (s : State) (p : ProbeReply) : State :=
  let total := p.announced
  let ranges :=
    if p.code = 206 ∧ 0 < total then planSegments total kConns
    else [⟨0, if 0 < total then total - 1 else -1⟩]
  { s with
    acceptRanges := p.code = 206
    total := total
    segments := ranges.map Segment.plan }

def onProbeFinished (s : State) (p : ProbeReply) (io : Io) : State × List Out :=
  let s := { s with probe := false }
  match p.error with
  | some why => s.fail why
  | none => ((s.named p).planned p).beginSegments io

def setSegment (s : State) (idx : Nat) (g : Segment) : State :=
  { s with segments := s.segments.set idx g }

def headersArrive (s : State) (idx : Nat) (status : Nat) : Option (State × List Out) :=
  match s.segments[idx]? with
  | some g =>
      match g.reply with
      | some r =>
          if r.status.isNone then
            some (s.setSegment idx { g with reply := some { r with status := some status } }, [])
          else none
      | none => none
  | none => none

-- The chunk is what the reply holds unread.
def onSegmentReadyRead (s : State) (idx : Nat) (g : Segment) (r : Reply) (chunk : Bytes) (io : Io) :
    State × List Out :=
  let reply := some { r with read := r.read + chunk.length }
  if s.phase ≠ .downloading then (s, [])
  else if chunk.isEmpty then (s.setSegment idx { g with reply := reply }, [])
  else
    let content := (s.disk s.openName).getD []
    let written := FileBytes.writeAt content 0 g.writeAt (chunk.take io.written)
    let s := s.put s.openName written
    if io.written < chunk.length then s.fail "disk write failed"
    else
      let s := s.setSegment idx { g with received := g.received + chunk.length, reply := reply }
      if 0 ≤ g.range.last ∧ ((g.writeAt + chunk.length : Nat) : Int) > g.range.last + 1 then
        s.fail "segment overrun"
      else (s, [])

-- Where the size was never known, what arrived is all there is.
def settleSize (s : State) (idx : Nat) (g : Segment) : State :=
  if s.total ≤ 0 ∧ g.range.last < 0 then
    { s.setSegment idx { g with range := { g.range with last := (g.received : Int) - 1 }, reply := none } with
      total := g.received }
  else s

def onSegmentFinished (s : State) (idx : Nat) (g : Segment) (error : Option String) (io : Io) :
    State × List Out :=
  let s := s.setSegment idx { g with reply := none }
  if s.phase ≠ .downloading then (s, [])
  else
    match error with
    | some why => s.fail why
    | none => (s.settleSize idx g).maybeComplete io

-- No byte arrived for half a minute.
def stalled (s : State) : State × List Out :=
  if s.stallRetried then s.fail "stalled"
  else ({ s with stallRetried := true }.spawnAll, [])

def pause (s : State) : State × List Out :=
  if s.phase = .downloading ∨ s.phase = .probing then ({ s.abortReplies with phase := .paused }, [])
  else (s, [])

def resume (s : State) (io : Io) : State × List Out :=
  if s.phase = .paused ∨ s.phase = .failed then s.start io else (s, [])

def cancel (s : State) (deletePartial : Bool) : State :=
  { s.abortReplies with
    gone := true
    fileOpen := false
    disk := if deletePartial then s.disk.set s.partPath none else s.disk }

def toState (s : State) : Saved where
  fileName := s.fileName
  total := s.total
  acceptRanges := s.acceptRanges
  phase := if s.phase = .completed then .completed else .paused
  segments := s.segments.map (fun g => (g.range, g.received))

-- The download that another run of the program makes from the entry.
def restoreState (s : State) (m : Saved) : State :=
  { s with
    gone := false
    fileName := m.fileName
    phase := m.phase
    total := m.total
    acceptRanges := m.acceptRanges
    error := ""
    fileOpen := false
    openName := []
    segments := m.segments.map (fun g => ⟨g.1, g.2, none⟩)
    probe := false
    stallRetried := false }

end State

inductive Event where
  | start (io : Io)
  | probeFinished (p : ProbeReply) (io : Io)
  | headersArrive (idx : Nat) (status : Nat)
  | readyRead (idx : Nat) (chunk : Bytes) (io : Io)
  | segmentFinished (idx : Nat) (error : Option String) (io : Io)
  | stalled
  | pause
  | resume (io : Io)
  | cancel (deletePartial : Bool)
  | save
  | restart

-- The reply in a segment's slot.
def replyOf (s : State) (idx : Nat) : Option (Segment × Reply) :=
  s.segments[idx]?.bind fun g => g.reply.map fun r => (g, r)

-- A program that was stopped keeps what it wrote.
def next (s : State) : Event → Option (State × List Out)
  | .restart => s.sidecar.map fun m => (s.restoreState m, [])
  | .save => some ({ s with sidecar := if s.gone then none else some s.toState }, [])
  | e =>
      if s.gone then none
      else
        match e with
        | .start io => some (s.start io)
        | .probeFinished p io => if s.probe then some (s.onProbeFinished p io) else none
        | .headersArrive idx status => s.headersArrive idx status
        | .readyRead idx chunk io =>
            (replyOf s idx).bind fun (g, r) =>
              if r.status.isSome then some (s.onSegmentReadyRead idx g r chunk io) else none
        | .segmentFinished idx error io =>
            (replyOf s idx).map fun (g, _) => s.onSegmentFinished idx g error io
        | .stalled => if s.phase = .downloading then some s.stalled else none
        | .pause => some s.pause
        | .resume io => some (s.resume io)
        | .cancel deletePartial => some (s.cancel deletePartial, [])
        | _ => none

-- A new download in a folder that may hold anything.
def create (disk : Disk) (saveDir fileName : Path) : State where
  disk := disk
  sidecar := none
  gone := false
  saveDir := saveDir
  fileName := fileName
  phase := .queued
  total := -1
  acceptRanges := false
  error := ""
  fileOpen := false
  openName := []
  segments := []
  probe := false
  stallRetried := false

def machine (disk : Disk) (saveDir fileName : Path) : Machine State Event Out where
  init := create disk saveDir fileName
  next := next

end BATorrent.HttpDownload
