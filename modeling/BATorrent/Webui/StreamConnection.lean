import BATorrent.Lib.ByteText
import BATorrent.Lib.Run

namespace BATorrent.StreamConnection

open Lib Lib.ByteText
open Lib.DataStream (Bytes)

def kChunk : Int := 256 * 1024

def kWriteHigh : Nat := 4 * 1024 * 1024

def kGiveUpMs : Int := 90 * 1000

def kRefreshMs : Int := 1000

abbrev Text := List Char

section Request

def number (digits : Bytes) : Nat := digits.foldl (fun n b => n * 10 + (b.toNat - 48)) 0

-- What is too large for its type reads as zero.
def toLongLong (digits : Bytes) : Int := if number digits < 2 ^ 63 then number digits else 0

def toInt (digits : Bytes) : Int := if number digits < 2 ^ 31 then number digits else 0

-- `bytes=(\d*)-(\d*)` where it first matches.
def matchRange : Bytes → Option (Bytes × Bytes)
  | [] => none
  | b :: bs =>
      if (ascii "bytes=").isPrefixOf (b :: bs) then
        let rest := bs.drop 5
        match rest.dropWhile isDigit with
        | 45 :: last => some (rest.takeWhile isDigit, last.takeWhile isDigit)
        | _ => matchRange bs
      else matchRange bs

-- `^/stream/([0-9a-fA-F]+)/(\d+)`
def matchPath (path : Bytes) : Option (Bytes × Bytes) :=
  if (ascii "/stream/").isPrefixOf path then
    let rest := path.drop 8
    let hash := rest.takeWhile fun b => (ByteText.hexDigit b).isSome
    match rest.dropWhile fun b => (ByteText.hexDigit b).isSome with
    | 47 :: tail =>
        let fileIdx := tail.takeWhile isDigit
        if hash = [] ∨ fileIdx = [] then none else some (hash, fileIdx)
    | _ => none
  else none

structure Target where
  head : Bool
  hash : Bytes
  fileIdx : Int

-- What a request is for, or the error that it is answered with.
def targetOf (headers : Bytes) : Except Nat Target :=
  match (trimmed ((headers.splitOn 10).headD [])).splitOn 32 with
  | method :: path :: _ =>
      if method ≠ ascii "GET" ∧ method ≠ ascii "HEAD" then .error 405
      else
        match matchPath path with
        | none => .error 404
        | some (hash, fileIdx) => .ok ⟨method = ascii "HEAD", hash, toInt fileIdx⟩
  | _ => .error 400

def isRangeLine (line : Bytes) : Bool := (ascii "range:").isPrefixOf ((trimmed line).map toLower)

structure Range where
  ranged : Bool
  start : Int
  last : Int
deriving DecidableEq

-- The first header of that name counts.
def rangeOf (headers : Bytes) (size : Int) : Range :=
  let whole : Range := ⟨false, 0, size - 1⟩
  match (headers.splitOn 10).find? isRangeLine with
  | none => whole
  | some line =>
      match matchRange (trimmed line) with
      | none => whole
      | some (first, last) =>
          ⟨true, if first = [] then 0 else toLongLong first, if last = [] then size - 1 else toLongLong last⟩

def Range.clamp (r : Range) (size : Int) : Range :=
  { r with start := max r.start 0, last := if size ≤ r.last then size - 1 else r.last }

end Request

section Reply

def decimal (n : Int) : Bytes := ascii (toString n)

def contentType (path : Text) : Bytes :=
  let plain := if ".!bt".toList.isSuffixOf path then path.take (path.length - 4) else path
  let p := plain.map Char.toLower
  let ends (suffix : String) : Bool := suffix.toList.isSuffixOf p
  if ends ".mp4" || ends ".m4v" then ascii "video/mp4"
  else if ends ".mkv" then ascii "video/x-matroska"
  else if ends ".webm" then ascii "video/webm"
  else if ends ".mov" then ascii "video/quicktime"
  else if ends ".avi" then ascii "video/x-msvideo"
  else if ends ".ts" then ascii "video/mp2t"
  else if ends ".mp3" then ascii "audio/mpeg"
  else if ends ".flac" then ascii "audio/flac"
  else ascii "application/octet-stream"

def headerBlock (r : Range) (size : Int) (path : Text) : Bytes :=
  (if r.ranged then
    ascii "HTTP/1.1 206 Partial Content\r\nContent-Range: bytes " ++ decimal r.start ++ ascii "-" ++
      decimal r.last ++ ascii "/" ++ decimal size ++ crlf
  else ascii "HTTP/1.1 200 OK" ++ crlf) ++
    ascii "Content-Type: " ++ contentType path ++ crlf ++
    ascii "Content-Length: " ++ decimal (r.last - r.start + 1) ++ crlf ++
    ascii "Accept-Ranges: bytes" ++ crlf ++ ascii "Connection: close" ++ crlf ++ crlf
where
  crlf : Bytes := ascii "\r\n"

def failText (code : Nat) : Bytes :=
  let txt :=
    if code = 404 then "Not Found"
    else if code = 403 then "Forbidden"
    else if code = 416 then "Range Not Satisfiable"
    else if code = 405 then "Method Not Allowed"
    else "Bad Request"
  ascii "HTTP/1.1 " ++ decimal code ++ ascii " " ++ ascii txt ++
    ascii "\r\nContent-Length: 0\r\nConnection: close\r\n\r\n"

end Reply

inductive Gate where
  | allow
  | wait
  | block
deriving DecidableEq

-- What the engine and the guard say of the file that is asked for.
structure Lookup where
  torrentIndex : Int
  size : Int
  path : Text
  quarantined : Bool
  size_lt : size < 2 ^ 63

-- What the clock, the engine, the guard, if there is one, and the disk answer in the course of a pump.
-- A read may be short of what it asks for.
structure Answers where
  now : Int
  torrentIndex : Int
  avail : Int
  gate : Option Gate
  path : Text
  opens : Bool
  seeks : Bool
  count : Nat
deriving DecidableEq

inductive Out where
  | reply (bytes : Bytes)
  | body (bytes : Bytes)
  | deadlineWindow (startByte : Int)
deriving DecidableEq

-- `pos` is where the reader is in its interval from `first` to `last`, `body` is what it was sent of it;
-- `retry` is the timer, `queued` counts the pumps without delay and `backlog` the bytes that the socket
-- has not sent.
structure Conn where
  req : Bytes
  started : Bool
  serving : Bool
  connected : Bool
  hash : Bytes
  fileIdx : Int
  admitted : Bool
  first : Int
  pos : Int
  last : Int
  body : Bytes
  open_ : Bool
  retry : Bool
  queued : Nat
  backlog : Nat
  waiting : Bool
  noProgress : Int
  lastWindow : Int
deriving DecidableEq

namespace Conn

variable (c : Conn)

def disconnectFromHost : Conn := { c with connected := false }

def finishOk : Conn := { c with retry := false, connected := false }

def waitOrGiveUp (now : Int) : Conn :=
  if kGiveUpMs < now - c.noProgress then c.disconnectFromHost else { c with retry := true }

-- The path is looked up only where no file is open.
def ensureOpen (a : Answers) : Conn × Bool :=
  if c.open_ then (c, a.seeks)
  else if a.path = [] || !a.opens then (c, false)
  else ({ c with open_ := true }, a.seeks)

-- The window of deadlines is moved along from time to time.
def refresh (now : Int) : Conn × List Out :=
  if kRefreshMs < now - c.lastWindow then ({ c with lastWindow := now }, [.deadlineWindow c.pos]) else (c, [])

def goOn : Conn :=
  if c.last < c.pos then c.finishOk
  else if c.backlog ≤ kWriteHigh then { c with queued := c.queued + 1 }
  else c

def write (buf : Bytes) (now : Int) : Conn × List Out :=
  let sent := { c with
    body := c.body ++ buf
    backlog := c.backlog + buf.length
    waiting := false
    pos := c.pos + buf.length
    noProgress := now }
  let (moved, outs) := sent.refresh now
  (moved.goOn, .body buf :: outs)

-- What a read at the position gives.
def read (content : Bytes) (a : Answers) : Bytes :=
  let want := min a.avail (c.last - c.pos + 1)
  ((content.drop c.pos.toNat).take want.toNat).take a.count

def serve (content : Bytes) (a : Answers) : Conn × List Out :=
  match { c with retry := false }.ensureOpen a with
  | (c, false) => (c.waitOrGiveUp a.now, [])
  | (c, true) =>
      let buf := c.read content a
      if buf = [] then ({ c with open_ := false, retry := true }, []) else c.write buf a.now

def gateOf (a : Answers) : Gate := if c.admitted then .allow else a.gate.getD .allow

def pump (content : Bytes) (a : Answers) : Conn × List Out :=
  if !c.connected then (c, [])
  else if c.last < c.pos then (c.finishOk, [])
  else if kWriteHigh < c.backlog then (c, [])
  else if a.torrentIndex < 0 then (c.disconnectFromHost, [])
  else if a.avail ≤ 0 then
    ({ c with waiting := true, lastWindow := a.now }.waitOrGiveUp a.now, [.deadlineWindow c.pos])
  else
    match c.gateOf a with
    | .block => (c.disconnectFromHost, [])
    | .wait => (c.waitOrGiveUp a.now, [.deadlineWindow 0])
    | .allow => { c with admitted := c.admitted || a.gate.isSome }.serve content a

def fail (code : Nat) : Conn × List Out :=
  ({ c with backlog := c.backlog + (failText code).length }.disconnectFromHost, [.reply (failText code)])

-- The connection with its headers written.
def answered (t : Target) (look : Lookup) (r : Range) : Conn :=
  { c with
    hash := t.hash
    fileIdx := t.fileIdx
    first := r.start
    pos := r.start
    last := r.last
    backlog := c.backlog + (headerBlock r look.size look.path).length }

def begin (content : Bytes) (headers : Bytes) (look : Lookup) (a : Answers) : Conn × List Out :=
  let c := { c with started := true }
  match targetOf headers with
  | .error code => c.fail code
  | .ok t =>
      if look.torrentIndex < 0 ∨ look.size ≤ 0 ∨ look.path = [] then c.fail 404
      else if look.quarantined then c.fail 403
      else
        let r := (rangeOf headers look.size).clamp look.size
        if r.last < r.start then c.fail 416
        else
          let c := c.answered t look r
          let reply := Out.reply (headerBlock r look.size look.path)
          if t.head then (c.disconnectFromHost, [reply])
          else
            let (c, outs) := { c with serving := true, lastWindow := a.now }.pump content a
            (c, reply :: .deadlineWindow r.start :: outs)

def onReadyRead (content : Bytes) (bytes : Bytes) (look : Lookup) (a : Answers) : Conn × List Out :=
  if c.started then (c, [])
  else
    let c := { c with req := c.req ++ bytes }
    match indexOf (ascii "\r\n\r\n") c.req with
    | none => (if 16 * 1024 < c.req.length then c.disconnectFromHost else c, [])
    | some stop => c.begin content (c.req.take stop) look a

end Conn

inductive Event where
  | readyRead (bytes : Bytes) (look : Lookup) (a : Answers)
  | timeout (a : Answers)
  | zeroDelay (a : Answers)
  | bytesWritten (n : Nat) (a : Answers)
  | pieceFinished (hash : Bytes) (a : Answers)
  | disconnected

def Conn.next (content : Bytes) (c : Conn) : Event → Option (Conn × List Out)
  | .readyRead bytes look a => some (c.onReadyRead content bytes look a)
  | .timeout a => if c.retry then some (c.pump content a) else none
  | .zeroDelay a => if 0 < c.queued then some ({ c with queued := c.queued - 1 }.pump content a) else none
  | .bytesWritten n a =>
      if 0 < n ∧ n ≤ c.backlog then some ({ c with backlog := c.backlog - n }.pump content a) else none
  | .pieceFinished hash a =>
      if c.waiting ∧ hash.map toLower = c.hash.map toLower then some (c.pump content a) else some (c, [])
  | .disconnected => some (c.disconnectFromHost, [])

-- A connection for a file with this content, made at this time.
def machine (content : Bytes) (opened : Int) : Machine Conn Event Out where
  init :=
    { req := []
      started := false
      serving := false
      connected := true
      hash := []
      fileIdx := -1
      admitted := false
      first := 0
      pos := 0
      last := 0
      body := []
      open_ := false
      retry := false
      queued := 0
      backlog := 0
      waiting := false
      noProgress := opened
      lastWindow := opened }
  next := Conn.next content

end BATorrent.StreamConnection
