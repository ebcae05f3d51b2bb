import BATorrent.Lib.ByteText
import BATorrent.Lib.Run
import BATorrent.Lib.SortedMap
import BATorrent.Lib.Text
import Mathlib.Data.List.AList
import Mathlib.Data.List.DropRight
import Mathlib.Data.List.Lex
import Mathlib.Data.List.Sort

namespace BATorrent.TrackerScrape

open Lib
open Lib.DataStream (Bytes putBE getBE)

abbrev Text := List Char

section Packets

def kProtocolId : Nat := 0x41727101980

def kActionConnect : Nat := 0

def kActionScrape : Nat := 2

structure Counts where
  seeders : Int32
  leechers : Int32
deriving DecidableEq

-- The big-endian numbers at a place of a packet, 0 where it is too short.
def getAt (k : Nat) (b : Bytes) (pos : Nat) : Nat :=
  match getBE k 0 (b.drop pos) with
  | some r => r.1
  | none => 0

def get32 : Bytes → Nat → Nat := getAt 4

def connectRequest (transaction : UInt32) : Bytes :=
  putBE 8 kProtocolId ++ putBE 4 kActionConnect ++ putBE 4 transaction.toNat

def parseConnect (reply : Bytes) (transaction : UInt32) : Option UInt64 :=
  if reply.length < 16 ∨ get32 reply 0 ≠ kActionConnect ∨ get32 reply 4 ≠ transaction.toNat then none
  else some (UInt64.ofNat (getAt 8 reply 8))

def scrapeRequest (connectionId : UInt64) (transaction : UInt32) (hashes : List Bytes) : Bytes :=
  putBE 8 connectionId.toNat ++ putBE 4 kActionScrape ++ putBE 4 transaction.toNat ++ hashes.flatten

-- The counts at a position of a reply: seeders, completed, leechers.
def countsAt (reply : Bytes) (i : Nat) : Counts :=
  ⟨Int32.ofNat (get32 reply (8 + 12 * i)), Int32.ofNat (get32 reply (8 + 12 * i + 8))⟩

def parseScrape (reply : Bytes) (transaction : UInt32) (hashCount : Nat) : List Counts :=
  if reply.length < 8 + 12 * hashCount ∨ get32 reply 0 ≠ kActionScrape ∨ get32 reply 4 ≠ transaction.toNat then []
  else (List.range hashCount).map (countsAt reply)

end Packets

section Plan

def kMaxPerScrape : Nat := 70

def kMaxTrackers : Nat := 6

-- One of the trackers that will be asked, with all its hashes.
structure Ask where
  tracker : Text
  hashes : List Text

def byTracker (m : List (List Nat × Ask)) (e : Text × Text) : List (List Nat × Ask) :=
  SortedMap.alter (Text.utf16 e.1) (fun had =>
    let a := had.getD ⟨e.1, []⟩
    { a with hashes := a.hashes ++ [e.2] }) m

-- The ones with the most hashes go first, in the order of their names.
def asks (trackersByHash : List (Text × List Text)) : List Ask :=
  let pairs := trackersByHash.flatMap fun e => e.2.map fun t => (t, e.1)
  ((SortedMap.values (pairs.foldl byTracker [])).insertionSort fun a b => b.hashes.length ≤ a.hashes.length).take
    kMaxTrackers

def batchKeys (hashes : List Text) : List (List Text) :=
  (List.range ((hashes.length + kMaxPerScrape - 1) / kMaxPerScrape)).map fun i =>
    (hashes.drop (kMaxPerScrape * i)).take kMaxPerScrape

def toLatin1 (t : Text) : Bytes := t.map fun c => if c.toNat < 256 then UInt8.ofNat c.toNat else 63

def raw (keys : List Text) : List Bytes := keys.map fun h => ByteText.fromHex (toLatin1 h)

end Plan

section Session

-- What is under way once the address of a tracker is known. Batch -1 stands for the connect.
structure Talk where
  addr : UInt32
  tx : UInt32
  cid : UInt64
  batch : Int

structure Session where
  port : UInt16
  hashes : List Text
  done : Bool
  deleted : Bool
  timing : Bool
  looking : Bool
  talk : Option Talk

inductive Act where
  | write (addr : UInt32) (port : UInt16) (packet : Bytes)
  | counts (byHash : AList fun _ : Text => Counts)
  | deleteLater

-- A lookup that ended, a datagram read, the time-out or the deletion of the socket, with the transaction id
-- of the request that is sent next, if one is.
inductive Happens where
  | lookedUp (addr : Option UInt32) (bound : Bool) (tx : UInt32)
  | datagram (reply : Bytes) (tx : UInt32)
  | timeout
  | deletes

def Session.batches (q : Session) : List (List Text) := batchKeys q.hashes

-- The session after it reacted, what it did, and whether it read past the end of its batches.
structure Outcome where
  session : Session
  acts : List Act
  crashed : Bool

def Session.finish (q : Session) (acts : List Act) : Outcome :=
  if q.done then ⟨q, acts, false⟩ else ⟨{ q with done := true }, acts ++ [.deleteLater], false⟩

def Session.send (q : Session) (t : Talk) (acts : List Act) (tx : UInt32) : Outcome :=
  let t := { t with tx := tx }
  match t.batch with
  | .negSucc _ => ⟨{ q with talk := some t }, acts ++ [.write t.addr q.port (connectRequest tx)], false⟩
  | .ofNat i =>
      match q.batches[i]? with
      | none => ⟨q, [], true⟩
      | some keys => ⟨{ q with talk := some t }, acts ++ [.write t.addr q.port (scrapeRequest t.cid tx (raw keys))], false⟩

def Session.advance (q : Session) (t : Talk) (acts : List Act) (tx : UInt32) : Outcome :=
  let t := { t with batch := t.batch + 1 }
  if (q.batches.length : Int) ≤ t.batch then { q with talk := some t }.finish acts else q.send t acts tx

def byHash (keys : List Text) (got : List Counts) : AList fun _ : Text => Counts :=
  (keys.zip got).foldl (fun m e => m.insert e.1 e.2) ∅

def Session.read (q : Session) (t : Talk) (reply : Bytes) (tx : UInt32) : Outcome :=
  match t.batch with
  | .negSucc _ =>
      match parseConnect reply t.tx with
      | none => ⟨q, [], false⟩
      | some cid => q.advance { t with cid := cid } [] tx
  | .ofNat i =>
      match q.batches[i]? with
      | none => ⟨q, [], true⟩
      | some keys =>
          let got := parseScrape reply t.tx keys.length
          if got = [] then ⟨q, [], false⟩ else q.advance t [.counts (byHash keys got)] tx

def Session.react (q : Session) : Happens → Option Outcome
  | .lookedUp addr bound tx =>
      if q.deleted ∨ q.looking = false then none
      else
        let q := { q with looking := false }
        match addr with
        | none => some (q.finish [])
        | some addr => if bound then some (q.send ⟨addr, tx, 0, -1⟩ [] tx) else some (q.finish [])
  | .datagram reply tx =>
      if q.deleted then none else q.talk.map fun t => q.read t reply tx
  | .timeout => if q.deleted ∨ q.timing = false then none else some ({ q with timing := false }.finish [])
  | .deletes => if q.done ∧ q.deleted = false then some ⟨{ q with deleted := true }, [], false⟩ else none

end Session

section Scraper

structure State where
  sessions : List Session
  pending : Int
  idle : Bool
  crashed : Bool

inductive Event where
  | tracker (i : Nat) (h : Happens)
  | later

inductive Out where
  | act (i : Nat) (a : Act)
  | finished

def Act.finishes : Act → Bool
  | .deleteLater => true
  | _ => false

-- What follows the last colon of a tracker, 0 where it is no number.
def portOf (tracker : Text) : UInt16 :=
  match Text.signed? (Text.trim (tracker.rtakeWhile (· ≠ ':'))) with
  | some n => if 0 ≤ n ∧ n < 2 ^ 32 then UInt16.ofNat n.toNat else 0
  | none => 0

def askTracker (a : Ask) : Session := ⟨portOf a.tracker, a.hashes, false, false, true, true, none⟩

-- With no tracker to ask, the end is signalled later.
def scrape (trackersByHash : List (Text × List Text)) : State :=
  let sessions := (asks trackersByHash).map askTracker
  ⟨sessions, sessions.length, sessions = [], false⟩

def took (s : State) (i : Nat) (o : Outcome) : State × List Out :=
  let ends := o.acts.any Act.finishes
  let pending := if ends then s.pending - 1 else s.pending
  (⟨s.sessions.set i o.session, pending, s.idle, o.crashed⟩,
    o.acts.map (.act i) ++ if ends ∧ pending = 0 then [.finished] else [])

def next (s : State) : Event → Option (State × List Out)
  | .later => if s.crashed ∨ s.idle = false then none else some ({ s with idle := false }, [.finished])
  | .tracker i h =>
      if s.crashed then none
      else s.sessions[i]?.bind fun q => (q.react h).map fun o => took s i o

def machine (trackersByHash : List (Text × List Text)) : Machine State Event Out := ⟨scrape trackersByHash, next⟩

end Scraper

end BATorrent.TrackerScrape
