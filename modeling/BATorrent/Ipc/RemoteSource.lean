import BATorrent.Ipc.MediaFeed

namespace BATorrent.RemoteSource

open MediaFeed (Bytes)

def kReadAhead : Nat := 1024 * 1024
def kCacheBytes : Nat := 32 * 1024 * 1024

structure Chunk where
  offset : Nat
  bytes : Bytes

structure Pending where
  id : UInt32
  offset : Nat
  length : Int

-- Where the reader stands in a call: looking at the cache, with a request to send, or asleep.
inductive Phase where
  | checking
  | asking (p : Pending)
  | waiting

structure Call where
  maxSize : Int
  phase : Phase

-- The device, its position and the call its reader is in.
structure State where
  size : Nat
  cache : List Chunk
  cacheBytes : Nat
  pending : List Pending
  nextId : UInt32
  aborted : Bool
  failed : Bool
  pos : Nat
  call : Option Call

def create (size : Int) : State where
  size := (max 0 size).toNat
  cache := []
  cacheBytes := 0
  pending := []
  nextId := 1
  aborted := false
  failed := false
  pos := 0
  call := none

def Chunk.holds (c : Chunk) (pos : Nat) : Bool :=
  c.offset ≤ pos ∧ pos < c.offset + c.bytes.length

-- The first chunk that holds the position gives what it has from there.
def copyCached (cache : List Chunk) (pos : Nat) (maxSize : Int) : Option Bytes :=
  match cache.find? (fun c => c.holds pos) with
  | some c =>
      let n := min maxSize ((c.offset + c.bytes.length : Nat) - pos)
      some ((c.bytes.drop (pos - c.offset)).take n.toNat)
  | none => none

def pendingCovers (pending : List Pending) (pos : Nat) : Bool :=
  pending.any (fun p => p.offset ≤ pos ∧ (pos : Int) < p.offset + p.length)

-- A 64-bit value kept in 32 bits.
def toInt32 (n : Int) : Int := n.bmod (2 ^ 32)

def missing (s : State) (maxSize : Int) : Pending where
  id := s.nextId
  offset := s.pos
  length := toInt32 (min (max maxSize kReadAhead) (s.size - s.pos))

-- The oldest chunks go while the rest still fills the cache.
def evict : List Chunk → Nat → List Chunk × Nat
  | c :: d :: rest, cacheBytes =>
      if cacheBytes > kCacheBytes then evict (d :: rest) (cacheBytes - c.bytes.length)
      else (c :: d :: rest, cacheBytes)
  | cache, cacheBytes => (cache, cacheBytes)

def deliver (s : State) (id : UInt32) (offset : Nat) (bytes : Bytes) : State :=
  match s.pending.find? (fun p => p.id = id) with
  | none => s
  | some p =>
      if p.offset ≠ offset ∨ bytes = [] ∨ (bytes.length : Int) > p.length ∨
          offset + bytes.length > s.size then s
      else
        let kept := evict (s.cache ++ [⟨offset, bytes⟩]) (s.cacheBytes + bytes.length)
        { s with
          pending := s.pending.eraseP (fun p => p.id = id)
          cache := kept.1
          cacheBytes := kept.2 }

def fail (s : State) (id : UInt32) : State :=
  match s.pending.find? (fun p => p.id = id) with
  | none => s
  | some _ => { s with pending := s.pending.eraseP (fun p => p.id = id), failed := true }

inductive Event where
  | readData (maxSize : Int)
  | look
  | readRequested
  | deadline
  | seek (pos : Nat)
  | abort

-- `returned pos none` is a read that failed, `some bytes` what the buffer was filled with.
inductive Out where
  | returned (pos : Nat) (bytes : Option Bytes)
  | requested (p : Pending)

def State.ret (s : State) (bytes : Option Bytes) : State × List Out :=
  ({ s with call := none, pos := s.pos + (bytes.getD []).length }, [.returned s.pos bytes])

-- One pass of the loop, under the mutex.
def look (s : State) (c : Call) : State × List Out :=
  if s.aborted || s.failed then s.ret none
  else
    match copyCached s.cache s.pos (min c.maxSize (s.size - s.pos)) with
    | some bytes => s.ret (some bytes)
    | none =>
        if pendingCovers s.pending s.pos then
          ({ s with call := some { c with phase := .waiting } }, [])
        else
          let p := missing s c.maxSize
          ({ s with
              nextId := s.nextId + 1
              pending := s.pending ++ [p]
              call := some { c with phase := .asking p } }, [])

def next (s : State) : Event → Option (State × List Out)
  | .readData maxSize =>
      match s.call with
      | some _ => none
      | none =>
          if maxSize ≤ 0 ∨ s.pos ≥ s.size then some (s.ret (some []))
          else some ({ s with call := some ⟨maxSize, .checking⟩ }, [])
  | .look =>
      match s.call with
      | some ⟨_, .asking _⟩ => none
      | some c => some (look s c)
      | none => none
  | .readRequested =>
      match s.call with
      | some ⟨maxSize, .asking p⟩ =>
          some ({ s with call := some ⟨maxSize, .checking⟩ }, [.requested p])
      | _ => none
  | .deadline =>
      match s.call with
      | some ⟨_, .waiting⟩ => some (s.ret none)
      | _ => none
  | .seek pos => if s.call.isNone then some ({ s with pos := pos }, []) else none
  | .abort => some ({ s with aborted := true }, [])

end BATorrent.RemoteSource
