import BATorrent.Lib.Run
import Mathlib.Logic.Function.Basic
import Mathlib.Data.List.FinRange

namespace BATorrent.FrameRing

open Lib

def kSlots : Nat := 3

def kMaxSlotBytes : Int := 64 * 1024 * 1024

-- Shared memory, told apart by the generation that its name was made from.
structure Segment where
  generation : Int
deriving DecidableEq

inductive Report where
  | needRing (bytes : Int)
  | ringReady (generation : Int)
  | frame (generation slot : Int)
deriving DecidableEq

inductive Command where
  | ring (generation bytes : Int) (token : Segment)
  | release (generation slot : Int)
deriving DecidableEq

section MediaHost

-- The child. While it packs a frame into a slot it does nothing else.
structure MediaHost where
  ring : Option Segment
  slotBytes : Int
  generation : Int
  ringAsked : Int
  busy : Fin kSlots → Bool
  writing : Option (Fin kSlots)

namespace MediaHost

def start : MediaHost := ⟨none, 0, 0, 0, fun _ => false, none⟩

def attachRing (h : MediaHost) (generation bytes : Int) (token : Segment) (mapped : Option Int) :
    MediaHost × List Report :=
  match mapped with
  | none => (h, [])
  | some size =>
      if bytes ≤ 0 ∨ size < bytes * kSlots then (h, [])
      else
        ({ h with ring := some token, slotBytes := bytes, generation := generation
                  busy := fun _ => false }, [.ringReady generation])

def release (h : MediaHost) (generation slot : Int) : MediaHost :=
  if hslot : generation = h.generation ∧ 0 ≤ slot ∧ slot < kSlots then
    { h with busy := Function.update h.busy ⟨slot.toNat, by omega⟩ false }
  else h

def dispatch (h : MediaHost) (mapped : Option Int) : Command → MediaHost × List Report
  | .ring generation bytes token => h.attachRing generation bytes token mapped
  | .release generation slot => (h.release generation slot, [])

def freeSlot (h : MediaHost) : Option (Fin kSlots) :=
  (List.finRange kSlots).find? fun slot => !h.busy slot

-- `onFrame` up to the copy: a ring is asked for once per size, and where no slot is free the frame
-- is dropped.
def onFrame (h : MediaHost) (need : Int) : MediaHost × List Report :=
  if h.ring.isNone ∨ need > h.slotBytes then
    if need > h.ringAsked then ({ h with ringAsked := need }, [.needRing need]) else (h, [])
  else
    match h.freeSlot with
    | none => (h, [])
    | some slot => ({ h with writing := some slot }, [])

-- The rest of it, when the copy is over.
def packed (h : MediaHost) (slot : Fin kSlots) (ok : Bool) : MediaHost × List Report :=
  if ok then
    ({ h with writing := none, busy := Function.update h.busy slot true },
      [.frame h.generation slot])
  else ({ h with writing := none }, [])

end MediaHost

end MediaHost

section IsolatedMediaPlayer

-- The window. While it copies a frame out of a slot it does nothing else.
structure IsolatedMediaPlayer where
  ring : Option Segment
  generation : Int
  slotBytes : Int
  reading : Option (Int × Int)

namespace IsolatedMediaPlayer

def shareRing (p : IsolatedMediaPlayer) (slotBytes : Int) (shared : Bool) :
    IsolatedMediaPlayer × List Command :=
  if slotBytes ≤ p.slotBytes ∨ slotBytes ≤ 0 ∨ slotBytes > kMaxSlotBytes then (p, [])
  else
    let size := slotBytes + slotBytes / 4
    let gen := p.generation + 1
    if shared then
      ({ p with ring := some ⟨gen⟩, slotBytes := size, generation := gen }, [.ring gen size ⟨gen⟩])
    else (p, [])

def usable (p : IsolatedMediaPlayer) (generation slot : Int) : Bool :=
  p.ring.isSome && generation = p.generation && 0 ≤ slot && slot < kSlots

-- `showFrame` up to the copy: a frame of another ring is given back unread.
def showFrame (p : IsolatedMediaPlayer) (generation slot : Int) :
    IsolatedMediaPlayer × List Command :=
  if p.usable generation slot then ({ p with reading := some (generation, slot) }, [])
  else (p, [.release generation slot])

def onEvent (p : IsolatedMediaPlayer) (shared : Bool) : Report → IsolatedMediaPlayer × List Command
  | .needRing bytes => p.shareRing bytes shared
  | .ringReady _ => (p, [])
  | .frame generation slot => p.showFrame generation slot

-- The generations go on counting over the children.
def teardown (p : IsolatedMediaPlayer) : IsolatedMediaPlayer :=
  { p with ring := none, slotBytes := 0 }

end IsolatedMediaPlayer

end IsolatedMediaPlayer

structure State where
  host : MediaHost
  player : IsolatedMediaPlayer
  toPlayer : List Report
  toHost : List Command

inductive Event where
  | frameDecoded (need : Int)
  | framePacked (ok : Bool)
  | hostReads (mapped : Option Int)
  | playerReads (shared : Bool)
  | frameShown
  | childLost

namespace State

def onFrame (s : State) (need : Int) : State :=
  let r := s.host.onFrame need
  { s with host := r.1, toPlayer := s.toPlayer ++ r.2 }

def packed (s : State) (slot : Fin kSlots) (ok : Bool) : State :=
  let r := s.host.packed slot ok
  { s with host := r.1, toPlayer := s.toPlayer ++ r.2 }

def dispatch (s : State) (mapped : Option Int) (c : Command) (rest : List Command) : State :=
  let r := s.host.dispatch mapped c
  { s with host := r.1, toPlayer := s.toPlayer ++ r.2, toHost := rest }

def onEvent (s : State) (shared : Bool) (r : Report) (rest : List Report) : State :=
  let p := s.player.onEvent shared r
  { s with player := p.1, toPlayer := rest, toHost := s.toHost ++ p.2 }

def shown (s : State) (generation slot : Int) : State :=
  { s with player := { s.player with reading := none }
           toHost := s.toHost ++ [.release generation slot] }

-- The socket goes with the child, and with it what was on its way. Another child starts anew.
def childLost (s : State) : State :=
  { host := .start, player := s.player.teardown, toPlayer := [], toHost := [] }

def act (s : State) : Event → Option State
  | .frameDecoded need => if s.host.writing.isNone then some (s.onFrame need) else none
  | .framePacked ok => s.host.writing.map fun slot => s.packed slot ok
  | .hostReads mapped =>
      match s.host.writing, s.toHost with
      | none, c :: rest => some (s.dispatch mapped c rest)
      | _, _ => none
  | .playerReads shared =>
      match s.player.reading, s.toPlayer with
      | none, r :: rest => some (s.onEvent shared r rest)
      | _, _ => none
  | .frameShown => s.player.reading.map fun held => s.shown held.1 held.2
  | .childLost => if s.player.reading.isNone then some s.childLost else none

end State

def init : State := ⟨.start, ⟨none, 0, 0, none⟩, [], []⟩

def machine : Machine State Event Unit where
  init := init
  next s e := (s.act e).map (·, [])

section Property

-- Bytes of a ring.
structure Region where
  segment : Segment
  first : Int
  size : Int

def Apart (r r' : Region) : Prop :=
  r.segment ≠ r'.segment ∨ r.first + r.size ≤ r'.first ∨ r'.first + r'.size ≤ r.first

-- What the child may be writing.
def MediaHost.writes (h : MediaHost) : Option Region :=
  h.ring.bind fun ring => h.writing.map fun slot => ⟨ring, slot.val * h.slotBytes, h.slotBytes⟩

-- What the window may be reading.
def IsolatedMediaPlayer.reads (p : IsolatedMediaPlayer) : Option Region :=
  p.ring.bind fun ring => p.reading.map fun held => ⟨ring, held.2 * p.slotBytes, p.slotBytes⟩

-- The frame or the release of a slot of the child's ring is under way, or the window holds it.
def State.InUse (s : State) (slot : Fin kSlots) : Prop :=
  .frame s.host.generation slot ∈ s.toPlayer ∨ .release s.host.generation slot ∈ s.toHost ∨
    s.player.reading = some (s.host.generation, (slot : Int))

structure Safe (s : State) : Prop where
  apart : ∀ r ∈ s.player.reads, ∀ w ∈ s.host.writes, Apart r w
  fresh : ∀ slot ∈ s.host.writing, ¬ s.InUse slot
  busy_iff : ∀ slot, s.host.busy slot = true ↔ s.InUse slot

end Property

end BATorrent.FrameRing
