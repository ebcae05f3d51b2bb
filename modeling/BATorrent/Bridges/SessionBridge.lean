import BATorrent.Downloads.HttpMergeEngine
import BATorrent.Lib.Run
import Mathlib.Data.List.Sort

namespace BATorrent.SessionBridge

open Lib

variable {α : Type}

-- No row is -1.
structure State (α : Type) where
  session : HttpMergeEngine α
  selectedIndex : Option Nat
  selectedRows : List Nat
deriving DecidableEq

-- `moved` is a move that the session made, the others are signals.
inductive Out where
  | moved (row target : Nat)
  | queueMoved (row target : Nat)
  | queueRefreshNeeded
deriving DecidableEq

inductive Event (α : Type) where
  | setSelectedRows (rows : List Nat)
  | addTorrent (hash : α)
  | addHttp (hash : α)
  | removeTorrent (index : Nat)
  | queueUpSelected
  | queueDownSelected
  | queueTopSelected
  | queueBottomSelected
deriving DecidableEq

def resolveRows (rows : List Nat) (index : Option Nat) : List Nat :=
  if rows ≠ [] then rows else index.toList

def above (r : Nat) : Option Nat := if 0 < r then some (r - 1) else none

def below (lastIdx r : Nat) : Option Nat := if r < lastIdx then some (r + 1) else none

namespace State

variable (s : State α)

def rows : List Nat := resolveRows s.selectedRows s.selectedIndex

def setSelectedRows (rows : List Nat) : State α :=
  { s with selectedRows := rows, selectedIndex := rows.getLast? }

def onTorrentRemoved (index : Nat) : State α :=
  { s with
    selectedRows := (s.selectedRows.filter (· ≠ index)).map fun r => if index < r then r - 1 else r
    selectedIndex := s.selectedIndex.bind fun r =>
      if r = index then none else some (if index < r then r - 1 else r) }

def removeTorrent (index : Nat) : State α :=
  let (session, signal) := s.session.removeTorrent index
  match signal with
  | none => { s with session := session }
  | some index => { s with session := session }.onTorrentRemoved index

def setTorrentQueuePosition (row target : Nat) : State α × List Out :=
  match s.session.setTorrentQueuePosition row target with
  | none => (s, [])
  | some session => ({ s with session := session }, [.moved row target])

-- The loop of both single steps, with the row beside each row that the step goes to.
def slide (beside : Nat → Option Nat) : State α → List Nat → List Nat → State α × List Nat × List Out
  | s, newRows, [] => (s, newRows, [])
  | s, newRows, r :: rows =>
      match (beside r).filter (· ∉ newRows) with
      | some target =>
          let (s, moved) := s.setTorrentQueuePosition r target
          let (s, newRows, outs) := slide beside s (newRows ++ [target]) rows
          (s, newRows, moved ++ .queueMoved r target :: outs)
      | none => slide beside s (newRows ++ [r]) rows

def queueUpSelected : State α × List Out :=
  if s.rows = [] then (s, [])
  else
    let (s, newRows, outs) := slide above s [] (s.rows.insertionSort (· ≤ ·))
    ({ s with selectedRows := newRows, selectedIndex := newRows.getLast? }, outs)

def queueDownSelected : State α × List Out :=
  if s.rows = [] then (s, [])
  else
    let lastIdx := s.session.torrentCount - 1
    let (s, newRows, outs) := slide (below lastIdx) s [] (s.rows.insertionSort (· ≥ ·))
    ({ s with selectedRows := newRows, selectedIndex := newRows.head? }, outs)

def moveAll (target : Nat) : State α → List Nat → State α × List Out
  | s, [] => (s, [])
  | s, r :: rows =>
      let (s, moved) := s.setTorrentQueuePosition r target
      let (s, outs) := moveAll target s rows
      (s, moved ++ outs)

-- To the first row or to the last, with whether a row on its own has to move.
def queueTo (target : Nat) (away : Nat → Bool) : State α × List Out :=
  match s.rows with
  | [r] =>
      if away r then
        let (s, moved) := s.setTorrentQueuePosition r target
        ({ s with selectedRows := [target], selectedIndex := some target },
          moved ++ [.queueMoved r target])
      else
        let (s, outs) := moveAll target s [r]
        (s, outs ++ [.queueRefreshNeeded])
  | rows =>
      let (s, outs) := moveAll target s rows
      (s, outs ++ [.queueRefreshNeeded])

def queueTopSelected : State α × List Out := s.queueTo 0 (0 < ·)

def queueBottomSelected : State α × List Out :=
  let last := s.session.torrentCount - 1
  s.queueTo last (· < last)

variable [DecidableEq α]

-- A hash has one row, and a selection is of rows there are.
def next : Event α → Option (State α × List Out)
  | .setSelectedRows rows =>
      if rows.Nodup ∧ ∀ r ∈ rows, r < s.session.torrentCount then some (s.setSelectedRows rows, [])
      else none
  | .addTorrent hash =>
      if hash ∈ s.session.hashes then none
      else some ({ s with session := s.session.addTorrent hash }, [])
  | .addHttp hash =>
      if hash ∈ s.session.hashes then none
      else some ({ s with session := s.session.addHttp hash }, [])
  | .removeTorrent index => some (s.removeTorrent index, [])
  | .queueUpSelected => some s.queueUpSelected
  | .queueDownSelected => some s.queueDownSelected
  | .queueTopSelected => some s.queueTopSelected
  | .queueBottomSelected => some s.queueBottomSelected

end State

-- A selection over rows with hashes of their own. Where several rows are selected, the one in focus
-- is one of them.
structure Consistent (s : State α) : Prop where
  hashes : s.session.hashes.Nodup
  nodup : s.selectedRows.Nodup
  rows : ∀ r ∈ s.rows, r < s.session.torrentCount
  focus : ∀ r, s.selectedIndex = some r → r ∈ s.rows

def machine [DecidableEq α] (start : {s : State α // Consistent s}) :
    Machine (State α) (Event α) Out where
  init := start.1
  next s e := s.next e

end BATorrent.SessionBridge
