import BATorrent.Bridges.LibraryGroups

namespace BATorrent.LibraryModel

open Lib
open LibraryGroups (Text)

-- An info-hash, or the id of a direct download: hex digits, so no '#'.
structure Hash where
  text : Text
  plain : '#' ∉ text

structure Item where
  member : LibraryGroups.Member
  hash : Hash

-- `members` are rows of the filter, or none for one that is gone.
structure Row where
  key : Text
  groupKey : Text
  members : List (Option Nat)
  group : Bool
  child : Bool
deriving DecidableEq

-- The filtered rows, and the groups that are open.
structure Filter where
  items : List Item
  expandable : Bool
  expanded : Text → Bool

namespace Filter

variable (f : Filter)

def members : List LibraryGroups.Member := f.items.map Item.member

def hashAt (i : Nat) : Text := (f.items[i]?.map (·.hash.text)).getD []

def isOpen (key : Text) : Bool := f.expandable && f.expanded key

end Filter

def rowKey (base : Text) (dup : Nat) : Text := if dup = 0 then base else base ++ '#' :: Text.number dup

def baseKey (hash : Text) : Text := 't' :: ':' :: hash

-- A hash can back two rows; `seen` is how many it has so far.
def label (hashAt : Nat → Text) : List LibraryGroups.Row → (Text → Nat) → List Row
  | [], _ => []
  | lr :: rest, seen =>
      let base := baseKey (hashAt (lr.members.headD 0))
      { key := if lr.group then 'g' :: ':' :: lr.groupKey else rowKey base (seen base)
        groupKey := lr.groupKey
        members := lr.members.map some
        group := lr.group
        child := lr.child } ::
        label hashAt rest (if lr.group then seen else Function.update seen base (seen base + 1))

def computeRows (fold : Text → Text) (f : Filter) : List Row :=
  label f.hashAt (LibraryGroups.layout fold f.members f.isOpen) fun _ => 0

inductive Notice where
  | rowsRemoved (first last : Nat)
  | layoutChanged (places : List Nat)
  | rowsInserted (first last : Nat)
  | dataChanged (first last : Nat)
deriving DecidableEq

-- The rows that are there once a notice is out, which the views may read.
abbrev Sent := List (Notice × List Row)

-- What a view makes of a notice, or none if it names rows that are not there.
def receive (keys : List Text) : Notice → List Row → Option (List Text)
  | .rowsRemoved first last, _ =>
      if first ≤ last ∧ last < keys.length then some (keys.take first ++ keys.drop (last + 1)) else none
  | .layoutChanged places, _ =>
      if places.Perm (List.range keys.length) then
        some ((List.range keys.length).filterMap fun k => keys[places.idxOf k]?)
      else none
  | .rowsInserted first last, rows =>
      if first ≤ last ∧ first ≤ keys.length ∧ rows.length = keys.length + (last + 1 - first) then
        some (keys.take first ++ ((rows.map Row.key).take (last + 1)).drop first ++ keys.drop first)
      else none
  | .dataChanged first last, _ => if first ≤ last ∧ last < keys.length then some keys else none

def follow (sent : Sent) (keys : List Text) : Option (List Text) :=
  sent.foldlM (fun keys notice => receive keys notice.1 notice.2) keys

-- A key that comes twice stands for its last row.
def placeOf : List Row → Text → Option Nat
  | [], _ => none
  | r :: rest, key =>
      match placeOf rest key with
      | some i => some (i + 1)
      | none => if r.key = key then some 0 else none

def runStart (gone : Nat → Bool) : Nat → Nat
  | 0 => 0
  | first + 1 => if gone first then runStart gone first else first + 1

theorem runStart_le (gone : Nat → Bool) (i : Nat) : runStart gone i ≤ i := by
  induction i with
  | zero => exact Nat.le_refl 0
  | succ i ih =>
      rw [runStart]
      split_ifs
      · exact ih.trans (Nat.le_succ i)
      · exact Nat.le_refl _

def gone (target : Text → Option Nat) (rows : List Row) (i : Nat) : Bool :=
  match rows[i]? with
  | some r => (target r.key).isNone
  | none => false

-- From the end, whole runs of rows that have no place in the new list.
def dropGone (target : Text → Option Nat) (rows : List Row) : Nat → List Row × Sent
  | 0 => (rows, [])
  | i + 1 =>
      if gone target rows i then
        let first := runStart (gone target rows) i
        let rest := rows.take first ++ rows.drop (i + 1)
        let (left, sent) := dropGone target rest first
        (left, (.rowsRemoved first i, rest) :: sent)
      else dropGone target rows i
termination_by i => i
decreasing_by
  · exact Nat.lt_succ_of_le (runStart_le _ _)
  · exact Nat.lt_succ_self _

def rank (target : Text → Option Nat) (r : Row) : Nat := (target r.key).getD 0

def settle (target : Text → Option Nat) (rows : List Row) : List Row × Sent :=
  if rows.IsChain fun a b => ¬ rank target b < rank target a then (rows, [])
  else
    let sorted := rows.insertionSort fun a b => rank target a ≤ rank target b
    (sorted, [(.layoutChanged (rows.map fun r => (placeOf sorted r.key).getD 0), sorted)])

-- None where a row would go past the end.
def insertRun : List Row → Nat → List Row → Option (List Row)
  | [], _, rows => some rows
  | r :: run, k, rows => if k ≤ rows.length then insertRun run (k + 1) (rows.insertIdx k r) else none

-- The new rows from the jth on; `present` are the keys that the list had before.
def fill (present : Text → Bool) : List Row → Nat → List Row → Option (List Row × Sent × List Nat)
  | [], _, rows => some (rows, [], [])
  | r :: rest, j, rows =>
      if present r.key then
        rows[j]?.bind fun cur =>
          (fill present rest (j + 1) (rows.set j r)).map fun (left, sent, regrouped) =>
            (left, sent, if cur.group && cur.members ≠ r.members then j :: regrouped else regrouped)
      else
        let run := r :: rest.takeWhile fun r => !present r.key
        (insertRun run j rows).bind fun more =>
          (fill present (rest.dropWhile fun r => !present r.key) (j + run.length) more).map
            fun (left, sent, regrouped) =>
              (left, (.rowsInserted j (j + run.length - 1), more) :: sent, regrouped)
termination_by next => next.length
decreasing_by
  · exact Nat.lt_succ_self _
  · exact Nat.lt_succ_of_le ((List.dropWhile_sublist _).length_le)

-- The new m_rows, what the views are told, and whether structureChanged goes out.
def rebuild (m_rows next : List Row) : Option (List Row × Sent × Bool) :=
  let target := placeOf next
  let (kept, removed) := dropGone target m_rows m_rows.length
  let (kept, moved) := settle target kept
  (fill (fun key => (kept.map Row.key).contains key) next 0 kept).map fun (rows, inserted, regrouped) =>
    let structural := removed ++ moved ++ inserted
    let redrawn := (if rows.isEmpty then [] else [.dataChanged 0 (rows.length - 1)]) ++
      regrouped.map fun g => .dataChanged g g
    (rows, structural ++ redrawn.map fun notice => (notice, rows), !structural.isEmpty)

end BATorrent.LibraryModel
