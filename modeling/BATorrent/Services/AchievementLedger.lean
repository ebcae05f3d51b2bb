import BATorrent.Lib.Text
import Mathlib.Data.List.AList

namespace BATorrent.AchievementLedger

open Lib

abbrev Text := List Char

-- Seconds, zero where the time is unknown.
abbrev Unlocks := AList fun _ : Text => Int

structure Game where
  title : Text
  unlocks : Unlocks

abbrev Games := AList fun _ : Int32 => Game

section Fold

def earliest (a b : Int) : Int :=
  if a ≤ 0 then b
  else if b ≤ 0 then a
  else min a b

def foldUnlock (mine : Unlocks × Nat) (u : Σ _ : Text, Int) : Unlocks × Nat :=
  match mine.1.lookup u.1 with
  | none => (mine.1.insert u.1 u.2, mine.2 + 1)
  | some had => (mine.1.insert u.1 (earliest had u.2), mine.2)

def foldGame (into : Games × Nat) (g : Σ _ : Int32, Game) : Games × Nat :=
  let mine := (into.1.lookup g.1).getD ⟨[], ∅⟩
  let title := if mine.title = [] then g.2.title else mine.title
  let unlocks := g.2.unlocks.entries.foldl foldUnlock (mine.unlocks, into.2)
  (into.1.insert g.1 ⟨title, unlocks.1⟩, unlocks.2)

-- With how many unlocks were added.
def fold (into «from» : Games) : Games × Nat := «from».entries.foldl foldGame (into, 0)

end Fold

section Json

inductive Json where
  | null
  | number (d : Int)
  | string (s : Text)
  | object (fields : List (Text × Json))

abbrev JsonObject := List (Text × Json)

namespace Json

def toObject : Json → JsonObject
  | .object fields => fields
  | _ => []

def toString : Json → Text
  | .string s => s
  | _ => []

def toDouble : Json → Int
  | .number d => d
  | _ => 0

end Json

def value (o : JsonObject) (key : Text) : Json := (o.lookup key).getD .null

-- The nearest double, the even one of two. A double that is a whole number is that number here.
def double (t : Int) : Int :=
  let n := t.natAbs
  if n < 2 ^ 53 then t
  else
    let unit := 2 ^ (n.log2 - 52)
    let low := n / unit
    let up : Bool := unit < 2 * (n % unit) || (unit == 2 * (n % unit) && low % 2 == 1)
    t.sign * ((low + up.toNat) * unit)

def kFormat : Int := 1

def gameObject (g : Game) : JsonObject :=
  (if g.title = [] then [] else [("title".toList, .string g.title)]) ++
    [("unlocks".toList, .object (g.unlocks.entries.map fun u => (u.1, .number (double u.2))))]

def toJson (games : Games) : JsonObject :=
  [("format".toList, .number kFormat),
    ("games".toList, .object (games.entries.map fun g => (Text.number g.1.toInt, .object (gameObject g.2))))]

def toInt (s : Text) : Option Int32 :=
  match Text.signed? (Text.trim s) with
  | some n => if -(2 ^ 31) ≤ n ∧ n < 2 ^ 31 then some (Int32.ofInt n) else none
  | none => none

-- What a double is as a 64-bit number. One that is out of range is none, and `wild` is what comes of it.
def qint64 (wild : Int → Int) (d : Int) : Int := if -(2 ^ 63) ≤ d ∧ d < 2 ^ 63 then d else wild d

variable (wild : Int → Int)

def readUnlock (unlocks : Unlocks) (u : Text × Json) : Unlocks :=
  if u.1 = [] then unlocks else unlocks.insert u.1 (qint64 wild u.2.toDouble)

def readGame (parsed : Games) (g : Text × Json) : Games :=
  match toInt g.1 with
  | none => parsed
  | some appId =>
      if appId ≤ 0 then parsed
      else
        let game := g.2.toObject
        let unlocks := (value game "unlocks".toList).toObject.foldl (readUnlock wild) ∅
        if unlocks.entries = [] then parsed
        else parsed.insert appId ⟨(value game "title".toList).toString, unlocks⟩

def fromJson (root : JsonObject) : Option Games :=
  match value root "games".toList with
  | .object games => some (games.foldl (readGame wild) ∅)
  | _ => none

end Json

section Runs

-- A document is what the object of it is written as and read from.
structure Format where
  Document : Type
  document : JsonObject → Document
  object : Document → JsonObject

-- What a ledger goes through: others are folded into it, or it is saved and read again by the next start.
inductive Step where
  | fold («from» : Games)
  | reload

variable (format : Format) (wild : Int → Int)

def reload (games : Games) : Games := (fromJson wild (format.object (format.document (toJson games)))).getD ∅

def step (games : Games) : Step → Games
  | .fold other => (fold games other).1
  | .reload => reload format wild games

def run (steps : List Step) : Games := steps.foldl (step format wild) ∅

end Runs

end BATorrent.AchievementLedger
