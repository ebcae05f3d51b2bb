import BATorrent.Lib.ByteText
import BATorrent.Lib.Text
import BATorrent.Lib.Utf8
import Mathlib.Data.List.AList

namespace BATorrent.AchievementFormats

open Lib
open Lib.DataStream (Bytes)

abbrev Text := List Char

-- The name of an achievement with when it was unlocked, in seconds; 0 where the time is unknown.
abbrev Unlocks := AList fun _ : Text => Int

abbrev Section := AList fun _ : Text => Text

abbrev Ini := AList fun _ : Text => Section

inductive Format where
  | goldbergJson
  | codexIni
  | onlineFixIni
  | skidrowIni
  | threeDmIni
  | rldIni
  | creamApiIni
deriving DecidableEq

-- The values that are read of an object of a JSON document: `earned` is a truth value or reads as an int.
structure Entry where
  name : Text
  earned : Bool ⊕ Int
  earnedTime : Int

-- What is neither reads as an object with no members.
inductive Document where
  | array (items : List Entry)
  | object (members : List (Text × Entry))

def normalizeTime (t : Int) : Int :=
  if t ≤ 0 then 0
  else if 100000000000 < t then t / 1000
  else t

section Ini

def sameName (a b : Text) : Bool := a.map Text.foldCase == b.map Text.foldCase

def parseLine (out : Ini × Text) (raw : Text) : Ini × Text :=
  let line := Text.trimmed raw
  if line = [] ∨ line.head? = some ';' ∨ line.head? = some '#' then out
  else if line.head? = some '[' ∧ line.getLast? = some ']' then
    (out.1, Text.trimmed ((line.drop 1).take (line.length - 2)))
  else
    match line.idxOf? '=' with
    | none => out
    | some 0 => out
    | some eq =>
        let kv := (out.1.lookup out.2).getD ∅
        (out.1.insert out.2 (kv.insert (Text.trimmed (line.take eq)) (Text.trimmed (line.drop (eq + 1)))), out.2)

-- What stands for bytes that are no UTF-8 is up to the decoder.
def parseIni (repaired : Bytes → Text) (bytes : Bytes) : Ini :=
  (((Utf8.withoutMark (Utf8.decode repaired bytes)).splitOn '\n').foldl parseLine (∅, [])).1

def truthy (v : Text) : Bool :=
  let s := (Text.trimmed v).map Char.toLower
  s == ['1'] || s == ['t', 'r', 'u', 'e']

def number (v : Text) : Int :=
  let n := Text.toLongLong v
  if 0 < n then normalizeTime n else 0

def toLatin1 (t : Text) : Bytes := t.map fun c => if c.toNat < 256 then UInt8.ofNat c.toNat else 63

-- The hex of a little-endian uint32.
def hexLe32 (v : Text) : Int :=
  match ByteText.fromHex (toLatin1 (Text.trimmed v)) with
  | b0 :: b1 :: b2 :: b3 :: _ => b0.toNat + b1.toNat * 2 ^ 8 + b2.toNat * 2 ^ 16 + b3.toNat * 2 ^ 24
  | _ => 0

def value (kv : Section) (keys : List Text) : Text :=
  (keys.findSome? fun k => (kv.entries.find? fun e => sameName e.1 k).map Sigma.snd).getD []

end Ini

section Unlocks

def earned : Bool ⊕ Int → Bool
  | .inl b => b
  | .inr n => n == 1

def take (out : Unlocks) (id : Text) (o : Entry) : Unlocks :=
  if id = [] ∨ earned o.earned = false then out else out.insert id (normalizeTime o.earnedTime)

def goldberg (doc : Document) : Unlocks :=
  match doc with
  | .array items => items.foldl (fun out o => take out o.name o) ∅
  | .object members => members.foldl (fun out m => take out m.1 m.2) ∅

-- One unlock for each section of the file for which there is one.
def perSection (unlockedAt : Text → Section → Option Int) (ini : Ini) : Unlocks :=
  ini.entries.foldl (fun out s =>
    match unlockedAt s.1 s.2 with
    | some t => out.insert s.1 t
    | none => out) ∅

def codex : Ini → Unlocks := perSection fun _ kv =>
  let got := truthy (value kv ["Achieved".toList, "HaveAchieved".toList, "Unlocked".toList])
  let cur := Text.toLongLong (value kv ["CurProgress".toList])
  let max := Text.toLongLong (value kv ["MaxProgress".toList])
  if got ∨ (0 < cur ∧ cur = max) then
    some (number (value kv ["UnlockTime".toList, "HaveAchievedTime".toList, "Time".toList]))
  else none

def onlineFix : Ini → Unlocks := perSection fun _ kv =>
  if truthy (value kv ["achieved".toList]) then some (number (value kv ["timestamp".toList, "TimeUnlocked".toList]))
  else none

def skidrow (ini : Ini) : Unlocks :=
  match ini.lookup "Achievements".toList with
  | none => ∅
  | some sec => sec.entries.foldl (fun out kv =>
      let f := kv.2.splitOn '@'
      if (f[0]?).map Text.trimmed = some ['1'] then out.insert kv.1 (number (f.getLast?.getD [])) else out) ∅

def threeDm (ini : Ini) : Unlocks :=
  let state := (ini.lookup "State".toList).getD ∅
  let time := (ini.lookup "Time".toList).getD ∅
  state.entries.foldl (fun out kv =>
    if Text.trimmed kv.2 = "0101".toList then
      out.insert kv.1 (normalizeTime (hexLe32 ((time.lookup kv.1).getD [])))
    else out) ∅

def rld : Ini → Unlocks := perSection fun key kv =>
  if sameName key "Steam".toList then none
  else if hexLe32 (value kv ["State".toList]) = 1 then some (normalizeTime (hexLe32 (value kv ["Time".toList])))
  else none

def creamApi : Ini → Unlocks := perSection fun _ kv =>
  if truthy (value kv ["achieved".toList]) then some (number (value kv ["unlocktime".toList])) else none

-- How a file reads as JSON is up to the JSON reader.
def parse (fromJson : Bytes → Document) (repaired : Bytes → Text) : Format → Bytes → Unlocks
  | .goldbergJson, bytes => goldberg (fromJson bytes)
  | .codexIni, bytes => codex (parseIni repaired bytes)
  | .onlineFixIni, bytes => onlineFix (parseIni repaired bytes)
  | .skidrowIni, bytes => skidrow (parseIni repaired bytes)
  | .threeDmIni, bytes => threeDm (parseIni repaired bytes)
  | .rldIni, bytes => rld (parseIni repaired bytes)
  | .creamApiIni, bytes => creamApi (parseIni repaired bytes)

end Unlocks

end BATorrent.AchievementFormats
