import BATorrent.Lib.Text

namespace BATorrent.SubtitleParser

open Lib

abbrev Text := List Char

structure SubtitleCue where
  startMs : Int
  endMs : Int
  text : Text
deriving DecidableEq

section Timestamps

def digitsUpTo (limit : Nat) (t : Text) : Option (Text × Text) :=
  let ds := t.takeWhile Char.isDigit
  if 1 ≤ ds.length ∧ ds.length ≤ limit then some (ds, t.drop ds.length) else none

def afterColon : Text → Option Text
  | ':' :: t => some t
  | _ => none

def secondsAndMillis (t : Text) : Option (Text × Text) := do
  let (s, t) ← digitsUpTo 2 t
  match t with
  | [] => none
  | sep :: t =>
      if sep = '.' ∨ sep = ',' then do
        let (ms, t) ← digitsUpTo 3 t
        if t = [] then some (s, ms) else none
      else none

def number (ds : Text) : Int := Nat.ofDigitChars 10 ds 0

def leftJustified (width : Nat) (c : Char) (t : Text) : Text := t ++ List.replicate (width - t.length) c

def millis (h mi s ms : Text) : Int :=
  ((number h * 60 + number mi) * 60 + number s) * 1000 + number (leftJustified 3 '0' ms)

def withHours (t : Text) : Option Int := do
  let (h, t) ← digitsUpTo 2 t
  let t ← afterColon t
  let (mi, t) ← digitsUpTo 2 t
  let t ← afterColon t
  let (s, ms) ← secondsAndMillis t
  some (millis h mi s ms)

def withoutHours (t : Text) : Option Int := do
  let (mi, t) ← digitsUpTo 2 t
  let t ← afterColon t
  let (s, ms) ← secondsAndMillis t
  some (millis [] mi s ms)

def parseTimestamp (ts : Text) : Int :=
  let t := Text.trimmed ts
  ((withHours t).or (withoutHours t)).getD (-1)

end Timestamps

section Cleaning

-- Takes the matches of a pattern out. `matched` is how many characters one has that starts here.
def removeFrom (matched : Text → Nat) : Nat → Text → Text
  | _, [] => []
  | 0, c :: t =>
      match matched (c :: t) with
      | 0 => c :: removeFrom matched 0 t
      | n + 1 => removeFrom matched n t
  | skip + 1, _ :: t => removeFrom matched skip t

def assTag : Text → Nat
  | '{' :: '\\' :: t => if '}' ∈ t then (t.takeWhile (· ≠ '}')).length + 3 else 0
  | _ => 0

def styled (c : Char) : Bool := c = 'i' || c = 'b' || c = 'u'

-- A tag that is kept.
def keptTag : Text → Bool
  | '/' :: c :: '>' :: _ => styled c
  | c :: '>' :: _ => styled c
  | _ => false

def asciiLetter (c : Char) : Bool := c.isUpper || c.isLower

def tagBody (t : Text) : Nat :=
  match t with
  | c :: rest => if !keptTag t && asciiLetter c && rest.contains '>' then (rest.takeWhile (· ≠ '>')).length + 2 else 0
  | [] => 0

def otherTag : Text → Nat
  | '<' :: '/' :: t => if tagBody t = 0 then 0 else tagBody t + 2
  | '<' :: t => if tagBody t = 0 then 0 else tagBody t + 1
  | _ => 0

def cleanText (t : Text) : Text := Text.trimmed (removeFrom otherTag 0 (removeFrom assTag 0 t))

end Cleaning

section Blocks

def asciiSpace (c : Char) : Bool := c = ' ' || (9 ≤ c.toNat && c.toNat ≤ 13)

def hasArrow : Text → Bool
  | [] => false
  | c :: t => ['-', '-', '>'].isPrefixOf (c :: t) || hasArrow t

-- What stands behind an arrow with space on both sides.
def afterArrow : Text → Option Text
  | c :: '-' :: '-' :: '>' :: d :: t => if asciiSpace c && asciiSpace d then some t else none
  | _ => none

-- The first part of a line that is split at the arrows, and what follows the first one.
def cutArrow : Text → Text × Option Text
  | [] => ([], none)
  | c :: t =>
      match afterArrow (c :: t) with
      | some rest => ([], some rest)
      | none => (c :: (cutArrow t).1, (cutArrow t).2)

def isBlank (line : Text) : Bool := (Text.trimmed line).isEmpty

def metadataHeads : List Text := ["WEBVTT".toList, "NOTE".toList, "STYLE".toList, "REGION".toList]

def isMetadata (line : Text) : Bool := metadataHeads.any fun head => head.isPrefixOf (Text.trimmed line)

def skipBlock (lines : List Text) : List Text := lines.dropWhile fun line => !isBlank line

def join (sep : Text) (lines : List Text) : Text := (lines.intersperse sep).flatten

-- The line with the times, and what is behind it.
def timingLine (line : Text) (rest : List Text) : Text × List Text :=
  match rest with
  | [] => (line, [])
  | next :: behind => if !hasArrow line && hasArrow next then (next, behind) else (line, rest)

def cueOf (first : Text) (behind : Text) (textLines : List Text) : Option SubtitleCue :=
  let endPart := (Text.trimmed (cutArrow behind).1).takeWhile (· ≠ ' ')
  let start := parseTimestamp first
  let stop := parseTimestamp endPart
  if start < 0 ∨ stop < 0 ∨ stop ≤ start then none
  else
    let cleaned := (textLines.map cleanText).filter (!·.isEmpty)
    if cleaned.isEmpty then none else some ⟨start, stop, join "<br/>".toList cleaned⟩

theorem length_skipBlock_le (lines : List Text) : (skipBlock lines).length ≤ lines.length :=
  (List.dropWhile_sublist _).length_le

theorem length_timingLine_le (line : Text) (rest : List Text) :
    (timingLine line rest).2.length ≤ rest.length := by
  cases rest with
  | nil => exact le_refl _
  | cons next behind =>
      rw [timingLine]
      split_ifs with h
      · exact Nat.le_succ _
      · exact le_refl _

-- The loop of parseBlocks, over the lines that are left.
def cuesFrom (vtt : Bool) : List Text → List SubtitleCue
  | [] => []
  | line :: rest =>
      if isBlank line then cuesFrom vtt rest
      else if vtt && isMetadata line then cuesFrom vtt (skipBlock rest)
      else
        let timing := timingLine line rest
        if hasArrow timing.1 then
          match (cutArrow timing.1).2 with
          | none => cuesFrom vtt timing.2
          | some behind =>
              (cueOf (cutArrow timing.1).1 behind (timing.2.takeWhile fun line => !isBlank line)).toList ++
                cuesFrom vtt (skipBlock timing.2)
        else cuesFrom vtt timing.2
termination_by lines => lines.length
decreasing_by
  all_goals simp only [List.length_cons]
  · omega
  · have := length_skipBlock_le rest
    omega
  · have := length_timingLine_le line rest
    omega
  · have := length_timingLine_le line rest
    have := length_skipBlock_le (timingLine line rest).2
    omega
  · have := length_timingLine_le line rest
    omega

-- std::sort by the start times.
variable (sort : List SubtitleCue → List SubtitleCue)

def parseBlocks (lines : List Text) (vtt : Bool) : List SubtitleCue := sort (cuesFrom vtt lines)

end Blocks

section Parse

def splitLines : Text → List Text
  | [] => [[]]
  | '\n' :: t => [] :: splitLines t
  | '\r' :: '\n' :: t => [] :: splitLines t
  | c :: t =>
      match splitLines t with
      | [] => [[c]]
      | line :: lines => (c :: line) :: lines

variable (sort : List SubtitleCue → List SubtitleCue)

def parseSrt (content : Text) : List SubtitleCue := parseBlocks sort (splitLines content) false

def parseVtt (content : Text) : List SubtitleCue := parseBlocks sort (splitLines content) true

end Parse

end BATorrent.SubtitleParser

namespace BATorrent.SubtitleParser

open Lib

-- A line of the file, without what ends it.
def OneLine (t : Text) : Prop := '\n' ∉ t ∧ '\r' ∉ t

instance (t : Text) : Decidable (OneLine t) := inferInstanceAs (Decidable (_ ∧ _))

def digit (n : Nat) : Char := Char.ofNat (48 + n)

def two (n : Nat) : Text := [digit (n / 10), digit (n % 10)]

def three (n : Nat) : Text := [digit (n / 100), digit (n / 10 % 10), digit (n % 10)]

-- A time of a subtitle as it is spelled. No hours at all is one spelling.
structure Stamp where
  hours : Text
  minutes : Nat
  seconds : Nat
  millis : Nat
  digits : ∀ c ∈ hours, c.isDigit = true
  minutes_lt : minutes < 60
  seconds_lt : seconds < 60
  millis_lt : millis < 1000

namespace Stamp

def value (t : Stamp) : Int := ((number t.hours * 60 + t.minutes) * 60 + t.seconds) * 1000 + t.millis

def tail (t : Stamp) (sep : Char) : Text := two t.minutes ++ ':' :: (two t.seconds ++ sep :: three t.millis)

def spelled (t : Stamp) (sep : Char) : Text :=
  if t.hours = [] then t.tail sep else t.hours ++ ':' :: t.tail sep

end Stamp

-- A cue as a file spells it: perhaps an identifier, the times with space round the arrow and
-- settings behind them, and the text.
structure Spelling where
  identifier : Option Text
  start : Stamp
  stop : Stamp
  before : Text
  after : Text
  settings : Text
  lines : List Text
  ordered : start.value < stop.value
  identifier_line : ∀ t ∈ identifier, OneLine t ∧ hasArrow t = false
  before_space : before ≠ [] ∧ ∀ c ∈ before, c = ' ' ∨ c = '\t'
  after_space : after ≠ [] ∧ ∀ c ∈ after, c = ' ' ∨ c = '\t'
  settings_line : OneLine settings ∧ hasArrow settings = false
  settings_apart : ∀ c ∈ settings.head?, c = ' ' ∨ c = '\t'
  lines_ne_nil : lines ≠ []
  line : ∀ t ∈ lines, OneLine t ∧ Text.trimmed t = t ∧ t ≠ [] ∧ '<' ∉ t ∧ '{' ∉ t ∧ hasArrow t = false

namespace Spelling

def cue (e : Spelling) : SubtitleCue := ⟨e.start.value, e.stop.value, join "<br/>".toList e.lines⟩

def timing (sep : Char) (e : Spelling) : Text :=
  e.start.spelled sep ++ (e.before ++ ('-' :: '-' :: '>' :: (e.after ++ (e.stop.spelled sep ++ e.settings))))

def written (sep : Char) (e : Spelling) : List Text := e.identifier.toList ++ e.timing sep :: e.lines

end Spelling

-- A block of a file: a cue, or lines about something else, as the header and the notes are.
inductive Block where
  | cue (e : Spelling)
  | remark (lines : List Text) (legal : ∀ t ∈ lines, OneLine t ∧ hasArrow t = false)

namespace Block

def written (sep : Char) : Block → List Text
  | .cue e => e.written sep
  | .remark lines _ => lines

def spelling : Block → Option Spelling
  | .cue e => some e
  | .remark _ _ => none

end Block

-- The blocks of a file, each with the number of empty lines behind it.
structure Document where
  leading : Nat
  blocks : List (Block × Nat)
  apart : ∀ b ∈ blocks.dropLast, 1 ≤ b.2
  nonempty : 1 ≤ leading ∨ blocks ≠ []

namespace Document

def linesOf (sep : Char) : List (Block × Nat) → List Text
  | [] => []
  | (b, blanks) :: blocks => b.written sep ++ (List.replicate blanks [] ++ linesOf sep blocks)

-- SRT has a comma before the milliseconds.
def sep (vtt : Bool) : Char := if vtt then '.' else ','

def lines (vtt : Bool) (doc : Document) : List Text :=
  List.replicate doc.leading [] ++ linesOf (sep vtt) doc.blocks

def spellings (doc : Document) : List Spelling := doc.blocks.filterMap fun b => b.1.spelling

def cues (doc : Document) : List SubtitleCue := doc.spellings.map Spelling.cue

end Document

-- The text of a file: its lines, each but the last one ended in either way.
inductive Joins : List Text → Text → Prop where
  | last (line : Text) : Joins [line] line
  | lf {lines : List Text} {content : Text} (line : Text) (rest : Joins lines content) :
      Joins (line :: lines) (line ++ '\n' :: content)
  | crlf {lines : List Text} {content : Text} (line : Text) (rest : Joins lines content) :
      Joins (line :: lines) (line ++ '\r' :: '\n' :: content)

end BATorrent.SubtitleParser
