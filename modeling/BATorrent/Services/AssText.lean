import BATorrent.Lib.Text
import Mathlib.Logic.Function.Basic

namespace BATorrent.AssText

open Lib

abbrev Text := List Char

structure Line where
  html : Text
  align : Int
deriving DecidableEq

inductive Style where
  | italic
  | bold
  | under
deriving DecidableEq

def Style.tag : Style → Char
  | .italic => 'i'
  | .bold => 'b'
  | .under => 'u'

section Fields

def digits (f : Text) : Bool := f ≠ [] && f.all Char.isDigit

def signedDigits (f : Text) : Bool :=
  match f with
  | '-' :: f => digits f
  | f => digits f

def anything (_ : Text) : Bool := true

-- Each field matches its pattern and a comma ends it.
def dropFields : List (Text → Bool) → Text → Option Text
  | [], t => some t
  | field :: fields, t =>
      match t.dropWhile (· ≠ ',') with
      | [] => none
      | _ :: rest => if field (t.takeWhile (· ≠ ',')) then dropFields fields rest else none

-- The fields before the text of a whole event.
def withoutFields (raw : Text) : Text :=
  (dropFields [digits, signedDigits, anything, anything, digits, digits, digits, anything] raw).getD raw

end Fields

section Tags

structure Tag where
  name : Text
  arg : Text

def asciiLetter (c : Char) : Bool := c.isLower || c.isUpper

-- An argument in parentheses, or what there is before the next tag.
def argument (t : Text) : Text × Text :=
  match t with
  | '(' :: rest =>
      if ')' ∈ rest then ('(' :: rest.takeWhile (· ≠ ')') ++ [')'], (rest.dropWhile (· ≠ ')')).drop 1)
      else (t.takeWhile (· ≠ '\\'), t.dropWhile (· ≠ '\\'))
  | _ => (t.takeWhile (· ≠ '\\'), t.dropWhile (· ≠ '\\'))

def tagsFrom : Nat → Text → List Tag
  | 0, _ => []
  | _ + 1, [] => []
  | n + 1, c :: rest =>
      let name := rest.takeWhile asciiLetter
      if c = '\\' ∧ name ≠ [] then
        let arg := argument (rest.dropWhile asciiLetter)
        ⟨name.map Char.toLower, Text.trimmed arg.1⟩ :: tagsFrom n arg.2
      else tagsFrom n rest

def tags (block : Text) : List Tag := tagsFrom block.length block

end Tags

section Scan

structure State where
  out : Text
  on : Style → Bool
  drawing : Int
  align : Int

def State.emit (s : State) (t : Text) : State := { s with out := s.out ++ t }

def setStyle (s : State) (flag : Style) (on : Bool) : State :=
  if s.on flag = on then s
  else
    { s with
      on := Function.update s.on flag on,
      out := s.out ++ if on then ['<', flag.tag, '>'] else ['<', '/', flag.tag, '>'] }

def legacyAlign (a : Int) : Int :=
  if 1 ≤ a ∧ a ≤ 3 then a
  else if 5 ≤ a ∧ a ≤ 7 then a + 2
  else if 9 ≤ a ∧ a ≤ 11 then a - 5
  else 2

-- No argument is bold, and so is a weight.
def boldArg (arg : Text) : Bool :=
  let w := if arg = [] then 1 else Text.toInt arg
  w == 1 || 600 ≤ w

def override (s : State) (t : Tag) : State :=
  if t.name = ['a', 'n'] then
    let a := Text.toInt t.arg
    if 1 ≤ a ∧ a ≤ 9 then { s with align := a } else s
  else if t.name = ['a'] then { s with align := legacyAlign (Text.toInt t.arg) }
  else if t.name = ['i'] then setStyle s .italic (t.arg ≠ ['0'])
  else if t.name = ['b'] then setStyle s .bold (boldArg t.arg)
  else if t.name = ['u'] then setStyle s .under (t.arg ≠ ['0'])
  else if t.name = ['p'] then { s with drawing := Text.toInt t.arg }
  else if t.name = ['r'] then setStyle (setStyle (setStyle s .italic false) .bold false) .under false
  else s

def br : Text := ['<', 'b', 'r', '>']

def nbsp : Text := ['&', 'n', 'b', 's', 'p', ';']

def escaped (c : Char) : Text :=
  if c = '&' then ['&', 'a', 'm', 'p', ';']
  else if c = '<' then ['&', 'l', 't', ';']
  else if c = '>' then ['&', 'g', 't', ';']
  else [c]

-- The loop over the text, from one position on. Each turn takes one character at least.
def scan : Nat → Text → State → State
  | 0, _, s => s
  | _ + 1, [], s => s
  | n + 1, c :: rest, s =>
      if c = '{' then
        match rest.idxOf? '}' with
        | none => s
        | some k => scan n (rest.drop (k + 1)) ((tags (rest.take k)).foldl override s)
      else if 0 < s.drawing then scan n rest s
      else if c = '\\' ∧ (rest.head? = some 'N' ∨ rest.head? = some 'n') then scan n rest.tail (s.emit br)
      else if c = '\\' ∧ rest.head? = some 'h' then scan n rest.tail (s.emit nbsp)
      else if c = '\n' then scan n rest (s.emit br)
      else if c = '\r' then scan n rest s
      else scan n rest (s.emit (escaped c))

end Scan

section Html

def chopReversed : Text → Text
  | '>' :: 'r' :: 'b' :: '<' :: rest => chopReversed rest
  | t => t

def chopBreaks (out : Text) : Text := (chopReversed out.reverse).reverse

def isAsciiSpace (c : Char) : Bool := c = ' ' || (9 ≤ c.toNat && c.toNat ≤ 13)

def onlyMarkupFrom : Nat → Text → Bool
  | _, [] => true
  | 0, _ :: _ => false
  | n + 1, c :: rest =>
      if isAsciiSpace c then onlyMarkupFrom n rest
      else if c = '<' then '>' ∈ rest && onlyMarkupFrom n ((rest.dropWhile (· ≠ '>')).drop 1)
      else nbsp.isPrefixOf (c :: rest) && onlyMarkupFrom n (rest.drop 5)

def onlyMarkup (out : Text) : Bool := onlyMarkupFrom out.length out

def closed (s : State) : State := setStyle (setStyle (setStyle s .italic false) .bold false) .under false

def toHtml (raw : Text) : Line :=
  let s := withoutFields raw
  let done := closed (scan s.length s ⟨[], fun _ => false, 0, 2⟩)
  let out := chopBreaks done.out
  ⟨if onlyMarkup out then [] else Text.trimmed out, done.align⟩

example : toHtml "\x7b\\b700\x7dBig\x7b\\b0\x7d \x7b\\u1\x7d<under>\x7b\\r\x7d 5\\h&".toList =
    ⟨"<b>Big</b> <u>&lt;under&gt;</u> 5&nbsp;&amp;".toList, 2⟩ := by decide +kernel

end Html

end BATorrent.AssText
