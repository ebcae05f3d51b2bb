import BATorrent.Lib.Checked
import BATorrent.Lib.LittleEndian
import BATorrent.Lib.Text
import BATorrent.Lib.Utf8

namespace BATorrent.SubtitleZip

open Lib
open Lib.DataStream (Bytes)

abbrev Text := List Char

section Inflate

inductive Ret where
  | ok
  | streamEnd
  | other
deriving DecidableEq

-- What zlib does: a stream over so many bytes, and what one call writes where so many bytes are free.
structure Zlib where
  Stream : Type
  inflateInit2 : Bytes → Option Stream
  inflate : Stream → Nat → Stream × Bytes × Ret

def kMaxOut : Nat := 16 * 1024 * 1024

-- What a call left behind: the sizes that the buffer had, and what is returned.
structure Inflated where
  sizes : List Nat
  out : Bytes
deriving DecidableEq

variable (z : Zlib)

-- The loop of inflateRaw. None where the fuel runs out.
def inflateLoop : Nat → z.Stream → Bytes → Nat → List Nat → Option Inflated
  | 0, _, _, _, _ => none
  | fuel + 1, s, out, size, sizes =>
      if size ≤ out.length ∧ kMaxOut ≤ size then some ⟨sizes, []⟩
      else
        let grows := decide (size ≤ out.length)
        let sizes := if grows then sizes ++ [size * 2] else sizes
        let size := if grows then size * 2 else size
        match z.inflate s (size - out.length) with
        | (s, written, .ok) => inflateLoop fuel s (out ++ written) size sizes
        | (_, written, .streamEnd) => some ⟨sizes, out ++ written⟩
        | (_, _, .other) => some ⟨sizes, []⟩

def hintLimit : Nat := 64 * 1024 * 1024

def startSize (n : Nat) (hint : Int) : Checked Nat :=
  if 0 < hint ∧ hint < hintLimit then .ok (min hint.toNat kMaxOut)
  else if n * 4 < 2 ^ 31 then .ok (min (max (n * 4) 16384) kMaxOut)
  else .error .overflow

def inflateRaw (fuel : Nat) (src : Bytes) (hint : Int) : Checked (Option Inflated) :=
  match z.inflateInit2 src with
  | none => .ok (some ⟨[], []⟩)
  | some s => do
      let start ← startSize src.length hint
      .ok (inflateLoop z fuel s [] start [start])

end Inflate

section Directory

-- As an int holds it.
def toInt32 (n : Int) : Int := n.bmod (2 ^ 32)

def isSrt (repaired : Bytes → Text) (name : Bytes) : Bool :=
  ['.', 's', 'r', 't'].isSuffixOf ((Utf8.decode repaired name).map Text.foldCase)

-- What the first entry of a subtitle leads to.
inductive Found where
  | nothing
  | stored (content : Bytes)
  | deflated (src : Bytes) (hint : Int)

variable (repaired : Bytes → Text) (zip : Bytes)

def number (k : Nat) (pos : Int) : Checked Nat := do
  let bs ← Checked.load zip pos k
  .ok (LittleEndian.value bs)

def u16 : Int → Checked Nat := number zip 2

def u32 : Int → Checked Nat := number zip 4

def endSignature : Nat := 0x06054b50

def entrySignature : Nat := 0x02014b50

-- The search for the end record, from a place back.
def findEnd : Nat → Int → Checked (Option Int)
  | 0, _ => .ok none
  | turns + 1, i =>
      if i < 0 then .ok none
      else do
        let sig ← u32 zip i
        if sig = endSignature then .ok (some i) else findEnd turns (i - 1)

def entryData (n : Int) (method compSize uncompSize : Nat) (lho : Int) : Checked Found :=
  if lho < 0 ∨ lho + 30 > n then .ok .nothing
  else do
    let nameLen ← u16 zip (lho + 26)
    let extraLen ← u16 zip (lho + 28)
    let dataOff := lho + 30 + nameLen + extraLen
    if dataOff < 0 ∨ dataOff + compSize > n then .ok .nothing
    else if method = 0 then do
      let content ← Checked.load zip dataOff (toInt32 compSize)
      .ok (.stored content)
    else if method = 8 then do
      let src ← Checked.load zip dataOff (toInt32 compSize)
      .ok (.deflated src (toInt32 uncompSize))
    else .ok .nothing

def entries (n : Int) : Nat → Int → Checked Found
  | 0, _ => .ok .nothing
  | count + 1, p =>
      if p < 0 ∨ p + 46 > n then .ok .nothing
      else do
        let sig ← u32 zip p
        if sig ≠ entrySignature then .ok .nothing
        else
          let method ← u16 zip (p + 10)
          let compSize ← u32 zip (p + 20)
          let uncompSize ← u32 zip (p + 24)
          let fnLen ← u16 zip (p + 28)
          let efLen ← u16 zip (p + 30)
          let cmLen ← u16 zip (p + 32)
          let lho ← u32 zip (p + 42)
          if p + 46 + fnLen > n then .ok .nothing
          else
            let name ← Checked.load zip (p + 46) fnLen
            if isSrt repaired name then entryData zip n method compSize uncompSize lho
            else entries n count (p + (46 + fnLen + efLen + cmLen))

def firstSrt : Checked Found :=
  let n := toInt32 zip.length
  if n < 22 then .ok .nothing
  else do
    match ← findEnd zip 65537 (n - 22) with
    | none => .ok .nothing
    | some eocd =>
        let count ← u16 zip (eocd + 10)
        let p ← u32 zip (eocd + 16)
        entries repaired zip n count p

def Found.unpack (z : Zlib) (fuel : Nat) : Found → Checked (Option Inflated)
  | .nothing => .ok (some ⟨[], []⟩)
  | .stored content => .ok (some ⟨[], content⟩)
  | .deflated src hint => inflateRaw z fuel src hint

def unzipFirstSrt (z : Zlib) (fuel : Nat) : Checked (Option Inflated) := do
  let found ← firstSrt repaired zip
  found.unpack z fuel

end Directory

end BATorrent.SubtitleZip
