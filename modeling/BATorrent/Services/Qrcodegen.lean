import BATorrent.Lib.Utf8
import Mathlib.Logic.Function.Basic

namespace BATorrent.Qrcodegen

open Lib.DataStream (Bytes)

section Versions

structure VersionInfo where
  totalCodewords : Nat
  eccPerBlock : Nat
  g1Blocks : Nat
  g1DataCw : Nat
  g2Blocks : Nat
  g2DataCw : Nat
deriving Inhabited

-- Versions 1 to 10 at level M.
def kVersions : List VersionInfo :=
  [⟨26, 10, 1, 16, 0, 0⟩, ⟨44, 16, 1, 28, 0, 0⟩, ⟨70, 26, 1, 44, 0, 0⟩, ⟨100, 18, 2, 32, 0, 0⟩,
    ⟨134, 24, 2, 43, 0, 0⟩, ⟨172, 16, 4, 27, 0, 0⟩, ⟨196, 18, 4, 31, 0, 0⟩, ⟨242, 22, 2, 38, 2, 39⟩,
    ⟨292, 22, 3, 36, 2, 37⟩, ⟨346, 26, 4, 43, 1, 44⟩]

def kMaxVersion : Nat := 10

def versionInfo (version : Nat) : VersionInfo := kVersions.getD (version - 1) default

def sideForVersion (version : Nat) : Nat := 17 + version * 4

def dataCodewordsFor (version : Nat) : Nat :=
  let v := versionInfo version
  v.g1Blocks * v.g1DataCw + v.g2Blocks * v.g2DataCw

def countBits (version : Nat) : Nat := if 10 ≤ version then 16 else 8

def pickVersion (payloadBytes : Nat) : Option Nat :=
  (List.range' 1 kMaxVersion).find? fun v =>
    4 + countBits v + payloadBytes * 8 + 4 ≤ dataCodewordsFor v * 8

def kAlignmentCentres : List (List Nat) :=
  [[], [6, 18], [6, 22], [6, 26], [6, 30], [6, 34], [6, 22, 38], [6, 24, 42], [6, 26, 46], [6, 28, 50]]

end Versions

section Codewords

structure GF256 where
  exp : List UInt8
  log : List UInt8

-- The element times the primitive one: a carry out of the byte is taken off by the polynomial.
def nextPower (x : UInt8) : UInt8 :=
  if x <<< 1 = 0 ∨ 256 ≤ x.toNat * 2 then UInt8.ofNat ((x.toNat * 2) ^^^ 0x11D) else x <<< 1

-- The tables after `i` turns of the loop, and the power that comes next.
def GF256.fill : Nat → GF256 × UInt8
  | 0 => (⟨List.replicate 256 0, List.replicate 256 0⟩, 1)
  | i + 1 =>
      let (g, x) := fill i
      (⟨g.exp.set i x, g.log.set x.toNat (UInt8.ofNat i)⟩, nextPower x)

def gf : GF256 :=
  let g := (GF256.fill 255).1
  { g with exp := g.exp.set 255 (g.exp.getD 0 0) }

def GF256.mul (g : GF256) (a b : UInt8) : UInt8 :=
  if a = 0 ∨ b = 0 then 0
  else g.exp.getD (((g.log.getD a.toNat 0).toNat + (g.log.getD b.toNat 0).toNat) % 255) 0

def rsGenerator (degree : Nat) : Bytes :=
  (List.range degree).foldl (fun poly i =>
    List.zipWith (· ^^^ ·) (poly ++ [0]) (0 :: poly.map fun c => gf.mul c (gf.exp.getD i 0))) [1]

def rsShift (gen result : Bytes) (b : UInt8) : Bytes :=
  let factor := b ^^^ result.headD 0
  let result := result.tail ++ [0]
  if factor ≠ 0 then List.zipWith (fun r c => r ^^^ gf.mul c factor) result gen.tail else result

def rsEncode (data : Bytes) (eccLen : Nat) : Bytes :=
  data.foldl (rsShift (rsGenerator eccLen)) (List.replicate eccLen 0)

-- The bits of a number, the highest of the `numBits` first.
def bitsOf (value numBits : Nat) : List Bool := (List.range numBits).reverse.map value.testBit

def toBytes (bits : List Bool) : Bytes :=
  (List.range ((bits.length + 7) / 8)).map fun j =>
    (List.range 8).foldl (fun out k =>
      if bits.getD (8 * j + k) false then out ||| UInt8.ofNat (1 <<< (7 - k)) else out) 0

def padBytes : Nat → Bool → Bytes
  | 0, _ => []
  | n + 1, ec => (if ec then 0xEC else 0x11) :: padBytes n !ec

def packPayload (data : Bytes) (version : Nat) : Bytes :=
  let bits := bitsOf 0b0100 4 ++ bitsOf data.length (countBits version) ++ data.flatMap fun b => bitsOf b.toNat 8
  let capBits := dataCodewordsFor version * 8
  let bits := bits ++ bitsOf 0 (min 4 (capBits - bits.length))
  let bits := bits ++ List.replicate ((8 - bits.length % 8) % 8) false
  let bytes := toBytes bits
  bytes ++ padBytes (capBits / 8 - bytes.length) true

def slices (data : Bytes) : List Nat → List Bytes
  | [] => []
  | n :: sizes => data.take n :: slices (data.drop n) sizes

-- One byte of each block that is long enough, then the next byte of each.
def byColumn (count : Nat) (blocks : List Bytes) : Bytes :=
  (List.range count).flatMap fun col => blocks.filterMap (·[col]?)

def blockSizes (version : Nat) : List Nat :=
  let v := versionInfo version
  List.replicate v.g1Blocks v.g1DataCw ++ List.replicate v.g2Blocks v.g2DataCw

def interleaveBlocks (data : Bytes) (version : Nat) : Bytes :=
  let v := versionInfo version
  let dataBlocks := slices data (blockSizes version)
  let eccBlocks := dataBlocks.map (rsEncode · v.eccPerBlock)
  byColumn (max v.g1DataCw v.g2DataCw) dataBlocks ++ byColumn v.eccPerBlock eccBlocks

end Codewords

section Grids

abbrev Cell := Nat × Nat

structure Grid where
  size : Nat
  dark : Cell → Bool
  reserved : Cell → Bool

def Grid.blank (size : Nat) : Grid := ⟨size, fun _ => false, fun _ => false⟩

-- A module of a function pattern.
def Grid.reserve (g : Grid) (m : Cell × Bool) : Grid :=
  { g with dark := Function.update g.dark m.1 m.2, reserved := Function.update g.reserved m.1 true }

def Grid.reserveAll (g : Grid) (ms : List (Cell × Bool)) : Grid := ms.foldl Grid.reserve g

def square (n : Nat) : List Cell := (List.range n).flatMap fun dy => (List.range n).map fun dx => (dx, dy)

def finder (x y : Nat) : List (Cell × Bool) :=
  (square 7).map fun (dx, dy) =>
    ((x + dx, y + dy), dx = 0 || dx = 6 || dy = 0 || dy = 6 || (2 ≤ dx && dx ≤ 4 && 2 ≤ dy && dy ≤ 4))

def placeFinder (g : Grid) (x y : Nat) : Grid := g.reserveAll (finder x y)

-- Offsets are one more than the source's, which start at -1.
def separator (size x y : Nat) : List (Cell × Bool) :=
  (square 9).filterMap fun (dx, dy) =>
    if x + dx = 0 ∨ y + dy = 0 ∨ size + 1 ≤ x + dx ∨ size + 1 ≤ y + dy then none
    else if dx = 0 ∨ dy = 0 ∨ dx = 8 ∨ dy = 8 then some ((x + dx - 1, y + dy - 1), false)
    else none

def placeSeparator (g : Grid) (x y : Nat) : Grid := g.reserveAll (separator g.size x y)

-- Offsets are two more than the source's.
def alignment (cx cy : Nat) : List (Cell × Bool) :=
  (square 5).map fun (dx, dy) =>
    ((cx + dx - 2, cy + dy - 2), dx = 0 || dx = 4 || dy = 0 || dy = 4 || (dx = 2 && dy = 2))

def placeAlignment (g : Grid) (cx cy : Nat) : Grid := g.reserveAll (alignment cx cy)

def timing (size : Nat) : List (Cell × Bool) :=
  (List.range' 8 (size - 16)).flatMap fun i => [((i, 6), i % 2 = 0), ((6, i), i % 2 = 0)]

def placeTiming (g : Grid) : Grid := g.reserveAll (timing g.size)

def formatArea (size : Nat) : List (Cell × Bool) :=
  ((List.range 9).flatMap fun i => [((8, i), false), ((i, 8), false)]) ++
    ((List.range 8).flatMap fun i => [((8, size - 1 - i), false), ((size - 1 - i, 8), false)]) ++
    [((8, size - 8), true)]

def reserveFormat (g : Grid) : Grid := g.reserveAll (formatArea g.size)

def placeAlignments (g : Grid) (centres : List Nat) : Grid :=
  (centres.flatMap fun cy => centres.map fun cx => (cx, cy)).foldl (fun g c =>
    if g.reserved c then g else placeAlignment g c.1 c.2) g

-- Every function pattern, as they are before the data.
def functionPatterns (version : Nat) : Grid :=
  let side := sideForVersion version
  let g := placeFinder (Grid.blank side) 0 0
  let g := placeFinder g (side - 7) 0
  let g := placeFinder g 0 (side - 7)
  let g := placeSeparator g 0 0
  let g := placeSeparator g (side - 7) 0
  let g := placeSeparator g 0 (side - 7)
  let g := placeTiming g
  let g := placeAlignments g (kAlignmentCentres.getD (version - 1) [])
  reserveFormat g

-- The right column of each pair, from the right; the timing column is no part of a pair.
def columnsFrom : Nat → Nat → List Nat
  | 0, _ => []
  | fuel + 1, col =>
      if col < 1 then []
      else
        let col := if col = 6 then 5 else col
        col :: columnsFrom fuel (col - 2)

def columnPairs (size : Nat) : List Nat := columnsFrom size (size - 1)

def columnCells (size : Nat) (upward : Bool) (col : Nat) : List Cell :=
  (List.range size).flatMap fun rowOff =>
    let y := if upward then size - 1 - rowOff else rowOff
    [(col, y), (col - 1, y)]

def zigzagFrom (size : Nat) : Bool → List Nat → List Cell
  | _, [] => []
  | upward, col :: cols => columnCells size upward col ++ zigzagFrom size (!upward) cols

def zigzag (size : Nat) : List Cell := zigzagFrom size true (columnPairs size)

def bitAt (bytes : Bytes) (i : Nat) : Bool :=
  if i < bytes.length * 8 then (bytes.getD (i / 8) 0).toNat.testBit (7 - i % 8) else false

def placeBit (bytes : Bytes) : Grid × Nat → Cell → Grid × Nat
  | (g, bitIdx), c =>
      if g.reserved c then (g, bitIdx)
      else ({ g with dark := Function.update g.dark c (bitAt bytes bitIdx) }, bitIdx + 1)

def placeData (g : Grid) (bytes : Bytes) : Grid := ((zigzag g.size).foldl (placeBit bytes) (g, 0)).1

def invert (m : Nat) (c : Cell) : Bool :=
  let (x, y) := c
  match m with
  | 0 => (x + y) % 2 = 0
  | 1 => y % 2 = 0
  | 2 => x % 3 = 0
  | 3 => (x + y) % 3 = 0
  | 4 => (y / 2 + x / 3) % 2 = 0
  | 5 => x * y % 2 + x * y % 3 = 0
  | 6 => (x * y % 2 + x * y % 3) % 2 = 0
  | 7 => ((x + y) % 2 + x * y % 3) % 2 = 0
  | _ => false

def applyMask (g : Grid) (m : Nat) : Grid :=
  { g with dark := fun c =>
      if c.1 < g.size ∧ c.2 < g.size ∧ g.reserved c = false ∧ invert m c then !g.dark c else g.dark c }

def bchFormat (data5 : Nat) : Nat :=
  let d := [4, 3, 2, 1, 0].foldl (fun d i =>
    if d.testBit (i + 10) then d ^^^ (0b10100110111 <<< i) else d) (data5 <<< 10)
  ((data5 <<< 10) ||| d) ^^^ 0x5412

-- Where each of the fifteen bits goes, once around the first finder and once by the others.
def formatCell (i : Nat) : Cell :=
  if i ≤ 5 then (8, i) else if i = 6 then (8, 7) else if i = 7 then (8, 8) else if i = 8 then (7, 8)
  else (14 - i, 8)

def formatCell' (size i : Nat) : Cell := if i ≤ 7 then (size - 1 - i, 8) else (8, size - 15 + i)

def placeFormat (g : Grid) (maskNum : Nat) : Grid :=
  let fmt := bchFormat maskNum
  let g := g.reserveAll ((List.range 15).map fun i => (formatCell i, fmt.testBit i))
  g.reserveAll ((List.range 15).map fun i => (formatCell' g.size i, fmt.testBit i))

end Grids

section Penalty

def runPoints (run : Nat) : Nat := if 5 ≤ run then 3 + (run - 5) else 0

-- A line is gone through with the score, the colour and the length of the run so far.
def runStep (r : Nat × Bool × Nat) (b : Bool) : Nat × Bool × Nat :=
  if b = r.2.1 then (r.1, r.2.1, r.2.2 + 1) else (r.1 + runPoints r.2.2, b, 1)

def runScore (line : List Bool) : Nat :=
  let r := line.tail.foldl runStep (0, line.headD false, 1)
  r.1 + runPoints r.2.2

def Grid.at? (g : Grid) (x y : Int) : Option Bool :=
  if 0 ≤ x ∧ 0 ≤ y ∧ x < g.size ∧ y < g.size then some (g.dark (x.toNat, y.toNat)) else none

def check11311 (g : Grid) (x y dx dy : Int) : Bool :=
  let light (i : Int) : Bool := g.at? (x + dx * i) (y + dy * i) = some false
  ([(0, true), (1, false), (2, true), (3, true), (4, true), (5, false), (6, true)].all fun (i, p) =>
    g.at? (x + dx * i) (y + dy * i) = some p) &&
    ([-1, -2, -3, -4].all light || [7, 8, 9, 10].all light)

def count (b : Bool) (points : Nat) : Nat := if b then points else 0

-- The share of dark modules is worked out in doubles: `deviation` has the whole per cents it is off a half.
def penaltyScore (deviation : Nat → Nat → Nat) (g : Grid) : Nat :=
  let lines := List.range g.size
  let cells := square g.size
  let runs := (lines.map fun y => runScore (lines.map fun x => g.dark (x, y))).sum +
    (lines.map fun x => runScore (lines.map fun y => g.dark (x, y))).sum
  let blocks := ((square (g.size - 1)).map fun (x, y) =>
    count (g.dark (x, y) = g.dark (x + 1, y) && g.dark (x, y) = g.dark (x, y + 1) &&
      g.dark (x, y) = g.dark (x + 1, y + 1)) 3).sum
  let finders := (cells.map fun (x, y) => count (check11311 g x y 1 0) 40 + count (check11311 g x y 0 1) 40).sum
  runs + blocks + finders + deviation (cells.countP g.dark) (g.size * g.size) / 5 * 10

end Penalty

section Encode

structure Matrix where
  size : Nat
  dark : Cell → Bool

def candidate (g : Grid) (m : Nat) : Grid := placeFormat (applyMask g m) m

-- The first mask with the lowest score, out of INT32_MAX.
def bestOf (score : Grid → Nat) (g : Grid) : Grid :=
  ((List.range 8).foldl (fun (best, bestScore) m =>
    let s := score (candidate g m)
    if s < bestScore then (candidate g m, s) else (best, bestScore)) (g, 2 ^ 31 - 1)).1

def encodeBytes (deviation : Nat → Nat → Nat) (data : Bytes) : Option Matrix :=
  (pickVersion data.length).map fun version =>
    let interleaved := interleaveBlocks (packPayload data version) version
    let best := bestOf (penaltyScore deviation) (placeData (functionPatterns version) interleaved)
    ⟨best.size, best.dark⟩

def encode (deviation : Nat → Nat → Nat) (text : List Char) : Option Matrix :=
  encodeBytes deviation (Lib.Utf8.encode text)

-- The rows the view draws, empty where there is nothing to draw.
def qrRowsForUrl (deviation : Nat → Nat → Nat) (url : List Char) : List (List Char) :=
  if url = [] then []
  else
    match encode deviation url with
    | none => []
    | some m => (List.range m.size).map fun y => (List.range m.size).map fun x => if m.dark (x, y) then '1' else '0'

end Encode

end BATorrent.Qrcodegen
