import BATorrent.Ipc.FrameRing
import BATorrent.Lib.Checked
import BATorrent.Lib.DataStream

namespace BATorrent.MediaFrame

open Lib Lib.Checked Lib.DataStream
open FrameRing (kSlots kMaxSlotBytes)

def kAlign : Int := 64

def kMaxPlanes : Nat := 4

def kMaxDimension : Int := 8192

-- QVideoFrameFormat::PixelFormat, in its order.
inductive PixelFormat where
  | invalid
  | argb8888
  | argb8888Premultiplied
  | xrgb8888
  | bgra8888
  | bgra8888Premultiplied
  | bgrx8888
  | abgr8888
  | xbgr8888
  | rgba8888
  | rgbx8888
  | ayuv
  | ayuvPremultiplied
  | yuv420p
  | yuv422p
  | yv12
  | uyvy
  | yuyv
  | nv12
  | nv21
  | imc1
  | imc2
  | imc3
  | imc4
  | y8
  | y16
  | p010
  | p016
  | samplerExternalOES
  | jpeg
  | samplerRect
  | yuv420p10
deriving DecidableEq

def PixelFormat.code (f : PixelFormat) : Int32 := Int32.ofNat f.ctorIdx

def allowedFormats : List PixelFormat :=
  [.argb8888, .argb8888Premultiplied, .xrgb8888, .bgra8888, .bgra8888Premultiplied, .bgrx8888,
    .abgr8888, .xbgr8888, .rgba8888, .rgbx8888, .yuv420p, .yuv422p, .yv12, .uyvy, .yuyv, .nv12,
    .nv21, .p010, .p016, .yuv420p10, .y8, .y16]

def isAllowedFormat (pixelFormat : Int32) : Bool := (allowedFormats.map (·.code)).contains pixelFormat

-- One plane of a mapped frame. Qt counts its bytes in an int.
structure MappedPlane where
  bytesPerLine : Int32
  bits : Bytes
  short : bits.length < 2 ^ 31

def MappedPlane.mappedBytes (p : MappedPlane) : Int := p.bits.length

structure QVideoFrame where
  pixelFormat : Int32
  width : Int32
  height : Int32
  startTime : Int64
  endTime : Int64
  planes : List MappedPlane

-- What the sandboxed child says of one plane, and of a frame.
structure Plane where
  stride : Int32
  offset : Int64
  bytes : Int64

instance : Inhabited Plane := ⟨⟨0, 0, 0⟩⟩

structure FrameHeader where
  slot : Int32
  pixelFormat : Int32
  width : Int32
  height : Int32
  startUs : Int64
  endUs : Int64
  planeCount : Int32
  planes : Vector Plane kMaxPlanes

-- A pointer into the ring.
structure Pointer where
  mem : Bytes
  addr : Int

-- The slot behind a pointer is the only memory there is to read and to write.
def Pointer.read (p : Pointer) (slotBytes start len : Int) : Checked Bytes :=
  if 0 ≤ start ∧ start + len ≤ slotBytes then load p.mem (p.addr + start) len
  else .error .outOfBounds

def Pointer.write (p : Pointer) (slotBytes start : Int) (bytes : Bytes) : Checked Pointer :=
  if 0 ≤ start ∧ start + bytes.length ≤ slotBytes then
    (⟨·, p.addr⟩) <$> store p.mem (p.addr + start) bytes
  else .error .outOfBounds

section Pack

def aligned (n : Int) : Checked Int := do
  let past ← int64 (n + kAlign)
  let past ← int64 (past - 1)
  int64 (past.tdiv kAlign * kAlign)

def packedSize (planes : List MappedPlane) : Checked Int := do
  let total ← (planes.take kMaxPlanes).foldlM (fun total p => do
    let start ← aligned total
    int64 (start + p.mappedBytes)) 0
  aligned total

def packPlanes (slotBytes : Int) : List MappedPlane → Int → Pointer → Checked (List Plane × Pointer)
  | [], _, slot => .ok ([], slot)
  | p :: rest, offset, slot => do
      let offset ← aligned offset
      let slot ← slot.write slotBytes offset p.bits
      let next ← int64 (offset + p.mappedBytes)
      let (planes, slot) ← packPlanes slotBytes rest next slot
      .ok (⟨p.bytesPerLine, Int64.ofInt offset, Int64.ofInt p.mappedBytes⟩ :: planes, slot)

-- The slot is left to the caller to fill in.
def pack (mapped : QVideoFrame) (slot : Option Pointer) (slotBytes : Int64) :
    Checked (Option (FrameHeader × Pointer)) :=
  match slot with
  | none => .ok none
  | some slot =>
      let planes := mapped.planes.length
      if planes = 0 ∨ kMaxPlanes < planes then .ok none
      else do
        let size ← packedSize mapped.planes
        if slotBytes.toInt < size then .ok none
        else
          let (headers, slot) ← packPlanes slotBytes.toInt mapped.planes 0 slot
          .ok (some
            ({ slot := -1
               pixelFormat := mapped.pixelFormat
               width := mapped.width
               height := mapped.height
               startUs := mapped.startTime
               endUs := mapped.endTime
               planeCount := Int32.ofNat planes
               planes := .ofFn fun i => headers.getD i default }, slot))

end Pack

section Unpack

def planeFits (p : Plane) (slotBytes : Int64) : Checked Bool :=
  if p.stride ≤ 0 ∨ p.offset < 0 ∨ p.bytes ≤ 0 then .ok false
  else if p.offset > slotBytes then .ok false
  else do
    let left ← int64 (slotBytes.toInt - p.offset.toInt)
    .ok (decide (p.bytes.toInt ≤ left))

def planesFit (hdr : FrameHeader) (slotBytes : Int64) : List Nat → Checked Bool
  | [] => .ok true
  | i :: rest => do
      let p ← index hdr.planes.toList i
      if ← planeFits p slotBytes then planesFit hdr slotBytes rest else .ok false

def headerFits (hdr : FrameHeader) (slotBytes : Int64) : Checked Bool :=
  if !isAllowedFormat hdr.pixelFormat then .ok false
  else if hdr.width ≤ 0 ∨ hdr.height ≤ 0 ∨ kMaxDimension < hdr.width.toInt ∨
      kMaxDimension < hdr.height.toInt then .ok false
  else if hdr.planeCount ≤ 0 ∨ (kMaxPlanes : Int) < hdr.planeCount.toInt ∨ slotBytes ≤ 0 then
    .ok false
  else planesFit hdr slotBytes (List.range hdr.planeCount.toInt.toNat)

def MappedPlane.store (p : MappedPlane) (start : Int) (bytes : Bytes) : Checked MappedPlane :=
  if h : 0 ≤ start ∧ start + bytes.length ≤ p.bits.length then
    .ok { p with
      bits := FileBytes.writeAt p.bits default start.toNat bytes
      short := by rw [FileBytes.length_writeAt (by omega)]; exact p.short }
  else .error .outOfBounds

def copyRow (slot : Pointer) (slotBytes : Int) (src : Plane) (rowBytes : Int) (dst : MappedPlane)
    (r : Nat) : Checked MappedPlane := do
  let dstRow ← int64 (r * dst.bytesPerLine.toInt)
  let srcRow ← int64 (r * src.stride.toInt)
  let srcRow ← int64 (src.offset.toInt + srcRow)
  let row ← slot.read slotBytes srcRow rowBytes
  dst.store dstRow row

-- None where the plane is refused.
def copyPlane (slot : Pointer) (slotBytes : Int) (src : Plane) (dst : MappedPlane) :
    Checked (Option MappedPlane) :=
  let dstStride := dst.bytesPerLine.toInt
  if dstStride ≤ 0 then .ok none
  else
    let rows := dst.mappedBytes.tdiv dstStride
    let rowBytes := min dstStride src.stride.toInt
    if rows ≤ 0 then .ok none
    else do
      let lastRow ← int64 (rows - 1)
      let lastRow ← int64 (lastRow * src.stride.toInt)
      let span ← int64 (lastRow + rowBytes)
      if src.bytes.toInt < span then .ok none
      else some <$> (List.range rows.toNat).foldlM (copyRow slot slotBytes src rowBytes) dst

def copyPlanes (slot : Pointer) (slotBytes : Int) (hdr : FrameHeader) :
    Nat → List MappedPlane → Checked (Option (List MappedPlane))
  | _, [] => .ok (some [])
  | i, dst :: rest => do
      let src ← index hdr.planes.toList i
      match ← copyPlane slot slotBytes src dst with
      | none => .ok none
      | some done => (·.map (done :: ·)) <$> copyPlanes slot slotBytes hdr (i + 1) rest

-- The planes that Qt makes for a format and a size, none where the frame cannot be mapped.
abbrev Allocator := Int32 → Int32 → Int32 → Option (List MappedPlane)

def unpack (allocate : Allocator) (hdr : FrameHeader) (slot : Option Pointer) (slotBytes : Int64) :
    Checked (Option QVideoFrame) :=
  match slot with
  | none => .ok none
  | some slot => do
      if !(← headerFits hdr slotBytes) then .ok none
      else
        match allocate hdr.pixelFormat hdr.width hdr.height with
        | none => .ok none
        | some out =>
            if (out.length : Int) ≠ hdr.planeCount.toInt then .ok none
            else
              (·.map fun planes =>
                { pixelFormat := hdr.pixelFormat
                  width := hdr.width
                  height := hdr.height
                  startTime := hdr.startUs
                  endTime := hdr.endUs
                  planes := planes }) <$> copyPlanes slot slotBytes.toInt hdr 0 out

end Unpack

section Ring

-- The slots of a ring, side by side in memory that both processes have.
structure Ring (slots : Nat) where
  mem : Bytes
  slotBytes : Int64
  nonneg : 0 ≤ slotBytes.toInt
  size : (mem.length : Int) = slots * slotBytes.toInt
  fits : (mem.length : Int) < 2 ^ 63

-- The sizes of a slot and of the ring that is made, none where it is not.
def shareRing (current slotBytes : Int64) : Checked (Option (Int × Int)) :=
  if slotBytes ≤ current ∨ slotBytes ≤ 0 ∨ kMaxSlotBytes < slotBytes.toInt then .ok none
  else do
    let size ← int64 (slotBytes.toInt + slotBytes.toInt.tdiv 4)
    let total ← int64 (size * kSlots)
    .ok (some (size, total))

def showFrame {slots : Nat} (allocate : Allocator) (ring : Option (Ring slots))
    (ownGeneration generation : Int32) (hdr : FrameHeader) : Checked (Option QVideoFrame) :=
  match ring with
  | none => .ok none
  | some ring =>
      if generation = ownGeneration ∧ 0 ≤ hdr.slot ∧ hdr.slot.toInt < slots then do
        let base ← int64 (hdr.slot.toInt * ring.slotBytes.toInt)
        unpack allocate hdr (some ⟨ring.mem, base⟩) ring.slotBytes
      else .ok none

end Ring

end BATorrent.MediaFrame
