import BATorrent.Ipc.MediaFrame.Unpack

namespace BATorrent.MediaFrame

open Lib Lib.Checked Lib.DataStream
open FrameRing (kSlots)

section Align

def alignUp (n : Int) : Int := (n + 63) / 64 * 64

theorem aligned_eq {n : Int} (h : 0 ≤ n) (hlt : n < 2 ^ 62) : aligned n = .ok (alignUp n) := by
  have halign : kAlign = 64 := rfl
  have hstart : int64 (n + kAlign) = .ok (n + 64) := if_pos ⟨by omega, by omega⟩
  have hless : int64 (n + 64 - 1) = .ok (n + 63) := by
    rw [int64, if_pos ⟨by omega, by omega⟩]
    congr 1
    omega
  have htdiv : (n + 63).tdiv kAlign = (n + 63) / 64 := Int.tdiv_eq_ediv_of_nonneg (by omega)
  have hend : int64 ((n + 63).tdiv kAlign * kAlign) = .ok (alignUp n) := by
    rw [htdiv, halign]
    exact if_pos ⟨by omega, by omega⟩
  unfold aligned
  rw [hstart]
  change (int64 (n + 64 - 1) >>= fun past => int64 (past.tdiv kAlign * kAlign)) = _
  rw [hless]
  exact hend

theorem le_alignUp (n : Int) : n ≤ alignUp n := by
  unfold alignUp
  omega

theorem alignUp_lt (n : Int) : alignUp n < n + 64 := by
  unfold alignUp
  omega

-- Where the planes end that are put down from an offset on.
def extent (offset : Int) (planes : List MappedPlane) : Int :=
  planes.foldl (fun offset p => alignUp offset + p.mappedBytes) offset

theorem le_extent (offset : Int) (planes : List MappedPlane) : offset ≤ extent offset planes := by
  induction planes generalizing offset with
  | nil => exact Int.le_refl _
  | cons p rest ih =>
      have hstart := le_alignUp offset
      have hbytes : 0 ≤ p.mappedBytes := Int.natCast_nonneg _
      have hrest := ih (alignUp offset + p.mappedBytes)
      rw [extent, List.foldl_cons]
      rw [extent] at hrest
      omega

theorem foldlM_extent {offset : Int} {planes : List MappedPlane} (h : 0 ≤ offset)
    (hlt : offset + planes.length * 2 ^ 32 < 2 ^ 62) :
    (planes.foldlM (fun total p => do
      let start ← aligned total
      int64 (start + p.mappedBytes)) offset : Checked Int) = .ok (extent offset planes) := by
  induction planes generalizing offset with
  | nil => rfl
  | cons p rest ih =>
      have hstart := le_alignUp offset
      have hlate := alignUp_lt offset
      have hbytes : 0 ≤ p.mappedBytes := Int.natCast_nonneg _
      have hshort : p.mappedBytes < 2 ^ 31 := by
        have := p.short
        unfold MappedPlane.mappedBytes
        omega
      rw [List.length_cons] at hlt
      have hnext : int64 (alignUp offset + p.mappedBytes) = .ok (alignUp offset + p.mappedBytes) :=
        if_pos ⟨by omega, by omega⟩
      rw [List.foldlM_cons, aligned_eq h (by omega)]
      change (int64 (alignUp offset + p.mappedBytes) >>= _) = _
      rw [hnext]
      exact ih (by omega) (by omega)

theorem extent_le (offset : Int) (planes : List MappedPlane) :
    extent offset planes ≤ offset + planes.length * 2 ^ 32 := by
  induction planes generalizing offset with
  | nil => simp [extent]
  | cons p rest ih =>
      have hlate := alignUp_lt offset
      have hshort : p.mappedBytes < 2 ^ 31 := by
        have := p.short
        unfold MappedPlane.mappedBytes
        omega
      have hrest := ih (alignUp offset + p.mappedBytes)
      rw [extent, List.foldl_cons, List.length_cons]
      rw [extent] at hrest
      omega

theorem packedSize_eq {planes : List MappedPlane} (hlen : planes.length ≤ kMaxPlanes) :
    packedSize planes = .ok (alignUp (extent 0 planes)) := by
  have hmax : kMaxPlanes = 4 := rfl
  have hend := extent_le 0 planes
  unfold packedSize
  rw [List.take_of_length_le hlen, foldlM_extent (Int.le_refl 0) (by omega)]
  exact aligned_eq (le_extent 0 planes) (by omega)

end Align

section Pack

theorem write_returns {p : Pointer} {slotBytes start : Int} {bytes : Bytes} (h : p.Holds slotBytes)
    (hstart : 0 ≤ start) (hend : start + bytes.length ≤ slotBytes) :
    Returns (p.write slotBytes start bytes) fun p' => p'.addr = p.addr ∧
      p'.mem.length = p.mem.length ∧ ∀ i, p'.mem[i]? =
        if i < (p.addr + start).toNat ∨ (p.addr + start).toNat + bytes.length ≤ i then p.mem[i]?
        else bytes[i - (p.addr + start).toNat]? := by
  have hnonneg := h.nonneg
  have hinside := h.inside
  rw [Pointer.write, if_pos ⟨hstart, hend⟩]
  refine (store_returns (by omega) (by omega)).map fun mem hmem => ?_
  exact ⟨rfl, hmem.1, hmem.2⟩

-- A plane's header, and the plane where it says.
structure Packed (slot : Pointer) (slotBytes : Int) (p : MappedPlane) (hdr : Plane) : Prop where
  stride : hdr.stride = p.bytesPerLine
  bytes : hdr.bytes.toInt = p.mappedBytes
  offset_nonneg : 0 ≤ hdr.offset.toInt
  fits : hdr.offset.toInt + p.mappedBytes ≤ slotBytes
  content : ∀ c, c < p.bits.length →
    slot.mem[(slot.addr + hdr.offset.toInt).toNat + c]? = p.bits[c]?

theorem packPlanes_returns {slotBytes : Int} {planes : List MappedPlane} {offset : Int}
    {slot : Pointer} (h : slot.Holds slotBytes) (hoffset : 0 ≤ offset)
    (hend : extent offset planes ≤ slotBytes) (hsmall : extent offset planes < 2 ^ 61) :
    Returns (packPlanes slotBytes planes offset slot) fun res =>
      res.2.addr = slot.addr ∧ res.2.mem.length = slot.mem.length ∧
      (∀ i : Nat, i < (slot.addr + offset).toNat → res.2.mem[i]? = slot.mem[i]?) ∧
      List.Forall₂ (Packed res.2 slotBytes) planes res.1 := by
  induction planes generalizing offset slot with
  | nil => exact returns_ok ⟨rfl, rfl, fun _ _ => rfl, .nil⟩
  | cons p rest ih =>
      have hstart := le_alignUp offset
      have hlate := alignUp_lt offset
      have hnonneg := h.nonneg
      have hbytes : 0 ≤ p.mappedBytes := Int.natCast_nonneg _
      have hlength : p.mappedBytes = p.bits.length := rfl
      have hrestEnd : extent (alignUp offset + p.mappedBytes) rest = extent offset (p :: rest) := rfl
      have hroom := le_extent (alignUp offset + p.mappedBytes) rest
      rw [hrestEnd] at hroom
      have hlt := h.short
      unfold packPlanes
      rw [aligned_eq hoffset (by omega)]
      refine (write_returns h (by omega) (by omega)).bind fun slot' hslot' => ?_
      obtain ⟨haddr, hlen, hmem⟩ := hslot'
      refine (int64_returns ⟨by omega, by omega⟩).bind ?_
      rintro _ rfl
      have hholds : slot'.Holds slotBytes := by
        refine ⟨by rw [haddr]; exact h.nonneg, by rw [haddr, hlen]; exact h.inside, h.short⟩
      refine (ih hholds (by omega) (hrestEnd ▸ hend) (hrestEnd ▸ hsmall)).bind fun res hres => ?_
      obtain ⟨haddr', hlen', hbelow, hpacked⟩ := hres
      refine returns_ok ⟨haddr'.trans haddr, hlen'.trans hlen, ?_, ?_⟩
      · intro i hi
        rw [hbelow i (by rw [haddr]; omega), hmem i, if_pos (.inl (by omega))]
      · refine .cons ⟨rfl, ?_, ?_, ?_, ?_⟩ hpacked
        · exact Int64.toInt_ofInt_of_le (by omega) (by omega)
        · rw [Int64.toInt_ofInt_of_le (by omega) (by omega)]
          omega
        · rw [Int64.toInt_ofInt_of_le (by omega) (by omega)]
          omega
        · intro c hc
          rw [Int64.toInt_ofInt_of_le (by omega) (by omega), haddr', haddr,
            hbelow _ (by rw [haddr]; omega), hmem, if_neg (by omega)]
          congr 1
          omega

theorem pack_returns (mapped : QVideoFrame) {slot : Pointer} {slotBytes : Int64}
    (h : slot.Holds slotBytes.toInt) :
    Returns (pack mapped (some slot) slotBytes) fun res => ∀ hdr slot', res = some (hdr, slot') →
      slot'.Holds slotBytes.toInt ∧ hdr.pixelFormat = mapped.pixelFormat ∧
      hdr.width = mapped.width ∧ hdr.height = mapped.height ∧
      hdr.planeCount.toInt = mapped.planes.length ∧ 0 < mapped.planes.length ∧
      mapped.planes.length ≤ kMaxPlanes ∧
      ∀ (i : Nat) p (plane : Plane), mapped.planes[i]? = some p → hdr.planes.toList[i]? = some plane →
        Packed slot' slotBytes.toInt p plane := by
  have hmax : kMaxPlanes = 4 := rfl
  unfold pack
  dsimp only
  split_ifs with hcount
  · exact returns_ok (by simp)
  · rw [packedSize_eq (by omega)]
    have hall := extent_le 0 mapped.planes
    have hpast := le_alignUp (extent 0 mapped.planes)
    change Returns (if slotBytes.toInt < alignUp (extent 0 mapped.planes) then _ else _) _
    split_ifs with hsmall
    · exact returns_ok (by simp)
    · refine (packPlanes_returns h (Int.le_refl 0) (by omega) (by omega)).bind fun res hres => ?_
      obtain ⟨haddr, hlen, -, hpacked⟩ := hres
      refine returns_ok ?_
      rintro hdr slot' heq
      obtain ⟨rfl, rfl⟩ := Prod.mk.inj (Option.some.inj heq)
      refine ⟨⟨haddr ▸ h.nonneg, by rw [haddr, hlen]; exact h.inside, h.short⟩, rfl, rfl, rfl,
        Int32.toInt_ofNat_of_lt (by omega), by omega, by omega, ?_⟩
      intro i p plane hp hplane
      obtain ⟨hi, hp⟩ := List.getElem?_eq_some_iff.mp hp
      have hi' : i < res.1.length := hpacked.length_eq ▸ hi
      have hplane' : plane = res.1[i] := by
        obtain ⟨hi₄, hplane⟩ := List.getElem?_eq_some_iff.mp hplane
        rw [← hplane]
        simp [hi']
      rw [hplane', ← hp]
      exact List.forall₂_iff_get.mp hpacked |>.2 i hi hi'

end Pack

section Layout

-- The rows of pixels of one plane, without what a line may have behind them.
structure PlaneShape where
  rowBytes : Nat
  rows : Nat
  rowBytes_pos : 0 < rowBytes
  rows_pos : 0 < rows

-- A format and a size decide the planes of a frame; how long their lines are is up to who maps it.
abbrev Layout := Int32 → Int32 → Int32 → List PlaneShape

structure LaidOut (shape : PlaneShape) (p : MappedPlane) : Prop where
  rowBytes_le : shape.rowBytes ≤ p.line
  length : p.bits.length = shape.rows * p.line

def QVideoFrame.LaidOut (f : QVideoFrame) (layout : Layout) : Prop :=
  List.Forall₂ MediaFrame.LaidOut (layout f.pixelFormat f.width f.height) f.planes

-- What `unpack` takes.
structure Showable (pixelFormat width height : Int32) : Prop where
  allowed : isAllowedFormat pixelFormat = true
  width : 0 < width.toInt ∧ width.toInt ≤ kMaxDimension
  height : 0 < height.toInt ∧ height.toInt ≤ kMaxDimension

-- The frames that Qt makes have the planes of their format.
def Follows (allocate : Allocator) (layout : Layout) : Prop :=
  ∀ pixelFormat width height, Showable pixelFormat width height →
    ∃ planes, allocate pixelFormat width height = some planes ∧
      List.Forall₂ LaidOut (layout pixelFormat width height) planes

structure SameRows (shape : PlaneShape) (p q : MappedPlane) : Prop where
  row : ∀ r c, r < shape.rows → c < shape.rowBytes →
    p.bits[r * p.line + c]? = q.bits[r * q.line + c]?
  some : ∀ r c, r < shape.rows → c < shape.rowBytes → (p.bits[r * p.line + c]?).isSome

theorem LaidOut.line_pos {shape : PlaneShape} {p : MappedPlane} (h : LaidOut shape p) :
    0 < p.line := Nat.lt_of_lt_of_le shape.rowBytes_pos h.rowBytes_le

theorem LaidOut.toInt_line {shape : PlaneShape} {p : MappedPlane} (h : LaidOut shape p) :
    p.bytesPerLine.toInt = p.line := by
  have hpos := h.line_pos
  unfold MappedPlane.line at hpos ⊢
  omega

theorem LaidOut.rows_eq {shape : PlaneShape} {p : MappedPlane} (h : LaidOut shape p) :
    p.rows = shape.rows := by
  rw [MappedPlane.rows, h.length, Nat.mul_div_cancel _ h.line_pos]

-- The copy of a plane has the rows of the one packed.
theorem sameRows_of_copied {shape : PlaneShape} {slot : Pointer} {slotBytes : Int}
    {p dst done : MappedPlane} {src : Plane} (hp : LaidOut shape p) (hdst : LaidOut shape dst)
    (hpacked : Packed slot slotBytes p src)
    (hcopied : Copied slot src dst done dst.rows) : SameRows shape p done := by
  have hline : done.line = dst.line := congrArg (fun n : Int32 => n.toInt.toNat) hcopied.bytesPerLine
  have hstride : src.stride.toInt.toNat = p.line := by rw [hpacked.stride]; rfl
  have hple := hp.rowBytes_le
  have hdstle := hdst.rowBytes_le
  have hinside : ∀ r c, r < shape.rows → c < shape.rowBytes → r * p.line + c < p.bits.length := by
    intro r c hr hc
    have hend := row_end_le hr hp.length.ge
    omega
  refine ⟨fun r c hr hc => ?_, fun r c hr hc => ?_⟩
  · have hrow := hcopied.row r c (by rw [hdst.rows_eq]; exact hr) (by rw [hstride]; omega)
    rw [hstride, hpacked.content _ (hinside r c hr hc)] at hrow
    rw [hline, hrow]
  · rw [List.getElem?_eq_getElem (hinside r c hr hc)]
    rfl

theorem fits_of_laidOut {shape : PlaneShape} {slot : Pointer} {slotBytes : Int}
    {p dst : MappedPlane} {src : Plane} (hp : LaidOut shape p) (hdst : LaidOut shape dst)
    (hpacked : Packed slot slotBytes p src) : 0 < dst.bytesPerLine.toInt ∧ 0 < dst.rows ∧
      ((dst.rows : Int) - 1) * src.stride.toInt + min dst.bytesPerLine.toInt src.stride.toInt ≤
        src.bytes.toInt := by
  have hpos := hdst.line_pos
  have hrows := shape.rows_pos
  have hlast : ((shape.rows : Int) - 1) * p.line + p.line = shape.rows * p.line := by ring
  refine ⟨by rw [hdst.toInt_line]; omega, by rw [hdst.rows_eq]; exact hrows, ?_⟩
  rw [hpacked.stride, hpacked.bytes, hp.toInt_line, hdst.rows_eq, MappedPlane.mappedBytes, hp.length,
    Nat.cast_mul]
  omega

theorem inside_of_packed {shape : PlaneShape} {slot : Pointer} {slotBytes : Int} {p : MappedPlane}
    {src : Plane} (hp : LaidOut shape p) (hpacked : Packed slot slotBytes p src) :
    src.Inside slotBytes := by
  have hline := hp.line_pos
  have hbytes : 0 < p.mappedBytes := by
    rw [MappedPlane.mappedBytes, hp.length]
    exact_mod_cast Nat.mul_pos shape.rows_pos hline
  refine ⟨?_, hpacked.offset_nonneg, by rw [hpacked.bytes]; exact hbytes, ?_⟩
  · rw [hpacked.stride, hp.toInt_line]
    omega
  · rw [hpacked.bytes]
    exact hpacked.fits

theorem unpack_eq {allocate : Allocator} {hdr : FrameHeader} {slot : Pointer} {slotBytes : Int64}
    {out done : List MappedPlane} (hfits : headerFits hdr slotBytes = .ok true)
    (halloc : allocate hdr.pixelFormat hdr.width hdr.height = some out)
    (hcount : (out.length : Int) = hdr.planeCount.toInt)
    (hcopies : copyPlanes slot slotBytes.toInt hdr 0 out = .ok (some done)) :
    unpack allocate hdr (some slot) slotBytes = .ok (some
      ⟨hdr.pixelFormat, hdr.width, hdr.height, hdr.startUs, hdr.endUs, done⟩) := by
  unfold unpack
  dsimp only
  rw [hfits]
  dsimp only [Except.bind, bind]
  rw [halloc]
  dsimp only
  rw [if_neg (not_not.mpr hcount), hcopies]
  rfl

theorem unpack_pack {allocate : Allocator} {layout : Layout} (hqt : Follows allocate layout)
    {mapped : QVideoFrame} (hlaid : mapped.LaidOut layout)
    (hshow : Showable mapped.pixelFormat mapped.width mapped.height) {slot slot' : Pointer}
    {slotBytes : Int64} (h : slot.Holds slotBytes.toInt) {hdr : FrameHeader}
    (hpack : pack mapped (some slot) slotBytes = .ok (some (hdr, slot'))) (n : Int32) :
    ∃ out, unpack allocate { hdr with slot := n } (some slot') slotBytes = .ok (some out) ∧
      out.pixelFormat = mapped.pixelFormat ∧ out.width = mapped.width ∧
      out.height = mapped.height ∧ out.planes.length = mapped.planes.length ∧
      ∀ (i : Nat) shape p q, (layout mapped.pixelFormat mapped.width mapped.height)[i]? = some shape →
        mapped.planes[i]? = some p → out.planes[i]? = some q → SameRows shape p q := by
  obtain ⟨res, hres, hpacked⟩ := pack_returns mapped h
  obtain rfl : res = some (hdr, slot') := Except.ok.inj (hres.symm.trans hpack)
  obtain ⟨hholds, hformat, hwidth, hheight, hcount, hpos, hmax, hplanes⟩ := hpacked hdr slot' rfl
  obtain ⟨out, halloc, hout⟩ := hqt _ _ _ hshow
  have hlen : (layout mapped.pixelFormat mapped.width mapped.height).length =
      mapped.planes.length := hlaid.length_eq
  have houtLen : out.length = mapped.planes.length := hout.length_eq.symm.trans hlen
  -- The three lists of planes, the headers' with them, go in step.
  have hstep : ∀ (i : Nat) (src : Plane), i < mapped.planes.length →
      hdr.planes.toList[i]? = some src → ∃ shape p dst,
        (layout mapped.pixelFormat mapped.width mapped.height)[i]? = some shape ∧
        mapped.planes[i]? = some p ∧ out[i]? = some dst ∧ LaidOut shape p ∧ LaidOut shape dst ∧
        Packed slot' slotBytes.toInt p src := by
    intro i src hi hsrc
    have hi₁ : i < (layout mapped.pixelFormat mapped.width mapped.height).length := by omega
    have hi₂ : i < out.length := by omega
    exact ⟨_, _, _, List.getElem?_eq_getElem hi₁, List.getElem?_eq_getElem hi,
      List.getElem?_eq_getElem hi₂, (List.forall₂_iff_get.mp hlaid).2 i hi₁ hi,
      (List.forall₂_iff_get.mp hout).2 i hi₁ hi₂,
      hplanes i _ src (List.getElem?_eq_getElem hi) hsrc⟩
  have hinside : ∀ (i : Nat) src, i < mapped.planes.length → hdr.planes.toList[i]? = some src →
      src.Inside slotBytes.toInt := by
    intro i src hi hsrc
    obtain ⟨shape, p, dst, -, -, -, hp, -, hpack⟩ := hstep i src hi hsrc
    exact inside_of_packed hp hpack
  have hslot : 0 < slotBytes.toInt := by
    have hi : 0 < hdr.planes.toList.length := by
      rw [Vector.length_toList]
      decide
    have hfirst := hinside 0 _ hpos (List.getElem?_eq_getElem hi)
    have hfits := hfirst.fits
    have hbytes := hfirst.bytes_pos
    have hoffset := hfirst.offset_nonneg
    omega
  have hsound : FrameHeader.Sound { hdr with slot := n } slotBytes.toInt := by
    refine ⟨?_, ?_, ?_, ?_, hslot, ?_⟩
    · rw [hformat]
      exact hshow.allowed
    · rw [hwidth]
      exact hshow.width
    · rw [hheight]
      exact hshow.height
    · rw [hcount]
      omega
    · intro i src hi hsrc
      rw [hcount] at hi
      exact hinside i src (by omega) hsrc
  obtain ⟨ok, hok, hfits⟩ := headerFits_returns { hdr with slot := n } slotBytes
  obtain rfl := hfits.mpr hsound
  have hcopies : Returns (copyPlanes slot' slotBytes.toInt { hdr with slot := n } 0 out) _ :=
    copyPlanes_returns hholds (by omega) fun j src hj hlt => hinside j src (by omega) hj
  obtain ⟨copies, hcopies, hdone, haccepted⟩ := hcopies
  have hne : copies ≠ none := by
    refine haccepted fun j src dst hsrc hdst => ?_
    rw [Nat.zero_add] at hsrc
    have hj : j < out.length := (List.getElem?_eq_some_iff.mp hdst).1
    obtain ⟨shape, p, dst', -, -, hdst', hp, hlaidOut, hpack⟩ := hstep j src (by omega) hsrc
    obtain rfl : dst = dst' := Option.some.inj (hdst.symm.trans hdst')
    exact fits_of_laidOut hp hlaidOut hpack
  obtain ⟨done, rfl⟩ := Option.ne_none_iff_exists'.mp hne
  obtain ⟨hdoneLen, hdone⟩ := hdone done rfl
  refine ⟨⟨hdr.pixelFormat, hdr.width, hdr.height, hdr.startUs, hdr.endUs, done⟩, ?_, hformat, hwidth,
    hheight, hdoneLen.trans houtLen, ?_⟩
  · have halloc' : allocate hdr.pixelFormat hdr.width hdr.height = some out := by
      rw [hformat, hwidth, hheight, halloc]
    exact unpack_eq hok halloc' (by rw [hcount, houtLen]) hcopies
  · intro i shape p q hshape hp hq
    have hi : i < mapped.planes.length := (List.getElem?_eq_some_iff.mp hp).1
    have hi₄ : i < hdr.planes.toList.length := by
      rw [Vector.length_toList]
      omega
    have hsrc := List.getElem?_eq_getElem hi₄
    obtain ⟨shape', p', dst, hshape', hp', hdst, hlaidP, hlaidDst, hpack⟩ := hstep i _ hi hsrc
    obtain rfl : shape = shape' := Option.some.inj (hshape.symm.trans hshape')
    obtain rfl : p = p' := Option.some.inj (hp.symm.trans hp')
    exact sameRows_of_copied hlaidP hlaidDst hpack
      (hdone i _ dst q (by rw [Nat.zero_add]; exact hsrc) hdst hq)

theorem frames_cross (allocate : Allocator) :
    (∀ slots (ring : Option (Ring slots)) ownGeneration generation hdr,
      ∃ res, showFrame allocate ring ownGeneration generation hdr = .ok res) ∧
    (∀ current slotBytes, ∃ res, shareRing current slotBytes = .ok res ∧
      ∀ size total, res = some (size, total) →
        0 < size ∧ total = kSlots * size ∧ total < 2 ^ 63) ∧
    ∀ layout, Follows allocate layout → ∀ (mapped : QVideoFrame) (slot : Pointer)
      (slotBytes : Int64), mapped.LaidOut layout → slot.Holds slotBytes.toInt →
      ∃ res, pack mapped (some slot) slotBytes = .ok res ∧ ∀ hdr slot', res = some (hdr, slot') →
        Showable mapped.pixelFormat mapped.width mapped.height → ∀ n : Int32,
        ∃ out, unpack allocate { hdr with slot := n } (some slot') slotBytes = .ok (some out) ∧
          out.pixelFormat = mapped.pixelFormat ∧ out.width = mapped.width ∧
          out.height = mapped.height ∧ out.planes.length = mapped.planes.length ∧
          ∀ (i : Nat) shape p q,
            (layout mapped.pixelFormat mapped.width mapped.height)[i]? = some shape →
            mapped.planes[i]? = some p → out.planes[i]? = some q → SameRows shape p q := by
  refine ⟨fun _ ring own generation hdr => showFrame_returns allocate ring own generation hdr,
    shareRing_returns, ?_⟩
  intro layout hqt mapped slot slotBytes hlaid hholds
  obtain ⟨res, hpack, -⟩ := pack_returns mapped hholds
  refine ⟨res, hpack, ?_⟩
  rintro hdr slot' rfl hshow n
  exact unpack_pack hqt hlaid hshow hholds hpack n

end Layout

section Sample

-- Two pixels by two, in lines of two bytes where they are decoded and of sixteen where Qt maps.
def greyShape : PlaneShape := ⟨2, 2, by decide, by decide⟩

def greyFrame : QVideoFrame where
  pixelFormat := PixelFormat.y8.code
  width := 2
  height := 2
  startTime := 0
  endTime := 40
  planes := [⟨2, [1, 2, 3, 4], by decide⟩]

def greyPlane : MappedPlane := ⟨16, List.replicate 32 0, by decide⟩

def emptySlot : Pointer := ⟨List.replicate 64 0, 0⟩

theorem emptySlot_holds : emptySlot.Holds (Int64.toInt 64) := ⟨by decide, by decide, by decide⟩

theorem frames_cross_grey : ∃ hdr slot' out,
    pack greyFrame (some emptySlot) 64 = .ok (some (hdr, slot')) ∧
    unpack (fun _ _ _ => some [greyPlane]) { hdr with slot := 1 } (some slot') 64 = .ok (some out) ∧
    ∀ p q, greyFrame.planes[0]? = some p → out.planes[0]? = some q → SameRows greyShape p q := by
  have hqt : Follows (fun _ _ _ => some [greyPlane]) (fun _ _ _ => [greyShape]) :=
    fun _ _ _ _ => ⟨_, rfl, .cons ⟨by decide, by decide⟩ .nil⟩
  have hlaid : greyFrame.LaidOut fun _ _ _ => [greyShape] := .cons ⟨by decide, by decide⟩ .nil
  have hshow : Showable greyFrame.pixelFormat greyFrame.width greyFrame.height :=
    ⟨by decide, by decide, by decide⟩
  obtain ⟨res, hpack, hcross⟩ := (frames_cross fun _ _ _ => some [greyPlane]).2.2 _ hqt greyFrame
    emptySlot 64 hlaid emptySlot_holds
  have hsome : (pack greyFrame (some emptySlot) 64).toOption.join.isSome := by decide +kernel
  rw [hpack] at hsome
  obtain ⟨⟨hdr, slot'⟩, hres⟩ := Option.isSome_iff_exists.mp hsome
  obtain ⟨out, hunpack, -, -, -, -, hrows⟩ := hcross hdr slot' hres hshow 1
  exact ⟨hdr, slot', out, hres ▸ hpack, hunpack, fun p q hp hq => hrows 0 greyShape p q rfl hp hq⟩

def ayuvFrame : QVideoFrame where
  pixelFormat := PixelFormat.ayuv.code
  width := 1
  height := 1
  startTime := 0
  endTime := 40
  planes := [⟨4, [1, 2, 3, 4], by decide⟩]

-- A frame can be packed that the window does not take.
theorem not_frames_cross : ∃ hdr slot',
    pack ayuvFrame (some emptySlot) 64 = .ok (some (hdr, slot')) ∧
    ∀ allocate, unpack allocate hdr (some slot') 64 = .ok none := by
  refine ⟨_, _, rfl, fun _ => rfl⟩

end Sample

end BATorrent.MediaFrame
