import BATorrent.Ipc.MediaFrame
import Mathlib.Tactic.Linarith

namespace BATorrent.MediaFrame

open Lib Lib.Checked Lib.DataStream
open FrameRing (kSlots kMaxSlotBytes)

-- A pointer with a slot's bytes behind it.
structure Pointer.Holds (p : Pointer) (slotBytes : Int) : Prop where
  nonneg : 0 ≤ p.addr
  inside : p.addr + slotBytes ≤ p.mem.length
  short : slotBytes < 2 ^ 63

theorem read_returns {p : Pointer} {slotBytes start len : Int} (h : p.Holds slotBytes)
    (hstart : 0 ≤ start) (hlen : 0 ≤ len) (hend : start + len ≤ slotBytes) :
    Returns (p.read slotBytes start len) fun xs => xs.length = len.toNat ∧
      ∀ i, i < len.toNat → xs[i]? = p.mem[(p.addr + start).toNat + i]? := by
  have hnonneg := h.nonneg
  have hinside := h.inside
  rw [Pointer.read, if_pos ⟨hstart, hend⟩]
  exact load_returns (by omega) hlen (by omega)

-- The copy of a row writes that row's part of the plane, and no more.
theorem copyRow_returns {slot : Pointer} {slotBytes rowBytes : Int} {src : Plane}
    {dst : MappedPlane} {r : Nat} (h : slot.Holds slotBytes) (hstride : 0 ≤ src.stride.toInt)
    (hline : 0 ≤ dst.bytesPerLine.toInt) (hoffset : 0 ≤ src.offset.toInt) (hrow : 0 ≤ rowBytes)
    (hsrc : src.offset.toInt + (r * src.stride.toInt + rowBytes) ≤ slotBytes)
    (hdst : r * dst.bytesPerLine.toInt + rowBytes ≤ dst.bits.length) :
    Returns (copyRow slot slotBytes src rowBytes dst r) fun dst' =>
      dst'.bytesPerLine = dst.bytesPerLine ∧ dst'.bits.length = dst.bits.length ∧
      ∀ j : Nat, dst'.bits[j]? =
        if j < (r * dst.bytesPerLine.toInt).toNat ∨
            (r * dst.bytesPerLine.toInt).toNat + rowBytes.toNat ≤ j then dst.bits[j]?
        else slot.mem[(slot.addr + (src.offset.toInt + r * src.stride.toInt)).toNat +
          (j - (r * dst.bytesPerLine.toInt).toNat)]? := by
  have hshort := dst.short
  have hslot := h.short
  have hskip : 0 ≤ r * src.stride.toInt := Int.mul_nonneg (Int.natCast_nonneg r) hstride
  have hto : 0 ≤ r * dst.bytesPerLine.toInt := Int.mul_nonneg (Int.natCast_nonneg r) hline
  unfold copyRow
  refine (int64_returns ⟨by omega, by omega⟩).bind ?_
  rintro _ rfl
  refine (int64_returns ⟨by omega, by omega⟩).bind ?_
  rintro _ rfl
  refine (int64_returns ⟨by omega, by omega⟩).bind ?_
  rintro _ rfl
  refine (read_returns h (by omega) hrow (by omega)).bind ?_
  rintro row ⟨hlen, hrowAt⟩
  have hfits : 0 ≤ r * dst.bytesPerLine.toInt ∧
      r * dst.bytesPerLine.toInt + row.length ≤ dst.bits.length := ⟨hto, by omega⟩
  refine ⟨_, dif_pos hfits, rfl, FileBytes.length_writeAt (by omega), ?_⟩
  intro j
  rw [FileBytes.getElem?_writeAt (by omega), hlen]
  split_ifs with hj
  · rfl
  · exact hrowAt _ (by omega)

-- A plane that the slot has whole.
structure Plane.Inside (p : Plane) (slotBytes : Int) : Prop where
  stride_pos : 0 < p.stride.toInt
  offset_nonneg : 0 ≤ p.offset.toInt
  bytes_pos : 0 < p.bytes.toInt
  fits : p.offset.toInt + p.bytes.toInt ≤ slotBytes

def MappedPlane.line (p : MappedPlane) : Nat := p.bytesPerLine.toInt.toNat

def MappedPlane.rows (p : MappedPlane) : Nat := p.bits.length / p.line

-- The first rows of `dst` as the slot has them in `src`.
structure Copied (slot : Pointer) (src : Plane) (dst done : MappedPlane) (rows : Nat) : Prop where
  bytesPerLine : done.bytesPerLine = dst.bytesPerLine
  length : done.bits.length = dst.bits.length
  row : ∀ r c, r < rows → c < min dst.line src.stride.toInt.toNat →
    done.bits[r * dst.line + c]? =
      slot.mem[(slot.addr + src.offset.toInt).toNat + (r * src.stride.toInt.toNat + c)]?

theorem row_end_le {d rows r : Nat} {n : Nat} (hr : r < rows) (h : rows * d ≤ n) :
    r * d + d ≤ n := by
  have hmul : (r + 1) * d ≤ rows * d := Nat.mul_le_mul_right d hr
  have hsucc : (r + 1) * d = r * d + d := Nat.succ_mul r d
  omega

theorem copyRows_returns {slot : Pointer} {slotBytes : Int} {src : Plane} {dst : MappedPlane}
    (h : slot.Holds slotBytes) (hsrc : src.Inside slotBytes) (hline : 0 < dst.bytesPerLine.toInt)
    (hspan : ((dst.rows : Int) - 1) * src.stride.toInt +
      min dst.bytesPerLine.toInt src.stride.toInt ≤ src.bytes.toInt) :
    Returns ((List.range dst.rows).foldlM
        (copyRow slot slotBytes src (min dst.bytesPerLine.toInt src.stride.toInt)) dst)
      (Copied slot src dst · dst.rows) := by
  have hstride := hsrc.stride_pos
  have hoffset := hsrc.offset_nonneg
  have hfits := hsrc.fits
  have hnonneg := h.nonneg
  obtain ⟨d, hd⟩ := Int.eq_ofNat_of_zero_le hline.le
  obtain ⟨k, hk⟩ := Int.eq_ofNat_of_zero_le hstride.le
  have hdline : dst.line = d := by rw [MappedPlane.line, hd, Int.toNat_natCast]
  have hrowsLe : dst.rows * d ≤ dst.bits.length := by
    rw [MappedPlane.rows, hdline]
    exact Nat.div_mul_le_self _ _
  refine foldlM_returns (I := fun r done => Copied slot src dst done r) ?_
    ⟨rfl, rfl, fun r c hr => absurd hr (Nat.not_lt_zero r)⟩
  intro r cur hr hcur
  have hcurLine : cur.bytesPerLine.toInt = d := by rw [hcur.bytesPerLine, hd]
  have hdstEnd := row_end_le hr hrowsLe
  have hsrcEnd : r * k + k ≤ (dst.rows - 1) * k + k := by
    have hmul : r * k ≤ (dst.rows - 1) * k := Nat.mul_le_mul_right k (by omega)
    omega
  have hlast : ((dst.rows : Int) - 1) * src.stride.toInt = ((dst.rows - 1) * k : Nat) := by
    rw [hk, Nat.cast_mul]
    congr 1
    omega
  have hmin : min dst.bytesPerLine.toInt src.stride.toInt = (min d k : Nat) := by
    rw [hd, hk]
    omega
  rw [hlast, hmin] at hspan
  have hrk : (r : Int) * src.stride.toInt = (r * k : Nat) := by rw [hk, Nat.cast_mul]
  have hrd : (r : Int) * cur.bytesPerLine.toInt = (r * d : Nat) := by rw [hcurLine, Nat.cast_mul]
  rw [hmin]
  refine (copyRow_returns h hstride.le (by omega) hoffset (by omega)
    (by rw [hrk]; omega) (by rw [hrd, hcur.length]; omega)).mono ?_
  rintro done ⟨hbytes, hlength, hdone⟩
  rw [hrk, hrd] at hdone
  refine ⟨hbytes.trans hcur.bytesPerLine, hlength.trans hcur.length, ?_⟩
  intro r' c hr' hc
  have hcur' := hcur.row r' c
  rw [hdline, hk, Int.toNat_natCast] at hcur' hc ⊢
  rw [hdone]
  rcases Nat.lt_succ_iff_lt_or_eq.mp hr' with hlt | rfl
  · -- A row above is left alone.
    have habove : r' * d + d ≤ r * d := row_end_le hlt (Nat.le_refl _)
    rw [if_pos (.inl (by omega))]
    exact hcur' hlt hc
  · rw [if_neg (by omega)]
    congr 1
    omega

theorem rows_eq {dst : MappedPlane} (hline : 0 < dst.bytesPerLine.toInt) :
    dst.mappedBytes.tdiv dst.bytesPerLine.toInt = (dst.rows : Int) := by
  obtain ⟨d, hd⟩ := Int.eq_ofNat_of_zero_le hline.le
  have hdline : dst.line = d := by rw [MappedPlane.line, hd, Int.toNat_natCast]
  rw [MappedPlane.mappedBytes, hd, MappedPlane.rows, hdline]
  exact (Int.ofNat_tdiv _ _).symm

theorem copyPlane_returns {slot : Pointer} {slotBytes : Int} {src : Plane} {dst : MappedPlane}
    (h : slot.Holds slotBytes) (hsrc : src.Inside slotBytes) :
    Returns (copyPlane slot slotBytes src dst) fun res =>
      (∀ done, res = some done → Copied slot src dst done dst.rows) ∧
      (0 < dst.bytesPerLine.toInt → 0 < dst.rows →
        ((dst.rows : Int) - 1) * src.stride.toInt +
          min dst.bytesPerLine.toInt src.stride.toInt ≤ src.bytes.toInt → res ≠ none) := by
  have hstride := hsrc.stride_pos
  have hstrideLt : src.stride.toInt < 2 ^ 31 := src.stride.toInt_lt
  have hshort := dst.short
  unfold copyPlane
  dsimp only
  split_ifs with hline hrows
  · exact returns_ok ⟨by simp, fun hpos => absurd hpos (by omega)⟩
  · rw [rows_eq (by omega)] at hrows
    exact returns_ok ⟨by simp, fun _ hpos => absurd hpos (by omega)⟩
  · have hpos : 0 < dst.bytesPerLine.toInt := by omega
    rw [rows_eq hpos] at hrows ⊢
    have hrowsLt : (dst.rows : Int) < 2 ^ 31 := by
      have hle : dst.rows ≤ dst.bits.length := Nat.div_le_self _ _
      omega
    have hlo : 0 ≤ ((dst.rows : Int) - 1) * src.stride.toInt := Int.mul_nonneg (by omega) hstride.le
    have hhi : ((dst.rows : Int) - 1) * src.stride.toInt ≤ 2 ^ 31 * 2 ^ 31 :=
      Int.mul_le_mul (by omega) (by omega) hstride.le (by decide)
    refine (int64_returns ⟨by omega, by omega⟩).bind ?_
    rintro _ rfl
    refine (int64_returns ⟨by omega, by omega⟩).bind ?_
    rintro _ rfl
    refine (int64_returns ⟨by omega, by omega⟩).bind ?_
    rintro _ rfl
    split_ifs with hspan
    · exact returns_ok ⟨by simp, fun _ _ hfits => absurd hfits (by omega)⟩
    · refine (copyRows_returns h hsrc hpos (by omega)).map fun done hdone => ⟨?_, fun _ _ _ => by simp⟩
      rintro _ ⟨⟩
      exact hdone

-- What is refused is refused for one plane; what is not has them all copied.
theorem copyPlanes_returns {slot : Pointer} {slotBytes : Int} {hdr : FrameHeader} {i : Nat}
    {out : List MappedPlane} (h : slot.Holds slotBytes) (hlen : i + out.length ≤ kMaxPlanes)
    (hsrc : ∀ j src, hdr.planes.toList[j]? = some src → j < i + out.length → src.Inside slotBytes) :
    Returns (copyPlanes slot slotBytes hdr i out) fun res =>
      (∀ done, res = some done → done.length = out.length ∧
        ∀ j (src : Plane) (dst p : MappedPlane), hdr.planes.toList[i + j]? = some src →
          out[j]? = some dst → done[j]? = some p → Copied slot src dst p dst.rows) ∧
      ((∀ j (src : Plane) (dst : MappedPlane), hdr.planes.toList[i + j]? = some src →
        out[j]? = some dst → 0 < dst.bytesPerLine.toInt ∧ 0 < dst.rows ∧
          ((dst.rows : Int) - 1) * src.stride.toInt +
            min dst.bytesPerLine.toInt src.stride.toInt ≤ src.bytes.toInt) → res ≠ none) := by
  induction out generalizing i with
  | nil =>
      refine returns_ok ⟨?_, fun _ => by simp⟩
      rintro _ ⟨⟩
      exact ⟨rfl, fun j src dst p _ hdst => by simp at hdst⟩
  | cons dst rest ih =>
      rw [List.length_cons] at hlen hsrc
      have hi : i < hdr.planes.toList.length := by
        rw [Vector.length_toList]
        omega
      refine (index_returns hi).bind fun src hget => ?_
      refine (copyPlane_returns h (hsrc i src hget (by omega))).bind fun res hres => ?_
      obtain ⟨hcopied, haccepted⟩ := hres
      have hrest := ih (i := i + 1) (by omega) fun j src hj hlt => hsrc j src hj (by omega)
      cases res with
      | none =>
          refine returns_ok ⟨by simp, fun hall => ?_⟩
          obtain ⟨hline, hrows, hspan⟩ := hall 0 src dst hget rfl
          exact absurd rfl (haccepted hline hrows hspan)
      | some first =>
          refine hrest.map fun res hres => ?_
          obtain ⟨hdone, hall⟩ := hres
          refine ⟨?_, ?_⟩
          · intro done hsome
            obtain ⟨others, rfl, rfl⟩ := Option.map_eq_some_iff.mp hsome
            obtain ⟨hlength, hothers⟩ := hdone others rfl
            refine ⟨by rw [List.length_cons, List.length_cons, hlength], ?_⟩
            intro j src' dst' p hsrc' hdst' hp
            cases j with
            | zero =>
                obtain rfl : src = src' := Option.some.inj (hget.symm.trans hsrc')
                obtain rfl : dst = dst' := Option.some.inj hdst'
                obtain rfl : first = p := Option.some.inj hp
                exact hcopied first rfl
            | succ j =>
                rw [Nat.add_succ, ← Nat.succ_add] at hsrc'
                exact hothers j src' dst' p hsrc' hdst' hp
          · intro hplanes
            have hne := hall fun j src' dst' hsrc' hdst' => by
              rw [Nat.succ_add, ← Nat.add_succ] at hsrc'
              exact hplanes (j + 1) src' dst' hsrc' hdst'
            cases res with
            | none => exact absurd rfl hne
            | some others => simp

section Header

theorem planeFits_returns (p : Plane) {slotBytes : Int64} (hslot : 0 ≤ slotBytes.toInt) :
    Returns (planeFits p slotBytes) fun ok => ok = true ↔ p.Inside slotBytes.toInt := by
  have hlt := slotBytes.toInt_lt
  have hzero32 : Int32.toInt 0 = 0 := rfl
  have hzero64 : Int64.toInt 0 = 0 := rfl
  unfold planeFits
  simp only [Int32.le_iff_toInt_le, Int64.lt_iff_toInt_lt, Int64.le_iff_toInt_le, gt_iff_lt,
    hzero32, hzero64]
  split_ifs with hbad hpast
  · refine returns_ok ((iff_false_left Bool.false_ne_true).mpr fun hinside => ?_)
    have := hinside.stride_pos
    have := hinside.offset_nonneg
    have := hinside.bytes_pos
    omega
  · refine returns_ok ((iff_false_left Bool.false_ne_true).mpr fun hinside => ?_)
    have := hinside.bytes_pos
    have := hinside.fits
    omega
  · refine (int64_returns ⟨by omega, by omega⟩).bind ?_
    rintro _ rfl
    refine returns_ok ?_
    rw [decide_eq_true_iff]
    exact ⟨fun hle => ⟨by omega, by omega, by omega, by omega⟩,
      fun hinside => by have := hinside.fits; omega⟩

theorem planesFit_returns {hdr : FrameHeader} {slotBytes : Int64} (hslot : 0 ≤ slotBytes.toInt)
    {is : List Nat} (his : ∀ i ∈ is, i < kMaxPlanes) :
    Returns (planesFit hdr slotBytes is) fun ok => ok = true ↔
      ∀ i ∈ is, ∀ p, hdr.planes.toList[i]? = some p → p.Inside slotBytes.toInt := by
  induction is with
  | nil => exact returns_ok (by simp)
  | cons i is ih =>
      have hi : i < hdr.planes.toList.length := by
        rw [Vector.length_toList]
        exact his i List.mem_cons_self
      refine (index_returns hi).bind fun p hget => ?_
      refine (planeFits_returns p hslot).bind fun ok hok => ?_
      have hrest := ih fun j hj => his j (List.mem_cons_of_mem i hj)
      rw [List.forall_mem_cons]
      cases ok with
      | true =>
          refine hrest.mono fun rest hrest => ?_
          rw [hrest]
          refine ⟨fun h => ⟨fun q hq => ?_, h⟩, And.right⟩
          obtain rfl : p = q := Option.some.inj (hget.symm.trans hq)
          exact hok.mp rfl
      | false =>
          refine returns_ok ((iff_false_left Bool.false_ne_true).mpr fun h => ?_)
          exact Bool.false_ne_true (hok.mpr (h.1 p hget))

-- What a header that is let through has.
structure FrameHeader.Sound (hdr : FrameHeader) (slotBytes : Int) : Prop where
  allowed : isAllowedFormat hdr.pixelFormat = true
  width : 0 < hdr.width.toInt ∧ hdr.width.toInt ≤ kMaxDimension
  height : 0 < hdr.height.toInt ∧ hdr.height.toInt ≤ kMaxDimension
  planeCount : 0 < hdr.planeCount.toInt ∧ hdr.planeCount.toInt ≤ kMaxPlanes
  slot_pos : 0 < slotBytes
  inside : ∀ (i : Nat) p, (i : Int) < hdr.planeCount.toInt → hdr.planes.toList[i]? = some p →
    p.Inside slotBytes

theorem headerFits_returns (hdr : FrameHeader) (slotBytes : Int64) :
    Returns (headerFits hdr slotBytes) fun ok => ok = true ↔ hdr.Sound slotBytes.toInt := by
  have hzero32 : Int32.toInt 0 = 0 := rfl
  have hzero64 : Int64.toInt 0 = 0 := rfl
  unfold headerFits
  simp only [Int32.le_iff_toInt_le, Int64.le_iff_toInt_le, hzero32, hzero64]
  split_ifs with hformat hsize hcount
  · refine returns_ok ((iff_false_left Bool.false_ne_true).mpr fun h => ?_)
    simp [h.allowed] at hformat
  · refine returns_ok ((iff_false_left Bool.false_ne_true).mpr fun h => ?_)
    have := h.width
    have := h.height
    omega
  · refine returns_ok ((iff_false_left Bool.false_ne_true).mpr fun h => ?_)
    have := h.planeCount
    have := h.slot_pos
    omega
  · refine (planesFit_returns (by omega) fun i hi => ?_).mono fun ok hok => ?_
    · rw [List.mem_range] at hi
      omega
    · rw [hok]
      constructor
      · intro h
        refine ⟨by simpa using hformat, by omega, by omega, by omega, by omega, ?_⟩
        intro i p hi hp
        exact h i (List.mem_range.mpr (by omega)) p hp
      · intro h i hi p hp
        rw [List.mem_range] at hi
        exact h.inside i p (by omega) hp

end Header

section Safety

variable (allocate : Allocator)

theorem unpack_returns (hdr : FrameHeader) {slot : Pointer} {slotBytes : Int64}
    (h : slot.Holds slotBytes.toInt) :
    Returns (unpack allocate hdr (some slot) slotBytes) fun res =>
      ∀ frame, res = some frame → hdr.Sound slotBytes.toInt := by
  unfold unpack
  refine (headerFits_returns hdr slotBytes).bind fun ok hok => ?_
  cases ok with
  | false => exact returns_ok (by simp)
  | true =>
      have hsound := hok.mp rfl
      simp only [Bool.not_true, Bool.false_eq_true, if_false]
      cases allocate hdr.pixelFormat hdr.width hdr.height with
      | none => exact returns_ok (by simp)
      | some out =>
          dsimp only
          split_ifs with hcount
          · exact returns_ok (by simp)
          · have hlen := hsound.planeCount
            refine (copyPlanes_returns h (by omega) fun j src hsrc hj => ?_).map
              fun _ _ _ _ => hsound
            exact hsound.inside j src (by omega) hsrc

theorem Ring.slot_holds {slots : Nat} (ring : Ring slots) {slot : Int} (hnonneg : 0 ≤ slot)
    (hlt : slot < slots) :
    (⟨ring.mem, slot * ring.slotBytes.toInt⟩ : Pointer).Holds ring.slotBytes.toInt := by
  have hbytes := ring.nonneg
  have hsize := ring.size
  have hend : (slot + 1) * ring.slotBytes.toInt ≤ slots * ring.slotBytes.toInt :=
    Int.mul_le_mul_of_nonneg_right (by omega) hbytes
  rw [Int.add_mul, Int.one_mul] at hend
  refine ⟨Int.mul_nonneg hnonneg hbytes, ?_, ring.slotBytes.toInt_lt⟩
  change slot * ring.slotBytes.toInt + ring.slotBytes.toInt ≤ ring.mem.length
  omega

-- Whatever the child says of a frame, the window neither overflows nor leaves the slot.
theorem showFrame_returns {slots : Nat} (ring : Option (Ring slots))
    (ownGeneration generation : Int32) (hdr : FrameHeader) :
    ∃ res, showFrame allocate ring ownGeneration generation hdr = .ok res := by
  cases ring with
  | none => exact ⟨none, rfl⟩
  | some ring =>
      unfold showFrame
      dsimp only
      split_ifs with husable
      · have hslot : 0 ≤ hdr.slot.toInt := Int32.le_iff_toInt_le.mp husable.2.1
        have hholds := ring.slot_holds hslot husable.2.2
        have hfits := ring.fits
        have hnonneg := hholds.nonneg
        have hinside := hholds.inside
        have hbytes := ring.nonneg
        dsimp only at hnonneg hinside
        obtain ⟨res, hres, -⟩ := (int64_returns (n := hdr.slot.toInt * ring.slotBytes.toInt)
          ⟨by omega, by omega⟩).bind fun base hbase => hbase ▸ unpack_returns allocate hdr hholds
        exact ⟨res, hres⟩
      · exact ⟨none, rfl⟩

theorem shareRing_returns (current slotBytes : Int64) :
    Returns (shareRing current slotBytes) fun res =>
      ∀ size total, res = some (size, total) → 0 < size ∧ total = kSlots * size ∧ total < 2 ^ 63 := by
  unfold shareRing
  have hzero : Int64.toInt 0 = 0 := rfl
  simp only [Int64.le_iff_toInt_le, hzero]
  split_ifs with hrefused
  · exact returns_ok (by simp)
  · have hmax : kMaxSlotBytes = 64 * 1024 * 1024 := rfl
    have hslots : ((kSlots : Nat) : Int) = 3 := rfl
    rw [Int.tdiv_eq_ediv_of_nonneg (by omega), hslots]
    refine (int64_returns ⟨by omega, by omega⟩).bind ?_
    rintro _ rfl
    refine (int64_returns ⟨by omega, by omega⟩).bind ?_
    rintro _ rfl
    refine returns_ok ?_
    rintro size total heq
    obtain ⟨rfl, rfl⟩ := Prod.mk.inj (Option.some.inj heq)
    exact ⟨by omega, by omega, by omega⟩

end Safety

end BATorrent.MediaFrame
