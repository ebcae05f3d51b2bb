import BATorrent.Lib.Slice
import BATorrent.Services.MkvChapters

namespace BATorrent.MkvChapters

open Lib Lib.Checked Lib.Utf8
open Lib.DataStream (Bytes putBE length_putBE)

section Numbers

theorem bigEndian_putBE (v k n : Nat) : bigEndian v (putBE k n) = v * 256 ^ k + n % 256 ^ k := by
  induction k generalizing v with
  | zero => simp [bigEndian, putBE, Nat.mod_one]
  | succ k ih =>
      have hbyte : (UInt8.ofNat (n / 256 ^ k)).toNat = n / 256 ^ k % 256 := by simp
      rw [putBE, bigEndian, List.foldl_cons, ← bigEndian, ih, hbyte, Nat.mod_pow_succ]
      ring

-- Nothing but ones makes a number the largest of its bytes.
theorem bigEndian_top (v : Nat) (bytes : Bytes) :
    bigEndian v bytes + 1 ≤ (v + 1) * 256 ^ bytes.length ∧
      (bigEndian v bytes + 1 = (v + 1) * 256 ^ bytes.length ↔ bytes.all (· = 0xFF) = true) := by
  induction bytes generalizing v with
  | nil => simp [bigEndian]
  | cons b bytes ih =>
      have hb : b.toNat < 256 := b.toNat_lt
      obtain ⟨hle, htop⟩ := ih (v * 256 + b.toNat)
      have hpos : 0 < 256 ^ bytes.length := Nat.pow_pos (by decide)
      have hone : b = 0xFF ↔ b.toNat = 255 := by
        rw [← UInt8.toNat_inj]
        rfl
      have hfold : bigEndian v (b :: bytes) = bigEndian (v * 256 + b.toNat) bytes := rfl
      have hmul : (v + 1) * 256 ^ (b :: bytes).length = (v * 256 + 256) * 256 ^ bytes.length := by
        rw [List.length_cons, Nat.pow_succ]
        ring
      rw [hfold, hmul, List.all_cons, Bool.and_eq_true, decide_eq_true_eq, hone, ← htop]
      constructor
      · exact hle.trans (Nat.mul_le_mul_right _ (by omega))
      · constructor
        · intro heq
          have hbyte : b.toNat = 255 := by
            by_contra hne
            have hlt : (v * 256 + b.toNat + 1) * 256 ^ bytes.length < (v * 256 + 256) * 256 ^ bytes.length :=
              Nat.mul_lt_mul_of_pos_right (by omega) hpos
            omega
          exact ⟨hbyte, by rw [heq, hbyte]⟩
        · rintro ⟨hbyte, heq⟩
          rw [heq, hbyte]

theorem vintLen_eq {first : UInt8} {k : Nat} (hk : k < 8) (hlow : 2 ^ (7 - k) ≤ first.toNat)
    (hhigh : first.toNat < 2 ^ (8 - k)) : vintLen first = k + 1 := by
  have hlog : first.toNat.log2 = 7 - k := by
    rw [Nat.log2_eq_iff (by have := Nat.two_pow_pos (7 - k); omega)]
    exact ⟨hlow, by rwa [show 7 - k + 1 = 8 - k by omega]⟩
  rw [vintLen, hlog]
  omega

-- A number of `7 * w` bits behind its marker, in `w` bytes.
structure Marked (w n : Nat) : Prop where
  pos : 1 ≤ w
  le : w ≤ 8
  low : 2 ^ (7 * w) ≤ n
  high : n < 2 ^ (7 * w + 1)

theorem readVint_eq {file : Bytes} {pos w n : Nat} (hfile : Addressable file) (hn : Marked w n)
    (h : HoldsAt file pos (putBE w n)) (keepMarker : Bool) :
    ∃ v : Vint pos, readVint file pos keepMarker = .ok (some v) ∧ v.next = pos + w ∧
      v.value = (if keepMarker then n else n - 2 ^ (7 * w)) ∧
      (v.unknown = true ↔ keepMarker = false ∧ n + 1 = 2 ^ (7 * w + 1)) := by
  obtain ⟨hpos, hle, hlow, hhigh⟩ := hn
  obtain ⟨k, rfl⟩ : ∃ k, w = k + 1 := ⟨w - 1, by omega⟩
  have hin := h.length_le
  rw [length_putBE] at hin
  rw [putBE] at h
  obtain ⟨first, hfirst⟩ : ∃ first, first = UInt8.ofNat (n / 256 ^ k) := ⟨_, rfl⟩
  rw [← hfirst] at h
  have h256 : 256 ^ k = 2 ^ (8 * k) := by
    rw [Nat.pow_mul]
  have hlowest : 2 ^ (7 - k) * 256 ^ k = 2 ^ (7 * (k + 1)) := by
    rw [h256, ← Nat.pow_add]
    congr 1
    omega
  have hhighest : 2 ^ (8 - k) * 256 ^ k = 2 ^ (7 * (k + 1) + 1) := by
    rw [h256, ← Nat.pow_add]
    congr 1
    omega
  have hpow : 0 < 256 ^ k := Nat.pow_pos (by decide)
  have hdivlow : 2 ^ (7 - k) ≤ n / 256 ^ k := by
    rw [Nat.le_div_iff_mul_le hpow, hlowest]
    exact hlow
  have hdivhigh : n / 256 ^ k < 2 ^ (8 - k) := by
    rw [Nat.div_lt_iff_lt_mul hpow, hhighest]
    exact hhigh
  have hbyte : first.toNat = n / 256 ^ k := by
    have h256' : 2 ^ (8 - k) ≤ 256 := Nat.pow_le_pow_right (n := 2) (by decide) (show 8 - k ≤ 8 by omega)
    rw [hfirst, UInt8.toNat_ofNat', Nat.mod_eq_of_lt (by omega)]
  have hlen : vintLen first = k + 1 := vintLen_eq (by omega) (hbyte ▸ hdivlow) (hbyte ▸ hdivhigh)
  have hzero : first ≠ 0 := by
    intro h0
    have hnat : first.toNat = 0 := by rw [h0]; rfl
    have := Nat.two_pow_pos (7 - k)
    omega
  have hrest : load file (pos + 1 : Nat) (vintLen first - 1 : Nat) = .ok (putBE k n) := by
    have hload := h.tail.load
    rw [length_putBE] at hload
    rwa [hlen]
  have hread : readVint file pos keepMarker =
      .ok (some ⟨bigEndian (vintStart first keepMarker) (putBE k n),
        !keepMarker && vintAllOnes first (putBE k n), pos + vintLen first, by omega⟩) := by
    unfold Addressable at hfile
    unfold readVint
    rw [if_neg (by omega), h.index]
    change (if first = 0 then _ else _) = _
    rw [if_neg hzero]
    rw [dif_neg (by omega), sum_eq (by omega)]
    change (if file.length < pos + vintLen first then _ else _) = _
    rw [if_neg (by omega), hrest]
    rfl
  have hdata : vintStart first false = n / 256 ^ k - 2 ^ (7 - k) := by
    have hpow : 2 ^ (8 - k) = 2 * 2 ^ (7 - k) := by
      rw [← Nat.pow_succ']
      congr 1
      omega
    change first.toNat % 2 ^ (8 - vintLen first) = _
    rw [hlen, hbyte, show 8 - (k + 1) = 7 - k by omega, Nat.mod_eq_sub_mod hdivlow, Nat.mod_eq_of_lt (by omega)]
  have hsplit := Nat.div_add_mod' n (256 ^ k)
  have hvalue : bigEndian (vintStart first false) (putBE k n) = n - 2 ^ (7 * (k + 1)) := by
    rw [bigEndian_putBE, hdata, Nat.sub_mul, hlowest]
    have hle := Nat.mul_le_mul_right (256 ^ k) hdivlow
    omega
  refine ⟨_, hread, congrArg (pos + ·) hlen, ?_, ?_⟩
  · cases keepMarker with
    | false => exact hvalue
    | true =>
        change bigEndian first.toNat (putBE k n) = n
        rw [bigEndian_putBE, hbyte, hsplit]
  · have hones : vintAllOnes first (putBE k n) = true ↔ n + 1 = 2 ^ (7 * (k + 1) + 1) := by
      have htop := bigEndian_top (vintStart first false) (putBE k n)
      have hdouble : 2 ^ (7 * (k + 1) + 1) = 2 * 2 ^ (7 * (k + 1)) := Nat.pow_succ'
      have hbits : vintAllOnes first (putBE k n) = true ↔
          vintStart first false + 1 = 2 ^ (7 - k) ∧ (putBE k n).all (· = 0xFF) = true := by
        have hpos' := Nat.two_pow_pos (7 - k)
        unfold vintAllOnes
        rw [Bool.and_eq_true, decide_eq_true_eq]
        change vintStart first false = _ ∧ _ ↔ _
        rw [hlen, show 8 - (k + 1) = 7 - k by omega]
        exact and_congr_left' (by omega)
      rw [hvalue, length_putBE] at htop
      rw [hbits, ← htop.2]
      constructor
      · rintro ⟨hdata, heq⟩
        rw [hdata, hlowest] at heq
        omega
      · intro heq
        have hstart : vintStart first false + 1 ≤ 2 ^ (7 - k) := by
          have hpow : 2 ^ (8 - k) = 2 * 2 ^ (7 - k) := by
            rw [← Nat.pow_succ']
            congr 1
            omega
          omega
        have hall : vintStart first false + 1 = 2 ^ (7 - k) := by
          by_contra hne
          have hlt := Nat.mul_lt_mul_of_pos_right (lt_of_le_of_ne hstart hne) hpow
          have hle := htop.1
          omega
        refine ⟨hall, ?_⟩
        rw [hall, hlowest]
        omega
    rw [Bool.and_eq_true, hones, Bool.not_eq_true']

end Numbers

section Elements

-- An element ID and the bytes it takes.
structure Tag where
  id : Nat
  len : Nat
  marked : Marked len id
  short : len ≤ 4

-- The width in which a size is written. All ones would be an unknown size.
structure Sized (size : Nat) where
  width : Nat
  pos : 1 ≤ width
  le : width ≤ 8
  fits : size + 1 < 2 ^ (7 * width)

structure Elem where
  tag : Tag
  payload : Bytes
  sized : Sized payload.length

variable {size : Nat}

theorem Sized.marked (s : Sized size) : Marked s.width (2 ^ (7 * s.width) + size) where
  pos := s.pos
  le := s.le
  low := Nat.le_add_right _ _
  high := by
    have hfits := s.fits
    rw [Nat.pow_succ]
    omega

def Tag.bytes (t : Tag) : Bytes := putBE t.len t.id

def Sized.bytes (s : Sized size) : Bytes := putBE s.width (2 ^ (7 * s.width) + size)

def Elem.header (e : Elem) : Bytes := e.tag.bytes ++ e.sized.bytes

def Elem.bytes (e : Elem) : Bytes := e.header ++ e.payload

theorem Elem.bytes_pos (e : Elem) : 0 < e.bytes.length := by
  have hpos := e.tag.marked.pos
  rw [Elem.bytes, Elem.header, Tag.bytes, List.length_append, List.length_append, length_putBE]
  omega

variable {file : Bytes} {pos : Nat}

theorem readHeader_tag (hfile : Addressable file) {t : Tag} {more : Nat} {w n : Nat} (hn : Marked w n)
    (h : HoldsAt file pos (t.bytes ++ putBE w n)) (hmore : more = pos + t.len + w) :
    ∃ hd : Header pos, readHeader file pos = .ok (some hd) ∧ hd.id = t.id ∧ hd.content = more ∧
      hd.size = n - 2 ^ (7 * w) ∧ (hd.unknownSize = true ↔ n + 1 = 2 ^ (7 * w + 1)) := by
  obtain ⟨rawId, hid, hnext, hvalue, -⟩ := readVint_eq hfile t.marked h.left true
  have hright := h.right
  rw [Tag.bytes, length_putBE, ← hnext] at hright
  obtain ⟨rawSize, hsize, hcontent, hsizeValue, hunknown⟩ := readVint_eq hfile hn hright false
  have hsmall : ¬ 0xFFFFFFFF < rawId.value := by
    have hhigh := t.marked.high
    have hle : 2 ^ (7 * t.len + 1) ≤ 2 ^ 29 :=
      Nat.pow_le_pow_right (by decide) (by have := t.short; omega)
    rw [hvalue, if_pos rfl]
    omega
  refine ⟨⟨rawId.value, rawSize.value, rawSize.unknown, rawSize.next, rawId.lt_next.trans rawSize.lt_next⟩,
    ?_, hvalue, ?_, hsizeValue, ?_⟩
  · rw [readHeader, hid]
    change (if 0xFFFFFFFF < rawId.value then _ else _) = _
    rw [if_neg hsmall, hsize]
    rfl
  · exact hcontent.trans (by rw [hnext, hmore])
  · rw [hunknown]
    exact and_iff_right rfl

theorem Elem.readHeader_eq (hfile : Addressable file) {e : Elem} (h : HoldsAt file pos e.bytes) :
    ∃ hd : Header pos, readHeader file pos = .ok (some hd) ∧ hd.id = e.tag.id ∧
      hd.content = pos + e.header.length ∧ hd.size = e.payload.length ∧ hd.unknownSize = false := by
  have hmore : pos + e.header.length = pos + e.tag.len + e.sized.width := by
    rw [Elem.header, List.length_append, Tag.bytes, Sized.bytes, length_putBE, length_putBE, Nat.add_assoc]
  obtain ⟨hd, hread, hid, hcontent, hsize, hunknown⟩ := readHeader_tag hfile e.sized.marked h.left hmore
  refine ⟨hd, hread, hid, hcontent, by rw [hsize, Nat.add_sub_cancel_left], ?_⟩
  rw [← Bool.not_eq_true, hunknown, Nat.pow_succ]
  have hfits := e.sized.fits
  omega

-- An element that lies in its parent is found there.
theorem Elem.child_eq (hfile : Addressable file) {e : Elem} {start : Nat} (stop : Nat) (h : HoldsAt file pos e.bytes)
    (hstart : start ≤ pos) (hstop : pos + e.bytes.length ≤ stop) :
    ∃ c : Child stop pos, child file start stop pos = .ok (some c) ∧ c.id = e.tag.id ∧
      c.size = e.payload.length ∧ c.content + c.size = pos + e.bytes.length ∧
      HoldsAt file c.content e.payload := by
  obtain ⟨hd, hread, hid, hcontent, hsize, hunknown⟩ := e.readHeader_eq hfile h
  have hpos := e.bytes_pos
  have hend : hd.content + hd.size = pos + e.bytes.length := by
    rw [hcontent, hsize, Elem.bytes, List.length_append, Nat.add_assoc]
  have hlong := h.length_le
  have hlt := hd.lt_content
  have hin : ¬ stop < hd.content + hd.size := by omega
  refine ⟨⟨hd, Nat.le_of_not_lt hin⟩, ?_, hid, hsize, hend, ?_⟩
  · unfold Addressable at hfile
    unfold child
    rw [inside_eq hstart (by omega)]
    change (readHeader file pos >>= _) = _
    rw [hread]
    change (if hd.unknownSize = true then _ else _) = _
    rw [hunknown, if_neg Bool.false_ne_true, sum_eq (by omega)]
    change dite (stop < hd.content + hd.size) _ _ = _
    rw [dif_neg hin, inside_eq (by omega) (by omega)]
    rfl
  · rw [hcontent]
    exact h.right

end Elements

end BATorrent.MkvChapters
