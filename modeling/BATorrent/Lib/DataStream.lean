import Mathlib.Data.List.Infix
import Mathlib.Tactic.Ring
import Mathlib.Tactic.SplitIfs

namespace Lib.DataStream

abbrev Bytes := List UInt8

abbrev Reader (α : Type) := Bytes → Option (α × Bytes)

-- What was written is read back, and nothing behind it is touched.
def Reads {α : Type} (get : Reader α) (written : Bytes) (a : α) : Prop :=
  ∀ rest, get (written ++ rest) = some (a, rest)

def Reader.map {α β : Type} (f : α → β) (get : Reader α) : Reader β := fun bs =>
  (get bs).map fun r => (f r.1, r.2)

def Reader.bind {α β : Type} (get : Reader α) (f : α → Reader β) : Reader β := fun bs =>
  (get bs).bind fun r => f r.1 r.2

theorem Reads.map {α β : Type} {get : Reader α} {written : Bytes} {a : α} (h : Reads get written a)
    (f : α → β) : Reads (get.map f) written (f a) := by
  intro rest
  rw [Reader.map, h rest]
  rfl

theorem Reads.bind {α β : Type} {get : Reader α} {f : α → Reader β} {written written' : Bytes}
    {a : α} {b : β} (h : Reads get written a) (h' : Reads (f a) written' b) :
    Reads (get.bind f) (written ++ written') b := by
  intro rest
  rw [Reader.bind, List.append_assoc, h]
  exact h' rest

section Numbers

-- The last `k` bytes of a number, most significant first.
def putBE : Nat → Nat → Bytes
  | 0, _ => []
  | k + 1, n => UInt8.ofNat (n / 256 ^ k) :: putBE k n

def getBE : Nat → Nat → Reader Nat
  | 0, acc, bs => some (acc, bs)
  | _ + 1, _, [] => none
  | k + 1, acc, b :: bs => getBE k (acc * 256 + b.toNat) bs

@[simp] theorem length_putBE (k n : Nat) : (putBE k n).length = k := by
  induction k with
  | zero => rfl
  | succ k ih => rw [putBE, List.length_cons, ih]

theorem getBE_putBE (k n acc : Nat) (rest : Bytes) :
    getBE k acc (putBE k n ++ rest) = some (acc * 256 ^ k + n % 256 ^ k, rest) := by
  induction k generalizing acc with
  | zero => simp [getBE, putBE, Nat.mod_one]
  | succ k ih =>
      have hbyte : (UInt8.ofNat (n / 256 ^ k)).toNat = n / 256 ^ k % 256 := by simp
      rw [putBE, List.cons_append, getBE, ih, hbyte, Nat.mod_pow_succ]
      congr 2
      ring

theorem reads_putBE {k n : Nat} (h : n < 256 ^ k) : Reads (getBE k 0) (putBE k n) n := by
  intro rest
  rw [getBE_putBE, Nat.zero_mul, Nat.zero_add, Nat.mod_eq_of_lt h]

theorem getBE_eq_none {k : Nat} (acc : Nat) {bs : Bytes} (h : bs.length < k) :
    getBE k acc bs = none := by
  induction k generalizing acc bs with
  | zero => omega
  | succ k ih =>
      cases bs with
      | nil => rfl
      | cons b bs => exact ih _ (by simpa using h)

def putU32 (n : UInt32) : Bytes := putBE 4 n.toNat

def getU32 : Reader UInt32 := (getBE 4 0).map UInt32.ofNat

theorem reads_putU32 (n : UInt32) : Reads getU32 (putU32 n) n := by
  have h := (reads_putBE (k := 4) n.toNat_lt).map UInt32.ofNat
  rwa [UInt32.ofNat_toNat] at h

-- Two's complement in `k` bytes.
def putInt (k : Nat) (n : Int) : Bytes := putBE k (n % (256 ^ k : Nat)).toNat

def getInt (k : Nat) : Reader Int := (getBE k 0).map fun (n : Nat) => (n : Int).bmod (256 ^ k)

theorem reads_putInt {k : Nat} {n : Int} (hlo : -(256 ^ k : Nat) ≤ n * 2)
    (hhi : n * 2 < (256 ^ k : Nat)) : Reads (getInt k) (putInt k n) n := by
  have hpos : (0 : Int) < (256 ^ k : Nat) := by exact_mod_cast Nat.pow_pos (by decide)
  have hnonneg := Int.emod_nonneg n (by omega : ((256 ^ k : Nat) : Int) ≠ 0)
  have hlt := Int.emod_lt_of_pos n hpos
  have hbound : (n % (256 ^ k : Nat)).toNat < 256 ^ k := by omega
  have h := (reads_putBE hbound).map fun (n : Nat) => (n : Int).bmod (256 ^ k)
  rw [Int.toNat_of_nonneg hnonneg, Int.emod_bmod, Int.bmod_eq_of_le_mul_two hlo hhi] at h
  exact h

end Numbers

section Strings

-- A byte array that holds nothing is written as a null one.
def kNull : Nat := 2 ^ 32 - 1

def putByteArray (b : Bytes) : Bytes := if b = [] then putBE 4 kNull else putBE 4 b.length ++ b

def getRaw (n : Nat) : Reader Bytes := fun bs =>
  if n ≤ bs.length then some (bs.take n, bs.drop n) else none

def getByteArray : Reader Bytes :=
  (getBE 4 0).bind fun n => if n = kNull then fun bs => some ([], bs) else getRaw n

theorem reads_raw (b : Bytes) : Reads (getRaw b.length) b b := by
  intro rest
  rw [getRaw, if_pos (by simp), List.take_left, List.drop_left]

theorem reads_putByteArray {b : Bytes} (h : b.length < kNull) :
    Reads getByteArray (putByteArray b) b := by
  unfold putByteArray
  split_ifs with hb
  · have hnull := reads_putBE (k := 4) (n := kNull) (by decide)
    rw [← List.append_nil (putBE 4 kNull), hb]
    refine hnull.bind ?_
    rw [if_pos rfl]
    exact fun rest => rfl
  · refine (reads_putBE (k := 4) (by unfold kNull at h; omega)).bind ?_
    rw [if_neg (by omega)]
    exact reads_raw b

-- The UTF-16 units of a text.
abbrev QString := List UInt16

instance QString.lawfulBEq : LawfulBEq QString := inferInstance

def putUnits (s : QString) : Bytes := s.flatMap fun u => putBE 2 u.toNat

def getUnits : Nat → Reader QString
  | 0, bs => some ([], bs)
  | n + 1, bs => ((getBE 2 0).bind fun u => (getUnits n).map (UInt16.ofNat u :: ·)) bs

theorem reads_putUnits (s : QString) : Reads (getUnits s.length) (putUnits s) s := by
  induction s with
  | nil => exact fun rest => rfl
  | cons u s ih =>
      have hunit := reads_putBE (k := 2) u.toNat_lt
      have hcons := ih.map (UInt16.ofNat u.toNat :: ·)
      rw [UInt16.ofNat_toNat] at hcons
      exact hunit.bind (f := fun u => (getUnits s.length).map (UInt16.ofNat u :: ·)) (by
        rwa [UInt16.ofNat_toNat])

def putString (s : QString) : Bytes :=
  if s = [] then putBE 4 kNull else putBE 4 (2 * s.length) ++ putUnits s

def getString : Reader QString :=
  (getBE 4 0).bind fun n =>
    if n = kNull then fun bs => some ([], bs)
    else if n % 2 = 1 then fun _ => none
    else getUnits (n / 2)

theorem reads_putString {s : QString} (h : 2 * s.length < kNull) :
    Reads getString (putString s) s := by
  unfold putString
  split_ifs with hs
  · have hnull := reads_putBE (k := 4) (n := kNull) (by decide)
    rw [← List.append_nil (putBE 4 kNull), hs]
    refine hnull.bind ?_
    rw [if_pos rfl]
    exact fun rest => rfl
  · refine (reads_putBE (k := 4) (by unfold kNull at h; omega)).bind ?_
    rw [if_neg (by omega), if_neg (by omega), Nat.mul_div_cancel_left _ (by decide)]
    exact reads_putUnits s

def putStringList (l : List QString) : Bytes := putBE 4 l.length ++ l.flatMap putString

def getStrings : Nat → Reader (List QString)
  | 0, bs => some ([], bs)
  | n + 1, bs => (getString.bind fun s => (getStrings n).map (s :: ·)) bs

def getStringList : Reader (List QString) := (getBE 4 0).bind getStrings

theorem reads_putStringList {l : List QString} (hlen : l.length < 2 ^ 32)
    (h : ∀ s ∈ l, 2 * s.length < kNull) : Reads getStringList (putStringList l) l := by
  refine (reads_putBE (k := 4) hlen).bind ?_
  clear hlen
  induction l with
  | nil => exact fun rest => rfl
  | cons s l ih =>
      have hs := reads_putString (h s List.mem_cons_self)
      have hl := ih fun s' hs' => h s' (List.mem_cons_of_mem s hs')
      exact hs.bind (f := fun s => (getStrings l.length).map (s :: ·)) (hl.map (s :: ·))

end Strings

section Bits

-- The first of eight bits is the lowest.
def byteOf (bits : List Bool) : Nat := bits.foldr (fun b n => b.toNat + 2 * n) 0

def bitsOf : Nat → Nat → List Bool
  | 0, _ => []
  | k + 1, n => (n % 2 = 1) :: bitsOf k (n / 2)

theorem bitsOf_byteOf {k : Nat} {bits : List Bool} (h : bits.length ≤ k) :
    (bitsOf k (byteOf bits)).take bits.length = bits := by
  induction bits generalizing k with
  | nil => simp
  | cons b bits ih =>
      cases k with
      | zero => simp at h
      | succ k =>
          have hrest := ih (k := k) (by simpa using h)
          have hbyte : byteOf (b :: bits) = b.toNat + 2 * byteOf bits := rfl
          have hlow : (byteOf (b :: bits) % 2 = 1) = (b = true) := by
            rw [hbyte]
            cases b <;> simp
          have hhigh : byteOf (b :: bits) / 2 = byteOf bits := by
            rw [hbyte]
            cases b with
            | false => simp
            | true => simp; omega
          rw [bitsOf, hhigh, List.length_cons, List.take_succ_cons, hrest]
          simp [hlow]

theorem length_bitsOf (k n : Nat) : (bitsOf k n).length = k := by
  induction k generalizing n with
  | zero => rfl
  | succ k ih => rw [bitsOf, List.length_cons, ih]

theorem byteOf_lt (bits : List Bool) : byteOf bits < 2 ^ bits.length := by
  induction bits with
  | nil => decide
  | cons b bits ih =>
      have hbyte : byteOf (b :: bits) = b.toNat + 2 * byteOf bits := rfl
      rw [hbyte, List.length_cons, Nat.pow_succ]
      cases b <;> simp <;> omega

def packBits : Nat → List Bool → Bytes
  | 0, _ => []
  | k + 1, bits => UInt8.ofNat (byteOf (bits.take 8)) :: packBits k (bits.drop 8)

def unpackBits (bytes : Bytes) : List Bool := bytes.flatMap fun b => bitsOf 8 b.toNat

@[simp] theorem length_packBits (k : Nat) (bits : List Bool) : (packBits k bits).length = k := by
  induction k generalizing bits with
  | zero => rfl
  | succ k ih => rw [packBits, List.length_cons, ih]

theorem unpackBits_packBits {k : Nat} {bits : List Bool} (h : bits.length ≤ 8 * k) :
    (unpackBits (packBits k bits)).take bits.length = bits := by
  induction k generalizing bits with
  | zero => simp [List.eq_nil_of_length_eq_zero (show bits.length = 0 by omega)]
  | succ k ih =>
      have hlen : (bits.take 8).length ≤ 8 := by simp
      have hbyte : (UInt8.ofNat (byteOf (bits.take 8))).toNat = byteOf (bits.take 8) := by
        have hlt := byteOf_lt (bits.take 8)
        have hpow : 2 ^ (bits.take 8).length ≤ 2 ^ 8 := Nat.pow_le_pow_right (by decide) hlen
        simp only [UInt8.toNat_ofNat']
        omega
      have hdrop : (bits.drop 8).length ≤ 8 * k := by
        rw [List.length_drop]
        omega
      have hrest := ih hdrop
      have hhead := bitsOf_byteOf hlen
      rw [packBits, unpackBits, List.flatMap_cons, hbyte, List.take_append, length_bitsOf]
      rw [List.length_take] at hhead
      rw [List.length_drop] at hrest
      have hfirst : (bitsOf 8 (byteOf (bits.take 8))).take bits.length = bits.take 8 := by
        by_cases h8 : bits.length ≤ 8
        · rwa [Nat.min_eq_right h8] at hhead
        · rw [Nat.min_eq_left (by omega)] at hhead
          rw [List.take_of_length_le (by rw [length_bitsOf])] at hhead
          rwa [List.take_of_length_le (by rw [length_bitsOf]; omega)]
      rw [hfirst]
      exact (congrArg (bits.take 8 ++ ·) hrest).trans (List.take_append_drop 8 bits)

def putBitArray (bits : List Bool) : Bytes :=
  putBE 8 bits.length ++ packBits ((bits.length + 7) / 8) bits

def getBitArray : Reader (List Bool) :=
  (getBE 8 0).bind fun n => (getRaw ((n + 7) / 8)).map fun bytes => (unpackBits bytes).take n

theorem reads_putBitArray {bits : List Bool} (h : bits.length < 2 ^ 64) :
    Reads getBitArray (putBitArray bits) bits := by
  refine (reads_putBE (k := 8) h).bind ?_
  have hraw := reads_raw (packBits ((bits.length + 7) / 8) bits)
  rw [length_packBits] at hraw
  have hmap := hraw.map fun bytes => (unpackBits bytes).take bits.length
  rwa [unpackBits_packBits (by omega)] at hmap

end Bits

end Lib.DataStream
