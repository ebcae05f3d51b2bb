import BATorrent.Lib.DataStream

namespace Lib.LittleEndian

open DataStream (Bytes)

-- A number by its bytes, the low one first.
def value (bs : Bytes) : Nat := bs.foldr (fun byte value => byte.toNat + 256 * value) 0

def bytes : Nat → Nat → Bytes
  | 0, _ => []
  | k + 1, n => UInt8.ofNat n :: bytes k (n / 256)

theorem value_cons (b : UInt8) (bs : Bytes) : value (b :: bs) = b.toNat + 256 * value bs := rfl

@[simp] theorem length_bytes (k n : Nat) : (bytes k n).length = k := by
  induction k generalizing n with
  | zero => rfl
  | succ k ih => rw [bytes, List.length_cons, ih]

theorem value_bytes (k n : Nat) : value (bytes k n) = n % 256 ^ k := by
  induction k generalizing n with
  | zero => rw [Nat.pow_zero, Nat.mod_one]; rfl
  | succ k ih =>
      have hbyte : (UInt8.ofNat n).toNat = n % 256 := by simp
      rw [bytes, value_cons, ih, hbyte, Nat.pow_succ', Nat.mod_mul]

theorem value_bytes_of_lt {k n : Nat} (h : n < 256 ^ k) : value (bytes k n) = n := by
  rw [value_bytes, Nat.mod_eq_of_lt h]

theorem value_lt (bs : Bytes) : value bs < 256 ^ bs.length := by
  induction bs with
  | nil => exact Nat.one_pos
  | cons b bs ih =>
      have hb : b.toNat < 256 := b.toNat_lt
      rw [value_cons, List.length_cons, Nat.pow_succ]
      omega

theorem bytes_value (bs : Bytes) : bytes bs.length (value bs) = bs := by
  induction bs with
  | nil => rfl
  | cons b bs ih =>
      have hb : b.toNat < 256 := b.toNat_lt
      have hlow : UInt8.ofNat (b.toNat + 256 * value bs) = b := by
        apply UInt8.toNat_inj.mp
        rw [UInt8.toNat_ofNat']
        omega
      have hhigh : (b.toNat + 256 * value bs) / 256 = value bs := by omega
      rw [List.length_cons, value_cons, bytes, hlow, hhigh, ih]

theorem value_append (bs bs' : Bytes) : value (bs ++ bs') = value bs + 256 ^ bs.length * value bs' := by
  induction bs with
  | nil => simp [value]
  | cons b bs ih =>
      rw [List.cons_append, value_cons, value_cons, ih, List.length_cons, Nat.pow_succ]
      ring

end Lib.LittleEndian
