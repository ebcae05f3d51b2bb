import Mathlib.Tactic.SplitIfs
import BATorrent.Lib.Checked

namespace BATorrent.RangePlan

-- An HTTP range: both ends are included.
structure ByteRange where
  start : Nat
  last : Int
deriving DecidableEq, Repr

def ByteRange.size (r : ByteRange) : Int := r.last - r.start + 1

-- The first `rem` ranges are one byte longer.
def planLoop (base rem : Nat) : Nat → Nat → Nat → List ByteRange
  | 0, _, _ => []
  | todo + 1, i, pos =>
      let len := base + if i < rem then 1 else 0
      ⟨pos, (pos + len : Nat) - 1⟩ :: planLoop base rem todo (i + 1) (pos + len)

def planSegments (totalSize numConns : Int) : List ByteRange :=
  if totalSize ≤ 0 then []
  else
    let total := totalSize.toNat
    let n := min (if numConns < 1 then 1 else numConns.toNat) total
    planLoop (total / n) (total % n) n 0 0

-- Ranges without gaps or overlaps from `pos` to `stop`.
inductive Tiles : Nat → Nat → List ByteRange → Prop
  | nil (pos : Nat) : Tiles pos pos []
  | cons {pos next stop : Nat} {last : Int} {rest : List ByteRange} :
      pos < next → last + 1 = next → Tiles next stop rest → Tiles pos stop (⟨pos, last⟩ :: rest)

theorem tiles_planLoop {base : Nat} (hbase : 0 < base) (rem todo i pos : Nat) :
    Tiles pos (pos + todo * base + (min rem (i + todo) - min rem i))
      (planLoop base rem todo i pos) := by
  induction todo generalizing i pos with
  | zero =>
      rw [show pos + 0 * base + (min rem (i + 0) - min rem i) = pos by simp]
      exact .nil pos
  | succ todo ih =>
      rw [planLoop]
      have hrest := ih (i + 1) (pos + (base + if i < rem then 1 else 0))
      have hstop : pos + (base + if i < rem then 1 else 0) + todo * base +
          (min rem (i + 1 + todo) - min rem (i + 1)) =
          pos + (todo + 1) * base + (min rem (i + (todo + 1)) - min rem i) := by
        rw [Nat.add_mul]
        split_ifs
        · omega
        · omega
      rw [hstop] at hrest
      refine .cons (by omega) ?_ hrest
      omega

theorem planSegments_tiles {totalSize : Int} (h : 0 < totalSize) (numConns : Int) :
    Tiles 0 totalSize.toNat (planSegments totalSize numConns) := by
  rw [planSegments, if_neg (by omega)]
  simp only
  have hn : 0 < min (if numConns < 1 then 1 else numConns.toNat) totalSize.toNat := by
    split_ifs
    · omega
    · omega
  have hle : min (if numConns < 1 then 1 else numConns.toNat) totalSize.toNat ≤
      totalSize.toNat := Nat.min_le_right _ _
  generalize min (if numConns < 1 then 1 else numConns.toNat) totalSize.toNat = n at hn hle
  have hloop := tiles_planLoop (Nat.div_pos hle hn) (totalSize.toNat % n) n 0 0
  have hstop : 0 + n * (totalSize.toNat / n) +
      (min (totalSize.toNat % n) (0 + n) - min (totalSize.toNat % n) 0) = totalSize.toNat := by
    have hsum := Nat.div_add_mod totalSize.toNat n
    have hrem := Nat.mod_lt totalSize.toNat hn
    omega
  rwa [hstop] at hloop

-- Every byte is in one of them.
theorem Tiles.exists_mem {pos stop i : Nat} {rs : List ByteRange} (h : Tiles pos stop rs)
    (hlo : pos ≤ i) (hhi : i < stop) : ∃ r ∈ rs, r.start ≤ i ∧ (i : Int) ≤ r.last := by
  induction h with
  | nil pos => omega
  | @cons pos next stop last rest hlt hlast _ ih =>
      by_cases hi : i < next
      · exact ⟨_, List.mem_cons_self, hlo, by simp only; omega⟩
      · obtain ⟨r, hr, hin⟩ := ih (by omega) hhi
        exact ⟨r, List.mem_cons_of_mem _ hr, hin⟩

open Lib
open Checked (int64 Fits)

section Checked

-- The same loop on 64-bit integers, where an overflow is a fault.
def planLoop64 (base rem : Int) : Nat → Int → Int → Checked (List ByteRange)
  | 0, _, _ => .ok []
  | todo + 1, i, pos => do
      let len ← int64 (base + if i < rem then 1 else 0)
      let next ← int64 (pos + len)
      let last ← int64 (next - 1)
      let rest ← planLoop64 base rem todo (i + 1) next
      .ok (⟨pos.toNat, last⟩ :: rest)

def planSegments64 (totalSize numConns : Int) : Checked (List ByteRange) :=
  if totalSize ≤ 0 then .ok []
  else
    let n := min (if numConns < 1 then 1 else numConns) totalSize
    planLoop64 (totalSize.tdiv n) (totalSize.tmod n) n.toNat 0 0

def size64 (r : ByteRange) : Checked Int := do
  let length ← int64 (r.last - r.start)
  int64 (length + 1)

end Checked

section Closed

variable {base rem n i pos total : Nat}

-- The range that has so many ranges before it.
def segment (base rem i : Nat) : ByteRange :=
  ⟨i * base + min i rem, (((i + 1) * base + min (i + 1) rem : Nat) : Int) - 1⟩

theorem next_start (base rem i : Nat) :
    i * base + min i rem + (base + if i < rem then 1 else 0) = (i + 1) * base + min (i + 1) rem := by
  rw [Nat.add_mul, Nat.one_mul]
  split_ifs with h
  · omega
  · omega

theorem planLoop_eq (base rem todo i : Nat) :
    planLoop base rem todo i (i * base + min i rem) = (List.range' i todo).map (segment base rem) := by
  induction todo generalizing i with
  | zero => rfl
  | succ todo ih =>
      rw [planLoop, List.range'_succ, List.map_cons, next_start, ih, segment]

-- The number of ranges.
def count (totalSize numConns : Int) : Nat := min (if numConns < 1 then 1 else numConns.toNat) totalSize.toNat

theorem planSegments_eq {totalSize : Int} (h : 0 < totalSize) (numConns : Int) :
    planSegments totalSize numConns =
      (List.range (count totalSize numConns)).map
        (segment (totalSize.toNat / count totalSize numConns) (totalSize.toNat % count totalSize numConns)) := by
  have hloop := planLoop_eq (totalSize.toNat / count totalSize numConns)
    (totalSize.toNat % count totalSize numConns) (count totalSize numConns) 0
  rw [Nat.zero_mul, Nat.zero_add, Nat.zero_min] at hloop
  rw [List.range_eq_range', ← hloop, planSegments, if_neg (by omega)]
  rfl

theorem count_pos {totalSize : Int} (h : 0 < totalSize) (numConns : Int) : 0 < count totalSize numConns := by
  unfold count
  split_ifs with hconns <;> omega

theorem count_le (totalSize numConns : Int) : count totalSize numConns ≤ totalSize.toNat := Nat.min_le_right _ _

-- The last range ends with the file.
theorem segment_end (h : 0 < n) (total : Nat) : n * (total / n) + min n (total % n) = total := by
  have hmod := Nat.mod_lt total h
  have hsum := Nat.div_add_mod total n
  omega

theorem segment_size (base rem i : Nat) : (segment base rem i).size = base + if i < rem then 1 else 0 := by
  have hnext := next_start base rem i
  rw [ByteRange.size, segment]
  dsimp only
  generalize i * base + min i rem = start at hnext ⊢
  generalize (i + 1) * base + min (i + 1) rem = next at hnext ⊢
  split_ifs at hnext ⊢ with h <;> omega

end Closed

section Overflow

theorem int64_of_bounds {n : Int} (hlow : 0 ≤ n) (hhigh : n < 2 ^ 63) : int64 n = .ok n := by
  rw [int64, if_pos ⟨by omega, hhigh⟩]

-- No step leaves the 64 bits where the last range does not.
theorem planLoop64_eq (base rem todo i : Nat)
    (h : (i + todo) * base + min (i + todo) rem < 2 ^ 63) :
    planLoop64 base rem todo i ((i * base + min i rem : Nat) : Int) =
      .ok ((List.range' i todo).map (segment base rem)) := by
  induction todo generalizing i with
  | zero => rfl
  | succ todo ih =>
      have hshift : i + (todo + 1) = i + 1 + todo := by omega
      rw [hshift] at h
      have hle : (i + 1) * base + min (i + 1) rem ≤ (i + 1 + todo) * base + min (i + 1 + todo) rem := by
        have hmul := Nat.mul_le_mul_right base (Nat.le_add_right (i + 1) todo)
        omega
      have hnext := next_start base rem i
      have hcond : ((i : Int) < rem) ↔ i < rem := by omega
      rw [planLoop64, List.range'_succ, List.map_cons, segment]
      simp only [hcond]
      have hrest := ih (i + 1) h
      generalize (i + 1 + todo) * base + min (i + 1 + todo) rem = stop at h hle
      generalize i * base + min i rem = start at hnext ⊢
      generalize (i + 1) * base + min (i + 1) rem = next at hnext hle hrest ⊢
      have hlen : int64 ((base : Int) + if i < rem then 1 else 0) = .ok ((base : Int) + if i < rem then 1 else 0) := by
        apply int64_of_bounds <;> split_ifs at hnext ⊢ <;> omega
      have hpos : int64 ((start : Int) + ((base : Int) + if i < rem then 1 else 0)) = .ok (next : Int) := by
        have hsum : (start : Int) + ((base : Int) + if i < rem then 1 else 0) = next := by
          split_ifs at hnext ⊢ <;> omega
        rw [hsum]
        exact int64_of_bounds (Int.natCast_nonneg next) (by omega)
      have hlast : int64 ((next : Int) - 1) = .ok ((next : Int) - 1) := by
        rw [int64, if_pos ⟨by omega, by omega⟩]
      have hindex : ((i : Int) + 1) = ((i + 1 : Nat) : Int) := rfl
      rw [hlen]
      simp only [bind, Except.bind, hpos, hlast]
      rw [hindex, hrest]
      rfl

theorem planSegments64_eq {totalSize : Int} (h : 0 < totalSize) (hfit : totalSize < 2 ^ 63) (numConns : Int) :
    planSegments64 totalSize numConns = .ok (planSegments totalSize numConns) := by
  have hcount : min (if numConns < 1 then 1 else numConns) totalSize = (count totalSize numConns : Int) := by
    unfold count
    split_ifs <;> omega
  obtain ⟨total, rfl⟩ := Int.eq_ofNat_of_zero_le (Int.le_of_lt h)
  have hpos := count_pos h numConns
  have hend := segment_end hpos total
  have hloop := planLoop64_eq (total / count total numConns) (total % count total numConns) (count total numConns) 0
    (by rw [Nat.zero_add, hend]; omega)
  rw [planSegments64, if_neg (by omega), planSegments_eq h, List.range_eq_range']
  simp only [hcount, Int.toNat_natCast]
  rw [← Int.ofNat_tdiv, ← Int.ofNat_tmod]
  rw [Nat.zero_mul, Nat.zero_add, Nat.zero_min] at hloop
  exact hloop

theorem size64_eq {r : ByteRange} (hsize : 1 ≤ r.size) (hlast : r.last + 1 < 2 ^ 63) :
    size64 r = .ok r.size := by
  rw [ByteRange.size] at hsize ⊢
  have hlength : int64 (r.last - r.start) = .ok (r.last - r.start) := by
    rw [int64, if_pos ⟨by omega, by omega⟩]
  rw [size64, hlength]
  exact if_pos ⟨by omega, by omega⟩

end Overflow

-- The plan covers the file from its first byte to its last with as many ranges as there may be,
-- none of them empty and none more than a byte longer than another, and no step overflows.
theorem plan_partitions {totalSize : Int} (h : 0 < totalSize) (hfit : totalSize < 2 ^ 63) (numConns : Int) :
    planSegments64 totalSize numConns = .ok (planSegments totalSize numConns) ∧
      ((planSegments totalSize numConns).length : Int) = min (max numConns 1) totalSize ∧
      ((planSegments totalSize numConns).head?.map ByteRange.start = some 0) ∧
      ((planSegments totalSize numConns).getLast?.map ByteRange.last = some (totalSize - 1)) ∧
      (∀ i r next, (planSegments totalSize numConns)[i]? = some r →
        (planSegments totalSize numConns)[i + 1]? = some next → (next.start : Int) = r.last + 1) ∧
      (∀ r ∈ planSegments totalSize numConns, 1 ≤ r.size ∧ size64 r = .ok r.size) ∧
      ∀ r ∈ planSegments totalSize numConns, ∀ r' ∈ planSegments totalSize numConns, r.size ≤ r'.size + 1 := by
  have hpos := count_pos h numConns
  have hle := count_le totalSize numConns
  have hend := segment_end hpos totalSize.toNat
  have hbase : 1 ≤ totalSize.toNat / count totalSize numConns := Nat.div_pos hle hpos
  have hcount : (count totalSize numConns : Int) = min (max numConns 1) totalSize := by
    unfold count
    split_ifs <;> omega
  refine ⟨planSegments64_eq h hfit numConns, ?_⟩
  rw [planSegments_eq h]
  generalize totalSize.toNat % count totalSize numConns = rem at hend ⊢
  generalize totalSize.toNat / count totalSize numConns = base at hend hbase ⊢
  generalize count totalSize numConns = n at hpos hle hend hcount ⊢
  refine ⟨?_, ?_, ?_, ?_, ?_, ?_⟩
  · rw [List.length_map, List.length_range, hcount]
  · obtain ⟨n, rfl⟩ : ∃ k, n = k + 1 := ⟨n - 1, by omega⟩
    rw [List.range_succ_eq_map, List.map_cons, List.head?_cons, Option.map_some, segment]
    simp
  · obtain ⟨n, rfl⟩ : ∃ k, n = k + 1 := ⟨n - 1, by omega⟩
    rw [List.range_succ, List.map_append, List.map_singleton, List.getLast?_concat, Option.map_some, segment, hend]
    have hlast : ((totalSize.toNat : Nat) : Int) - 1 = totalSize - 1 := by omega
    exact congrArg some hlast
  · intro i r next hr hnext
    rw [List.getElem?_map] at hr hnext
    obtain ⟨j, hj, rfl⟩ := Option.map_eq_some_iff.mp hr
    obtain ⟨k, hk, rfl⟩ := Option.map_eq_some_iff.mp hnext
    obtain ⟨_, rfl⟩ := List.getElem?_eq_some_iff.mp hj
    obtain ⟨_, rfl⟩ := List.getElem?_eq_some_iff.mp hk
    rw [List.getElem_range, List.getElem_range, segment, segment]
    dsimp only
    omega
  · intro r hr
    obtain ⟨i, hi, rfl⟩ := List.mem_map.mp hr
    have hsize : 1 ≤ (segment base rem i).size := by
      rw [segment_size]
      split_ifs <;> omega
    refine ⟨hsize, size64_eq hsize ?_⟩
    have hi : i + 1 ≤ n := Nat.succ_le_of_lt (List.mem_range.mp hi)
    have hstop : (i + 1) * base + min (i + 1) rem ≤ totalSize.toNat := by
      rw [← hend]
      exact Nat.add_le_add (Nat.mul_le_mul_right base hi) (by omega)
    rw [segment]
    dsimp only
    omega
  · intro r hr r' hr'
    obtain ⟨i, _, rfl⟩ := List.mem_map.mp hr
    obtain ⟨i', _, rfl⟩ := List.mem_map.mp hr'
    rw [segment_size, segment_size]
    split_ifs <;> omega

-- The test with a remainder.
theorem plan_partitions_1003 :
    planSegments64 1003 4 = .ok (planSegments 1003 4) ∧ ((planSegments 1003 4).length : Int) = 4 := by
  obtain ⟨hchecked, hlength, _⟩ := plan_partitions (by decide : (0 : Int) < 1003) (by decide) 4
  exact ⟨hchecked, hlength⟩

end BATorrent.RangePlan
