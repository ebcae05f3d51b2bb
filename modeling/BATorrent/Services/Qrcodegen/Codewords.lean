import BATorrent.Lib.ReedSolomon
import BATorrent.Services.Qrcodegen
import Mathlib.Data.Fintype.EquivFin
import Mathlib.Dynamics.PeriodicPts.Defs

namespace BATorrent.Qrcodegen

open Lib
open Lib.DataStream (Bytes)

section Powers

-- The element times `X`, modulo X^8 + X^4 + X^3 + X^2 + 1.
def xtime (p : UInt8) : UInt8 := if p.toNat.testBit 7 then (p <<< 1) ^^^ 0x1D else p <<< 1

-- The product of two elements, a bit of the second at a time.
def product (a b : UInt8) : UInt8 :=
  (bitsOf b.toNat 8).foldl (fun p bit => if bit then xtime p ^^^ a else xtime p) 0

-- The same on numbers.
def carried (n : Nat) : Nat := if n < 128 then 2 * n else (2 * n) ^^^ 0x11D

def alpha (i : Nat) : UInt8 := xtime^[i] 1

theorem toNat_xtime (p : UInt8) : (xtime p).toNat = carried p.toNat := by
  have h : ∀ n : Fin 256, (xtime (UInt8.ofNat n)).toNat = carried n := by decide +kernel
  simpa using h ⟨p.toNat, p.toNat_lt⟩

theorem nextPower_eq {x : UInt8} (hx : x ≠ 0) : nextPower x = xtime x := by
  have h : ∀ n : Fin 256, n ≠ 0 → nextPower (UInt8.ofNat n) = xtime (UInt8.ofNat n) := by decide +kernel
  have hn : (⟨x.toNat, x.toNat_lt⟩ : Fin 256) ≠ 0 := fun h0 => hx (UInt8.toNat.inj (congrArg Fin.val h0))
  simpa using h ⟨x.toNat, x.toNat_lt⟩ hn

theorem xtime_xor (a b : UInt8) : xtime (a ^^^ b) = xtime a ^^^ xtime b := by
  have htwice (x y : UInt8) : x ^^^ y = x ^^^ 29 ^^^ (y ^^^ 29) := by
    rw [UInt8.xor_assoc, UInt8.xor_comm y, ← UInt8.xor_assoc 29, UInt8.xor_self, UInt8.zero_xor]
  unfold xtime
  rw [UInt8.toNat_xor, Nat.testBit_xor, UInt8.shiftLeft_xor]
  cases a.toNat.testBit 7 with
  | false =>
      cases b.toNat.testBit 7 with
      | false => rfl
      | true => exact UInt8.xor_assoc _ _ _
  | true =>
      cases b.toNat.testBit 7 with
      | false =>
          simp only [Bool.true_xor, Bool.not_false, if_true, Bool.false_eq_true, if_false]
          rw [UInt8.xor_assoc, UInt8.xor_assoc, UInt8.xor_comm 29]
      | true => exact htwice _ _

theorem toNat_alpha (i : Nat) : (alpha i).toNat = carried^[i] 1 :=
  Function.Semiconj.iterate_right (f := UInt8.toNat) toNat_xtime i 1

theorem carried_period : Function.minimalPeriod carried 1 = 255 := by
  have hperiodic : Function.IsPeriodicPt carried 255 1 := by decide +kernel
  have hdvd : Function.minimalPeriod carried 1 ∣ 255 := hperiodic.minimalPeriod_dvd
  have hmem : Function.minimalPeriod carried 1 ∈ [1, 3, 5, 15, 17, 51, 85, 255] := by
    have hle : Function.minimalPeriod carried 1 ≤ 255 := Nat.le_of_dvd (by decide) hdvd
    have h : ∀ d, d < 256 → d ∣ 255 → d ∈ [1, 3, 5, 15, 17, 51, 85, 255] := by decide +kernel
    exact h _ (Nat.lt_succ_of_le hle) hdvd
  have hone : carried^[Function.minimalPeriod carried 1] 1 = 1 := Function.iterate_minimalPeriod
  generalize Function.minimalPeriod carried 1 = d at hmem hone
  have h : ∀ d ∈ [1, 3, 5, 15, 17, 51, 85, 255], carried^[d] 1 = 1 → d = 255 := by decide +kernel
  exact h d hmem hone

theorem alpha_injOn {i j : Nat} (hi : i < 255) (hj : j < 255) (h : alpha i = alpha j) : i = j := by
  have heq : carried^[i] 1 = carried^[j] 1 := by rw [← toNat_alpha, ← toNat_alpha, h]
  rw [← carried_period] at hi hj
  exact (Function.iterate_eq_iterate_iff_of_lt_minimalPeriod hi hj).mp heq

theorem alpha_ne_zero (i : Nat) : alpha i ≠ 0 := by
  have hpos : ∀ p : Fin 256, p ≠ 0 → xtime (UInt8.ofNat p) ≠ 0 := by decide +kernel
  induction i with
  | zero => decide
  | succ i ih =>
      have hsucc : alpha (i + 1) = xtime (alpha i) := Function.iterate_succ_apply' ..
      rw [hsucc]
      have hne : (⟨(alpha i).toNat, (alpha i).toNat_lt⟩ : Fin 256) ≠ 0 := fun h0 =>
        ih (UInt8.toNat.inj (congrArg Fin.val h0))
      simpa using hpos _ hne

theorem alpha_period : alpha 255 = 1 := by
  apply UInt8.toNat.inj
  rw [toNat_alpha]
  exact (carried_period ▸ Function.iterate_minimalPeriod : carried^[255] 1 = 1)

-- There are as many powers as elements other than zero.
theorem exists_alpha {a : UInt8} (ha : a ≠ 0) : ∃ i < 255, alpha i = a := by
  let power : Fin 255 → {n : Fin 256 // n ≠ 0} := fun i =>
    ⟨⟨(alpha i).toNat, (alpha i).toNat_lt⟩, fun h0 => alpha_ne_zero i (UInt8.toNat.inj (congrArg Fin.val h0))⟩
  have hinj : Function.Injective power := by
    intro i j hij
    have hval : (alpha i).toNat = (alpha j).toNat := congrArg (fun n => n.1.val) hij
    exact Fin.ext (alpha_injOn i.isLt j.isLt (UInt8.toNat.inj hval))
  have hcard : Fintype.card {n : Fin 256 // n ≠ 0} = Fintype.card (Fin 255) := by
    rw [Fintype.card_subtype_compl, Fintype.card_fin, Fintype.card_fin, Fintype.card_unique]
  obtain ⟨i, hi⟩ := ((Fintype.bijective_iff_injective_and_card power).mpr ⟨hinj, hcard.symm⟩).2
    ⟨⟨a.toNat, a.toNat_lt⟩, fun h0 => ha (UInt8.toNat.inj (congrArg Fin.val h0))⟩
  exact ⟨i, i.isLt, UInt8.toNat.inj (congrArg (fun n => n.1.val) hi)⟩

end Powers

section Tables

theorem fill_succ (n : Nat) : GF256.fill (n + 1) =
    (⟨(GF256.fill n).1.exp.set n (GF256.fill n).2,
      (GF256.fill n).1.log.set (GF256.fill n).2.toNat (UInt8.ofNat n)⟩, nextPower (GF256.fill n).2) := rfl

theorem fill_snd (n : Nat) : (GF256.fill n).2 = alpha n := by
  induction n with
  | zero => rfl
  | succ n ih =>
      rw [fill_succ, ih, nextPower_eq (alpha_ne_zero n)]
      exact (Function.iterate_succ_apply' xtime n 1).symm

theorem length_fill (n : Nat) : (GF256.fill n).1.exp.length = 256 ∧ (GF256.fill n).1.log.length = 256 := by
  induction n with
  | zero => exact ⟨List.length_replicate, List.length_replicate⟩
  | succ n ih => rwa [fill_succ, List.length_set, List.length_set]

theorem fill_exp {n i : Nat} (hn : n ≤ 256) (hi : i < n) : (GF256.fill n).1.exp.getD i 0 = alpha i := by
  induction n with
  | zero => omega
  | succ n ih =>
      have hlen : n < (GF256.fill n).1.exp.length := by rw [(length_fill n).1]; omega
      rw [fill_succ, List.getD_eq_getElem?_getD, List.getElem?_set]
      by_cases hin : n = i
      · subst hin
        rw [if_pos rfl, if_pos hlen, Option.getD_some, fill_snd]
      · rw [if_neg hin, ← List.getD_eq_getElem?_getD]
        exact ih (by omega) (by omega)

theorem fill_log {n i : Nat} (hn : n ≤ 255) (hi : i < n) :
    (GF256.fill n).1.log.getD (alpha i).toNat 0 = UInt8.ofNat i := by
  induction n with
  | zero => omega
  | succ n ih =>
      have hlen : (alpha n).toNat < (GF256.fill n).1.log.length := by
        rw [(length_fill n).2]
        exact (alpha n).toNat_lt
      rw [fill_succ, fill_snd, List.getD_eq_getElem?_getD, List.getElem?_set]
      by_cases hin : n = i
      · subst hin
        rw [if_pos rfl, if_pos hlen, Option.getD_some]
      · have hne : (alpha n).toNat ≠ (alpha i).toNat := fun heq =>
          hin (alpha_injOn (by omega) (by omega) (UInt8.toNat.inj heq))
        rw [if_neg hne, ← List.getD_eq_getElem?_getD]
        exact ih (by omega) (by omega)

theorem gf_exp {i : Nat} (hi : i < 255) : gf.exp.getD i 0 = alpha i := by
  rw [gf]
  dsimp only
  rw [List.getD_eq_getElem?_getD, List.getElem?_set_ne (by omega), ← List.getD_eq_getElem?_getD]
  exact fill_exp (by decide) hi

theorem gf_log {i : Nat} (hi : i < 255) : (gf.log.getD (alpha i).toNat 0).toNat = i := by
  rw [gf, fill_log (by decide) hi]
  exact UInt8.toNat_ofNat_of_lt' (hi.trans (by decide))

end Tables

section Field

-- A byte as an element of the field of 256, added by exclusive or.
@[ext] structure Gf where
  byte : UInt8
deriving DecidableEq

instance gfZero : Zero Gf := ⟨⟨0⟩⟩

instance gfAdd : Add Gf := ⟨fun a b => ⟨a.byte ^^^ b.byte⟩⟩

instance gfNeg : Neg Gf := ⟨id⟩

instance gfAddCommGroup : AddCommGroup Gf where
  add_assoc a b c := Gf.ext (UInt8.xor_assoc ..)
  zero_add _ := Gf.ext UInt8.zero_xor
  add_zero _ := Gf.ext UInt8.xor_zero
  add_comm _ _ := Gf.ext (UInt8.xor_comm ..)
  neg_add_cancel _ := Gf.ext UInt8.xor_self
  nsmul := nsmulRec
  zsmul := zsmulRec

def step : Gf →+ Gf where
  toFun a := ⟨xtime a.byte⟩
  map_zero' := rfl
  map_add' a b := Gf.ext (xtime_xor a.byte b.byte)

theorem iterate_step (n : Nat) (a : UInt8) : step^[n] ⟨a⟩ = ⟨xtime^[n] a⟩ :=
  (Function.Semiconj.iterate_right (f := Gf.mk) (fun _ => rfl) n a).symm

theorem step_alpha (n : Nat) : step^[n] ⟨1⟩ = ⟨alpha n⟩ := iterate_step n 1

def exponent (a : Gf) : Nat := (gf.log.getD a.byte.toNat 0).toNat

theorem alpha_exponent {a : UInt8} (ha : a ≠ 0) : exponent ⟨a⟩ < 255 ∧ alpha (exponent ⟨a⟩) = a := by
  obtain ⟨i, hi, rfl⟩ := exists_alpha ha
  rw [exponent, gf_log hi]
  exact ⟨hi, rfl⟩

theorem step_exponent (a : Gf) (ha : a ≠ 0) : step^[exponent a] ⟨1⟩ = a := by
  cases a with
  | mk a =>
      have hbyte : a ≠ 0 := fun h0 => ha (congrArg Gf.mk h0)
      rw [step_alpha, (alpha_exponent hbyte).2]

theorem step_cycle : step^[255] ⟨1⟩ = ⟨1⟩ := by
  rw [step_alpha, alpha_period]

def powers : ReedSolomon.Powers Gf where
  one := ⟨1⟩
  step := step
  period := 255
  period_pos := by decide
  log := exponent
  step_log := step_exponent
  step_period := step_cycle

instance gfCommRing : CommRing Gf := powers.commRing

instance gfCharTwo : CharP Gf 2 := CharTwo.of_one_ne_zero_of_two_eq_zero (by decide) rfl

theorem powers_alpha (n : Nat) : powers.step^[n] powers.one = ⟨alpha n⟩ := step_alpha n

-- The tables multiply as the field does.
theorem mk_mul (a b : UInt8) : Gf.mk (gf.mul a b) = Gf.mk a * Gf.mk b := by
  have hzero (c : UInt8) : Gf.mk c = 0 ↔ c = 0 := ⟨congrArg Gf.byte, congrArg Gf.mk⟩
  have hlt (n : Nat) : n % 255 < 255 := Nat.mod_lt _ (by decide)
  have hmul : Gf.mk a * Gf.mk b = powers.mul ⟨a⟩ ⟨b⟩ := rfl
  have hlog (c : UInt8) : powers.log ⟨c⟩ = exponent ⟨c⟩ := by dsimp only [powers]
  have hperiod : powers.period = 255 := rfl
  rw [hmul, ReedSolomon.Powers.mul, GF256.mul]
  simp only [hzero, powers_alpha, hlog, hperiod, exponent]
  by_cases h : a = 0 ∨ b = 0
  · rw [if_pos h, if_pos h]
    rfl
  · rw [if_neg h, if_neg h, gf_exp (hlt _)]

instance gfIsDomain : IsDomain Gf := powers.isDomain (by decide)

theorem mk_add (a b : UInt8) : Gf.mk (a ^^^ b) = Gf.mk a + Gf.mk b := rfl

theorem mk_xtime (a : UInt8) : Gf.mk (xtime a) = Gf.mk a * ⟨2⟩ := by
  have htwo : exponent ⟨2⟩ = 1 := gf_log (i := 1) (by decide)
  have hlog : powers.log ⟨2⟩ = exponent ⟨2⟩ := by dsimp only [powers]
  have hmul : Gf.mk a * ⟨2⟩ = powers.mul ⟨2⟩ ⟨a⟩ := powers.mul_comm _ _
  rw [hmul, powers.mul_eq (by decide), hlog, htwo]
  rfl

theorem mk_alpha (i : Nat) : Gf.mk (alpha i) = ⟨2⟩ ^ i := by
  induction i with
  | zero => rfl
  | succ i ih =>
      have hsucc : alpha (i + 1) = xtime (alpha i) := Function.iterate_succ_apply' ..
      rw [hsucc, mk_xtime, ih, pow_succ]

theorem mk_injective : Function.Injective Gf.mk := fun _ _ h => congrArg Gf.byte h

def digit (bit : Bool) : Gf := if bit then 1 else 0

theorem mk_foldl_product (a p : UInt8) (bits : List Bool) :
    Gf.mk (bits.foldl (fun p bit => if bit then xtime p ^^^ a else xtime p) p) =
      Gf.mk p * ⟨2⟩ ^ bits.length + ReedSolomon.evalAt ⟨2⟩ (bits.map digit) * Gf.mk a := by
  induction bits generalizing p with
  | nil => simp
  | cons bit bits ih =>
      rw [List.foldl_cons, ih, List.map_cons, ReedSolomon.evalAt_cons, List.length_cons, List.length_map]
      cases bit with
      | true =>
          rw [if_pos rfl, mk_add, mk_xtime, digit, if_pos rfl]
          ring
      | false =>
          rw [if_neg (by decide), mk_xtime, digit, if_neg (by decide)]
          ring

theorem mk_product_eq (a b : UInt8) :
    Gf.mk (product a b) = ReedSolomon.evalAt ⟨2⟩ ((bitsOf b.toNat 8).map digit) * Gf.mk a := by
  have hzero : Gf.mk 0 = 0 := rfl
  rw [product, mk_foldl_product, hzero, zero_mul, zero_add]

theorem product_one (b : UInt8) : product 1 b = b := by
  have h : ∀ n : Fin 256, product 1 (UInt8.ofNat n) = UInt8.ofNat n := by decide +kernel
  simpa using h ⟨b.toNat, b.toNat_lt⟩

-- A bit at a time is the same product.
theorem mk_product (a b : UInt8) : Gf.mk (product a b) = Gf.mk a * Gf.mk b := by
  have hone : Gf.mk 1 = 1 := rfl
  have hb : ReedSolomon.evalAt ⟨2⟩ ((bitsOf b.toNat 8).map digit) = Gf.mk b := by
    rw [← mul_one (ReedSolomon.evalAt _ _), ← hone, ← mk_product_eq, product_one]
  rw [mk_product_eq, hb, mul_comm]

end Field

section Blocks

variable {data : Bytes} {eccLen : Nat}

def roots (eccLen : Nat) : List Gf := (List.range eccLen).map (⟨2⟩ ^ ·)

theorem map_xor (a b : Bytes) : (List.zipWith (· ^^^ ·) a b).map Gf.mk =
    List.zipWith (· + ·) (a.map Gf.mk) (b.map Gf.mk) := by
  rw [List.map_zipWith, List.zipWith_map]
  rfl

theorem rsGenerator_succ (degree : Nat) : rsGenerator (degree + 1) =
    List.zipWith (· ^^^ ·) (rsGenerator degree ++ [0])
      (0 :: (rsGenerator degree).map fun c => gf.mul c (gf.exp.getD degree 0)) := by
  rw [rsGenerator, List.range_succ, List.foldl_append]
  rfl

theorem map_rsGenerator (h : eccLen ≤ 255) :
    (rsGenerator eccLen).map Gf.mk = ReedSolomon.generator (roots eccLen) := by
  induction eccLen with
  | zero => rfl
  | succ n ih =>
      have hroots : roots (n + 1) = roots n ++ [⟨2⟩ ^ n] := by
        rw [roots, List.range_succ, List.map_append]
        rfl
      have hmul : ((rsGenerator n).map fun c => gf.mul c (gf.exp.getD n 0)).map Gf.mk =
          ((rsGenerator n).map Gf.mk).map (· * ⟨2⟩ ^ n) := by
        rw [List.map_map, List.map_map]
        refine List.map_congr_left fun c _ => ?_
        rw [Function.comp_apply, Function.comp_apply, mk_mul, gf_exp h, mk_alpha]
      rw [rsGenerator_succ, map_xor, hroots, ReedSolomon.generator_append, ← ih (Nat.le_of_succ_le h),
        ReedSolomon.mulRoot, List.map_append, List.map_cons, List.map_nil, List.map_cons, hmul]
      rfl

theorem length_generator_roots (eccLen : Nat) : (ReedSolomon.generator (roots eccLen)).length = eccLen + 1 := by
  rw [ReedSolomon.length_generator, roots, List.length_map, List.length_range]

theorem generator_roots_tail (hpos : 0 < eccLen) : (ReedSolomon.generator (roots eccLen)).tail ≠ [] := by
  rw [← List.length_pos_iff, List.length_tail, length_generator_roots]
  exact hpos

theorem map_rsShift {gen result : Bytes} (hlen : result.length + 1 = gen.length) (hne : result ≠ []) (b : UInt8) :
    (rsShift gen result b).map Gf.mk = ReedSolomon.shift (gen.map Gf.mk) (result.map Gf.mk) ⟨b⟩ := by
  obtain ⟨front, rest, rfl⟩ := List.exists_cons_of_ne_nil hne
  have htail : (rest ++ [0]).length = gen.tail.length := by
    rw [List.length_tail, ← hlen, List.length_append, List.length_cons]
    rfl
  have hshift : ReedSolomon.shift (gen.map Gf.mk) ((front :: rest).map Gf.mk) ⟨b⟩ =
      List.zipWith (fun r c => Gf.mk r + Gf.mk c * Gf.mk (b ^^^ front)) (rest ++ [0]) gen.tail := by
    have hzero : [(0 : Gf)] = [(0 : UInt8)].map Gf.mk := rfl
    rw [ReedSolomon.shift, List.map_cons, List.tail_cons, List.headD_cons, ← List.map_tail, List.map_map, ← mk_add,
      hzero, ← List.map_append, List.zipWith_map_left, List.zipWith_map_right]
    rfl
  rw [hshift, rsShift, List.headD_cons, List.tail_cons]
  by_cases hfactor : b ^^^ front = 0
  · have hzero : Gf.mk 0 = 0 := rfl
    simp only [hfactor, hzero, mul_zero, add_zero, ne_eq, not_true, if_false]
    apply List.ext_getElem
    · rw [List.length_map, List.length_zipWith, ← htail, Nat.min_self]
    · intro i hi hj
      rw [List.getElem_map, List.getElem_zipWith]
  · rw [if_pos hfactor, List.map_zipWith]
    simp only [mk_add, mk_mul]

theorem map_foldl_rsShift {gen result : Bytes} (hlen : result.length + 1 = gen.length) (hne : result ≠ [])
    (data : Bytes) : (data.foldl (rsShift gen) result).map Gf.mk =
      (data.map Gf.mk).foldl (ReedSolomon.shift (gen.map Gf.mk)) (result.map Gf.mk) := by
  induction data generalizing result with
  | nil => rfl
  | cons b data ih =>
      have hstep := map_rsShift hlen hne b
      have hlen' : (rsShift gen result b).length = result.length := by
        have h := congrArg List.length hstep
        rwa [ReedSolomon.length_shift (by simpa using hlen) (by simpa using hne), List.length_map,
          List.length_map] at h
      have hne' : rsShift gen result b ≠ [] := by
        rw [← List.length_pos_iff, hlen', List.length_pos_iff]
        exact hne
      rw [List.foldl_cons, ih (by rw [hlen', hlen]) hne', hstep, List.map_cons, List.foldl_cons]

theorem length_rsGenerator (h : eccLen ≤ 255) : (rsGenerator eccLen).length = eccLen + 1 := by
  have hlen := congrArg List.length (map_rsGenerator h)
  rwa [List.length_map, length_generator_roots] at hlen

theorem map_rsEncode (hpos : 0 < eccLen) (h : eccLen ≤ 255) (data : Bytes) :
    (rsEncode data eccLen).map Gf.mk =
      ReedSolomon.remainder (ReedSolomon.generator (roots eccLen)) (data.map Gf.mk) := by
  have hlen : (List.replicate eccLen (0 : UInt8)).length + 1 = (rsGenerator eccLen).length := by
    rw [List.length_replicate, length_rsGenerator h]
  have hne : List.replicate eccLen (0 : UInt8) ≠ [] := by
    rw [← List.length_pos_iff, List.length_replicate]
    exact hpos
  rw [rsEncode, map_foldl_rsShift hlen hne, ReedSolomon.remainder, ← map_rsGenerator h, List.map_replicate,
    List.length_map, length_rsGenerator h]
  rfl

-- What a reader works out of a block for each root of the generator.
def syndrome (word : Bytes) (i : Nat) : UInt8 := word.foldl (fun value c => product value (alpha i) ^^^ c) 0

theorem mk_syndrome (word : Bytes) (i : Nat) :
    Gf.mk (syndrome word i) = ReedSolomon.evalAt (⟨2⟩ ^ i) (word.map Gf.mk) := by
  rw [syndrome, ReedSolomon.evalAt, List.foldl_map, ← mk_alpha]
  refine (List.foldl_hom Gf.mk ?_).symm
  intro value c
  rw [mk_add, mk_product]

theorem length_rsEncode (hpos : 0 < eccLen) (h : eccLen ≤ 255) (data : Bytes) :
    (rsEncode data eccLen).length = eccLen := by
  have hlen := congrArg List.length (map_rsEncode hpos h data)
  rwa [List.length_map, ReedSolomon.length_remainder (generator_roots_tail hpos), length_generator_roots] at hlen

theorem evalAt_rsEncode (hpos : 0 < eccLen) (h : eccLen ≤ 255) (data : Bytes) {i : Nat} (hi : i < eccLen) :
    ReedSolomon.evalAt (⟨2⟩ ^ i) ((data ++ rsEncode data eccLen).map Gf.mk) = 0 := by
  have hroot : ⟨2⟩ ^ i ∈ roots eccLen := List.mem_map_of_mem (List.mem_range.mpr hi)
  rw [List.map_append, map_rsEncode hpos h]
  exact ReedSolomon.evalAt_codeword (ReedSolomon.generator_monic _) (generator_roots_tail hpos)
    (ReedSolomon.evalAt_generator hroot) _

-- A block with its correction codewords passes every check a reader makes on it.
theorem syndrome_rsEncode (hpos : 0 < eccLen) (h : eccLen ≤ 255) (data : Bytes) :
    (rsEncode data eccLen).length = eccLen ∧ ∀ i < eccLen, syndrome (data ++ rsEncode data eccLen) i = 0 := by
  refine ⟨length_rsEncode hpos h data, fun i hi => ?_⟩
  apply mk_injective
  rw [mk_syndrome, evalAt_rsEncode hpos h data hi]
  rfl

theorem syndrome_rsEncode_ten : (rsEncode [0x40, 0x11] 10).length = 10 ∧
    ∀ i < 10, syndrome ([0x40, 0x11] ++ rsEncode [0x40, 0x11] 10) i = 0 :=
  syndrome_rsEncode (by decide) (by decide) [0x40, 0x11]

theorem pow_two_injOn {n : Nat} (h : n ≤ 255) : Set.InjOn ((⟨2⟩ : Gf) ^ ·) (Set.Iio n) := by
  intro i hi j hj hij
  have hi' : i < 255 := (Set.mem_Iio.mp hi).trans_le h
  have hj' : j < 255 := (Set.mem_Iio.mp hj).trans_le h
  dsimp only at hij
  rw [← mk_alpha, ← mk_alpha] at hij
  exact alpha_injOn hi' hj' (mk_injective hij)

-- Where two words of bytes are not the same.
def differences (a b : Bytes) : Nat := (a.zip b).countP fun c => c.1 ≠ c.2

theorem differences_map (a b : Bytes) :
    ((a.map Gf.mk).zip (b.map Gf.mk)).countP (fun c => c.1 ≠ c.2) = differences a b := by
  rw [List.zip_map, List.countP_map, differences]
  exact List.countP_congr fun c _ => by simp [mk_injective.eq_iff]

-- Blocks of one length that are not the same stay apart by more bytes than there are for correction.
theorem differences_rsEncode {block : Bytes} (hpos : 0 < eccLen) (h : data.length + eccLen ≤ 255)
    (hlen : data.length = block.length) (hne : data ≠ block) :
    eccLen < differences (data ++ rsEncode data eccLen) (block ++ rsEncode block eccLen) := by
  have hecc : eccLen ≤ 255 := (Nat.le_add_left ..).trans h
  have hdata : (data ++ rsEncode data eccLen).length = data.length + eccLen := by
    rw [List.length_append, length_rsEncode hpos hecc]
  have hblock : (block ++ rsEncode block eccLen).length = data.length + eccLen := by
    rw [List.length_append, length_rsEncode hpos hecc, hlen]
  have hwords : (data ++ rsEncode data eccLen).map Gf.mk ≠ (block ++ rsEncode block eccLen).map Gf.mk :=
    fun heq => hne (List.append_inj_left (List.map_injective_iff.mpr mk_injective heq) hlen)
  rw [← differences_map]
  apply ReedSolomon.distance (r := ⟨2⟩) _ _ _ _ hwords
  · rw [List.length_map, hdata]
    exact pow_two_injOn h
  · rw [List.length_map, List.length_map, hdata, hblock]
  · exact fun i hi => evalAt_rsEncode hpos hecc data hi
  · exact fun i hi => evalAt_rsEncode hpos hecc block hi

theorem differences_rsEncode_three :
    10 < differences ([1, 2, 3] ++ rsEncode [1, 2, 3] 10) ([1, 2, 4] ++ rsEncode [1, 2, 4] 10) :=
  differences_rsEncode (by decide) (by decide) rfl (by decide)

end Blocks

end BATorrent.Qrcodegen
