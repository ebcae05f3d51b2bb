import Mathlib.Algebra.CharP.Two
import Mathlib.Logic.Function.Iterate
import Mathlib.LinearAlgebra.Vandermonde
import Mathlib.Tactic.Ring

namespace Lib.ReedSolomon

section LogTable

-- An addition whose non-zero elements are the powers of one element: `step` multiplies by it,
-- and `log` has the exponent.
structure Powers (V : Type*) [AddCommGroup V] where
  one : V
  step : V →+ V
  period : ℕ
  period_pos : 0 < period
  log : V → ℕ
  step_log : ∀ a, a ≠ 0 → step^[log a] one = a
  step_period : step^[period] one = one

namespace Powers

variable {V : Type*} [AddCommGroup V] (P : Powers V)

theorem iterate_period (k : ℕ) : P.step^[P.period * k] P.one = P.one := by
  induction k with
  | zero => rfl
  | succ k ih => rw [Nat.mul_succ, Function.iterate_add_apply, P.step_period, ih]

theorem iterate_mod (n : ℕ) : P.step^[n % P.period] P.one = P.step^[n] P.one := by
  conv_rhs => rw [← Nat.mod_add_div n P.period, Function.iterate_add_apply, P.iterate_period]

theorem iterate_add (n : ℕ) (a b : V) : P.step^[n] (a + b) = P.step^[n] a + P.step^[n] b := by
  induction n generalizing a b with
  | zero => rfl
  | succ n ih => rw [Function.iterate_succ_apply, map_add, ih]; rfl

theorem iterate_zero (n : ℕ) : P.step^[n] 0 = 0 := by
  induction n with
  | zero => rfl
  | succ n ih => rw [Function.iterate_succ_apply, map_zero, ih]

theorem iterate_comm (m n : ℕ) (a : V) : P.step^[m] (P.step^[n] a) = P.step^[n] (P.step^[m] a) := by
  rw [← Function.iterate_add_apply, ← Function.iterate_add_apply, Nat.add_comm]

theorem iterate_ne_zero (hone : P.one ≠ 0) (n : ℕ) : P.step^[n] P.one ≠ 0 := by
  intro hzero
  have hle : n ≤ P.period * n := Nat.le_mul_of_pos_left n P.period_pos
  have hback := P.iterate_period n
  rw [← Nat.sub_add_cancel hle, Function.iterate_add_apply, hzero, P.iterate_zero] at hback
  exact hone hback.symm

variable [DecidableEq V]

-- The product by way of the exponents.
def mul (a b : V) : V :=
  if a = 0 ∨ b = 0 then 0 else P.step^[(P.log a + P.log b) % P.period] P.one

-- A product is one factor, stepped as often as the exponent of the other says.
theorem mul_eq {a : V} (ha : a ≠ 0) (b : V) : P.mul a b = P.step^[P.log a] b := by
  unfold mul
  by_cases hb : b = 0
  · rw [if_pos (.inr hb), hb, P.iterate_zero]
  · rw [if_neg (not_or.mpr ⟨ha, hb⟩), P.iterate_mod, Function.iterate_add_apply, P.step_log b hb]

theorem zero_mul (b : V) : P.mul 0 b = 0 := if_pos (.inl rfl)

theorem mul_comm (a b : V) : P.mul a b = P.mul b a := by
  unfold mul
  simp only [or_comm, Nat.add_comm]

theorem mul_zero (a : V) : P.mul a 0 = 0 := if_pos (.inr rfl)

theorem mul_add (a b c : V) : P.mul a (b + c) = P.mul a b + P.mul a c := by
  by_cases ha : a = 0
  · rw [ha, P.zero_mul, P.zero_mul, P.zero_mul, add_zero]
  · rw [P.mul_eq ha, P.mul_eq ha, P.mul_eq ha, P.iterate_add]

theorem mul_assoc (a b c : V) : P.mul (P.mul a b) c = P.mul a (P.mul b c) := by
  by_cases ha : a = 0
  · rw [ha, P.zero_mul, P.zero_mul, P.zero_mul]
  by_cases hc : c = 0
  · rw [hc, P.mul_zero, P.mul_zero, P.mul_zero]
  · rw [P.mul_comm _ c, P.mul_comm b c, P.mul_eq hc, P.mul_eq hc, P.mul_eq ha, P.mul_eq ha, P.iterate_comm]

theorem one_mul (b : V) : P.mul P.one b = b := by
  by_cases hone : P.one = 0
  · by_cases hb : b = 0
    · rw [hb, P.mul_zero]
    · have hzero : P.step^[P.log b] P.one = 0 := by rw [hone, P.iterate_zero]
      exact absurd ((P.step_log b hb).symm.trans hzero) hb
  · by_cases hb : b = 0
    · rw [hb, P.mul_zero]
    · rw [P.mul_comm, P.mul_eq hb, P.step_log b hb]

@[reducible] def commRing (P : Powers V) : CommRing V where
  mul := P.mul
  one := P.one
  left_distrib := P.mul_add
  right_distrib a b c := by
    change P.mul (a + b) c = P.mul a c + P.mul b c
    rw [P.mul_comm, P.mul_add, P.mul_comm c a, P.mul_comm c b]
  zero_mul := P.zero_mul
  mul_zero := P.mul_zero
  mul_assoc := P.mul_assoc
  one_mul := P.one_mul
  mul_one a := (P.mul_comm a P.one).trans (P.one_mul a)
  mul_comm := P.mul_comm
  zsmul := zsmulRec
  neg_add_cancel := neg_add_cancel
  sub_eq_add_neg := sub_eq_add_neg

theorem isDomain (hone : P.one ≠ 0) : letI := P.commRing; IsDomain V := by
  let _ := P.commRing
  have hnontrivial : Nontrivial V := ⟨P.one, 0, hone⟩
  have hzero : NoZeroDivisors V := by
    refine ⟨fun {a b} hab => ?_⟩
    by_contra hne
    obtain ⟨ha, hb⟩ := not_or.mp hne
    have hmul : P.mul a b = 0 := hab
    rw [P.mul_eq ha, ← P.step_log b hb, ← Function.iterate_add_apply] at hmul
    exact P.iterate_ne_zero hone _ hmul
  exact NoZeroDivisors.to_isDomain V

end Powers

end LogTable

section Values

variable {R : Type*} [CommRing R] {x : R}

-- The value of the polynomial with these coefficients, the highest first.
def evalAt (x : R) (p : List R) : R := p.foldl (fun value c => value * x + c) 0

theorem foldl_value (x v : R) (p : List R) :
    p.foldl (fun value c => value * x + c) v = v * x ^ p.length + evalAt x p := by
  unfold evalAt
  induction p generalizing v with
  | nil => simp
  | cons c p ih =>
      rw [List.foldl_cons, List.foldl_cons, ih, ih (0 * x + c), List.length_cons]
      ring

@[simp] theorem evalAt_nil (x : R) : evalAt x [] = 0 := rfl

theorem evalAt_append (x : R) (p q : List R) : evalAt x (p ++ q) = evalAt x p * x ^ q.length + evalAt x q := by
  rw [evalAt, List.foldl_append, foldl_value]
  rfl

theorem evalAt_cons (x c : R) (p : List R) : evalAt x (c :: p) = c * x ^ p.length + evalAt x p := by
  rw [evalAt, List.foldl_cons, foldl_value, zero_mul, zero_add]

theorem evalAt_replicate_zero (x : R) (n : ℕ) : evalAt x (List.replicate n 0) = 0 := by
  induction n with
  | zero => rfl
  | succ n ih => rw [List.replicate_succ, evalAt_cons, ih, zero_mul, add_zero]

theorem evalAt_map_mul (x k : R) (p : List R) : evalAt x (p.map (· * k)) = evalAt x p * k := by
  induction p with
  | nil => simp
  | cons c p ih =>
      rw [List.map_cons, evalAt_cons, evalAt_cons, ih, List.length_map]
      ring

theorem evalAt_zipWith_add (x : R) {p q : List R} (h : p.length = q.length) :
    evalAt x (List.zipWith (· + ·) p q) = evalAt x p + evalAt x q := by
  induction p generalizing q with
  | nil =>
      obtain rfl := List.eq_nil_of_length_eq_zero h.symm
      simp
  | cons c p ih =>
      cases q with
      | nil => simp at h
      | cons d q =>
          have hlen : p.length = q.length := Nat.succ.inj h
          rw [List.zipWith_cons_cons, evalAt_cons, evalAt_cons, evalAt_cons, ih hlen, List.length_zipWith,
            ← hlen, Nat.min_self]
          ring

end Values

section Codes

variable {R : Type*} [CommRing R] {x : R} {gen result roots : List R}

-- The polynomial times `X - root`.
def mulRoot (p : List R) (root : R) : List R := List.zipWith (· + ·) (p ++ [0]) (0 :: p.map (· * root))

def generator (roots : List R) : List R := roots.foldl mulRoot [1]

-- One more coefficient goes through the shift register of the division by `gen`.
def shift (gen : List R) (result : List R) (b : R) : List R :=
  List.zipWith (· + ·) (result.tail ++ [0]) (gen.tail.map (· * (b + result.headD 0)))

def remainder (gen : List R) (data : List R) : List R :=
  data.foldl (shift gen) (List.replicate (gen.length - 1) 0)

theorem length_mulRoot (p : List R) (root : R) : (mulRoot p root).length = p.length + 1 := by
  simp [mulRoot]

theorem generator_append (roots : List R) (root : R) :
    generator (roots ++ [root]) = mulRoot (generator roots) root := by
  rw [generator, List.foldl_append]
  rfl

theorem length_generator (roots : List R) : (generator roots).length = roots.length + 1 := by
  induction roots using List.reverseRecOn with
  | nil => rfl
  | append_singleton roots root ih => rw [generator_append, length_mulRoot, ih, List.length_append]; rfl

theorem generator_monic (roots : List R) : generator roots = 1 :: (generator roots).tail := by
  induction roots using List.reverseRecOn with
  | nil => rfl
  | append_singleton roots root ih =>
      rw [generator_append, ih]
      simp [mulRoot]

theorem length_shift (hlen : result.length + 1 = gen.length) (hne : result ≠ []) (b : R) :
    (shift gen result b).length = result.length := by
  have hpos : 0 < result.length := List.length_pos_iff.mpr hne
  rw [shift, List.length_zipWith, List.length_append, List.length_tail, List.length_map, List.length_tail,
    List.length_singleton]
  omega

theorem shift_ne_nil (hlen : result.length + 1 = gen.length) (hne : result ≠ []) (b : R) :
    shift gen result b ≠ [] := by
  rw [← List.length_pos_iff, length_shift hlen hne, List.length_pos_iff]
  exact hne

theorem length_foldl_shift (data : List R) (hlen : result.length + 1 = gen.length) (hne : result ≠ []) :
    (data.foldl (shift gen) result).length = result.length := by
  induction data generalizing result with
  | nil => rfl
  | cons b data ih =>
      have hlen' : (shift gen result b).length = result.length := length_shift hlen hne b
      rw [List.foldl_cons, ih (by rw [hlen', hlen]) (shift_ne_nil hlen hne b), hlen']

theorem register (hne : gen.tail ≠ []) : (List.replicate (gen.length - 1) (0 : R)).length + 1 = gen.length ∧
    List.replicate (gen.length - 1) (0 : R) ≠ [] := by
  have hpos : 0 < gen.tail.length := List.length_pos_iff.mpr hne
  rw [List.length_tail] at hpos
  rw [← List.length_pos_iff, List.length_replicate]
  omega

theorem length_remainder (hne : gen.tail ≠ []) (data : List R) : (remainder gen data).length = gen.length - 1 := by
  rw [remainder, length_foldl_shift data (register hne).1 (register hne).2, List.length_replicate]

variable [CharP R 2]

theorem evalAt_mulRoot (x : R) (p : List R) (root : R) :
    evalAt x (mulRoot p root) = evalAt x p * (x - root) := by
  have hlen : (p ++ [0]).length = (0 :: p.map (· * root)).length := by simp
  rw [mulRoot, evalAt_zipWith_add x hlen, evalAt_append, evalAt_cons x 0, evalAt_cons x 0, evalAt_map_mul,
    CharTwo.sub_eq_add, evalAt_nil, List.length_singleton]
  ring

theorem evalAt_generator (hx : x ∈ roots) : evalAt x (generator roots) = 0 := by
  induction roots using List.reverseRecOn with
  | nil => cases hx
  | append_singleton roots root ih =>
      rw [generator_append, evalAt_mulRoot]
      rcases List.mem_append.mp hx with hmem | hmem
      · rw [ih hmem, zero_mul]
      · rw [List.mem_singleton.mp hmem, sub_self, mul_zero]

-- At a root of the generator, the register takes in the coefficient as a division does.
theorem evalAt_shift (hgen : gen = 1 :: gen.tail) (hroot : evalAt x gen = 0)
    (hlen : result.length + 1 = gen.length) (hne : result ≠ []) (b : R) :
    evalAt x (shift gen result b) = evalAt x result * x + b * x ^ result.length := by
  obtain ⟨front, rest, rfl⟩ := List.exists_cons_of_ne_nil hne
  have htail : gen.tail.length = rest.length + 1 := by
    rw [List.length_tail, ← hlen, List.length_cons, Nat.add_sub_cancel]
  have hvalue : evalAt x gen.tail = x ^ (rest.length + 1) := by
    rw [hgen, evalAt_cons, one_mul, htail] at hroot
    exact (CharTwo.add_eq_zero.mp hroot).symm
  have hlens : (rest ++ [0]).length = (gen.tail.map (· * (b + front))).length := by
    rw [List.length_map, htail, List.length_append, List.length_singleton]
  rw [shift, List.tail_cons, List.headD_cons, evalAt_zipWith_add x hlens, evalAt_append, evalAt_map_mul,
    hvalue, evalAt_cons x front, evalAt_cons x 0, evalAt_nil, List.length_singleton, List.length_cons]
  ring

theorem evalAt_foldl_shift (hgen : gen = 1 :: gen.tail) (hroot : evalAt x gen = 0) (data : List R)
    (hlen : result.length + 1 = gen.length) (hne : result ≠ []) :
    evalAt x (data.foldl (shift gen) result) =
      evalAt x result * x ^ data.length + evalAt x data * x ^ result.length := by
  induction data generalizing result with
  | nil => simp
  | cons b data ih =>
      have hlen' : (shift gen result b).length = result.length := length_shift hlen hne b
      rw [List.foldl_cons, ih (by rw [hlen', hlen]) (shift_ne_nil hlen hne b), hlen',
        evalAt_shift hgen hroot hlen hne, evalAt_cons x b data, List.length_cons]
      ring

-- The data with the remainder after it is zero wherever the generator is.
theorem evalAt_codeword (hgen : gen = 1 :: gen.tail) (hne : gen.tail ≠ []) (hroot : evalAt x gen = 0)
    (data : List R) : evalAt x (data ++ remainder gen data) = 0 := by
  rw [evalAt_append, length_remainder hne, remainder,
    evalAt_foldl_shift hgen hroot data (register hne).1 (register hne).2, evalAt_replicate_zero, zero_mul,
    zero_add, List.length_replicate]
  exact CharTwo.add_self_eq_zero _

end Codes

section Distance

open Finset

theorem evalAt_eq_sum {R : Type*} [CommRing R] (x : R) (p : List R) :
    evalAt x p = ∑ j : Fin p.length, p.get j * x ^ (p.length - 1 - j) := by
  induction p with
  | nil => rfl
  | cons c p ih =>
      rw [evalAt_cons, ih]
      refine Eq.trans ?_ (Fin.sum_univ_succ fun j : Fin (p.length + 1) =>
        (c :: p).get j * x ^ (p.length - j)).symm
      have hsucc (j : Fin p.length) : p.length - j.succ.val = p.length - 1 - j := by
        rw [Fin.val_succ]
        omega
      simp only [hsucc]
      rfl

theorem countP_ne_zero {R : Type*} [Zero R] [DecidableEq R] (p : List R) :
    p.countP (· ≠ 0) = #{j : Fin p.length | p.get j ≠ 0} := by
  induction p with
  | nil => rfl
  | cons c p ih =>
      refine Eq.trans ?_ (Fin.card_filter_univ_succ' fun j : Fin (p.length + 1) => (c :: p).get j ≠ 0).symm
      rw [List.countP_cons, ih, Nat.add_comm]
      simp only [decide_eq_true_eq]
      rfl

variable {R : Type*} [CommRing R] [IsDomain R] [DecidableEq R] {r : R} {m : ℕ}

-- A word that is zero at `m` powers in a row has more than `m` places that are not zero, or none.
theorem eq_zero_of_evalAt {p : List R} (hr : Set.InjOn (r ^ ·) (Set.Iio p.length))
    (hzero : ∀ i < m, evalAt (r ^ i) p = 0) (hcount : p.countP (· ≠ 0) ≤ m) : ∀ c ∈ p, c = 0 := by
  let places : Finset (Fin p.length) := {j | p.get j ≠ 0}
  let place : Fin places.card → Fin p.length := fun k => (places.equivFin.symm k).val
  let power : Fin places.card → R := fun k => r ^ (p.length - 1 - (place k))
  have hinj : Function.Injective power := by
    intro k l hkl
    have hk := (place k).isLt
    have hl := (place l).isLt
    have hval : p.length - 1 - (place k) = p.length - 1 - (place l) :=
      hr (Set.mem_Iio.mpr (by omega)) (Set.mem_Iio.mpr (by omega)) hkl
    have hplace : place k = place l := Fin.ext (by omega)
    exact places.equivFin.symm.injective (Subtype.ext hplace)
  have hsum (i : Fin places.card) : ∑ k, p.get (place k) * power k ^ i.val = 0 := by
    have hi : i.val < m := i.isLt.trans_le ((countP_ne_zero p).symm.trans_le hcount)
    let term : Fin p.length → R := fun j => p.get j * (r ^ (p.length - 1 - j)) ^ i.val
    calc ∑ k, term (place k) = ∑ j : places, term j := places.equivFin.symm.sum_comp (term ·.val)
      _ = ∑ j ∈ places, term j := sum_coe_sort places term
      _ = ∑ j, term j := sum_filter_of_ne fun j _ hj => left_ne_zero_of_mul hj
      _ = evalAt (r ^ i.val) p := by simp only [term, evalAt_eq_sum, pow_right_comm]
      _ = 0 := hzero i hi
  have hvalues := Matrix.eq_zero_of_forall_pow_sum_mul_pow_eq_zero hinj hsum
  intro c hc
  by_contra hne
  obtain ⟨j, rfl⟩ := List.get_of_mem hc
  have hj : j ∈ places := mem_filter.mpr ⟨mem_univ j, hne⟩
  have hplace : place (places.equivFin ⟨j, hj⟩) = j := by simp [place]
  have hget := congrFun hvalues (places.equivFin ⟨j, hj⟩)
  rw [hplace] at hget
  exact hne hget

variable [CharP R 2]

omit [IsDomain R] in
theorem countP_zipWith_add {a b : List R} (hlen : a.length = b.length) :
    (List.zipWith (· + ·) a b).countP (· ≠ 0) = (a.zip b).countP (fun c => c.1 ≠ c.2) := by
  induction a generalizing b with
  | nil => rfl
  | cons c a ih =>
      cases b with
      | nil => simp at hlen
      | cons d b =>
          have hadd : c + d = 0 ↔ c = d := CharTwo.add_eq_zero
          rw [List.zipWith_cons_cons, List.zip_cons_cons, List.countP_cons, List.countP_cons, ih (Nat.succ.inj hlen)]
          simp only [ne_eq, hadd]

omit [IsDomain R] [DecidableEq R] in
theorem eq_of_zipWith_add {a b : List R} (hlen : a.length = b.length)
    (h : ∀ c ∈ List.zipWith (· + ·) a b, c = 0) : a = b := by
  induction a generalizing b with
  | nil => exact (List.eq_nil_of_length_eq_zero hlen.symm).symm
  | cons c a ih =>
      cases b with
      | nil => simp at hlen
      | cons d b =>
          rw [List.zipWith_cons_cons, List.forall_mem_cons] at h
          rw [CharTwo.add_eq_zero.mp h.1, ih (Nat.succ.inj hlen) h.2]

-- Two words of the code are either the same or differ in more than `m` places.
theorem distance {a b : List R} (hr : Set.InjOn (r ^ ·) (Set.Iio a.length)) (hlen : a.length = b.length)
    (ha : ∀ i < m, evalAt (r ^ i) a = 0) (hb : ∀ i < m, evalAt (r ^ i) b = 0) (hne : a ≠ b) :
    m < (a.zip b).countP fun c => c.1 ≠ c.2 := by
  by_contra hle
  have hsum : (List.zipWith (· + ·) a b).length = a.length := by
    rw [List.length_zipWith, ← hlen, Nat.min_self]
  apply hne
  apply eq_of_zipWith_add hlen
  apply eq_zero_of_evalAt (m := m) (by rwa [hsum])
  · intro i hi
    rw [evalAt_zipWith_add _ hlen, ha i hi, hb i hi, add_zero]
  · rw [countP_zipWith_add hlen]
    exact not_lt.mp hle

end Distance

end Lib.ReedSolomon
