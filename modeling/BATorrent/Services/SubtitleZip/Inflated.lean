import BATorrent.Services.SubtitleZip

namespace BATorrent.SubtitleZip

open Lib
open Lib.DataStream (Bytes)

-- What zlib promises of a stream whose whole input is there: the bytes that are still to come
-- out, how it ends, whether it says so with its last byte, and how much input is left.
structure Documented (z : Zlib) where
  rest : z.Stream → Bytes
  last : z.Stream → Ret
  early : z.Stream → Bool
  left : z.Stream → Nat
  last_ne_ok : ∀ s, last s ≠ .ok
  writes : ∀ s free, 0 < free → (z.inflate s free).2.1 = (rest s).take free
  rest_next : ∀ s free, 0 < free → rest (z.inflate s free).1 = (rest s).drop free
  last_next : ∀ s free, 0 < free → last (z.inflate s free).1 = last s
  early_next : ∀ s free, 0 < free → early (z.inflate s free).1 = early s
  full : ∀ s free, 0 < free → free < (rest s).length → (z.inflate s free).2.2 = .ok
  reached : ∀ s free, 0 < free → free = (rest s).length →
    (z.inflate s free).2.2 = if early s then last s else .ok
  ended : ∀ s free, 0 < free → (rest s).length < free →
    (z.inflate s free).2.2 = last s ∨ (z.inflate s free).2.2 = .ok ∧ last s ≠ .streamEnd
  progress : ∀ s free, 0 < free → (z.inflate s free).2.2 = .ok →
    left (z.inflate s free).1 + (rest (z.inflate s free).1).length < left s + (rest s).length

-- From this size the doubling never has to go past the limit.
def Fits (size total : Nat) (early : Bool) : Prop :=
  ∀ k, size * 2 ^ k < kMaxOut → kMaxOut < size * 2 ^ (k + 1) →
    total < size * 2 ^ k ∨ total = size * 2 ^ k ∧ early = true

section Doubling

variable {size total : Nat} {early : Bool}

theorem fits_of_limit (h : kMaxOut ≤ size) : Fits size total early := by
  intro k hk _
  have hpow : 0 < 2 ^ k := Nat.two_pow_pos k
  have hle : size ≤ size * 2 ^ k := Nat.le_mul_of_pos_right size hpow
  omega

theorem fits_of_le (h : total ≤ size) (hend : total = size → early = true) : Fits size total early := by
  intro k _ _
  have hpow : 0 < 2 ^ k := Nat.two_pow_pos k
  have hle : size ≤ size * 2 ^ k := Nat.le_mul_of_pos_right size hpow
  by_cases htotal : total = size * 2 ^ k
  · exact Or.inr ⟨htotal, hend (by omega)⟩
  · exact Or.inl (by omega)

theorem fits_double (h : size * 2 ≤ kMaxOut) : Fits (size * 2) total early ↔ Fits size total early := by
  have hshift : ∀ k, size * 2 * 2 ^ k = size * 2 ^ (k + 1) := by
    intro k
    rw [Nat.pow_succ, Nat.mul_assoc, Nat.mul_comm 2]
  constructor
  · intro hfits k hk hk'
    cases k with
    | zero =>
        rw [Nat.zero_add, Nat.pow_one] at hk'
        omega
    | succ k =>
        rw [← hshift] at hk hk' ⊢
        exact hfits k hk hk'
  · intro hfits k hk hk'
    rw [hshift] at hk hk' ⊢
    exact hfits (k + 1) hk hk'

theorem not_fits_of_past (hsize : size < kMaxOut) (hpast : kMaxOut < size * 2) (htotal : size ≤ total)
    (hend : total = size → early = false) : ¬ Fits size total early := by
  intro hfits
  have hzero := hfits 0 (by omega) (by omega)
  rw [Nat.pow_zero, Nat.mul_one] at hzero
  cases hzero with
  | inl hlt => omega
  | inr heq =>
      have hearly := hend heq.1
      rw [hearly] at heq
      exact Bool.noConfusion heq.2

end Doubling

section Loop

variable {z : Zlib} (d : Documented z)

-- The call of a turn, by what it reports.
theorem inflateLoop_call {fuel : Nat} {s : z.Stream} {out : Bytes} {size : Nat} {sizes : List Nat}
    (hfree : out.length < size) :
    inflateLoop z (fuel + 1) s out size sizes =
      let call := z.inflate s (size - out.length)
      if call.2.2 = .ok then inflateLoop z fuel call.1 (out ++ call.2.1) size sizes
      else if call.2.2 = .streamEnd then some ⟨sizes, out ++ call.2.1⟩
      else some ⟨sizes, []⟩ := by
  have hnot : ¬ size ≤ out.length := by omega
  rw [inflateLoop, if_neg (fun h => hnot h.1)]
  simp only [hnot, decide_false, Bool.false_eq_true, if_false]
  rcases z.inflate s (size - out.length) with ⟨s', written, ret⟩
  cases ret with
  | ok => rfl
  | streamEnd => rfl
  | other => rfl

theorem inflateLoop_grow {fuel : Nat} {s : z.Stream} {out : Bytes} {size : Nat} {sizes : List Nat}
    (hpos : 0 < size) (hfull : out.length = size) (hlimit : size < kMaxOut) :
    inflateLoop z (fuel + 1) s out size sizes =
      inflateLoop z (fuel + 1) s out (size * 2) (sizes ++ [size * 2]) := by
  have hle : size ≤ out.length := by omega
  rw [inflateLoop_call (by omega : out.length < size * 2), inflateLoop, if_neg (by omega)]
  simp only [hle, decide_true, if_true]
  rcases z.inflate s (size * 2 - out.length) with ⟨s', written, ret⟩
  cases ret with
  | ok => rfl
  | streamEnd => rfl
  | other => rfl

theorem inflateLoop_limit {fuel : Nat} {s : z.Stream} {out : Bytes} {size : Nat} {sizes : List Nat}
    (hfull : out.length = size) (hlimit : kMaxOut ≤ size) :
    inflateLoop z (fuel + 1) s out size sizes = some ⟨sizes, []⟩ := by
  rw [inflateLoop, if_pos ⟨by omega, hlimit⟩]

-- What the loop leaves where it starts with this buffer: it passes the limit only where the
-- doubling does, and a whole stream below the limit is returned.
def Ends (s : z.Stream) (out : Bytes) (size : Nat) (sizes : List Nat) (r : Option Inflated) : Prop :=
  ∃ left, r = some left ∧
    ((∀ n ∈ left.sizes, n ≤ kMaxOut) ↔
      (∀ n ∈ sizes, n ≤ kMaxOut) ∧ Fits size (out.length + (d.rest s).length) (d.early s)) ∧
    (d.last s = .streamEnd → out.length + (d.rest s).length < kMaxOut → left.out = out ++ d.rest s)

-- The place in the stream and in the buffer from which a turn starts.
structure Pending (s : z.Stream) (out : Bytes) (size : Nat) : Prop where
  pos : 0 < size
  within : out.length ≤ size
  more : out.length = size → d.rest s = [] → d.early s = false

theorem ends_stop {s : z.Stream} {out content : Bytes} {size : Nat} {sizes : List Nat}
    (hfits : Fits size (out.length + (d.rest s).length) (d.early s))
    (hcontent : d.last s = .streamEnd → content = out ++ d.rest s) :
    Ends d s out size sizes (some ⟨sizes, content⟩) :=
  ⟨_, rfl, ⟨fun h => ⟨h, hfits⟩, fun h => h.1⟩, fun hlast _ => hcontent hlast⟩

-- A call moves bytes from the stream to the buffer and nothing else.
theorem ends_next {s : z.Stream} {out : Bytes} {size free : Nat} {sizes : List Nat} {r : Option Inflated}
    (hfree : 0 < free)
    (h : Ends d (z.inflate s free).1 (out ++ (z.inflate s free).2.1) size sizes r) :
    Ends d s out size sizes r := by
  obtain ⟨left, hr, hsizes, hout⟩ := h
  have hmoved : out ++ (d.rest s).take free ++ (d.rest s).drop free = out ++ d.rest s := by
    rw [List.append_assoc, List.take_append_drop]
  have htotal : (out ++ (d.rest s).take free).length + ((d.rest s).drop free).length =
      out.length + (d.rest s).length := by
    rw [← List.length_append, hmoved, List.length_append]
  rw [d.writes s free hfree, d.rest_next s free hfree, d.early_next s free hfree, htotal] at hsizes
  rw [d.writes s free hfree, d.rest_next s free hfree, d.last_next s free hfree, htotal, hmoved] at hout
  exact ⟨left, hr, hsizes, hout⟩

theorem pending_next {s : z.Stream} {out : Bytes} {size : Nat} (h : Pending d s out size)
    (hroom : out.length < size)
    (hret : (z.inflate s (size - out.length)).2.2 = .ok) :
    Pending d (z.inflate s (size - out.length)).1 (out ++ (z.inflate s (size - out.length)).2.1) size := by
  have hfree : 0 < size - out.length := by omega
  have hwrites := d.writes s _ hfree
  have hwithin : ((d.rest s).take (size - out.length)).length ≤ size - out.length :=
    List.length_take_le _ _
  refine ⟨h.pos, ?_, ?_⟩
  · rw [hwrites, List.length_append]
    omega
  · intro hfull hrest
    rw [hwrites, List.length_append, List.length_take] at hfull
    rw [d.rest_next s _ hfree] at hrest
    rw [d.early_next s _ hfree]
    have hle : (d.rest s).length ≤ size - out.length := List.drop_eq_nil_iff.mp hrest
    have hreached := d.reached s _ hfree (by omega)
    cases hearly : d.early s with
    | false => rfl
    | true =>
        rw [hearly, if_pos rfl, hret] at hreached
        exact absurd hreached.symm (d.last_ne_ok s)

theorem ends_grow {s : z.Stream} {out : Bytes} {size : Nat} {sizes : List Nat} {r : Option Inflated}
    (h : Pending d s out size) (hfull : out.length = size) (hlimit : size < kMaxOut)
    (hr : Ends d s out (size * 2) (sizes ++ [size * 2]) r) : Ends d s out size sizes r := by
  obtain ⟨left, hr, hsizes, hout⟩ := hr
  refine ⟨left, hr, ?_, hout⟩
  rw [hsizes, List.forall_mem_append, List.forall_mem_singleton, and_assoc]
  apply and_congr_right
  intro _
  by_cases hle : size * 2 ≤ kMaxOut
  · rw [fits_double hle]
    exact and_iff_right hle
  · have hend : out.length + (d.rest s).length = size → d.early s = false := by
      intro htotal
      exact h.more hfull (List.eq_nil_of_length_eq_zero (by omega))
    have hnot := not_fits_of_past hlimit (by omega) (by omega) hend
    exact ⟨fun hs => absurd hs.1 hle, fun hs => absurd hs hnot⟩

-- The loop ends.
theorem inflateLoop_ends (fuel : Nat) (s : z.Stream) (out : Bytes) (size : Nat) (sizes : List Nat)
    (h : Pending d s out size) (hfuel : d.left s + (d.rest s).length < fuel) :
    Ends d s out size sizes (inflateLoop z fuel s out size sizes) := by
  induction fuel generalizing s out size sizes with
  | zero => omega
  | succ fuel ih =>
      -- a turn that has room calls zlib
      have hturn : ∀ size sizes, Pending d s out size → out.length < size →
          Ends d s out size sizes (inflateLoop z (fuel + 1) s out size sizes) := by
        intro size sizes h hroom
        have hfree : 0 < size - out.length := by omega
        have htake : (d.rest s).length ≤ size - out.length →
            out ++ (z.inflate s (size - out.length)).2.1 = out ++ d.rest s := by
          intro hle
          rw [d.writes s _ hfree, List.take_of_length_le hle]
        rw [inflateLoop_call hroom]
        dsimp only
        by_cases hok : (z.inflate s (size - out.length)).2.2 = .ok
        · rw [if_pos hok]
          have hless := d.progress s _ hfree hok
          exact ends_next d hfree (ih _ _ _ _ (pending_next d h hroom hok) (by omega))
        · rw [if_neg hok]
          have hle : (d.rest s).length ≤ size - out.length := by
            by_contra hlt
            exact hok (d.full s _ hfree (by omega))
          have hret : (z.inflate s (size - out.length)).2.2 = d.last s := by
            rcases Nat.eq_or_lt_of_le hle with heq | hlt
            · have hreached := d.reached s _ hfree heq.symm
              cases hearly : d.early s with
              | false =>
                  rw [hearly] at hreached
                  exact absurd hreached hok
              | true => rw [hreached, hearly, if_pos rfl]
            · cases d.ended s _ hfree hlt with
              | inl hret => exact hret
              | inr hret => exact absurd hret.1 hok
          have hfits : Fits size (out.length + (d.rest s).length) (d.early s) := by
            apply fits_of_le (by omega)
            intro htotal
            have hreached := d.reached s _ hfree (by omega)
            cases hearly : d.early s with
            | false =>
                rw [hearly] at hreached
                exact absurd hreached hok
            | true => rfl
          by_cases hend : (z.inflate s (size - out.length)).2.2 = .streamEnd
          · rw [if_pos hend]
            exact ends_stop d hfits fun _ => htake hle
          · rw [if_neg hend]
            apply ends_stop d hfits
            intro hlast
            rw [hret, hlast] at hend
            exact absurd rfl hend
      by_cases hroom : out.length < size
      · exact hturn size sizes h hroom
      · have hfull : out.length = size := by have := h.within; omega
        by_cases hlimit : kMaxOut ≤ size
        · rw [inflateLoop_limit hfull hlimit]
          exact ⟨_, rfl, ⟨fun hs => ⟨hs, fits_of_limit hlimit⟩, fun hs => hs.1⟩, fun _ _ => by omega⟩
        · rw [inflateLoop_grow h.pos hfull (by omega)]
          have hdoubled : Pending d s out (size * 2) := by
            have hpos := h.pos
            exact ⟨by omega, by omega, fun hfull' => by omega⟩
          exact ends_grow d h hfull (by omega) (hturn _ _ hdoubled (by have := h.pos; omega))

theorem inflateLoop_more {fuel more : Nat} {s : z.Stream} {out : Bytes} {size : Nat} {sizes : List Nat}
    {r : Inflated} (h : inflateLoop z fuel s out size sizes = some r) (hmore : fuel ≤ more) :
    inflateLoop z more s out size sizes = some r := by
  induction fuel generalizing more s out size sizes with
  | zero => cases h
  | succ fuel ih =>
      obtain ⟨more, rfl⟩ : ∃ n, more = n + 1 := ⟨more - 1, by omega⟩
      rw [inflateLoop] at h ⊢
      by_cases hlimit : size ≤ out.length ∧ kMaxOut ≤ size
      · rw [if_pos hlimit] at h ⊢
        exact h
      · rw [if_neg hlimit] at h ⊢
        dsimp only at h ⊢
        revert h
        generalize z.inflate s _ = call
        rcases call with ⟨s', written, ret⟩
        intro h
        cases ret with
        | ok => exact ih h (by omega)
        | streamEnd => exact h
        | other => exact h

end Loop

section Raw

variable {z : Zlib} (d : Documented z)

-- The call ends, with no buffer past the limit.
def Bounded (z : Zlib) (src : Bytes) (hint : Int) : Prop :=
  ∃ fuel r, inflateRaw z fuel src hint = .ok (some r) ∧ ∀ n ∈ r.sizes, n ≤ kMaxOut

-- The first size can be computed.
def Sized (n : Nat) (hint : Int) : Prop := (0 < hint ∧ hint < hintLimit) ∨ n * 4 < 2 ^ 31

-- The first size, where it can be computed.
def start (n : Nat) (hint : Int) : Nat :=
  if 0 < hint ∧ hint < hintLimit then min hint.toNat kMaxOut else min (max (n * 4) 16384) kMaxOut

-- The condition on the data and on the size that the directory gives.
def Roomy (src : Bytes) (hint : Int) : Prop :=
  ∀ s, z.inflateInit2 src = some s →
    Sized src.length hint ∧ Fits (start src.length hint) (d.rest s).length (d.early s)

theorem start_pos (n : Nat) (hint : Int) : 0 < start n hint := by
  unfold start kMaxOut
  split_ifs with h <;> omega

theorem start_le (n : Nat) (hint : Int) : start n hint ≤ kMaxOut := by
  unfold start
  split_ifs with h
  · exact Nat.min_le_right _ _
  · exact Nat.min_le_right _ _

theorem startSize_of_sized {n : Nat} {hint : Int} (h : Sized n hint) :
    startSize n hint = .ok (start n hint) := by
  rw [startSize, start]
  by_cases hhint : 0 < hint ∧ hint < hintLimit
  · rw [if_pos hhint, if_pos hhint]
  · have hn : n * 4 < 2 ^ 31 := h.resolve_left hhint
    rw [if_neg hhint, if_neg hhint, if_pos hn]

theorem startSize_of_not_sized {n : Nat} {hint : Int} (h : ¬ Sized n hint) :
    startSize n hint = .error .overflow := by
  have hhint : ¬ (0 < hint ∧ hint < hintLimit) := fun hhint => h (Or.inl hhint)
  have hn : ¬ n * 4 < 2 ^ 31 := fun hn => h (Or.inr hn)
  rw [startSize, if_neg hhint, if_neg hn]

-- With the first size the call ends, whatever the stream holds.
theorem inflateRaw_ends {src : Bytes} {hint : Int} {s : z.Stream} (hinit : z.inflateInit2 src = some s)
    (hsized : Sized src.length hint) (fuel : Nat) (hfuel : d.left s + (d.rest s).length < fuel) :
    ∃ r, inflateRaw z fuel src hint = .ok (some r) ∧
      ((∀ n ∈ r.sizes, n ≤ kMaxOut) ↔ Fits (start src.length hint) (d.rest s).length (d.early s)) ∧
      (d.last s = .streamEnd → (d.rest s).length < kMaxOut → r.out = d.rest s) := by
  have hpos := start_pos src.length hint
  have hpending : Pending d s [] (start src.length hint) :=
    ⟨hpos, Nat.zero_le _, fun hfull => by rw [List.length_nil] at hfull; omega⟩
  obtain ⟨r, hr, hsizes, hout⟩ := inflateLoop_ends d fuel s [] _ [start src.length hint] hpending hfuel
  rw [List.forall_mem_singleton, and_iff_right (start_le _ _), List.length_nil, Nat.zero_add] at hsizes
  rw [List.length_nil, Nat.zero_add, List.nil_append] at hout
  refine ⟨r, ?_, hsizes, hout⟩
  rw [inflateRaw, hinit, startSize_of_sized hsized, ← hr]
  rfl

theorem inflateRaw_more {fuel more : Nat} {src : Bytes} {hint : Int} {r : Inflated}
    (h : inflateRaw z fuel src hint = .ok (some r)) (hmore : fuel ≤ more) :
    inflateRaw z more src hint = .ok (some r) := by
  rw [inflateRaw] at h ⊢
  cases hinit : z.inflateInit2 src with
  | none =>
      rw [hinit] at h
      exact h
  | some s =>
      rw [hinit] at h
      by_cases hsized : Sized src.length hint
      · rw [startSize_of_sized hsized] at h ⊢
        have hloop := Except.ok.inj h
        exact congrArg Except.ok (inflateLoop_more hloop hmore)
      · rw [startSize_of_not_sized hsized] at h
        cases h

theorem bounded_iff (src : Bytes) (hint : Int) : Bounded z src hint ↔ Roomy d src hint := by
  cases hinit : z.inflateInit2 src with
  | none =>
      refine iff_of_true ⟨0, ⟨[], []⟩, ?_, fun n hn => absurd hn List.not_mem_nil⟩ ?_
      · rw [inflateRaw, hinit]
      · intro s hs
        rw [hinit] at hs
        cases hs
  | some s =>
      have hroomy : Roomy d src hint ↔
          Sized src.length hint ∧ Fits (start src.length hint) (d.rest s).length (d.early s) := by
        constructor
        · exact fun h => h s hinit
        · intro h s' hs'
          rw [hinit] at hs'
          cases hs'
          exact h
      rw [hroomy]
      by_cases hsized : Sized src.length hint
      · rw [and_iff_right hsized]
        constructor
        · rintro ⟨fuel, r, hr, hsizes⟩
          have hmore := Nat.le_max_left fuel (d.left s + (d.rest s).length + 1)
          have henough := Nat.le_max_right fuel (d.left s + (d.rest s).length + 1)
          obtain ⟨r', hr', hfits, _⟩ := inflateRaw_ends d hinit hsized _ henough
          rw [inflateRaw_more hr hmore] at hr'
          cases hr'
          exact hfits.mp hsizes
        · intro hfits
          obtain ⟨r, hr, hsizes, _⟩ := inflateRaw_ends d hinit hsized _ (Nat.lt_succ_self _)
          exact ⟨_, r, hr, hsizes.mpr hfits⟩
      · constructor
        · rintro ⟨fuel, r, hr, _⟩
          rw [inflateRaw, hinit, startSize_of_not_sized hsized] at hr
          cases hr
        · exact fun h => absurd h.1 hsized

end Raw

end BATorrent.SubtitleZip
