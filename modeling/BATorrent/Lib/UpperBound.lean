import Mathlib.Data.List.Basic
import Mathlib.Tactic.SplitIfs

namespace Lib.UpperBound

variable {α : Type*} (after : α → Bool)

-- Where the elements that come after start, between `first` and `first + len`.
def upperBoundFrom (xs : List α) (first len : Nat) : Nat :=
  if _ : 0 < len then
    let half := len / 2
    match xs[first + half]? with
    | none => first
    | some x =>
        if after x then upperBoundFrom xs first half
        else upperBoundFrom xs (first + half + 1) (len - half - 1)
  else first
termination_by len

def upperBound (xs : List α) : Nat := upperBoundFrom after xs 0 xs.length

variable {after} {xs : List α}

-- Once an element comes after, all that follow do.
def Partitioned (after : α → Bool) (xs : List α) : Prop := xs.Pairwise fun x y => after x = true → after y = true

theorem upperBoundFrom_spec (hxs : Partitioned after xs) {first len : Nat} (hlen : first + len ≤ xs.length)
    (hlow : ∀ i, i < first → ∀ x, xs[i]? = some x → after x = false)
    (hhigh : ∀ i, first + len ≤ i → ∀ x, xs[i]? = some x → after x = true) :
    upperBoundFrom after xs first len ≤ xs.length ∧
    (∀ i, i < upperBoundFrom after xs first len → ∀ x, xs[i]? = some x → after x = false) ∧
    ∀ i, upperBoundFrom after xs first len ≤ i → ∀ x, xs[i]? = some x → after x = true := by
  induction hn : len using Nat.strongRecOn generalizing first len with
  | _ n ih =>
  subst hn
  rw [upperBoundFrom]
  by_cases hpos : 0 < len
  · rw [dif_pos hpos]
    dsimp only
    have hmid : first + len / 2 < xs.length := by omega
    have horder := List.pairwise_iff_getElem.mp hxs
    rw [List.getElem?_eq_getElem hmid]
    dsimp only
    by_cases hafter : after xs[first + len / 2] = true
    · rw [if_pos hafter]
      refine ih _ (by omega) (by omega) hlow (fun i hi x hx => ?_) rfl
      obtain ⟨hin, rfl⟩ := List.getElem?_eq_some_iff.mp hx
      rcases Nat.eq_or_lt_of_le hi with rfl | hlt
      · exact hafter
      · exact horder _ i hmid hin hlt hafter
    · rw [if_neg hafter]
      refine ih _ (by omega) (by omega) (fun i hi x hx => ?_) (fun i hi x hx => hhigh i (by omega) x hx) rfl
      obtain ⟨hin, rfl⟩ := List.getElem?_eq_some_iff.mp hx
      rw [Bool.eq_false_iff]
      intro hlate
      rcases Nat.eq_or_lt_of_le (Nat.le_of_lt_succ hi) with rfl | hlt
      · exact hafter hlate
      · exact hafter (horder i _ hin hmid hlt hlate)
  · rw [dif_neg hpos]
    exact ⟨by omega, hlow, fun i hi => hhigh i (by omega)⟩

theorem upperBound_spec (hxs : Partitioned after xs) : upperBound after xs ≤ xs.length ∧
    (∀ i, i < upperBound after xs → ∀ x, xs[i]? = some x → after x = false) ∧
    ∀ i, upperBound after xs ≤ i → ∀ x, xs[i]? = some x → after x = true := by
  refine upperBoundFrom_spec hxs (by omega) (fun i hi => absurd hi (Nat.not_lt_zero i)) fun i hi x hx => ?_
  have hin := (List.getElem?_eq_some_iff.mp hx).1
  omega

theorem after_iff (hxs : Partitioned after xs) {i : Nat} {x : α} (hx : xs[i]? = some x) :
    after x = true ↔ upperBound after xs ≤ i := by
  obtain ⟨-, hlow, hhigh⟩ := upperBound_spec hxs
  constructor
  · intro hafter
    by_contra hlt
    exact Bool.false_ne_true ((hlow i (Nat.not_le.mp hlt) x hx).symm.trans hafter)
  · exact fun hle => hhigh i hle x hx

end Lib.UpperBound
