import Mathlib.Data.List.Sort

namespace Lib.StableOrder

variable {α : Type} (rank : α → Nat)

-- The stable sort by a rank.
def stableSort (xs : List α) : List α := xs.insertionSort fun a b => rank a ≤ rank b

theorem stableSort_perm (xs : List α) : (stableSort rank xs).Perm xs := List.perm_insertionSort _ xs

theorem stableSort_sorted (xs : List α) : (stableSort rank xs).Pairwise fun a b => rank a ≤ rank b := by
  have : Std.Total fun a b : α => rank a ≤ rank b := ⟨fun _ _ => Nat.le_total _ _⟩
  have : IsTrans α fun a b => rank a ≤ rank b := ⟨fun _ _ _ => Nat.le_trans⟩
  exact List.pairwise_insertionSort _ xs

-- Values of one rank keep their order.
theorem filter_stableSort (k : Nat) (xs : List α) :
    (stableSort rank xs).filter (fun x => rank x = k) = xs.filter fun x => rank x = k := by
  have : Std.Total fun a b : α => rank a ≤ rank b := ⟨fun _ _ => Nat.le_total _ _⟩
  have : IsTrans α fun a b => rank a ≤ rank b := ⟨fun _ _ _ => Nat.le_trans⟩
  have hsame : (xs.filter fun x => rank x = k).Pairwise fun a b => rank a ≤ rank b := by
    apply List.pairwise_of_forall_mem_list
    intro a ha b hb
    have hrank : rank a = k := of_decide_eq_true (List.mem_filter.mp ha).2
    have hrank' : rank b = k := of_decide_eq_true (List.mem_filter.mp hb).2
    omega
  have hsub := List.sublist_insertionSort hsame List.filter_sublist
  have hfilter := hsub.filter fun x => decide (rank x = k)
  rw [List.filter_filter] at hfilter
  simp only [Bool.and_self] at hfilter
  exact (hfilter.eq_of_length ((stableSort_perm rank xs).filter _).length_eq.symm).symm

end Lib.StableOrder
