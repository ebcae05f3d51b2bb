import Mathlib.Data.List.Perm.Basic
import Mathlib.Order.Defs.LinearOrder
import Mathlib.Order.Lattice

namespace Lib.SortedMap

variable {κ β γ : Type*} [LinearOrder κ]

-- The value under a key is replaced by what becomes of it. The keys stay in order.
def alter (k : κ) (f : Option β → β) : List (κ × β) → List (κ × β)
  | [] => [(k, f none)]
  | (k', b) :: m =>
      if k < k' then (k, f none) :: (k', b) :: m
      else if k = k' then (k, f (some b)) :: m
      else (k', b) :: alter k f m

def values (m : List (κ × β)) : List β := m.map Prod.snd

def contains (k : κ) (m : List (κ × β)) : Bool := m.any fun e => e.1 = k

variable {k : κ} {f : Option β → β} {m : List (κ × β)}

-- One value is new, or it takes the place of another.
theorem values_alter_mem : (∃ l r, values m = l ++ r ∧ values (alter k f m) = l ++ f none :: r) ∨
    ∃ l b r, (k, b) ∈ m ∧ values m = l ++ b :: r ∧ values (alter k f m) = l ++ f (some b) :: r := by
  induction m with
  | nil => exact .inl ⟨[], [], rfl, rfl⟩
  | cons e m ih =>
      obtain ⟨k', b⟩ := e
      rw [alter]
      split_ifs with hlt heq
      · exact .inl ⟨[], _, rfl, rfl⟩
      · exact .inr ⟨[], b, _, heq ▸ List.mem_cons_self, rfl, rfl⟩
      · rcases ih with ⟨l, r, hm, halter⟩ | ⟨l, b', r, hmem, hm, halter⟩
        · exact .inl ⟨b :: l, r, congrArg (b :: ·) hm, congrArg (b :: ·) halter⟩
        · exact .inr ⟨b :: l, b', r, List.mem_cons_of_mem _ hmem, congrArg (b :: ·) hm,
            congrArg (b :: ·) halter⟩

theorem values_alter : (∃ l r, values m = l ++ r ∧ values (alter k f m) = l ++ f none :: r) ∨
    ∃ l b r, values m = l ++ b :: r ∧ values (alter k f m) = l ++ f (some b) :: r := by
  rcases values_alter_mem (k := k) (f := f) (m := m) with h | ⟨l, b, r, _, h⟩
  · exact .inl h
  · exact .inr ⟨l, b, r, h⟩

end Lib.SortedMap
