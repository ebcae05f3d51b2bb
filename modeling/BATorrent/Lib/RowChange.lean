import BATorrent.Lib.Rows
import Mathlib.Order.Nat

namespace Lib

-- What happens to the rows of a list. Rows that come in at the end change no other row.
inductive RowChange where
  | removed (j : Nat)
  | moved (j k : Nat)
  | cleared
deriving DecidableEq

namespace RowChange

-- Where row `i` was before the change. Rows past the end stand for those still to come.
def origin : RowChange → Nat → Option Nat
  | removed j, i => some (if i < j then i else i + 1)
  | moved j k, i =>
      some (if i = k then j
        else if i < k then if i < j then i else i + 1
        else if i ≤ j then i - 1 else i)
  | cleared, _ => none

-- The same through several changes, newest first.
def originOf : List RowChange → Nat → Option Nat
  | [], i => some i
  | change :: earlier, i => (change.origin i).bind (originOf earlier)

theorem originOf_append (later earlier : List RowChange) (i : Nat) :
    originOf (later ++ earlier) i = (originOf later i).bind (originOf earlier) := by
  induction later generalizing i with
  | nil => rfl
  | cons change later ih =>
      rw [List.cons_append, originOf, originOf, Option.bind_assoc]
      exact congrArg _ (funext ih)

theorem cleared_notMem {changes : List RowChange} {i k : Nat} (h : originOf changes i = some k) :
    cleared ∉ changes := by
  induction changes generalizing i with
  | nil => exact List.not_mem_nil
  | cons change earlier ih =>
      obtain ⟨j, hj, hk⟩ := Option.bind_eq_some_iff.mp h
      rw [List.mem_cons, not_or]
      refine ⟨?_, ih hk⟩
      rintro rfl
      cases hj

end RowChange

open RowChange

section Tracks

variable {α : Type*} {changes later earlier : List RowChange} {old mid new l l' : List α} {j k : Nat}

-- The changes lead from the old rows to the new ones, which may have others at their end.
structure Tracks (changes : List RowChange) (old new : List α) : Prop where
  row : ∀ i k, originOf changes i = some k → i < new.length → k < old.length → new[i]? = old[k]?
  later : ∀ i k, originOf changes i = some k → new.length ≤ i → old.length ≤ k

theorem Tracks.refl (l : List α) : Tracks [] l l where
  row i k hk _ _ := by rw [Option.some.inj hk]
  later i k hk hi := (Option.some.inj hk) ▸ hi

theorem Tracks.trans (hearlier : Tracks earlier old mid) (hlater : Tracks later mid new) :
    Tracks (later ++ earlier) old new := by
  constructor
  · intro i k hik hi hk
    rw [originOf_append] at hik
    obtain ⟨j, hij, hjk⟩ := Option.bind_eq_some_iff.mp hik
    have hj : j < mid.length := by
      by_contra hge
      exact (hearlier.later j k hjk (le_of_not_gt hge)).not_gt hk
    exact (hlater.row i j hij hi hj).trans (hearlier.row j k hjk hj hk)
  · intro i k hik hi
    rw [originOf_append] at hik
    obtain ⟨j, hij, hjk⟩ := Option.bind_eq_some_iff.mp hik
    exact hearlier.later j k hjk (hlater.later i j hij hi)

theorem tracks_append (l : List α) (a : α) : Tracks [] l (l ++ [a]) := by
  constructor
  · intro i k hk _ hlt
    obtain rfl := Option.some.inj hk
    rw [List.getElem?_append_left hlt]
  · intro i k hk hi
    obtain rfl := Option.some.inj hk
    rw [List.length_append] at hi
    omega

theorem tracks_cleared (l l' : List α) : Tracks [.cleared] l l' := ⟨nofun, nofun⟩

theorem tracks_eraseIdx (hj : j < l.length) : Tracks [.removed j] l (l.eraseIdx j) := by
  have hlength := List.length_eraseIdx_of_lt hj
  constructor
  · intro i k hk _ _
    obtain rfl := Option.some.inj hk
    rw [List.getElem?_eraseIdx]
    split_ifs <;> rfl
  · intro i k hk hi
    obtain rfl := Option.some.inj hk
    rw [hlength] at hi
    split_ifs <;> omega

theorem tracks_moveRow (hj : j < l.length) (hk : k < l.length) :
    Tracks [.moved j k] l (moveRow l j k hj) := by
  have hlength : (moveRow l j k hj).length = l.length := (moveRow_perm hj hk).length_eq
  have herased := List.length_eraseIdx_of_lt hj
  constructor
  · intro i i' hi' hi _
    obtain rfl := Option.some.inj hi'
    rw [hlength] at hi
    rw [moveRow, List.getElem?_insertIdx]
    rcases Nat.lt_trichotomy i k with hlt | rfl | hgt
    · rw [if_pos hlt, if_neg hlt.ne, if_pos hlt, List.getElem?_eraseIdx]
      split_ifs <;> rfl
    · have hle : i ≤ (l.eraseIdx j).length := by omega
      rw [if_neg (Nat.lt_irrefl i), if_pos rfl, if_pos hle, if_pos rfl, List.getElem?_eq_getElem hj]
    · rw [if_neg hgt.not_gt, if_neg hgt.ne', if_neg hgt.ne', if_neg hgt.not_gt, List.getElem?_eraseIdx]
      by_cases hij : i ≤ j
      · rw [if_pos hij, if_pos (by omega)]
      · rw [if_neg hij, if_neg (by omega), Nat.sub_add_cancel (by omega)]
  · intro i i' hi' hi
    obtain rfl := Option.some.inj hi'
    rw [hlength] at hi
    split_ifs <;> omega

end Tracks

end Lib
