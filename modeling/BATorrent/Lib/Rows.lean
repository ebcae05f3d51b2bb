import Mathlib.Data.List.Nodup
import Mathlib.Data.List.Perm.Basic

namespace Lib

section Rows

variable {α : Type*} {l : List α} {i j : Nat}

-- A row taken out and put back in another place.
def moveRow (l : List α) (i j : Nat) (hi : i < l.length) : List α := (l.eraseIdx i).insertIdx j l[i]

-- The same, where there is no such row or place.
def moveRowTo (l : List α) (i j : Nat) : List α :=
  if h : i < l.length ∧ j < l.length then moveRow l i j h.1 else l

theorem moveRow_perm (hi : i < l.length) (hj : j < l.length) : (moveRow l i j hi).Perm l := by
  have hle : j ≤ (l.eraseIdx i).length := by
    rw [List.length_eraseIdx_of_lt hi]
    omega
  exact (List.perm_insertIdx _ _ hle).trans (List.getElem_cons_eraseIdx_perm hi)

theorem nodup_moveRow (hi : i < l.length) (hj : j < l.length) (hl : l.Nodup) :
    (moveRow l i j hi).Nodup := (moveRow_perm hi hj).nodup_iff.mpr hl

-- A row that is taken out is counted no longer.
theorem countP_eraseIdx {x : α} (p : α → Bool) (h : l[i]? = some x) :
    l.countP p = (l.eraseIdx i).countP p + (p x).toNat := by
  obtain ⟨hi, rfl⟩ := List.getElem?_eq_some_iff.mp h
  rw [← (List.getElem_cons_eraseIdx_perm hi).countP_eq p, List.countP_cons]
  cases p l[i] <;> rfl

theorem notMem_eraseIdx [DecidableEq α] {a : α} (hl : l.Nodup) (ha : l[i]? = some a) :
    a ∉ l.eraseIdx i := by
  obtain ⟨hi, rfl⟩ := List.getElem?_eq_some_iff.mp ha
  rw [← List.Nodup.erase_getElem hl]
  exact List.Nodup.not_mem_erase hl

theorem insertIdx_append {a : α} (hj : j ≤ l.length) (more : List α) :
    (l ++ more).insertIdx j a = l.insertIdx j a ++ more := by
  induction l generalizing j with
  | nil => rw [Nat.le_zero.mp hj, List.insertIdx_zero, List.nil_append, List.insertIdx_zero]; rfl
  | cons x l ih =>
      cases j with
      | zero => rfl
      | succ j =>
          rw [List.cons_append, List.insertIdx_succ_cons, List.insertIdx_succ_cons,
            ih (Nat.le_of_succ_le_succ hj), List.cons_append]

-- Rows that follow do not see a move.
theorem moveRow_append (hi : i < l.length) (hj : j < l.length) (more : List α) :
    moveRow (l ++ more) i j (Nat.lt_of_lt_of_le hi (List.length_append ▸ Nat.le_add_right _ _)) =
      moveRow l i j hi ++ more := by
  have hle : j ≤ (l.eraseIdx i).length := by
    rw [List.length_eraseIdx_of_lt hi]
    omega
  unfold moveRow
  rw [List.eraseIdx_append_of_lt_length hi, List.getElem_append_left hi, insertIdx_append hle]

theorem getElem?_moveRow_self (hi : i < l.length) (hj : j < l.length) :
    (moveRow l i j hi)[j]? = l[i]? := by
  unfold moveRow
  rw [List.getElem?_insertIdx_self, if_pos, List.getElem?_eq_getElem hi]
  rw [List.length_eraseIdx_of_lt hi]
  omega

theorem moveRowTo_self (l : List α) (i : Nat) : moveRowTo l i i = l := by
  unfold moveRowTo
  split_ifs with h
  · exact List.insertIdx_eraseIdx_getElem h.1
  · rfl

theorem length_moveRowTo : (moveRowTo l i j).length = l.length := by
  unfold moveRowTo
  split_ifs with h
  · exact (moveRow_perm h.1 h.2).length_eq
  · rfl

-- A move to the next row, up or down, changes two rows for each other.
theorem exists_swap (hi : i < l.length) (hj : j < l.length) (hnext : i + 1 = j ∨ j + 1 = i) :
    ∃ pre a b post, l = pre ++ a :: b :: post ∧ moveRow l i j hi = pre ++ b :: a :: post ∧
      (pre.length = i ∧ pre.length + 1 = j ∨ pre.length = j ∧ pre.length + 1 = i) := by
  induction l generalizing i j with
  | nil => cases hi
  | cons x l ih =>
      match i, j with
      | 0, 0 => omega
      | 0, j + 1 =>
          obtain rfl : j = 0 := by omega
          match l with
          | y :: l => exact ⟨[], x, y, l, rfl, rfl, .inl ⟨rfl, rfl⟩⟩
      | i + 1, 0 =>
          obtain rfl : i = 0 := by omega
          match l with
          | y :: l => exact ⟨[], x, y, l, rfl, rfl, .inr ⟨rfl, rfl⟩⟩
      | i + 1, j + 1 =>
          have hi' : i < l.length := Nat.lt_of_succ_lt_succ hi
          obtain ⟨pre, a, b, post, hl, hmove, hlength⟩ :=
            ih hi' (Nat.lt_of_succ_lt_succ hj) (by omega)
          have hcons : moveRow (x :: l) (i + 1) (j + 1) hi = x :: moveRow l i j hi' := rfl
          refine ⟨x :: pre, a, b, post, by rw [hl]; rfl, by rw [hcons, hmove]; rfl, ?_⟩
          rw [List.length_cons]
          omega

theorem getElem?_moveRow_next (hi : i < l.length) (hj : j < l.length) (hnext : i + 1 = j ∨ j + 1 = i)
    (k : Nat) : (moveRow l i j hi)[k]? = l[if k = i then j else if k = j then i else k]? := by
  obtain ⟨pre, a, b, post, hl, hmove, hlength⟩ := exists_swap hi hj hnext
  rw [hmove]
  subst hl
  grind

theorem filter_moveRow_next {p : α → Bool} (hi : i < l.length) (hj : j < l.length)
    (hnext : i + 1 = j ∨ j + 1 = i) (hp : p l[i] ≠ p l[j]) :
    (moveRow l i j hi).filter p = l.filter p := by
  obtain ⟨pre, a, b, post, hl, hmove, hlength⟩ := exists_swap hi hj hnext
  rw [hmove]
  subst hl
  have hab : p a ≠ p b := by
    rcases hlength with ⟨rfl, rfl⟩ | ⟨rfl, rfl⟩
    · simpa using hp
    · simpa using hp.symm
  cases ha : p a with
  | false =>
      have hb : p b = true := by simpa [ha] using hab.symm
      simp [ha, hb]
  | true =>
      have hb : p b = false := by simpa [ha] using hab.symm
      simp [ha, hb]

theorem filter_insertIdx {p : α → Bool} {a : α} (ha : p a = false) (l : List α) (j : Nat) :
    (l.insertIdx j a).filter p = l.filter p := by
  induction l generalizing j with
  | nil =>
      cases j with
      | zero => simp [ha]
      | succ j => rfl
  | cons x l ih =>
      cases j with
      | zero => simp [ha]
      | succ j => rw [List.insertIdx_succ_cons, List.filter_cons, List.filter_cons, ih]

-- A row on its own in having a property, and the rows without it, stay in order through any move.
theorem filter_moveRow_alone {p : α → Bool} (hi : i < l.length) (hj : j < l.length) (hp : p l[i] = true)
    (halone : ∀ a ∈ l.eraseIdx i, p a = false) :
    (moveRow l i j hi).filter p = l.filter p ∧
      (moveRow l i j hi).filter (!p ·) = l.filter (!p ·) := by
  constructor
  · have hl : l.filter p = [l[i]] := by
      have hperm := (List.getElem_cons_eraseIdx_perm hi).filter p
      rw [List.filter_cons_of_pos hp, List.filter_eq_nil_iff.mpr fun a ha => by simp [halone a ha]]
        at hperm
      exact (List.singleton_perm.mp hperm).symm
    have hperm := (moveRow_perm hi hj).filter p
    rw [hl] at hperm ⊢
    exact List.perm_singleton.mp hperm
  · have hnot : (!p l[i]) = false := by rw [hp]; rfl
    have hself := List.insertIdx_eraseIdx_getElem hi
    have hl : ((l.eraseIdx i).insertIdx i l[i]).filter (!p ·) = (l.eraseIdx i).filter (!p ·) :=
      filter_insertIdx (p := (!p ·)) hnot _ _
    rw [hself] at hl
    exact (filter_insertIdx (p := (!p ·)) hnot _ _).trans hl.symm

theorem filter_append_filter {p : α → Bool} (h : l.Pairwise fun a b => p b = true → p a = true) :
    l.filter p ++ l.filter (!p ·) = l := by
  induction l with
  | nil => rfl
  | cons a l ih =>
      obtain ⟨ha, hl⟩ := List.pairwise_cons.mp h
      cases hpa : p a with
      | true => simp [hpa, ih hl]
      | false =>
          have hnone : ∀ b ∈ l, p b = false := fun b hb => by
            by_contra hpb
            exact absurd (ha b hb (by simpa using hpb)) (by simp [hpa])
          rw [List.filter_eq_nil_iff.mpr, List.filter_eq_self.mpr, List.nil_append]
          · simpa [hpa] using hnone
          · simpa [hpa] using hnone

theorem filterMap_getElem?_range (l : List α) : (List.range l.length).filterMap (l[·]?) = l := by
  induction l with
  | nil => rfl
  | cons a l ih =>
      have hhead : (a :: l)[0]? = some a := rfl
      rw [List.length_cons, List.range_succ_eq_map, List.filterMap_cons_some hhead, List.filterMap_map]
      exact congrArg (a :: ·) ih

end Rows

end Lib
