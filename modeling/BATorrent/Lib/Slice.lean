import BATorrent.Lib.Checked
import BATorrent.Lib.LittleEndian

namespace Lib

variable {α : Type}

-- The items stand at the place.
def HoldsAt (mem : List α) (pos : Nat) (xs : List α) : Prop :=
  ∃ before after, mem = before ++ (xs ++ after) ∧ before.length = pos

namespace HoldsAt

variable {mem xs ys : List α} {pos : Nat}

theorem length_le (h : HoldsAt mem pos xs) : pos + xs.length ≤ mem.length := by
  obtain ⟨before, after, rfl, rfl⟩ := h
  simp only [List.length_append]
  omega

theorem left (h : HoldsAt mem pos (xs ++ ys)) : HoldsAt mem pos xs := by
  obtain ⟨before, after, rfl, rfl⟩ := h
  exact ⟨before, ys ++ after, by rw [List.append_assoc], rfl⟩

theorem right (h : HoldsAt mem pos (xs ++ ys)) : HoldsAt mem (pos + xs.length) ys := by
  obtain ⟨before, after, rfl, rfl⟩ := h
  refine ⟨before ++ xs, after, ?_, ?_⟩
  · simp only [List.append_assoc]
  · rw [List.length_append]

theorem take_drop (h : HoldsAt mem pos xs) : (mem.drop pos).take xs.length = xs := by
  obtain ⟨before, after, rfl, rfl⟩ := h
  rw [List.drop_left, List.take_left]

theorem load (h : HoldsAt mem pos xs) : Checked.load mem pos xs.length = .ok xs := by
  rw [Checked.load_eq mem pos xs.length h.length_le, h.take_drop]

theorem index {x : α} (h : HoldsAt mem pos (x :: xs)) : Checked.index mem pos = .ok x := by
  obtain ⟨before, after, rfl, rfl⟩ := h
  have hget : (before ++ (x :: xs ++ after))[before.length]? = some x := by
    rw [List.getElem?_append_right (Nat.le_refl _), Nat.sub_self]
    rfl
  rw [Checked.index, hget]

theorem tail {x : α} (h : HoldsAt mem pos (x :: xs)) : HoldsAt mem (pos + 1) xs := by
  have hcons : HoldsAt mem pos ([x] ++ xs) := h
  exact hcons.right

end HoldsAt

end Lib
