import Mathlib.Data.List.Infix
import Mathlib.Tactic.Push
import Mathlib.Tactic.SplitIfs
import Mathlib.Algebra.Group.Int.Defs
import Mathlib.Algebra.Group.Nat.Defs

namespace Lib.FileBytes

variable {α : Type*}

-- Where a write starts past the end, the gap reads as the pad.
def writeAt (file : List α) (pad : α) (offset : Nat) (chunk : List α) : List α :=
  file.takeD offset pad ++ chunk ++ file.drop (offset + chunk.length)

def resize (file : List α) (pad : α) (size : Nat) : List α := file.takeD size pad

-- Two files have the same content on a stretch.
def Agree (file whole : List α) (start len : Nat) : Prop :=
  ∀ i, start ≤ i → i < start + len → file[i]? = whole[i]?

theorem Agree.mono {file whole : List α} {start len len' : Nat}
    (h : Agree file whole start len) (hle : len' ≤ len) : Agree file whole start len' :=
  fun i hlo hhi => h i hlo (by omega)

theorem agree_nil (file whole : List α) (start : Nat) : Agree file whole start 0 :=
  fun i hlo hhi => by omega

theorem Agree.append {file whole : List α} {start len more : Nat}
    (h : Agree file whole start len) (hmore : Agree file whole (start + len) more) :
    Agree file whole start (len + more) := by
  intro i hlo hhi
  by_cases hi : i < start + len
  · exact h i hlo hi
  · exact hmore i (by omega) (by omega)

theorem length_writeAt {file chunk : List α} {pad : α} {offset : Nat}
    (h : offset + chunk.length ≤ file.length) :
    (writeAt file pad offset chunk).length = file.length := by
  simp only [writeAt, List.length_append, List.takeD_length, List.length_drop]
  omega

theorem getElem?_writeAt {file chunk : List α} {pad : α} {offset : Nat}
    (h : offset ≤ file.length) (i : Nat) :
    (writeAt file pad offset chunk)[i]? =
      if i < offset ∨ offset + chunk.length ≤ i then file[i]? else chunk[i - offset]? := by
  rw [writeAt, List.takeD_eq_take pad h, List.append_assoc]
  have htake : (file.take offset).length = offset := List.length_take_of_le h
  by_cases hlo : i < offset
  · rw [if_pos (.inl hlo), List.getElem?_append_left (by omega), List.getElem?_take_of_lt hlo]
  · rw [List.getElem?_append_right (by omega), htake]
    by_cases hhi : i < offset + chunk.length
    · rw [if_neg (by omega), List.getElem?_append_left (by omega)]
    · rw [if_pos (by omega), List.getElem?_append_right (by omega), List.getElem?_drop]
      congr 1
      omega

theorem getElem?_of_prefix_drop {whole chunk : List α} {offset i : Nat}
    (h : chunk <+: whole.drop offset) (hlo : offset ≤ i) (hhi : i < offset + chunk.length) :
    chunk[i - offset]? = whole[i]? := by
  obtain ⟨rest, hrest⟩ := h
  have hget := congrArg (fun l => l[i - offset]?) hrest
  simp only [List.getElem?_append_left (show i - offset < chunk.length by omega),
    List.getElem?_drop] at hget
  rw [hget, Nat.add_sub_of_le hlo]

-- A write of the right bytes leaves what was right, and makes its own stretch right.
theorem Agree.writeAt {file whole chunk : List α} {start len offset : Nat} (pad : α)
    (h : Agree file whole start len) (hoffset : offset ≤ file.length)
    (hchunk : chunk <+: whole.drop offset) :
    Agree (writeAt file pad offset chunk) whole start len := by
  intro i hlo hhi
  rw [getElem?_writeAt hoffset]
  split_ifs with hout
  · exact h i hlo hhi
  · exact getElem?_of_prefix_drop hchunk (by omega) (by omega)

theorem agree_writeAt {file whole chunk : List α} {offset : Nat} (pad : α)
    (hoffset : offset ≤ file.length) (hchunk : chunk <+: whole.drop offset) :
    Agree (writeAt file pad offset chunk) whole offset chunk.length := by
  intro i hlo hhi
  rw [getElem?_writeAt hoffset, if_neg (by omega)]
  exact getElem?_of_prefix_drop hchunk hlo hhi

theorem getElem?_takeD {n i : Nat} {l : List α} (a : α) (hn : i < n) (hl : i < l.length) :
    (l.takeD n a)[i]? = l[i]? := by
  induction n generalizing i l with
  | zero => omega
  | succ n ih =>
      cases l with
      | nil => simp at hl
      | cons x l =>
          cases i with
          | zero => rfl
          | succ i =>
              rw [List.takeD_succ, List.getElem?_cons_succ, List.tail_cons,
                List.getElem?_cons_succ]
              exact ih (by omega) (by simpa using hl)

-- Resized to the whole's length, a file keeps the stretches it had right.
theorem Agree.resize {file whole : List α} {start len : Nat} (pad : α)
    (h : Agree file whole start len) :
    Agree (resize file pad whole.length) whole start len := by
  intro i hlo hhi
  have hi := h i hlo hhi
  by_cases hin : i < whole.length
  · have hfile : i < file.length := by
      rw [List.getElem?_eq_getElem hin] at hi
      exact (List.getElem?_eq_some_iff.mp hi).1
    rw [FileBytes.resize, getElem?_takeD pad hin hfile, hi]
  · rw [List.getElem?_eq_none (by rw [FileBytes.resize, List.takeD_length]; omega),
      List.getElem?_eq_none (by omega)]

theorem length_resize (file : List α) (pad : α) (size : Nat) :
    (resize file pad size).length = size := List.takeD_length size file pad

theorem eq_of_agree {file whole : List α} (hlen : file.length = whole.length)
    (h : ∀ i < whole.length, file[i]? = whole[i]?) : file = whole := by
  apply List.ext_getElem?
  intro i
  by_cases hi : i < whole.length
  · exact h i hi
  · rw [List.getElem?_eq_none (by omega), List.getElem?_eq_none (by omega)]

end Lib.FileBytes
