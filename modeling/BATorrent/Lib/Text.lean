import Mathlib.Data.List.Infix
import Mathlib.Algebra.Group.Int.Defs
import Mathlib.Algebra.Group.Nat.Defs

namespace Lib.Text

instance lawfulBEq : LawfulBEq (List Char) := inferInstance

-- Scans left to right and does not scan inserted text again. `skip` counts the
-- characters of the current occurrence that are still to be dropped.
def replaceFrom (before after : List Char) : Nat → List Char → List Char
  | _, [] => []
  | 0, c :: rest =>
      if before.isPrefixOf (c :: rest) then
        after ++ replaceFrom before after (before.length - 1) rest
      else c :: replaceFrom before after 0 rest
  | skip + 1, _ :: rest => replaceFrom before after skip rest

def replaceAll (before after text : List Char) : List Char :=
  replaceFrom before after 0 text

@[simp] theorem replaceAll_nil (before after : List Char) : replaceAll before after [] = [] := rfl

-- A one-character pattern is replaced character by character.
theorem replaceAll_singleton (c : Char) (after text : List Char) :
    replaceAll [c] after text = text.flatMap (fun d => if d = c then after else [d]) := by
  induction text with
  | nil => rfl
  | cons d rest ih =>
      unfold replaceAll at ih ⊢
      by_cases hd : d = c
      · simp [replaceFrom, hd, ih]
      · simp [replaceFrom, hd, Ne.symm hd, ih]

section Pair

variable (a b : Char) (after : List Char)

@[simp] theorem replaceAll_pair_single (c : Char) : replaceAll [a, b] after [c] = [c] := by
  simp [replaceAll, replaceFrom]

theorem replaceAll_pair_cons (c d : Char) (rest : List Char) :
    replaceAll [a, b] after (c :: d :: rest) =
      if c = a ∧ d = b then after ++ replaceAll [a, b] after rest
      else c :: replaceAll [a, b] after (d :: rest) := by
  by_cases h : c = a ∧ d = b
  · obtain ⟨rfl, rfl⟩ := h
    simp [replaceAll, replaceFrom]
  · have hp : ¬ ([a, b].isPrefixOf (c :: d :: rest)) := by
      simp only [List.isPrefixOf_iff_prefix, List.cons_prefix_cons]
      rintro ⟨rfl, rfl, -⟩
      exact h ⟨rfl, rfl⟩
    simp [replaceAll, replaceFrom, h, hp]

theorem replaceAll_pair_match (rest : List Char) :
    replaceAll [a, b] after (a :: b :: rest) = after ++ replaceAll [a, b] after rest := by
  simp [replaceAll_pair_cons]

theorem replaceAll_pair_skip (c : Char) (rest : List Char)
    (h : ¬ (c = a ∧ rest.head? = some b)) :
    replaceAll [a, b] after (c :: rest) = c :: replaceAll [a, b] after rest := by
  cases rest with
  | nil => simp
  | cons d rest =>
      rw [replaceAll_pair_cons, if_neg]
      simpa using h

-- No occurrence straddles the boundary, so the two sides are replaced apart.
theorem replaceAll_pair_append (s t : List Char)
    (h : ¬ (s.getLast? = some a ∧ t.head? = some b)) :
    replaceAll [a, b] after (s ++ t) = replaceAll [a, b] after s ++ replaceAll [a, b] after t := by
  match s with
  | [] => simp
  | [c] =>
      have hc : ¬ (c = a ∧ t.head? = some b) := by simpa using h
      simp [replaceAll_pair_skip a b after c t hc]
  | c :: d :: rest =>
      have htail : ¬ ((d :: rest).getLast? = some a ∧ t.head? = some b) := by
        simpa [List.getLast?_cons_cons] using h
      by_cases hm : c = a ∧ d = b
      · have hrest : ¬ (rest.getLast? = some a ∧ t.head? = some b) := by
          intro hr
          apply htail
          refine ⟨?_, hr.2⟩
          cases rest with
          | nil => simp at hr
          | cons e rest => simpa [List.getLast?_cons_cons] using hr.1
        simp [replaceAll_pair_cons, hm, replaceAll_pair_append rest t hrest]
      · have hi := replaceAll_pair_append (d :: rest) t htail
        simp only [List.cons_append] at hi
        simp only [List.cons_append, replaceAll_pair_cons, if_neg hm, hi]
termination_by s.length

-- Text without the pattern is left as it is.
theorem replaceAll_pair_of_not_infix (s : List Char) (h : ¬ [a, b] <:+: s) :
    replaceAll [a, b] after s = s := by
  induction s with
  | nil => rfl
  | cons c rest ih =>
      have hrest : ¬ [a, b] <:+: rest := fun hi => h (List.infix_cons hi)
      have hhead : ¬ (c = a ∧ rest.head? = some b) := by
        rintro ⟨rfl, hb⟩
        cases rest with
        | nil => simp at hb
        | cons d rest =>
            obtain rfl : d = b := by simpa using hb
            exact h (List.IsPrefix.isInfix (by simp))
      rw [replaceAll_pair_skip a b after c rest hhead, ih hrest]

theorem replaceAll_pair_ne_nil (s : List Char) (hs : s ≠ []) (hafter : after ≠ []) :
    replaceAll [a, b] after s ≠ [] := by
  rcases s with _ | ⟨c, _ | ⟨d, rest⟩⟩
  · exact absurd rfl hs
  · simp
  · rw [replaceAll_pair_cons]
    split_ifs <;> simp [hafter]

-- The first character is kept, or it starts the inserted text.
theorem replaceAll_pair_head? (s : List Char) (hafter : after ≠ []) :
    (replaceAll [a, b] after s).head? = s.head? ∨
      (replaceAll [a, b] after s).head? = after.head? := by
  rcases s with _ | ⟨c, _ | ⟨d, rest⟩⟩
  · exact .inl rfl
  · simp
  · rw [replaceAll_pair_cons]
    split_ifs
    · right
      exact List.head?_append_of_ne_nil _ hafter
    · exact .inl rfl

theorem replaceAll_pair_getLast? (s : List Char) (hafter : after ≠ []) :
    (replaceAll [a, b] after s).getLast? = s.getLast? ∨
      (replaceAll [a, b] after s).getLast? = after.getLast? := by
  rcases s with _ | ⟨c, _ | ⟨d, rest⟩⟩
  · exact .inl rfl
  · simp
  · rw [replaceAll_pair_cons]
    split_ifs with h
    · cases rest with
      | nil => simp
      | cons e rest =>
          have hne := replaceAll_pair_ne_nil a b after (e :: rest) (by simp) hafter
          rw [List.getLast?_append_of_ne_nil _ hne]
          simpa [List.getLast?_cons_cons] using replaceAll_pair_getLast? (e :: rest) hafter
    · have hne := replaceAll_pair_ne_nil a b after (d :: rest) (by simp) hafter
      have hi := replaceAll_pair_getLast? (d :: rest) hafter
      rw [List.getLast?_cons_of_ne_nil hne]
      simpa [List.getLast?_cons_cons] using hi
termination_by s.length

end Pair

-- The leftmost place where one of the listed characters follows `a`.
theorem exists_leftmost_pair (a : Char) (letters s : List Char)
    (h : ∃ b ∈ letters, [a, b] <:+: s) :
    ∃ pre b post, s = pre ++ a :: b :: post ∧ b ∈ letters ∧
      ∀ d ∈ letters, ¬ [a, d] <:+: pre := by
  induction s with
  | nil => simp at h
  | cons c rest ih =>
      by_cases hc : c = a ∧ ∃ b ∈ letters, rest.head? = some b
      · obtain ⟨rfl, b, hb, hh⟩ := hc
        obtain ⟨post, rfl⟩ := List.head?_eq_some_iff.mp hh
        exact ⟨[], b, post, rfl, hb, by simp⟩
      · have hrest : ∃ b ∈ letters, [a, b] <:+: rest := by
          obtain ⟨b, hb, hi⟩ := h
          refine ⟨b, hb, ?_⟩
          rcases List.infix_cons_iff.mp hi with hp | hi
          · obtain ⟨rfl, post, rfl⟩ := List.cons_prefix_cons.mp hp
            exact absurd ⟨rfl, b, hb, rfl⟩ hc
          · exact hi
        obtain ⟨pre, b, post, rfl, hb, hpre⟩ := ih hrest
        refine ⟨c :: pre, b, post, rfl, hb, ?_⟩
        intro d hd hi
        rcases List.infix_cons_iff.mp hi with hp | hi
        · obtain ⟨rfl, post', rfl⟩ := List.cons_prefix_cons.mp hp
          exact hc ⟨rfl, d, hd, rfl⟩
        · exact hpre d hd hi

theorem toLower_of_not_upper {c : Char} (h : ¬ (c.val ≥ 'A'.val ∧ c.val ≤ 'Z'.val)) : c.toLower = c :=
  dif_neg h

theorem toLower_toLower (c : Char) : c.toLower.toLower = c.toLower := by
  by_cases h : c.val ≥ 'A'.val ∧ c.val ≤ 'Z'.val
  · refine toLower_of_not_upper fun hupper => ?_
    have hval : c.toLower.val = c.val + ('a'.val - 'A'.val) := congrArg Char.val (dif_pos h)
    rw [hval] at hupper
    obtain ⟨hA, hZ⟩ := h
    obtain ⟨-, hle⟩ := hupper
    simp only [ge_iff_le, UInt32.le_iff_toNat_le, UInt32.toNat_add] at *
    have ha : ('a'.val - 'A'.val).toNat = 32 := by decide
    have hA' : 'A'.val.toNat = 65 := by decide
    have hZ' : 'Z'.val.toNat = 90 := by decide
    omega
  · rw [toLower_of_not_upper h, toLower_of_not_upper h]

theorem map_toLower_toLower (s : List Char) :
    (s.map Char.toLower).map Char.toLower = s.map Char.toLower := by
  rw [List.map_map]
  exact List.map_congr_left fun c _ => toLower_toLower c

def number (n : Int) : List Char :=
  if n < 0 then '-' :: Nat.toDigits 10 n.natAbs else Nat.toDigits 10 n.natAbs

theorem number_head (n : Int) : ∃ c rest, number n = c :: rest ∧ (c = '-' ∨ c.isDigit) := by
  unfold number
  split_ifs
  · exact ⟨_, _, rfl, .inl rfl⟩
  · cases hd : Nat.toDigits 10 n.natAbs with
    | nil => exact absurd hd Nat.toDigits_ne_nil
    | cons c rest =>
        refine ⟨c, rest, rfl, .inr ?_⟩
        exact Nat.isDigit_of_mem_toDigits (by decide) (by decide) (hd ▸ List.mem_cons_self)

-- The first occurrence is where the text before it ends.
theorem idxOf?_append_cons {α : Type*} [DecidableEq α] {s : List α} {c : α} (h : c ∉ s)
    (rest : List α) :
    (s ++ c :: rest).idxOf? c = some s.length := by
  rw [List.idxOf?_eq_some_iff]
  refine ⟨by simp, ?_, ?_⟩
  · simp
  · intro j hj
    have hne : s[j] ≠ c := fun he => h (he ▸ List.getElem_mem hj)
    simpa [List.getElem_append_left hj] using hne

-- A text is cut at the first occurrence in one way only.
theorem append_cons_inj {α : Type*} [DecidableEq α] {s t a b : List α} {c : α} (hs : c ∉ s)
    (ht : c ∉ t) (h : s ++ c :: a = t ++ c :: b) : s = t ∧ a = b := by
  have hlen : s.length = t.length := by
    have hidx := idxOf?_append_cons hs a
    rw [h, idxOf?_append_cons ht b] at hidx
    exact (Option.some.inj hidx).symm
  obtain ⟨rfl, hrest⟩ := List.append_inj h hlen
  exact ⟨rfl, (List.cons.inj hrest).2⟩

theorem mem_number {n : Int} {c : Char} (h : c ∈ number n) : c = '-' ∨ c.isDigit := by
  have hdigit : c ∈ Nat.toDigits 10 n.natAbs → c.isDigit :=
    Nat.isDigit_of_mem_toDigits (by decide) (by decide)
  unfold number at h
  split_ifs at h
  · exact (List.mem_cons.mp h).imp_right hdigit
  · exact .inr (hdigit h)

theorem toDigits_injective : Function.Injective (Nat.toDigits 10) := by
  intro m n h
  have hm := Nat.ofDigitChars_toDigits (b := 10) (n := m) (by decide) (by decide)
  rw [h, Nat.ofDigitChars_toDigits (by decide) (by decide)] at hm
  exact hm.symm

theorem number_injective : Function.Injective number := by
  intro m n h
  have hminus : ∀ k : Nat, '-' ∉ Nat.toDigits 10 k := fun k hk =>
    absurd (Nat.isDigit_of_mem_toDigits (by decide) (by decide) hk) (by decide)
  unfold number at h
  split_ifs at h with hm hn hn
  · have := toDigits_injective (List.cons.inj h).2
    omega
  · exact absurd (h ▸ List.mem_cons_self) (hminus n.natAbs)
  · exact absurd (h ▸ List.mem_cons_self) (hminus m.natAbs)
  · have := toDigits_injective h
    omega

def digits? (s : List Char) : Option Nat :=
  if s ≠ [] ∧ s.all Char.isDigit then some (Nat.ofDigitChars 10 s 0) else none

def signed? : List Char → Option Int
  | '-' :: s => (digits? s).map (fun n => -n)
  | '+' :: s => (digits? s).map (fun n => n)
  | s => (digits? s).map (fun n => n)

def trim (s : List Char) : List Char :=
  ((s.dropWhile Char.isWhitespace).reverse.dropWhile Char.isWhitespace).reverse

-- As QChar has it.
def isSpaceChar (c : Char) : Bool :=
  let n := c.toNat
  n = 0x20 || (0x09 ≤ n && n ≤ 0x0d) || n = 0x85 || n = 0xa0 || n = 0x1680 || (0x2000 ≤ n && n ≤ 0x200a) ||
    n = 0x2028 || n = 0x2029 || n = 0x202f || n = 0x205f || n = 0x3000

def trimmed (t : List Char) : List Char :=
  ((t.dropWhile isSpaceChar).reverse.dropWhile isSpaceChar).reverse

-- Two letters outside ASCII fold to one of it.
def foldCase (c : Char) : Char :=
  if c.toNat = 0x17f then 's'
  else if c.toNat = 0x212a then 'k'
  else c.toLower

def utf16 (t : List Char) : List Nat :=
  t.flatMap fun c =>
    let n := c.toNat
    if n < 0x10000 then [n] else [0xd800 + (n - 0x10000) / 0x400, 0xdc00 + (n - 0x10000) % 0x400]

-- Text that is not a 64-bit number reads as 0.
def toLongLong (s : List Char) : Int :=
  match signed? (trim s) with
  | some n => if -(2 ^ 63) ≤ n ∧ n < 2 ^ 63 then n else 0
  | none => 0

-- Text that is not a 32-bit number reads as 0.
def toInt (s : List Char) : Int :=
  match signed? (trim s) with
  | some n => if -(2 ^ 31) ≤ n ∧ n < 2 ^ 31 then n else 0
  | none => 0

theorem not_isWhitespace_of_isDigit {c : Char} (hc : c.isDigit) : c.isWhitespace = false := by
  simp only [Char.isDigit, Bool.and_eq_true, decide_eq_true_eq] at hc
  simp only [Char.isWhitespace, Bool.or_eq_false_iff, decide_eq_false_iff_not]
  refine ⟨⟨⟨?_, ?_⟩, ?_⟩, ?_⟩ <;> (rintro rfl; revert hc; decide)

theorem dropWhile_isWhitespace_of_visible {s : List Char} (h : ∀ c ∈ s, c.isWhitespace = false) :
    s.dropWhile Char.isWhitespace = s := by
  cases s with
  | nil => rfl
  | cons c s => rw [List.dropWhile_cons_of_neg (by simp [h c List.mem_cons_self])]

theorem trim_of_visible {s : List Char} (h : ∀ c ∈ s, c.isWhitespace = false) : trim s = s := by
  have hr : ∀ c ∈ s.reverse, c.isWhitespace = false := fun c hc => h c (List.mem_reverse.mp hc)
  rw [trim, dropWhile_isWhitespace_of_visible h, dropWhile_isWhitespace_of_visible hr, List.reverse_reverse]

theorem digits?_toDigits (n : Nat) : digits? (Nat.toDigits 10 n) = some n := by
  have hdigits : ∀ c ∈ Nat.toDigits 10 n, c.isDigit :=
    fun c hc => Nat.isDigit_of_mem_toDigits (by decide) (by decide) hc
  rw [digits?, if_pos ⟨Nat.toDigits_ne_nil, List.all_eq_true.mpr hdigits⟩,
    Nat.ofDigitChars_toDigits (by decide) (by decide)]

theorem signed?_number (n : Int) : signed? (trim (number n)) = some n := by
  have hvisible : ∀ c ∈ number n, c.isWhitespace = false := by
    intro c hc
    rcases mem_number hc with rfl | hdigit
    · rfl
    · exact not_isWhitespace_of_isDigit hdigit
  have hdigits : ∀ c ∈ Nat.toDigits 10 n.natAbs, c.isDigit :=
    fun c hc => Nat.isDigit_of_mem_toDigits (by decide) (by decide) hc
  rw [trim_of_visible hvisible]
  unfold number
  split_ifs with hneg
  · rw [signed?, digits?_toDigits]
    change some (-(n.natAbs : Int)) = some n
    rw [Option.some_inj]
    omega
  · unfold signed?
    split
    · rename_i s hs
      exact absurd (hdigits '-' (hs ▸ List.mem_cons_self)) (by decide)
    · rename_i s hs
      exact absurd (hdigits '+' (hs ▸ List.mem_cons_self)) (by decide)
    · rw [digits?_toDigits]
      change some (n.natAbs : Int) = some n
      rw [Option.some_inj]
      omega

-- A number that was written out reads as itself.
theorem toLongLong_toDigits {n : Nat} (h : n < 2 ^ 63) : toLongLong (Nat.toDigits 10 n) = n := by
  have hsigned := signed?_number n
  rw [number, if_neg (by omega), Int.natAbs_natCast] at hsigned
  rw [toLongLong, hsigned]
  exact if_pos (by omega)

end Lib.Text
