import BATorrent.Lib.DataStream
import Mathlib.Data.List.DropRight

namespace Lib.ByteText

open DataStream (Bytes)

def ascii (s : String) : Bytes := s.toList.map fun c => UInt8.ofNat c.toNat

def isSpace (b : UInt8) : Bool := b = 32 || (9 ≤ b && b ≤ 13)

def trimmed (bs : Bytes) : Bytes := (bs.dropWhile isSpace).rdropWhile isSpace

def isDigit (b : UInt8) : Bool := 48 ≤ b && b ≤ 57

def toLower (b : UInt8) : UInt8 := if 65 ≤ b && b ≤ 90 then b + 32 else b

section Trim

theorem not_isSpace_of_digit {b : UInt8} (h : isDigit b = true) : isSpace b = false := by
  unfold isDigit at h
  unfold isSpace
  simp only [Bool.and_eq_true, decide_eq_true_eq, UInt8.le_iff_toNat_le] at h
  simp only [Bool.or_eq_false_iff, decide_eq_false_iff_not, Bool.and_eq_false_iff, UInt8.le_iff_toNat_le,
    ← UInt8.toNat_inj]
  have h48 : (48 : UInt8).toNat = 48 := rfl
  have h9 : (9 : UInt8).toNat = 9 := rfl
  have h13 : (13 : UInt8).toNat = 13 := rfl
  have h32 : (32 : UInt8).toNat = 32 := rfl
  omega

-- What starts and ends with no blank is what is left of it between blanks.
theorem trimmed_append {x : Bytes} {spaces : Bytes} (hhead : ∀ b ∈ x.head?, isSpace b = false)
    (hlast : ∀ b ∈ x.getLast?, isSpace b = false) (hne : x ≠ []) (hspaces : ∀ b ∈ spaces, isSpace b = true) :
    trimmed (x ++ spaces) = x := by
  have hdrop : (x ++ spaces).dropWhile isSpace = x ++ spaces := by
    obtain ⟨b, bs, rfl⟩ := List.exists_cons_of_ne_nil hne
    rw [List.cons_append, List.dropWhile_cons_of_neg]
    rw [hhead b rfl]
    exact Bool.false_ne_true
  unfold trimmed
  rw [hdrop, List.rdropWhile, List.reverse_append]
  have hrev : spaces.reverse.dropWhile isSpace = [] := by
    rw [List.dropWhile_eq_nil_iff]
    exact fun b hb => hspaces b (List.mem_reverse.mp hb)
  rw [List.dropWhile_append, hrev]
  obtain ⟨b, hb⟩ : ∃ b, x.getLast? = some b := Option.isSome_iff_exists.mp (by
    rw [List.getLast?_isSome]
    exact hne)
  obtain ⟨bs, rfl⟩ := List.getLast?_eq_some_iff.mp hb
  have hkeep : isSpace b = false := hlast b hb
  simp [hkeep]

theorem trimmed_skip {spaces : Bytes} (x : Bytes) (hspaces : ∀ b ∈ spaces, isSpace b = true) :
    trimmed (spaces ++ x) = trimmed x := by
  unfold trimmed
  rw [List.dropWhile_append_of_pos hspaces]

end Trim

section Search

def indexOf (pattern : Bytes) : Bytes → Option Nat
  | [] => if pattern = [] then some 0 else none
  | b :: bs =>
      if pattern.isPrefixOf (b :: bs) then some 0 else (indexOf pattern bs).map (· + 1)

def indexFrom (pattern bs : Bytes) (start : Nat) : Option Nat :=
  (indexOf pattern (bs.drop start)).map (· + start)

theorem eq_of_indexOf {pattern bs : Bytes} {i : Nat} (h : indexOf pattern bs = some i) :
    bs = bs.take i ++ pattern ++ bs.drop (i + pattern.length) := by
  induction bs generalizing i with
  | nil =>
      unfold indexOf at h
      split_ifs at h with hempty
      simp [hempty]
  | cons b bs ih =>
      rw [indexOf] at h
      split_ifs at h with hhere
      · obtain rfl := Option.some.inj h
        obtain ⟨rest, hrest⟩ := List.isPrefixOf_iff_prefix.mp hhere
        rw [← hrest]
        simp
      · obtain ⟨j, hj, rfl⟩ := Option.map_eq_some_iff.mp h
        have hrest := ih hj
        rw [Nat.add_right_comm, List.take_succ_cons, List.drop_succ_cons, List.cons_append,
          List.cons_append, ← hrest]

theorem le_of_indexOf {pattern bs : Bytes} {i : Nat} (h : indexOf pattern bs = some i) :
    i ≤ bs.length := by
  induction bs generalizing i with
  | nil =>
      unfold indexOf at h
      split_ifs at h with hempty
      exact (Option.some.inj h).ge
  | cons b bs ih =>
      rw [indexOf] at h
      split_ifs at h with hhere
      · obtain rfl := Option.some.inj h
        exact Nat.zero_le _
      · obtain ⟨j, hj, rfl⟩ := Option.map_eq_some_iff.mp h
        exact Nat.succ_le_succ (ih hj)

theorem add_length_le_of_indexOf {pattern bs : Bytes} {i : Nat} (h : indexOf pattern bs = some i) :
    i + pattern.length ≤ bs.length := by
  have hle := le_of_indexOf h
  have hlen := congrArg List.length (eq_of_indexOf h)
  simp only [List.length_append, List.length_take, List.length_drop] at hlen
  omega

-- A byte is found where it first stands.
theorem notMem_take_of_indexOf {c : UInt8} {bs : Bytes} {i : Nat} (h : indexOf [c] bs = some i) :
    c ∉ bs.take i := by
  induction bs generalizing i with
  | nil => simp
  | cons b bs ih =>
      rw [indexOf] at h
      split_ifs at h with hhere
      · obtain rfl := Option.some.inj h
        simp
      · obtain ⟨j, hj, rfl⟩ := Option.map_eq_some_iff.mp h
        have hne : c ≠ b := by simpa [List.isPrefixOf] using hhere
        rw [List.take_succ_cons, List.mem_cons]
        rintro (heq | hmem)
        · exact hne heq
        · exact ih hj hmem

theorem eq_of_indexFrom {pattern bs : Bytes} {start i : Nat}
    (h : indexFrom pattern bs start = some i) : start ≤ i ∧ i + pattern.length ≤ max start bs.length ∧
      bs.drop i = pattern ++ bs.drop (i + pattern.length) := by
  obtain ⟨j, hj, rfl⟩ := Option.map_eq_some_iff.mp h
  have heq := eq_of_indexOf hj
  have hlt := add_length_le_of_indexOf hj
  rw [List.length_drop] at hlt
  refine ⟨by omega, by omega, ?_⟩
  have hdrop := congrArg (List.drop j) heq
  rw [List.drop_drop, List.append_assoc,
    List.drop_left' (by rw [List.length_take, List.length_drop]; omega), List.drop_drop] at hdrop
  rw [Nat.add_comm j start, hdrop, Nat.add_assoc]

-- What is found stays found when more follows.
theorem indexOf_append {pattern bs : Bytes} {i : Nat} (h : indexOf pattern bs = some i) (more : Bytes) :
    indexOf pattern (bs ++ more) = some i := by
  induction bs generalizing i with
  | nil =>
      unfold indexOf at h
      split_ifs at h with hempty
      obtain rfl := Option.some.inj h
      rw [hempty]
      cases more <;> simp [indexOf]
  | cons b bs ih =>
      rw [indexOf] at h
      rw [List.cons_append, indexOf]
      split_ifs at h with hhere
      · obtain rfl := Option.some.inj h
        rw [if_pos]
        rw [List.isPrefixOf_iff_prefix] at hhere ⊢
        exact hhere.trans (List.prefix_append (b :: bs) more)
      · obtain ⟨j, hj, rfl⟩ := Option.map_eq_some_iff.mp h
        rw [if_neg, ih hj]
        · rfl
        · intro hmore
          have hlen := add_length_le_of_indexOf hj
          have hfits : pattern.length ≤ (b :: bs).length := by
            rw [List.length_cons]
            omega
          refine hhere (List.isPrefixOf_iff_prefix.mpr ?_)
          exact List.prefix_of_prefix_length_le (List.isPrefixOf_iff_prefix.mp hmore)
            (List.prefix_append (b :: bs) more) hfits

theorem indexFrom_append {pattern bs : Bytes} {start i : Nat} (hstart : start ≤ bs.length)
    (h : indexFrom pattern bs start = some i) (more : Bytes) : indexFrom pattern (bs ++ more) start = some i := by
  obtain ⟨j, hj, rfl⟩ := Option.map_eq_some_iff.mp h
  rw [indexFrom, List.drop_append_of_le_length hstart, indexOf_append hj]
  rfl

-- What starts with another byte is passed over.
theorem indexOf_skip {x pattern : Bytes} {c : UInt8} (hx : ∀ b ∈ x, b ≠ c) (hpattern : pattern.head? = some c)
    (more : Bytes) : indexOf pattern (x ++ (pattern ++ more)) = some x.length := by
  obtain ⟨rest, rfl⟩ := List.head?_eq_some_iff.mp hpattern
  induction x with
  | nil => exact if_pos (List.isPrefixOf_iff_prefix.mpr (List.prefix_append (c :: rest) more))
  | cons b x ih =>
      rw [List.cons_append, indexOf, if_neg, ih fun b hb => hx b (List.mem_cons_of_mem _ hb)]
      · rfl
      · intro hhere
        have hstarts := (List.cons_prefix_cons.mp (List.isPrefixOf_iff_prefix.mp hhere)).1
        exact hx b List.mem_cons_self hstarts.symm

-- So is what has no occurrence, as far as a byte that keeps one from running on.
theorem indexOf_past {content pattern gap : Bytes} {c g : UInt8} (hcontent : ¬ pattern <:+: content)
    (hgap : ∀ b ∈ g :: gap, b ∉ pattern) (hpattern : pattern.head? = some c) (more : Bytes) :
    indexOf pattern (content ++ (g :: gap ++ (pattern ++ more))) = some (content.length + (gap.length + 1)) := by
  have hc : c ∈ pattern := List.mem_of_mem_head? hpattern
  induction content with
  | nil =>
      rw [List.nil_append, indexOf_skip (fun b hb heq => hgap b hb (heq ▸ hc)) hpattern]
      exact congrArg some (Nat.zero_add _).symm
  | cons b content ih =>
      rw [List.cons_append, indexOf, if_neg, ih fun h => hcontent (h.trans (List.suffix_cons b content).isInfix)]
      · rw [Option.map_some, List.length_cons, Nat.add_right_comm]
      · intro hhere
        have hstarts := List.isPrefixOf_iff_prefix.mp hhere
        rw [← List.cons_append] at hstarts
        by_cases hfits : pattern.length ≤ (b :: content).length
        · exact hcontent (List.prefix_of_prefix_length_le hstarts (List.prefix_append (b :: content) _) hfits).isInfix
        · have hover : (b :: content) ++ [g] <+: pattern := by
            refine List.prefix_of_prefix_length_le ?_ hstarts ?_
            · exact (List.prefix_append_right_inj (b :: content)).mpr ⟨gap ++ (pattern ++ more), rfl⟩
            · rw [List.length_append]
              exact Nat.lt_of_not_le hfits
          exact hgap g List.mem_cons_self (hover.subset (List.mem_append_right _ List.mem_cons_self))

end Search

section Decoding

def base64Digit (b : UInt8) : Option Nat :=
  let n := b.toNat
  if 65 ≤ n ∧ n ≤ 90 then some (n - 65)
  else if 97 ≤ n ∧ n ≤ 122 then some (n - 97 + 26)
  else if 48 ≤ n ∧ n ≤ 57 then some (n - 48 + 52)
  else if n = 43 then some 62
  else if n = 47 then some 63
  else none

-- What is no digit is skipped, and bits that make up no byte are dropped.
def base64Loop (bits held : Nat) : Bytes → Bytes
  | [] => []
  | b :: bs =>
      match base64Digit b with
      | none => base64Loop bits held bs
      | some d =>
          let held := held * 64 + d
          if bits + 6 < 8 then base64Loop (bits + 6) held bs
          else
            let bits := bits + 6 - 8
            UInt8.ofNat (held / 2 ^ bits) :: base64Loop bits (held % 2 ^ bits) bs

def fromBase64 (bs : Bytes) : Bytes := base64Loop 0 0 bs

def hexDigit (b : UInt8) : Option Nat :=
  let n := b.toNat
  if 48 ≤ n ∧ n ≤ 57 then some (n - 48)
  else if 97 ≤ n ∧ n ≤ 102 then some (n - 97 + 10)
  else if 65 ≤ n ∧ n ≤ 70 then some (n - 65 + 10)
  else none

def hexChar (n : Nat) : UInt8 := UInt8.ofNat (if n < 10 then 48 + n else 87 + n)

def toHex (bs : Bytes) : Bytes :=
  bs.flatMap fun b => [hexChar (b.toNat / 16), hexChar (b.toNat % 16)]

-- Read from the end, so that the first of an odd number of digits is a byte of its own.
def hexPairs : List Nat → List UInt8
  | [] => []
  | [low] => [UInt8.ofNat low]
  | low :: high :: rest => UInt8.ofNat (high * 16 + low) :: hexPairs rest

def fromHex (bs : Bytes) : Bytes := (hexPairs (bs.filterMap hexDigit).reverse).reverse

-- A digit that is none stands for itself.
def percentByte (high low : UInt8) : UInt8 :=
  UInt8.ofNat ((hexDigit high).getD high.toNat * 16 ||| (hexDigit low).getD low.toNat)

def fromPercentEncoding : Bytes → Bytes
  | [] => []
  | [b] => [b]
  | [b, c] => [b, c]
  | b :: c :: d :: bs =>
      if b = 37 then percentByte c d :: fromPercentEncoding bs
      else b :: fromPercentEncoding (c :: d :: bs)

def digitsValue (bs : Bytes) : Option Int :=
  if bs ≠ [] ∧ bs.all (fun b => 48 ≤ b && b ≤ 57) then
    some (bs.foldl (fun n b => n * 10 + (b.toNat - 48)) 0 : Nat)
  else none

-- None for what is no number of 32 bits.
def toInt32 (bs : Bytes) : Option Int32 :=
  let value :=
    match trimmed bs with
    | 45 :: digits => (digitsValue digits).map (- ·)
    | 43 :: digits => digitsValue digits
    | digits => digitsValue digits
  value.bind fun n => if -2 ^ 31 ≤ n ∧ n < 2 ^ 31 then some (Int32.ofInt n) else none

end Decoding

end Lib.ByteText
