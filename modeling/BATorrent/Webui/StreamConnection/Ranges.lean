import BATorrent.Webui.StreamConnection
import Mathlib.Data.List.TakeWhile

namespace BATorrent.StreamConnection

open Lib Lib.ByteText
open Lib.DataStream (Bytes)

structure Digits where
  bytes : Bytes
  ne_nil : bytes ≠ []
  digits : ∀ b ∈ bytes, isDigit b = true

def Digits.value (d : Digits) : Nat := number d.bytes

-- A range of bytes as the standard has it: from one position to another that is not before it, from a
-- position on, or so many at the end.
inductive ByteRange where
  | fromTo (first last : Digits) (ordered : first.value ≤ last.value)
  | startingAt (first : Digits)
  | suffix (length : Digits)

namespace ByteRange

def text : ByteRange → Bytes × Bytes
  | fromTo first last _ => (first.bytes, last.bytes)
  | startingAt first => (first.bytes, [])
  | suffix length => ([], length.bytes)

-- The part of a file of this size that it stands for, and none where there is no such part.
def interval (size : Int) : ByteRange → Option (Int × Int)
  | fromTo first last _ =>
      if (first.value : Int) < size then some (first.value, min last.value (size - 1)) else none
  | startingAt first => if (first.value : Int) < size then some (first.value, size - 1) else none
  | suffix length => if length.value = 0 then none else some (max 0 (size - length.value), size - 1)

-- Where the server takes a range for what it is: a number fits, or makes no difference, and so many at
-- the end are the whole file.
def Taken (size : Int) : ByteRange → Prop
  | fromTo first last _ => first.value < 2 ^ 63 ∧ (last.value < 2 ^ 63 ∨ size ≤ first.value ∨ size = 1)
  | startingAt first => first.value < 2 ^ 63
  | suffix length => size ≤ length.value ∧ (length.value < 2 ^ 63 ∨ size = 1)

end ByteRange

-- A header block whose range is this one, however it is written.
structure RangeRequest where
  headers : Bytes
  range : ByteRange
  before : List Bytes
  name : Bytes
  gap : Bytes
  rest : Bytes
  after : List Bytes
  before_not : ∀ line ∈ before, isRangeLine line = false
  name_eq : name.map toLower = ascii "range"
  gap_spaces : ∀ b ∈ gap, isSpace b = true
  rest_spaces : ∀ b ∈ rest, isSpace b = true
  lines : headers.splitOn 10 =
    before ++ (name ++ 58 :: gap ++ ascii "bytes=" ++ range.text.1 ++ 45 :: range.text.2 ++ rest) :: after

section Match

theorem matchRange_skip {pre rest : Bytes} (h : (98 : UInt8) ∉ pre) : matchRange (pre ++ rest) = matchRange rest := by
  induction pre with
  | nil => rfl
  | cons b pre ih =>
      obtain ⟨hb, hpre⟩ := not_or.mp (List.mem_cons.not.mp h)
      rw [List.cons_append, matchRange, if_neg]
      · exact ih hpre
      · intro hprefix
        have hbytes : ascii "bytes=" = 98 :: ascii "ytes=" := rfl
        rw [hbytes, List.isPrefixOf, Bool.and_eq_true, beq_iff_eq] at hprefix
        exact hb hprefix.1

theorem matchRange_bytes {first last : Bytes} (hfirst : ∀ b ∈ first, isDigit b = true)
    (hlast : ∀ b ∈ last, isDigit b = true) : matchRange (ascii "bytes=" ++ first ++ 45 :: last) = some (first, last) := by
  have hbytes : ascii "bytes=" = 98 :: ascii "ytes=" := rfl
  have hprefix : (ascii "bytes=").isPrefixOf (98 :: (ascii "ytes=" ++ first ++ 45 :: last)) = true := by
    rw [List.isPrefixOf_iff_prefix, hbytes, List.append_assoc]
    exact List.prefix_append (98 :: ascii "ytes=") _
  have hdash : isDigit 45 = false := rfl
  have htake : (first ++ 45 :: last).takeWhile isDigit = first := by
    rw [List.takeWhile_append_of_pos hfirst, List.takeWhile_cons_of_neg (by rw [hdash]; exact Bool.false_ne_true),
      List.append_nil]
  have hdrop : (first ++ 45 :: last).dropWhile isDigit = 45 :: last := by
    rw [List.dropWhile_append_of_pos hfirst, List.dropWhile_cons_of_neg (by rw [hdash]; exact Bool.false_ne_true)]
  have hwhole : last.takeWhile isDigit = last := List.takeWhile_eq_self_iff.mpr hlast
  have hrest : (ascii "ytes=" ++ first ++ 45 :: last).drop 5 = first ++ 45 :: last := by
    rw [List.append_assoc]
    exact List.drop_left' rfl
  rw [hbytes, List.cons_append, List.cons_append, matchRange, if_pos hprefix]
  dsimp only
  rw [hrest, hdrop, htake]
  exact congrArg (fun l => some (first, l)) hwhole

end Match

section Header

theorem digits_text (r : ByteRange) :
    (∀ b ∈ r.text.1, isDigit b = true) ∧ ∀ b ∈ r.text.2, isDigit b = true := by
  cases r with
  | fromTo first last ordered => exact ⟨first.digits, last.digits⟩
  | startingAt first => exact ⟨first.digits, nofun⟩
  | suffix length => exact ⟨nofun, length.digits⟩

variable (q : RangeRequest)

-- The line of the header without the blanks at its end.
def RangeRequest.field : Bytes := q.name ++ 58 :: q.gap ++ ascii "bytes=" ++ q.range.text.1 ++ 45 :: q.range.text.2

theorem trimmed_line : trimmed (q.field ++ q.rest) = q.field := by
  obtain ⟨b, bs, hname⟩ : ∃ b bs, q.name = b :: bs := by
    refine List.exists_cons_of_ne_nil fun hnil => ?_
    have heq := q.name_eq
    rw [hnil] at heq
    cases heq
  refine trimmed_append ?_ ?_ ?_ q.rest_spaces
  · intro c hc
    have hcons : q.field = b :: (bs ++ 58 :: q.gap ++ ascii "bytes=" ++ q.range.text.1 ++ 45 :: q.range.text.2) := by
      unfold RangeRequest.field
      rw [hname]
      simp
    rw [hcons] at hc
    obtain rfl := Option.some.inj hc
    have hlower : toLower b = 114 := by
      have heq := q.name_eq
      rw [hname, List.map_cons] at heq
      exact (List.cons.inj heq).1
    by_contra hspace
    have hspace' : isSpace b = true := by simpa using hspace
    unfold isSpace at hspace'
    unfold toLower at hlower
    simp only [Bool.or_eq_true, Bool.and_eq_true, decide_eq_true_eq, UInt8.le_iff_toNat_le,
      ← UInt8.toNat_inj] at hspace'
    have h32 : (32 : UInt8).toNat = 32 := rfl
    have h9 : (9 : UInt8).toNat = 9 := rfl
    have h13 : (13 : UInt8).toNat = 13 := rfl
    have h65 : (65 : UInt8).toNat = 65 := rfl
    rw [if_neg (by simp only [Bool.and_eq_true, decide_eq_true_eq, UInt8.le_iff_toNat_le]; omega)] at hlower
    rw [hlower] at hspace'
    have h114 : (114 : UInt8).toNat = 114 := rfl
    omega
  · intro c hc
    have hlast : q.field.getLast? = (45 :: q.range.text.2).getLast? := by
      unfold RangeRequest.field
      rw [List.getLast?_append_of_ne_nil _ (List.cons_ne_nil _ _)]
    rw [hlast] at hc
    rcases List.mem_cons.mp (List.mem_of_getLast? hc) with rfl | hmem
    · rfl
    · exact not_isSpace_of_digit ((digits_text q.range).2 c hmem)
  · unfold RangeRequest.field
    simp

theorem isRangeLine_line : isRangeLine (q.field ++ q.rest) = true := by
  unfold isRangeLine
  rw [trimmed_line, List.isPrefixOf_iff_prefix]
  have hmap : q.field.map toLower =
      ascii "range:" ++ (q.gap ++ ascii "bytes=" ++ q.range.text.1 ++ 45 :: q.range.text.2).map toLower := by
    have hsplit : q.field = q.name ++ ([58] ++ (q.gap ++ ascii "bytes=" ++ q.range.text.1 ++ 45 :: q.range.text.2)) := by
      unfold RangeRequest.field
      simp
    rw [hsplit, List.map_append, List.map_append, q.name_eq]
    rfl
  rw [hmap]
  exact List.prefix_append _ _

theorem matchRange_line : matchRange q.field = some q.range.text := by
  have hsplit : q.field = (q.name ++ 58 :: q.gap) ++ (ascii "bytes=" ++ q.range.text.1 ++ 45 :: q.range.text.2) := by
    unfold RangeRequest.field
    simp
  rw [hsplit, matchRange_skip, matchRange_bytes (digits_text q.range).1 (digits_text q.range).2]
  intro hmem
  rcases List.mem_append.mp hmem with hname | hgap
  · have hlower : toLower 98 ∈ q.name.map toLower := List.mem_map_of_mem hname
    rw [q.name_eq] at hlower
    exact absurd hlower (by decide)
  · rcases List.mem_cons.mp hgap with h58 | hgap
    · exact absurd h58 (by decide)
    · exact absurd (q.gap_spaces 98 hgap) (by decide)

-- What the server reads off the header.
theorem rangeOf_request (size : Int) :
    rangeOf q.headers size =
      ⟨true, if q.range.text.1 = [] then 0 else toLongLong q.range.text.1,
        if q.range.text.2 = [] then size - 1 else toLongLong q.range.text.2⟩ := by
  unfold rangeOf
  have hfind : (q.headers.splitOn 10).find? isRangeLine = some (q.field ++ q.rest) := by
    rw [q.lines, List.find?_append, List.find?_eq_none.mpr fun line hline => by rw [q.before_not line hline]; exact Bool.false_ne_true,
      Option.none_or]
    exact List.find?_cons_of_pos (isRangeLine_line q)
  rw [hfind]
  dsimp only
  rw [trimmed_line, matchRange_line]

-- The interval that the server settles on is the one of the standard exactly where it takes the range
-- for what it is.
theorem clamp_eq_interval_iff {size : Int} (hpos : 0 < size) (hsize : size < 2 ^ 63) :
    (match q.range.interval size with
      | none => ((rangeOf q.headers size).clamp size).last < ((rangeOf q.headers size).clamp size).start
      | some (first, last) => (rangeOf q.headers size).clamp size = ⟨true, first, last⟩ ∧ first ≤ last) ↔
      q.range.Taken size := by
  rw [rangeOf_request]
  cases q.range with
  | fromTo first last ordered =>
      have hfirst : toLongLong first.bytes = if first.value < 2 ^ 63 then (first.value : Int) else 0 := rfl
      have hlast : toLongLong last.bytes = if last.value < 2 ^ 63 then (last.value : Int) else 0 := rfl
      simp only [ByteRange.text, ByteRange.interval, ByteRange.Taken, Range.clamp, if_neg first.ne_nil,
        if_neg last.ne_nil, hfirst, hlast]
      by_cases hin : (first.value : Int) < size
      · rw [if_pos hin]
        simp only [Range.mk.injEq, true_and]
        split_ifs <;> omega
      · rw [if_neg hin]
        simp only
        split_ifs <;> omega
  | startingAt first =>
      have hfirst : toLongLong first.bytes = if first.value < 2 ^ 63 then (first.value : Int) else 0 := rfl
      simp only [ByteRange.text, ByteRange.interval, ByteRange.Taken, Range.clamp, if_neg first.ne_nil, hfirst,
        if_true]
      by_cases hin : (first.value : Int) < size
      · rw [if_pos hin]
        simp only [Range.mk.injEq, true_and]
        split_ifs <;> omega
      · rw [if_neg hin]
        simp only
        split_ifs <;> omega
  | suffix length =>
      have hlength : toLongLong length.bytes = if length.value < 2 ^ 63 then (length.value : Int) else 0 := rfl
      simp only [ByteRange.text, ByteRange.interval, ByteRange.Taken, Range.clamp, if_neg length.ne_nil, hlength,
        if_true]
      by_cases hzero : length.value = 0
      · rw [if_pos hzero]
        simp only
        split_ifs <;> omega
      · rw [if_neg hzero]
        simp only [Range.mk.injEq, true_and]
        split_ifs <;> omega

end Header

end BATorrent.StreamConnection
