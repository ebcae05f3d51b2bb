import BATorrent.Services.SubtitleParser
import Mathlib.Data.List.TakeWhile

namespace BATorrent.SubtitleParser

open Lib
open Text (isSpaceChar)

section Trimmed

variable {t ws : Text}

theorem trimmed_space_append (hws : ∀ c ∈ ws, isSpaceChar c = true) : Text.trimmed (ws ++ t) = Text.trimmed t := by
  unfold Text.trimmed
  rw [List.dropWhile_append_of_pos hws]

theorem trimmed_append_space (hws : ∀ c ∈ ws, isSpaceChar c = true) : Text.trimmed (t ++ ws) = Text.trimmed t := by
  unfold Text.trimmed
  have hreverse : ∀ c ∈ ws.reverse, isSpaceChar c = true := by
    intro c hc
    exact hws c (List.mem_reverse.mp hc)
  rw [List.dropWhile_append]
  by_cases hempty : (t.dropWhile isSpaceChar).isEmpty = true
  · have hnil : t.dropWhile isSpaceChar = [] := List.isEmpty_iff.mp hempty
    have hdrop : ws.dropWhile isSpaceChar = [] := List.dropWhile_eq_nil_iff.mpr hws
    rw [if_pos hempty, hnil, hdrop]
  · rw [if_neg hempty, List.reverse_append, List.dropWhile_append_of_pos hreverse]

-- Text with no space at its ends is left alone.
theorem trimmed_of_ends (hhead : ∀ c ∈ t.head?, isSpaceChar c = false)
    (hlast : ∀ c ∈ t.getLast?, isSpaceChar c = false) : Text.trimmed t = t := by
  have hdrop : ∀ t : Text, (∀ c ∈ t.head?, isSpaceChar c = false) → t.dropWhile isSpaceChar = t := by
    intro t ht
    cases t with
    | nil => rfl
    | cons c t => rw [List.dropWhile_cons, if_neg (by rw [ht c rfl]; exact Bool.false_ne_true)]
  unfold Text.trimmed
  rw [hdrop t hhead, hdrop t.reverse (by rw [List.head?_reverse]; exact hlast), List.reverse_reverse]

theorem trimmed_of_visible (h : ∀ c ∈ t, isSpaceChar c = false) : Text.trimmed t = t := by
  apply trimmed_of_ends
  · exact fun c hc => h c (List.mem_of_mem_head? hc)
  · exact fun c hc => h c (List.mem_of_mem_getLast? hc)

theorem trimmed_eq_nil_iff : Text.trimmed t = [] ↔ ∀ c ∈ t, isSpaceChar c = true := by
  constructor
  · intro h
    have hdrop : ∀ c ∈ t.dropWhile isSpaceChar, isSpaceChar c = true := by
      intro c hc
      exact List.dropWhile_eq_nil_iff.mp (List.reverse_eq_nil_iff.mp h) c (List.mem_reverse.mpr hc)
    apply List.dropWhile_eq_nil_iff.mp
    by_contra hne
    have hhead := List.head_dropWhile_not isSpaceChar hne
    rw [hdrop _ (List.head_mem hne)] at hhead
    exact Bool.noConfusion hhead
  · intro h
    have hnil := trimmed_space_append (t := []) h
    rw [List.append_nil] at hnil
    exact hnil

-- Text is what is left of it when the space behind it is cut off, and that space.
theorem exists_space_end (t : Text) :
    ∃ body ws, t = body ++ ws ∧ (∀ c ∈ ws, isSpaceChar c = true) ∧
      ∀ c ∈ body.getLast?, isSpaceChar c = false := by
  induction t using List.reverseRecOn with
  | nil => exact ⟨[], [], rfl, fun c hc => absurd hc List.not_mem_nil, fun c hc => by cases hc⟩
  | append_singleton t c ih =>
      cases hc : isSpaceChar c with
      | false =>
          refine ⟨t ++ [c], [], (List.append_nil _).symm, fun c hc => absurd hc List.not_mem_nil, ?_⟩
          intro c' hc'
          rw [List.getLast?_concat] at hc'
          cases hc'
          exact hc
      | true =>
          obtain ⟨body, ws, rfl, hws, hbody⟩ := ih
          refine ⟨body, ws ++ [c], List.append_assoc _ _ _, ?_, hbody⟩
          intro c' hc'
          cases List.mem_append.mp hc' with
          | inl hmem => exact hws c' hmem
          | inr hmem =>
              rw [List.mem_singleton.mp hmem]
              exact hc

end Trimmed

section Stamps

variable {ds rest : Text}

-- Digits are read up to what follows them, where there are not too many.
theorem digitsUpTo_append {limit : Nat} (hds : ∀ c ∈ ds, c.isDigit = true)
    (hrest : ∀ c ∈ rest.head?, c.isDigit = false) :
    digitsUpTo limit (ds ++ rest) = if 1 ≤ ds.length ∧ ds.length ≤ limit then some (ds, rest) else none := by
  have hstop : rest.takeWhile Char.isDigit = [] := by
    cases rest with
    | nil => rfl
    | cons c rest => rw [List.takeWhile_cons, if_neg (by rw [hrest c rfl]; exact Bool.false_ne_true)]
  have htake : (ds ++ rest).takeWhile Char.isDigit = ds := by
    rw [List.takeWhile_append_of_pos hds, hstop, List.append_nil]
  rw [digitsUpTo, htake, List.drop_left]

theorem digit_spec : ∀ n < 10, (digit n).isDigit = true ∧ (digit n).toNat = 48 + n := by decide

theorem isDigit_digit {n : Nat} (h : n < 10) : (digit n).isDigit = true := (digit_spec n h).1

theorem number_two {n : Nat} (h : n < 100) : number (two n) = n := by
  have htens := (digit_spec (n / 10) (by omega)).2
  have hones := (digit_spec (n % 10) (by omega)).2
  simp only [number, two, Nat.ofDigitChars, List.foldl_cons, List.foldl_nil, htens, hones]
  simp only [show '0'.toNat = 48 from rfl]
  omega

theorem number_three {n : Nat} (h : n < 1000) : number (three n) = n := by
  have hhundreds := (digit_spec (n / 100) (by omega)).2
  have htens := (digit_spec (n / 10 % 10) (by omega)).2
  have hones := (digit_spec (n % 10) (by omega)).2
  simp only [number, three, Nat.ofDigitChars, List.foldl_cons, List.foldl_nil, hhundreds, htens, hones]
  simp only [show '0'.toNat = 48 from rfl]
  omega

theorem isSpaceChar_of_isDigit {c : Char} (h : c.isDigit = true) : isSpaceChar c = false := by
  simp only [Char.isDigit, Bool.and_eq_true, decide_eq_true_eq, UInt32.le_iff_toNat_le] at h
  have hlow : 48 ≤ c.toNat := h.1
  have hhigh : c.toNat ≤ 57 := h.2
  simp only [isSpaceChar, Bool.or_eq_false_iff, Bool.and_eq_false_iff, decide_eq_false_iff_not]
  omega

variable (t : Stamp)

theorem isDigit_two {n : Nat} (h : n < 60) : ∀ c ∈ two n, c.isDigit = true := by
  intro c hc
  rcases List.mem_cons.mp hc with rfl | hc
  · exact isDigit_digit (by omega)
  · rw [List.mem_singleton.mp hc]
    exact isDigit_digit (by omega)

theorem isDigit_three {n : Nat} (h : n < 1000) : ∀ c ∈ three n, c.isDigit = true := by
  intro c hc
  rcases List.mem_cons.mp hc with rfl | hc
  · exact isDigit_digit (by omega)
  rcases List.mem_cons.mp hc with rfl | hc
  · exact isDigit_digit (by omega)
  · rw [List.mem_singleton.mp hc]
    exact isDigit_digit (by omega)

theorem notDigit_colon {y : Text} : ∀ c ∈ (':' :: y).head?, c.isDigit = false := by
  intro c hc
  cases hc
  decide

theorem notDigit_sep {sep : Char} {y : Text} (hsep : sep = '.' ∨ sep = ',') :
    ∀ c ∈ (sep :: y).head?, c.isDigit = false := by
  intro c hc
  cases hc
  rcases hsep with rfl | rfl <;> decide

theorem digitsUpTo_two {n : Nat} (hn : n < 60) (hrest : ∀ c ∈ rest.head?, c.isDigit = false) :
    digitsUpTo 2 (two n ++ rest) = some (two n, rest) := by
  rw [digitsUpTo_append (isDigit_two hn) hrest]
  rfl

-- The end of a time, with what follows it.
theorem secondsAndMillis_tail {sep : Char} (hsep : sep = '.' ∨ sep = ',') {y : Text}
    (hy : ∀ c ∈ y.head?, c.isDigit = false) :
    secondsAndMillis (two t.seconds ++ sep :: (three t.millis ++ y)) =
      if y = [] then some (two t.seconds, three t.millis) else none := by
  have hthree : digitsUpTo 3 (three t.millis ++ y) = some (three t.millis, y) := by
    rw [digitsUpTo_append (isDigit_three t.millis_lt) hy]
    rfl
  rw [secondsAndMillis, digitsUpTo_two t.seconds_lt (notDigit_sep hsep)]
  simp only [Option.bind_eq_bind, Option.bind_some]
  rw [if_pos hsep, hthree]
  rfl

theorem secondsAndMillis_colon (n : Nat) (hn : n < 60) (y : Text) :
    secondsAndMillis (two n ++ ':' :: y) = none := by
  rw [secondsAndMillis, digitsUpTo_two hn notDigit_colon]
  rfl

theorem millis_tail (h : Text) :
    millis h (two t.minutes) (two t.seconds) (three t.millis) =
      ((number h * 60 + t.minutes) * 60 + t.seconds) * 1000 + t.millis := by
  have hjustified : leftJustified 3 '0' (three t.millis) = three t.millis := List.append_nil _
  rw [millis, hjustified, number_two (Nat.lt_of_lt_of_le t.minutes_lt (by decide)),
    number_two (Nat.lt_of_lt_of_le t.seconds_lt (by decide)), number_three t.millis_lt]

theorem tail_append (sep : Char) (y : Text) :
    t.tail sep ++ y = two t.minutes ++ ':' :: (two t.seconds ++ sep :: (three t.millis ++ y)) := by
  simp only [Stamp.tail, List.append_assoc, List.cons_append]

theorem withoutHours_tail {sep : Char} (hsep : sep = '.' ∨ sep = ',') {y : Text}
    (hy : ∀ c ∈ y.head?, c.isDigit = false) :
    withoutHours (t.tail sep ++ y) =
      if y = [] then some (millis [] (two t.minutes) (two t.seconds) (three t.millis)) else none := by
  rw [tail_append, withoutHours, digitsUpTo_two t.minutes_lt notDigit_colon]
  simp only [Option.bind_eq_bind, Option.bind_some, afterColon]
  rw [secondsAndMillis_tail t hsep hy]
  by_cases hend : y = []
  · rw [if_pos hend, if_pos hend]
    rfl
  · rw [if_neg hend, if_neg hend]
    rfl

theorem withHours_tail {sep : Char} (hsep : sep = '.' ∨ sep = ',') (y : Text) :
    withHours (t.tail sep ++ y) = none := by
  rw [tail_append, withHours, digitsUpTo_two t.minutes_lt notDigit_colon]
  simp only [Option.bind_eq_bind, Option.bind_some, afterColon]
  rw [digitsUpTo_two t.seconds_lt (notDigit_sep hsep)]
  rcases hsep with rfl | rfl <;> rfl

-- A time is read where it has no more than two digits for the hours and nothing follows it.
theorem read_spelled {sep : Char} (hsep : sep = '.' ∨ sep = ',') {y : Text}
    (hy : ∀ c ∈ y.head?, c.isDigit = false) :
    (withHours (t.spelled sep ++ y)).or (withoutHours (t.spelled sep ++ y)) =
      if t.hours.length ≤ 2 ∧ y = [] then some t.value else none := by
  rw [Stamp.spelled]
  by_cases hhours : t.hours = []
  · rw [if_pos hhours, withHours_tail t hsep, withoutHours_tail t hsep hy, millis_tail, Stamp.value, hhours,
      Option.none_or]
    by_cases hend : y = []
    · rw [if_pos hend, if_pos ⟨Nat.zero_le 2, hend⟩]
    · rw [if_neg hend, if_neg fun h => hend h.2]
  · have hpos : 1 ≤ t.hours.length := List.length_pos_iff.mpr hhours
    have hsplit : t.hours ++ ':' :: t.tail sep ++ y = t.hours ++ ':' :: (t.tail sep ++ y) := by
      rw [List.append_assoc, List.cons_append]
    rw [if_neg hhours, hsplit, withHours, withoutHours, digitsUpTo_append t.digits notDigit_colon]
    by_cases hwidth : t.hours.length ≤ 2
    · rw [if_pos ⟨hpos, hwidth⟩]
      simp only [Option.bind_eq_bind, Option.bind_some, afterColon, tail_append]
      rw [digitsUpTo_two t.minutes_lt notDigit_colon, secondsAndMillis_colon t.minutes t.minutes_lt]
      simp only [Option.bind_some, Option.bind_none, Option.or_none]
      rw [secondsAndMillis_tail t hsep hy]
      by_cases hend : y = []
      · rw [if_pos hend, if_pos ⟨hwidth, hend⟩, Option.bind_some, millis_tail]
        rfl
      · rw [if_neg hend, if_neg fun h => hend h.2]
        rfl
    · rw [if_neg fun h => hwidth h.2, if_neg fun h => hwidth h.1]
      rfl

theorem mem_spelled {sep c : Char} (hc : c ∈ t.spelled sep) : c.isDigit = true ∨ c = ':' ∨ c = sep := by
  have htail : c ∈ t.tail sep → c.isDigit = true ∨ c = ':' ∨ c = sep := by
    intro hc
    rw [Stamp.tail] at hc
    rcases List.mem_append.mp hc with hc | hc
    · exact .inl (isDigit_two t.minutes_lt c hc)
    rcases List.mem_cons.mp hc with rfl | hc
    · exact .inr (.inl rfl)
    rcases List.mem_append.mp hc with hc | hc
    · exact .inl (isDigit_two t.seconds_lt c hc)
    rcases List.mem_cons.mp hc with rfl | hc
    · exact .inr (.inr rfl)
    · exact .inl (isDigit_three t.millis_lt c hc)
  rw [Stamp.spelled] at hc
  by_cases hhours : t.hours = []
  · rw [if_pos hhours] at hc
    exact htail hc
  · rw [if_neg hhours] at hc
    rcases List.mem_append.mp hc with hc | hc
    · exact .inl (t.digits c hc)
    rcases List.mem_cons.mp hc with rfl | hc
    · exact .inr (.inl rfl)
    · exact htail hc

theorem visible_spelled {sep : Char} (hsep : sep = '.' ∨ sep = ',') : ∀ c ∈ t.spelled sep, isSpaceChar c = false := by
  intro c hc
  rcases mem_spelled t hc with hdigit | rfl | rfl
  · exact isSpaceChar_of_isDigit hdigit
  · decide
  · rcases hsep with rfl | rfl <;> decide

theorem hyphen_notMem_spelled {sep : Char} (hsep : sep = '.' ∨ sep = ',') : '-' ∉ t.spelled sep := by
  intro hc
  rcases mem_spelled t hc with hdigit | hcolon | hpoint
  · revert hdigit
    decide
  · revert hcolon
    decide
  · rcases hsep with rfl | rfl <;> (revert hpoint; decide)

theorem head_spelled (sep : Char) : ∃ c rest, t.spelled sep = c :: rest ∧ c.isDigit = true := by
  have hminutes := t.minutes_lt
  rw [Stamp.spelled]
  cases hhours : t.hours with
  | nil =>
      rw [if_pos rfl]
      exact ⟨_, _, rfl, isDigit_digit (by omega)⟩
  | cons c hours =>
      rw [if_neg (List.cons_ne_nil c hours)]
      exact ⟨c, _, rfl, t.digits c (by rw [hhours]; exact List.mem_cons_self)⟩

theorem parseTimestamp_of_trimmed {sep : Char} (hsep : sep = '.' ∨ sep = ',') {y ts : Text}
    (hy : ∀ c ∈ y.head?, c.isDigit = false) (hts : Text.trimmed ts = t.spelled sep ++ y) :
    parseTimestamp ts = if t.hours.length ≤ 2 ∧ y = [] then t.value else -1 := by
  rw [parseTimestamp, hts, read_spelled t hsep hy]
  by_cases hread : t.hours.length ≤ 2 ∧ y = []
  · rw [if_pos hread, if_pos hread]
    rfl
  · rw [if_neg hread, if_neg hread]
    rfl

-- The time in front of the arrow.
theorem parseTimestamp_start {sep : Char} (hsep : sep = '.' ∨ sep = ',') {ws : Text}
    (hws : ∀ c ∈ ws, isSpaceChar c = true) :
    parseTimestamp (t.spelled sep ++ ws) = if t.hours.length ≤ 2 then t.value else -1 := by
  have htrimmed : Text.trimmed (t.spelled sep ++ ws) = t.spelled sep ++ [] := by
    rw [trimmed_append_space hws, trimmed_of_visible (visible_spelled t hsep), List.append_nil]
  rw [parseTimestamp_of_trimmed t hsep (fun c hc => by cases hc) htrimmed]
  simp only [and_true]

theorem trimmed_spelled_append {sep : Char} (hsep : sep = '.' ∨ sep = ',') {body : Text}
    (hbody : ∀ c ∈ body.getLast?, isSpaceChar c = false) :
    Text.trimmed (t.spelled sep ++ body) = t.spelled sep ++ body := by
  obtain ⟨c, rest, hhead, hdigit⟩ := head_spelled t sep
  apply trimmed_of_ends
  · intro c' hc'
    rw [hhead] at hc'
    cases hc'
    exact isSpaceChar_of_isDigit hdigit
  · intro c' hc'
    cases hlast : body.getLast? with
    | none =>
        have hnil : body = [] := List.getLast?_eq_none_iff.mp hlast
        rw [hnil, List.append_nil] at hc'
        exact visible_spelled t hsep c' (List.mem_of_mem_getLast? hc')
    | some last =>
        have hne : body ≠ [] := by
          rintro rfl
          cases hlast
        rw [List.getLast?_append_of_ne_nil _ hne] at hc'
        exact hbody c' hc'

-- The settings are off the end time where nothing but space stands before the first space character.
def Apart (settings : Text) : Prop := ∀ c ∈ settings.takeWhile (· ≠ ' '), isSpaceChar c = true

theorem apart_append {body ws : Text} (hws : ∀ c ∈ ws, isSpaceChar c = true) :
    Apart (body ++ ws) ↔ Apart body := by
  unfold Apart
  rw [List.takeWhile_append]
  by_cases hall : (body.takeWhile (· ≠ ' ')).length = body.length
  · rw [if_pos hall]
    have hbody : body.takeWhile (· ≠ ' ') = body := (List.takeWhile_prefix _).eq_of_length hall
    rw [hbody]
    constructor
    · exact fun h c hc => h c (List.mem_append_left _ hc)
    · intro h c hc
      cases List.mem_append.mp hc with
      | inl hc => exact h c hc
      | inr hc => exact hws c ((List.takeWhile_sublist _).subset hc)
  · rw [if_neg hall]

-- The time behind the arrow, up to the settings.
theorem parseTimestamp_stop {sep : Char} (hsep : sep = '.' ∨ sep = ',') {lead settings : Text}
    (hlead : ∀ c ∈ lead, isSpaceChar c = true) (hsettings : ∀ c ∈ settings.head?, c = ' ' ∨ c = '\t')
    [Decidable (Apart settings)] :
    parseTimestamp ((Text.trimmed (lead ++ (t.spelled sep ++ settings))).takeWhile (· ≠ ' ')) =
      if t.hours.length ≤ 2 ∧ Apart settings then t.value else -1 := by
  obtain ⟨body, ws, rfl, hws, hbody⟩ := exists_space_end settings
  have htrimmed : Text.trimmed (lead ++ (t.spelled sep ++ (body ++ ws))) = t.spelled sep ++ body := by
    rw [trimmed_space_append hlead, ← List.append_assoc, trimmed_append_space hws,
      trimmed_spelled_append t hsep hbody]
  have hno : ∀ c ∈ t.spelled sep, (decide (c ≠ ' ')) = true := by
    intro c hc
    apply decide_eq_true
    rintro rfl
    have hvisible := visible_spelled t hsep ' ' hc
    revert hvisible
    decide
  rw [htrimmed, List.takeWhile_append_of_pos hno]
  -- what is read behind the time: nothing, or something that starts with a space
  obtain ⟨kept, ws', hkept, hws', hlast⟩ := exists_space_end (body.takeWhile (· ≠ ' '))
  have hread : Text.trimmed (t.spelled sep ++ body.takeWhile (· ≠ ' ')) = t.spelled sep ++ kept := by
    rw [hkept, ← List.append_assoc, trimmed_append_space hws', trimmed_spelled_append t hsep hlast]
  have hhead : ∀ c ∈ kept.head?, c.isDigit = false := by
    intro c hc
    have hspace : c = ' ' ∨ c = '\t' := by
      apply hsettings
      obtain ⟨kept', rfl⟩ : ∃ rest, kept = c :: rest := by
        cases kept with
        | nil => cases hc
        | cons c' kept' =>
            cases hc
            exact ⟨kept', rfl⟩
      obtain ⟨more, hmore⟩ := List.takeWhile_prefix (l := body) fun c => decide (c ≠ ' ')
      rw [← hmore, hkept]
      rfl
    rcases hspace with rfl | rfl <;> decide
  rw [parseTimestamp_of_trimmed t hsep hhead hread]
  have hapart : kept = [] ↔ Apart (body ++ ws) := by
    rw [apart_append hws, Apart, hkept]
    constructor
    · rintro rfl
      exact hws'
    · intro h
      cases hkept' : kept.getLast? with
      | none => exact List.getLast?_eq_none_iff.mp hkept'
      | some c =>
          have hvisible := hlast c hkept'
          rw [h c (List.mem_append_left _ (List.mem_of_mem_getLast? hkept'))] at hvisible
          exact Bool.noConfusion hvisible
  simp only [hapart]

end Stamps

end BATorrent.SubtitleParser
