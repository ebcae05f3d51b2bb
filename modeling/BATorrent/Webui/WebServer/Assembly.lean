import BATorrent.Webui.WebServer

namespace BATorrent.WebServer

open Lib Lib.ByteText
open Lib.DataStream (Bytes)

section Search

theorem indexOf_append {pattern bs : Bytes} {i : Nat} (h : indexOf pattern bs = some i) (more : Bytes) :
    indexOf pattern (bs ++ more) = some i := by
  induction bs generalizing i with
  | nil =>
      unfold indexOf at h
      split_ifs at h with hempty
      obtain rfl := Option.some.inj h
      subst hempty
      cases more with
      | nil => rfl
      | cons b more => rfl
  | cons b bs ih =>
      rw [indexOf] at h
      rw [List.cons_append, indexOf]
      by_cases hhere : pattern.isPrefixOf (b :: bs) = true
      · rw [if_pos hhere] at h
        rw [if_pos]
        · exact h
        · rw [List.isPrefixOf_iff_prefix] at hhere ⊢
          exact hhere.trans (List.prefix_append (b :: bs) more)
      · rw [if_neg hhere] at h
        obtain ⟨j, hj, rfl⟩ := Option.map_eq_some_iff.mp h
        by_cases hlonger : pattern.isPrefixOf (b :: (bs ++ more)) = true
        · -- What was too short for the pattern has no place for it further on either.
          exfalso
          have hfits := add_length_le_of_indexOf hj
          rw [List.isPrefixOf_iff_prefix] at hhere hlonger
          refine hhere (List.prefix_of_prefix_length_le hlonger (List.prefix_append (b :: bs) more) ?_)
          rw [List.length_cons]
          omega
        · rw [if_neg hlonger, ih hj]
          rfl

-- A line ends where it is expected to, and what is sought after an end of line starts the next line or
-- is further on.
theorem indexOf_line {line : Bytes} (hline : (13 : UInt8) ∉ line) (pattern rest : Bytes) :
    indexOf (crlf ++ pattern) (line ++ crlf ++ rest) =
      if pattern.isPrefixOf rest then some line.length
      else (indexOf (crlf ++ pattern) rest).map (· + (line.length + 2)) := by
  induction line with
  | nil =>
      have hnext : ¬ (crlf ++ pattern).isPrefixOf (10 :: rest) = true := fun h => by
        rw [List.isPrefixOf_iff_prefix] at h
        exact absurd (List.cons_prefix_cons.mp h).1 (by decide)
      change indexOf (crlf ++ pattern) (13 :: 10 :: rest) = _
      rw [indexOf, indexOf, if_neg hnext, Option.map_map]
      exact if_congr Iff.rfl rfl rfl
  | cons b line ih =>
      obtain ⟨hb, hline⟩ := not_or.mp (List.mem_cons.not.mp hline)
      have hcrlf : crlf = [13, 10] := rfl
      rw [List.cons_append, List.cons_append, indexOf, if_neg, ih hline]
      · split_ifs
        · rfl
        · rw [Option.map_map]
          rfl
      · simp [hcrlf, List.isPrefixOf, hb]

theorem takeWhile_key {word rest : Bytes} (hword : (58 : UInt8) ∉ word) :
    (word ++ 58 :: rest).takeWhile (· ≠ 58) = word := by
  rw [List.takeWhile_append_of_pos, List.takeWhile_cons_of_neg, List.append_nil]
  · simp
  · intro b hb
    rw [decide_eq_true_eq]
    exact fun h => hword (h ▸ hb)

-- A key and its colon start a text exactly where the key is all that stands before its first colon.
theorem isPrefixOf_key {key word rest : Bytes} (hkey : (58 : UInt8) ∉ key) (hword : (58 : UInt8) ∉ word) :
    (key ++ [58]).isPrefixOf (word ++ 58 :: rest) = true ↔ word = key := by
  rw [List.isPrefixOf_iff_prefix]
  constructor
  · rintro ⟨t, ht⟩
    have htake := congrArg (List.takeWhile (· ≠ 58)) ht
    rw [List.append_assoc, List.singleton_append, takeWhile_key hkey, takeWhile_key hword] at htake
    exact htake.symm
  · rintro rfl
    exact ⟨rest, by simp⟩

end Search

section HttpRequest

-- A field of a header block, with the blanks around its value.
structure Field where
  name : Bytes
  gap : Bytes
  value : Bytes
  rest : Bytes
  name_ne_nil : name ≠ []
  name_clean : (13 : UInt8) ∉ name ∧ (10 : UInt8) ∉ name ∧ (58 : UInt8) ∉ name
  gap_blank : ∀ b ∈ gap, b = 32 ∨ b = 9
  value_clean : (13 : UInt8) ∉ value ∧ (10 : UInt8) ∉ value
  rest_blank : ∀ b ∈ rest, b = 32 ∨ b = 9

namespace Field

variable (f : Field)

def line : Bytes := f.name ++ 58 :: (f.gap ++ f.value ++ f.rest)

def isLength : Prop := f.name.map toLower = ascii "content-length"

-- The name as the server looks for it.
def Spelled : Prop := f.name = ascii "Content-Length"

-- The text from the name of the first field on, up to the body.
def block : List Field → Bytes
  | [] => crlf
  | f :: fields => f.line ++ crlf ++ block fields

end Field

-- A request as the standard has it, whose header block and whose length are in the bounds of the server.
structure HttpRequest where
  method : Bytes
  target : Bytes
  fields : List Field
  length : Nat
  body : Bytes
  method_clean : (13 : UInt8) ∉ method ∧ (10 : UInt8) ∉ method ∧ (58 : UInt8) ∉ method
  target_clean : (13 : UInt8) ∉ target ∧ (10 : UInt8) ∉ target
  says_length : ∀ f ∈ fields, f.isLength → digitsValue f.value = some length
  no_length : (∀ f ∈ fields, ¬ f.isLength) → length = 0
  length_le : length ≤ 200 * 1024 * 1024
  body_length : body.length = length
  block_le : (method ++ 32 :: target ++ crlf ++ Field.block fields).length ≤ 32 * 1024

namespace HttpRequest

variable (q : HttpRequest)

def line : Bytes := q.method ++ 32 :: q.target

def block : Bytes := q.line ++ crlf ++ Field.block q.fields

def bytes : Bytes := q.block ++ q.body

end HttpRequest

end HttpRequest

section Value

theorem Field.value_line (f : Field) : (13 : UInt8) ∉ f.gap ++ f.value ++ f.rest := by
  rw [List.mem_append, List.mem_append, not_or, not_or]
  refine ⟨⟨fun h => ?_, f.value_clean.1⟩, fun h => ?_⟩
  · exact absurd (f.gap_blank 13 h) (by decide)
  · exact absurd (f.rest_blank 13 h) (by decide)

theorem Field.line_clean (f : Field) : (13 : UInt8) ∉ f.line := by
  unfold Field.line
  rw [List.mem_append, List.mem_cons, not_or, not_or]
  exact ⟨f.name_clean.1, by decide, f.value_line⟩

theorem HttpRequest.line_clean (q : HttpRequest) : (13 : UInt8) ∉ q.line := by
  unfold HttpRequest.line
  rw [List.mem_append, List.mem_cons, not_or, not_or]
  exact ⟨q.method_clean.1, by decide, q.target_clean.1⟩

-- The blank line of a request is where its block ends.
theorem indexOf_blank (fields : List Field) {line : Bytes} (hline : (13 : UInt8) ∉ line) (body : Bytes) :
    indexOf (crlf ++ crlf) (line ++ crlf ++ (Field.block fields ++ body)) =
      some ((line ++ crlf ++ Field.block fields).length - 4) := by
  induction fields generalizing line with
  | nil =>
      rw [indexOf_line hline, if_pos]
      · simp [Field.block, crlf, ascii]
      · rw [List.isPrefixOf_iff_prefix]
        exact List.prefix_append _ _
  | cons f fields ih =>
      have hname : ¬ crlf.isPrefixOf (Field.block (f :: fields) ++ body) = true := by
        intro h
        obtain ⟨b, name, hcons⟩ := List.exists_cons_of_ne_nil f.name_ne_nil
        unfold Field.block Field.line at h
        rw [hcons, List.isPrefixOf_iff_prefix] at h
        have hb : (13 : UInt8) = b := (List.cons_prefix_cons.mp h).1
        exact f.name_clean.1 (hcons ▸ hb ▸ List.mem_cons_self)
      have hrest := ih f.line_clean
      rw [indexOf_line hline, if_neg hname]
      unfold Field.block
      rw [List.append_assoc, List.append_assoc, ← List.append_assoc f.line crlf, hrest, Option.map_some]
      simp only [List.length_append, Option.some.injEq]
      have hcrlf : crlf.length = 2 := rfl
      have hblock : 2 ≤ (Field.block fields).length := by
        cases fields with
        | nil => exact Nat.le_refl _
        | cons g fields =>
            simp only [Field.block, List.length_append]
            omega
      omega

theorem indexOf_block {key : Bytes} (hkey : (58 : UInt8) ∉ key) (hlong : 2 ≤ key.length) (fields : List Field)
    {line : Bytes} (hline : (13 : UInt8) ∉ line) :
    match fields.find? fun f => f.name = key with
    | none => indexOf (crlf ++ (key ++ [58])) (line ++ crlf ++ Field.block fields) = none
    | some f => ∃ before after,
        line ++ crlf ++ Field.block fields =
          before ++ (crlf ++ (key ++ [58])) ++ (f.gap ++ f.value ++ f.rest) ++ crlf ++ after ∧
        line <+: before ∧ indexOf (crlf ++ (key ++ [58])) (line ++ crlf ++ Field.block fields) = some before.length := by
  induction fields generalizing line with
  | nil =>
      have hshort : ¬ (key ++ [58]).isPrefixOf crlf = true := fun h => by
        have hle := (List.isPrefixOf_iff_prefix.mp h).length_le
        rw [List.length_append, List.length_singleton, show crlf.length = 2 from rfl] at hle
        omega
      have hnone : indexOf (crlf ++ (key ++ [58])) crlf = none := by
        cases hindex : indexOf (crlf ++ (key ++ [58])) crlf with
        | none => rfl
        | some i =>
            have hle := add_length_le_of_indexOf hindex
            rw [List.length_append, List.length_append, show crlf.length = 2 from rfl] at hle
            omega
      rw [List.find?_nil]
      change indexOf (crlf ++ (key ++ [58])) (line ++ crlf ++ crlf) = none
      rw [indexOf_line hline, if_neg hshort, hnone]
      rfl
  | cons f fields ih =>
      have hblock : Field.block (f :: fields) =
          f.name ++ 58 :: (f.gap ++ f.value ++ f.rest ++ crlf ++ Field.block fields) := by
        simp [Field.block, Field.line]
      have hhere : (key ++ [58]).isPrefixOf (Field.block (f :: fields)) = true ↔ f.name = key := by
        rw [hblock]
        exact isPrefixOf_key hkey f.name_clean.2.2
      by_cases hname : f.name = key
      · rw [List.find?_cons_of_pos (by rw [decide_eq_true_eq]; exact hname)]
        refine ⟨line, Field.block fields, ?_, List.prefix_refl line, ?_⟩
        · rw [hblock, hname]
          simp
        · rw [indexOf_line hline, if_pos (hhere.mpr hname)]
      · rw [List.find?_cons_of_neg (by rw [decide_eq_true_eq]; exact hname), indexOf_line hline,
          if_neg (hhere.not.mpr hname)]
        have hrest := ih f.line_clean
        cases hfind : fields.find? fun f => f.name = key with
        | none =>
            rw [hfind] at hrest
            exact congrArg (Option.map _) hrest
        | some g =>
            rw [hfind] at hrest
            obtain ⟨before, after, heq, -, hindex⟩ := hrest
            refine ⟨line ++ crlf ++ before, after, ?_, ⟨crlf ++ before, by simp⟩, ?_⟩
            · change line ++ crlf ++ (f.line ++ crlf ++ Field.block fields) = _
              rw [heq]
              simp
            · refine (congrArg (Option.map _) hindex).trans ?_
              rw [Option.map_some, List.length_append, List.length_append, show crlf.length = 2 from rfl,
                Nat.add_comm before.length]

theorem lineFrom_field {before value after : Bytes} (hvalue : (13 : UInt8) ∉ value) :
    lineFrom (before ++ value ++ crlf ++ after) before.length = trimmed value := by
  have hindex : indexFrom [13] (before ++ value ++ crlf ++ after) before.length = some (before.length + value.length) := by
    unfold indexFrom
    rw [List.append_assoc, List.append_assoc, List.drop_left]
    have hfound : ∀ bs : Bytes, (13 : UInt8) ∉ bs → indexOf [13] (bs ++ (crlf ++ after)) = some bs.length := by
      intro bs hbs
      induction bs with
      | nil => rfl
      | cons b bs ih =>
          obtain ⟨hb, hbs⟩ := not_or.mp (List.mem_cons.not.mp hbs)
          rw [List.cons_append, indexOf, if_neg, ih hbs]
          · rfl
          · simp [List.isPrefixOf, hb]
    rw [hfound value hvalue, Option.map_some, Nat.add_comm]
  unfold lineFrom
  rw [hindex, Option.some_or]
  dsimp only
  rw [Nat.add_sub_cancel_left, List.append_assoc, List.append_assoc, List.drop_left, List.take_left]

-- The method of a request is no name with a colon.
theorem not_isPrefixOf_block (q : HttpRequest) {key : Bytes} (hkey : (58 : UInt8) ∉ key) (hspace : (32 : UInt8) ∉ key) :
    ¬ (key ++ [58]).isPrefixOf (q.line ++ crlf ++ Field.block q.fields) = true := by
  intro h
  obtain ⟨t, ht⟩ := List.isPrefixOf_iff_prefix.mp h
  have htake := congrArg (List.takeWhile (· ≠ 58)) ht
  unfold HttpRequest.line at htake
  rw [List.append_assoc, List.singleton_append, takeWhile_key hkey, List.append_assoc, List.append_assoc,
    List.takeWhile_append_of_pos, List.cons_append, List.takeWhile_cons_of_pos (by decide)] at htake
  · exact hspace (htake ▸ List.mem_append_right _ List.mem_cons_self)
  · intro b hb
    rw [decide_eq_true_eq]
    exact fun h58 => q.method_clean.2.2 (h58 ▸ hb)

-- What the server takes for the value of a header: that of the first field with just this name.
theorem headerValue_block (q : HttpRequest) {key : Bytes} (hkey : (58 : UInt8) ∉ key) (hspace : (32 : UInt8) ∉ key)
    (hlong : 2 ≤ key.length) :
    headerValue q.block key =
      match q.fields.find? fun f => f.name = key with
      | none => []
      | some f => trimmed (f.gap ++ f.value ++ f.rest) := by
  have hblock := indexOf_block hkey hlong q.fields q.line_clean
  have hsearch : crlf ++ key ++ ascii ":" = crlf ++ (key ++ [58]) := by
    rw [List.append_assoc]
    rfl
  change headerValue (q.line ++ crlf ++ Field.block q.fields) key = _
  unfold headerValue
  cases hfind : q.fields.find? fun f => f.name = key with
  | none =>
      rw [hfind] at hblock
      have hstart : headerStart (q.line ++ crlf ++ Field.block q.fields) key = none := by
        unfold headerStart
        dsimp only at hblock ⊢
        rw [hsearch, hblock]
        exact if_neg (not_isPrefixOf_block q hkey hspace)
      rw [hstart]
  | some f =>
      rw [hfind] at hblock
      obtain ⟨before, after, heq, hline, hindex⟩ := hblock
      have hstart : headerStart (q.line ++ crlf ++ Field.block q.fields) key =
          some (before ++ (crlf ++ (key ++ [58]))).length := by
        unfold headerStart
        dsimp only
        rw [hsearch, hindex, @List.length_append _ before]
        cases hpos : before.length with
        | zero =>
            have hle := hline.length_le
            unfold HttpRequest.line at hle
            rw [List.length_append, List.length_cons] at hle
            omega
        | succ n => rfl
      rw [hstart]
      dsimp only
      rw [heq]
      exact lineFrom_field f.value_line

end Value

section Length

-- The length that the server reads off a header block.
def contentLengthOf (headers : Bytes) : Int32 :=
  let cl := headerValue headers (ascii "Content-Length")
  if cl = [] then 0 else (toInt32 cl).getD 0

theorem trimmed_value (f : Field) {n : Int} (h : digitsValue f.value = some n) :
    trimmed (f.gap ++ f.value ++ f.rest) = f.value ∧ trimmed f.value = f.value ∧ f.value ≠ [] ∧
      f.value.head? ≠ some 45 ∧ f.value.head? ≠ some 43 := by
  unfold digitsValue at h
  split_ifs at h with hdigits
  obtain ⟨hne, hall⟩ := hdigits
  have hdigit : ∀ b ∈ f.value, isDigit b = true := List.all_eq_true.mp hall
  have hhead : ∀ b ∈ f.value.head?, isSpace b = false := fun b hb =>
    not_isSpace_of_digit (hdigit b (List.mem_of_head? hb))
  have hlast : ∀ b ∈ f.value.getLast?, isSpace b = false := fun b hb =>
    not_isSpace_of_digit (hdigit b (List.mem_of_getLast? hb))
  have hblank : ∀ b : UInt8, b = 32 ∨ b = 9 → isSpace b = true := by
    rintro b (rfl | rfl) <;> rfl
  refine ⟨?_, ?_, hne, fun h45 => ?_, fun h43 => ?_⟩
  · rw [List.append_assoc, trimmed_skip _ fun b hb => hblank b (f.gap_blank b hb),
      trimmed_append hhead hlast hne fun b hb => hblank b (f.rest_blank b hb)]
  · have hself : trimmed (f.value ++ []) = f.value := trimmed_append hhead hlast hne (by simp)
    rwa [List.append_nil] at hself
  · exact absurd (hdigit 45 (List.mem_of_head? h45)) (by decide)
  · exact absurd (hdigit 43 (List.mem_of_head? h43)) (by decide)

theorem toInt32_digits {digits : Bytes} {n : Nat} (h : digitsValue digits = some (n : Int)) (htrim : trimmed digits = digits)
    (hminus : digits.head? ≠ some 45) (hplus : digits.head? ≠ some 43) (hlt : n < 2 ^ 31) :
    toInt32 digits = some (Int32.ofInt n) := by
  unfold toInt32
  rw [htrim]
  dsimp only
  split
  · exact absurd rfl hminus
  · exact absurd rfl hplus
  · rw [h, Option.bind_some, if_pos ⟨by omega, by omega⟩]

def HttpRequest.Spelled (q : HttpRequest) : Prop := ∃ f ∈ q.fields, f.Spelled

theorem find?_spelled_eq_none {q : HttpRequest} (h : ¬ q.Spelled) :
    q.fields.find? (fun f => f.name = ascii "Content-Length") = none := by
  rw [List.find?_eq_none]
  exact fun f hf hname => h ⟨f, hf, show f.name = _ by simpa using hname⟩

theorem contentLengthOf_spelled {q : HttpRequest} (h : q.Spelled) : contentLengthOf q.block = Int32.ofInt q.length := by
  unfold contentLengthOf
  rw [headerValue_block q (by decide) (by decide) (by decide)]
  cases hfind : q.fields.find? fun f => f.name = ascii "Content-Length" with
  | none =>
      obtain ⟨f, hf, hname⟩ := h
      exact absurd (decide_eq_true (show f.name = _ from hname)) (List.find?_eq_none.mp hfind f hf)
  | some f =>
      have hname : f.name = ascii "Content-Length" := by simpa using List.find?_some hfind
      have hsays := q.says_length f (List.mem_of_find?_eq_some hfind) (by
        unfold Field.isLength
        rw [hname]
        rfl)
      obtain ⟨htrim, hself, hne, hminus, hplus⟩ := trimmed_value f hsays
      have hlt : q.length < 2 ^ 31 := by
        have hle := q.length_le
        omega
      dsimp only
      rw [htrim, if_neg hne, toInt32_digits hsays hself hminus hplus hlt]
      rfl

theorem contentLengthOf_unspelled {q : HttpRequest} (h : ¬ q.Spelled) : contentLengthOf q.block = 0 := by
  unfold contentLengthOf
  rw [headerValue_block q (by decide) (by decide) (by decide), find?_spelled_eq_none h]
  rfl

end Length

end BATorrent.WebServer
