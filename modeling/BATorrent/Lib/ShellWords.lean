import Mathlib.Data.List.Basic

namespace Lib.ShellWords

-- A template is read symbol by symbol: a character of its text, or a hole that
-- stands for a value supplied later.
inductive Sym (η : Type) where
  | char (c : Char)
  | hole (h : η)
deriving DecidableEq, Repr

-- What a word is made of. A quoted character stands for itself; an unquoted one
-- may still be special to the shell (`$`, `*`, `~`).
inductive Piece (η : Type) where
  | char (c : Char) (quoted : Bool)
  | hole (h : η)
deriving DecidableEq, Repr

inductive Token (η : Type) where
  | word (pieces : List (Piece η))
  | operator (c : Char)
deriving DecidableEq, Repr

inductive Mode where
  | plain
  | escaped
  | single
  | double
  | doubleEscaped
  | comment
deriving DecidableEq, Repr

-- `word` is the word being read: `none` between words, `some []` after `''`.
structure Reader (η : Type) where
  mode : Mode
  tokens : List (Token η)
  word : Option (List (Piece η))
deriving DecidableEq, Repr

namespace Reader

variable {η : Type}

def start : Reader η := { mode := .plain, tokens := [], word := none }

def extend (r : Reader η) (pieces : List (Piece η)) : Reader η :=
  { r with word := some (r.word.getD [] ++ pieces) }

def finish (r : Reader η) : Reader η :=
  match r.word with
  | none => r
  | some w => { r with tokens := r.tokens ++ [.word w], word := none }

def push (r : Reader η) (c : Char) : Reader η :=
  { r with tokens := r.tokens ++ [.operator c] }

def enter (r : Reader η) (mode : Mode) : Reader η := { r with mode := mode }

def isBlank (c : Char) : Bool := c = ' ' || c = '\t'

def isOperator (c : Char) : Bool := c ∈ ['\n', ';', '&', '|', '<', '>', '(', ')']

def readPlain (r : Reader η) (c : Char) : Reader η :=
  if c = '\'' then (r.extend []).enter .single
  else if c = '"' then (r.extend []).enter .double
  else if c = '\\' then r.enter .escaped
  else if isBlank c then r.finish
  else if isOperator c then r.finish.push c
  else if c = '#' ∧ r.word = none then r.enter .comment
  else r.extend [.char c false]

-- Inside double quotes the dollar sign and the backquote keep their meaning.
def readDouble (r : Reader η) (c : Char) : Reader η :=
  if c = '"' then r.enter .plain
  else if c = '\\' then r.enter .doubleEscaped
  else r.extend [.char c (c ≠ '$' && c ≠ '`')]

def readDoubleEscaped (r : Reader η) (c : Char) : Reader η :=
  if c = '\n' then r.enter .double
  else if c ∈ ['$', '`', '"', '\\'] then (r.extend [.char c true]).enter .double
  else (r.extend [.char '\\' true, .char c true]).enter .double

def readChar (r : Reader η) (c : Char) : Reader η :=
  match r.mode with
  | .plain => r.readPlain c
  | .escaped => if c = '\n' then r.enter .plain else (r.extend [.char c true]).enter .plain
  | .single => if c = '\'' then r.enter .plain else r.extend [.char c true]
  | .double => r.readDouble c
  | .doubleEscaped => r.readDoubleEscaped c
  | .comment => if c = '\n' then (r.finish.push c).enter .plain else r

def read (r : Reader η) : Sym η → Reader η
  | .char c => r.readChar c
  | .hole h => r.extend [.hole h]

def readAll (r : Reader η) (syms : List (Sym η)) : Reader η := syms.foldl read r

-- An open quote at the end of the text is an error; a trailing backslash stands for itself.
def close (r : Reader η) : Option (List (Token η)) :=
  match r.mode with
  | .plain | .comment => some r.finish.tokens
  | .escaped => some (r.extend [.char '\\' true]).finish.tokens
  | .single | .double | .doubleEscaped => none

@[simp] theorem readAll_nil (r : Reader η) : r.readAll [] = r := rfl

@[simp] theorem readAll_cons (r : Reader η) (s : Sym η) (rest : List (Sym η)) :
    r.readAll (s :: rest) = (r.read s).readAll rest := rfl

theorem readAll_append (r : Reader η) (s t : List (Sym η)) :
    r.readAll (s ++ t) = (r.readAll s).readAll t := by simp [readAll, List.foldl_append]

end Reader

variable {η : Type}

-- Splits a text into words and operators by the shell's quoting rules. Expansions
-- (`$x`, globs) are not performed: their characters stay in the word, unquoted.
def split (syms : List (Sym η)) : Option (List (Token η)) := (Reader.start.readAll syms).close

def text (s : List Char) : List (Sym η) := s.map .char

-- Every hole is met outside quotes, escapes and comments.
def HolesPlain : Reader η → List (Sym η) → Prop
  | _, [] => True
  | r, .char c :: rest => HolesPlain (r.readChar c) rest
  | r, .hole h :: rest => r.mode = .plain ∧ HolesPlain (r.extend [.hole h]) rest

instance decidableHolesPlain : (r : Reader η) → (syms : List (Sym η)) → Decidable (HolesPlain r syms)
  | _, [] => .isTrue trivial
  | r, .char c :: rest => decidableHolesPlain (r.readChar c) rest
  | r, .hole h :: rest => @instDecidableAnd _ _ (inferInstanceAs (Decidable (r.mode = .plain)))
      (decidableHolesPlain (r.extend [.hole h]) rest)

section Fill

variable (value : η → List Char)

-- A literal value: every character of it is quoted.
def literal (s : List Char) : List (Piece η) := s.map (.char · true)

def Piece.fill : Piece η → List (Piece η)
  | .char c quoted => [.char c quoted]
  | .hole h => literal (value h)

def fillWord (w : List (Piece η)) : List (Piece η) := w.flatMap (Piece.fill value)

def Token.fill : Token η → Token η
  | .word w => .word (fillWord value w)
  | .operator c => .operator c

def Reader.fill (r : Reader η) : Reader η :=
  { mode := r.mode, tokens := r.tokens.map (Token.fill value),
    word := r.word.map (fillWord value) }

@[simp] theorem fillWord_append (v w : List (Piece η)) :
    fillWord value (v ++ w) = fillWord value v ++ fillWord value w := by simp [fillWord]

@[simp] theorem fillWord_char (c : Char) (quoted : Bool) :
    fillWord value [.char c quoted] = [.char c quoted] := rfl

@[simp] theorem fillWord_hole (h : η) : fillWord value [.hole h] = literal (value h) := by
  simp [fillWord, Piece.fill]

@[simp] theorem fill_start : (Reader.start : Reader η).fill value = .start := rfl

@[simp] theorem fill_mode (r : Reader η) : (r.fill value).mode = r.mode := rfl

theorem fill_enter (r : Reader η) (mode : Mode) :
    (r.enter mode).fill value = (r.fill value).enter mode := rfl

theorem fill_push (r : Reader η) (c : Char) :
    (r.push c).fill value = (r.fill value).push c := by
  simp [Reader.fill, Reader.push, Token.fill]

theorem fill_extend (r : Reader η) (pieces : List (Piece η)) :
    (r.extend pieces).fill value = (r.fill value).extend (fillWord value pieces) := by
  cases hw : r.word <;> simp [Reader.fill, Reader.extend, hw]

theorem fill_finish (r : Reader η) : r.finish.fill value = (r.fill value).finish := by
  cases hw : r.word <;> simp [Reader.fill, Reader.finish, hw, Token.fill]

theorem fill_word_none (r : Reader η) : (r.fill value).word = none ↔ r.word = none := by
  simp [Reader.fill]

-- Filling the holes does not change how a character is read.
theorem fill_readPlain (r : Reader η) (c : Char) :
    (r.readPlain c).fill value = (r.fill value).readPlain c := by
  unfold Reader.readPlain
  simp only [fill_word_none]
  split_ifs <;> simp [fill_enter, fill_extend, fill_finish, fill_push, fillWord, Piece.fill]

theorem fill_readDouble (r : Reader η) (c : Char) :
    (r.readDouble c).fill value = (r.fill value).readDouble c := by
  unfold Reader.readDouble
  split_ifs <;> simp [fill_enter, fill_extend]

theorem fill_readDoubleEscaped (r : Reader η) (c : Char) :
    (r.readDoubleEscaped c).fill value = (r.fill value).readDoubleEscaped c := by
  unfold Reader.readDoubleEscaped
  split_ifs <;> simp [fill_enter, fill_extend, fillWord, Piece.fill]

theorem fill_readChar (r : Reader η) (c : Char) :
    (r.readChar c).fill value = (r.fill value).readChar c := by
  unfold Reader.readChar
  rw [fill_mode]
  cases r.mode with
  | plain => exact fill_readPlain value r c
  | escaped => dsimp only; split_ifs <;> simp [fill_enter, fill_extend]
  | single => dsimp only; split_ifs <;> simp [fill_enter, fill_extend]
  | double => exact fill_readDouble value r c
  | doubleEscaped => exact fill_readDoubleEscaped value r c
  | comment => dsimp only; split_ifs <;> simp [fill_enter, fill_push, fill_finish]

theorem fill_close (r : Reader η) :
    (r.fill value).close = r.close.map (List.map (Token.fill value)) := by
  have htokens (r : Reader η) :
      (r.fill value).finish.tokens = r.finish.tokens.map (Token.fill value) := by
    rw [← fill_finish]
    rfl
  unfold Reader.close
  rw [fill_mode]
  cases r.mode with
  | plain | comment => simp [htokens]
  | escaped =>
      have he := htokens (r.extend [.char '\\' true])
      rw [fill_extend, fillWord_char] at he
      simp [he]
  | single | double | doubleEscaped => rfl

end Fill

section Encode

variable (encode value : η → List Char)

-- `s` reads, outside quotes, as the literal `v` and nothing else.
def Quotes (η : Type) (s v : List Char) : Prop :=
  ∀ r : Reader η, r.mode = .plain → r.readAll (text s) = r.extend (literal v)

def Sym.render : Sym η → List Char
  | .char c => [c]
  | .hole h => encode h

def render (syms : List (Sym η)) : List Char := syms.flatMap (Sym.render encode)

@[simp] theorem render_nil : render encode ([] : List (Sym η)) = [] := rfl

@[simp] theorem render_char (c : Char) (rest : List (Sym η)) :
    render encode (.char c :: rest) = c :: render encode rest := rfl

@[simp] theorem render_hole (h : η) (rest : List (Sym η)) :
    render encode (.hole h :: rest) = encode h ++ render encode rest := rfl

@[simp] theorem text_cons (c : Char) (rest : List Char) :
    (text (c :: rest) : List (Sym η)) = .char c :: text rest := rfl

theorem text_append (s t : List Char) : (text (s ++ t) : List (Sym η)) = text s ++ text t := by
  simp [text]

-- Reading the filled text keeps step with reading the template.
theorem readAll_render (syms : List (Sym η)) (r : Reader η) (hp : HolesPlain r syms)
    (hq : ∀ h, .hole h ∈ syms → Quotes η (encode h) (value h)) :
    (r.fill value).readAll (text (render encode syms)) = (r.readAll syms).fill value := by
  induction syms generalizing r with
  | nil => rfl
  | cons s rest ih =>
      have hrest : ∀ h, .hole h ∈ rest → Quotes η (encode h) (value h) :=
        fun h hm => hq h (List.mem_cons_of_mem _ hm)
      cases s with
      | char c =>
          simp only [render_char, text_cons, Reader.readAll_cons, Reader.read]
          rw [← fill_readChar]
          exact ih _ hp hrest
      | hole h =>
          have henc := hq h List.mem_cons_self (r.fill value) hp.1
          rw [render_hole, text_append, Reader.readAll_append, henc, ← fillWord_hole, ← fill_extend]
          exact ih _ hp.2 hrest

-- A template whose holes stand outside quotes splits the same way before and after
-- its holes are filled with encodings that read as their values.
theorem split_render (syms : List (Sym η)) (hp : HolesPlain .start syms)
    (hq : ∀ h, .hole h ∈ syms → Quotes η (encode h) (value h)) :
    split (text (render encode syms) : List (Sym η)) =
      (split syms).map (List.map (Token.fill value)) := by
  have h := readAll_render encode value syms .start hp hq
  rw [fill_start] at h
  rw [split, h, fill_close, split]

end Encode

section Begins

-- What has been read stays: the finished tokens, and the word being read as the
-- beginning of the next one.
def Begins (r : Reader η) (tokens : List (Token η)) : Prop :=
  match r.word with
  | none => ∃ more, tokens = r.tokens ++ more
  | some w => ∃ w' more, tokens = r.tokens ++ .word (w ++ w') :: more

theorem begins_of_extend (r : Reader η) (pieces : List (Piece η)) (tokens : List (Token η))
    (h : Begins (r.extend pieces) tokens) : Begins r tokens := by
  obtain ⟨w', more, rfl⟩ := h
  cases hw : r.word with
  | none => simp only [Begins, hw]; exact ⟨_, rfl⟩
  | some w => simp only [Begins, hw]; exact ⟨pieces ++ w', more, by simp [Reader.extend]⟩

theorem begins_of_finish (r : Reader η) (tokens : List (Token η))
    (h : Begins r.finish tokens) : Begins r tokens := by
  cases hw : r.word with
  | none => simpa only [Reader.finish, hw] using h
  | some w =>
      simp only [Reader.finish, hw, Begins] at h
      obtain ⟨more, rfl⟩ := h
      simp only [Begins, hw]
      exact ⟨[], more, by simp⟩

theorem finish_word (r : Reader η) : r.finish.word = none := by
  cases hw : r.word <;> simp [Reader.finish, hw]

theorem begins_of_finish_push (r : Reader η) (c : Char) (tokens : List (Token η))
    (h : Begins (r.finish.push c) tokens) : Begins r tokens := by
  apply begins_of_finish
  simp only [Begins, Reader.push, finish_word] at h ⊢
  obtain ⟨more, rfl⟩ := h
  exact ⟨.operator c :: more, by simp⟩

@[simp] theorem begins_enter (r : Reader η) (mode : Mode) (tokens : List (Token η)) :
    Begins (r.enter mode) tokens ↔ Begins r tokens := Iff.rfl

theorem begins_of_readChar (r : Reader η) (c : Char) (tokens : List (Token η))
    (h : Begins (r.readChar c) tokens) : Begins r tokens := by
  unfold Reader.readChar at h
  cases hm : r.mode with
  | plain =>
      simp only [hm, Reader.readPlain] at h
      split_ifs at h
      · exact begins_of_extend r _ tokens h
      · exact begins_of_extend r _ tokens h
      · exact h
      · exact begins_of_finish r tokens h
      · exact begins_of_finish_push r c tokens h
      · exact h
      · exact begins_of_extend r _ tokens h
  | escaped | single =>
      simp only [hm] at h
      split_ifs at h
      · exact h
      · exact begins_of_extend r _ tokens h
  | double =>
      simp only [hm, Reader.readDouble] at h
      split_ifs at h
      · exact h
      · exact h
      · exact begins_of_extend r _ tokens h
  | doubleEscaped =>
      simp only [hm, Reader.readDoubleEscaped] at h
      split_ifs at h
      · exact h
      · exact begins_of_extend r _ tokens h
      · exact begins_of_extend r _ tokens h
  | comment =>
      simp only [hm] at h
      split_ifs at h
      · exact begins_of_finish_push r c tokens h
      · exact h

theorem begins_of_readAll (syms : List (Sym η)) (r : Reader η) (tokens : List (Token η))
    (h : Begins (r.readAll syms) tokens) : Begins r tokens := by
  induction syms generalizing r with
  | nil => exact h
  | cons s rest ih =>
      have hs := ih (r.read s) h
      cases s with
      | char c => exact begins_of_readChar r c tokens hs
      | hole hole => exact begins_of_extend r _ tokens hs

theorem begins_finish_tokens (r : Reader η) : Begins r r.finish.tokens := by
  cases hw : r.word with
  | none => simp only [Begins, Reader.finish, hw]; exact ⟨[], by simp⟩
  | some w => simp only [Begins, Reader.finish, hw]; exact ⟨[], [], by simp⟩

theorem begins_of_close (r : Reader η) (tokens : List (Token η)) (h : r.close = some tokens) :
    Begins r tokens := by
  unfold Reader.close at h
  cases hm : r.mode with
  | plain | comment =>
      simp only [hm, Option.some.injEq] at h
      exact h ▸ begins_finish_tokens r
  | escaped =>
      simp only [hm, Option.some.injEq] at h
      exact begins_of_extend r _ tokens (h ▸ begins_finish_tokens _)
  | single | double | doubleEscaped => simp [hm] at h

end Begins

end Lib.ShellWords
