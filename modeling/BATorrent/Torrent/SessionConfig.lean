import BATorrent.Lib.Text
import BATorrent.Lib.ShellWords

namespace BATorrent.SessionConfig

open Lib

def anyAddress : List Char := ['0', '.', '0', '.', '0', '.', '0']

def anyAddress6 : List Char := ['[', ':', ':', ']']

def endpoint (address : List Char) (port : Int) : List Char := address ++ ':' :: Text.number port

def listenInterfaces (listenAddr : List Char) (port : Int) (forceIpv4 : Bool) : List Char :=
  if listenAddr ≠ anyAddress ∨ forceIpv4 then endpoint listenAddr port
  else endpoint anyAddress port ++ ',' :: endpoint anyAddress6 port

-- The files that a content layout renames, each with its new name. 1 puts a lone file into a folder,
-- 2 takes the folder away that all files share.
def planContentLayout (mode : Int) (torrentName : List Char) (filePaths : List (List Char)) :
    List (Nat × List Char) :=
  match filePaths with
  | [] => []
  | root :: rest =>
      if mode = 2 then
        match root.idxOf? '/' with
        | none => []
        | some slash =>
            let prefixed := root.take (slash + 1)
            if rest ≠ [] ∧ filePaths.all prefixed.isPrefixOf then
              (filePaths.map (·.drop (slash + 1))).zipIdx.map Prod.swap
            else []
      else if mode = 1 ∧ rest = [] ∧ '/' ∉ root then [(0, torrentName ++ '/' :: root)]
      else []

def shellQuote (s : List Char) : List Char :=
  '\'' :: Text.replaceAll ['\''] ['\'', '\\', '\'', '\''] s ++ ['\'']

def expandOnCompleteCommand (tmpl name savePath hash : List Char) (totalSize : Int) : List Char :=
  let cmd := tmpl
  let cmd := Text.replaceAll ['%', 'N'] (shellQuote name) cmd
  let cmd := Text.replaceAll ['%', 'D'] (shellQuote savePath) cmd
  let cmd := Text.replaceAll ['%', 'H'] (shellQuote hash) cmd
  let cmd := Text.replaceAll ['%', 'Z'] (shellQuote (Text.number totalSize)) cmd
  let cmd := Text.replaceAll ['%', 'F'] (shellQuote (savePath ++ '/' :: name)) cmd
  cmd

-- The placeholders of a command template, in the order they are replaced.
inductive Placeholder where
  | name
  | savePath
  | hash
  | totalSize
  | filePath
deriving DecidableEq, Repr

namespace Placeholder

def order : List Placeholder := [name, savePath, hash, totalSize, filePath]

def letter : Placeholder → Char
  | name => 'N'
  | savePath => 'D'
  | hash => 'H'
  | totalSize => 'Z'
  | filePath => 'F'

def ofLetter (c : Char) : Option Placeholder := order.find? (fun p => p.letter = c)

-- What is replaced after this placeholder, over the text it has inserted.
def later : Placeholder → List Placeholder
  | name => [savePath, hash, totalSize, filePath]
  | savePath => [hash, totalSize, filePath]
  | hash => [totalSize, filePath]
  | totalSize => [filePath]
  | filePath => []

end Placeholder

-- The finished torrent a command is run for.
structure Finished where
  name : List Char
  savePath : List Char
  hash : List Char
  totalSize : Int

def Finished.value (t : Finished) : Placeholder → List Char
  | .name => t.name
  | .savePath => t.savePath
  | .hash => t.hash
  | .totalSize => Text.number t.totalSize
  | .filePath => t.savePath ++ '/' :: t.name

-- SessionManager::executeOnComplete hands this to `/bin/sh -c`.
def onCompleteCommand (tmpl : List Char) (t : Finished) : List Char :=
  expandOnCompleteCommand tmpl t.name t.savePath t.hash t.totalSize

-- A template as its author reads it: characters and placeholders.
def template : List Char → List (ShellWords.Sym Placeholder)
  | [] => []
  | [c] => [.char c]
  | c :: d :: rest =>
      if c = '%' then
        match Placeholder.ofLetter d with
        | some p => .hole p :: template rest
        | none => .char c :: template (d :: rest)
      else .char c :: template (d :: rest)

-- No value the template inserts contains a placeholder that is replaced after it.
def InsertsNoPlaceholder (tmpl : List Char) (t : Finished) : Prop :=
  ∀ p, .hole p ∈ template tmpl → ∀ q ∈ p.later, ¬ ['%', q.letter] <:+: t.value p

end BATorrent.SessionConfig

namespace BATorrent.SessionConfig

open Lib Lib.ShellWords

section Quote

variable {η : Type}

-- `'` ends the quoted run, is written `\'`, and a new run starts.
def escapeQuotes (s : List Char) : List Char :=
  s.flatMap (fun c => if c = '\'' then ['\'', '\\', '\'', '\''] else [c])

theorem shellQuote_eq (s : List Char) : shellQuote s = '\'' :: escapeQuotes s ++ ['\''] := by
  rw [shellQuote, Text.replaceAll_singleton, escapeQuotes]

@[simp] theorem escapeQuotes_cons (c : Char) (s : List Char) :
    escapeQuotes (c :: s) =
      (if c = '\'' then ['\'', '\\', '\'', '\''] else [c]) ++ escapeQuotes s := rfl

theorem readAll_escapeQuotes (s : List Char) (r : Reader η) (hr : r.mode = .single)
    (hw : r.word ≠ none) : r.readAll (text (escapeQuotes s)) = r.extend (literal s) := by
  induction s generalizing r with
  | nil =>
      obtain ⟨w, hw⟩ := Option.ne_none_iff_exists'.mp hw
      cases r
      simp_all [escapeQuotes, text, literal, Reader.extend]
  | cons c s ih =>
      have hi := ih (r.extend [.char c true]) hr (by simp [Reader.extend])
      have hstep : r.readAll (text (if c = '\'' then ['\'', '\\', '\'', '\''] else [c])) =
          r.extend [.char c true] := by
        obtain ⟨w, hsome⟩ := Option.ne_none_iff_exists'.mp hw
        cases r
        simp only at hr hsome
        subst hr hsome
        split_ifs with hc
        · subst hc
          simp [text, Reader.read, Reader.readChar, Reader.readPlain, Reader.extend, Reader.enter]
        · simp [text, Reader.read, Reader.readChar, hc]
      rw [escapeQuotes_cons, text_append, Reader.readAll_append, hstep, hi]
      simp [Reader.extend, literal]

-- The quoting of one value is right: outside quotes it reads as the value.
theorem quotes_shellQuote (s : List Char) : Quotes η (shellQuote s) s := by
  intro r hr
  have hopen : r.readChar '\'' = (r.extend []).enter .single := by
    simp [Reader.readChar, hr, Reader.readPlain]
  rw [shellQuote_eq, text_append, Reader.readAll_append, text_cons, Reader.readAll_cons,
    Reader.read, hopen, readAll_escapeQuotes s _ rfl (by simp [Reader.extend, Reader.enter])]
  cases r
  simp only at hr
  subst hr
  simp [text, Reader.extend, Reader.enter, Reader.read, Reader.readChar]

end Quote

section Passes

variable (t : Finished)

-- One of the five replacements.
def pass (p : Placeholder) (s : List Char) : List Char :=
  Text.replaceAll ['%', p.letter] (shellQuote (t.value p)) s

def passes (ps : List Placeholder) (s : List Char) : List Char :=
  ps.foldl (fun s p => pass t p s) s

theorem onCompleteCommand_eq_passes (tmpl : List Char) :
    onCompleteCommand tmpl t = passes t Placeholder.order tmpl := rfl

-- What keeps the text around an inserted value from forming a placeholder with it.
structure Sealed (s : List Char) : Prop where
  head : s.head? = some '\'' ∨ s.head? = some '%'
  last : s.getLast? ≠ some '%'

theorem shellQuote_ne_nil (s : List Char) : shellQuote s ≠ [] := by simp [shellQuote]

theorem shellQuote_head? (s : List Char) : (shellQuote s).head? = some '\'' := rfl

theorem shellQuote_getLast? (s : List Char) : (shellQuote s).getLast? = some '\'' := by
  rw [shellQuote, List.getLast?_append_of_ne_nil _ (by simp)]
  rfl

theorem Sealed.pass {s : List Char} (h : Sealed s) (p : Placeholder) :
    Sealed (pass t p s) := by
  have hne := shellQuote_ne_nil (t.value p)
  constructor
  · rcases Text.replaceAll_pair_head? '%' p.letter _ s hne with hh | hh
    · rw [SessionConfig.pass, hh]; exact h.head
    · rw [SessionConfig.pass, hh, shellQuote_head?]; exact .inl rfl
  · rcases Text.replaceAll_pair_getLast? '%' p.letter _ s hne with hl | hl
    · rw [SessionConfig.pass, hl]; exact h.last
    · rw [SessionConfig.pass, hl, shellQuote_getLast?]; simp

theorem letter_ne_percent (p : Placeholder) : p.letter ≠ '%' := by cases p <;> decide

theorem ofLetter_letter (p : Placeholder) : Placeholder.ofLetter p.letter = some p := by
  cases p <;> decide

theorem letter_of_ofLetter {c : Char} {p : Placeholder} (h : Placeholder.ofLetter c = some p) :
    p.letter = c := by
  have := List.find?_some h
  simpa using this

-- A literal `%` of the template is not followed by a placeholder's letter.
theorem render_head?_ne_letter (encode : Placeholder → List Char)
    (hs : ∀ p, Sealed (encode p)) (c : Char) (hc : Placeholder.ofLetter c = none)
    (rest : List Char) (p : Placeholder) :
    (render encode (template (c :: rest))).head? ≠ some p.letter := by
  have hne : c ≠ p.letter := by
    rintro rfl
    simp [ofLetter_letter] at hc
  cases rest with
  | nil => simpa [template] using hne
  | cons d rest =>
      rw [template]
      split_ifs with hp
      · split
        · rename_i q _
          rw [render_hole]
          have hsealed := (hs q).head
          cases he : encode q with
          | nil => simp [he] at hsealed
          | cons e tail =>
              simp only [he, List.head?_cons, Option.some.injEq] at hsealed
              rcases hsealed with rfl | rfl <;> cases p <;> simp [Placeholder.letter]
        · simpa using hne
      · simpa using hne

-- One replacement acts on each inserted value apart.
theorem pass_render (encode : Placeholder → List Char) (hs : ∀ p, Sealed (encode p))
    (p : Placeholder) (tmpl : List Char) :
    pass t p (render encode (template tmpl)) =
      render (fun q => pass t p (encode q)) (template tmpl) := by
  have hchar (c : Char) (s : List Char) (h : ¬ (c = '%' ∧ s.head? = some p.letter)) :
      pass t p (c :: s) = c :: pass t p s := Text.replaceAll_pair_skip _ _ _ c s h
  induction tmpl using template.induct with
  | case1 => rfl
  | case2 c => simp [template, pass]
  | case3 d rest q hq ih =>
      simp only [template, ↓reduceIte, hq, render_hole]
      rw [← ih, pass, Text.replaceAll_pair_append _ _ _ _ _ (fun h => (hs q).last h.1)]
      rfl
  | case4 d rest hq ih =>
      simp only [template, ↓reduceIte, hq, render_char]
      rw [← ih, hchar]
      exact fun h => render_head?_ne_letter encode hs d hq rest p h.2
  | case5 c d rest hc ih =>
      simp only [template, hc, ↓reduceIte, render_char]
      rw [← ih, hchar]
      exact fun h => hc h.1

theorem passes_render (ps : List Placeholder) (encode : Placeholder → List Char)
    (hs : ∀ p, Sealed (encode p)) (tmpl : List Char) :
    passes t ps (render encode (template tmpl)) =
      render (fun q => passes t ps (encode q)) (template tmpl) := by
  induction ps generalizing encode with
  | nil => rfl
  | cons p ps ih =>
      simp only [passes, List.foldl_cons] at ih ⊢
      rw [pass_render t encode hs p tmpl, ih]
      exact fun q => (hs q).pass t p

def written (p : Placeholder) : List Char := ['%', p.letter]

theorem sealed_written (p : Placeholder) : Sealed (written p) := by
  cases p <;> constructor <;> simp [written, Placeholder.letter]

theorem render_written (tmpl : List Char) : render written (template tmpl) = tmpl := by
  induction tmpl using template.induct with
  | case1 => rfl
  | case2 c => rfl
  | case3 d rest q hq ih =>
      simp [template, hq, ih, written, letter_of_ofLetter hq]
  | case4 d rest hq ih => simp [template, hq, ih]
  | case5 c d rest hc ih => simp [template, hc, ih]

-- The whole expansion, placeholder by placeholder.
def inserted (p : Placeholder) : List Char := passes t Placeholder.order (written p)

theorem onCompleteCommand_eq_render (tmpl : List Char) :
    onCompleteCommand tmpl t = render (inserted t) (template tmpl) := by
  rw [onCompleteCommand_eq_passes]
  conv_lhs => rw [← render_written tmpl]
  exact passes_render t _ written sealed_written tmpl

theorem pass_written_self (p : Placeholder) :
    pass t p (written p) = shellQuote (t.value p) := by
  simp [pass, written, Text.replaceAll_pair_match]

theorem pass_written_of_ne {p q : Placeholder} (h : q ≠ p) :
    pass t q (written p) = written p := by
  rw [pass, written, Text.replaceAll_pair_cons, if_neg, Text.replaceAll_pair_single]
  rintro ⟨-, hl⟩
  have := congrArg Placeholder.ofLetter hl
  simp only [ofLetter_letter, Option.some.injEq] at this
  exact h this.symm

-- Only the replacements after a placeholder's own touch the value it inserts.
theorem inserted_eq (p : Placeholder) :
    inserted t p = passes t p.later (shellQuote (t.value p)) := by
  cases p <;>
    simp only [inserted, passes, Placeholder.order, Placeholder.later, List.foldl_cons,
      List.foldl_nil, ne_eq, reduceCtorEq, not_false_eq_true, pass_written_of_ne,
      pass_written_self]

end Passes

section Split

variable (t : Finished)

theorem escapeQuotes_head? (s : List Char) :
    (escapeQuotes s ++ ['\'']).head? = some '\'' ∨ (escapeQuotes s ++ ['\'']).head? = s.head? := by
  cases s with
  | nil => exact .inl rfl
  | cons d s =>
      rw [escapeQuotes_cons]
      split_ifs
      · exact .inl rfl
      · exact .inr rfl

-- Quoting a value neither makes nor breaks a placeholder in it.
theorem pair_not_infix_shellQuote {c : Char} (hc : c ≠ '\'') (s : List Char)
    (h : ¬ ['%', c] <:+: s) : ¬ ['%', c] <:+: shellQuote s := by
  have hesc (s : List Char) (h : ¬ ['%', c] <:+: s) :
      ¬ ['%', c] <:+: escapeQuotes s ++ ['\''] := by
    induction s with
    | nil =>
        intro hi
        have := hi.length_le
        simp [escapeQuotes] at this
    | cons d s ih =>
        have hs : ¬ ['%', c] <:+: s := fun hi => h (List.infix_cons hi)
        intro hi
        rw [escapeQuotes_cons] at hi
        split_ifs at hi with hd
        · simp only [List.cons_append, List.nil_append, List.infix_cons_iff,
            List.cons_prefix_cons] at hi
          simp_all
        · rw [List.append_assoc, List.singleton_append] at hi
          rcases List.infix_cons_iff.mp hi with hpre | hi
          · obtain ⟨rfl, rest, hrest⟩ := List.cons_prefix_cons.mp hpre
            have hhead := escapeQuotes_head? s
            rw [← hrest, List.singleton_append, List.head?_cons, Option.some.injEq] at hhead
            obtain ⟨tail, rfl⟩ := List.head?_eq_some_iff.mp (hhead.resolve_left hc).symm
            exact h (List.IsPrefix.isInfix (by simp))
          · exact ih hs hi
  intro hi
  rw [shellQuote_eq, List.cons_append] at hi
  rcases List.infix_cons_iff.mp hi with hpre | hi
  · exact absurd (List.cons_prefix_cons.mp hpre).1 (by decide)
  · exact hesc s h hi

theorem letter_ne_quote (p : Placeholder) : p.letter ≠ '\'' := by cases p <;> decide

-- A value without later placeholders is inserted as it was quoted.
theorem inserted_of_clean (p : Placeholder)
    (h : ∀ q ∈ p.later, ¬ ['%', q.letter] <:+: t.value p) :
    inserted t p = shellQuote (t.value p) := by
  have hpasses (ps : List Placeholder)
      (h : ∀ q ∈ ps, ¬ ['%', q.letter] <:+: t.value p) :
      passes t ps (shellQuote (t.value p)) = shellQuote (t.value p) := by
    induction ps with
    | nil => rfl
    | cons q ps ih =>
        have hq := pair_not_infix_shellQuote (letter_ne_quote q) _
          (h q List.mem_cons_self)
        have hkeep : pass t q (shellQuote (t.value p)) = shellQuote (t.value p) :=
          Text.replaceAll_pair_of_not_infix _ _ _ _ hq
        simp only [passes, List.foldl_cons, hkeep] at ih ⊢
        exact ih (fun r hr => h r (List.mem_cons_of_mem _ hr))
  rw [inserted_eq, hpasses p.later h]

-- A character that is added to a word as it is, unquoted.
def Ordinary (c : Char) : Prop :=
  c ∉ ['\'', '"', '\\', '%', ' ', '\t', '\n', ';', '&', '|', '<', '>', '(', ')']

instance (c : Char) : Decidable (Ordinary c) := inferInstanceAs (Decidable (c ∉ _))

theorem readChar_ordinary {η : Type} (r : Reader η) (c : Char) (hr : r.mode = .plain)
    (hw : r.word ≠ none) (hc : Ordinary c) : r.readChar c = r.extend [.char c false] := by
  simp only [Ordinary, List.mem_cons, List.not_mem_nil, or_false, not_or] at hc
  simp [Reader.readChar, hr, Reader.readPlain, Reader.isBlank, Reader.isOperator, hc, hw]

theorem ordinary_of_isAlphanum {c : Char} (h : c.isAlphanum) : Ordinary c := by
  intro hm
  simp only [List.mem_cons, List.not_mem_nil, or_false] at hm
  rcases hm with rfl | rfl | rfl | rfl | rfl | rfl | rfl | rfl | rfl | rfl | rfl | rfl | rfl | rfl <;>
    revert h <;> decide

-- libtorrent reports absolute save paths and non-empty hexadecimal hashes.
structure Finished.Reported (t : Finished) : Prop where
  absolute : t.savePath.head? = some '/'
  hex : ∃ c, t.hash.head? = some c ∧ c.isAlphanum

theorem later_value_head (ht : t.Reported) {p q : Placeholder} (hq : q ∈ p.later) :
    ∃ c rest, t.value q = c :: rest ∧ Ordinary c := by
  obtain ⟨path, hpath⟩ := List.head?_eq_some_iff.mp ht.absolute
  obtain ⟨c, hc, halnum⟩ := ht.hex
  obtain ⟨hash, hhash⟩ := List.head?_eq_some_iff.mp hc
  cases q with
  | name => cases p <;> simp [Placeholder.later] at hq
  | savePath => exact ⟨'/', path, hpath, by decide⟩
  | hash => exact ⟨c, hash, hhash, ordinary_of_isAlphanum halnum⟩
  | totalSize =>
      obtain ⟨d, rest, hd, hdigit⟩ := Text.number_head t.totalSize
      refine ⟨d, rest, hd, ?_⟩
      rcases hdigit with rfl | hdigit
      · decide
      · exact ordinary_of_isAlphanum (by simp [Char.isAlphanum, hdigit])
  | filePath => exact ⟨'/', path ++ '/' :: t.name, by simp [Finished.value, hpath], by decide⟩

-- Text in front that contains no placeholder of this pass stays where it is.
theorem pass_append (q : Placeholder) (s rest : List Char) (hs : ¬ ['%', q.letter] <:+: s)
    (hrest : rest.head? ≠ some q.letter) : pass t q (s ++ rest) = s ++ pass t q rest := by
  rw [pass, Text.replaceAll_pair_append _ _ _ _ _ (fun h => hrest h.2),
    Text.replaceAll_pair_of_not_infix _ _ _ _ hs, pass]

-- Once a later value has been inserted, what follows its opening quote is read unquoted.
theorem passes_broken (ps : List Placeholder) (s rest : List Char) (c : Char) (hc : Ordinary c)
    (hs : ∀ q ∈ ps, ¬ ['%', q.letter] <:+: s) :
    ∃ rest', passes t ps (s ++ '\'' :: c :: rest) = s ++ '\'' :: c :: rest' := by
  induction ps generalizing rest with
  | nil => exact ⟨rest, rfl⟩
  | cons q ps ih =>
      have hq : ('\'' :: c :: rest).head? ≠ some q.letter := by
        simpa using (letter_ne_quote q).symm
      have hne : c ≠ '%' := by rintro rfl; exact hc (by decide)
      have hpass : pass t q ('\'' :: c :: rest) = '\'' :: c :: pass t q rest := by
        rw [pass, Text.replaceAll_pair_skip _ _ _ _ _ (by simp),
          Text.replaceAll_pair_skip _ _ _ _ _ (fun h => hne h.1), pass]
      obtain ⟨rest', hrest'⟩ := ih (pass t q rest) (fun r hr => hs r (List.mem_cons_of_mem _ hr))
      refine ⟨rest', ?_⟩
      simp only [passes, List.foldl_cons] at hrest' ⊢
      rw [pass_append t q s _ (hs q List.mem_cons_self) hq, hpass, hrest']

theorem passes_leftmost (ht : t.Reported) (p q : Placeholder) (hqp : q ∈ p.later)
    (ps : List Placeholder) (hq : q ∈ ps) (s rest : List Char)
    (hs : ∀ r ∈ ps, ¬ ['%', r.letter] <:+: s) :
    ∃ c rest', Ordinary c ∧
      passes t ps (s ++ '%' :: q.letter :: rest) = s ++ '\'' :: c :: rest' := by
  induction ps generalizing rest with
  | nil => simp at hq
  | cons r ps ih =>
      have hstail : ∀ d ∈ ps, ¬ ['%', d.letter] <:+: s :=
        fun d hd => hs d (List.mem_cons_of_mem _ hd)
      have hhead : ('%' :: q.letter :: rest).head? ≠ some r.letter := by
        simpa using (letter_ne_percent r).symm
      have happ := pass_append t r s ('%' :: q.letter :: rest) (hs r List.mem_cons_self) hhead
      by_cases hr : r = q
      · subst hr
        obtain ⟨c, v, hv, hc⟩ := later_value_head t ht hqp
        have hne : c ≠ '\'' := by rintro rfl; exact hc (by decide)
        have hquote : shellQuote (t.value r) = '\'' :: c :: (escapeQuotes v ++ ['\'']) := by
          simp [hv, shellQuote_eq, hne]
        have hpass : pass t r ('%' :: r.letter :: rest) =
            '\'' :: c :: (escapeQuotes v ++ ['\''] ++ pass t r rest) := by
          rw [pass, Text.replaceAll_pair_match, ← pass, hquote]
          simp
        obtain ⟨rest', hrest'⟩ := passes_broken t ps s
          (escapeQuotes v ++ ['\''] ++ pass t r rest) c hc hstail
        refine ⟨c, rest', hc, ?_⟩
        simp only [passes, List.foldl_cons] at hrest' ⊢
        rw [happ, hpass, hrest']
      · have hl : q.letter ≠ r.letter := by
          intro hl
          have := congrArg Placeholder.ofLetter hl
          simp only [ofLetter_letter, Option.some.injEq] at this
          exact hr this.symm
        have hpass : pass t r ('%' :: q.letter :: rest) = '%' :: q.letter :: pass t r rest := by
          rw [pass, Text.replaceAll_pair_cons, if_neg (fun h => hl h.2),
            Text.replaceAll_pair_skip _ _ _ _ _ (fun h => letter_ne_percent q h.1), pass]
        obtain ⟨c, rest', hc, hrest'⟩ := ih ((List.mem_cons.mp hq).resolve_left (Ne.symm hr))
          (pass t r rest) hstail
        refine ⟨c, rest', hc, ?_⟩
        simp only [passes, List.foldl_cons] at hrest' ⊢
        rw [happ, hpass, hrest']

-- The first later placeholder in a value cuts its quoting short.
theorem inserted_of_not_clean (ht : t.Reported) (p : Placeholder)
    (h : ∃ q ∈ p.later, ['%', q.letter] <:+: t.value p) :
    ∃ pre post c rest, t.value p = pre ++ '%' :: post ∧ Ordinary c ∧
      inserted t p = shellQuote pre ++ c :: rest := by
  have hletters : ∃ b ∈ p.later.map Placeholder.letter, ['%', b] <:+: t.value p := by
    obtain ⟨q, hq, hi⟩ := h
    exact ⟨q.letter, List.mem_map_of_mem hq, hi⟩
  obtain ⟨pre, b, post, hv, hb, hpre⟩ := Text.exists_leftmost_pair '%' _ _ hletters
  obtain ⟨q, hq, rfl⟩ := List.mem_map.mp hb
  have hclean : ∀ r ∈ p.later, ¬ ['%', r.letter] <:+: '\'' :: escapeQuotes pre := by
    intro r hr hi
    have hr' := pair_not_infix_shellQuote (letter_ne_quote r) pre
      (hpre _ (List.mem_map_of_mem hr))
    rw [shellQuote_eq] at hr'
    exact hr' (hi.trans (List.prefix_append _ _).isInfix)
  have hquote : shellQuote (t.value p) =
      ('\'' :: escapeQuotes pre) ++ '%' :: q.letter :: (escapeQuotes post ++ ['\'']) := by
    simp [hv, shellQuote_eq, escapeQuotes, letter_ne_quote]
  obtain ⟨c, rest, hc, hpasses⟩ := passes_leftmost t ht p q hq p.later hq
    ('\'' :: escapeQuotes pre) (escapeQuotes post ++ ['\'']) hclean
  refine ⟨pre, q.letter :: post, c, rest, hv, hc, ?_⟩
  rw [inserted_eq, hquote, hpasses, shellQuote_eq]
  simp

-- A value that is cut short is not read back: its next character would be an
-- unquoted one where the template asks for a quoted `%`.
theorem begins_inserted_false (ht : t.Reported) (p : Placeholder)
    (h : ∃ q ∈ p.later, ['%', q.letter] <:+: t.value p)
    (r : Reader Placeholder) (hr : r.mode = .plain) (rest : List Char)
    (tokens : List (Token Placeholder))
    (hactual : Begins (r.readAll (text (inserted t p ++ rest))) tokens)
    (hexpected : Begins (r.extend (literal (t.value p))) tokens) : False := by
  obtain ⟨pre, post, c, tail, hv, hc, hins⟩ := inserted_of_not_clean t ht p h
  rw [hins, List.append_assoc, text_append, Reader.readAll_append,
    quotes_shellQuote pre r hr, List.cons_append, text_cons, Reader.readAll_cons] at hactual
  have hstep := begins_of_readAll _ _ _ hactual
  rw [Reader.read, readChar_ordinary (r.extend (literal pre)) c hr (by simp [Reader.extend]) hc]
    at hstep
  obtain ⟨w, more, htokens⟩ := hstep
  obtain ⟨w', more', htokens'⟩ := hexpected
  rw [htokens] at htokens'
  simp only [Reader.extend, Option.getD_some, List.append_cancel_left_eq, List.cons.injEq,
    Token.word.injEq, List.append_assoc, hv, literal, List.map_append, List.map_cons,
    List.cons_append, List.nil_append, Piece.char.injEq, Bool.false_eq_true, and_false,
    false_and] at htokens'

theorem begins_fill (value : Placeholder → List Char) (r : Reader Placeholder)
    (tokens : List (Token Placeholder)) (h : Begins r tokens) :
    Begins (r.fill value) (tokens.map (Token.fill value)) := by
  cases hw : r.word with
  | none =>
      simp only [Begins, Reader.fill, hw, Option.map_none] at h ⊢
      obtain ⟨more, rfl⟩ := h
      exact ⟨more.map (Token.fill value), by simp⟩
  | some w =>
      simp only [Begins, Reader.fill, hw, Option.map_some] at h ⊢
      obtain ⟨w', more, rfl⟩ := h
      exact ⟨fillWord value w', more.map (Token.fill value), by simp [Token.fill]⟩

-- The reader has kept step up to the first unclean placeholder; there the split departs.
theorem clean_of_readAll (ht : t.Reported) (syms : List (Sym Placeholder))
    (r : Reader Placeholder) (hp : HolesPlain r syms) (tokens : List (Token Placeholder))
    (hclose : (r.readAll syms).close = some tokens)
    (hactual : ((r.fill t.value).readAll (text (render (inserted t) syms))).close =
      some (tokens.map (Token.fill t.value))) :
    ∀ p, .hole p ∈ syms → ∀ q ∈ p.later, ¬ ['%', q.letter] <:+: t.value p := by
  induction syms generalizing r with
  | nil => simp
  | cons s syms ih =>
      cases s with
      | char c =>
          simp only [render_char, text_cons, Reader.readAll_cons, Reader.read] at hactual hclose
          rw [← fill_readChar] at hactual
          intro p hm
          exact ih _ hp hclose hactual p ((List.mem_cons.mp hm).resolve_left (by simp))
      | hole p =>
          have hexpected : Begins ((r.fill t.value).extend (literal (t.value p)))
              (tokens.map (Token.fill t.value)) := by
            have hb := begins_of_readAll syms _ _ (begins_of_close _ _ hclose)
            have hf := begins_fill t.value _ _ hb
            rwa [Reader.read, fill_extend, fillWord_hole] at hf
          have hclean : ∀ q ∈ p.later, ¬ ['%', q.letter] <:+: t.value p := by
            intro q hq hi
            rw [render_hole] at hactual
            exact begins_inserted_false t ht p ⟨q, hq, hi⟩ (r.fill t.value) hp.1 _ _
              (begins_of_close _ _ hactual) hexpected
          rw [render_hole, text_append, Reader.readAll_append, inserted_of_clean t p hclean,
            quotes_shellQuote (t.value p) (r.fill t.value) hp.1, ← fillWord_hole,
            ← fill_extend] at hactual
          intro p' hm
          rcases List.mem_cons.mp hm with heq | hm
          · obtain rfl : p' = p := by simpa using heq
            exact hclean
          · exact ih _ hp.2 hclose hactual p' hm

end Split

-- The shell reads the expanded command as the template's words with each placeholder
-- replaced by its literal value exactly when no inserted value is expanded again. The
-- second half needs what libtorrent reports; the first holds for every value.
theorem onCompleteCommand_split (tmpl : List Char) (t : Finished)
    (tokens : List (Token Placeholder)) (hplain : HolesPlain .start (template tmpl))
    (hsplit : split (template tmpl) = some tokens) :
    (InsertsNoPlaceholder tmpl t →
      split (text (onCompleteCommand tmpl t)) = some (tokens.map (Token.fill t.value))) ∧
    (t.Reported →
      split (text (onCompleteCommand tmpl t)) = some (tokens.map (Token.fill t.value)) →
      InsertsNoPlaceholder tmpl t) := by
  rw [onCompleteCommand_eq_render]
  constructor
  · intro hclean
    have hq : ∀ p, .hole p ∈ template tmpl → Quotes Placeholder (inserted t p) (t.value p) := by
      intro p hm
      rw [inserted_of_clean t p (hclean p hm)]
      exact quotes_shellQuote _
    rw [split_render (inserted t) t.value (template tmpl) hplain hq, hsplit]
    rfl
  · intro ht hactual
    exact clean_of_readAll t ht (template tmpl) .start hplain tokens hsplit hactual

private def holiday : Finished :=
  { name := ['a', ' ', '%', 'N', '\''], savePath := ['/', 'd', ';', 'l'], hash := ['0', 'f'],
    totalSize := 12 }

-- `run %N -d %D`
private def runTemplate : List Char :=
  ['r', 'u', 'n', ' ', '%', 'N', ' ', '-', 'd', ' ', '%', 'D']

theorem onCompleteCommand_split_runTemplate :
    split (text (onCompleteCommand runTemplate holiday) : List (Sym Placeholder)) =
      some [.word [.char 'r' false, .char 'u' false, .char 'n' false],
        .word (literal holiday.name), .word [.char '-' false, .char 'd' false],
        .word (literal holiday.savePath)] := by
  refine (onCompleteCommand_split runTemplate holiday
    [.word [.char 'r' false, .char 'u' false, .char 'n' false], .word [.hole .name],
      .word [.char '-' false, .char 'd' false], .word [.hole .savePath]]
    (by decide) (by decide)).1 ?_
  intro p hm q hq
  have hp : p = .name ∨ p = .savePath := by
    revert hm
    cases p <;> decide
  rcases hp with rfl | rfl <;> revert hq <;> cases q <;> decide

-- A torrent named `%D`, saved below a folder with a semicolon in its name.
private def hostile : Finished :=
  { name := ['%', 'D'], savePath := ['/', 'd', ';', 'r', 'm'], hash := ['0', 'f'], totalSize := 1 }

theorem onCompleteCommand_split_hostile :
    ¬ ∀ (tmpl : List Char) (t : Finished) (tokens : List (Token Placeholder)),
      HolesPlain .start (template tmpl) → split (template tmpl) = some tokens →
      split (text (onCompleteCommand tmpl t)) = some (tokens.map (Token.fill t.value)) := by
  intro h
  have h := h ['%', 'N'] hostile [.word [.hole .name]] (by decide) (by decide)
  revert h
  decide

end BATorrent.SessionConfig
