import BATorrent.Lib.Text

namespace Lib.Ini

open Lib.Text

abbrev Text := List Char

inductive Line where
  | blank
  | header (name : Text)
  | keyless
  | pair (key val : Text)
deriving DecidableEq

-- One line of a file of sections and keys. What a comment starts with and how names are lower-cased is up
-- to the reader of the file.
def line (comment : Char → Bool) (lower : Text → Text) (raw : Text) : Line :=
  let s := trimmed (raw.takeWhile fun c => !comment c)
  if s = [] then .blank
  else if s.head? = some '[' ∧ s.getLast? = some ']' then .header (lower (trimmed (s.drop 1).dropLast))
  else if '=' ∈ s then
    .pair (lower (trimmed (s.takeWhile (· ≠ '=')))) (trimmed ((s.dropWhile (· ≠ '=')).drop 1))
  else .keyless

abbrev Entry := Text × Text

structure Part where
  name : Text
  entries : List Entry
deriving DecidableEq

-- What stands before the first header, and what stands under each header.
structure Sheet where
  preamble : List Entry := []
  parts : List Part := []
deriving DecidableEq

def sheet : List Line → Sheet
  | [] => {}
  | .header name :: rest => ⟨[], ⟨name, (sheet rest).preamble⟩ :: (sheet rest).parts⟩
  | .pair key val :: rest => { sheet rest with preamble := (key, val) :: (sheet rest).preamble }
  | .blank :: rest => sheet rest
  | .keyless :: rest => sheet rest

-- The entries of the parts of a name, part by part.
def Sheet.named (name : Text) (s : Sheet) : List (List Entry) :=
  (s.parts.filter fun p => p.name = name).map Part.entries

-- The values given to a key, in order.
def values (key : Text) (entries : List Entry) : List Text :=
  (entries.filter fun e => e.1 = key).map Prod.snd

def last (key : Text) (entries : List Entry) : Option Text := (values key entries).getLast?

-- What the last value of a key reads as.
def setting {α : Type*} (key : Text) (read : Text → α) (unset : α) (entries : List Entry) : α :=
  (last key entries).elim unset read

section Values

variable {key : Text} {e : Entry} {entries more : List Entry}

@[simp] theorem values_nil : values key [] = [] := rfl

theorem values_cons_of_eq (h : e.1 = key) : values key (e :: entries) = e.2 :: values key entries := by
  simp [values, h]

theorem values_cons_of_ne (h : e.1 ≠ key) : values key (e :: entries) = values key entries := by
  simp [values, h]

@[simp] theorem last_nil : last key [] = none := rfl

theorem last_cons_of_ne (h : e.1 ≠ key) : last key (e :: entries) = last key entries := by
  rw [last, values_cons_of_ne h, last]

theorem last_cons_of_eq (h : e.1 = key) :
    last key (e :: entries) = some ((last key entries).getD e.2) := by
  rw [last, last, values_cons_of_eq h]
  exact List.getLast?_cons

theorem mem_values {val : Text} : val ∈ values key entries ↔ (key, val) ∈ entries := by
  simp [values]

theorem mem_of_last {val : Text} (h : last key entries = some val) : (key, val) ∈ entries :=
  mem_values.mp (List.mem_of_getLast? h)

end Values

section Folds

variable {σ α : Type*} {set : σ → Entry → σ} {key : Text}

-- A setting that each entry of its key replaces is left with the last.
theorem foldl_replaced {get : σ → α} {read : Text → α}
    (hset : ∀ s e, get (set s e) = if e.1 = key then read e.2 else get s) (s : σ) (entries : List Entry) :
    get (entries.foldl set s) = setting key read (get s) entries := by
  unfold setting
  induction entries generalizing s with
  | nil => rfl
  | cons e rest ih =>
      rw [List.foldl_cons, ih, hset]
      by_cases h : e.1 = key
      · rw [if_pos h, last_cons_of_eq h]
        cases last key rest with
        | none => rfl
        | some v => rfl
      · rw [if_neg h, last_cons_of_ne h]

-- One that each adds to is left with all of them.
theorem foldl_gathered {get : σ → List α} {read : Text → List α}
    (hset : ∀ s e, get (set s e) = if e.1 = key then get s ++ read e.2 else get s) (s : σ)
    (entries : List Entry) :
    get (entries.foldl set s) = get s ++ (values key entries).flatMap read := by
  induction entries generalizing s with
  | nil => simp
  | cons e rest ih =>
      rw [List.foldl_cons, ih, hset]
      by_cases h : e.1 = key
      · simp [h, values_cons_of_eq h]
      · simp [h, values_cons_of_ne h]

end Folds

section Read

variable {σ : Type*} {enter : σ → Text → σ} {assign : σ → Entry → σ}

-- What a sheet comes to for a reader that is told of each header and each entry.
def Sheet.fill (enter : σ → Text → σ) (assign : σ → Entry → σ) (sh : Sheet) (s : σ) : σ :=
  sh.parts.foldl (fun s p => p.entries.foldl assign (enter s p.name)) (sh.preamble.foldl assign s)

-- A reader that skips the lines which say nothing.
structure Reads (enter : σ → Text → σ) (assign : σ → Entry → σ) (step : σ → Line → σ) : Prop where
  blank : ∀ s, step s .blank = s
  keyless : ∀ s, step s .keyless = s
  header : ∀ s name, step s (.header name) = enter s name
  pair : ∀ s key val, step s (.pair key val) = assign s (key, val)

theorem Reads.foldl {step : σ → Line → σ} (h : Reads enter assign step) (s : σ) (lines : List Line) :
    lines.foldl step s = (sheet lines).fill enter assign s := by
  induction lines generalizing s with
  | nil => rfl
  | cons l rest ih =>
      rw [List.foldl_cons, ih]
      cases l with
      | blank => rw [h.blank, sheet]
      | keyless => rw [h.keyless, sheet]
      | header name =>
          rw [h.header]
          rfl
      | pair key val =>
          rw [h.pair]
          rfl

-- What only the parts of one name bear on is what those parts make of it.
theorem Sheet.get_fill {α : Type*} (get : σ → α) (name : Text) (note : α → List Entry → α) {sh : Sheet} {s : σ}
    (hpreamble : get (sh.preamble.foldl assign s) = get s)
    (hnamed : ∀ s (entries : List Entry), get (entries.foldl assign (enter s name)) = note (get s) entries)
    (hother : ∀ s other (entries : List Entry), other ≠ name → get (entries.foldl assign (enter s other)) = get s) :
    get (sh.fill enter assign s) = (sh.named name).foldl note (get s) := by
  have hparts : ∀ (parts : List Part) (s : σ),
      get (parts.foldl (fun s p => p.entries.foldl assign (enter s p.name)) s) =
        ((parts.filter fun p => p.name = name).map Part.entries).foldl note (get s) := by
    intro parts
    induction parts with
    | nil => exact fun s => rfl
    | cons p rest ih =>
        intro s
        rw [List.foldl_cons, ih]
        by_cases h : p.name = name
        · rw [List.filter_cons_of_pos (by simpa using h), h, hnamed]
          rfl
        · rw [List.filter_cons_of_neg (by simpa using h), hother s p.name p.entries h]
  rw [Sheet.fill, hparts, hpreamble, Sheet.named]

-- A reader that stops at the first line it does not take. What it takes in a part depends on the part's name.
structure Checks (enter : σ → Text → σ) (assign : σ → Entry → σ) (within : σ → Text) (known : Text → Prop)
    (good : Text → Entry → Prop) {ε : Type*} (step : σ → Line → Except ε σ) : Prop where
  blank : ∀ s, step s .blank = .ok s
  keyless : ∀ s t, step s .keyless ≠ .ok t
  header : ∀ s t name, step s (.header name) = .ok t ↔ known name ∧ t = enter s name
  pair : ∀ s t key val,
    step s (.pair key val) = .ok t ↔ good (within s) (key, val) ∧ t = assign s (key, val)
  enter : ∀ s name, within (enter s name) = name
  assign : ∀ s e, within (assign s e) = within s

-- Every line of a sheet is taken.
structure Sheet.Good (known : Text → Prop) (good : Text → Entry → Prop) (sh : Sheet) (first : Text) :
    Prop where
  preamble : ∀ e ∈ sh.preamble, good first e
  parts : ∀ p ∈ sh.parts, known p.name ∧ ∀ e ∈ p.entries, good p.name e

variable {within : σ → Text} {known : Text → Prop} {good : Text → Entry → Prop} {ε : Type*}
  {step : σ → Line → Except ε σ}

theorem Checks.foldlM (h : Checks enter assign within known good step) (s t : σ) (lines : List Line) :
    lines.foldlM step s = .ok t ↔
      (.keyless ∉ lines ∧ (sheet lines).Good known good (within s)) ∧ t = (sheet lines).fill enter assign s := by
  induction lines generalizing s with
  | nil =>
      constructor
      · intro hok
        exact ⟨⟨List.not_mem_nil, nofun, nofun⟩, (Except.ok.inj hok).symm⟩
      · rintro ⟨-, rfl⟩
        rfl
  | cons l rest ih =>
      have hcons : (l :: rest).foldlM step s = .ok t ↔ ∃ u, step s l = .ok u ∧ rest.foldlM step u = .ok t := by
        rw [List.foldlM_cons]
        cases step s l with
        | error e =>
            constructor
            · intro hok
              cases hok
            · rintro ⟨u, hu, -⟩
              cases hu
        | ok u =>
            constructor
            · intro hok
              exact ⟨u, rfl, hok⟩
            · rintro ⟨v, hv, hok⟩
              obtain rfl := Except.ok.inj hv
              exact hok
      rw [hcons]
      cases l with
      | blank =>
          simp only [h.blank, Except.ok.injEq, exists_eq_left', ih, sheet, List.mem_cons, reduceCtorEq, false_or]
      | keyless =>
          constructor
          · rintro ⟨u, hu, -⟩
            exact absurd hu (h.keyless s u)
          · rintro ⟨⟨hnone, -⟩, -⟩
            exact absurd List.mem_cons_self hnone
      | header name =>
          have hgood : (sheet (.header name :: rest)).Good known good (within s) ↔
              known name ∧ (sheet rest).Good known good name := by
            constructor
            · intro hall
              obtain ⟨⟨hknown, hfirst⟩, hparts⟩ := List.forall_mem_cons.mp hall.parts
              exact ⟨hknown, hfirst, hparts⟩
            · rintro ⟨hknown, hall⟩
              exact ⟨nofun, List.forall_mem_cons.mpr ⟨⟨hknown, hall.preamble⟩, hall.parts⟩⟩
          simp only [h.header, and_assoc, exists_and_left, exists_eq_left, ih, h.enter, hgood, List.mem_cons,
            reduceCtorEq, false_or]
          exact ⟨fun ⟨hk, hn, hg, ht⟩ => ⟨hn, hk, hg, ht⟩, fun ⟨hn, hk, hg, ht⟩ => ⟨hk, hn, hg, ht⟩⟩
      | pair key val =>
          have hgood : (sheet (.pair key val :: rest)).Good known good (within s) ↔
              good (within s) (key, val) ∧ (sheet rest).Good known good (within s) := by
            constructor
            · intro hall
              obtain ⟨hfirst, hpreamble⟩ := List.forall_mem_cons.mp hall.preamble
              exact ⟨hfirst, hpreamble, hall.parts⟩
            · rintro ⟨hfirst, hall⟩
              exact ⟨List.forall_mem_cons.mpr ⟨hfirst, hall.preamble⟩, hall.parts⟩
          simp only [h.pair, and_assoc, exists_and_left, exists_eq_left, ih, h.assign, hgood, List.mem_cons,
            reduceCtorEq, false_or]
          exact ⟨fun ⟨hk, hn, hg, ht⟩ => ⟨hn, hk, hg, ht⟩, fun ⟨hn, hk, hg, ht⟩ => ⟨hk, hn, hg, ht⟩⟩

end Read

end Lib.Ini
