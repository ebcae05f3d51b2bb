import BATorrent.Services.SubtitleParser.Undone
import Mathlib.Data.List.Sort
import Mathlib.Data.List.Pairwise
import Mathlib.Data.List.Perm.Basic

namespace BATorrent.SubtitleParser

open Lib
open Text (isSpaceChar)

section Lines

theorem splitLines_cons {c : Char} (hc : c ≠ '\n' ∧ c ≠ '\r') (t : Text) :
    splitLines (c :: t) =
      match splitLines t with
      | [] => [[c]]
      | line :: lines => (c :: line) :: lines := by
  apply splitLines.eq_4
  · exact hc.1
  · exact fun _ heq => absurd heq hc.2

theorem OneLine.cons {c : Char} {line : Text} (h : OneLine (c :: line)) : (c ≠ '\n' ∧ c ≠ '\r') ∧ OneLine line := by
  refine ⟨⟨?_, ?_⟩, ?_, ?_⟩
  · rintro rfl
    exact h.1 List.mem_cons_self
  · rintro rfl
    exact h.2 List.mem_cons_self
  · exact fun hmem => h.1 (List.mem_cons_of_mem c hmem)
  · exact fun hmem => h.2 (List.mem_cons_of_mem c hmem)

theorem splitLines_append {line t rest : Text} {lines : List Text} (hline : OneLine line)
    (ht : splitLines t = rest :: lines) : splitLines (line ++ t) = (line ++ rest) :: lines := by
  induction line with
  | nil => exact ht
  | cons c line ih =>
      obtain ⟨hc, hline⟩ := hline.cons
      rw [List.cons_append, splitLines_cons hc, ih hline]
      rfl

-- The lines of a file are found again.
theorem splitLines_joins {lines : List Text} {content : Text} (h : Joins lines content)
    (hlines : ∀ line ∈ lines, OneLine line) : splitLines content = lines := by
  induction h with
  | last line =>
      have hend := splitLines_append (t := []) (hlines line List.mem_cons_self) rfl
      rw [List.append_nil] at hend
      exact hend
  | @lf lines content line rest ih =>
      have hrest := ih fun t ht => hlines t (List.mem_cons_of_mem line ht)
      have hbreak : splitLines ('\n' :: content) = [] :: splitLines content := rfl
      rw [splitLines_append (hlines line List.mem_cons_self) hbreak, hrest, List.append_nil]
  | @crlf lines content line rest ih =>
      have hrest := ih fun t ht => hlines t (List.mem_cons_of_mem line ht)
      have hbreak : splitLines ('\r' :: '\n' :: content) = [] :: splitLines content := rfl
      rw [splitLines_append (hlines line List.mem_cons_self) hbreak, hrest, List.append_nil]

end Lines

section Documents

theorem sep_cases (vtt : Bool) : Document.sep vtt = '.' ∨ Document.sep vtt = ',' := by
  cases vtt with
  | false => exact .inr rfl
  | true => exact .inl rfl

theorem oneLine_of_mem {t : Text} (h : ∀ c ∈ t, c ≠ '\n' ∧ c ≠ '\r') : OneLine t :=
  ⟨fun hmem => (h _ hmem).1 rfl, fun hmem => (h _ hmem).2 rfl⟩

theorem oneLine_append {s t : Text} (hs : OneLine s) (ht : OneLine t) : OneLine (s ++ t) := by
  constructor
  · intro h
    exact (List.mem_append.mp h).elim hs.1 ht.1
  · intro h
    exact (List.mem_append.mp h).elim hs.2 ht.2

theorem oneLine_spelled (t : Stamp) {sep : Char} (hsep : sep = '.' ∨ sep = ',') : OneLine (t.spelled sep) := by
  apply oneLine_of_mem
  intro c hc
  have hvisible := visible_spelled t hsep c hc
  constructor
  · rintro rfl
    revert hvisible
    decide
  · rintro rfl
    revert hvisible
    decide

theorem oneLine_gap {ws : Text} (h : ∀ c ∈ ws, c = ' ' ∨ c = '\t') : OneLine ws := by
  apply oneLine_of_mem
  intro c hc
  rcases h c hc with rfl | rfl <;> decide

theorem oneLine_timing (e : Spelling) {sep : Char} (hsep : sep = '.' ∨ sep = ',') : OneLine (e.timing sep) := by
  have harrow : OneLine ['-', '-', '>'] := by
    constructor <;> decide
  apply oneLine_append (oneLine_spelled e.start hsep)
  apply oneLine_append (oneLine_gap e.before_space.2)
  apply oneLine_append (s := ['-', '-', '>']) harrow
  apply oneLine_append (oneLine_gap e.after_space.2)
  exact oneLine_append (oneLine_spelled e.stop hsep) e.settings_line.1

theorem oneLine_block (b : Block) {sep : Char} (hsep : sep = '.' ∨ sep = ',') :
    ∀ line ∈ b.written sep, OneLine line := by
  cases b with
  | remark lines legal => exact fun line hline => (legal line hline).1
  | cue e =>
      intro line hline
      rw [Block.written, Spelling.written] at hline
      rcases List.mem_append.mp hline with hline | hline
      · exact (e.identifier_line line (Option.mem_toList.mp hline)).1
      rcases List.mem_cons.mp hline with rfl | hline
      · exact oneLine_timing e hsep
      · exact (e.line line hline).1

theorem oneLine_blanks {n : Nat} : ∀ line ∈ List.replicate n ([] : Text), OneLine line := by
  intro line hline
  rw [List.eq_of_mem_replicate hline]
  exact ⟨List.not_mem_nil, List.not_mem_nil⟩

theorem oneLine_linesOf {sep : Char} (hsep : sep = '.' ∨ sep = ',') (blocks : List (Block × Nat)) :
    ∀ line ∈ Document.linesOf sep blocks, OneLine line := by
  induction blocks with
  | nil => exact fun line hline => absurd hline List.not_mem_nil
  | cons b blocks ih =>
      intro line hline
      rw [Document.linesOf] at hline
      rcases List.mem_append.mp hline with hline | hline
      · exact oneLine_block b.1 hsep line hline
      rcases List.mem_append.mp hline with hline | hline
      · exact oneLine_blanks line hline
      · exact ih line hline

theorem ended_replicate {n : Nat} {lines : List Text} (h : 1 ≤ n ∨ lines = []) :
    Ended (List.replicate n [] ++ lines) := by
  intro line hline
  cases n with
  | zero =>
      rw [h.resolve_left (by omega)] at hline
      cases hline
  | succ n =>
      cases hline
      exact isBlank_nil

-- Block after block, the cues that are recognized are found.
theorem cuesFrom_linesOf (vtt : Bool) (blocks : List (Block × Nat)) (h : ∀ b ∈ blocks.dropLast, 1 ≤ b.2) :
    cuesFrom vtt (Document.linesOf (Document.sep vtt) blocks) =
      ((blocks.filterMap fun b => b.1.spelling).filter fun e => decide (Recognized vtt e)).map Spelling.cue := by
  induction blocks with
  | nil =>
      rw [Document.linesOf, cuesFrom]
      rfl
  | cons b blocks ih =>
      obtain ⟨b, blanks⟩ := b
      have hblanks : 1 ≤ blanks ∨ Document.linesOf (Document.sep vtt) blocks = [] := by
        cases blocks with
        | nil => exact .inr rfl
        | cons b' blocks => exact .inl (h (b, blanks) List.mem_cons_self)
      have hrest : ∀ b ∈ blocks.dropLast, 1 ≤ b.2 := by
        intro b' hb'
        cases blocks with
        | nil => cases hb'
        | cons b'' blocks => exact h b' (List.mem_cons_of_mem _ hb')
      have hended := ended_replicate hblanks
      rw [Document.linesOf]
      cases b with
      | remark lines legal =>
          rw [Block.written, cuesFrom_remark (fun t ht => (legal t ht).2) hended, cuesFrom_replicate, ih hrest]
          rfl
      | cue e =>
          rw [Block.written, cuesFrom_cue (sep_cases vtt) e hended, cuesFrom_replicate, ih hrest]
          have hspelling : ((Block.cue e, blanks) :: blocks).filterMap (fun b => b.1.spelling) =
              e :: blocks.filterMap fun b => b.1.spelling := rfl
          rw [hspelling, List.filter_cons]
          by_cases hread : Recognized vtt e
          · rw [if_pos hread, if_pos (decide_eq_true hread)]
            rfl
          · rw [if_neg hread, if_neg (by rw [decide_eq_false hread]; exact Bool.false_ne_true)]
            rfl

theorem cuesFrom_document (vtt : Bool) (doc : Document) {content : Text} (h : Joins (doc.lines vtt) content) :
    cuesFrom vtt (splitLines content) =
      (doc.spellings.filter fun e => decide (Recognized vtt e)).map Spelling.cue := by
  have hlines : ∀ line ∈ doc.lines vtt, OneLine line := by
    intro line hline
    rcases List.mem_append.mp hline with hline | hline
    · exact oneLine_blanks line hline
    · exact oneLine_linesOf (sep_cases vtt) doc.blocks line hline
  rw [splitLines_joins h hlines, Document.lines, cuesFrom_replicate, cuesFrom_linesOf vtt doc.blocks doc.apart]
  rfl

end Documents

section Law

-- What std::sort promises.
def Sorts (sort : List SubtitleCue → List SubtitleCue) : Prop :=
  ∀ cues, (sort cues).Perm cues ∧ (sort cues).Pairwise fun a b => a.startMs ≤ b.startMs

def parse (vtt : Bool) (sort : List SubtitleCue → List SubtitleCue) (content : Text) : List SubtitleCue :=
  if vtt then parseVtt sort content else parseSrt sort content

theorem parse_eq (vtt : Bool) (sort : List SubtitleCue → List SubtitleCue) (content : Text) :
    parse vtt sort content = sort (cuesFrom vtt (splitLines content)) := by
  cases vtt with
  | false => rfl
  | true => rfl

theorem insertionSort_sorts : Sorts (List.insertionSort fun a b => a.startMs ≤ b.startMs) := by
  intro cues
  have htrans : IsTrans SubtitleCue fun a b => a.startMs ≤ b.startMs := ⟨fun _ _ _ => le_trans⟩
  have htotal : Std.Total fun a b : SubtitleCue => a.startMs ≤ b.startMs := ⟨fun a b => le_total _ _⟩
  exact ⟨List.perm_insertionSort _ cues, List.pairwise_insertionSort _ cues⟩

variable {cues : List SubtitleCue}

-- Cues in order, with no two different ones at the same time, can only be sorted into themselves.
theorem sort_eq {sort : List SubtitleCue → List SubtitleCue} (hsort : Sorts sort)
    (hstart : cues.Pairwise fun a b => a.startMs ≤ b.startMs)
    (htie : cues.Pairwise fun a b => a.startMs = b.startMs → a = b) : sort cues = cues := by
  obtain ⟨hperm, hsorted⟩ := hsort cues
  have hsymm : Std.Symm fun a b : SubtitleCue => a.startMs = b.startMs → a = b :=
    ⟨fun a b h heq => (h heq.symm).symm⟩
  have hsame : ∀ ⦃a⦄, a ∈ cues → ∀ ⦃b⦄, b ∈ cues → a.startMs = b.startMs → a = b :=
    htie.forall_of_forall fun a _ _ => rfl
  exact hperm.eq_of_pairwise (fun a b ha hb hab hba => hsame (hperm.subset ha) hb (le_antisymm hab hba)) hsorted
    hstart

theorem exists_of_not_pairwise {α : Type} {R : α → α → Prop} {l : List α} (h : ¬ l.Pairwise R) :
    ∃ l₁ a l₂ b l₃, l = l₁ ++ a :: (l₂ ++ b :: l₃) ∧ ¬ R a b := by
  induction l with
  | nil => exact absurd List.Pairwise.nil h
  | cons a l ih =>
      by_cases hall : ∀ b ∈ l, R a b
      · have htail : ¬ l.Pairwise R := fun htail => h (List.pairwise_cons.mpr ⟨hall, htail⟩)
        obtain ⟨l₁, a', l₂, b, l₃, rfl, hnot⟩ := ih htail
        exact ⟨a :: l₁, a', l₂, b, l₃, rfl, hnot⟩
      · obtain ⟨b, hb⟩ := not_forall.mp hall
        obtain ⟨hmem, hnot⟩ := Classical.not_imp.mp hb
        obtain ⟨l₂, l₃, rfl⟩ := List.append_of_mem hmem
        exact ⟨[], a, l₂, b, l₃, rfl, hnot⟩

-- Two different cues at the same time may change places.
theorem exists_sort_ne (hstart : cues.Pairwise fun a b => a.startMs ≤ b.startMs)
    (htie : ¬ cues.Pairwise fun a b => a.startMs = b.startMs → a = b) : ∃ sort, Sorts sort ∧ sort cues ≠ cues := by
  obtain ⟨l₁, a, l₂, b, l₃, hcues, hab⟩ := exists_of_not_pairwise htie
  obtain ⟨hsame, hne⟩ := Classical.not_imp.mp hab
  have hperm : (l₁ ++ b :: (l₂ ++ a :: l₃)).Perm cues := by
    rw [hcues]
    apply List.Perm.append_left
    have hfirst : (b :: (l₂ ++ a :: l₃)).Perm (b :: a :: (l₂ ++ l₃)) := List.perm_middle.cons b
    have hlast : (a :: b :: (l₂ ++ l₃)).Perm (a :: (l₂ ++ b :: l₃)) := List.perm_middle.symm.cons a
    exact (hfirst.trans (List.Perm.swap a b _)).trans hlast
  have hsorted : (l₁ ++ b :: (l₂ ++ a :: l₃)).Pairwise fun a b => a.startMs ≤ b.startMs := by
    have hmap : (l₁ ++ b :: (l₂ ++ a :: l₃)).map SubtitleCue.startMs = cues.map SubtitleCue.startMs := by
      rw [hcues]
      simp only [List.map_append, List.map_cons, hsame]
    have hstarts : (cues.map SubtitleCue.startMs).Pairwise (· ≤ ·) := List.pairwise_map.mpr hstart
    rw [← hmap] at hstarts
    exact List.pairwise_map.mp hstarts
  refine ⟨fun xs => if xs = cues then l₁ ++ b :: (l₂ ++ a :: l₃)
    else xs.insertionSort fun a b => a.startMs ≤ b.startMs, ?_, ?_⟩
  · intro xs
    dsimp only
    by_cases hxs : xs = cues
    · rw [if_pos hxs, hxs]
      exact ⟨hperm, hsorted⟩
    · rw [if_neg hxs]
      exact insertionSort_sorts xs
  · dsimp only
    rw [if_pos rfl, hcues]
    intro heq
    have htail := List.append_cancel_left heq
    exact hne (List.cons.inj htail).1.symm

-- The parser undoes the writing, whatever the sort does with ties, exactly where every cue is
-- recognized and no two different cues start at the same time.
theorem parse_gives_cues_iff (vtt : Bool) (doc : Document) (content : Text)
    (h : Joins (doc.lines vtt) content) (hstart : doc.cues.Pairwise fun a b => a.startMs ≤ b.startMs) :
    (∀ sort, Sorts sort → parse vtt sort content = doc.cues) ↔
      (∀ e ∈ doc.spellings, Recognized vtt e) ∧
        doc.cues.Pairwise fun a b => a.startMs = b.startMs → a = b := by
  simp only [parse_eq, cuesFrom_document vtt doc h]
  have hkept : (∀ e ∈ doc.spellings, Recognized vtt e) →
      (doc.spellings.filter fun e => decide (Recognized vtt e)).map Spelling.cue = doc.cues := by
    intro hall
    rw [List.filter_eq_self.mpr fun e he => decide_eq_true (hall e he)]
    rfl
  constructor
  · intro hparse
    have hall : ∀ e ∈ doc.spellings, Recognized vtt e := by
      have hsorted := hparse _ insertionSort_sorts
      have hlength := congrArg List.length hsorted
      rw [List.length_insertionSort, List.length_map, Document.cues, List.length_map] at hlength
      intro e he
      exact of_decide_eq_true (List.length_filter_eq_length_iff.mp hlength e he)
    refine ⟨hall, ?_⟩
    by_contra htie
    obtain ⟨sort, hsort, hne⟩ := exists_sort_ne hstart htie
    have hsame := hparse sort hsort
    rw [hkept hall] at hsame
    exact hne hsame
  · rintro ⟨hall, htie⟩ sort hsort
    rw [hkept hall]
    exact sort_eq hsort hstart htie

-- Lines ended in one way.
def lfText : List Text → Text
  | [] => []
  | [line] => line
  | line :: lines => line ++ '\n' :: lfText lines

theorem joins_lfText {lines : List Text} (h : lines ≠ []) : Joins lines (lfText lines) := by
  induction lines with
  | nil => exact absurd rfl h
  | cons line lines ih =>
      cases lines with
      | nil => exact .last line
      | cons next lines => exact .lf line (ih (List.cons_ne_nil next lines))

def stamp (hours : String) (seconds : Nat) (h : hours.toList.all Char.isDigit = true) (hseconds : seconds < 60) : Stamp where
  hours := hours.toList
  minutes := 0
  seconds := seconds
  millis := 0
  digits := List.all_eq_true.mp h
  minutes_lt := by decide
  seconds_lt := hseconds
  millis_lt := by decide

def greeting (start stop : Stamp) (h : start.value < stop.value) : Spelling where
  identifier := some "1".toList
  start := start
  stop := stop
  before := [' ']
  after := [' ']
  settings := " align:start".toList
  lines := ["hi".toList, "there".toList]
  ordered := h
  identifier_line t ht := by
    cases ht
    decide
  before_space := ⟨List.cons_ne_nil _ _, by simp⟩
  after_space := ⟨List.cons_ne_nil _ _, by simp⟩
  settings_line := by decide
  settings_apart := by simp
  lines_ne_nil := by decide
  line := by decide

def header : Block := .remark ["WEBVTT".toList] (by decide)

def greetings (start stop : Stamp) (h : start.value < stop.value) : Document where
  leading := 0
  blocks := [(header, 1), (.cue (greeting start stop h), 0)]
  apart b hb := by rw [List.mem_singleton.mp hb]
  nonempty := .inr (List.cons_ne_nil _ _)

def narrow : Document :=
  greetings (stamp "00" 1 (by decide) (by decide)) (stamp "00" 2 (by decide) (by decide)) (by decide)

def narrowLines : List Text :=
  ["WEBVTT".toList, [], "1".toList, "00:00:01.000 --> 00:00:02.000 align:start".toList, "hi".toList, "there".toList]

theorem parse_narrow :
    parse true (List.insertionSort fun a b => a.startMs ≤ b.startMs) (lfText narrowLines) =
      [⟨1000, 2000, "hi<br/>there".toList⟩] := by
  have hlines : narrow.lines true = narrowLines := by decide +kernel
  have hjoins : Joins (narrow.lines true) (lfText narrowLines) := by
    rw [hlines]
    exact joins_lfText (List.cons_ne_nil _ _)
  have hcues : narrow.cues = [⟨1000, 2000, "hi<br/>there".toList⟩] := by decide +kernel
  have hread : (∀ e ∈ narrow.spellings, Recognized true e) ∧
      narrow.cues.Pairwise fun a b => a.startMs = b.startMs → a = b := by decide +kernel
  have hparse := (parse_gives_cues_iff true narrow _ hjoins (by decide +kernel)).mpr hread
  rw [hcues] at hparse
  exact hparse _ insertionSort_sorts

def wide : Document :=
  greetings (stamp "100" 1 (by decide) (by decide)) (stamp "100" 2 (by decide) (by decide)) (by decide)

def wideLines : List Text :=
  ["WEBVTT".toList, [], "1".toList, "100:00:01.000 --> 100:00:02.000 align:start".toList, "hi".toList, "there".toList]

-- A cue whose times have three digits for the hours is left out.
theorem drops_wide_hours : ¬ ∀ sort, Sorts sort →
    parse true sort (lfText wideLines) = [⟨360001000, 360002000, "hi<br/>there".toList⟩] := by
  have hlines : wide.lines true = wideLines := by decide +kernel
  have hjoins : Joins (wide.lines true) (lfText wideLines) := by
    rw [hlines]
    exact joins_lfText (List.cons_ne_nil _ _)
  have hnone : wide.spellings.filter (fun e => decide (Recognized true e)) = [] := by
    apply List.filter_eq_nil_iff.mpr
    decide +kernel
  intro h
  have hparse := h _ insertionSort_sorts
  rw [parse_eq, cuesFrom_document true wide hjoins, hnone] at hparse
  cases hparse

end Law

end BATorrent.SubtitleParser
