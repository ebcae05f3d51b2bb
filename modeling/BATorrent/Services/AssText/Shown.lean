import BATorrent.Services.AssText.Nested

namespace BATorrent.AssText

open Lib

section Decoding

-- The piece that a text starts with.
def decode : Text → Option (Piece × Text)
  | '&' :: 'a' :: 'm' :: 'p' :: ';' :: rest => some (.glyph (.char '&'), rest)
  | '&' :: 'l' :: 't' :: ';' :: rest => some (.glyph (.char '<'), rest)
  | '&' :: 'g' :: 't' :: ';' :: rest => some (.glyph (.char '>'), rest)
  | '&' :: 'n' :: 'b' :: 's' :: 'p' :: ';' :: rest => some (.glyph .nbsp, rest)
  | '<' :: 'b' :: 'r' :: '>' :: rest => some (.glyph .br, rest)
  | '<' :: 'i' :: '>' :: rest => some (.tag .italic true, rest)
  | '<' :: 'b' :: '>' :: rest => some (.tag .bold true, rest)
  | '<' :: 'u' :: '>' :: rest => some (.tag .under true, rest)
  | '<' :: '/' :: 'i' :: '>' :: rest => some (.tag .italic false, rest)
  | '<' :: '/' :: 'b' :: '>' :: rest => some (.tag .bold false, rest)
  | '<' :: '/' :: 'u' :: '>' :: rest => some (.tag .under false, rest)
  | c :: rest => some (.glyph (.char c), rest)
  | [] => none

theorem escaped_plain {c : Char} (hamp : c ≠ '&') (hlt : c ≠ '<') (hgt : c ≠ '>') : escaped c = [c] := by
  rw [escaped, if_neg hamp, if_neg hlt, if_neg hgt]

theorem decode_code (p : Piece) (rest : Text) : decode (p.code ++ rest) = some (p, rest) := by
  cases p with
  | tag x opens => cases x <;> cases opens <;> rfl
  | glyph g =>
      cases g with
      | br => rfl
      | nbsp => rfl
      | char c =>
          rw [Piece.code]
          by_cases hamp : c = '&'
          · subst hamp
            rfl
          by_cases hlt : c = '<'
          · subst hlt
            rfl
          by_cases hgt : c = '>'
          · subst hgt
            rfl
          rw [escaped_plain hamp hlt hgt, List.singleton_append]
          unfold decode
          split <;> simp_all

theorem code_ne_nil (p : Piece) : p.code ≠ [] := by
  intro hnil
  have hdecode := decode_code p []
  rw [hnil] at hdecode
  exact absurd hdecode nofun

theorem render_cons (p : Piece) (ps : List Piece) : render (p :: ps) = p.code ++ render ps := List.flatMap_cons

theorem render_injective : Function.Injective render := by
  intro ps qs h
  induction ps generalizing qs with
  | nil =>
      cases qs with
      | nil => rfl
      | cons q qs => exact absurd (List.append_eq_nil_iff.mp h.symm).1 (code_ne_nil q)
  | cons p ps ih =>
      cases qs with
      | nil => exact absurd (List.append_eq_nil_iff.mp h).1 (code_ne_nil p)
      | cons q qs =>
          have hdecode := congrArg decode h
          rw [render_cons, render_cons, decode_code, decode_code, Option.some_inj, Prod.mk.injEq] at hdecode
          rw [hdecode.1, ih hdecode.2]

end Decoding

section Cut

-- White space as a regular expression has it, or what is as white.
def asciiBlank : Glyph → Bool
  | .char c => isAsciiSpace c
  | .br => true
  | .nbsp => true

def spaceChar : Piece → Bool
  | .glyph (.char c) => Text.isSpaceChar c
  | _ => false

def onlyBlank : Piece → Bool
  | .glyph g => asciiBlank g
  | .tag _ _ => true

def cutBreaks (ps : List Piece) : List Piece := ps.rdropWhile fun p => p = .glyph .br

def cutSpace (ps : List Piece) : List Piece := (ps.dropWhile spaceChar).rdropWhile spaceChar

theorem chopReversed_code {p : Piece} (h : p ≠ .glyph .br) (rest : Text) :
    chopReversed (p.code.reverse ++ rest) = p.code.reverse ++ rest := by
  cases p with
  | tag x opens => cases x <;> cases opens <;> rfl
  | glyph g =>
      cases g with
      | br => exact absurd rfl h
      | nbsp => rfl
      | char c =>
          rw [Piece.code]
          by_cases hamp : c = '&'
          · subst hamp
            rfl
          by_cases hlt : c = '<'
          · subst hlt
            rfl
          by_cases hgt : c = '>'
          · subst hgt
            rfl
          rw [escaped_plain hamp hlt hgt, List.reverse_singleton, List.singleton_append]
          unfold chopReversed
          split
          · rename_i heq
            exact absurd (List.cons.inj heq).1 hgt
          · rfl

theorem chopBreaks_render (ps : List Piece) : chopBreaks (render ps) = render (cutBreaks ps) := by
  induction ps using List.reverseRecOn with
  | nil => rfl
  | append_singleton ps p ih =>
      rw [chopBreaks, render_append, List.reverse_append]
      have hlast : render [p] = p.code := List.flatMap_singleton _ _
      rw [hlast]
      by_cases hbr : p = .glyph .br
      · subst hbr
        have hcut := List.rdropWhile_concat_pos (fun p => decide (p = Piece.glyph .br)) ps (.glyph .br) (decide_eq_true rfl)
        rw [cutBreaks, hcut]
        exact ih
      · rw [cutBreaks, List.rdropWhile_concat_neg _ _ _ (by simpa using hbr), chopReversed_code hbr, List.reverse_append,
          List.reverse_reverse, List.reverse_reverse, render_append, hlast]

theorem onlyMarkupFrom_render (ps : List Piece) (n : Nat) (hn : (render ps).length ≤ n) :
    onlyMarkupFrom n (render ps) = ps.all onlyBlank := by
  induction ps generalizing n with
  | nil => cases n <;> rfl
  | cons p ps ih =>
      rw [render_cons] at hn ⊢
      cases n with
      | zero => exact absurd (List.append_eq_nil_iff.mp (List.length_eq_zero_iff.mp (Nat.le_zero.mp hn))).1 (code_ne_nil p)
      | succ n =>
          rw [List.length_append] at hn
          have hrest : 1 ≤ p.code.length := List.length_pos_iff.mpr (code_ne_nil p)
          have hps := ih n (by omega)
          rw [List.all_cons, ← hps]
          cases p with
          | tag x opens => cases x <;> cases opens <;> rfl
          | glyph g =>
              cases g with
              | br => rfl
              | nbsp => rfl
              | char c =>
                  rw [Piece.code, onlyBlank, asciiBlank]
                  by_cases hamp : c = '&'
                  · subst hamp
                    rfl
                  by_cases hlt : c = '<'
                  · subst hlt
                    rfl
                  by_cases hgt : c = '>'
                  · subst hgt
                    rfl
                  rw [escaped_plain hamp hlt hgt, List.singleton_append, onlyMarkupFrom, if_neg hlt]
                  cases isAsciiSpace c with
                  | true => rfl
                  | false =>
                      have hnbsp : nbsp.isPrefixOf (c :: render ps) = false := by
                        rw [nbsp, List.isPrefixOf_cons_cons]
                        simp [Ne.symm hamp]
                      rw [hnbsp]
                      rfl

theorem onlyMarkup_render (ps : List Piece) : onlyMarkup (render ps) = ps.all onlyBlank :=
  onlyMarkupFrom_render ps _ (Nat.le_refl _)

theorem first_code (p : Piece) : spaceChar p = false → ∃ c rest, p.code = c :: rest ∧ Text.isSpaceChar c = false := by
  intro hno
  cases p with
  | tag x opens => cases x <;> cases opens <;> exact ⟨_, _, rfl, rfl⟩
  | glyph g =>
      cases g with
      | br => exact ⟨_, _, rfl, rfl⟩
      | nbsp => exact ⟨_, _, rfl, rfl⟩
      | char c =>
          rw [Piece.code, escaped]
          split_ifs
          · exact ⟨_, _, rfl, rfl⟩
          · exact ⟨_, _, rfl, rfl⟩
          · exact ⟨_, _, rfl, rfl⟩
          · exact ⟨_, _, rfl, hno⟩

theorem last_code (p : Piece) : spaceChar p = false → ∃ t c, p.code = t ++ [c] ∧ Text.isSpaceChar c = false := by
  intro hno
  cases p with
  | tag x opens => cases x <;> cases opens <;> first | exact ⟨['<', _], '>', rfl, rfl⟩ | exact ⟨['<', '/', _], '>', rfl, rfl⟩
  | glyph g =>
      cases g with
      | br => exact ⟨['<', 'b', 'r'], '>', rfl, rfl⟩
      | nbsp => exact ⟨['&', 'n', 'b', 's', 'p'], ';', rfl, rfl⟩
      | char c =>
          rw [Piece.code, escaped]
          split_ifs
          · exact ⟨['&', 'a', 'm', 'p'], ';', rfl, rfl⟩
          · exact ⟨['&', 'l', 't'], ';', rfl, rfl⟩
          · exact ⟨['&', 'g', 't'], ';', rfl, rfl⟩
          · exact ⟨[], c, rfl, hno⟩

theorem code_space {p : Piece} (h : spaceChar p = true) : ∃ c, p.code = [c] ∧ Text.isSpaceChar c = true := by
  cases p with
  | tag x opens => exact absurd h Bool.false_ne_true
  | glyph g =>
      cases g with
      | br => exact absurd h Bool.false_ne_true
      | nbsp => exact absurd h Bool.false_ne_true
      | char c =>
          have hspace : Text.isSpaceChar c = true := h
          refine ⟨c, escaped_plain ?_ ?_ ?_, hspace⟩ <;> (rintro rfl; exact absurd hspace (by decide))

theorem dropWhile_render (ps : List Piece) : (render ps).dropWhile Text.isSpaceChar = render (ps.dropWhile spaceChar) := by
  induction ps with
  | nil => rfl
  | cons p ps ih =>
      rw [render_cons]
      cases hspace : spaceChar p with
      | true =>
          obtain ⟨c, hcode, hc⟩ := code_space hspace
          rw [hcode, List.singleton_append, List.dropWhile_cons_of_pos hc, ih, List.dropWhile_cons_of_pos hspace]
      | false =>
          obtain ⟨c, rest, hcode, hc⟩ := first_code p hspace
          rw [List.dropWhile_cons_of_neg (by simp [hspace]), render_cons, hcode, List.cons_append,
            List.dropWhile_cons_of_neg (by simp [hc])]

theorem rdropWhile_render (ps : List Piece) : (render ps).rdropWhile Text.isSpaceChar = render (ps.rdropWhile spaceChar) := by
  induction ps using List.reverseRecOn with
  | nil => rfl
  | append_singleton ps p ih =>
      have hlast : render [p] = p.code := List.flatMap_singleton _ _
      rw [render_append, hlast]
      cases hspace : spaceChar p with
      | true =>
          obtain ⟨c, hcode, hc⟩ := code_space hspace
          rw [hcode, List.rdropWhile_concat_pos _ _ _ hc, ih, List.rdropWhile_concat_pos _ _ _ hspace]
      | false =>
          obtain ⟨t, c, hcode, hc⟩ := last_code p hspace
          rw [List.rdropWhile_concat_neg _ _ _ (by simp [hspace]), render_append, hlast, hcode, ← List.append_assoc,
            List.rdropWhile_concat_neg _ _ _ (by simp [hc])]

theorem trimmed_render (ps : List Piece) : Text.trimmed (render ps) = render (cutSpace ps) := by
  rw [cutSpace, ← rdropWhile_render, ← dropWhile_render]
  rfl

end Cut

section Shown

def Glyph.Blank : Glyph → Prop
  | .char c => Text.isSpaceChar c = true
  | .br => True
  | .nbsp => True

def off : Style → Bool := fun _ => false

-- The pieces are the text of this HTML, and they show what the raw text says, each glyph under its styles,
-- with blanks at most left out before and after.
def Shows (raw html : Text) (ps : List Piece) : Prop :=
  html = render ps ∧ ∃ lead trail, look off (said raw) = lead ++ view off ps ++ trail ∧
    (∀ g ∈ lead, g.1.Blank) ∧ ∀ g ∈ trail, g.1.Blank

-- A style is switched off, by its own tag, by a reset or at the end, only while no style switched on after it is
-- still on; or nothing but blanks is left to show.
def Unwinds (raw : Text) : Prop :=
  (∀ g ∈ look off (said raw), asciiBlank g.1 = true) ∨ unwinds [] (said raw ++ allOff) = true

variable {ps qs lead trail : List Piece} {on : Style → Bool} {opened : List Style}

def BlankGlyph (p : Piece) : Prop := ∃ g : Glyph, p = .glyph g ∧ g.Blank

theorem unwind_lead (h : ∀ p ∈ lead, BlankGlyph p) : unwind opened (lead ++ ps) = unwind opened ps := by
  induction lead with
  | nil => rfl
  | cons p lead ih =>
      obtain ⟨⟨g, rfl, -⟩, hrest⟩ := List.forall_mem_cons.mp h
      exact ih hrest

theorem unwind_trail (h : ∀ p ∈ trail, BlankGlyph p) : unwind opened (ps ++ trail) = unwind opened ps := by
  induction ps generalizing opened with
  | nil =>
      have hlead := @unwind_lead [] trail opened h
      rw [List.append_nil] at hlead
      exact hlead
  | cons p ps ih =>
      cases p with
      | glyph g => exact ih
      | tag x opens =>
          cases opens with
          | true => exact ih
          | false =>
              cases opened with
              | nil => rfl
              | cons y opened =>
                  rw [List.cons_append, unwind, unwind, ih]

theorem view_lead (h : ∀ p ∈ lead, BlankGlyph p) :
    ∃ a, view on (lead ++ ps) = a ++ view on ps ∧ ∀ g ∈ a, g.1.Blank := by
  induction lead with
  | nil => exact ⟨[], rfl, fun _ hg => absurd hg List.not_mem_nil⟩
  | cons p lead ih =>
      obtain ⟨⟨g, rfl, hblank⟩, hrest⟩ := List.forall_mem_cons.mp h
      obtain ⟨a, hview, ha⟩ := ih hrest
      exact ⟨(g, on) :: a, congrArg ((g, on) :: ·) hview, List.forall_mem_cons.mpr ⟨hblank, ha⟩⟩

theorem view_trail (h : ∀ p ∈ trail, BlankGlyph p) :
    ∃ b, view on (ps ++ trail) = view on ps ++ b ∧ ∀ g ∈ b, g.1.Blank := by
  induction ps generalizing on with
  | nil =>
      obtain ⟨a, hview, ha⟩ := @view_lead [] trail on h
      rw [List.append_nil] at hview
      refine ⟨a, ?_, ha⟩
      rw [List.nil_append, hview]
      exact List.append_nil a
  | cons p ps ih =>
      cases p with
      | glyph g =>
          obtain ⟨b, hview, hb⟩ := @ih on
          exact ⟨b, congrArg ((g, on) :: ·) hview, hb⟩
      | tag x opens => exact ih

theorem cut_eq (ps : List Piece) : ∃ lead trail, ps = lead ++ cutSpace (cutBreaks ps) ++ trail ∧
    (∀ p ∈ lead, BlankGlyph p) ∧ ∀ p ∈ trail, BlankGlyph p := by
  have hspace : ∀ p, spaceChar p = true → BlankGlyph p := by
    intro p hp
    cases p with
    | tag x opens => exact absurd hp Bool.false_ne_true
    | glyph g =>
        cases g with
        | br => exact ⟨_, rfl, trivial⟩
        | nbsp => exact ⟨_, rfl, trivial⟩
        | char c => exact ⟨_, rfl, hp⟩
  set isBreak := fun p : Piece => decide (p = .glyph .br)
  set kept := (cutBreaks ps).dropWhile spaceChar
  refine ⟨(cutBreaks ps).takeWhile spaceChar, kept.rtakeWhile spaceChar ++ ps.rtakeWhile isBreak, ?_, ?_, ?_⟩
  · have hbreaks : cutBreaks ps ++ ps.rtakeWhile isBreak = ps := List.rdropWhile_append_rtakeWhile
    have htail : kept.rdropWhile spaceChar ++ kept.rtakeWhile spaceChar = kept := List.rdropWhile_append_rtakeWhile
    have hhead : (cutBreaks ps).takeWhile spaceChar ++ kept = cutBreaks ps := List.takeWhile_append_dropWhile
    rw [cutSpace, List.append_assoc, ← List.append_assoc (kept.rdropWhile spaceChar), htail, ← List.append_assoc, hhead,
      hbreaks]
  · exact fun p hp => hspace p (List.mem_takeWhile_imp hp)
  · intro p hp
    rcases List.mem_append.mp hp with hp | hp
    · exact hspace p (List.mem_rtakeWhile_imp hp)
    · have hbreak : isBreak p = true := List.mem_rtakeWhile_imp hp
      exact ⟨.br, of_decide_eq_true hbreak, trivial⟩

theorem glyphs_of_view : ∀ g : Glyph, .glyph g ∈ ps → ∃ e ∈ view on ps, e.1 = g := by
  induction ps generalizing on with
  | nil => exact fun g hg => absurd hg List.not_mem_nil
  | cons p ps ih =>
      intro g hg
      cases p with
      | glyph g' =>
          rcases List.mem_cons.mp hg with heq | hrest
          · exact ⟨(g', on), List.mem_cons_self, (Piece.glyph.inj heq).symm⟩
          · obtain ⟨e, he, heg⟩ := ih g hrest
            exact ⟨e, List.mem_cons_of_mem _ he, heg⟩
      | tag x opens => exact ih g ((List.mem_cons.mp hg).resolve_left nofun)

theorem glyph_of_mem_view {e : Glyph × (Style → Bool)} (he : e ∈ view on ps) : .glyph e.1 ∈ ps := by
  induction ps generalizing on with
  | nil => exact absurd he List.not_mem_nil
  | cons p ps ih =>
      cases p with
      | glyph g =>
          rcases List.mem_cons.mp he with rfl | hrest
          · exact List.mem_cons_self
          · exact List.mem_cons_of_mem _ (ih hrest)
      | tag x opens => exact List.mem_cons_of_mem _ (ih he)

theorem all_onlyBlank : ps.all onlyBlank = true ↔ ∀ e ∈ view on ps, asciiBlank e.1 = true := by
  rw [List.all_eq_true]
  constructor
  · exact fun h e he => h _ (glyph_of_mem_view he)
  · intro h p hp
    cases p with
    | tag x opens => rfl
    | glyph g =>
        obtain ⟨e, he, rfl⟩ := @glyphs_of_view ps on g hp
        exact h e he

theorem blank_of_asciiBlank {g : Glyph} (h : asciiBlank g = true) : g.Blank := by
  cases g with
  | br => trivial
  | nbsp => trivial
  | char c =>
      have hascii : isAsciiSpace c = true := h
      have hspace : Text.isSpaceChar c = true := by
        unfold isAsciiSpace at hascii
        unfold Text.isSpaceChar
        rcases Bool.or_eq_true_iff.mp hascii with hone | hrange
        · rw [of_decide_eq_true hone]
          rfl
        · simp only [Bool.and_eq_true, decide_eq_true_eq] at hrange
          simp [hrange.1, hrange.2]
      exact hspace

theorem view_pieces (raw : Text) : view off (pieces raw) = look off (said raw) := by
  have hview : view off (pieces raw) = look off (said raw ++ allOff) := view_emit
  rw [hview]
  exact look_append_switches (by simp [allOff])

-- The pieces that the HTML is the text of.
def kept (raw : Text) : List Piece :=
  if (pieces raw).all onlyBlank then [] else cutSpace (cutBreaks (pieces raw))

theorem html_eq (raw : Text) : (toHtml raw).html = render (kept raw) := by
  unfold toHtml kept
  dsimp only
  rw [out_eq, chopBreaks_render, onlyMarkup_render, trimmed_render]
  have hsame : (cutBreaks (pieces raw)).all onlyBlank = (pieces raw).all onlyBlank := by
    set isBreak := fun p : Piece => decide (p = .glyph .br)
    have hbreaks : cutBreaks (pieces raw) ++ (pieces raw).rtakeWhile isBreak = pieces raw :=
      List.rdropWhile_append_rtakeWhile
    have hall : ((pieces raw).rtakeWhile isBreak).all onlyBlank = true := by
      refine List.all_eq_true.mpr fun p hp => ?_
      have hbreak : isBreak p = true := List.mem_rtakeWhile_imp hp
      rw [of_decide_eq_true hbreak]
      rfl
    conv_rhs => rw [← hbreaks, List.all_append, hall, Bool.and_true]
  rw [hsame]
  split_ifs <;> rfl

theorem shows_kept (raw : Text) : Shows raw (toHtml raw).html (kept raw) := by
  refine ⟨html_eq raw, ?_⟩
  rw [← view_pieces, kept]
  by_cases hblank : (pieces raw).all onlyBlank = true
  · rw [if_pos hblank]
    refine ⟨view off (pieces raw), [], ?_, fun g hg => ?_, fun g hg => absurd hg List.not_mem_nil⟩
    · rw [view, List.append_nil, List.append_nil]
    · exact blank_of_asciiBlank (all_onlyBlank.mp hblank g hg)
  · rw [if_neg hblank]
    obtain ⟨lead, trail, hps, hlead, htrail⟩ := cut_eq (pieces raw)
    obtain ⟨a, hview, ha⟩ := @view_lead (cutSpace (cutBreaks (pieces raw)) ++ trail) lead off hlead
    obtain ⟨b, hrest, hb⟩ := @view_trail (cutSpace (cutBreaks (pieces raw))) trail off htrail
    refine ⟨a, b, ?_, ha, hb⟩
    rw [List.append_assoc, ← hrest, ← hview, ← List.append_assoc, ← hps]

theorem nested_kept (raw : Text) : Nested (kept raw) ↔ Unwinds raw := by
  have hon : ∀ x, off x = true ↔ x ∈ ([] : List Style) := fun x => iff_of_false Bool.false_ne_true List.not_mem_nil
  have hpieces : Nested (pieces raw) ↔ unwinds [] (said raw ++ allOff) = true := unwind_emit hon List.nodup_nil
  have hblank : (pieces raw).all onlyBlank = true ↔ ∀ g ∈ look off (said raw), asciiBlank g.1 = true := by
    rw [← view_pieces]
    exact all_onlyBlank
  rw [Unwinds, ← hpieces, ← hblank, kept]
  by_cases hall : (pieces raw).all onlyBlank = true
  · rw [if_pos hall]
    exact iff_of_true rfl (.inl hall)
  · rw [if_neg hall]
    obtain ⟨lead, trail, hps, hlead, htrail⟩ := cut_eq (pieces raw)
    have hsame : unwind [] (pieces raw) = unwind [] (cutSpace (cutBreaks (pieces raw))) := by
      conv_lhs => rw [hps, unwind_trail htrail, unwind_lead hlead]
    rw [Nested, ← hsame]
    exact ⟨.inr, fun h => h.resolve_left hall⟩

theorem nested_of_shows {raw : Text} (h : Shows raw (toHtml raw).html ps) : ps = kept raw :=
  render_injective (h.1.symm.trans (html_eq raw))

-- What is shown is always right and escaped. Its tags nest just when the styles of the text unwind.
theorem shows_nested_iff (raw : Text) : (∃ ps, Shows raw (toHtml raw).html ps) ∧
    ((∃ ps, Shows raw (toHtml raw).html ps ∧ Nested ps) ↔ Unwinds raw) := by
  refine ⟨⟨kept raw, shows_kept raw⟩, ?_⟩
  rw [← nested_kept]
  constructor
  · rintro ⟨ps, hshows, hnested⟩
    rw [← nested_of_shows hshows]
    exact hnested
  · exact fun hnested => ⟨kept raw, shows_kept raw, hnested⟩

-- Italic is switched off while bold, switched on after it, is on.
theorem italic_within_bold : ∃ raw, (toHtml raw).html = "<i>a<b>b</i>c</b>".toList ∧
    ¬ ∃ ps, Shows raw (toHtml raw).html ps ∧ Nested ps := by
  refine ⟨"\x7b\\i1\x7da\x7b\\b1\x7db\x7b\\i0\x7dc".toList, by decide +kernel, ?_⟩
  rintro ⟨ps, hshows, hnested⟩
  rw [nested_of_shows hshows] at hnested
  have hbroken : unwind [] (kept "\x7b\\i1\x7da\x7b\\b1\x7db\x7b\\i0\x7dc".toList) ≠ some [] := by decide +kernel
  exact hbroken hnested

end Shown

end BATorrent.AssText
