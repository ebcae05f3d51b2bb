import BATorrent.Services.AssText
import Mathlib.Data.List.DropRight

namespace BATorrent.AssText

open Lib

section Pieces

-- What the overlay shows: a character, a break or a hard space.
inductive Glyph where
  | char (c : Char)
  | br
  | nbsp
deriving DecidableEq

inductive Piece where
  | glyph (g : Glyph)
  | tag (x : Style) (opens : Bool)
deriving DecidableEq

def Piece.code : Piece → Text
  | .glyph (.char c) => escaped c
  | .glyph .br => br
  | .glyph .nbsp => nbsp
  | .tag x true => ['<', x.tag, '>']
  | .tag x false => ['<', '/', x.tag, '>']

def render (ps : List Piece) : Text := ps.flatMap Piece.code

-- Each tag that is opened is closed, the last one first.
def unwind : List Style → List Piece → Option (List Style)
  | opened, [] => some opened
  | opened, .glyph _ :: ps => unwind opened ps
  | opened, .tag x true :: ps => unwind (x :: opened) ps
  | [], .tag _ false :: _ => none
  | y :: opened, .tag x false :: ps => if y = x then unwind opened ps else none

def Nested (ps : List Piece) : Prop := unwind [] ps = some []

-- Each glyph with the styles whose tags are open around it.
def view : (Style → Bool) → List Piece → List (Glyph × (Style → Bool))
  | _, [] => []
  | on, .glyph g :: ps => (g, on) :: view on ps
  | on, .tag x opens :: ps => view (Function.update on x opens) ps

end Pieces

section Items

-- What a text says, one thing after another: show this, or switch a style.
inductive Item where
  | glyph (g : Glyph)
  | switch (x : Style) (on : Bool)

def Tag.switches (t : Tag) : List Item :=
  if t.name = ['i'] then [.switch .italic (t.arg ≠ ['0'])]
  else if t.name = ['b'] then [.switch .bold (boldArg t.arg)]
  else if t.name = ['u'] then [.switch .under (t.arg ≠ ['0'])]
  else if t.name = ['r'] then [.switch .italic false, .switch .bold false, .switch .under false]
  else []

def Tag.drawing (d : Int) (t : Tag) : Int := if t.name = ['p'] then Text.toInt t.arg else d

-- Nothing is said after a brace that is not closed, and a drawing shows nothing.
def items : Nat → Text → Int → List Item
  | 0, _, _ => []
  | _ + 1, [], _ => []
  | n + 1, c :: rest, drawing =>
      if c = '{' then
        match rest.idxOf? '}' with
        | none => []
        | some k =>
            let block := tags (rest.take k)
            block.flatMap Tag.switches ++ items n (rest.drop (k + 1)) (block.foldl Tag.drawing drawing)
      else if 0 < drawing then items n rest drawing
      else if c = '\\' ∧ (rest.head? = some 'N' ∨ rest.head? = some 'n') then .glyph .br :: items n rest.tail drawing
      else if c = '\\' ∧ rest.head? = some 'h' then .glyph .nbsp :: items n rest.tail drawing
      else if c = '\n' then .glyph .br :: items n rest drawing
      else if c = '\r' then items n rest drawing
      else .glyph (.char c) :: items n rest drawing

def said (raw : Text) : List Item := items (withoutFields raw).length (withoutFields raw) 0

-- Each glyph with the styles that are on there.
def look : (Style → Bool) → List Item → List (Glyph × (Style → Bool))
  | _, [] => []
  | on, .glyph g :: is => (g, on) :: look on is
  | on, .switch x b :: is => look (Function.update on x b) is

-- Styles that are on, the last switched on first. One that is switched off was the last.
def unwinds : List Style → List Item → Bool
  | on, [] => on = []
  | on, .glyph _ :: is => unwinds on is
  | on, .switch x true :: is => unwinds (if x ∈ on then on else x :: on) is
  | on, .switch x false :: is => if x ∈ on then on.head? = some x && unwinds on.tail is else unwinds on is

def allOff : List Item := [.switch .italic false, .switch .bold false, .switch .under false]

end Items

section Emitted

variable {on : Style → Bool} {is js : List Item} {s : State}

-- The tags are where the styles change.
def emit : (Style → Bool) → List Item → List Piece
  | _, [] => []
  | on, .glyph g :: is => .glyph g :: emit on is
  | on, .switch x b :: is => if on x = b then emit on is else .tag x b :: emit (Function.update on x b) is

def after : (Style → Bool) → List Item → Style → Bool
  | on, [] => on
  | on, .glyph _ :: is => after on is
  | on, .switch x b :: is => after (Function.update on x b) is

theorem update_of_eq {x : Style} {b : Bool} (h : on x = b) : Function.update on x b = on := by
  rw [← h, Function.update_eq_self]

theorem emit_append : emit on (is ++ js) = emit on is ++ emit (after on is) js := by
  induction is generalizing on with
  | nil => rfl
  | cons i is ih =>
      cases i with
      | glyph g => exact congrArg (Piece.glyph g :: ·) ih
      | switch x b =>
          rw [List.cons_append, emit, emit, after]
          by_cases hsame : on x = b
          · rw [if_pos hsame, if_pos hsame, update_of_eq hsame]
            exact ih
          · rw [if_neg hsame, if_neg hsame]
            exact congrArg (Piece.tag x b :: ·) ih

theorem after_append : after on (is ++ js) = after (after on is) js := by
  induction is generalizing on with
  | nil => rfl
  | cons i is ih =>
      cases i with
      | glyph g => exact ih
      | switch x b => exact ih

theorem view_emit : view on (emit on is) = look on is := by
  induction is generalizing on with
  | nil => rfl
  | cons i is ih =>
      cases i with
      | glyph g => exact congrArg ((g, on) :: ·) ih
      | switch x b =>
          rw [emit, look]
          by_cases hsame : on x = b
          · rw [if_pos hsame, update_of_eq hsame]
            exact ih
          · rw [if_neg hsame]
            exact ih

theorem look_append_switches (hjs : ∀ j ∈ js, ∃ x b, j = .switch x b) : look on (is ++ js) = look on is := by
  induction is generalizing on with
  | nil =>
      induction js generalizing on with
      | nil => rfl
      | cons j js ih =>
          obtain ⟨⟨x, b, rfl⟩, hrest⟩ := List.forall_mem_cons.mp hjs
          exact ih hrest
  | cons i is ih =>
      cases i with
      | glyph g => exact congrArg ((g, on) :: ·) ih
      | switch x b => exact ih

-- Only the style switched on last may be switched off, and its tag was opened last.
theorem unwind_emit {opened : List Style} (hon : ∀ x, on x = true ↔ x ∈ opened) (hnodup : opened.Nodup) :
    unwind opened (emit on is) = some [] ↔ unwinds opened is = true := by
  induction is generalizing on opened with
  | nil => simp [emit, unwind, unwinds]
  | cons i is ih =>
      cases i with
      | glyph g => exact ih hon hnodup
      | switch x b =>
          rw [emit]
          cases b with
          | true =>
              rw [unwinds]
              by_cases hx : x ∈ opened
              · rw [if_pos ((hon x).mpr hx), if_pos hx]
                exact ih hon hnodup
              · rw [if_neg fun h => hx ((hon x).mp h), if_neg hx, unwind]
                refine ih (fun y => ?_) (List.nodup_cons.mpr ⟨hx, hnodup⟩)
                by_cases hy : y = x
                · simp [hy]
                · simp [hy, hon y]
          | false =>
              rw [unwinds]
              by_cases hx : x ∈ opened
              · rw [if_neg (by simp [(hon x).mpr hx]), if_pos hx]
                cases opened with
                | nil => exact absurd hx List.not_mem_nil
                | cons y opened =>
                    obtain ⟨hy, hrest⟩ := List.nodup_cons.mp hnodup
                    rw [unwind, List.head?_cons, List.tail_cons]
                    by_cases hxy : y = x
                    · subst hxy
                      rw [if_pos rfl, decide_eq_true rfl, Bool.true_and]
                      refine ih (fun z => ?_) hrest
                      by_cases hz : z = y
                      · simp [hz, hy]
                      · simp [hz, hon z]
                    · simp [hxy]
              · have hoff : on x = false := by
                  rw [Bool.eq_false_iff]
                  exact fun h => hx ((hon x).mp h)
                rw [if_pos hoff, if_neg hx]
                exact ih hon hnodup

end Emitted

section Scanned

variable {s : State}

theorem render_append (ps qs : List Piece) : render (ps ++ qs) = render ps ++ render qs := List.flatMap_append

-- What a state became by these items.
structure Became (s s' : State) (is : List Item) : Prop where
  out : s'.out = s.out ++ render (emit s.on is)
  on : s'.on = after s.on is

theorem Became.refl (s : State) : Became s s [] := ⟨(List.append_nil _).symm, rfl⟩

theorem Became.trans {s s' s'' : State} {is js : List Item} (h : Became s s' is) (h' : Became s' s'' js) :
    Became s s'' (is ++ js) where
  out := by rw [h'.out, h.out, h.on, emit_append, render_append, List.append_assoc]
  on := by rw [h'.on, h.on, after_append]

theorem became_setStyle (s : State) (x : Style) (b : Bool) : Became s (setStyle s x b) [.switch x b] := by
  unfold setStyle
  by_cases hsame : s.on x = b
  · rw [if_pos hsame]
    refine ⟨?_, (update_of_eq hsame).symm⟩
    rw [emit, if_pos hsame]
    exact (List.append_nil _).symm
  · rw [if_neg hsame]
    refine ⟨?_, rfl⟩
    rw [emit, if_neg hsame]
    cases b <;> rfl

theorem became_allOff (s : State) :
    Became s (setStyle (setStyle (setStyle s .italic false) .bold false) .under false) allOff :=
  ((became_setStyle s .italic false).trans (became_setStyle _ .bold false)).trans (became_setStyle _ .under false)

theorem setStyle_drawing (s : State) (x : Style) (b : Bool) : (setStyle s x b).drawing = s.drawing := by
  unfold setStyle
  split_ifs <;> rfl

theorem became_override (s : State) (t : Tag) :
    Became s (override s t) t.switches ∧ (override s t).drawing = t.drawing s.drawing := by
  have hname : ∀ {a b : Text}, a ≠ b → t.name = a → t.name ≠ b := fun hne h h' => hne (h.symm.trans h')
  unfold override Tag.switches Tag.drawing
  dsimp only
  by_cases han : t.name = ['a', 'n']
  · rw [if_pos han, if_neg (hname (by decide) han), if_neg (hname (by decide) han), if_neg (hname (by decide) han),
      if_neg (hname (by decide) han), if_neg (hname (by decide) han)]
    split_ifs <;> exact ⟨⟨(List.append_nil _).symm, rfl⟩, rfl⟩
  rw [if_neg han]
  by_cases ha : t.name = ['a']
  · rw [if_pos ha, if_neg (hname (by decide) ha), if_neg (hname (by decide) ha), if_neg (hname (by decide) ha),
      if_neg (hname (by decide) ha), if_neg (hname (by decide) ha)]
    exact ⟨⟨(List.append_nil _).symm, rfl⟩, rfl⟩
  rw [if_neg ha]
  by_cases hi : t.name = ['i']
  · rw [if_pos hi, if_pos hi, if_neg (hname (by decide) hi)]
    exact ⟨became_setStyle s _ _, setStyle_drawing s _ _⟩
  rw [if_neg hi, if_neg hi]
  by_cases hb : t.name = ['b']
  · rw [if_pos hb, if_pos hb, if_neg (hname (by decide) hb)]
    exact ⟨became_setStyle s _ _, setStyle_drawing s _ _⟩
  rw [if_neg hb, if_neg hb]
  by_cases hu : t.name = ['u']
  · rw [if_pos hu, if_pos hu, if_neg (hname (by decide) hu)]
    exact ⟨became_setStyle s _ _, setStyle_drawing s _ _⟩
  rw [if_neg hu, if_neg hu]
  by_cases hp : t.name = ['p']
  · rw [if_pos hp, if_neg (hname (by decide) hp), if_pos hp]
    exact ⟨⟨(List.append_nil _).symm, rfl⟩, rfl⟩
  rw [if_neg hp, if_neg hp]
  by_cases hr : t.name = ['r']
  · rw [if_pos hr, if_pos hr]
    refine ⟨became_allOff s, ?_⟩
    rw [setStyle_drawing, setStyle_drawing, setStyle_drawing]
  · rw [if_neg hr, if_neg hr]
    exact ⟨.refl s, rfl⟩

theorem became_block (s : State) (block : List Tag) : Became s (block.foldl override s) (block.flatMap Tag.switches) ∧
    (block.foldl override s).drawing = block.foldl Tag.drawing s.drawing := by
  induction block generalizing s with
  | nil => exact ⟨.refl s, rfl⟩
  | cons t block ih =>
      obtain ⟨hfirst, hdrawing⟩ := became_override s t
      obtain ⟨hrest, hlast⟩ := ih (override s t)
      exact ⟨hfirst.trans hrest, hlast.trans (congrArg (fun d => block.foldl Tag.drawing d) hdrawing)⟩

theorem became_emit (s : State) (g : Glyph) : Became s (s.emit (Piece.code (.glyph g))) [.glyph g] := by
  refine ⟨?_, rfl⟩
  rw [emit, emit, render, List.flatMap_singleton]
  rfl

theorem became_scan (n : Nat) (t : Text) (s : State) : Became s (scan n t s) (items n t s.drawing) := by
  induction n generalizing t s with
  | zero => exact .refl s
  | succ n ih =>
      cases t with
      | nil => exact .refl s
      | cons c rest =>
          rw [scan, items]
          split_ifs
          · cases hclose : rest.idxOf? '}' with
            | none => exact .refl s
            | some k =>
                obtain ⟨hblock, hdrawing⟩ := became_block s (tags (rest.take k))
                have hrest := ih (rest.drop (k + 1)) ((tags (rest.take k)).foldl override s)
                rw [hdrawing] at hrest
                exact hblock.trans hrest
          · exact ih rest s
          · exact (became_emit s .br).trans (ih rest.tail _)
          · exact (became_emit s .nbsp).trans (ih rest.tail _)
          · exact (became_emit s .br).trans (ih rest _)
          · exact ih rest s
          · exact (became_emit s (.char c)).trans (ih rest _)

def pieces (raw : Text) : List Piece := emit (fun _ => false) (said raw ++ allOff)

theorem out_eq (raw : Text) :
    (closed (scan (withoutFields raw).length (withoutFields raw) ⟨[], fun _ => false, 0, 2⟩)).out =
      render (pieces raw) := by
  have hscan := became_scan (withoutFields raw).length (withoutFields raw) ⟨[], fun _ => false, 0, 2⟩
  exact (hscan.trans (became_allOff _)).out

end Scanned

end BATorrent.AssText
