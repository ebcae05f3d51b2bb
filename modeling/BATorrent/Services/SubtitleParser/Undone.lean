import BATorrent.Services.SubtitleParser.Read

namespace BATorrent.SubtitleParser

open Lib
open Text (isSpaceChar)

section Arrows

variable {p t : Text}

theorem isPrefixOf_arrow_of_head {t : Text} (h : t.head? ≠ some '-') : ['-', '-', '>'].isPrefixOf t = false := by
  cases t with
  | nil => rfl
  | cons c t =>
      rw [List.isPrefixOf_cons₂]
      have hc : ('-' == c) = false := by
        apply beq_eq_false_iff_ne.mpr
        rintro rfl
        exact h rfl
      rw [hc, Bool.false_and]

theorem hasArrow_append (p t : Text) : hasArrow (p ++ '-' :: '-' :: '>' :: t) = true := by
  induction p with
  | nil => rfl
  | cons c p ih => rw [List.cons_append, hasArrow, ih, Bool.or_true]

theorem hasArrow_append_of_notMem (hp : '-' ∉ p) : hasArrow (p ++ t) = hasArrow t := by
  induction p with
  | nil => rfl
  | cons c p ih =>
      have hrest : '-' ∉ p := fun h => hp (List.mem_cons_of_mem c h)
      rw [List.cons_append, hasArrow, ih hrest, isPrefixOf_arrow_of_head, Bool.false_or]
      intro hhead
      apply hp
      rw [← Option.some.inj hhead]
      exact List.mem_cons_self

theorem hasArrow_of_notMem (hp : '-' ∉ p) : hasArrow p = false := by
  have h := hasArrow_append_of_notMem (t := []) hp
  rw [List.append_nil] at h
  exact h

theorem afterArrow_of_head {c : Char} (h : t.head? ≠ some '-') : afterArrow (c :: t) = none := by
  cases t with
  | nil => rfl
  | cons d t =>
      unfold afterArrow
      split
      · rename_i heq
        cases heq
        exact absurd rfl h
      · rfl

theorem afterArrow_of_not_hasArrow (h : hasArrow t = false) : afterArrow t = none := by
  unfold afterArrow
  split
  · rename_i c d rest
    have harrow := hasArrow_append [c] (d :: rest)
    rw [List.singleton_append, h] at harrow
    exact Bool.noConfusion harrow
  · rfl

theorem cutArrow_of_not_hasArrow (h : hasArrow t = false) : cutArrow t = (t, none) := by
  induction t with
  | nil => rfl
  | cons c t ih =>
      have htail : hasArrow t = false := by
        rw [hasArrow, Bool.or_eq_false_iff] at h
        exact h.2
      rw [cutArrow, afterArrow_of_not_hasArrow h]
      dsimp only
      rw [ih htail]

-- The first arrow cuts a line that has no hyphen before it.
theorem cutArrow_append {c d : Char} (hp : '-' ∉ p) (hc : asciiSpace c = true) (hd : asciiSpace d = true) :
    cutArrow (p ++ c :: '-' :: '-' :: '>' :: d :: t) = (p, some t) := by
  have hhyphen : c ≠ '-' := by
    rintro rfl
    revert hc
    decide
  induction p with
  | nil =>
      rw [List.nil_append, cutArrow]
      have hmatch : afterArrow (c :: '-' :: '-' :: '>' :: d :: t) = some t := by
        rw [afterArrow, hc, hd]
        rfl
      rw [hmatch]
  | cons x p ih =>
      have hrest : '-' ∉ p := fun h => hp (List.mem_cons_of_mem x h)
      have hhead : (p ++ c :: '-' :: '-' :: '>' :: d :: t).head? ≠ some '-' := by
        cases p with
        | nil =>
            intro heq
            exact hhyphen (Option.some.inj heq)
        | cons y p =>
            intro heq
            rw [List.cons_append, List.head?_cons] at heq
            rw [Option.some.inj heq] at hrest
            exact hrest List.mem_cons_self
      rw [List.cons_append, cutArrow, afterArrow_of_head hhead]
      dsimp only
      rw [ih hrest]

end Arrows

section Lines

theorem isBlank_iff {t : Text} : isBlank t = true ↔ ∀ c ∈ t, isSpaceChar c = true := by
  rw [isBlank, List.isEmpty_iff, trimmed_eq_nil_iff]

theorem isBlank_nil : isBlank [] = true := rfl

theorem isBlank_of_visible {t : Text} {c : Char} (hc : c ∈ t) (hvisible : isSpaceChar c = false) :
    isBlank t = false := by
  rw [Bool.eq_false_iff]
  intro h
  rw [isBlank_iff.mp h c hc] at hvisible
  exact Bool.noConfusion hvisible

theorem removeFrom_of_zero {matched : Text → Nat} {t : Text} (h : ∀ s, s <:+ t → matched s = 0) :
    removeFrom matched 0 t = t := by
  induction t with
  | nil => rfl
  | cons c t ih =>
      rw [removeFrom, h (c :: t) (List.suffix_refl _)]
      dsimp only
      rw [ih fun s hs => h s (hs.trans (List.suffix_cons c t))]

theorem cleanText_of_plain {t : Text} (htag : '<' ∉ t) (hbrace : '{' ∉ t) : cleanText t = Text.trimmed t := by
  have hass : removeFrom assTag 0 t = t := by
    apply removeFrom_of_zero
    intro s hs
    unfold assTag
    split
    · exact absurd (hs.subset List.mem_cons_self) hbrace
    · rfl
  have hother : removeFrom otherTag 0 t = t := by
    apply removeFrom_of_zero
    intro s hs
    unfold otherTag
    split
    · exact absurd (hs.subset List.mem_cons_self) htag
    · exact absurd (hs.subset List.mem_cons_self) htag
    · rfl
  rw [cleanText, hass, hother]

end Lines

section Cue

-- What the parser can read of the times of a cue, and of its identifier.
def Recognized (vtt : Bool) (e : Spelling) : Prop :=
  (e.start.hours.length ≤ 2 ∧ e.stop.hours.length ≤ 2 ∧ Apart e.settings) ∧
    (vtt = true → ∀ t ∈ e.identifier, isMetadata t = false)

instance (settings : Text) : Decidable (Apart settings) :=
  List.decidableBAll (fun c => isSpaceChar c = true) (settings.takeWhile (· ≠ ' '))

instance (vtt : Bool) (e : Spelling) : Decidable (Recognized vtt e) :=
  inferInstanceAs (Decidable (_ ∧ _))

variable {sep : Char} (hsep : sep = '.' ∨ sep = ',') (e : Spelling)

theorem space_of_gap {ws : Text} (h : ∀ c ∈ ws, c = ' ' ∨ c = '\t') {c : Char} (hc : c ∈ ws) :
    isSpaceChar c = true ∧ asciiSpace c = true ∧ c ≠ '-' := by
  rcases h c hc with rfl | rfl <;> decide

theorem value_nonneg (t : Stamp) : 0 ≤ t.value := by
  have hnumber : 0 ≤ number t.hours := Int.natCast_nonneg _
  rw [Stamp.value]
  omega

include hsep in
-- The line with the times is cut at its arrow.
theorem cutArrow_timing : ∃ before after, (∀ c ∈ before, isSpaceChar c = true) ∧
    (∀ c ∈ after, isSpaceChar c = true) ∧
    cutArrow (e.timing sep) =
      (e.start.spelled sep ++ before, some (after ++ (e.stop.spelled sep ++ e.settings))) ∧
    cutArrow (after ++ (e.stop.spelled sep ++ e.settings)) =
      (after ++ (e.stop.spelled sep ++ e.settings), none) := by
  obtain ⟨hbefore, hbeforeSpace⟩ := e.before_space
  obtain ⟨hafter, hafterSpace⟩ := e.after_space
  obtain ⟨before, c, hc⟩ := (List.eq_nil_or_concat e.before).resolve_left hbefore
  rw [List.concat_eq_append] at hc
  obtain ⟨d, after, hd⟩ := List.exists_cons_of_ne_nil hafter
  have hcSpace := space_of_gap hbeforeSpace (c := c) (by rw [hc]; exact List.mem_append_right _ List.mem_cons_self)
  have hdSpace := space_of_gap hafterSpace (c := d) (by rw [hd]; exact List.mem_cons_self)
  have hbefore' : ∀ x ∈ before, isSpaceChar x = true ∧ asciiSpace x = true ∧ x ≠ '-' := fun x hx =>
    space_of_gap hbeforeSpace (by rw [hc]; exact List.mem_append_left _ hx)
  have hafter' : ∀ x ∈ after, isSpaceChar x = true ∧ asciiSpace x = true ∧ x ≠ '-' := fun x hx =>
    space_of_gap hafterSpace (by rw [hd]; exact List.mem_cons_of_mem d hx)
  have hstart : '-' ∉ e.start.spelled sep ++ before := by
    intro h
    cases List.mem_append.mp h with
    | inl h => exact hyphen_notMem_spelled e.start hsep h
    | inr h => exact (hbefore' _ h).2.2 rfl
  have hstop : '-' ∉ after ++ e.stop.spelled sep := by
    intro h
    cases List.mem_append.mp h with
    | inl h => exact (hafter' _ h).2.2 rfl
    | inr h => exact hyphen_notMem_spelled e.stop hsep h
  refine ⟨before, after, fun x hx => (hbefore' x hx).1, fun x hx => (hafter' x hx).1, ?_, ?_⟩
  · have hsplit : e.timing sep = (e.start.spelled sep ++ before) ++
        c :: '-' :: '-' :: '>' :: d :: (after ++ (e.stop.spelled sep ++ e.settings)) := by
      rw [Spelling.timing, hc, hd]
      simp only [List.append_assoc, List.cons_append, List.nil_append]
    rw [hsplit, cutArrow_append hstart hcSpace.2.1 hdSpace.2.1]
  · apply cutArrow_of_not_hasArrow
    rw [← List.append_assoc, hasArrow_append_of_notMem hstop]
    exact e.settings_line.2

theorem hasArrow_timing : hasArrow (e.timing sep) = true := by
  have hsplit : e.timing sep = (e.start.spelled sep ++ e.before) ++
      '-' :: '-' :: '>' :: (e.after ++ (e.stop.spelled sep ++ e.settings)) := by
    rw [Spelling.timing, List.append_assoc]
  rw [hsplit, hasArrow_append]

theorem head_timing (sep : Char) (e : Spelling) : ∃ c rest, e.timing sep = c :: rest ∧ c.isDigit = true := by
  obtain ⟨c, rest, hstart, hdigit⟩ := head_spelled e.start sep
  exact ⟨c, _, by rw [Spelling.timing, hstart, List.cons_append], hdigit⟩

theorem isBlank_timing : isBlank (e.timing sep) = false := by
  obtain ⟨c, rest, htiming, hdigit⟩ := head_timing sep e
  apply isBlank_of_visible (c := c)
  · rw [htiming]
    exact List.mem_cons_self
  · exact isSpaceChar_of_isDigit hdigit

theorem isMetadata_of_digit {c : Char} {t : Text} (h : c.isDigit = true) : isMetadata (c :: t) = false := by
  have hvisible := isSpaceChar_of_isDigit h
  have htrimmed : ∃ rest, Text.trimmed (c :: t) = c :: rest := by
    obtain ⟨body, ws, hbody, hws, hlast⟩ := exists_space_end (c :: t)
    cases body with
    | nil =>
        rw [List.nil_append] at hbody
        rw [hws c (by rw [← hbody]; exact List.mem_cons_self)] at hvisible
        exact Bool.noConfusion hvisible
    | cons c' body =>
        have hcons := hbody
        rw [List.cons_append] at hcons
        have hc : c = c' := (List.cons.inj hcons).1
        rw [hbody, trimmed_append_space hws, trimmed_of_ends _ hlast, ← hc]
        · exact ⟨body, rfl⟩
        · intro x hx
          cases hx
          rw [← hc]
          exact hvisible
  obtain ⟨rest, hrest⟩ := htrimmed
  have hhead : ∀ x : Char, x.isDigit = false → ∀ head : Text, (x :: head).isPrefixOf (c :: rest) = false := by
    intro x hx head
    rw [List.isPrefixOf_cons₂]
    have hne : (x == c) = false := by
      apply beq_eq_false_iff_ne.mpr
      rintro rfl
      rw [h] at hx
      exact Bool.noConfusion hx
    rw [hne, Bool.false_and]
  rw [isMetadata, hrest]
  simp only [metadataHeads, List.any_cons, List.any_nil, Bool.or_false, Bool.or_eq_false_iff]
  refine ⟨hhead 'W' (by decide) _, hhead 'N' (by decide) _, hhead 'S' (by decide) _, hhead 'R' (by decide) _⟩

theorem isMetadata_timing : isMetadata (e.timing sep) = false := by
  obtain ⟨c, rest, htiming, hdigit⟩ := head_timing sep e
  rw [htiming]
  exact isMetadata_of_digit hdigit

theorem cleaned_lines : (e.lines.map cleanText).filter (!·.isEmpty) = e.lines := by
  have hmap : e.lines.map cleanText = e.lines := by
    have hid : ∀ t ∈ e.lines, cleanText t = id t := by
      intro t ht
      obtain ⟨_, htrimmed, _, htag, hbrace, _⟩ := e.line t ht
      rw [cleanText_of_plain htag hbrace, htrimmed, id]
    rw [List.map_congr_left hid, List.map_id]
  rw [hmap, List.filter_eq_self]
  intro t ht
  obtain ⟨_, _, hne, _⟩ := e.line t ht
  cases t with
  | nil => exact absurd rfl hne
  | cons c t => rfl

include hsep in
-- The cue is built where its times can be read, and left out elsewhere.
theorem cueOf_timing {first behind : Text} (hcut : cutArrow (e.timing sep) = (first, some behind)) :
    cueOf first behind e.lines =
      if e.start.hours.length ≤ 2 ∧ e.stop.hours.length ≤ 2 ∧ Apart e.settings then some e.cue else none := by
  obtain ⟨before, after, hbefore, hafter, hcut', hrest⟩ := cutArrow_timing hsep e
  rw [hcut'] at hcut
  cases hcut
  have hstart := parseTimestamp_start e.start hsep hbefore
  have hstop := parseTimestamp_stop e.stop hsep hafter e.settings_apart
  have hordered := e.ordered
  have hnonneg := value_nonneg e.start
  rw [cueOf, hrest]
  dsimp only
  rw [hstart, hstop, cleaned_lines]
  by_cases hhours : e.start.hours.length ≤ 2
  · by_cases hend : e.stop.hours.length ≤ 2 ∧ Apart e.settings
    · have hlines : e.lines.isEmpty = false := by
        cases hlines : e.lines with
        | nil => exact absurd hlines e.lines_ne_nil
        | cons t lines => rfl
      have hread : e.start.hours.length ≤ 2 ∧ e.stop.hours.length ≤ 2 ∧ Apart e.settings := ⟨hhours, hend⟩
      rw [if_pos hhours, if_pos hend, if_neg (by omega), if_pos hread, hlines]
      rfl
    · rw [if_pos hhours, if_neg hend, if_pos (by omega), if_neg fun h => hend h.2]
  · rw [if_neg hhours, if_pos (by omega), if_neg fun h => hhours h.1]

end Cue

section Blocks

-- The lines that follow a block: none, or an empty one first.
def Ended (lines : List Text) : Prop := ∀ line ∈ lines.head?, isBlank line = true

variable {vtt : Bool} {rest : List Text}

theorem skipBlock_append {lines : List Text} (hlines : ∀ line ∈ lines, isBlank line = false) (h : Ended rest) :
    skipBlock (lines ++ rest) = rest ∧ (lines ++ rest).takeWhile (fun line => !isBlank line) = lines := by
  have hall : ∀ line ∈ lines, (!isBlank line) = true := fun line hline => by rw [hlines line hline]; rfl
  have hstop : rest.dropWhile (fun line => !isBlank line) = rest ∧ rest.takeWhile (fun line => !isBlank line) = [] := by
    cases rest with
    | nil => exact ⟨rfl, rfl⟩
    | cons line rest =>
        have hblank := h line rfl
        rw [List.dropWhile_cons, List.takeWhile_cons, hblank]
        exact ⟨rfl, rfl⟩
  constructor
  · rw [skipBlock, List.dropWhile_append_of_pos hall, hstop.1]
  · rw [List.takeWhile_append_of_pos hall, hstop.2, List.append_nil]

theorem cuesFrom_blank {line : Text} (h : isBlank line = true) : cuesFrom vtt (line :: rest) = cuesFrom vtt rest := by
  rw [cuesFrom, if_pos h]

theorem cuesFrom_replicate (n : Nat) : cuesFrom vtt (List.replicate n [] ++ rest) = cuesFrom vtt rest := by
  induction n with
  | zero => rfl
  | succ n ih => rw [List.replicate_succ, List.cons_append, cuesFrom_blank isBlank_nil, ih]

theorem isBlank_lines (e : Spelling) : ∀ line ∈ e.lines, isBlank line = false := by
  intro line hline
  obtain ⟨_, htrimmed, hne, _⟩ := e.line line hline
  rw [isBlank, htrimmed]
  cases line with
  | nil => exact absurd rfl hne
  | cons c line => rfl

theorem cuesFrom_metadata {line : Text} (hvtt : vtt = true) (hblank : isBlank line = false)
    (h : isMetadata line = true) : cuesFrom vtt (line :: rest) = cuesFrom vtt (skipBlock rest) := by
  rw [cuesFrom, if_neg (by rw [hblank]; exact Bool.false_ne_true), if_pos (by rw [hvtt, h]; rfl)]

theorem timingLine_of_hasArrow {line : Text} {lines : List Text} (h : hasArrow line = true) :
    timingLine line lines = (line, lines) := by
  cases lines with
  | nil => rfl
  | cons next behind => rw [timingLine, h, Bool.not_true, Bool.false_and, if_neg Bool.false_ne_true]

-- The turn that comes to the line with the times, in the first line or behind it.
theorem cuesFrom_timingLine {sep : Char} (hsep : sep = '.' ∨ sep = ',') (e : Spelling) {line : Text}
    {lines : List Text} (hblank : isBlank line = false) (hplain : (vtt && isMetadata line) = false)
    (htiming : timingLine line lines = (e.timing sep, e.lines ++ rest)) (h : Ended rest) :
    cuesFrom vtt (line :: lines) =
      (if e.start.hours.length ≤ 2 ∧ e.stop.hours.length ≤ 2 ∧ Apart e.settings then [e.cue] else []) ++
        cuesFrom vtt rest := by
  obtain ⟨before, after, _, _, hcut, _⟩ := cutArrow_timing hsep e
  obtain ⟨hskip, htake⟩ := skipBlock_append (isBlank_lines e) h
  rw [cuesFrom, if_neg (by rw [hblank]; exact Bool.false_ne_true), if_neg (by rw [hplain]; exact Bool.false_ne_true)]
  simp only [htiming]
  rw [if_pos (hasArrow_timing e)]
  simp only [hcut, hskip, htake]
  have hcue := cueOf_timing hsep e hcut
  rw [hcue]
  split_ifs with hread
  · rfl
  · rfl

-- A cue of the file gives its own cue, where it is recognized.
theorem cuesFrom_cue {sep : Char} (hsep : sep = '.' ∨ sep = ',') (e : Spelling) (h : Ended rest) :
    cuesFrom vtt (e.written sep ++ rest) =
      (if Recognized vtt e then [e.cue] else []) ++ cuesFrom vtt rest := by
  have hplain : (vtt && isMetadata (e.timing sep)) = false := by rw [isMetadata_timing e, Bool.and_false]
  -- the turn that starts at the line with the times
  have hown : cuesFrom vtt (e.timing sep :: (e.lines ++ rest)) =
      (if e.start.hours.length ≤ 2 ∧ e.stop.hours.length ≤ 2 ∧ Apart e.settings then [e.cue] else []) ++
        cuesFrom vtt rest := by
    exact cuesFrom_timingLine hsep e (isBlank_timing e) hplain (timingLine_of_hasArrow (hasArrow_timing e)) h
  rw [Spelling.written, List.append_assoc, List.cons_append]
  cases hidentifier : e.identifier with
  | none =>
      have hrecognized : Recognized vtt e ↔
          e.start.hours.length ≤ 2 ∧ e.stop.hours.length ≤ 2 ∧ Apart e.settings := by
        refine and_iff_left ?_
        intro _ t ht
        rw [hidentifier] at ht
        cases ht
      rw [Option.toList_none, List.nil_append, hown]
      simp only [hrecognized]
  | some line =>
      have hrecognized : Recognized vtt e ↔
          (e.start.hours.length ≤ 2 ∧ e.stop.hours.length ≤ 2 ∧ Apart e.settings) ∧
            (vtt = true → isMetadata line = false) := by
        rw [Recognized, hidentifier]
        simp only [Option.mem_some_iff, forall_eq']
      obtain ⟨_, harrow⟩ := e.identifier_line line hidentifier
      rw [Option.toList_some, List.singleton_append]
      simp only [hrecognized]
      cases hblank : isBlank line with
      | true =>
          have hmetadata : isMetadata line = false := by
            rw [isBlank, List.isEmpty_iff] at hblank
            rw [isMetadata, hblank]
            rfl
          rw [cuesFrom_blank hblank, hown]
          simp only [hmetadata, implies_true, and_true]
      | false =>
          cases hmetadata : (vtt && isMetadata line) with
          | true =>
              obtain ⟨hvtt, hline⟩ := (Bool.and_eq_true_iff).mp hmetadata
              have hlines : ∀ t ∈ e.timing sep :: e.lines, isBlank t = false := by
                intro t ht
                rcases List.mem_cons.mp ht with rfl | ht
                · exact isBlank_timing e
                · exact isBlank_lines e t ht
              rw [cuesFrom_metadata hvtt hblank hline, ← List.cons_append, (skipBlock_append hlines h).1]
              rw [if_neg, List.nil_append]
              intro hread
              rw [hread.2 hvtt] at hline
              exact Bool.noConfusion hline
          | false =>
              have htimes : timingLine line (e.timing sep :: (e.lines ++ rest)) = (e.timing sep, e.lines ++ rest) := by
                rw [timingLine, harrow, hasArrow_timing e]
                rfl
              have hidentified : vtt = true → isMetadata line = false := by
                intro hvtt
                rw [hvtt, Bool.true_and] at hmetadata
                exact hmetadata
              rw [cuesFrom_timingLine hsep e hblank hmetadata htimes h]
              simp only [and_iff_left hidentified]

theorem hasArrow_of_isBlank {line : Text} (h : isBlank line = true) : hasArrow line = false := by
  apply hasArrow_of_notMem
  intro hmem
  have hspace := isBlank_iff.mp h '-' hmem
  revert hspace
  decide

theorem skipBlock_prefix {lines : List Text} (h : Ended rest) :
    skipBlock (lines ++ rest) = skipBlock lines ++ rest := by
  have hrest : skipBlock rest = rest := by
    have hnone : ∀ line ∈ ([] : List Text), isBlank line = false := fun line hline => absurd hline List.not_mem_nil
    exact (skipBlock_append hnone h).1
  unfold skipBlock at hrest ⊢
  rw [List.dropWhile_append, hrest]
  split_ifs with hempty
  · rw [List.isEmpty_iff.mp hempty, List.nil_append]
  · rfl

theorem timingLine_remark {line : Text} {lines : List Text} (hlines : ∀ t ∈ lines, hasArrow t = false)
    (h : Ended rest) : timingLine line (lines ++ rest) = (line, lines ++ rest) := by
  have hnext : ∀ next ∈ (lines ++ rest).head?, hasArrow next = false := by
    intro next hnext
    cases lines with
    | nil => exact hasArrow_of_isBlank (h next hnext)
    | cons t lines =>
        cases hnext
        exact hlines _ List.mem_cons_self
  cases hall : lines ++ rest with
  | nil => rfl
  | cons next behind =>
      rw [hall] at hnext
      rw [timingLine, hnext next rfl, Bool.and_false, if_neg Bool.false_ne_true]

-- Lines without an arrow give no cue.
theorem cuesFrom_remark {lines : List Text} (hlines : ∀ t ∈ lines, hasArrow t = false) (h : Ended rest) :
    cuesFrom vtt (lines ++ rest) = cuesFrom vtt rest := by
  induction hn : lines.length using Nat.strong_induction_on generalizing lines with
  | _ n ih =>
      cases lines with
      | nil => rfl
      | cons line lines =>
          have htail : ∀ t ∈ lines, hasArrow t = false := fun t ht => hlines t (List.mem_cons_of_mem line ht)
          have hlen : lines.length < n := by
            rw [← hn, List.length_cons]
            exact Nat.lt_succ_self _
          rw [List.cons_append]
          cases hblank : isBlank line with
          | true =>
              rw [cuesFrom_blank hblank]
              exact ih _ hlen htail rfl
          | false =>
              cases hmetadata : (vtt && isMetadata line) with
              | true =>
                  obtain ⟨hvtt, hline⟩ := (Bool.and_eq_true_iff).mp hmetadata
                  have hsub : (skipBlock lines).Sublist lines := List.dropWhile_sublist _
                  rw [cuesFrom_metadata hvtt hblank hline, skipBlock_prefix h]
                  exact ih _ (lt_of_le_of_lt hsub.length_le hlen) (fun t ht => htail t (hsub.subset ht)) rfl
              | false =>
                  rw [cuesFrom, if_neg (by rw [hblank]; exact Bool.false_ne_true),
                    if_neg (by rw [hmetadata]; exact Bool.false_ne_true)]
                  simp only [timingLine_remark htail h]
                  rw [if_neg (by rw [hlines line List.mem_cons_self]; exact Bool.false_ne_true)]
                  exact ih _ hlen htail rfl

end Blocks

end BATorrent.SubtitleParser
