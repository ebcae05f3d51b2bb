import BATorrent.Services.ArchiveExtractor
import Mathlib.Data.List.Forall2

namespace BATorrent.ArchiveExtractor

open Lib ArchiveScan

section Volumes

-- In capital letters or small ones.
def Spells (ext s : Text) : Prop := List.Forall₂ (fun x c => c = x ∨ c = x.toUpper) ext s

def Digits (s : Text) : Prop := ∀ c ∈ s, c.isDigit = true

-- The volumes of the set that an archive is the first of, by the four ways to name them.
inductive VolumeOf : Text → Text → Prop where
  | itself {a : Text} : VolumeOf a a
  | part {base p q p' q' digits digits' : Text} (hp : Spells ['.', 'p', 'a', 'r', 't'] p)
      (hq : Spells ['.', 'r', 'a', 'r'] q) (hp' : Spells ['.', 'p', 'a', 'r', 't'] p')
      (hq' : Spells ['.', 'r', 'a', 'r'] q') (hdigits : Digits digits) (hne : digits ≠ [])
      (hdigits' : Digits digits') (hne' : digits' ≠ []) :
      VolumeOf (base ++ p ++ digits ++ q) (base ++ p' ++ digits' ++ q')
  | rar {base q r digits : Text} (hq : Spells ['.', 'r', 'a', 'r'] q) (hr : Spells ['.', 'r'] r)
      (hdigits : Digits digits) (hlength : digits.length = 2)
      (halone : ∀ stem p number, Spells ['.', 'p', 'a', 'r', 't'] p → Digits number → number ≠ [] →
        base ≠ stem ++ p ++ number) : VolumeOf (base ++ q) (base ++ r ++ digits)
  | zip {base q z digits : Text} (hq : Spells ['.', 'z', 'i', 'p'] q) (hz : Spells ['.', 'z'] z)
      (hdigits : Digits digits) (hlength : digits.length = 2) :
      VolumeOf (base ++ q) (base ++ z ++ digits)
  | split {base digits digits' : Text} (hdigits : Digits digits) (hlength : digits.length = 3)
      (hdigits' : Digits digits') (hlength' : digits'.length = 3) :
      VolumeOf (base ++ '.' :: digits) (base ++ '.' :: digits')

-- The volumes that are deleted with the first one: name.r00 with name.rar, and of name.part1.rar those
-- whose number starts with the digits of the first.
inductive Covered : Text → Text → Prop where
  | part {base p q digits more : Text} (hp : Spells ['.', 'p', 'a', 'r', 't'] p)
      (hq : Spells ['.', 'r', 'a', 'r'] q) (hdigits : Digits digits) (hmore : Digits more) :
      Covered (base ++ p ++ digits ++ q) (base ++ p ++ (digits ++ more) ++ ['.', 'r', 'a', 'r'])
  | rar {base q digits : Text} (hq : Spells ['.', 'r', 'a', 'r'] q) (hdigits : Digits digits)
      (hlength : digits.length = 2) : Covered (base ++ q) (base ++ ['.', 'r'] ++ digits)

theorem completeBaseName_append (base : Text) {ext : Text} (h : '.' ∉ ext) :
    completeBaseName (base ++ '.' :: ext) = base := by
  have hreverse : (base ++ '.' :: ext).reverse = ext.reverse ++ '.' :: base.reverse := by simp
  have hindex : (base ++ '.' :: ext).reverse.idxOf? '.' = some ext.length := by
    rw [hreverse, List.idxOf?_eq_some_iff]
    refine ⟨by simp, by simp, fun j hj => ?_⟩
    rw [List.getElem_append_left (by rwa [List.length_reverse])]
    intro heq
    exact h (List.mem_reverse.mp (heq ▸ List.getElem_mem _))
  unfold completeBaseName
  rw [hindex]
  simp

theorem spells_dot {ext s : Text} (h : Spells ('.' :: ext) s) :
    ∃ rest, s = '.' :: rest ∧ Spells ext rest := by
  obtain ⟨c, rest, hc, hrest, rfl⟩ := List.forall₂_cons_left_iff.mp h
  have hdot : c = '.' := hc.elim id id
  subst hdot
  exact ⟨rest, rfl, hrest⟩

theorem spells_length {ext s : Text} (h : Spells ext s) : s.length = ext.length := h.length_eq.symm

theorem isDigit_of_isAlpha {c : Char} (h : c.isAlpha = true) : c.isDigit = false := by
  delta Char.isAlpha Char.isUpper Char.isLower Char.isDigit at *
  simp only [Bool.or_eq_true, Bool.and_eq_true, decide_eq_true_eq, Bool.and_eq_false_iff, decide_eq_false_iff_not, UInt32.le_iff_toNat_le,
    ge_iff_le] at h ⊢
  have hnine : '9'.val.toNat = 57 := rfl
  have hupper : 'A'.val.toNat = 65 := rfl
  have hlower : 'a'.val.toNat = 97 := rfl
  right
  rcases h with ⟨h, -⟩ | ⟨h, -⟩
  · omega
  · omega

-- What is written in letters has no dot, no digit and no line feed.
theorem spells_letters {ext s : Text} (h : Spells ext s)
    (hext : ∀ x ∈ ext, x.isAlpha = true ∧ x.toUpper.isAlpha = true) : ∀ c ∈ s, c.isAlpha = true := by
  intro c hc
  obtain ⟨x, hx, hcx⟩ : ∃ x ∈ ext, c = x ∨ c = x.toUpper := by
    induction h with
    | nil => cases hc
    | cons hhead _ ih =>
        rcases List.mem_cons.mp hc with rfl | hc
        · exact ⟨_, List.mem_cons_self, hhead⟩
        · obtain ⟨x, hx, hcx⟩ := ih (fun x hx => hext x (List.mem_cons_of_mem _ hx)) hc
          exact ⟨x, List.mem_cons_of_mem _ hx, hcx⟩
  rcases hcx with rfl | rfl
  · exact (hext _ hx).1
  · exact (hext _ hx).2

theorem rar_letters : ∀ x ∈ ['r', 'a', 'r'], x.isAlpha = true ∧ x.toUpper.isAlpha = true := by
  rintro x hx
  simp only [List.mem_cons, List.not_mem_nil, or_false] at hx
  obtain rfl | rfl | rfl := hx
  · decide
  · decide
  · decide

theorem chomp_eq {s : Text} {c : Char} (hc : c ≠ '\n') : chomp (s ++ [c]) = s ++ [c] := by
  unfold chomp
  rw [if_neg]
  rintro ⟨stem, heq⟩
  have hlast := congrArg List.getLast? heq
  simp only [List.getLast?_append, List.getLast?_singleton, Option.some_or, Option.some.injEq] at hlast
  exact hc hlast.symm

-- The digits at the end of a name are those behind the last character that is none.
theorem digitsAtEnd_append {stem digits : Text} {c : Char} (hc : c.isDigit = false)
    (hdigits : Digits digits) : digitsAtEnd (stem ++ [c] ++ digits) = digits := by
  unfold digitsAtEnd List.rtakeWhile
  rw [List.reverse_append, List.reverse_append, List.reverse_singleton,
    List.takeWhile_append_of_pos (fun d hd => hdigits d (List.mem_reverse.mp hd))]
  simp [hc]

theorem ne_lineFeed {c : Char} (h : c.isAlpha = true ∨ c.isDigit = true) : c ≠ '\n' := by
  rintro rfl
  revert h
  decide

theorem last_of_suffix (ext : Text) {s : Text} {x c : Char} (h : ext ++ [x] <:+ s ++ [c]) : x = c := by
  obtain ⟨stem, heq⟩ := h
  have hlast := congrArg List.getLast? heq
  simpa using hlast

-- A name whose last characters are digits is taken for a volume just when .r stands before them.
theorem tail_of_digits {stem digits : Text} {c : Char} (hc : c.isDigit = false)
    (hdigits : Digits digits) (hne : digits ≠ []) :
    (['.', 'r', 'a', 'r'].isSuffixOf (stem ++ [c] ++ digits) || rarTail (stem ++ [c] ++ digits)) =
      ['.', 'r'].isSuffixOf (stem ++ [c]) := by
  obtain hnil | ⟨init, last, heq⟩ := List.eq_nil_or_concat' digits
  · exact absurd hnil hne
  · have hlast : last.isDigit = true := hdigits last (by simp [heq])
    have hname : stem ++ [c] ++ digits = stem ++ [c] ++ init ++ [last] := by rw [heq, ← List.append_assoc]
    have hchomp : chomp (stem ++ [c] ++ digits) = stem ++ [c] ++ digits := by
      rw [hname, chomp_eq (ne_lineFeed (.inr hlast))]
    have hrar : ¬ ['.', 'r', 'a', 'r'] <:+ stem ++ [c] ++ digits := by
      rw [hname]
      intro h
      obtain rfl : 'r' = last := last_of_suffix ['.', 'r', 'a'] h
      cases hlast
    have hpart : partDigits (stem ++ [c] ++ digits) = none := by
      unfold partDigits
      rw [hchomp, if_neg hrar]
    have htake : (stem ++ [c] ++ digits).take ((stem ++ [c] ++ digits).length - digits.length) =
        stem ++ [c] := by
      have hlength : (stem ++ [c] ++ digits).length - digits.length = (stem ++ [c]).length := by
        simp only [List.length_append, List.length_singleton]
        omega
      rw [hlength, List.take_left]
    unfold rarTail
    rw [hpart, hchomp]
    dsimp only
    have hrarFalse : ['.', 'r', 'a', 'r'].isSuffixOf (stem ++ [c] ++ digits) = false :=
      Bool.eq_false_iff.mpr fun h => hrar (List.isSuffixOf_iff_suffix.mp h)
    rw [digitsAtEnd_append hc hdigits, htake, hrarFalse]
    simp [hne]

-- One that ends in .rar, in any letters, just when they are small ones.
theorem tail_of_rar {stem q : Text} (hq : Spells ['.', 'r', 'a', 'r'] q) :
    (['.', 'r', 'a', 'r'].isSuffixOf (stem ++ q) || rarTail (stem ++ q)) = true ↔
      q = ['.', 'r', 'a', 'r'] := by
  constructor
  · intro h
    have hsuffix : ['.', 'r', 'a', 'r'] <:+ stem ++ q := by
      obtain ⟨rest, rfl, hrest⟩ := spells_dot hq
      have hletters := spells_letters hrest rar_letters
      obtain rfl | ⟨init, last, rfl⟩ := List.eq_nil_or_concat' rest
      · cases hrest
      · have hlast : last.isAlpha = true := hletters last (by simp)
        have hname : stem ++ '.' :: (init ++ [last]) = stem ++ '.' :: init ++ [last] := by simp
        have hdigits : digitsAtEnd (stem ++ '.' :: init ++ [last] ++ []) = [] :=
          digitsAtEnd_append (isDigit_of_isAlpha hlast) (by simp [Digits])
        rw [List.append_nil] at hdigits
        have hchomp : chomp (stem ++ '.' :: init ++ [last]) = stem ++ '.' :: init ++ [last] :=
          chomp_eq (ne_lineFeed (.inl hlast))
        rw [hname] at h ⊢
        unfold rarTail partDigits at h
        rw [hchomp] at h
        dsimp only at h
        rw [hdigits] at h
        by_contra hnot
        rw [if_neg hnot, Bool.eq_false_iff.mpr (fun h => hnot (List.isSuffixOf_iff_suffix.mp h))] at h
        cases h
    have hlength : q.length = ['.', 'r', 'a', 'r'].length := spells_length hq
    exact ((List.suffix_of_suffix_length_le hsuffix (List.suffix_append stem q) hlength.ge).eq_of_length
      hlength.symm).symm
  · rintro rfl
    rw [Bool.or_eq_true, List.isSuffixOf_iff_suffix]
    exact .inl (List.suffix_append _ _)

theorem completeBaseName_spells {base ext s : Text} (h : Spells ('.' :: ext) s)
    (hext : ∀ x ∈ ext, x.isAlpha = true ∧ x.toUpper.isAlpha = true) :
    completeBaseName (base ++ s) = base := by
  obtain ⟨rest, rfl, hrest⟩ := spells_dot h
  refine completeBaseName_append base fun hdot => ?_
  have hletter := spells_letters hrest hext '.' hdot
  cases hletter

-- The digits of a volume's number come before its extension.
theorem digits_prefix {digits digits' q : Text} (hdigits : Digits digits)
    (hq : Spells ['.', 'r', 'a', 'r'] q) (h : digits <+: digits' ++ q) : digits <+: digits' := by
  obtain ⟨rest, rfl, -⟩ := spells_dot hq
  rcases List.prefix_or_prefix_of_prefix h (List.prefix_append digits' _) with hin | ⟨more, rfl⟩
  · exact hin
  · cases more with
    | nil => simp
    | cons c more =>
        rw [List.prefix_append_right_inj] at h
        obtain ⟨rfl, -⟩ := List.cons_prefix_cons.mp h
        have hdot := hdigits '.' (by simp)
        cases hdot

theorem spells_two {x : Char} {s : Text} (h : Spells ['.', x] s) :
    s = ['.', x] ∨ s = ['.', x.toUpper] := by
  obtain ⟨rest, rfl, hrest⟩ := spells_dot h
  obtain ⟨c, tail, hc, htail, rfl⟩ := List.forall₂_cons_left_iff.mp hrest
  obtain rfl := List.forall₂_nil_left_iff.mp htail
  exact hc.imp (fun h => by rw [h]) fun h => by rw [h]

theorem digits_ne_nil {s : Text} {n : Nat} (h : s.length = n + 1) : s ≠ [] := by
  rintro rfl
  cases h

theorem tail_of_letter {base digits : Text} {x : Char} (hx : x.isDigit = false) (hdigits : Digits digits)
    (hne : digits ≠ []) : (['.', 'r', 'a', 'r'].isSuffixOf (base ++ ['.', x] ++ digits) ||
      rarTail (base ++ ['.', x] ++ digits)) = true ↔ x = 'r' := by
  have hname : base ++ ['.', x] ++ digits = base ++ ['.'] ++ [x] ++ digits := by simp
  rw [hname, tail_of_digits hx hdigits hne, List.isSuffixOf_iff_suffix]
  constructor
  · intro h
    exact (last_of_suffix ['.'] h).symm
  · rintro rfl
    rw [List.append_assoc]
    exact List.suffix_append _ _

theorem related_of_covered {a g : Text} (h : Covered a g) : related a g = true := by
  unfold related
  rw [Bool.and_eq_true, List.isPrefixOf_iff_prefix]
  cases h with
  | @part base p q digits more hp hq hdigits hmore =>
      have hspelled : Spells ['.', 'r', 'a', 'r'] ['.', 'r', 'a', 'r'] := by simp [Spells]
      refine ⟨?_, (tail_of_rar hspelled).mpr rfl⟩
      rw [completeBaseName_spells hq rar_letters, ← List.append_assoc, List.append_assoc _ more]
      exact List.prefix_append _ _
  | @rar base q digits hq hdigits hlength =>
      refine ⟨?_, (tail_of_letter rfl hdigits (digits_ne_nil hlength)).mpr rfl⟩
      rw [completeBaseName_spells hq rar_letters, List.append_assoc]
      exact List.prefix_append _ _

-- Which volumes the code takes for files of the archive.
theorem related_iff {a g : Text} (h : VolumeOf a g) (hne : g ≠ a) :
    related a g = true ↔ Covered a g := by
  refine ⟨fun hrelated => ?_, related_of_covered⟩
  unfold related at hrelated
  rw [Bool.and_eq_true, List.isPrefixOf_iff_prefix] at hrelated
  obtain ⟨hstart, htail⟩ := hrelated
  cases h with
  | itself => exact absurd rfl hne
  | @part base p q p' q' digits digits' hp hq hp' hq' hdigits hd hdigits' hd' =>
      rw [completeBaseName_spells hq rar_letters, List.append_assoc, List.append_assoc, List.append_assoc,
        List.prefix_append_right_inj] at hstart
      obtain rfl := (tail_of_rar hq').mp htail
      have hlength : p.length = p'.length := (spells_length hp).trans (spells_length hp').symm
      obtain rfl : p = p' := (List.prefix_of_prefix_length_le ((List.prefix_append p digits).trans hstart)
        (List.prefix_append p' _) hlength.le).eq_of_length hlength
      rw [List.prefix_append_right_inj] at hstart
      obtain ⟨more, rfl⟩ := digits_prefix hdigits hq' hstart
      exact .part hp hq hdigits fun c hc => hdigits' c (List.mem_append_right _ hc)
  | @rar base q r digits hq hr hdigits hlength halone =>
      rcases spells_two hr with rfl | rfl
      · exact .rar hq hdigits hlength
      · have hsmall := (tail_of_letter (by decide) hdigits (digits_ne_nil hlength)).mp htail
        cases hsmall
  | @zip base q z digits hq hz hdigits hlength =>
      rcases spells_two hz with rfl | rfl
      · have hsmall := (tail_of_letter (by decide) hdigits (digits_ne_nil hlength)).mp htail
        cases hsmall
      · have hsmall := (tail_of_letter (by decide) hdigits (digits_ne_nil hlength)).mp htail
        cases hsmall
  | @split base digits digits' hdigits hlength hdigits' hlength' =>
      have hname : base ++ '.' :: digits' = base ++ ['.'] ++ digits' := by simp
      rw [hname, tail_of_digits rfl hdigits' (digits_ne_nil hlength'), List.isSuffixOf_iff_suffix] at htail
      cases last_of_suffix ['.'] htail

end Volumes

section Runs

variable {c : Config} {priorityPassword : Text} {content : Content}
  {past : List (Reaction State Event Out)} {s s' : State} {a : Event} {out : List Out}

-- What a step removes is a volume of a set that was extracted, and no volume of a set stays behind
-- once it is extracted.
structure DeletesRight (r : Reaction State Event Out) (s' : State) : Prop where
  only : ∀ g, .removed g ∈ r.out → ∃ archive ∈ s'.extracted, VolumeOf archive g
  all : ∀ archive, .extracted archive ∈ r.out → ∀ g ∈ s'.files, ¬ VolumeOf archive g

-- The extraction of the current archive succeeds, with these files in its folder.
def Succeeds (r : Reaction State Event Out) (archive : Text) (files : List Text) : Prop :=
  r.before.archives.head? = some archive ∧
    ∃ appeared, r.event = .finished 0 appeared ∧ files = r.before.files ++ appeared

structure Apart (c : Config) (r : Reaction State Event Out) : Prop where
  others : ∀ archive files, Succeeds r archive files → ∀ g ∈ files, g ≠ archive →
    c.hidden g = false → related archive g = true →
      ∃ done ∈ archive :: r.before.extracted, VolumeOf done g
  volumes : ∀ archive files, Succeeds r archive files → ∀ g ∈ files, g ≠ archive →
    VolumeOf archive g → c.hidden g = false ∧ Covered archive g

theorem advance_out {rest : List Text} : ∀ o ∈ (s.advance c priorityPassword rest).2,
    ∃ allOk, o = .extractionCompleted allOk := by
  unfold State.advance
  split_ifs
  · exact fun o ho => ⟨_, List.mem_singleton.mp ho⟩
  · simp

theorem attemptFailed_out {archive : Text} {rest : List Text} :
    ∀ o ∈ (s.attemptFailed c priorityPassword archive rest).2,
      (∃ archive, o = .extractError archive) ∨ ∃ allOk, o = .extractionCompleted allOk := by
  unfold State.attemptFailed
  split
  · rintro o ho
    rcases List.mem_cons.mp ho with rfl | ho
    · exact .inl ⟨_, rfl⟩
    · exact .inr (advance_out o ho)
  · simp

-- What a success leaves and removes.
theorem succeeded_spec (hdelete : c.deleteAfter = true) {archive : Text} {rest : List Text} :
    (s.succeeded c priorityPassword archive rest).1.extracted = archive :: s.extracted ∧
    (∀ g, g ∈ (s.succeeded c priorityPassword archive rest).1.files ↔
      g ∈ s.files ∧ g ≠ archive ∧ (c.hidden g = true ∨ related archive g = false)) ∧
    (∀ g, .removed g ∈ (s.succeeded c priorityPassword archive rest).2 ↔
      g = archive ∨ g ∈ s.files ∧ g ≠ archive ∧ c.hidden g = false ∧ related archive g = true) ∧
    ∀ g, .extracted g ∈ (s.succeeded c priorityPassword archive rest).2 ↔ g = archive := by
  have hadvance : ∀ (s : State) (o : Out), o ∈ (s.advance c priorityPassword rest).2 →
      ∃ allOk, o = .extractionCompleted allOk := fun s o ho => advance_out o ho
  unfold State.succeeded
  dsimp only
  rw [if_pos hdelete]
  refine ⟨rfl, fun g => ?_, fun g => ?_, fun g => ?_⟩
  · simp only [State.advance, State.deleteAfter, List.mem_filter, decide_eq_true_eq, Bool.and_eq_true,
      Bool.not_eq_true']
    cases c.hidden g with
    | true => simp
    | false =>
        cases related archive g with
        | true => simp
        | false => simp
  · rw [List.mem_append, List.mem_cons]
    constructor
    · rintro ((h | h) | h)
      · cases h
      · obtain ⟨n, hn, heq⟩ := List.mem_map.mp h
        cases heq
        rcases List.mem_cons.mp hn with rfl | hn
        · exact .inl rfl
        · simp only [List.mem_filter, decide_eq_true_eq, Bool.and_eq_true, Bool.not_eq_true'] at hn
          tauto
      · obtain ⟨allOk, heq⟩ := hadvance _ _ h
        cases heq
    · intro h
      refine .inl (.inr (List.mem_map.mpr ⟨g, ?_, rfl⟩))
      rcases h with rfl | h
      · exact List.mem_cons_self
      · refine List.mem_cons_of_mem _ ?_
        simp only [List.mem_filter, decide_eq_true_eq, Bool.and_eq_true, Bool.not_eq_true']
        tauto
  · rw [List.mem_append, List.mem_cons]
    constructor
    · rintro ((h | h) | h)
      · cases h
        rfl
      · obtain ⟨n, hn, heq⟩ := List.mem_map.mp h
        cases heq
      · obtain ⟨allOk, heq⟩ := hadvance _ _ h
        cases heq
    · rintro rfl
      exact .inl (.inl rfl)

theorem deletesRight_iff_of_success (hdelete : c.deleteAfter = true) {archive : Text}
    {rest appeared : List Text} (harchives : s.archives = archive :: rest)
    (hsucceeded : State.succeeded c { s with files := s.files ++ appeared } priorityPassword archive rest =
      (s', out)) :
    DeletesRight ⟨s, .finished 0 appeared, out⟩ s' ↔ Apart c ⟨s, .finished 0 appeared, out⟩ := by
  obtain ⟨hextracted, hfiles, hremoved, hout⟩ := @succeeded_spec c priorityPassword
    { s with files := s.files ++ appeared } hdelete archive rest
  rw [hsucceeded] at hextracted hfiles hremoved hout
  dsimp only at hextracted hfiles hremoved hout
  have hsucceeds : ∀ archive' files, Succeeds ⟨s, .finished 0 appeared, out⟩ archive' files →
      archive' = archive ∧ files = s.files ++ appeared := by
    rintro archive' files ⟨hhead, appeared', hevent, rfl⟩
    cases hevent
    rw [harchives] at hhead
    exact ⟨(Option.some.inj hhead).symm, rfl⟩
  have hnow : Succeeds ⟨s, .finished 0 appeared, out⟩ archive (s.files ++ appeared) :=
    ⟨by rw [harchives]; rfl, appeared, rfl, rfl⟩
  constructor
  · rintro ⟨honly, hall⟩
    refine ⟨fun archive' files h g hg hne hvisible hrelated => ?_,
      fun archive' files h g hg hne hvolume => ?_⟩
    · obtain ⟨rfl, rfl⟩ := hsucceeds _ _ h
      rw [← hextracted]
      exact honly g ((hremoved g).mpr (.inr ⟨hg, hne, hvisible, hrelated⟩))
    · obtain ⟨rfl, rfl⟩ := hsucceeds _ _ h
      rw [← related_iff hvolume hne, ← Bool.not_eq_true]
      by_contra hkept
      refine hall archive' ((hout archive').mpr rfl) g ((hfiles g).mpr ⟨hg, hne, ?_⟩) hvolume
      rw [← Bool.not_eq_true]
      tauto
  · rintro ⟨hothers, hvolumes⟩
    refine ⟨fun g hg => ?_, fun archive' h g hg hvolume => ?_⟩
    · rw [hextracted]
      rcases (hremoved g).mp hg with rfl | ⟨hin, hne, hvisible, hrelated⟩
      · exact ⟨g, List.mem_cons_self, .itself⟩
      · exact hothers archive _ hnow g hin hne hvisible hrelated
    · obtain rfl := (hout archive').mp h
      obtain ⟨hin, hne, hkept⟩ := (hfiles g).mp hg
      obtain ⟨hvisible, hcovered⟩ := hvolumes archive' _ hnow g hin hne hvolume
      rw [hvisible, related_of_covered hcovered] at hkept
      simp at hkept

theorem deletesRight_iff (hdelete : c.deleteAfter = true)
    (hnext : s.next c priorityPassword a = some (s', out)) :
    DeletesRight ⟨s, a, out⟩ s' ↔ Apart c ⟨s, a, out⟩ := by
  -- A step that is no success removes nothing.
  have hidle : (∀ archive files, ¬ Succeeds ⟨s, a, out⟩ archive files) →
      (∀ g, .removed g ∉ out ∧ .extracted g ∉ out) → (DeletesRight ⟨s, a, out⟩ s' ↔ Apart c ⟨s, a, out⟩) := by
    intro hnot hout
    exact iff_of_true ⟨fun g hg => absurd hg (hout g).1, fun archive h => absurd h (hout archive).2⟩
      ⟨fun archive files h => absurd h (hnot archive files),
        fun archive files h => absurd h (hnot archive files)⟩
  have hfailed : ∀ (s : State) (archive : Text) (rest : List Text) (g : Text),
      .removed g ∉ (s.attemptFailed c priorityPassword archive rest).2 ∧
        .extracted g ∉ (s.attemptFailed c priorityPassword archive rest).2 := by
    intro s archive rest g
    refine ⟨fun h => ?_, fun h => ?_⟩
    · rcases attemptFailed_out _ h with ⟨_, heq⟩ | ⟨_, heq⟩
      · cases heq
      · cases heq
    · rcases attemptFailed_out _ h with ⟨_, heq⟩ | ⟨_, heq⟩
      · cases heq
      · cases heq
  unfold State.next at hnext
  cases harchives : s.archives with
  | nil => simp [harchives] at hnext
  | cons archive rest =>
      rw [harchives] at hnext
      cases a with
      | failedToStart appeared =>
          obtain ⟨-, rfl⟩ := Prod.mk.inj (Option.some.inj hnext)
          refine hidle ?_ (hfailed _ archive rest)
          rintro archive files ⟨-, appeared, hevent, -⟩
          cases hevent
      | finished exitCode appeared =>
          dsimp only at hnext
          split_ifs at hnext with hzero
          · subst hzero
            rw [← harchives] at hnext
            exact deletesRight_iff_of_success hdelete harchives (Option.some.inj hnext)
          · obtain ⟨-, rfl⟩ := Prod.mk.inj (Option.some.inj hnext)
            refine hidle ?_ (hfailed _ archive rest)
            rintro archive files ⟨-, appeared, hevent, -⟩
            cases hevent
            exact hzero rfl

theorem run_deletesRight (hdelete : c.deleteAfter = true)
    (hrun : (machine c priorityPassword content).Run (fun _ _ => True) past s) :
    Machine.eachStep (fun _ r s => DeletesRight r s) past s ↔ ∀ r ∈ past, Apart c r := by
  rw [← Machine.eachStep_forall]
  exact Machine.Run.eachStep_iff (fun _ _ _ _ _ _ _ hnext _ => deletesRight_iff hdelete hnext) hrun

end Runs

section Sample

-- The names of two volumes have a dot at the same place.
theorem volume_dot {a g : Text} (h : VolumeOf a g) (hne : g ≠ a) :
    ∃ i : Nat, a[i]? = some '.' ∧ g[i]? = some '.' := by
  have hdot : ∀ (base : Text) {ext s : Text} (rest : Text), Spells ('.' :: ext) s →
      (base ++ (s ++ rest))[base.length]? = some '.' := by
    intro base ext s rest hs
    obtain ⟨tail, rfl, -⟩ := spells_dot hs
    simp
  cases h with
  | itself => exact absurd rfl hne
  | @part base p q p' q' digits digits' hp hq hp' hq' hdigits hd hdigits' hd' =>
      exact ⟨base.length, by simpa using hdot base (digits ++ q) hp,
        by simpa using hdot base (digits' ++ q') hp'⟩
  | @rar base q r digits hq hr hdigits hlength halone =>
      exact ⟨base.length, by simpa using hdot base [] hq, by simpa using hdot base digits hr⟩
  | @zip base q z digits hq hz hdigits hlength =>
      exact ⟨base.length, by simpa using hdot base [] hq, by simpa using hdot base digits hz⟩
  | @split base digits digits' hdigits hlength hdigits' hlength' =>
      exact ⟨base.length, by simp, by simp⟩

def sampleConfig : Config where
  toLower n := n.map Char.toLower
  detect _ := []
  hidden n := ['.'].isPrefixOf n
  deleteAfter := true
  passwords := []

def game : Content := .folder ["g.rar".toList, "g.r00".toList, "n.txt".toList]

theorem run_deletesRight_game : ∃ past s, (machine sampleConfig [] game).Run (fun _ _ => True) past s ∧
    s.files = ["n.txt".toList, "g.exe".toList] ∧
      (Machine.eachStep (fun _ r s => DeletesRight r s) past s ↔ ∀ r ∈ past, Apart sampleConfig r) := by
  obtain ⟨past, s, hrun, hfiles⟩ : ∃ past s,
      (machine sampleConfig [] game).Run (fun _ _ => True) past s ∧
        s.files = ["n.txt".toList, "g.exe".toList] :=
    Machine.exists_run [.finished 2 [], .finished 0 ["g.exe".toList]] (by decide +kernel)
  exact ⟨past, s, hrun, hfiles, run_deletesRight rfl hrun⟩

-- Two archives, where the name of one starts with the other's.
def twoArchives : Content := .folder ["a.rar".toList, "ab.rar".toList]

-- The second one is deleted before its turn comes.
theorem run_not_deletesRight : ∃ past s,
    (machine sampleConfig [] twoArchives).Run (fun _ _ => True) past s ∧
      ¬ Machine.eachStep (fun _ r s => DeletesRight r s) past s := by
  obtain ⟨⟨s, out⟩, hnext, hextracted, hout⟩ : ∃ res,
      State.next sampleConfig [] (machine sampleConfig [] twoArchives).init (.finished 0 []) =
        some res ∧ res.1.extracted = ["a.rar".toList] ∧ .removed "ab.rar".toList ∈ res.2 :=
    ⟨_, rfl, by decide +kernel, by decide +kernel⟩
  have hinit : (machine sampleConfig [] twoArchives).Run (fun _ _ => True) []
      (machine sampleConfig [] twoArchives).init := .init
  have hrun := hinit.extend (Event.finished 0 []) trivial hnext
  refine ⟨_, s, hrun, fun hdeletes => ?_⟩
  obtain ⟨archive, hin, hvolume⟩ := hdeletes.1.only _ hout
  rw [hextracted] at hin
  obtain rfl := List.mem_singleton.mp hin
  obtain ⟨i, hfirst, hsecond⟩ := volume_dot hvolume (by decide)
  have hnone : ∀ i < 5, "a.rar".toList[i]? = some '.' → "ab.rar".toList[i]? ≠ some '.' := by decide
  exact hnone i (List.getElem?_eq_some_iff.mp hfirst).1 hfirst hsecond

end Sample

end BATorrent.ArchiveExtractor
