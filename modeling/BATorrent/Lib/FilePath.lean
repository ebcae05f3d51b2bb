import Mathlib.Data.List.Infix

namespace Lib.FilePath

-- What a platform calls absolute. The laws say that the first characters decide it,
-- so a suffix that starts with a dot changes nothing.
structure Rules where
  isAbsolute : List Char → Bool
  slash : ∀ s, isAbsolute ('/' :: s) = true
  dot : ∀ s, isAbsolute ('.' :: s) = false
  suffix : ∀ c s t, isAbsolute (c :: s ++ '.' :: t) = isAbsolute (c :: s)

-- A leading `:` names a compiled-in resource.
def unix : Rules where
  isAbsolute s := s.head? = some '/' || s.head? = some ':'
  slash s := by simp
  dot s := by simp
  suffix c s t := by simp

def driveRoot (s : List Char) : Bool :=
  s.head?.any Char.isAlpha && s.tail.take 2 = [':', '/']

def windows : Rules where
  isAbsolute s := s.head? = some '/' || s.head? = some ':' || driveRoot s
  slash s := by simp
  dot s := by
    have hdot : driveRoot ('.' :: s) = false := by
      rw [driveRoot, Bool.and_eq_false_iff]
      left
      show Char.isAlpha '.' = false
      decide
    simp [hdot]
  suffix c s t := by
    match s with
    | [] => simp [driveRoot]
    | [d] => simp [driveRoot]
    | d :: e :: s => simp [driveRoot]

-- A name that stands for one entry of a folder.
structure Component (c : List Char) : Prop where
  nonempty : c ≠ []
  notDot : c ≠ ['.']
  notDotDot : c ≠ ['.', '.']
  slash : '/' ∉ c
  backslash : '\\' ∉ c

instance (c : List Char) : Decidable (Component c) :=
  decidable_of_iff (c ≠ [] ∧ c ≠ ['.'] ∧ c ≠ ['.', '.'] ∧ '/' ∉ c ∧ '\\' ∉ c)
    ⟨fun ⟨h₁, h₂, h₃, h₄, h₅⟩ => ⟨h₁, h₂, h₃, h₄, h₅⟩, fun ⟨h₁, h₂, h₃, h₄, h₅⟩ => ⟨h₁, h₂, h₃, h₄, h₅⟩⟩

-- A long suffix without separators keeps a component one.
theorem Component.append {c t : List Char} (hc : Component c) (hlen : 2 < t.length)
    (hslash : '/' ∉ t) (hback : '\\' ∉ t) : Component (c ++ t) := by
  have hlong : 2 < (c ++ t).length := by simp only [List.length_append]; omega
  refine ⟨?_, ?_, ?_, ?_, ?_⟩
  · intro h
    simp [h] at hlong
  · intro h
    simp [h] at hlong
  · intro h
    simp [h] at hlong
  · simpa using ⟨hc.slash, hslash⟩
  · simpa using ⟨hc.backslash, hback⟩

-- The folder a path names, with one trailing separator dropped.
def folder (path : List Char) : List Char :=
  if path = [] then ['.']
  else if path.getLast? = some '/' ∧ path.length > 1 then path.dropLast
  else path

def join (dir name : List Char) : List Char :=
  if dir = [] ∨ dir.getLast? = some '/' then dir ++ name else dir ++ '/' :: name

-- The path of `name` seen from a folder: absolute names are left alone.
def filePath (rules : Rules) (dir name : List Char) : List Char :=
  if rules.isAbsolute name then name
  else if name = [] then dir
  else join dir name

theorem join_cancel (dir : List Char) {a b : List Char} (h : join dir a = join dir b) : a = b := by
  unfold join at h
  split_ifs at h with hd
  · exact List.append_cancel_left h
  · have htail := List.append_cancel_left h
    simpa using htail

theorem join_append (dir a b : List Char) : join dir a ++ b = join dir (a ++ b) := by
  unfold join
  split_ifs <;> simp

theorem join_ne_self (dir : List Char) {name : List Char} (h : name ≠ []) :
    dir ≠ join dir name := by
  intro he
  have hlen := congrArg List.length he
  have hpos := List.length_pos_iff.mpr h
  unfold join at hlen
  split_ifs at hlen
  · simp only [List.length_append] at hlen
    omega
  · simp only [List.length_append, List.length_cons] at hlen
    omega

-- One entry of a folder, and no other place.
def Inside (dir path : List Char) : Prop := ∃ c, Component c ∧ path = join dir c

theorem inside_join_iff (dir name : List Char) : Inside dir (join dir name) ↔ Component name := by
  constructor
  · rintro ⟨c, hc, he⟩
    rwa [join_cancel dir he]
  · exact fun hc => ⟨name, hc, rfl⟩

theorem not_inside_self (dir : List Char) : ¬ Inside dir dir :=
  fun ⟨_, hc, he⟩ => join_ne_self dir hc.nonempty he

theorem Inside.append {dir path t : List Char} (h : Inside dir path) (hlen : 2 < t.length)
    (hslash : '/' ∉ t) (hback : '\\' ∉ t) : Inside dir (path ++ t) := by
  obtain ⟨c, hc, rfl⟩ := h
  exact ⟨c ++ t, hc.append hlen hslash hback, join_append dir c t⟩

-- Where a name seen from a folder is one entry of it.
theorem inside_filePath_iff (rules : Rules) (dir name : List Char) :
    Inside dir (filePath rules dir name) ↔
      if rules.isAbsolute name then Inside dir name else Component name := by
  unfold filePath
  by_cases habs : rules.isAbsolute name
  · simp only [habs, if_true]
  · simp only [habs, if_false, Bool.false_eq_true]
    by_cases hempty : name = []
    · rw [if_pos hempty]
      refine iff_of_false (not_inside_self dir) ?_
      exact fun hc => hc.nonempty hempty
    · rw [if_neg hempty]
      exact inside_join_iff dir name

end Lib.FilePath
