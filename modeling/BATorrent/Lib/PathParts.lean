import Mathlib.Data.List.Infix
import Mathlib.Tactic.SplitIfs

namespace Lib.PathParts

def dot : List Char := ['.']

def dotdot : List Char := ['.', '.']

-- The names between the separators of a path, without the empty ones and those that stay in place.
def parts (isSep : Char → Bool) (path : List Char) : List (List Char) :=
  (path.splitOnP isSep).filter fun part => part ≠ [] ∧ part ≠ dot

-- Where the names lead from a folder. Nothing is above the root.
def walk (folder names : List (List Char)) : List (List Char) :=
  names.foldl (fun here name => if name = dotdot then here.dropLast else here ++ [name]) folder

-- The same below a folder, none where the way leads out of it.
def descend : List (List Char) → List (List Char) → Option (List (List Char))
  | below, [] => some below
  | below, name :: rest =>
      if name = dotdot then if below = [] then none else descend below.dropLast rest
      else descend (below ++ [name]) rest

theorem parts_join {isSep : Char → Bool} {c : Char} (hc : isSep c = true) (a b : List Char) :
    parts isSep (a ++ c :: b) = parts isSep a ++ parts isSep b := by
  unfold parts
  rw [List.splitOnP_append_cons _ _ hc, List.filter_append]

theorem parts_of_name {isSep : Char → Bool} {name : List Char} (h : ∀ c ∈ name, isSep c = false)
    (hne : name ≠ []) (hdot : name ≠ dot) : parts isSep name = [name] := by
  unfold parts
  rw [List.splitOnP_eq_singleton h, List.filter_cons_of_pos (by simp [hne, hdot])]
  rfl

theorem walk_cons (folder : List (List Char)) (name : List Char) (rest : List (List Char)) :
    walk folder (name :: rest) =
      walk (if name = dotdot then folder.dropLast else folder ++ [name]) rest := rfl

theorem walk_append (folder names more : List (List Char)) :
    walk folder (names ++ more) = walk (walk folder names) more := List.foldl_append

theorem mem_walk {folder names : List (List Char)} {name : List Char} (h : name ∈ walk folder names) :
    name ∈ folder ∨ name ∈ names := by
  induction names generalizing folder with
  | nil => exact .inl h
  | cons head rest ih =>
      rw [walk_cons] at h
      rcases ih h with h | h
      · split_ifs at h
        · exact .inl ((List.dropLast_subset folder) h)
        · rcases List.mem_append.mp h with h | h
          · exact .inl h
          · exact .inr (List.mem_singleton.mp h ▸ List.mem_cons_self)
      · exact .inr (List.mem_cons_of_mem head h)

-- A way that stays below a folder leads to the same place below it, whatever the folder.
theorem walk_of_descend (folder : List (List Char)) {below names place : List (List Char)}
    (h : descend below names = some place) : walk (folder ++ below) names = folder ++ place := by
  induction names generalizing below with
  | nil =>
      rw [Option.some.inj h]
      rfl
  | cons name rest ih =>
      rw [descend] at h
      rw [walk_cons]
      split_ifs at h ⊢ with hup hempty
      · rw [List.dropLast_append_of_ne_nil hempty]
        exact ih h
      · rw [List.append_assoc]
        exact ih h

-- From deeper down the same way ends at the same names, below what is left of the folder.
theorem exists_walk (folder below names : List (List Char)) :
    ∃ left, left <+: folder ∧ walk (folder ++ below) names = left ++ walk below names := by
  induction names generalizing folder below with
  | nil => exact ⟨folder, List.prefix_rfl, rfl⟩
  | cons name rest ih =>
      rw [walk_cons, walk_cons]
      split_ifs with hup
      · by_cases hempty : below = []
        · subst hempty
          obtain ⟨left, hleft, hwalk⟩ := ih folder.dropLast []
          rw [List.append_nil] at hwalk ⊢
          exact ⟨left, hleft.trans folder.dropLast_prefix, hwalk⟩
        · rw [List.dropLast_append_of_ne_nil hempty]
          exact ih folder below.dropLast
      · rw [List.append_assoc]
        exact ih folder (below ++ [name])

-- A way out of a folder does not come back to it, where no name of the way is the folder's.
theorem not_mem_of_descend {folder : List Char} {below names : List (List Char)}
    (h : descend below names = none) (hbelow : folder ∉ below) (hnames : folder ∉ names) :
    folder ∉ walk (folder :: below) names := by
  induction names generalizing below with
  | nil => cases h
  | cons name rest ih =>
      obtain ⟨hname, hrest⟩ := not_or.mp fun h => hnames (List.mem_cons.mpr h)
      rw [descend] at h
      rw [walk_cons]
      split_ifs at h ⊢ with hup hempty
      · subst hempty
        intro hmem
        exact (mem_walk hmem).elim (by simp) hrest
      · rw [List.dropLast_cons_of_ne_nil hempty]
        exact ih h (fun hmem => hbelow ((List.dropLast_subset below) hmem)) hrest
      · refine ih h (fun hmem => ?_) hrest
        rcases List.mem_append.mp hmem with hmem | hmem
        · exact hbelow hmem
        · exact hname (List.mem_singleton.mp hmem)

-- A name that is none of the given ones.
theorem exists_fresh (c : Char) (names : List (List Char)) :
    ∃ n, 3 ≤ n ∧ List.replicate n c ∉ names := by
  refine ⟨names.flatten.length + 3, by omega, fun h => ?_⟩
  have hle := (List.sublist_flatten_of_mem h).length_le
  rw [List.length_replicate] at hle
  omega

end Lib.PathParts
