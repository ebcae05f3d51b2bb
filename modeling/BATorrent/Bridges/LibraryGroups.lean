import BATorrent.Lib.Text
import Mathlib.Data.List.Sort

namespace BATorrent.LibraryGroups

open Lib

abbrev Text := List Char

-- A torrent as the grouping sees it. `nameKey` is empty for what is no episode.
structure Member where
  tmdbId : Int
  nameKey : Text
  season : Int
  episode : Int
  collectionId : Int
  year : Int
  name : Text

-- One line of the list; `members` are places in it.
structure Row where
  groupKey : Text
  members : List Nat
  group : Bool
  child : Bool
deriving DecidableEq

-- The first member that the resolver has tied to a show says which show its name is.
def nameToTmdb (members : List Member) (nameKey : Text) : Option Int :=
  (members.find? fun m => 0 < m.tmdbId ∧ m.nameKey ≠ [] ∧ m.nameKey = nameKey).map (·.tmdbId)

def keyOf (members : List Member) (m : Member) : Text :=
  let id := if m.tmdbId ≤ 0 ∧ m.nameKey ≠ [] then (nameToTmdb members m.nameKey).getD 0 else m.tmdbId
  if 0 < id then "tmdb:".toList ++ Text.number id
  else if m.nameKey ≠ [] then "name:".toList ++ m.nameKey
  else if 0 < m.collectionId then "col:".toList ++ Text.number m.collectionId
  else []

def keys (members : List Member) : List Text := members.map (keyOf members)

section Layout

-- How names compare without regard to case.
variable (fold : Text → Text)

-- A pack is -1, so it comes before the episodes.
def less (x y : Member) : Bool :=
  if x.season ≠ y.season then x.season < y.season
  else if x.episode ≠ y.episode then x.episode < y.episode
  else if x.year ≠ y.year then x.year < y.year
  else fold x.name < fold y.name

-- Not after: members that are equal stay in the order they come in, as a stable sort leaves them.
def sorts (members : List Member) (a b : Nat) : Bool :=
  match members[a]?, members[b]? with
  | some x, some y => !less fold y x
  | _, _ => true

def byKey (members : List Member) (key : Text) : List Nat :=
  ((List.range members.length).filter fun i => (keys members)[i]? = some key).insertionSort
    fun a b => sorts fold members a b = true

def place (members : List Member) (expanded : Text → Bool) : List Nat → List Text → List Row
  | [], _ => []
  | i :: rest, placed =>
      let key := (keys members).getD i []
      if key = [] ∨ (byKey fold members key).length < 2 then
        { groupKey := [], members := [i], group := false, child := false } ::
          place members expanded rest placed
      else if key ∈ placed then place members expanded rest placed
      else
        { groupKey := key, members := byKey fold members key, group := true, child := false } ::
          ((if expanded key then
              (byKey fold members key).map fun m =>
                { groupKey := key, members := [m], group := false, child := true }
            else []) ++
            place members expanded rest (key :: placed))

def layout (members : List Member) (expanded : Text → Bool) : List Row :=
  place fold members expanded (List.range members.length) []

end Layout

def keyAt (members : List Member) (i : Nat) : Text := (keys members).getD i []

section Layout

variable {fold : Text → Text} {members : List Member} {expanded : Text → Bool} {i : Nat}

variable (fold members) in
-- No group, or a group of its own.
def Lone (i : Nat) : Prop := keyAt members i = [] ∨ (byKey fold members (keyAt members i)).length < 2

instance : Decidable (Lone fold members i) := inferInstanceAs (Decidable (_ ∨ _))

-- The row shows the member, as a child or not.
def shows (i : Nat) (child : Bool) (r : Row) : Bool := r.child == child && r.members.contains i

theorem keys_getElem? (hi : i < members.length) : (keys members)[i]? = some (keyAt members i) := by
  have hlt : i < (keys members).length := by rwa [keys, List.length_map]
  rw [keyAt, List.getD_eq_getElem?_getD, List.getElem?_eq_getElem hlt, Option.getD_some]

theorem mem_byKey {key : Text} :
    i ∈ byKey fold members key ↔ i < members.length ∧ keyAt members i = key := by
  unfold byKey
  rw [List.mem_insertionSort, List.mem_filter, List.mem_range]
  refine and_congr_right fun hi => ?_
  rw [keys_getElem? hi, decide_eq_true_iff, Option.some.injEq]

theorem nodup_byKey (key : Text) : (byKey fold members key).Nodup :=
  (List.perm_insertionSort _ _).nodup_iff.mpr (List.nodup_range.filter _)

variable (fold members expanded) in
-- The rows of a group.
def block (key : Text) : List Row :=
  { groupKey := key, members := byKey fold members key, group := true, child := false } ::
    if expanded key then
      (byKey fold members key).map fun m =>
        { groupKey := key, members := [m], group := false, child := true }
    else []

theorem place_cons (j : Nat) (rest : List Nat) (placed : List Text) :
    place fold members expanded (j :: rest) placed =
      if Lone fold members j then ⟨[], [j], false, false⟩ :: place fold members expanded rest placed
      else if keyAt members j ∈ placed then place fold members expanded rest placed
      else block fold members expanded (keyAt members j) ++
        place fold members expanded rest (keyAt members j :: placed) := by
  rw [place]
  rfl

theorem countP_lone (j : Nat) (child : Bool) (rows : List Row) :
    ((⟨[], [j], false, false⟩ : Row) :: rows).countP (shows i child) =
      rows.countP (shows i child) + if child = false ∧ i = j then 1 else 0 := by
  rw [List.countP_cons]
  cases child <;> simp [shows]

-- What a group's rows show of a member: its head once, and once again where it is open.
theorem countP_block (hi : i < members.length) (key : Text) (child : Bool) :
    (block fold members expanded key).countP (shows i child) =
      if keyAt members i = key ∧ (child = true → expanded key = true) then 1 else 0 := by
  have hhead : shows i child ⟨key, byKey fold members key, true, false⟩ = true ↔
      child = false ∧ keyAt members i = key := by
    rw [shows, Bool.and_eq_true, List.contains_iff_mem, mem_byKey, beq_iff_eq]
    exact and_congr eq_comm (and_iff_right hi)
  have hchildren : ((byKey fold members key).map fun m => (⟨key, [m], false, true⟩ : Row)).countP
      (shows i child) = if child = true ∧ keyAt members i = key then 1 else 0 := by
    rw [List.countP_map]
    cases child with
    | false => simp [shows, Function.comp_def]
    | true =>
        have hshows : (shows i true ∘ fun m => (⟨key, [m], false, true⟩ : Row)) = fun m => m == i := by
          funext m
          rw [Bool.eq_iff_iff, Function.comp_apply, shows, beq_self_eq_true, Bool.true_and,
            List.contains_iff_mem, List.mem_singleton, beq_iff_eq, eq_comm]
        rw [hshows]
        change (byKey fold members key).count i = _
        by_cases hkey : keyAt members i = key
        · rw [if_pos ⟨rfl, hkey⟩]
          exact List.count_eq_one_of_mem (nodup_byKey key) (mem_byKey.mpr ⟨hi, hkey⟩)
        · rw [if_neg fun h => hkey h.2]
          exact List.count_eq_zero.mpr fun h => hkey (mem_byKey.mp h).2
  unfold block
  rw [List.countP_cons]
  by_cases hopen : expanded key = true
  · rw [if_pos hopen, hchildren]
    cases child <;> simp [hhead, hopen]
  · rw [if_neg hopen, List.countP_nil]
    cases child <;> simp [hhead, hopen]

-- A member of no group has a row at its own place, and is in no group's rows.
theorem countP_place_lone (hi : i < members.length) (h : Lone fold members i) (child : Bool)
    (rest : List Nat) (placed : List Text) :
    (place fold members expanded rest placed).countP (shows i child) =
      if child = true then 0 else rest.count i := by
  induction rest generalizing placed with
  | nil => cases child <;> rfl
  | cons j rest ih =>
      rw [place_cons]
      by_cases hlone : Lone fold members j
      · rw [if_pos hlone, countP_lone, ih]
        cases child with
        | true => simp
        | false =>
            by_cases hij : i = j
            · simp [hij]
            · rw [List.count_cons_of_ne (Ne.symm hij)]
              simp [hij]
      · have hne : keyAt members i ≠ keyAt members j := fun heq => hlone (by rwa [Lone, ← heq])
        have hij : j ≠ i := fun heq => hne (by rw [heq])
        rw [List.count_cons_of_ne hij, if_neg hlone]
        by_cases hplaced : keyAt members j ∈ placed
        · rw [if_pos hplaced, ih]
        · rw [if_neg hplaced, List.countP_append, countP_block hi, if_neg fun h => hne h.1, Nat.zero_add, ih]

-- A member of a group is in the group's rows, which stand where the first of its members does.
theorem countP_place_grouped (hi : i < members.length) (h : ¬ Lone fold members i) (child : Bool)
    (rest : List Nat) (placed : List Text) :
    (place fold members expanded rest placed).countP (shows i child) =
      if (keyAt members i ∉ placed ∧ ∃ j ∈ rest, keyAt members j = keyAt members i) ∧
        (child = true → expanded (keyAt members i) = true) then 1 else 0 := by
  induction rest generalizing placed with
  | nil => rw [if_neg (by simp)]; rfl
  | cons j rest ih =>
      rw [place_cons]
      have hkeep : keyAt members j ≠ keyAt members i →
          ((∃ k ∈ j :: rest, keyAt members k = keyAt members i) ↔
            ∃ k ∈ rest, keyAt members k = keyAt members i) := by
        intro hne
        rw [List.exists_mem_cons_iff, or_iff_right hne]
      by_cases hlone : Lone fold members j
      · have hne : keyAt members j ≠ keyAt members i := fun heq => h (by rwa [Lone, ← heq])
        have hij : i ≠ j := fun heq => hne (by rw [heq])
        rw [if_pos hlone, countP_lone, if_neg fun h => hij h.2, ih]
        simp only [hkeep hne, Nat.add_zero]
      · rw [if_neg hlone]
        by_cases heq : keyAt members j = keyAt members i
        · rw [heq]
          by_cases hplaced : keyAt members i ∈ placed
          · rw [if_pos hplaced, ih, if_neg fun h => h.1.1 hplaced, if_neg fun h => h.1.1 hplaced]
          · rw [if_neg hplaced, List.countP_append, countP_block hi, ih]
            simp [hplaced, heq]
        · by_cases hplaced : keyAt members j ∈ placed
          · rw [if_pos hplaced, ih]
            simp only [hkeep heq]
          · rw [if_neg hplaced, List.countP_append, countP_block hi, if_neg fun h => heq h.1.symm,
              Nat.zero_add, ih]
            have hmem : keyAt members i ∉ keyAt members j :: placed ↔ keyAt members i ∉ placed := by
              rw [List.mem_cons, not_or, and_iff_right (Ne.symm heq)]
            simp only [hkeep heq, hmem]

theorem countP_layout (hi : i < members.length) (child : Bool) :
    (layout fold members expanded).countP (shows i child) =
      if child = true → ¬ Lone fold members i ∧ expanded (keyAt members i) = true then 1 else 0 := by
  unfold layout
  by_cases hlone : Lone fold members i
  · rw [countP_place_lone hi hlone, List.count_eq_one_of_mem List.nodup_range (List.mem_range.mpr hi)]
    cases child <;> simp [hlone]
  · rw [countP_place_grouped hi hlone]
    have hthere : ∃ j ∈ List.range members.length, keyAt members j = keyAt members i :=
      ⟨i, List.mem_range.mpr hi, rfl⟩
    simp only [hthere, List.not_mem_nil, not_false_eq_true, and_self, true_and, hlone]

-- No group comes twice.
theorem groups_place (rest : List Nat) (placed : List Text) :
    (((place fold members expanded rest placed).filter Row.group).map Row.groupKey).Nodup ∧
      ∀ r ∈ place fold members expanded rest placed, r.group = true → r.groupKey ∉ placed := by
  induction rest generalizing placed with
  | nil => exact ⟨List.nodup_nil, fun r hr => absurd hr List.not_mem_nil⟩
  | cons j rest ih =>
      rw [place_cons]
      split_ifs with hlone hplaced
      · obtain ⟨hnodup, hnew⟩ := ih placed
        refine ⟨hnodup, fun r hr hgroup => ?_⟩
        rcases List.mem_cons.mp hr with rfl | hr
        · cases hgroup
        · exact hnew r hr hgroup
      · exact ih placed
      · obtain ⟨hnodup, hnew⟩ := ih (keyAt members j :: placed)
        have hblock : (block fold members expanded (keyAt members j)).filter Row.group =
            [⟨keyAt members j, byKey fold members (keyAt members j), true, false⟩] := by
          unfold block
          rw [List.filter_cons_of_pos rfl]
          split_ifs
          · rw [List.filter_map]
            simp [Function.comp_def]
          · rfl
        constructor
        · rw [List.filter_append, hblock]
          refine List.nodup_cons.mpr ⟨fun hin => ?_, hnodup⟩
          obtain ⟨r, hr, hkey⟩ := List.mem_map.mp hin
          obtain ⟨hmem, hgroup⟩ := List.mem_filter.mp hr
          exact hnew r hmem hgroup (hkey ▸ List.mem_cons_self)
        · intro r hr hgroup
          rcases List.mem_append.mp hr with hhead | hr
          · have hin := List.mem_filter.mpr ⟨hhead, hgroup⟩
            rw [hblock] at hin
            rw [List.mem_singleton.mp hin]
            exact hplaced
          · exact fun hin => hnew r hr hgroup (List.mem_cons_of_mem _ hin)

end Layout

end BATorrent.LibraryGroups
