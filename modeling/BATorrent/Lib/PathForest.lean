import Mathlib.Data.List.Infix
import Mathlib.Data.List.Count
import Mathlib.Tactic.SplitIfs

namespace Lib.PathForest

variable {α ι : Type*}

-- A path, with what is at the end of it: a leaf with its label, or none for a folder.
abbrev Entry (α ι : Type*) := List α × Option ι

section Definitions

def leaves (es : List (Entry α ι)) : List (List α × ι) := es.filterMap fun e => e.2.map (e.1, ·)

def folders (es : List (Entry α ι)) : List (List α) := es.filterMap fun e => if e.2.isNone then some e.1 else none

-- What an entry puts right below the root.
def kidOf : Entry α ι → Option (α × Option ι)
  | ([], _) => none
  | ([s], k) => some (s, k)
  | (s :: _ :: _, _) => some (s, none)

def within (s : α) (e : Entry α ι) : Entry α ι := (s :: e.1, e.2)

def FolderAt (q : List α) (es : List (Entry α ι)) : Prop := ∃ e ∈ es, q <+: e.1 ∧ (q ≠ e.1 ∨ e.2 = none)

variable [DecidableEq α]

def below (s : α) : Entry α ι → Option (Entry α ι)
  | (s' :: t :: rest, k) => if s' = s then some (t :: rest, k) else none
  | _ => none

def under (s : α) (es : List (Entry α ι)) : List (Entry α ι) := es.filterMap (below s)

def underPath (p : List α) (es : List (Entry α ι)) : List (Entry α ι) := p.foldl (fun es s => under s es) es

variable [DecidableEq ι]

-- A folder is there once, where it first appeared.
def addKid (ks : List (α × Option ι)) (kid : α × Option ι) : List (α × Option ι) :=
  if kid.2 = none ∧ kid ∈ ks then ks else ks ++ [kid]

def kids (es : List (Entry α ι)) : List (α × Option ι) := (es.filterMap kidOf).foldl addKid []

-- All that is at most `n` deep, each folder before what is in it.
def places : Nat → List (Entry α ι) → List (Entry α ι)
  | 0, _ => []
  | n + 1, es => (kids es).flatMap fun kid =>
      ([kid.1], kid.2) :: if kid.2 = none then (places n (under kid.1 es)).map (within kid.1) else []

end Definitions

section Under

variable [DecidableEq α] {s s' t : α} {p rest : List α} {k : Option ι} {es : List (Entry α ι)} {e : Entry α ι}

theorem under_append (s : α) (es es' : List (Entry α ι)) : under s (es ++ es') = under s es ++ under s es' :=
  List.filterMap_append

theorem underPath_snoc (p : List α) (s : α) (es : List (Entry α ι)) :
    underPath (p ++ [s]) es = under s (underPath p es) := List.foldl_append

theorem underPath_append (p : List α) (es es' : List (Entry α ι)) :
    underPath p (es ++ es') = underPath p es ++ underPath p es' := by
  induction p generalizing es es' with
  | nil => rfl
  | cons s p ih => rw [underPath, List.foldl_cons, under_append]; exact ih _ _

theorem below_iff : below s e = some (p, k) ↔ e = (s :: p, k) ∧ p ≠ [] := by
  obtain ⟨q, k'⟩ := e
  match q with
  | [] => exact iff_of_false nofun fun h => nomatch h.1
  | [a] =>
      refine iff_of_false nofun fun h => ?_
      obtain ⟨heq, hne⟩ := h
      exact hne (List.cons.inj (Prod.mk.inj heq).1).2.symm
  | a :: b :: rest =>
      unfold below
      dsimp only
      split_ifs with ha
      · rw [Option.some_inj, Prod.mk.injEq, Prod.mk.injEq, List.cons.injEq, ha]
        constructor
        · rintro ⟨rfl, rfl⟩
          exact ⟨⟨⟨rfl, rfl⟩, rfl⟩, List.cons_ne_nil _ _⟩
        · rintro ⟨⟨⟨-, rfl⟩, rfl⟩, -⟩
          exact ⟨rfl, rfl⟩
      · refine iff_of_false nofun fun h => ha ?_
        exact (List.cons.inj (Prod.mk.inj h.1).1).1

theorem mem_under : (p, k) ∈ under s es ↔ (s :: p, k) ∈ es ∧ p ≠ [] := by
  rw [under, List.mem_filterMap]
  constructor
  · rintro ⟨e, he, hbelow⟩
    obtain ⟨rfl, hne⟩ := below_iff.mp hbelow
    exact ⟨he, hne⟩
  · exact fun ⟨he, hne⟩ => ⟨_, he, below_iff.mpr ⟨rfl, hne⟩⟩

theorem folderAt_under : FolderAt (t :: rest) (under s es) ↔ FolderAt (s :: t :: rest) es := by
  constructor
  · rintro ⟨⟨q, k⟩, hmem, hstarts, hends⟩
    refine ⟨_, (mem_under.mp hmem).1, List.cons_prefix_cons.mpr ⟨rfl, hstarts⟩, ?_⟩
    exact hends.imp_left fun hne heq => hne (List.cons.inj heq).2
  · rintro ⟨⟨q, k⟩, hmem, hstarts, hends⟩
    obtain ⟨tail, rfl⟩ := hstarts
    refine ⟨_, mem_under.mpr ⟨hmem, List.cons_ne_nil _ _⟩, ⟨tail, rfl⟩, ?_⟩
    exact hends.imp_left fun hne heq => hne (congrArg (s :: ·) heq)

theorem underPath_nil (p : List α) : underPath p ([] : List (Entry α ι)) = [] := by
  induction p with
  | nil => rfl
  | cons s p ih => exact ih

theorem underPath_singleton (q : List α) : underPath q [(q ++ s :: rest, k)] = [(s :: rest, k)] := by
  induction q with
  | nil => rfl
  | cons a q ih =>
      have hbelow : below a ((a :: q) ++ s :: rest, k) = some (q ++ s :: rest, k) := below_iff.mpr ⟨rfl, by simp⟩
      rw [underPath, List.foldl_cons, under, List.filterMap_cons_some hbelow]
      exact ih

theorem underPath_singleton_past {q w : List α} (hne : w ≠ []) (h : ∀ s rest, w ≠ q ++ s :: rest) :
    underPath q [(w, k)] = [] := by
  induction q generalizing w with
  | nil =>
      obtain ⟨s, rest, rfl⟩ := List.exists_cons_of_ne_nil hne
      exact absurd rfl (h s rest)
  | cons a q ih =>
      rw [underPath, List.foldl_cons, under]
      cases hbelow : below a (w, k) with
      | none =>
          rw [List.filterMap_cons_none hbelow]
          exact underPath_nil q
      | some e =>
          obtain ⟨w', k'⟩ := e
          obtain ⟨heq, hne'⟩ := below_iff.mp hbelow
          obtain ⟨rfl, rfl⟩ := Prod.mk.inj heq
          rw [List.filterMap_cons_some hbelow]
          exact ih hne' fun s rest hw => h s rest (congrArg (a :: ·) hw)

variable [DecidableEq ι]

theorem count_under : (under s es).count (t :: rest, k) = es.count (s :: t :: rest, k) := by
  induction es with
  | nil => rfl
  | cons e es ih =>
      rw [List.count_cons, under, List.filterMap_cons]
      cases hbelow : below s e with
      | none =>
          have hne : (e == (s :: t :: rest, k)) = false := by
            rw [beq_eq_false_iff_ne]
            rintro rfl
            rw [below_iff.mpr ⟨rfl, List.cons_ne_nil _ _⟩] at hbelow
            contradiction
          rw [hne, if_neg Bool.false_ne_true]
          exact ih
      | some e' =>
          obtain ⟨q, k'⟩ := e'
          obtain ⟨rfl, -⟩ := below_iff.mp hbelow
          have hsame : ((s :: q, k') == (s :: t :: rest, k)) = ((q, k') == (t :: rest, k)) := by
            rw [Bool.eq_iff_iff, beq_iff_eq, beq_iff_eq, Prod.mk.injEq, Prod.mk.injEq, List.cons.injEq, and_iff_right rfl]
          dsimp only
          rw [List.count_cons, hsame]
          exact congrArg (· + _) ih

end Under

section Kids

variable [DecidableEq α] [DecidableEq ι] {s t : α} {rest : List α} {k : Option ι} {i : ι} {es : List (Entry α ι)}

theorem kids_append (es : List (Entry α ι)) (e : Entry α ι) :
    kids (es ++ [e]) = (kidOf e).elim (kids es) (addKid (kids es)) := by
  unfold kids
  rw [List.filterMap_append]
  cases hkid : kidOf e with
  | none => rw [List.filterMap_cons_none hkid, List.filterMap_nil, List.append_nil]; rfl
  | some kid => rw [List.filterMap_cons_some hkid, List.filterMap_nil, List.foldl_append]; rfl

theorem mem_addKid {ks : List (α × Option ι)} {kid kid' : α × Option ι} :
    kid' ∈ addKid ks kid ↔ kid' ∈ ks ∨ kid' = kid := by
  unfold addKid
  split_ifs with h
  · exact ⟨.inl, fun hor => hor.elim id fun heq => heq ▸ h.2⟩
  · rw [List.mem_append, List.mem_singleton]

theorem mem_kids {kid : α × Option ι} : kid ∈ kids es ↔ ∃ e ∈ es, kidOf e = some kid := by
  induction es using List.reverseRecOn with
  | nil => exact iff_of_false List.not_mem_nil fun ⟨e, he, _⟩ => List.not_mem_nil he
  | append_singleton es e ih =>
      have hlast : (∃ e' ∈ es ++ [e], kidOf e' = some kid) ↔ (∃ e' ∈ es, kidOf e' = some kid) ∨ kidOf e = some kid := by
        simp only [List.mem_append, List.mem_singleton, or_and_right, exists_or, exists_eq_left]
      rw [kids_append, hlast]
      cases hkid : kidOf e with
      | none => rw [Option.elim_none, ih, or_iff_left nofun]
      | some kid' => rw [Option.elim_some, mem_addKid, ih, Option.some_inj, eq_comm (a := kid)]

theorem kid_of_deeper (h : (s :: t :: rest, k) ∈ es) : (s, none) ∈ kids es := mem_kids.mpr ⟨_, h, rfl⟩

theorem mem_kids_folder : (s, none) ∈ kids es ↔ FolderAt [s] es := by
  rw [mem_kids]
  constructor
  · rintro ⟨⟨q, k⟩, he, hkid⟩
    match q, k, hkid with
    | [_], none, hkid =>
        obtain ⟨rfl, -⟩ := Prod.mk.inj (Option.some_inj.mp hkid)
        exact ⟨_, he, List.prefix_refl _, .inr rfl⟩
    | _ :: t :: rest, k, hkid =>
        obtain ⟨rfl, -⟩ := Prod.mk.inj (Option.some_inj.mp hkid)
        exact ⟨_, he, ⟨t :: rest, rfl⟩, .inl nofun⟩
  · rintro ⟨⟨q, k⟩, he, ⟨tail, rfl⟩, hends⟩
    refine ⟨_, he, ?_⟩
    cases tail with
    | nil =>
        have hnone : k = none := hends.resolve_left fun hne => hne rfl
        rw [hnone]
        rfl
    | cons t rest => rfl

-- Nothing is under what is no folder.
theorem under_eq_nil (h : (s, none) ∉ kids es) : under s es = [] := by
  refine List.filterMap_eq_nil_iff.mpr fun e he => Option.eq_none_iff_forall_ne_some.mpr fun ⟨q, k⟩ hbelow => ?_
  obtain ⟨rfl, hne⟩ := below_iff.mp hbelow
  cases q with
  | nil => exact hne rfl
  | cons t rest => exact h (kid_of_deeper he)

theorem count_folder_le (s : α) (es : List (Entry α ι)) : (kids es).count (s, none) ≤ 1 := by
  induction es using List.reverseRecOn with
  | nil => exact Nat.zero_le _
  | append_singleton es e ih =>
      rw [kids_append]
      cases kidOf e with
      | none => exact ih
      | some kid =>
          rw [Option.elim_some, addKid]
          split_ifs with hold
          · exact ih
          · rw [List.count_append, List.count_singleton]
            split_ifs with heq
            · obtain rfl := eq_of_beq heq
              have hnew : (s, none) ∉ kids es := fun h => hold ⟨rfl, h⟩
              rw [List.count_eq_zero.mpr hnew]
            · exact ih

theorem count_leaf : (kids es).count (s, some i) = es.count ([s], some i) := by
  induction es using List.reverseRecOn with
  | nil => rfl
  | append_singleton es e ih =>
      have hadd : ∀ kid : α × Option ι, (addKid (kids es) kid).count (s, some i) =
          (kids es).count (s, some i) + if kid == (s, some i) then 1 else 0 := by
        intro kid
        unfold addKid
        split_ifs with hold heq heq
        · obtain rfl := eq_of_beq heq
          exact absurd hold.1 nofun
        · rfl
        · rw [List.count_append, List.count_singleton, if_pos heq]
        · rw [List.count_append, List.count_singleton, if_neg heq]
      rw [kids_append, List.count_append, List.count_singleton, ← ih]
      obtain ⟨q, k⟩ := e
      match q with
      | [] => rfl
      | [a] =>
          have hsame : ((a, k) == (s, some i)) = (([a], k) == ([s], some i)) := by
            rw [Bool.eq_iff_iff, beq_iff_eq, beq_iff_eq, Prod.mk.injEq, Prod.mk.injEq, List.cons.injEq, and_iff_left rfl]
          rw [← hsame]
          exact hadd _
      | a :: b :: rest =>
          refine (hadd _).trans ?_
          rw [if_neg (by simp), if_neg (by simp)]

theorem kids_put (p : List α) (s : α) (k : Option ι) (es : List (Entry α ι)) :
    kids (underPath p (es ++ [(p ++ [s], k)])) = addKid (kids (underPath p es)) (s, k) := by
  rw [underPath_append, underPath_singleton, kids_append]
  rfl

-- Elsewhere nothing is added when the folders on the way are there already.
theorem kids_elsewhere {p q : List α} (hq : q ≠ p)
    (h : ∀ t rest, p = q ++ t :: rest → (t, none) ∈ kids (underPath q es)) :
    kids (underPath q (es ++ [(p ++ [s], k)])) = kids (underPath q es) := by
  rw [underPath_append]
  by_cases hon : ∃ t rest, p = q ++ t :: rest
  · obtain ⟨t, rest, rfl⟩ := hon
    rw [List.append_assoc, List.cons_append, underPath_singleton, kids_append]
    have hkid : kidOf (t :: (rest ++ [s]), k) = some (t, none) := by cases rest <;> rfl
    rw [hkid, Option.elim_some, addKid, if_pos ⟨rfl, h t rest rfl⟩]
  · rw [underPath_singleton_past, List.append_nil]
    · exact List.append_ne_nil_of_right_ne_nil p (List.cons_ne_nil s [])
    · intro t rest heq
      rcases List.eq_nil_or_concat rest with rfl | ⟨rest', a, rfl⟩
      · exact hq (List.append_inj' heq rfl).1.symm
      · rw [List.concat_eq_append, ← List.cons_append, ← List.append_assoc] at heq
        exact hon ⟨t, rest', (List.append_inj' heq rfl).1⟩

end Kids

theorem within_injective (s : α) : Function.Injective (within (ι := ι) s) := by
  rintro ⟨q, k⟩ ⟨q', k'⟩ heq
  obtain ⟨hq, hk⟩ := Prod.mk.inj heq
  exact Prod.ext (List.cons.inj hq).2 hk

section Places

variable [DecidableEq α] [DecidableEq ι] {s t : α} {rest : List α} {k : Option ι}

theorem count_within (s' : α) (es : List (Entry α ι)) :
    (es.map (within s')).count (s :: t :: rest, k) = if s' = s then es.count (t :: rest, k) else 0 := by
  split_ifs with hs
  · rw [← hs]
    exact List.count_map_of_injective es (within s') (within_injective s') (t :: rest, k)
  · refine List.count_eq_zero.mpr fun hmem => hs ?_
    obtain ⟨e, -, heq⟩ := List.mem_map.mp hmem
    exact (List.cons.inj (Prod.mk.inj heq).1).1

variable (deeper : α → List (Entry α ι))

theorem count_shallow (hdeeper : ∀ s, ∀ e ∈ deeper s, e.1 ≠ []) (ks : List (α × Option ι)) :
    (ks.flatMap fun kid =>
        ([kid.1], kid.2) :: if kid.2 = none then (deeper kid.1).map (within kid.1) else []).count ([s], k) =
      ks.count (s, k) := by
  induction ks with
  | nil => rfl
  | cons kid ks ih =>
      have hhere : (if kid.2 = none then (deeper kid.1).map (within kid.1) else []).count ([s], k) = 0 := by
        refine List.count_eq_zero.mpr fun hmem => ?_
        split_ifs at hmem with hdir
        · obtain ⟨e, he, heq⟩ := List.mem_map.mp hmem
          exact hdeeper _ e he (List.cons.inj (Prod.mk.inj heq).1).2
        · exact List.not_mem_nil hmem
      have hsame : (([kid.1], kid.2) == ([s], k)) = (kid == (s, k)) := by
        rw [Bool.eq_iff_iff, beq_iff_eq, beq_iff_eq, Prod.ext_iff, Prod.ext_iff, List.cons.injEq, and_iff_left rfl]
      rw [List.flatMap_cons, List.count_append, List.count_cons, List.count_cons, hhere, hsame, ih]
      omega

theorem count_deep (ks : List (α × Option ι)) :
    (ks.flatMap fun kid =>
        ([kid.1], kid.2) :: if kid.2 = none then (deeper kid.1).map (within kid.1) else []).count (s :: t :: rest, k) =
      ks.count (s, none) * (deeper s).count (t :: rest, k) := by
  induction ks with
  | nil => exact (Nat.zero_mul _).symm
  | cons kid ks ih =>
      have hother : (([kid.1], kid.2) == (s :: t :: rest, k)) = false :=
        beq_eq_false_iff_ne.mpr fun heq => nomatch (List.cons.inj (Prod.mk.inj heq).1).2
      rw [List.flatMap_cons, List.count_append, List.count_cons, List.count_cons, hother, ih, Nat.add_mul, Nat.add_comm]
      congr 1
      obtain ⟨a, j⟩ := kid
      cases j with
      | none =>
          rw [if_pos rfl, count_within, if_neg Bool.false_ne_true, Nat.add_zero]
          by_cases ha : a = s
          · rw [if_pos ha, if_pos (beq_iff_eq.mpr (congrArg (·, none) ha)), Nat.one_mul, ← ha]
          · rw [if_neg ha, if_neg fun h => ha (Prod.mk.inj (beq_iff_eq.mp h)).1, Nat.zero_mul]
      | some i =>
          have hleaf : ((a, some i) == (s, (none : Option ι))) = false :=
            beq_eq_false_iff_ne.mpr fun heq => nomatch (Prod.mk.inj heq).2
          rw [if_neg (Option.some_ne_none i), if_neg Bool.false_ne_true, hleaf, if_neg Bool.false_ne_true, Nat.zero_mul]
          rfl

theorem places_ne_nil (n : Nat) (es : List (Entry α ι)) : ∀ e ∈ places n es, e.1 ≠ [] := by
  intro e he
  cases n with
  | zero => exact absurd he List.not_mem_nil
  | succ n =>
      obtain ⟨kid, -, hmem⟩ := List.mem_flatMap.mp he
      rcases List.mem_cons.mp hmem with rfl | hmem
      · exact List.cons_ne_nil _ _
      · split_ifs at hmem with hdir
        · obtain ⟨e', -, rfl⟩ := List.mem_map.mp hmem
          exact List.cons_ne_nil _ _
        · exact absurd hmem List.not_mem_nil

theorem count_places_singleton (n : Nat) (es : List (Entry α ι)) :
    (places (n + 1) es).count ([s], k) = (kids es).count (s, k) :=
  count_shallow (fun a => places n (under a es)) (fun _ => places_ne_nil n _) (kids es)

theorem count_places_cons (n : Nat) (es : List (Entry α ι)) :
    (places (n + 1) es).count (s :: t :: rest, k) =
      (kids es).count (s, none) * (places n (under s es)).count (t :: rest, k) :=
  count_deep (fun a => places n (under a es)) (kids es)

theorem count_folder {es : List (Entry α ι)} (h : (s, none) ∈ kids es) : (kids es).count (s, none) = 1 :=
  Nat.le_antisymm (count_folder_le s es) (List.count_pos_iff.mpr h)

-- Each leaf is as often among the places as among the entries.
theorem count_leaf_places {n : Nat} {q : List α} (hne : q ≠ []) (hn : q.length ≤ n) (i : ι) (es : List (Entry α ι)) :
    (places n es).count (q, some i) = es.count (q, some i) := by
  induction n generalizing q es with
  | zero => exact absurd (List.length_eq_zero_iff.mp (Nat.le_zero.mp hn)) hne
  | succ n ih =>
      match q with
      | [s] => rw [count_places_singleton, count_leaf]
      | s :: t :: rest =>
          rw [count_places_cons, ih (List.cons_ne_nil _ _) (Nat.le_of_succ_le_succ hn), count_under]
          by_cases hmem : (s :: t :: rest, some i) ∈ es
          · rw [count_folder (kid_of_deeper hmem), Nat.one_mul]
          · rw [List.count_eq_zero.mpr hmem, Nat.mul_zero]

-- And each folder once.
theorem count_folder_places {n : Nat} {q : List α} (hne : q ≠ []) (hn : q.length ≤ n) (es : List (Entry α ι)) :
    (FolderAt q es → (places n es).count (q, none) = 1) ∧ (¬ FolderAt q es → (places n es).count (q, none) = 0) := by
  induction n generalizing q es with
  | zero => exact absurd (List.length_eq_zero_iff.mp (Nat.le_zero.mp hn)) hne
  | succ n ih =>
      match q with
      | [s] =>
          rw [count_places_singleton, ← mem_kids_folder]
          exact ⟨count_folder, List.count_eq_zero.mpr⟩
      | s :: t :: rest =>
          obtain ⟨honce, hnever⟩ := ih (List.cons_ne_nil t rest) (Nat.le_of_succ_le_succ hn) (under s es)
          rw [folderAt_under] at honce hnever
          rw [count_places_cons]
          constructor
          · intro h
            have ⟨⟨q, k⟩, hmem, ⟨tail, htail⟩, _⟩ := h
            subst htail
            rw [count_folder (kid_of_deeper hmem), honce h]
          · intro h
            rw [hnever h, Nat.mul_zero]

theorem length_le_of_mem_places {n : Nat} {e : Entry α ι} {es : List (Entry α ι)} (he : e ∈ places n es) :
    e.1.length ≤ n := by
  induction n generalizing e es with
  | zero => exact absurd he List.not_mem_nil
  | succ n ih =>
      obtain ⟨kid, -, hmem⟩ := List.mem_flatMap.mp he
      rcases List.mem_cons.mp hmem with rfl | hmem
      · exact Nat.succ_le_succ (Nat.zero_le n)
      · split_ifs at hmem with hdir
        · obtain ⟨e', he', rfl⟩ := List.mem_map.mp hmem
          exact Nat.succ_le_succ (ih he')
        · exact absurd hmem List.not_mem_nil

end Places

section Listed

variable [DecidableEq α] [DecidableEq ι] {q : List α} {es : List (Entry α ι)} {n : Nat}

theorem count_leaves (q : List α) (i : ι) (es : List (Entry α ι)) : (leaves es).count (q, i) = es.count (q, some i) := by
  induction es with
  | nil => rfl
  | cons e es ih =>
      obtain ⟨q', k⟩ := e
      rw [leaves, List.filterMap_cons, List.count_cons, ← ih]
      cases k with
      | none =>
          have hother : ((q', none) == (q, some i)) = false := beq_eq_false_iff_ne.mpr fun heq => nomatch (Prod.mk.inj heq).2
          rw [hother]
          rfl
      | some j =>
          have hsame : ((q', some j) == (q, some i)) = ((q', j) == (q, i)) := by
            rw [Bool.eq_iff_iff, beq_iff_eq, beq_iff_eq, Prod.mk.injEq, Prod.mk.injEq, Option.some_inj]
          rw [hsame]
          exact List.count_cons

theorem count_folders (q : List α) (es : List (Entry α ι)) : (folders es).count q = es.count (q, none) := by
  induction es with
  | nil => rfl
  | cons e es ih =>
      obtain ⟨q', k⟩ := e
      rw [folders, List.filterMap_cons, List.count_cons, ← ih]
      cases k with
      | none =>
          have hsame : ((q', (none : Option ι)) == (q, none)) = (q' == q) := by
            rw [Bool.eq_iff_iff, beq_iff_eq, beq_iff_eq, Prod.mk.injEq, and_iff_left rfl]
          rw [hsame]
          exact List.count_cons
      | some j =>
          have hother : ((q', some j) == (q, none)) = false := beq_eq_false_iff_ne.mpr fun heq => nomatch (Prod.mk.inj heq).2
          rw [hother]
          rfl

theorem leaves_places (hne : ∀ e ∈ es, e.1 ≠ []) (hn : ∀ e ∈ es, e.1.length ≤ n) :
    (leaves (places n es)).Perm (leaves es) := by
  rw [List.perm_iff_count]
  rintro ⟨q, i⟩
  rw [count_leaves, count_leaves]
  by_cases hq : q ≠ [] ∧ q.length ≤ n
  · exact count_leaf_places hq.1 hq.2 i es
  · have hplaces : (q, some i) ∉ places n es := fun h => hq ⟨places_ne_nil n es _ h, length_le_of_mem_places h⟩
    have hentries : (q, some i) ∉ es := fun h => hq ⟨hne _ h, hn _ h⟩
    rw [List.count_eq_zero.mpr hplaces, List.count_eq_zero.mpr hentries]

theorem folders_places (hn : ∀ e ∈ es, e.1.length ≤ n) :
    (folders (places n es)).Nodup ∧ ∀ q, q ∈ folders (places n es) ↔ q ≠ [] ∧ FolderAt q es := by
  have hcount : ∀ q, (folders (places n es)).count q ≤ 1 ∧
      (q ∈ folders (places n es) ↔ q ≠ [] ∧ FolderAt q es) := by
    intro q
    rw [← List.count_pos_iff, count_folders]
    by_cases hq : q ≠ [] ∧ q.length ≤ n
    · obtain ⟨honce, hnever⟩ := count_folder_places hq.1 hq.2 es
      by_cases hfolder : FolderAt q es
      · rw [honce hfolder]
        exact ⟨Nat.le_refl 1, iff_of_true Nat.one_pos ⟨hq.1, hfolder⟩⟩
      · rw [hnever hfolder]
        exact ⟨Nat.zero_le 1, iff_of_false (Nat.lt_irrefl 0) fun h => hfolder h.2⟩
    · have hplaces : (q, none) ∉ places n es := fun h => hq ⟨places_ne_nil n es _ h, length_le_of_mem_places h⟩
      rw [List.count_eq_zero.mpr hplaces]
      refine ⟨Nat.zero_le 1, iff_of_false (Nat.lt_irrefl 0) fun h => hq ⟨h.1, ?_⟩⟩
      obtain ⟨-, e, he, hstarts, -⟩ := h
      exact hstarts.length_le.trans (hn e he)
  exact ⟨List.nodup_iff_count.mpr fun q => (hcount q).1, fun q => (hcount q).2⟩

end Listed

end Lib.PathForest
