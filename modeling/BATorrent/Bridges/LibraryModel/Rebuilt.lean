import BATorrent.Bridges.LibraryModel
import BATorrent.Lib.Rows
import BATorrent.Bridges.LibraryGroups

namespace BATorrent.LibraryModel

open Lib

section Follow

theorem follow_cons {notice : Notice} {rows : List Row} {sent : Sent} {keys mid : List LibraryGroups.Text}
    (h : receive keys notice rows = some mid) : follow ((notice, rows) :: sent) keys = follow sent mid := by
  rw [follow, List.foldlM_cons, h]
  rfl

theorem follow_append {first second : Sent} {keys mid last : List LibraryGroups.Text}
    (h : follow first keys = some mid) (h' : follow second mid = some last) :
    follow (first ++ second) keys = some last := by
  unfold follow at *
  rw [List.foldlM_append, h]
  exact h'

end Follow

section PlaceOf

variable {rows : List Row} {key : LibraryGroups.Text}

theorem placeOf_eq_none : placeOf rows key = none ↔ key ∉ rows.map Row.key := by
  induction rows with
  | nil => simp [placeOf]
  | cons r rest ih =>
      rw [placeOf, List.map_cons, List.mem_cons, not_or, ← ih]
      cases hrest : placeOf rest key with
      | some i => simp
      | none => simp [eq_comm]

theorem placeOf_isSome : (placeOf rows key).isSome = true ↔ key ∈ rows.map Row.key := by
  rw [← not_iff_not, Bool.not_eq_true, Option.isSome_eq_false_iff, Option.isNone_iff_eq_none, placeOf_eq_none]

theorem getElem?_placeOf {i : Nat} (h : placeOf rows key = some i) : (rows.map Row.key)[i]? = some key := by
  induction rows generalizing i with
  | nil => cases h
  | cons r rest ih =>
      rw [placeOf] at h
      cases hrest : placeOf rest key with
      | some k =>
          rw [hrest] at h
          cases h
          exact ih hrest
      | none =>
          rw [hrest] at h
          dsimp only at h
          split_ifs at h with hkey
          cases h
          exact congrArg some hkey

theorem placeOf_getElem (h : (rows.map Row.key).Nodup) {i : Nat} (hi : i < rows.length) :
    placeOf rows rows[i].key = some i := by
  have hmem : rows[i].key ∈ rows.map Row.key := List.mem_map_of_mem (List.getElem_mem hi)
  obtain ⟨k, hk⟩ := Option.isSome_iff_exists.mp (placeOf_isSome.mpr hmem)
  have hkey := getElem?_placeOf hk
  have hi' : i < (rows.map Row.key).length := by rwa [List.length_map]
  obtain ⟨hk', heq⟩ := List.getElem?_eq_some_iff.mp hkey
  rw [← List.getElem_map Row.key (h := hi'), h.getElem_inj_iff] at heq
  exact heq ▸ hk

end PlaceOf

section DropGone

variable {target : LibraryGroups.Text → Option Nat} {rows : List Row}

theorem gone_iff {i : Nat} (hi : i < rows.length) :
    gone target rows i = true ↔ (target rows[i].key).isSome = false := by
  rw [gone, List.getElem?_eq_getElem hi]
  change (target rows[i].key).isNone = true ↔ _
  rw [Option.isSome_eq_false_iff]

theorem gone_of_runStart {p : Nat → Bool} {i k : Nat} (hk : runStart p i ≤ k) (hki : k < i) : p k = true := by
  induction i with
  | zero => omega
  | succ i ih =>
      rw [runStart] at hk
      split_ifs at hk with hgone
      · rcases Nat.lt_or_eq_of_le (Nat.le_of_lt_succ hki) with hlt | rfl
        · exact ih hk hlt
        · exact hgone
      · omega

-- A whole run goes, and what was in front of it is left to look at.
theorem dropGone_spec (target : LibraryGroups.Text → Option Nat) (i : Nat) (hi : i ≤ rows.length) :
    (dropGone target rows i).1 =
        (rows.take i).filter (fun r => (target r.key).isSome) ++ rows.drop i ∧
      follow (dropGone target rows i).2 (rows.map Row.key) =
        some ((dropGone target rows i).1.map Row.key) := by
  induction i using Nat.strong_induction_on generalizing rows with
  | _ i ih =>
      cases i with
      | zero =>
          rw [dropGone]
          exact ⟨rfl, rfl⟩
      | succ i =>
          rw [dropGone]
          by_cases hgone : gone target rows i = true
          · rw [if_pos hgone]
            have hfirst := runStart_le (gone target rows) i
            generalize hstart : runStart (gone target rows) i = first at hfirst
            have hlength : (rows.take first).length = first := List.length_take_of_le (by omega)
            have hlower : first ≤ (rows.take first ++ rows.drop (i + 1)).length := by
              rw [List.length_append, hlength]
              omega
            obtain ⟨hrows, hsent⟩ := ih first (by omega) hlower
            have htake : (rows.take first ++ rows.drop (i + 1)).take first = rows.take first := by
              rw [List.take_append_of_le_length hlength.ge, List.take_take, Nat.min_self]
            have hdrop : (rows.take first ++ rows.drop (i + 1)).drop first = rows.drop (i + 1) :=
              List.drop_left' hlength
            rw [htake, hdrop] at hrows
            have hrun : ((rows.take (i + 1)).drop first).filter (fun r => (target r.key).isSome) = [] := by
              rw [List.filter_eq_nil_iff]
              intro r hr
              obtain ⟨k, hk, rfl⟩ := List.mem_iff_getElem.mp hr
              rw [List.length_drop, List.length_take] at hk
              have hlt : first + k < rows.length := by omega
              have hkgone : gone target rows (first + k) = true := by
                rcases Nat.lt_or_eq_of_le (show first + k ≤ i by omega) with hlt' | heq
                · exact gone_of_runStart (by omega) hlt'
                · rwa [heq]
              rw [List.getElem_drop, List.getElem_take, (gone_iff hlt).mp hkgone]
              exact Bool.false_ne_true
            have hfilter : (rows.take (i + 1)).filter (fun r => (target r.key).isSome) =
                (rows.take first).filter fun r => (target r.key).isSome := by
              rw [← List.take_append_drop first (rows.take (i + 1)), List.filter_append, hrun,
                List.append_nil, List.take_take, Nat.min_eq_left (by omega)]
            refine ⟨hrows.trans (by rw [hfilter]), ?_⟩
            have hreceive : receive (rows.map Row.key) (.rowsRemoved first i)
                (rows.take first ++ rows.drop (i + 1)) =
                some ((rows.take first ++ rows.drop (i + 1)).map Row.key) := by
              rw [receive, if_pos ⟨hfirst, by rw [List.length_map]; omega⟩, List.map_append, List.map_take,
                List.map_drop]
            exact (follow_cons hreceive).trans hsent
          · rw [if_neg hgone]
            obtain ⟨hrows, hsent⟩ := ih i (Nat.lt_succ_self i) (Nat.le_of_lt hi)
            refine ⟨hrows.trans ?_, hsent⟩
            have hkept : (target rows[i].key).isSome = true := by
              by_contra h
              exact hgone ((gone_iff hi).mpr (Bool.not_eq_true _ ▸ h))
            have hone : [rows[i]].filter (fun r => (target r.key).isSome) = [rows[i]] :=
              List.filter_eq_self.mpr fun r hr => List.mem_singleton.mp hr ▸ hkept
            rw [List.take_succ_eq_append_getElem hi, List.filter_append, hone,
              List.drop_eq_getElem_cons hi, List.append_assoc]
            rfl

end DropGone

section Settle

variable {target : LibraryGroups.Text → Option Nat} {rows sorted : List Row}

-- A view puts each row where the model says it went.
theorem receive_layoutChanged (hrows : (rows.map Row.key).Nodup) (hperm : sorted.Perm rows) (left : List Row) :
    receive (rows.map Row.key) (.layoutChanged (rows.map fun r => (placeOf sorted r.key).getD 0)) left =
      some (sorted.map Row.key) := by
  have hsorted : (sorted.map Row.key).Nodup := (hperm.map _).nodup_iff.mpr hrows
  have hplaces : (sorted.map fun r => (placeOf sorted r.key).getD 0) = List.range sorted.length := by
    refine List.ext_getElem (by rw [List.length_map, List.length_range]) fun i hi hi' => ?_
    rw [List.length_range] at hi'
    rw [List.getElem_map, placeOf_getElem hsorted hi', List.getElem_range]
    rfl
  have hvalid : (rows.map fun r => (placeOf sorted r.key).getD 0).Perm (List.range (rows.map Row.key).length) := by
    rw [List.length_map, ← hperm.length_eq, ← hplaces]
    exact hperm.symm.map _
  rw [receive, if_pos hvalid]
  refine congrArg some ?_
  have hnodup : (rows.map fun r => (placeOf sorted r.key).getD 0).Nodup :=
    hvalid.nodup_iff.mpr List.nodup_range
  have hread : ∀ k ∈ List.range (rows.map Row.key).length,
      (rows.map Row.key)[(rows.map fun r => (placeOf sorted r.key).getD 0).idxOf k]? =
        (sorted.map Row.key)[k]? := by
    intro k hk
    rw [List.mem_range, List.length_map, ← hperm.length_eq] at hk
    obtain ⟨i, hi, heq⟩ := List.mem_iff_getElem.mp (hperm.subset (List.getElem_mem hk))
    have hplace : (rows.map fun r => (placeOf sorted r.key).getD 0)[i]? = some k := by
      rw [List.getElem?_map, List.getElem?_eq_getElem hi, Option.map_some, heq, placeOf_getElem hsorted hk]
      rfl
    obtain ⟨hi', hget⟩ := List.getElem?_eq_some_iff.mp hplace
    have hindex := hnodup.idxOf_getElem i hi'
    rw [hget] at hindex
    rw [hindex, List.getElem?_map, List.getElem?_map, List.getElem?_eq_getElem hi, heq,
      List.getElem?_eq_getElem hk]
  have hlength : (rows.map Row.key).length = (sorted.map Row.key).length := by
    rw [List.length_map, List.length_map, hperm.length_eq]
  rw [List.filterMap_congr hread, hlength]
  exact filterMap_getElem?_range _

theorem settle_spec (hnodup : (rows.map Row.key).Nodup)
    (hranks : rows.Pairwise fun a b => rank target a ≠ rank target b) :
    (settle target rows).1.Perm rows ∧
      (settle target rows).1.Pairwise (fun a b => rank target a < rank target b) ∧
      follow (settle target rows).2 (rows.map Row.key) = some ((settle target rows).1.map Row.key) := by
  unfold settle
  split_ifs with hchain
  · have hle : rows.Pairwise fun a b => rank target a ≤ rank target b := by
      have : Trans (fun a b => rank target a ≤ rank target b) (fun a b => rank target a ≤ rank target b)
          (fun a b => rank target a ≤ rank target b) := ⟨Nat.le_trans⟩
      exact List.isChain_iff_pairwise.mp (hchain.imp fun _ _ h => Nat.le_of_not_lt h)
    exact ⟨.refl _, (hle.and hranks).imp fun h => Nat.lt_of_le_of_ne h.1 h.2, rfl⟩
  · have hperm := List.perm_insertionSort (fun a b => rank target a ≤ rank target b) rows
    have hle := List.pairwise_insertionSort (fun a b => rank target a ≤ rank target b) rows
    have hne := hperm.symm.pairwise hranks fun h => Ne.symm h
    refine ⟨hperm, (hle.and hne).imp fun h => Nat.lt_of_le_of_ne h.1 h.2, ?_⟩
    exact follow_cons (receive_layoutChanged hnodup hperm _)

end Settle

section Fill

variable {present : LibraryGroups.Text → Bool}

theorem insertRun_append (run left tail : List Row) :
    insertRun run left.length (left ++ tail) = some (left ++ run ++ tail) := by
  induction run generalizing left with
  | nil => rw [insertRun, List.append_nil]
  | cons r run ih =>
      have hinsert : (left ++ tail).insertIdx left.length r = (left ++ [r]) ++ tail := by
        rw [insertIdx_append (Nat.le_refl _), List.insertIdx_length_self]
      rw [insertRun, if_pos (by rw [List.length_append]; omega), hinsert]
      have hlength : left.length + 1 = (left ++ [r]).length := by rw [List.length_append]; rfl
      rw [hlength, ih, List.append_assoc left, List.singleton_append]

theorem receive_rowsInserted (left tail : List Row) {run : List Row} (hrun : run ≠ []) :
    receive ((left ++ tail).map Row.key) (.rowsInserted left.length (left.length + run.length - 1))
        (left ++ run ++ tail) = some ((left ++ run ++ tail).map Row.key) := by
  have hpos := List.length_pos_iff.mpr hrun
  have hlast : left.length + run.length - 1 + 1 = left.length + run.length := by omega
  have hkeys : (left.map Row.key).length = left.length := List.length_map _
  rw [receive, hlast, if_pos, List.map_append, List.map_append, List.map_append]
  · have hmore : ((left.map Row.key ++ run.map Row.key) ++ tail.map Row.key).take (left.length + run.length) =
        left.map Row.key ++ run.map Row.key := by
      refine List.take_left' ?_
      rw [List.length_append, List.length_map, List.length_map]
    rw [hmore, List.take_left' hkeys, List.drop_left' hkeys, List.drop_left' hkeys]
  · rw [List.length_append, List.length_append, List.length_map, List.length_append]
    omega

-- The rows before the jth are the new ones, and those after it are what is left of the old ones.
theorem fill_spec (rest left tail : List Row)
    (htail : tail.map Row.key = (rest.map Row.key).filter (present ·)) :
    ∃ sent regrouped,
      fill present rest left.length (left ++ tail) = some (left ++ rest, sent, regrouped) ∧
        follow sent ((left ++ tail).map Row.key) = some ((left ++ rest).map Row.key) ∧
        ∀ g ∈ regrouped, g < (left ++ rest).length := by
  induction hn : rest.length using Nat.strong_induction_on generalizing rest left tail with
  | _ n ih =>
      cases rest with
      | nil =>
          rw [List.map_nil, List.filter_nil, List.map_eq_nil_iff] at htail
          rw [fill, htail]
          exact ⟨[], [], rfl, rfl, fun g hg => absurd hg List.not_mem_nil⟩
      | cons r rest =>
          by_cases hpresent : present r.key = true
          · rw [List.map_cons, List.filter_cons_of_pos hpresent] at htail
            cases tail with
            | nil => cases htail
            | cons cur tail =>
                obtain ⟨hkey, htail⟩ := List.cons_eq_cons.mp htail
                obtain ⟨sent, regrouped, hfill, hfollow, hlt⟩ :=
                  ih rest.length (by rw [← hn]; exact Nat.lt_succ_self _) rest (left ++ [r]) tail htail rfl
                rw [List.length_append, List.length_singleton, List.append_assoc, List.append_assoc,
                  List.singleton_append, List.singleton_append] at hfill
                have hset : (left ++ cur :: tail).set left.length r = left ++ r :: tail := by
                  rw [List.set_append_right _ _ (Nat.le_refl _), Nat.sub_self]
                  rfl
                have hkeys : (left ++ cur :: tail).map Row.key = (left ++ [r] ++ tail).map Row.key := by
                  rw [List.map_append, List.map_cons, hkey, List.append_assoc, List.map_append]
                  rfl
                have hcur : (left ++ cur :: tail)[left.length]? = some cur := by
                  rw [List.getElem?_append_right (Nat.le_refl _), Nat.sub_self]
                  rfl
                refine ⟨sent, if cur.group && cur.members ≠ r.members then left.length :: regrouped
                  else regrouped, ?_, ?_, ?_⟩
                · rw [fill, if_pos hpresent, hcur, Option.bind_some, hset, hfill]
                  rfl
                · rw [hkeys, hfollow, List.append_assoc]
                  rfl
                · intro g hg
                  rw [List.append_assoc] at hlt
                  split_ifs at hg
                  · rcases List.mem_cons.mp hg with rfl | hg
                    · rw [List.length_append]
                      exact Nat.lt_add_of_pos_right (Nat.succ_pos _)
                    · exact hlt g hg
                  · exact hlt g hg
          · have hsplit := List.takeWhile_append_dropWhile (p := fun r : Row => !present r.key) (l := rest)
            have habsent : ∀ r ∈ rest.takeWhile fun r => !present r.key, present r.key = false := by
              intro r hr
              simpa using List.all_eq_true.mp List.all_takeWhile r hr
            have hshort := (List.dropWhile_sublist (l := rest) fun r => !present r.key).length_le
            rw [fill, if_neg hpresent]
            dsimp only
            generalize rest.takeWhile (fun r => !present r.key) = run at *
            generalize rest.dropWhile (fun r => !present r.key) = more at *
            subst hsplit
            have hrun : (run.map Row.key).filter (present ·) = [] := by
              rw [List.filter_eq_nil_iff]
              intro key hkey
              obtain ⟨r, hr, rfl⟩ := List.mem_map.mp hkey
              rw [habsent r hr]
              exact Bool.false_ne_true
            rw [List.map_cons, List.filter_cons_of_neg hpresent, List.map_append, List.filter_append, hrun,
              List.nil_append] at htail
            obtain ⟨sent, regrouped, hfill, hfollow, hlt⟩ :=
              ih more.length (by rw [← hn]; exact Nat.lt_succ_of_le hshort) more (left ++ r :: run) tail htail rfl
            have hall : left ++ r :: run ++ more = left ++ r :: (run ++ more) := by
              rw [List.append_assoc]
              rfl
            rw [hall] at hfill hfollow hlt
            refine ⟨(.rowsInserted left.length (left.length + (r :: run).length - 1), left ++ r :: run ++ tail) :: sent,
              regrouped, ?_, ?_, hlt⟩
            · rw [List.length_append] at hfill
              rw [insertRun_append, Option.bind_some, hfill]
              rfl
            · exact (follow_cons (receive_rowsInserted left tail (List.cons_ne_nil r run))).trans hfollow

end Fill

section Rebuild

variable {next : List Row}

theorem follow_redrawn {redrawn : List Notice} {rows left : List Row}
    (h : ∀ notice ∈ redrawn, ∃ first last, notice = .dataChanged first last ∧ first ≤ last ∧ last < rows.length) :
    follow (redrawn.map fun notice => (notice, left)) (rows.map Row.key) = some (rows.map Row.key) := by
  induction redrawn with
  | nil => rfl
  | cons notice redrawn ih =>
      obtain ⟨hnotice, hrest⟩ := List.forall_mem_cons.mp h
      obtain ⟨first, last, rfl, hle, hlt⟩ := hnotice
      have hreceive : receive (rows.map Row.key) (.dataChanged first last) left = some (rows.map Row.key) := by
        rw [receive, if_pos ⟨hle, by rwa [List.length_map]⟩]
      exact (follow_cons hreceive).trans (ih hrest)

-- The rows of the new list have their places in order.
theorem pairwise_rank (hnext : (next.map Row.key).Nodup) :
    next.Pairwise fun a b => rank (placeOf next) a < rank (placeOf next) b := by
  rw [List.pairwise_iff_getElem]
  intro i j hi hj hij
  unfold rank
  rw [placeOf_getElem hnext hi, placeOf_getElem hnext hj]
  exact hij

theorem rank_inj {a b : Row} (ha : a.key ∈ next.map Row.key) (h : rank (placeOf next) a = rank (placeOf next) b)
    (hb : b.key ∈ next.map Row.key) : a.key = b.key := by
  obtain ⟨i, hi⟩ := Option.isSome_iff_exists.mp (placeOf_isSome.mpr ha)
  obtain ⟨j, hj⟩ := Option.isSome_iff_exists.mp (placeOf_isSome.mpr hb)
  unfold rank at h
  rw [hi, hj] at h
  have heq : i = j := h
  have hkey := (getElem?_placeOf hi).symm.trans (heq ▸ getElem?_placeOf hj)
  exact Option.some.inj hkey

-- The three steps lead from any rows to the new ones, and the views with them.
theorem rebuild_spec {m_rows : List Row} (hrows : (m_rows.map Row.key).Nodup)
    (hnext : (next.map Row.key).Nodup) :
    ∃ sent structural, rebuild m_rows next = some (next, sent, structural) ∧
      follow sent (m_rows.map Row.key) = some (next.map Row.key) := by
  obtain ⟨hgone, hremoved⟩ := dropGone_spec (placeOf next) m_rows.length (Nat.le_refl _)
  rw [List.take_length, List.drop_length, List.append_nil] at hgone
  have hkept : ∀ r ∈ (dropGone (placeOf next) m_rows m_rows.length).1, r.key ∈ next.map Row.key := by
    intro r hr
    rw [hgone] at hr
    exact placeOf_isSome.mp (List.mem_filter.mp hr).2
  have hnodup : ((dropGone (placeOf next) m_rows m_rows.length).1.map Row.key).Nodup := by
    rw [hgone]
    exact (List.filter_sublist.map _).nodup hrows
  have hranks : (dropGone (placeOf next) m_rows m_rows.length).1.Pairwise fun a b =>
      rank (placeOf next) a ≠ rank (placeOf next) b := by
    refine (List.pairwise_map.mp hnodup).imp_of_mem fun ha hb hne heq => hne ?_
    exact rank_inj (hkept _ ha) heq (hkept _ hb)
  obtain ⟨hperm, hsorted, hmoved⟩ := settle_spec hnodup hranks
  unfold rebuild
  dsimp only
  generalize dropGone (placeOf next) m_rows m_rows.length = dropped at *
  generalize settle (placeOf next) dropped.1 = settled at *
  have htail : settled.1.map Row.key =
      (next.map Row.key).filter fun key => (settled.1.map Row.key).contains key := by
    have hold : (settled.1.map Row.key).Pairwise fun a b =>
        (placeOf next a).getD 0 < (placeOf next b).getD 0 := List.pairwise_map.mpr hsorted
    have hnew : (next.map Row.key).Pairwise fun a b =>
        (placeOf next a).getD 0 < (placeOf next b).getD 0 := List.pairwise_map.mpr (pairwise_rank hnext)
    have hsame : (settled.1.map Row.key).Perm
        ((next.map Row.key).filter fun key => (settled.1.map Row.key).contains key) := by
      have hsettled : (settled.1.map Row.key).Nodup := (hperm.map _).nodup_iff.mpr hnodup
      refine (List.perm_ext_iff_of_nodup hsettled (hnext.filter _)).mpr fun key => ?_
      rw [List.mem_filter, List.contains_iff_mem]
      refine ⟨fun hkey => ⟨?_, hkey⟩, And.right⟩
      obtain ⟨r, hr, rfl⟩ := List.mem_map.mp hkey
      exact hkept r (hperm.subset hr)
    exact hsame.eq_of_pairwise (fun _ _ _ _ hab hba => absurd hab hba.asymm) hold (hnew.filter _)
  obtain ⟨inserted, regrouped, hfill, hfollow, hlt⟩ := fill_spec next [] settled.1 htail
  rw [List.nil_append, List.nil_append] at hfill hfollow
  rw [List.length_nil] at hfill
  rw [hfill]
  refine ⟨_, _, rfl, ?_⟩
  refine follow_append (follow_append (follow_append hremoved hmoved) hfollow) (follow_redrawn ?_)
  intro notice hnotice
  rcases List.mem_append.mp hnotice with hall | hgroup
  · split_ifs at hall with hempty
    · cases hall
    · have hpos : 0 < next.length := by
        rw [List.length_pos_iff]
        simpa using hempty
      exact ⟨0, next.length - 1, List.mem_singleton.mp hall, Nat.zero_le _, by omega⟩
  · obtain ⟨g, hg, rfl⟩ := List.mem_map.mp hgroup
    exact ⟨g, g, rfl, Nat.le_refl g, hlt g hg⟩

end Rebuild

open LibraryGroups (Text Lone keyAt)

-- Rows with keys of their own.
structure Keyed where
  rows : List Row
  unique : (rows.map Row.key).Nodup

-- The row shows the ith item of the filter, as a child or not.
def shows (i : Nat) (child : Bool) (r : Row) : Bool := r.child == child && r.members.contains (some i)

section Label

variable {hashAt : Nat → Text} {seen : Text → Nat}

theorem countP_label (i : Nat) (child : Bool) (rows : List LibraryGroups.Row) (seen : Text → Nat) :
    (label hashAt rows seen).countP (shows i child) = rows.countP (LibraryGroups.shows i child) := by
  induction rows generalizing seen with
  | nil => rfl
  | cons lr rest ih =>
      rw [label, List.countP_cons, List.countP_cons, ih]
      have hshows : ∀ key, shows i child ⟨key, lr.groupKey, lr.members.map some, lr.group, lr.child⟩ =
          LibraryGroups.shows i child lr := by
        intro key
        rw [shows, LibraryGroups.shows, Bool.eq_iff_iff, Bool.and_eq_true, Bool.and_eq_true,
          List.contains_iff_mem, List.contains_iff_mem, List.mem_map_of_injective (Option.some_injective _)]
      rw [hshows]

theorem rowKey_inj {base other : Text} {dup more : Nat} (hbase : '#' ∉ base) (hother : '#' ∉ other)
    (h : rowKey base dup = rowKey other more) : base = other ∧ dup = more := by
  unfold rowKey at h
  have hmark : ∀ (text : Text) (n : Nat), '#' ∈ text ++ '#' :: Text.number n := fun _ _ =>
    List.mem_append_right _ List.mem_cons_self
  split_ifs at h with hdup hmore hmore
  · exact ⟨h, hdup.trans hmore.symm⟩
  · exact absurd (h ▸ hmark _ _) hbase
  · exact absurd (h ▸ hmark _ _) hother
  · obtain ⟨heq, hnumber⟩ := Text.append_cons_inj hbase hother h
    exact ⟨heq, Int.ofNat.inj (Text.number_injective hnumber)⟩

theorem head_rowKey (hash : Text) (dup : Nat) : (rowKey (baseKey hash) dup).head? = some 't' := by
  unfold rowKey
  split_ifs <;> rfl

-- The keys of the rows still to come: a group's, or one of a base with a number not given yet.
theorem key_label {rows : List LibraryGroups.Row} {r : Row} (hr : r ∈ label hashAt rows seen) :
    (∃ lr ∈ rows, lr.group = true ∧ r.key = 'g' :: ':' :: lr.groupKey) ∨
      ∃ i dup, seen (baseKey (hashAt i)) ≤ dup ∧ r.key = rowKey (baseKey (hashAt i)) dup := by
  induction rows generalizing seen with
  | nil => cases hr
  | cons lr rest ih =>
      rw [label] at hr
      rcases List.mem_cons.mp hr with rfl | hr
      · by_cases hgroup : lr.group = true
        · exact .inl ⟨lr, List.mem_cons_self, hgroup, if_pos hgroup⟩
        · exact .inr ⟨_, _, Nat.le_refl _, if_neg hgroup⟩
      · rcases ih hr with ⟨lr', hlr, hgroup, hkey⟩ | ⟨i, dup, hle, hkey⟩
        · exact .inl ⟨lr', List.mem_cons_of_mem _ hlr, hgroup, hkey⟩
        · refine .inr ⟨i, dup, le_trans ?_ hle, hkey⟩
          split_ifs
          · exact Nat.le_refl _
          · rw [Function.update_apply]
            split_ifs with heq
            · rw [heq]
              exact Nat.le_succ _
            · exact Nat.le_refl _

theorem nodup_label (hplain : ∀ i, '#' ∉ hashAt i) {rows : List LibraryGroups.Row}
    (hgroups : ((rows.filter LibraryGroups.Row.group).map LibraryGroups.Row.groupKey).Nodup)
    (seen : Text → Nat) : ((label hashAt rows seen).map Row.key).Nodup := by
  have hbase : ∀ i, '#' ∉ baseKey (hashAt i) := by
    intro i h
    rcases List.mem_cons.mp h with h | h
    · exact absurd h (by decide)
    · rcases List.mem_cons.mp h with h | h
      · exact absurd h (by decide)
      · exact hplain i h
  induction rows generalizing seen with
  | nil => exact List.nodup_nil
  | cons lr rest ih =>
      rw [label, List.map_cons]
      by_cases hgroup : lr.group = true
      · rw [List.filter_cons_of_pos hgroup, List.map_cons] at hgroups
        obtain ⟨hnew, hgroups⟩ := List.nodup_cons.mp hgroups
        rw [if_pos hgroup, if_pos hgroup]
        refine List.nodup_cons.mpr ⟨fun hin => ?_, ih hgroups seen⟩
        obtain ⟨r, hr, hkey⟩ := List.mem_map.mp hin
        rcases key_label hr with ⟨lr', hlr, hgroup', hkey'⟩ | ⟨i, dup, -, hkey'⟩
        · have heq : lr'.groupKey = lr.groupKey := by
            rw [hkey'] at hkey
            exact (List.cons_eq_cons.mp (List.cons_eq_cons.mp hkey).2).2
          exact hnew (heq ▸ List.mem_map_of_mem (List.mem_filter.mpr ⟨hlr, hgroup'⟩))
        · have hhead := head_rowKey (hashAt i) dup
          rw [← hkey', hkey] at hhead
          exact absurd (Option.some.inj hhead) (by decide)
      · rw [List.filter_cons_of_neg hgroup] at hgroups
        rw [if_neg hgroup, if_neg hgroup]
        refine List.nodup_cons.mpr ⟨fun hin => ?_, ih hgroups _⟩
        obtain ⟨r, hr, hkey⟩ := List.mem_map.mp hin
        dsimp only at hkey
        rcases key_label hr with ⟨lr', -, -, hkey'⟩ | ⟨i, dup, hle, hkey'⟩
        · have hhead := head_rowKey (hashAt (lr.members.headD 0)) (seen (baseKey (hashAt (lr.members.headD 0))))
          rw [← hkey, hkey'] at hhead
          exact absurd (Option.some.inj hhead) (by decide)
        · obtain ⟨heq, hdup⟩ := rowKey_inj (hbase _) (hbase _) (hkey'.symm.trans hkey)
          rw [heq, Function.update_self, hdup] at hle
          exact absurd hle (Nat.not_succ_le_self _)

end Label

theorem plain_hashAt (f : Filter) (i : Nat) : '#' ∉ f.hashAt i := by
  unfold Filter.hashAt
  cases f.items[i]? with
  | none => exact List.not_mem_nil
  | some item => exact item.hash.plain

-- What the model holds once it has been rebuilt.
def Keyed.compute (fold : Text → Text) (f : Filter) : Keyed where
  rows := computeRows fold f
  unique := nodup_label (plain_hashAt f) (LibraryGroups.groups_place _ _).1 _

end BATorrent.LibraryModel
