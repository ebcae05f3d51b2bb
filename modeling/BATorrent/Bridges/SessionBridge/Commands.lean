import BATorrent.Bridges.SessionBridge.Upkeep

namespace BATorrent.SessionBridge

open Lib

variable {α : Type} [DecidableEq α] {s : State α} {c : Chosen α}

-- What a command leads to.
structure Obeyed (s : State α) (c : Chosen α) (e : Event α) (result : State α × List Out) : Prop where
  consistent : Consistent result.1
  denotes : Denotes result.1 c
  moves : Moves s.selected s.session.torrents result.1.session.torrents e
  honest : Honest result.2

theorem moves_none (hrows : s.rows = []) (e : Event α) :
    Moves s.selected s.session.torrents s.session.torrents e := by
  have hnone : ∀ x ∈ s.session.torrents, s.selected x = false := by
    intro x _
    simp [State.selected, hrows]
  have hselected : s.session.torrents.filter s.selected = [] :=
    List.filter_eq_nil_iff.mpr fun x hx => by simp [hnone x hx]
  have hothers : s.session.torrents.filter (!s.selected ·) = s.session.torrents :=
    List.filter_eq_self.mpr fun x hx => by simp [hnone x hx]
  cases e with
  | queueUpSelected =>
      refine ⟨⟨rfl, rfl⟩, fun r x hx hp => ?_⟩
      rw [hnone x (List.mem_of_getElem? hx)] at hp
      cases hp
  | queueDownSelected =>
      refine ⟨⟨rfl, rfl⟩, fun r x hx hp => ?_⟩
      rw [hnone x (List.mem_of_getElem? hx)] at hp
      cases hp
  | queueTopSelected =>
      change s.session.torrents = _ ++ _
      rw [hselected, hothers, List.nil_append]
  | queueBottomSelected =>
      change s.session.torrents = _ ++ _
      rw [hselected, hothers, List.append_nil]
  | setSelectedRows => trivial
  | addTorrent => trivial
  | addHttp => trivial
  | removeTorrent => trivial

section Single

variable {beside : Nat → Option Nat} {Ahead : Nat → Nat → Prop} {rows : List Nat}

theorem progress_start (hs : Consistent s) : Progress s beside Ahead rows s.selected [] [] s where
  base := rfl
  https := rfl
  nodup := hs.hashes
  slid := .nil
  placed := by
    intro r hr
    cases hr
  waiting := fun _ _ _ => rfl
  order := ⟨rfl, rfl⟩

theorem slide_start (hcourse : Course beside Ahead) (hs : Consistent s) (hperm : rows.Perm s.rows)
    (hsorted : rows.Pairwise fun b r => Ahead r b)
    (hbase : ∀ r ∈ s.rows, ∀ t, beside r = some t → ¬ Stuck Ahead rows r →
      r < s.session.base ∧ t < s.session.base) :
    Progress s beside Ahead rows s.selected rows (s.slide beside [] rows).2.1
        (s.slide beside [] rows).1 ∧
      Honest (s.slide beside [] rows).2.2 := by
  refine slide_spec hcourse ?_ (fun r hr => hbase r (hperm.subset hr)) hsorted (List.nil_append rows)
    (progress_start hs)
  intro x
  unfold State.selected
  rw [decide_eq_true_iff, List.mem_map]
  constructor
  · rintro ⟨q, hq, hqx⟩
    exact ⟨q, hperm.symm.subset hq, HttpMergeEngine.torrentHashAt_eq ▸ hqx⟩
  · rintro ⟨q, hq, hqx⟩
    exact ⟨q, hperm.subset hq, HttpMergeEngine.torrentHashAt_eq.trans hqx⟩

-- Where a selected torrent is after a single step.
theorem Progress.getElem? {newRows : List Nat} {s' : State α} {r t : Nat} {x : α}
    (h : Progress s beside Ahead rows s.selected rows newRows s') (hs : Consistent s)
    (hperm : rows.Perm s.rows) (hx : s.session.torrents[r]? = some x) (hp : s.selected x = true)
    (hslid : Slid beside Ahead rows r t) (ht : t < s.session.base) :
    s'.session.torrents[t]? = some x := by
  have hr : s.session.hashes[r]? = some x := by
    unfold HttpMergeEngine.hashes
    rw [List.getElem?_append_left (List.getElem?_eq_some_iff.mp hx).1, hx]
  have hplaced := (h.placed r (hperm.symm.subset ((selected_iff hs hr).mp hp)) t hslid).trans hr
  unfold HttpMergeEngine.hashes at hplaced
  rwa [List.getElem?_append_left (ht.trans_eq h.base.symm)] at hplaced

theorem all_take (hs : Consistent s) {r : Nat} (hr : r ≤ s.session.base) :
    (s.session.torrents.take r).all s.selected = true ↔ ∀ k < r, k ∈ s.rows := by
  rw [List.all_eq_true]
  constructor
  · intro h k hk
    have hlt : k < s.session.torrents.length := hk.trans_le hr
    refine (selected_iff hs (x := s.session.torrents[k]) ?_).mp (h _ ?_)
    · exact (List.getElem?_append_left hlt).trans (List.getElem?_eq_getElem hlt)
    · exact List.mem_take_iff_getElem.mpr ⟨k, by omega, rfl⟩
  · intro h x hx
    obtain ⟨k, hk, rfl⟩ := List.mem_take_iff_getElem.mp hx
    have hlt : k < s.session.torrents.length := by omega
    refine (selected_iff hs (x := s.session.torrents[k]) ?_).mpr (h k (by omega))
    exact (List.getElem?_append_left hlt).trans (List.getElem?_eq_getElem hlt)

theorem all_drop (hs : Consistent s) (r : Nat) :
    (s.session.torrents.drop (r + 1)).all s.selected = true ↔
      ∀ k, r < k → k < s.session.base → k ∈ s.rows := by
  rw [List.all_eq_true]
  constructor
  · intro h k hrk hk
    have hlt : k < s.session.torrents.length := hk
    refine (selected_iff hs (x := s.session.torrents[k]) ?_).mp (h _ ?_)
    · exact (List.getElem?_append_left hlt).trans (List.getElem?_eq_getElem hlt)
    · exact List.mem_drop_iff_getElem.mpr ⟨k - (r + 1), by omega, by congr 1; omega⟩
  · intro h x hx
    obtain ⟨k, hk, rfl⟩ := List.mem_drop_iff_getElem.mp hx
    refine (selected_iff hs ?_).mpr (h (r + 1 + k) (by omega) (by unfold HttpMergeEngine.base; omega))
    rw [HttpMergeEngine.hashes, List.getElem?_append_left (by omega), List.getElem?_eq_getElem]

theorem queueUpSelected (hs : Consistent s) (hc : Denotes s c)
    (hallowed : Allowed s .queueUpSelected) : Obeyed s c .queueUpSelected s.queueUpSelected := by
  obtain ⟨hfocus, hbase⟩ := hallowed
  unfold State.queueUpSelected
  by_cases hrows : s.rows = []
  · rw [if_pos hrows]
    exact ⟨hs, hc, moves_none hrows _, honest_nil⟩
  rw [if_neg hrows]
  have hperm := List.perm_insertionSort (· ≤ ·) s.rows
  have hsorted : (s.rows.insertionSort (· ≤ ·)).Pairwise fun b r => b < r := by
    have hle := List.pairwise_insertionSort (· ≤ ·) s.rows
    have hne := hperm.nodup_iff.mpr (nodup_rows hs)
    exact (hle.and hne).imp fun ⟨h, hne⟩ => by omega
  generalize s.rows.insertionSort (· ≤ ·) = rows at hperm hsorted ⊢
  have hfree : ∀ r ∈ s.rows, ∀ t, above r = some t → ¬ Stuck (fun r k => k < r) rows r →
      r < s.session.base ∧ t < s.session.base := by
    intro r hr t ht hstuck
    obtain ⟨k, hk⟩ := not_forall.mp hstuck
    obtain ⟨hkr, hkrows⟩ := Classical.not_imp.mp hk
    have hhttp := hbase r hr ⟨k, hkr, fun hin => hkrows (hperm.symm.subset hin)⟩
    have hnext := course_above.ahead ht
    have hlt : r < s.session.base := HttpMergeEngine.isHttp_eq_false.mp hhttp
    exact ⟨hlt, hnext.trans hlt⟩
  obtain ⟨hprogress, hhonest⟩ := slide_start course_above hs hperm hsorted hfree
  have hlast : rows.getLast? = s.selectedIndex := by
    rcases List.eq_nil_or_concat' rows with rfl | ⟨front, m, rfl⟩
    · exact absurd hperm.symm.eq_nil hrows
    · have hm : m ∈ s.rows := hperm.subset (List.mem_append_right _ (List.mem_singleton_self m))
      obtain ⟨f, hf, hle⟩ := hfocus m hm
      rw [List.getLast?_concat, hf]
      rcases List.mem_append.mp (hperm.symm.subset (hs.focus f hf)) with hin | hin
      · have hlt := (List.pairwise_append.mp hsorted).2.2 f hin m (List.mem_singleton_self m)
        omega
      · rw [List.mem_singleton.mp hin]
  obtain ⟨hconsistent, hdenotes⟩ := hprogress.denotes hs hc hperm hrows
    (s.slide above [] rows).2.1.getLast? (fun r => List.mem_of_getLast?) (by
      rw [← List.getLast?_map, hprogress.map_eq, List.getLast?_map, hlast])
  refine ⟨hconsistent, hdenotes, ⟨hprogress.keepsOrder, ?_⟩, hhonest⟩
  intro r x hx hp
  have hr : r < s.session.base := (List.getElem?_eq_some_iff.mp hx).1
  have hall := all_take hs hr.le
  by_cases hstuck : Stuck (fun r k => k < r) rows r
  · rw [if_pos (hall.mpr fun k hk => hperm.subset (hstuck k hk))]
    exact hprogress.getElem? hs hperm hx hp (.inl ⟨hstuck, rfl⟩) hr
  · have hpos : 0 < r := by
      by_contra hzero
      exact hstuck fun k hk => absurd hk (by omega)
    rw [if_neg fun h => hstuck fun k hk => hperm.symm.subset (hall.mp h k hk)]
    exact hprogress.getElem? hs hperm hx hp (.inr ⟨hstuck, if_pos hpos⟩) (by omega)

theorem queueDownSelected (hs : Consistent s) (hc : Denotes s c)
    (hallowed : Allowed s .queueDownSelected) :
    Obeyed s c .queueDownSelected s.queueDownSelected := by
  obtain ⟨hfocus, hbase⟩ := hallowed
  unfold State.queueDownSelected
  by_cases hrows : s.rows = []
  · rw [if_pos hrows]
    exact ⟨hs, hc, moves_none hrows _, honest_nil⟩
  rw [if_neg hrows]
  have hlastIdx : s.session.torrentCount - 1 < s.session.torrentCount := by
    obtain ⟨r, hr⟩ := List.exists_mem_of_ne_nil _ hrows
    have hlt := hs.rows r hr
    omega
  have hperm := List.perm_insertionSort (· ≥ ·) s.rows
  have hsorted : (s.rows.insertionSort (· ≥ ·)).Pairwise fun b r =>
      r < b ∧ b ≤ s.session.torrentCount - 1 := by
    have hge := List.pairwise_insertionSort (· ≥ ·) s.rows
    have hne := hperm.nodup_iff.mpr (nodup_rows hs)
    refine (hge.and hne).imp_of_mem fun {b} {r} hb _ ⟨h, hne⟩ => ?_
    have hlt := hs.rows b (hperm.subset hb)
    omega
  generalize s.rows.insertionSort (· ≥ ·) = rows at hperm hsorted ⊢
  have hcourse := course_below (s.session.torrentCount - 1)
  have hfree : ∀ r ∈ s.rows, ∀ t, below (s.session.torrentCount - 1) r = some t →
      ¬ Stuck (fun r k => r < k ∧ k ≤ s.session.torrentCount - 1) rows r →
      r < s.session.base ∧ t < s.session.base := by
    intro r hr t ht hstuck
    obtain ⟨k, hk⟩ := not_forall.mp hstuck
    obtain ⟨⟨hrk, hlast⟩, hkrows⟩ := Classical.not_imp.mp hk
    have hhttp := hbase r hr ⟨k, by omega, hrk, fun hin => hkrows (hperm.symm.subset hin)⟩
    have hlt : r + 1 < s.session.base := HttpMergeEngine.isHttp_eq_false.mp hhttp
    unfold below at ht
    split_ifs at ht
    exact ⟨by omega, Option.some.inj ht ▸ hlt⟩
  obtain ⟨hprogress, hhonest⟩ := slide_start hcourse hs hperm hsorted hfree
  have hfirst : rows.head? = s.selectedIndex := by
    cases rows with
    | nil => exact absurd hperm.symm.eq_nil hrows
    | cons m rest =>
        have hm : m ∈ s.rows := hperm.subset List.mem_cons_self
        obtain ⟨f, hf, hle⟩ := hfocus m hm
        rw [List.head?_cons, hf]
        rcases List.mem_cons.mp (hperm.symm.subset (hs.focus f hf)) with heq | hin
        · rw [heq]
        · have hlt := ((List.pairwise_cons.mp hsorted).1 f hin).1
          omega
  obtain ⟨hconsistent, hdenotes⟩ := hprogress.denotes hs hc hperm hrows
    (s.slide (below (s.session.torrentCount - 1)) [] rows).2.1.head?
    (fun r => List.mem_of_mem_head?) (by
      rw [← List.head?_map, hprogress.map_eq, List.head?_map, hfirst])
  refine ⟨hconsistent, hdenotes, ⟨hprogress.keepsOrder, ?_⟩, hhonest⟩
  intro r x hx hp
  have hr : r < s.session.base := (List.getElem?_eq_some_iff.mp hx).1
  have hrow : r ∈ s.rows := (selected_iff hs ((List.getElem?_append_left hr).trans hx)).mp hp
  have hall := all_drop hs r
  by_cases hstuck : Stuck (fun r k => r < k ∧ k ≤ s.session.torrentCount - 1) rows r
  · have hbelow : ∀ k, r < k → k < s.session.base → k ∈ s.rows := by
      intro k hrk hk
      have hcount : s.session.base ≤ s.session.torrentCount := Nat.le_add_right _ _
      exact hperm.subset (hstuck k ⟨hrk, by omega⟩)
    rw [if_pos (hall.mpr hbelow)]
    exact hprogress.getElem? hs hperm hx hp (.inl ⟨hstuck, rfl⟩) hr
  · have hnot : ¬ ∀ k, r < k → k < s.session.base → k ∈ s.rows := by
      intro hbelow
      obtain ⟨k, hk⟩ := not_forall.mp hstuck
      obtain ⟨⟨hrk, hlast⟩, hkrows⟩ := Classical.not_imp.mp hk
      have hkrows' : k ∉ s.rows := fun hin => hkrows (hperm.symm.subset hin)
      have hhttp : s.session.base ≤ k := by
        by_contra hlt
        exact hkrows' (hbelow k hrk (by omega))
      have hend : s.session.base - 1 ∈ s.rows := by
        by_cases heq : r = s.session.base - 1
        · exact heq ▸ hrow
        · exact hbelow _ (by omega) (by omega)
      have hpast := hbase _ hend ⟨k, by omega, by omega, hkrows'⟩
      have hlt := HttpMergeEngine.isHttp_eq_false.mp hpast
      omega
    obtain ⟨t, ht⟩ : ∃ t, below (s.session.torrentCount - 1) r = some t := by
      cases hbelow : below (s.session.torrentCount - 1) r with
      | none => exact absurd (fun k hk => absurd hk (hcourse.edge hbelow k)) hstuck
      | some t => exact ⟨t, rfl⟩
    have htarget : t = r + 1 := by
      unfold below at ht
      split_ifs at ht
      exact (Option.some.inj ht).symm
    rw [if_neg fun h => hnot (hall.mp h), ← htarget]
    exact hprogress.getElem? hs hperm hx hp (.inr ⟨hstuck, ht⟩) (hfree r hrow t ht hstuck).2

end Single

section Ends

variable {session : HttpMergeEngine α} {target : Nat}

omit [DecidableEq α] in
theorem moveAll_refused (rows : List Nat)
    (h : ∀ r ∈ rows, s.session.setTorrentQueuePosition r target = none) :
    s.moveAll target rows = (s, []) := by
  induction rows with
  | nil => rfl
  | cons r rows ih =>
      obtain ⟨hr, hrows⟩ := List.forall_mem_cons.mp h
      rw [State.moveAll, State.setTorrentQueuePosition, hr]
      dsimp only
      rw [ih hrows]
      rfl

theorem honest_refresh : Honest [.queueRefreshNeeded] := by
  intro earlier r target later h
  match earlier with
  | [] => cases h
  | [_] => cases h
  | _ :: _ :: _ => cases h

-- The torrents where those that are selected come first already.
theorem pairwise_selected (hs : Consistent s)
    (h : ∀ r k, r < k → k < s.session.base → k ∈ s.rows → r ∈ s.rows) :
    s.session.torrents.Pairwise fun a b => s.selected b = true → s.selected a = true := by
  rw [List.pairwise_iff_getElem]
  intro i j hi hj hij hsel
  have hhash : ∀ k (hk : k < s.session.torrents.length),
      s.session.hashes[k]? = some s.session.torrents[k] := fun k hk =>
    (List.getElem?_append_left hk).trans (List.getElem?_eq_getElem hk)
  exact (selected_iff hs (hhash i hi)).mpr (h i j hij hj ((selected_iff hs (hhash j hj)).mp hsel))

theorem pairwise_unselected (hs : Consistent s)
    (h : ∀ r k, r < k → k < s.session.base → r ∈ s.rows → k ∈ s.rows) :
    s.session.torrents.Pairwise fun a b => (!s.selected b) = true → (!s.selected a) = true := by
  rw [List.pairwise_iff_getElem]
  intro i j hi hj hij hsel
  have hhash : ∀ k (hk : k < s.session.torrents.length),
      s.session.hashes[k]? = some s.session.torrents[k] := fun k hk =>
    (List.getElem?_append_left hk).trans (List.getElem?_eq_getElem hk)
  rw [Bool.not_eq_true', ← Bool.not_eq_true] at hsel ⊢
  exact fun hi' => hsel ((selected_iff hs (hhash j hj)).mpr
    (h i j hij hj ((selected_iff hs (hhash i hi)).mp hi')))

theorem selected_alone (hs : Consistent s) {r : Nat} (hrows : s.rows = [r]) (hr : r < s.session.base) :
    s.selected (s.session.torrents.get ⟨r, hr⟩) = true ∧
      ∀ a ∈ s.session.torrents.eraseIdx r, s.selected a = false := by
  have hselected : ∀ k (hk : k < s.session.torrents.length),
      s.selected s.session.torrents[k] = true ↔ k = r := by
    intro k hk
    rw [selected_iff hs ((List.getElem?_append_left hk).trans (List.getElem?_eq_getElem hk)), hrows,
      List.mem_singleton]
  refine ⟨(hselected r hr).mpr rfl, fun a ha => ?_⟩
  by_contra hsel
  obtain ⟨k, hk, rfl⟩ := List.getElem_of_mem (List.mem_of_mem_eraseIdx ha)
  rw [Bool.not_eq_false, hselected k hk] at hsel
  subst hsel
  exact notMem_eraseIdx (List.Nodup.of_append_left hs.hashes) (List.getElem?_eq_getElem hk) ha

-- A selected torrent on its own, moved with its row.
theorem move_alone (hs : Consistent s) (hc : Denotes s c) {r : Nat} (hrows : s.rows = [r])
    (hindex : s.selectedIndex = some r) (hr : r < s.session.base) (ht : target < s.session.base)
    (hne : r ≠ target) :
    s.session.setTorrentQueuePosition r target =
        some { s.session with torrents := moveRow s.session.torrents r target hr } ∧
      Consistent { session := { s.session with torrents := moveRow s.session.torrents r target hr },
                   selectedRows := [target], selectedIndex := some target } ∧
      Denotes { session := { s.session with torrents := moveRow s.session.torrents r target hr },
                selectedRows := [target], selectedIndex := some target } c ∧
      KeepsOrder s.selected s.session.torrents (moveRow s.session.torrents r target hr) := by
  have hlength : (moveRow s.session.torrents r target hr).length = s.session.torrents.length :=
    (moveRow_perm hr ht).length_eq
  have hhash : ({ s.session with torrents := moveRow s.session.torrents r target hr } :
      HttpMergeEngine α).torrentHashAt target = s.session.torrentHashAt r := by
    have ht' : target < (moveRow s.session.torrents r target hr).length := hlength ▸ ht
    rw [HttpMergeEngine.torrentHashAt_eq, HttpMergeEngine.torrentHashAt_eq, HttpMergeEngine.hashes,
      HttpMergeEngine.hashes, List.getElem?_append_left ht', List.getElem?_append_left hr,
      getElem?_moveRow_self hr ht]
  obtain ⟨hselected, hothers⟩ := selected_alone hs hrows hr
  refine ⟨HttpMergeEngine.setTorrentQueuePosition_eq_some.mpr ⟨hr, ht, hne, rfl⟩, ⟨?_, ?_, ?_, ?_⟩,
    ⟨?_, ?_⟩, ?_⟩
  · exact (List.Perm.append_right _ (moveRow_perm hr ht)).nodup_iff.mpr hs.hashes
  · exact List.nodup_singleton _
  · intro k hk
    obtain rfl := List.mem_singleton.mp hk
    exact (ht.trans_eq hlength.symm).trans_le (Nat.le_add_right _ _)
  · intro k hk
    exact Option.some.inj hk ▸ List.mem_singleton_self _
  · refine List.Perm.trans (.of_eq ?_) hc.rows
    rw [hrows, List.map_singleton, ← hhash]
    rfl
  · rw [← hc.focus, hindex, Option.map_some, Option.map_some, hhash]
  · obtain ⟨hkept, hrest⟩ := filter_moveRow_alone hr ht hselected hothers
    exact ⟨hkept, hrest⟩

theorem moves_top {torrents : List α} (h : KeepsOrder s.selected s.session.torrents torrents)
    (hfirst : torrents.Pairwise fun a b => s.selected b = true → s.selected a = true) :
    Moves s.selected s.session.torrents torrents .queueTopSelected := by
  have hsplit := filter_append_filter hfirst
  rw [h.selected, h.others] at hsplit
  exact hsplit.symm

theorem moves_bottom {torrents : List α} (h : KeepsOrder s.selected s.session.torrents torrents)
    (hlast : torrents.Pairwise fun a b => (!s.selected b) = true → (!s.selected a) = true) :
    Moves s.selected s.session.torrents torrents .queueBottomSelected := by
  have hsplit := filter_append_filter hlast
  simp only [Bool.not_not] at hsplit
  rw [h.others, h.selected] at hsplit
  exact hsplit.symm

-- Where the session refuses to move what is selected, only a refresh is asked for.
theorem obeyed_refused (hs : Consistent s) (hc : Denotes s c) {e : Event α}
    (hmoves : Moves s.selected s.session.torrents s.session.torrents e) :
    Obeyed s c e (s, [.queueRefreshNeeded]) := ⟨hs, hc, hmoves, honest_refresh⟩

omit [DecidableEq α] in
theorem setTorrentQueuePosition_none {r : Nat}
    (h : s.session.isHttp r = false → target < s.session.base → r = target) :
    s.session.setTorrentQueuePosition r target = none := by
  unfold HttpMergeEngine.setTorrentQueuePosition SessionManager.setTorrentQueuePosition
  cases hhttp : s.session.isHttp r with
  | true => rfl
  | false =>
      rw [if_neg Bool.false_ne_true, dif_neg, Option.map_none]
      rintro ⟨-, ht, hne⟩
      exact hne (h hhttp ht)

theorem queueTopSelected (hs : Consistent s) (hc : Denotes s c)
    (hallowed : Allowed s .queueTopSelected) : Obeyed s c .queueTopSelected s.queueTopSelected := by
  unfold State.queueTopSelected State.queueTo
  rw [Allowed] at hallowed
  have hstay : (∀ r ∈ s.rows, s.session.isHttp r = false → r = 0) →
      Obeyed s c .queueTopSelected ((s.moveAll 0 s.rows).1,
        (s.moveAll 0 s.rows).2 ++ [.queueRefreshNeeded]) := by
    intro hzero
    rw [moveAll_refused s.rows fun r hr => setTorrentQueuePosition_none fun h _ => hzero r hr h]
    refine obeyed_refused hs hc (moves_top ⟨rfl, rfl⟩ (pairwise_selected hs ?_))
    intro r k hrk hk hin
    have hk0 := hzero k hin (HttpMergeEngine.isHttp_eq_false.mpr hk)
    omega
  match hrows : s.rows with
  | [] =>
      rw [hrows] at hstay hallowed
      exact hstay hallowed
  | [r] =>
      rw [hrows] at hstay hallowed
      by_cases hpos : 0 < r
      · obtain ⟨hhttp, hindex⟩ := hallowed hpos
        have hr : r < s.session.base := HttpMergeEngine.isHttp_eq_false.mp hhttp
        obtain ⟨hmove, hconsistent, hdenotes, horder⟩ :=
          move_alone hs hc hrows hindex hr (hpos.trans hr) hpos.ne'
        dsimp only
        rw [if_pos (by simpa using hpos), State.setTorrentQueuePosition, hmove]
        refine ⟨hconsistent, hdenotes, moves_top horder ?_, honest_nil.cons r 0⟩
        obtain ⟨hselected, hothers⟩ := selected_alone hs hrows hr
        refine List.pairwise_cons.mpr ⟨fun b hb hsel => hselected, ?_⟩
        refine List.pairwise_of_forall_mem_list fun a ha b hb hsel => ?_
        rw [hothers b hb] at hsel
        cases hsel
      · dsimp only
        rw [if_neg (by simpa using hpos)]
        exact hstay fun q hq _ => by
          rw [List.mem_singleton.mp hq]
          omega
  | r :: q :: rest =>
      rw [hrows] at hstay hallowed
      exact hstay hallowed

theorem queueBottomSelected (hs : Consistent s) (hc : Denotes s c)
    (hallowed : Allowed s .queueBottomSelected) :
    Obeyed s c .queueBottomSelected s.queueBottomSelected := by
  unfold State.queueBottomSelected State.queueTo
  rw [Allowed] at hallowed
  have hcount : s.session.torrentCount = s.session.base + s.session.https.length := rfl
  have hstay : (∀ r ∈ s.rows, s.session.isHttp r = false →
      s.session.torrentCount - 1 < s.session.base → r = s.session.torrentCount - 1) →
      (∀ r k, r < k → k < s.session.base → r ∈ s.rows → k ∈ s.rows) →
      Obeyed s c .queueBottomSelected ((s.moveAll (s.session.torrentCount - 1) s.rows).1,
        (s.moveAll (s.session.torrentCount - 1) s.rows).2 ++ [.queueRefreshNeeded]) := by
    intro hrefused hlast
    rw [moveAll_refused s.rows fun r hr => setTorrentQueuePosition_none (hrefused r hr)]
    exact obeyed_refused hs hc (moves_bottom ⟨rfl, rfl⟩ (pairwise_unselected hs hlast))
  match hrows : s.rows with
  | [] =>
      rw [hrows] at hstay
      exact hstay (by simp) (by simp)
  | [r] =>
      have hlt := hs.rows r (hrows ▸ List.mem_singleton_self r)
      rw [hrows] at hstay hallowed
      by_cases haway : r < s.session.torrentCount - 1
      · obtain ⟨hhttps, hindex⟩ := hallowed haway
        rw [hhttps, List.length_nil, Nat.add_zero] at hcount
        have hr : r < s.session.base := by omega
        have htarget : s.session.torrentCount - 1 < s.session.base := by omega
        obtain ⟨hmove, hconsistent, hdenotes, horder⟩ :=
          move_alone hs hc hrows hindex hr htarget (by omega)
        dsimp only
        rw [if_pos (by simpa using haway), State.setTorrentQueuePosition, hmove]
        refine ⟨hconsistent, hdenotes, moves_bottom horder ?_, honest_nil.cons r _⟩
        obtain ⟨hselected, hothers⟩ := selected_alone hs hrows hr
        have hend : moveRow s.session.torrents r (s.session.torrentCount - 1) hr =
            s.session.torrents.eraseIdx r ++ [s.session.torrents.get ⟨r, hr⟩] := by
          have hlength : (s.session.torrents.eraseIdx r).length = s.session.torrentCount - 1 := by
            rw [List.length_eraseIdx_of_lt hr, hcount]
            rfl
          unfold moveRow
          rw [← hlength, List.insertIdx_length_self]
          rfl
        rw [hend, List.pairwise_append]
        refine ⟨List.pairwise_of_forall_mem_list fun a ha b hb _ => by simp [hothers a ha],
          List.pairwise_singleton _ _, fun a ha b hb _ => by simp [hothers a ha]⟩
      · have heq : r = s.session.torrentCount - 1 := by omega
        dsimp only
        rw [if_neg (by simpa using haway)]
        refine hstay (fun q hq _ _ => List.mem_singleton.mp hq ▸ heq) fun q k hqk hk hq => ?_
        rw [List.mem_singleton.mp hq] at hqk
        omega
  | r :: q :: rest =>
      rw [hrows] at hstay hallowed
      rcases hallowed with hnil | ⟨hhttps, hlast⟩
      · cases hnil
      · have hpos := List.length_pos_iff.mpr hhttps
        refine hstay (fun _ _ _ hbase => by omega) fun r k hrk hk hr => hlast r hr k hrk ?_
        exact HttpMergeEngine.isHttp_eq_false.mpr hk

end Ends

end BATorrent.SessionBridge

namespace BATorrent.SessionBridge

open Lib Machine

variable {α : Type}

section Step

variable {s : State α} {c : Chosen α}

theorem setSelectedRows_kept (hs : Consistent s) {rows : List Nat} (hnodup : rows.Nodup)
    (hrows : ∀ r ∈ rows, r < s.session.torrentCount) :
    Consistent (s.setSelectedRows rows) ∧
      Denotes (s.setSelectedRows rows) (chosenAt s.session rows rows.getLast?) := by
  have heq := rows_setSelectedRows (s := s) rows
  have hlast : ∀ r, rows.getLast? = some r → r ∈ rows := fun r => List.mem_of_getLast?
  obtain ⟨hitems, hfocus⟩ := denotes_chosenAt hrows hlast
  exact ⟨⟨hs.hashes, hnodup, heq.symm ▸ hrows, heq.symm ▸ hlast⟩, ⟨heq.symm ▸ hitems, hfocus⟩⟩

theorem addTorrent_kept (hs : Consistent s) (hc : Denotes s c) {hash : α}
    (hnew : hash ∉ s.session.hashes) (hallowed : Allowed s (.addTorrent hash)) :
    Consistent { s with session := s.session.addTorrent hash } ∧
      Denotes { s with session := s.session.addTorrent hash } c := by
  have hhashes : (s.session.addTorrent hash).hashes = s.session.torrents ++ hash :: s.session.https :=
    List.append_assoc _ _ _
  refine ⟨⟨?_, hs.nodup, fun r hr => ?_, hs.focus⟩, hc.of_session hs fun r hr => ?_⟩
  · rw [hhashes]
    exact List.perm_middle.nodup_iff.mpr (List.nodup_cons.mpr ⟨hnew, hs.hashes⟩)
  · have hlt := hs.rows r hr
    rw [← HttpMergeEngine.length_hashes] at hlt ⊢
    rw [hhashes, List.length_append, List.length_cons]
    rw [HttpMergeEngine.hashes, List.length_append] at hlt
    omega
  · have hlt : r < s.session.torrents.length := HttpMergeEngine.isHttp_eq_false.mp (hallowed r hr)
    rw [HttpMergeEngine.torrentHashAt_eq, HttpMergeEngine.torrentHashAt_eq, hhashes,
      List.getElem?_append_left hlt, HttpMergeEngine.hashes, List.getElem?_append_left hlt]

theorem addHttp_kept (hs : Consistent s) (hc : Denotes s c) {hash : α}
    (hnew : hash ∉ s.session.hashes) :
    Consistent { s with session := s.session.addHttp hash } ∧
      Denotes { s with session := s.session.addHttp hash } c := by
  have hhashes : (s.session.addHttp hash).hashes = s.session.hashes ++ [hash] :=
    (List.append_assoc _ _ _).symm
  refine ⟨⟨?_, hs.nodup, fun r hr => ?_, hs.focus⟩, hc.of_session hs fun r hr => ?_⟩
  · rw [hhashes]
    exact List.nodup_append_comm.mp (List.nodup_cons.mpr ⟨hnew, hs.hashes⟩)
  · have hlt := hs.rows r hr
    rw [← HttpMergeEngine.length_hashes] at hlt ⊢
    rw [hhashes, List.length_append]
    omega
  · have hlt := hs.rows r hr
    rw [← HttpMergeEngine.length_hashes] at hlt
    rw [HttpMergeEngine.torrentHashAt_eq, HttpMergeEngine.torrentHashAt_eq, hhashes,
      List.getElem?_append_left hlt]

end Step

theorem selection_kept [DecidableEq α] (start : {s : State α // Consistent s})
    {past : List (Reaction (State α) (Event α) Out)} {s : State α}
    (hrun : (machine start).Run Allowed past s) :
    Denotes s (chosen start.1 past) ∧ eachStep (fun _ r s => Faithful r s) past s := by
  suffices h : Consistent s ∧ Denotes s (chosen start.1 past) ∧
      eachStep (fun _ r s => Faithful r s) past s from h.2
  refine Run.invariant_past (fun past s => Consistent s ∧ Denotes s (chosen start.1 past) ∧
    eachStep (fun _ r s => Faithful r s) past s) ?_ ?_ hrun
  · obtain ⟨hitems, hfocus⟩ := denotes_chosenAt start.2.rows start.2.focus
    exact ⟨start.2, ⟨hitems, hfocus⟩, trivial⟩
  · rintro past s e s' out ⟨hs, hc, hsteps⟩ hallowed hnext
    change s.next e = some (s', out) at hnext
    have hobeyed : ∀ result, Obeyed s (chosen start.1 past) e result → result = (s', out) →
        chosen start.1 (⟨s, e, out⟩ :: past) = chosen start.1 past →
        Consistent s' ∧ Denotes s' (chosen start.1 (⟨s, e, out⟩ :: past)) ∧
          eachStep (fun _ r s => Faithful r s) (⟨s, e, out⟩ :: past) s' := by
      rintro _ h rfl hsame
      exact ⟨h.consistent, hsame ▸ h.denotes, ⟨h.moves, h.honest⟩, hsteps⟩
    cases e with
    | setSelectedRows rows =>
        rw [State.next] at hnext
        split_ifs at hnext with hvalid
        cases hnext
        obtain ⟨hconsistent, hdenotes⟩ := setSelectedRows_kept hs hvalid.1 hvalid.2
        exact ⟨hconsistent, hdenotes, ⟨trivial, honest_nil⟩, hsteps⟩
    | addTorrent hash =>
        rw [State.next] at hnext
        split_ifs at hnext with hnew
        cases hnext
        obtain ⟨hconsistent, hdenotes⟩ := addTorrent_kept hs hc hnew hallowed
        exact ⟨hconsistent, hdenotes, ⟨trivial, honest_nil⟩, hsteps⟩
    | addHttp hash =>
        rw [State.next] at hnext
        split_ifs at hnext with hnew
        cases hnext
        obtain ⟨hconsistent, hdenotes⟩ := addHttp_kept hs hc hnew
        exact ⟨hconsistent, hdenotes, ⟨trivial, honest_nil⟩, hsteps⟩
    | removeTorrent index =>
        cases hnext
        exact ⟨hs.removeTorrent hallowed, hc.removeTorrent hs hallowed, ⟨trivial, honest_nil⟩, hsteps⟩
    | queueUpSelected =>
        exact hobeyed _ (queueUpSelected hs hc hallowed) (Option.some.inj hnext) rfl
    | queueDownSelected =>
        exact hobeyed _ (queueDownSelected hs hc hallowed) (Option.some.inj hnext) rfl
    | queueTopSelected =>
        exact hobeyed _ (queueTopSelected hs hc hallowed) (Option.some.inj hnext) rfl
    | queueBottomSelected =>
        exact hobeyed _ (queueBottomSelected hs hc hallowed) (Option.some.inj hnext) rfl

-- Two torrents and a direct download, with one of the rows selected.
def startAt (row : Fin 3) : {s : State Nat // Consistent s} where
  val := { session := ⟨[0, 1], [7]⟩, selectedIndex := some row, selectedRows := [row.1] }
  property := by
    have hhashes : [0, 1, 7].Nodup := by decide
    refine ⟨hhashes, List.nodup_singleton _, fun r hr => ?_, fun r hr => ?_⟩
    · rw [List.mem_singleton.mp hr]
      exact row.2
    · exact Option.some.inj hr ▸ List.mem_singleton_self _

theorem selection_kept_up : ∃ past s, (machine (startAt 1)).Run Allowed past s ∧
    s.session.torrents = [1, 0] ∧ s.selectedRows = [0] ∧ Denotes s (chosen (startAt 1).1 past) := by
  have hallowed : Allowed (startAt 1).1 .queueUpSelected := by
    refine ⟨fun r hr => ⟨1, rfl, ?_⟩, fun r hr _ => ?_⟩
    · rw [List.mem_singleton.mp hr]
      decide
    · rw [List.mem_singleton.mp hr]
      rfl
  have hinit : (machine (startAt 1)).Run Allowed [] (startAt 1).1 := .init
  have hrun := hinit.extend .queueUpSelected hallowed rfl
  exact ⟨_, _, hrun, by decide, by decide, (selection_kept _ hrun).1⟩

theorem selection_lost : ¬ ∀ past s, (machine (startAt 2)).Run (fun _ _ => True) past s →
    Denotes s (chosen (startAt 2).1 past) ∧ eachStep (fun _ r s => Faithful r s) past s := by
  intro h
  have hinit : (machine (startAt 2)).Run (fun _ _ => True) [] (startAt 2).1 := .init
  have hdenotes := (h _ _ (hinit.extend (.addTorrent 2) trivial rfl)).1
  exact absurd hdenotes.focus (by decide)

end BATorrent.SessionBridge
