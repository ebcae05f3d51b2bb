import BATorrent.Bridges.SessionBridge

namespace BATorrent.SessionBridge

open Lib

variable {α : Type}

-- The selected rows keep their order, and so do the others.
structure KeepsOrder (p : α → Bool) (old new : List α) : Prop where
  selected : new.filter p = old.filter p
  others : new.filter (!p ·) = old.filter (!p ·)

-- Each signal of a move comes right after the move.
def Honest (outs : List Out) : Prop :=
  ∀ earlier r target later, outs = earlier ++ .queueMoved r target :: later →
    ∃ before, earlier = before ++ [.moved r target]

section Course

variable {beside : Nat → Option Nat} {Ahead : Nat → Nat → Prop}

-- Rows that are passed one by one, each with the rows ahead of it.
structure Course (beside : Nat → Option Nat) (Ahead : Nat → Nat → Prop) : Prop where
  edge : ∀ {r}, beside r = none → ∀ k, ¬ Ahead r k
  next : ∀ {r t}, beside r = some t → ∀ k, Ahead r k ↔ k = t ∨ Ahead t k
  adjacent : ∀ {r t}, beside r = some t → r + 1 = t ∨ t + 1 = r
  one : ∀ {r q t}, beside r = some t → beside q = some t → r = q
  asymm : ∀ {r k}, Ahead r k → ¬ Ahead k r

theorem course_above : Course above fun r k => k < r where
  edge := by
    intro r h k hk
    unfold above at h
    split_ifs at h
    omega
  next := by
    intro r t h k
    unfold above at h
    split_ifs at h
    cases h
    omega
  adjacent := by
    intro r t h
    unfold above at h
    split_ifs at h
    cases h
    omega
  one := by
    intro r q t h h'
    unfold above at h h'
    split_ifs at h h'
    have heq := (Option.some.inj h).trans (Option.some.inj h').symm
    omega
  asymm := by
    intro r k h
    omega

theorem course_below (lastIdx : Nat) : Course (below lastIdx) fun r k => r < k ∧ k ≤ lastIdx where
  edge := by
    intro r h k hk
    unfold below at h
    split_ifs at h
    omega
  next := by
    intro r t h k
    unfold below at h
    split_ifs at h
    cases h
    omega
  adjacent := by
    intro r t h
    unfold below at h
    split_ifs at h
    cases h
    omega
  one := by
    intro r q t h h'
    unfold below at h h'
    split_ifs at h h'
    cases h
    cases h'
    rfl
  asymm := by
    intro r k h
    omega

-- Selected rows with none but selected rows ahead of them.
def Stuck (Ahead : Nat → Nat → Prop) (rows : List Nat) (r : Nat) : Prop := ∀ k, Ahead r k → k ∈ rows

-- Where a selected row is to go.
def Slid (beside : Nat → Option Nat) (Ahead : Nat → Nat → Prop) (rows : List Nat) (r t : Nat) : Prop :=
  Stuck Ahead rows r ∧ t = r ∨ ¬ Stuck Ahead rows r ∧ beside r = some t

variable {rows : List Nat} {r t : Nat}

theorem Course.stuck_iff (hcourse : Course beside Ahead) (ht : beside r = some t) :
    Stuck Ahead rows r ↔ t ∈ rows ∧ Stuck Ahead rows t := by
  constructor
  · intro h
    exact ⟨h t ((hcourse.next ht t).mpr (.inl rfl)), fun k hk => h k ((hcourse.next ht k).mpr (.inr hk))⟩
  · rintro ⟨hmem, hstuck⟩ k hk
    rcases (hcourse.next ht k).mp hk with rfl | hk
    · exact hmem
    · exact hstuck k hk

theorem Course.ahead (hcourse : Course beside Ahead) (ht : beside r = some t) : Ahead r t :=
  (hcourse.next ht t).mpr (.inl rfl)

theorem Course.ne (hcourse : Course beside Ahead) (ht : beside r = some t) : t ≠ r := by
  rintro rfl
  exact hcourse.asymm (hcourse.ahead ht) (hcourse.ahead ht)

-- No row goes to one that is behind it.
theorem Course.slid_ne (hcourse : Course beside Ahead) {b : Nat} (hb : Ahead r b)
    (h : Slid beside Ahead rows b t) : t ≠ r := by
  rintro rfl
  rcases h with ⟨-, rfl⟩ | ⟨-, h⟩
  · exact hcourse.asymm hb hb
  · exact hcourse.asymm hb (hcourse.ahead h)

theorem slid_unique {u : Nat} (h : Slid beside Ahead rows r t) (h' : Slid beside Ahead rows r u) :
    t = u := by
  rcases h with ⟨hstuck, rfl⟩ | ⟨hnot, ht⟩
  · rcases h' with ⟨-, rfl⟩ | ⟨hnot, -⟩
    · rfl
    · exact absurd hstuck hnot
  · rcases h' with ⟨hstuck, -⟩ | ⟨-, hu⟩
    · exact absurd hstuck hnot
    · exact Option.some.inj (ht.symm.trans hu)

end Course

theorem honest_nil : Honest [] := by
  intro earlier r target later h
  cases earlier with
  | nil => cases h
  | cons => cases h

-- A move and its signal, before what is honest.
theorem Honest.cons {outs : List Out} (h : Honest outs) (row target : Nat) :
    Honest (.moved row target :: .queueMoved row target :: outs) := by
  intro earlier r t later heq
  match earlier with
  | [] => cases heq
  | [_] =>
      cases heq
      exact ⟨[], rfl⟩
  | _ :: _ :: earlier =>
      injection heq with hmoved hrest
      injection hrest with hqueue hrest
      obtain ⟨before, rfl⟩ := h earlier r t later hrest
      exact ⟨_ :: _ :: before, rfl⟩

variable {s₀ : State α} {beside : Nat → Option Nat} {Ahead : Nat → Nat → Prop} {rows : List Nat}
  {p : α → Bool}

-- What the loop has done once these rows are through.
structure Progress (s₀ : State α) (beside : Nat → Option Nat) (Ahead : Nat → Nat → Prop)
    (rows : List Nat) (p : α → Bool) (through newRows : List Nat) (s : State α) : Prop where
  base : s.session.base = s₀.session.base
  https : s.session.https = s₀.session.https
  nodup : s.session.hashes.Nodup
  slid : List.Forall₂ (Slid beside Ahead rows) through newRows
  placed : ∀ r ∈ through, ∀ t, Slid beside Ahead rows r t →
    s.session.hashes[t]? = s₀.session.hashes[r]?
  waiting : ∀ r ∈ rows, r ∉ through → s.session.hashes[r]? = s₀.session.hashes[r]?
  order : KeepsOrder p s₀.session.hashes s.session.hashes

section Progress

variable {through newRows : List Nat} {s : State α} {r t : Nat}

theorem Progress.stay (h : Progress s₀ beside Ahead rows p through newRows s) (hr : r ∈ rows)
    (hnew : r ∉ through) (hstuck : Stuck Ahead rows r) :
    Progress s₀ beside Ahead rows p (through ++ [r]) (newRows ++ [r]) s where
  base := h.base
  https := h.https
  nodup := h.nodup
  slid := List.rel_append h.slid (.cons (.inl ⟨hstuck, rfl⟩) .nil)
  placed := by
    intro q hq t hslid
    rcases List.mem_append.mp hq with hq | hq
    · exact h.placed q hq t hslid
    · obtain rfl := List.mem_singleton.mp hq
      rcases hslid with ⟨-, rfl⟩ | ⟨hnot, -⟩
      · exact h.waiting _ hr hnew
      · exact absurd hstuck hnot
  waiting := fun q hq hnot => h.waiting q hq fun hin => hnot (List.mem_append_left _ hin)
  order := h.order

theorem exists_slid {b : Nat} (h : List.Forall₂ (Slid beside Ahead rows) through newRows)
    (hb : b ∈ through) : ∃ t ∈ newRows, Slid beside Ahead rows b t := by
  induction h with
  | nil => cases hb
  | @cons a t _ _ hat _ ih =>
      rcases List.mem_cons.mp hb with rfl | hb
      · exact ⟨t, List.mem_cons_self, hat⟩
      · obtain ⟨t', ht', hslid⟩ := ih hb
        exact ⟨t', List.mem_cons_of_mem _ ht', hslid⟩

theorem exists_slid_of_mem (h : List.Forall₂ (Slid beside Ahead rows) through newRows)
    (ht : t ∈ newRows) : ∃ b ∈ through, Slid beside Ahead rows b t := by
  induction h with
  | nil => cases ht
  | @cons a t' _ _ hat _ ih =>
      rcases List.mem_cons.mp ht with rfl | ht
      · exact ⟨a, List.mem_cons_self, hat⟩
      · obtain ⟨b, hb, hslid⟩ := ih ht
        exact ⟨b, List.mem_cons_of_mem _ hb, hslid⟩

-- The row beside one that comes next is taken just when that one is stuck.
theorem mem_newRows_iff (hcourse : Course beside Ahead)
    (h : List.Forall₂ (Slid beside Ahead rows) through newRows) (hthrough : through ⊆ rows)
    (hnew : r ∉ through) (hlater : ∀ q ∈ rows, q ∉ through → q = r ∨ Ahead q r)
    (ht : beside r = some t) : t ∈ newRows ↔ Stuck Ahead rows r := by
  rw [hcourse.stuck_iff ht]
  constructor
  · intro hmem
    obtain ⟨b, hb, ⟨hstuck, rfl⟩ | ⟨-, hbeside⟩⟩ := exists_slid_of_mem h hmem
    · exact ⟨hthrough hb, hstuck⟩
    · obtain rfl := hcourse.one ht hbeside
      exact absurd hb hnew
  · rintro ⟨hmem, hstuck⟩
    have hin : t ∈ through := by
      by_contra hnot
      rcases hlater t hmem hnot with heq | hahead
      · exact hcourse.ne ht heq
      · exact hcourse.asymm hahead (hcourse.ahead ht)
    obtain ⟨t', ht', ⟨-, rfl⟩ | ⟨hnot, -⟩⟩ := exists_slid h hin
    · exact ht'
    · exact absurd hstuck hnot

-- The rows that hold selected items, while the loop runs.
theorem Progress.selected_row (h : Progress s₀ beside Ahead rows p through newRows s)
    (hp : ∀ x, p x = true ↔ ∃ q ∈ rows, s₀.session.hashes[q]? = some x) {x : α} {k : Nat}
    (hx : p x = true) (hk : s.session.hashes[k]? = some x) : k ∈ newRows ∨ k ∈ rows ∧ k ∉ through := by
  have honly : ∀ k', s.session.hashes[k']? = some x → k' = k := by
    intro k' hk'
    exact (List.getElem?_inj (List.getElem?_eq_some_iff.mp hk').1 h.nodup).mp (hk'.trans hk.symm)
  obtain ⟨q, hq, hqx⟩ := (hp x).mp hx
  by_cases hin : q ∈ through
  · obtain ⟨t, ht, hslid⟩ := exists_slid h.slid hin
    exact .inl (honly t ((h.placed q hin t hslid).trans hqx) ▸ ht)
  · exact .inr (honly q ((h.waiting q hq hin).trans hqx) ▸ ⟨hq, hin⟩)

theorem Progress.move (hcourse : Course beside Ahead)
    (hp : ∀ x, p x = true ↔ ∃ q ∈ rows, s₀.session.hashes[q]? = some x)
    (h : Progress s₀ beside Ahead rows p through newRows s) (hr : r ∈ rows) (hnew : r ∉ through)
    (hearlier : ∀ b ∈ through, Ahead r b) (hlater : ∀ q ∈ rows, q ∉ through → q = r ∨ Ahead q r)
    (ht : beside r = some t) (hstuck : ¬ Stuck Ahead rows r) (hfree : t ∉ newRows)
    {session : HttpMergeEngine α} (hmove : s.session.setTorrentQueuePosition r t = some session) :
    Progress s₀ beside Ahead rows p (through ++ [r]) (newRows ++ [t]) { s with session := session } := by
  obtain ⟨hrow, htarget, -, rfl⟩ := HttpMergeEngine.setTorrentQueuePosition_eq_some.mp hmove
  have hnext := hcourse.adjacent ht
  have hhashes : ({ s.session with torrents := moveRow s.session.torrents r t hrow } :
      HttpMergeEngine α).hashes = moveRow s.session.hashes r t (by
        rw [HttpMergeEngine.length_hashes]
        exact Nat.lt_add_right _ hrow) := (moveRow_append hrow htarget _).symm
  have hr' : r < s.session.hashes.length := by
    rw [HttpMergeEngine.length_hashes]
    exact Nat.lt_add_right _ hrow
  have ht' : t < s.session.hashes.length := by
    rw [HttpMergeEngine.length_hashes]
    exact Nat.lt_add_right _ htarget
  have hlength : (moveRow s.session.torrents r t hrow).length = s.session.torrents.length :=
    (moveRow_perm hrow htarget).length_eq
  have hrx : p s.session.hashes[r] = true :=
    (hp _).mpr ⟨r, hr, (h.waiting r hr hnew).symm.trans (List.getElem?_eq_getElem hr')⟩
  have htx : p s.session.hashes[t] = false := by
    by_contra hx
    rcases h.selected_row hp (Bool.not_eq_false _ ▸ hx) (List.getElem?_eq_getElem ht') with hin | ⟨hin, hnot⟩
    · exact hfree hin
    · rcases hlater t hin hnot with heq | hahead
      · exact hcourse.ne ht heq
      · exact hcourse.asymm hahead (hcourse.ahead ht)
  constructor
  · exact hlength.trans h.base
  · exact h.https
  · exact hhashes ▸ nodup_moveRow hr' ht' h.nodup
  · exact List.rel_append h.slid (.cons (.inr ⟨hstuck, ht⟩) .nil)
  · intro q hq t' hslid
    dsimp only
    rw [hhashes, getElem?_moveRow_next hr' ht' hnext]
    rcases List.mem_append.mp hq with hq | hq
    · have hne : t' ≠ r := hcourse.slid_ne (hearlier q hq) hslid
      have hne' : t' ≠ t := by
        rintro rfl
        obtain ⟨u, hu, hslid'⟩ := exists_slid h.slid hq
        exact hfree (slid_unique hslid hslid' ▸ hu)
      rw [if_neg hne, if_neg hne']
      exact h.placed q hq t' hslid
    · obtain rfl := List.mem_singleton.mp hq
      obtain rfl : t' = t := slid_unique hslid (.inr ⟨hstuck, ht⟩)
      rw [if_neg (hcourse.ne ht), if_pos rfl]
      exact h.waiting q hr hnew
  · intro q hq hnot
    dsimp only
    rw [hhashes, getElem?_moveRow_next hr' ht' hnext]
    have hnot' : q ∉ through := fun hin => hnot (List.mem_append_left _ hin)
    have hne : q ≠ r := fun heq => hnot (List.mem_append_right _ (heq ▸ List.mem_singleton_self _))
    have hne' : q ≠ t := by
      rintro rfl
      rcases hlater q hq hnot' with heq | hahead
      · exact hne heq
      · exact hcourse.asymm hahead (hcourse.ahead ht)
    rw [if_neg hne, if_neg hne']
    exact h.waiting q hq hnot'
  · constructor
    · rw [hhashes, filter_moveRow_next hr' ht' hnext (by rw [hrx, htx]; decide)]
      exact h.order.selected
    · rw [hhashes, filter_moveRow_next hr' ht' hnext (by rw [hrx, htx]; decide)]
      exact h.order.others

end Progress

-- The whole loop, where the session makes every move to a row that is not taken.
theorem slide_spec (hcourse : Course beside Ahead)
    (hp : ∀ x, p x = true ↔ ∃ q ∈ rows, s₀.session.hashes[q]? = some x)
    (hbase : ∀ r ∈ rows, ∀ t, beside r = some t → ¬ Stuck Ahead rows r →
      r < s₀.session.base ∧ t < s₀.session.base)
    (hsorted : rows.Pairwise fun b r => Ahead r b) {todo through newRows : List Nat} {s : State α}
    (hrows : through ++ todo = rows) (h : Progress s₀ beside Ahead rows p through newRows s) :
    Progress s₀ beside Ahead rows p rows (s.slide beside newRows todo).2.1
        (s.slide beside newRows todo).1 ∧
      Honest (s.slide beside newRows todo).2.2 := by
  induction todo generalizing through newRows s with
  | nil =>
      rw [List.append_nil] at hrows
      exact ⟨hrows ▸ h, honest_nil⟩
  | cons r todo ih =>
      have hr : r ∈ rows := hrows ▸ List.mem_append_right _ List.mem_cons_self
      have hthrough : through ⊆ rows := hrows ▸ List.subset_append_left _ _
      have hrows' : (through ++ [r]) ++ todo = rows := by rw [List.append_assoc]; exact hrows
      rw [← hrows, List.pairwise_append, List.pairwise_cons] at hsorted
      obtain ⟨-, ⟨hbehind, -⟩, hahead⟩ := hsorted
      have hearlier : ∀ b ∈ through, Ahead r b := fun b hb => hahead b hb r List.mem_cons_self
      have hnew : r ∉ through := fun hin => hcourse.asymm (hearlier r hin) (hearlier r hin)
      have hlater : ∀ q ∈ rows, q ∉ through → q = r ∨ Ahead q r := by
        intro q hq hnot
        rw [← hrows] at hq
        rcases List.mem_append.mp hq with hq | hq
        · exact absurd hq hnot
        · exact (List.mem_cons.mp hq).imp_right (hbehind q)
      rw [State.slide]
      cases hbeside : beside r with
      | none =>
          have hstuck : Stuck Ahead rows r := fun k hk => absurd hk (hcourse.edge hbeside k)
          exact ih hrows' (h.stay hr hnew hstuck)
      | some t =>
          have hiff := mem_newRows_iff hcourse h.slid hthrough hnew hlater hbeside
          by_cases hmem : t ∈ newRows
          · rw [Option.filter_some_neg (by simpa using hmem)]
            exact ih hrows' (h.stay hr hnew (hiff.mp hmem))
          · have hstuck : ¬ Stuck Ahead rows r := fun hstuck => hmem (hiff.mpr hstuck)
            obtain ⟨hrow, htarget⟩ := hbase r hr t hbeside hstuck
            obtain ⟨session, hmove⟩ : ∃ session,
                s.session.setTorrentQueuePosition r t = some session :=
              ⟨_, HttpMergeEngine.setTorrentQueuePosition_eq_some.mpr
                ⟨h.base ▸ hrow, h.base ▸ htarget, (hcourse.ne hbeside).symm, rfl⟩⟩
            have hmoved := h.move hcourse hp hr hnew hearlier hlater hbeside hstuck hmem hmove
            obtain ⟨hprogress, hhonest⟩ := ih hrows' hmoved
            rw [Option.filter_some_pos (by simpa using hmem)]
            simp only [State.setTorrentQueuePosition, hmove]
            exact ⟨hprogress, hhonest.cons r t⟩

end BATorrent.SessionBridge

namespace BATorrent.SessionBridge

open Lib

variable {α : Type}

-- The items the user selected and the one in focus, less those that were removed.
structure Chosen (α : Type) where
  items : List α
  focus : Option α

def chosenAt (session : HttpMergeEngine α) (rows : List Nat) (index : Option Nat) : Chosen α where
  items := rows.filterMap session.torrentHashAt
  focus := index.bind session.torrentHashAt

section Chosen

variable [DecidableEq α]

def Chosen.minus (c : Chosen α) (hash : Option α) : Chosen α where
  items := c.items.filter (some · ≠ hash)
  focus := c.focus.filter (some · ≠ hash)

def chosen (start : State α) : List (Reaction (State α) (Event α) Out) → Chosen α
  | [] => chosenAt start.session start.rows start.selectedIndex
  | r :: past =>
      match r.event with
      | .setSelectedRows rows => chosenAt r.before.session rows rows.getLast?
      | .removeTorrent index => (chosen start past).minus (r.before.session.torrentHashAt index)
      | _ => chosen start past

end Chosen

structure Denotes (s : State α) (c : Chosen α) : Prop where
  rows : (s.rows.map s.session.torrentHashAt).Perm (c.items.map some)
  focus : s.selectedIndex.map s.session.torrentHashAt = c.focus.map some

def State.selected [DecidableEq α] (s : State α) (hash : α) : Bool := some hash ∈ s.rows.map s.session.torrentHashAt

-- What each command does to the torrents. One step takes a selected torrent past the next one, unless
-- all in front of it are selected.
def Moves (p : α → Bool) (old new : List α) : Event α → Prop
  | .queueUpSelected =>
      KeepsOrder p old new ∧ ∀ r x, old[r]? = some x → p x = true →
        new[if (old.take r).all p then r else r - 1]? = some x
  | .queueDownSelected =>
      KeepsOrder p old new ∧ ∀ r x, old[r]? = some x → p x = true →
        new[if (old.drop (r + 1)).all p then r else r + 1]? = some x
  | .queueTopSelected => new = old.filter p ++ old.filter (!p ·)
  | .queueBottomSelected => new = old.filter (!p ·) ++ old.filter p
  | _ => True

structure Faithful [DecidableEq α] (r : Reaction (State α) (Event α) Out) (s : State α) : Prop where
  moves : Moves r.before.selected r.before.session.torrents s.session.torrents r.event
  signals : Honest r.out

-- What the upkeep of the selection takes for granted.
def Allowed (s : State α) : Event α → Prop
  | .addTorrent _ => ∀ r ∈ s.rows, s.session.isHttp r = false
  | .removeTorrent index => s.session.isHttp index = true → ∀ r ∈ s.rows, r < index
  | .queueUpSelected =>
      (∀ r ∈ s.rows, ∃ f, s.selectedIndex = some f ∧ r ≤ f) ∧
        ∀ r ∈ s.rows, (∃ k < r, k ∉ s.rows) → s.session.isHttp r = false
  | .queueDownSelected =>
      (∀ r ∈ s.rows, ∃ f, s.selectedIndex = some f ∧ r ≤ f) ∧
        ∀ r ∈ s.rows, (∃ k < s.session.torrentCount, r < k ∧ k ∉ s.rows) →
          s.session.isHttp (r + 1) = false
  | .queueTopSelected =>
      match s.rows with
      | [r] => 0 < r → s.session.isHttp r = false ∧ s.selectedIndex = some r
      | rows => ∀ r ∈ rows, s.session.isHttp r = false → r = 0
  | .queueBottomSelected =>
      match s.rows with
      | [r] => r < s.session.torrentCount - 1 → s.session.https = [] ∧ s.selectedIndex = some r
      | rows => rows = [] ∨ s.session.https ≠ [] ∧
          ∀ r ∈ rows, ∀ k, r < k → s.session.isHttp k = false → k ∈ rows
  | _ => True

section Rows

variable {s : State α} {c : Chosen α} {session : HttpMergeEngine α}

theorem map_torrentHashAt {rows : List Nat} (h : ∀ r ∈ rows, r < session.torrentCount) :
    rows.map session.torrentHashAt = (rows.filterMap session.torrentHashAt).map some := by
  induction rows with
  | nil => rfl
  | cons r rows ih =>
      obtain ⟨hr, hrows⟩ := List.forall_mem_cons.mp h
      rw [← HttpMergeEngine.length_hashes] at hr
      have hx : session.torrentHashAt r = some session.hashes[r] :=
        HttpMergeEngine.torrentHashAt_eq.trans (List.getElem?_eq_getElem hr)
      rw [List.map_cons, List.filterMap_cons_some hx, List.map_cons, ih hrows, hx]

theorem denotes_chosenAt {rows : List Nat} {index : Option Nat}
    (h : ∀ r ∈ rows, r < session.torrentCount) (hindex : ∀ r, index = some r → r ∈ rows) :
    (rows.map session.torrentHashAt).Perm ((chosenAt session rows index).items.map some) ∧
      index.map session.torrentHashAt = (chosenAt session rows index).focus.map some := by
  refine ⟨.of_eq (map_torrentHashAt h), ?_⟩
  cases index with
  | none => rfl
  | some r =>
      have hr := h r (hindex r rfl)
      rw [← HttpMergeEngine.length_hashes] at hr
      have hx : session.torrentHashAt r = some session.hashes[r] :=
        HttpMergeEngine.torrentHashAt_eq.trans (List.getElem?_eq_getElem hr)
      unfold chosenAt
      rw [Option.map_some, Option.bind_some, hx, Option.map_some]

theorem rows_setSelectedRows (rows : List Nat) : (s.setSelectedRows rows).rows = rows := by
  unfold State.rows State.setSelectedRows resolveRows
  by_cases h : rows = []
  · subst h
    rfl
  · rw [if_pos h]

-- The rows stay what they are where the session answers for them as before.
theorem Denotes.of_session (h : Denotes s c) (hs : Consistent s)
    (hsame : ∀ r ∈ s.rows, session.torrentHashAt r = s.session.torrentHashAt r) :
    Denotes { s with session := session } c := by
  refine ⟨?_, ?_⟩
  · have hmap : s.rows.map session.torrentHashAt = s.rows.map s.session.torrentHashAt :=
      List.map_congr_left hsame
    exact (List.Perm.of_eq hmap).trans h.rows
  · rw [← h.focus]
    cases hindex : s.selectedIndex with
    | none => simp only [Option.map_none]
    | some r => simp only [Option.map_some, hsame r (hs.focus r hindex)]

theorem nodup_rows (hs : Consistent s) : s.rows.Nodup := by
  unfold State.rows resolveRows
  split_ifs
  · exact hs.nodup
  · exact Option.toList_nodup _

theorem Consistent.torrentHashAt_inj (hs : Consistent s) {r k : Nat} (hr : r ∈ s.rows)
    (h : s.session.torrentHashAt r = s.session.torrentHashAt k) : r = k := by
  have hlt := hs.rows r hr
  rw [← HttpMergeEngine.length_hashes] at hlt
  rw [HttpMergeEngine.torrentHashAt_eq, HttpMergeEngine.torrentHashAt_eq] at h
  exact (List.getElem?_inj hlt hs.hashes).mp h

end Rows

section Removal

def shift (index r : Nat) : Nat := if index < r then r - 1 else r

variable {s : State α} {index : Nat}

theorem shift_inj {r q : Nat} (hr : r ≠ index) (hq : q ≠ index) (h : shift index r = shift index q) :
    r = q := by
  unfold shift at h
  split_ifs at h <;> omega

theorem getElem?_shift (l : List α) {r : Nat} (hr : r ≠ index) :
    (l.eraseIdx index)[shift index r]? = l[r]? := by
  unfold shift
  rw [List.getElem?_eraseIdx]
  split_ifs with h h' h'
  · omega
  · rw [Nat.sub_add_cancel (by omega)]
  · rfl
  · omega

theorem mem_rows {r : Nat} (h : r ∈ s.selectedRows) : r ∈ s.rows := by
  unfold State.rows resolveRows
  rwa [if_pos (List.ne_nil_of_mem h)]

theorem filter_shift {rows : List Nat} (h : ∀ r ∈ rows, r < index) :
    (rows.filter (· ≠ index)).map (shift index) = rows := by
  rw [List.filter_eq_self.mpr (by simpa using fun r hr => (h r hr).ne)]
  exact (List.map_congr_left fun r hr => if_neg (h r hr).not_gt).trans (List.map_id _)

-- A direct download goes without a word, so no row may be selected past it.
theorem removeTorrent_rows (hs : Consistent s)
    (hallowed : s.session.isHttp index = true → ∀ r ∈ s.rows, r < index) :
    (s.removeTorrent index).selectedRows = (s.selectedRows.filter (· ≠ index)).map (shift index) ∧
      (s.removeTorrent index).selectedIndex =
        s.selectedIndex.bind fun r => if r = index then none else some (shift index r) := by
  unfold State.removeTorrent HttpMergeEngine.removeTorrent
  by_cases hhttp : s.session.isHttp index = true
  · rw [if_pos hhttp]
    have hlt := hallowed hhttp
    refine ⟨(filter_shift fun r hr => hlt r (mem_rows hr)).symm, ?_⟩
    cases hindex : s.selectedIndex with
    | none => rfl
    | some r =>
        have hr := hlt r (hs.focus r hindex)
        rw [Option.bind_some, if_neg hr.ne, shift, if_neg hr.not_gt]
  · rw [if_neg hhttp]
    exact ⟨rfl, rfl⟩

theorem rows_removeTorrent (hs : Consistent s)
    (hallowed : s.session.isHttp index = true → ∀ r ∈ s.rows, r < index) :
    (s.removeTorrent index).rows = (s.rows.filter (· ≠ index)).map (shift index) := by
  obtain ⟨hrows, hindex⟩ := removeTorrent_rows hs hallowed
  have hfocus := hs.focus
  unfold State.rows resolveRows at hfocus ⊢
  rw [hrows, hindex]
  by_cases hempty : s.selectedRows = []
  · rw [hempty]
    cases s.selectedIndex with
    | none => rfl
    | some r =>
        by_cases hr : r = index
        · simp [hr]
        · simp [hr]
  · rw [if_pos hempty] at hfocus ⊢
    by_cases hgone : s.selectedRows.filter (· ≠ index) = []
    · rw [hgone]
      cases hfocused : s.selectedIndex with
      | none => rfl
      | some r =>
          have hr : r = index := by
            by_contra hne
            exact List.ne_nil_of_mem (List.mem_filter.mpr ⟨hfocus r hfocused, by simpa using hne⟩) hgone
          simp [hr]
    · rw [if_pos (by simpa using hgone)]

theorem hashes_removeTorrent :
    (s.removeTorrent index).session.hashes = s.session.hashes.eraseIdx index := by
  rw [← HttpMergeEngine.hashes_removeTorrent]
  unfold State.removeTorrent
  cases h : s.session.removeTorrent index with
  | mk session signal =>
      cases signal with
      | none => rfl
      | some i => rfl

theorem torrentHashAt_shift {r : Nat} (hr : r ≠ index) :
    (s.removeTorrent index).session.torrentHashAt (shift index r) = s.session.torrentHashAt r := by
  rw [HttpMergeEngine.torrentHashAt_eq, HttpMergeEngine.torrentHashAt_eq, hashes_removeTorrent,
    getElem?_shift _ hr]

theorem Consistent.removeTorrent (hs : Consistent s)
    (hallowed : s.session.isHttp index = true → ∀ r ∈ s.rows, r < index) :
    Consistent (s.removeTorrent index) := by
  obtain ⟨hrows, hindex⟩ := removeTorrent_rows hs hallowed
  have hall := rows_removeTorrent hs hallowed
  constructor
  · rw [hashes_removeTorrent]
    exact hs.hashes.sublist (List.eraseIdx_sublist _ _)
  · rw [hrows]
    refine List.Nodup.map_on ?_ (hs.nodup.filter _)
    intro r hr q hq heq
    exact shift_inj (by simpa using (List.mem_filter.mp hr).2) (by simpa using (List.mem_filter.mp hq).2)
      heq
  · intro r hr
    rw [hall] at hr
    obtain ⟨q, hq, rfl⟩ := List.mem_map.mp hr
    obtain ⟨hq, hne⟩ := List.mem_filter.mp hq
    have hlt := hs.rows q hq
    rw [← HttpMergeEngine.length_hashes] at hlt ⊢
    have hx := getElem?_shift s.session.hashes (by simpa using hne : q ≠ index)
    rw [List.getElem?_eq_getElem hlt, ← hashes_removeTorrent] at hx
    exact (List.getElem?_eq_some_iff.mp hx).1
  · intro r hr
    rw [hall]
    rw [hindex] at hr
    obtain ⟨q, hq, hr⟩ := Option.bind_eq_some_iff.mp hr
    split_ifs at hr with hne
    obtain rfl := Option.some.inj hr
    exact List.mem_map.mpr ⟨q, List.mem_filter.mpr ⟨hs.focus q hq, by simpa using hne⟩, rfl⟩

theorem Denotes.removeTorrent [DecidableEq α] {c : Chosen α} (h : Denotes s c) (hs : Consistent s)
    (hallowed : s.session.isHttp index = true → ∀ r ∈ s.rows, r < index) :
    Denotes (s.removeTorrent index) (c.minus (s.session.torrentHashAt index)) := by
  obtain ⟨hrows, hindex⟩ := removeTorrent_rows hs hallowed
  have hkept : ∀ r ∈ s.rows, (decide (r ≠ index)) =
      decide (s.session.torrentHashAt r ≠ s.session.torrentHashAt index) := by
    intro r hr
    refine decide_eq_decide.mpr (not_congr ⟨fun heq => heq ▸ rfl, hs.torrentHashAt_inj hr⟩)
  constructor
  · have hmap : (s.removeTorrent index).rows.map (s.removeTorrent index).session.torrentHashAt =
        (s.rows.map s.session.torrentHashAt).filter (· ≠ s.session.torrentHashAt index) := by
      rw [rows_removeTorrent hs hallowed, List.map_map, List.filter_map, List.filter_congr hkept]
      refine List.map_congr_left fun r hr => ?_
      refine torrentHashAt_shift fun heq => ?_
      exact absurd (heq ▸ rfl) (of_decide_eq_true (List.mem_filter.mp hr).2)
    rw [hmap]
    refine (h.rows.filter _).trans (.of_eq ?_)
    rw [List.filter_map]
    rfl
  · rw [hindex]
    have hfocus := h.focus
    unfold Chosen.minus
    dsimp only
    cases hfocused : s.selectedIndex with
    | none =>
        rw [hfocused, Option.map_none, eq_comm, Option.map_eq_none_iff] at hfocus
        rw [hfocus]
        rfl
    | some r =>
        rw [hfocused, Option.map_some] at hfocus
        obtain ⟨x, hx, hhash⟩ := Option.map_eq_some_iff.mp hfocus.symm
        have hiff := decide_eq_decide.mp (hkept r (hs.focus r hfocused))
        rw [hx, Option.bind_some]
        by_cases hr : r = index
        · have hgone : some x = s.session.torrentHashAt index := hhash.trans (congrArg _ hr)
          rw [if_pos hr, Option.filter_some_neg (by simpa using hgone)]
          rfl
        · have hstays : some x ≠ s.session.torrentHashAt index := hhash ▸ hiff.mp hr
          rw [if_neg hr, Option.filter_some_pos (by simpa using hstays), Option.map_some,
            Option.map_some, torrentHashAt_shift hr, hhash]

end Removal

section Step

variable [DecidableEq α] {s s' : State α} {c : Chosen α} {rows newRows : List Nat}
  {beside : Nat → Option Nat} {Ahead : Nat → Nat → Prop}

theorem selected_iff (hs : Consistent s) {r : Nat} {x : α} (hx : s.session.hashes[r]? = some x) :
    s.selected x = true ↔ r ∈ s.rows := by
  rw [← HttpMergeEngine.torrentHashAt_eq] at hx
  unfold State.selected
  rw [decide_eq_true_iff, List.mem_map]
  constructor
  · rintro ⟨q, hq, hqx⟩
    exact hs.torrentHashAt_inj hq (hqx.trans hx.symm) ▸ hq
  · intro hr
    exact ⟨r, hr, hx⟩

-- The rows lead to the same items as before, one by one.
theorem Progress.map_eq (h : Progress s beside Ahead rows s.selected rows newRows s') :
    newRows.map s'.session.torrentHashAt = rows.map s.session.torrentHashAt := by
  have hplaced := h.placed
  have hslid := h.slid
  generalize hgoal : Slid beside Ahead rows = R at hplaced hslid
  clear hgoal h
  induction hslid with
  | nil => rfl
  | @cons r t through newRows hrt _ ih =>
      rw [List.map_cons, List.map_cons, ih fun q hq => hplaced q (List.mem_cons_of_mem _ hq),
        HttpMergeEngine.torrentHashAt_eq, HttpMergeEngine.torrentHashAt_eq,
        hplaced r List.mem_cons_self t hrt]

-- What the loop leaves behind, with the row in focus among the new ones.
theorem Progress.denotes (h : Progress s beside Ahead rows s.selected rows newRows s')
    (hs : Consistent s) (hc : Denotes s c) (hperm : rows.Perm s.rows) (hne : s.rows ≠ [])
    (index : Option Nat) (hindex : ∀ r, index = some r → r ∈ newRows)
    (hfocus : index.map s'.session.torrentHashAt = s.selectedIndex.map s.session.torrentHashAt) :
    Consistent { s' with selectedRows := newRows, selectedIndex := index } ∧
      Denotes { s' with selectedRows := newRows, selectedIndex := index } c := by
  have hnew : newRows ≠ [] := by
    rintro rfl
    have hmap := h.map_eq
    rw [List.map_nil, eq_comm, List.map_eq_nil_iff] at hmap
    exact hne (hmap ▸ hperm).symm.eq_nil
  have hrows : ({ s' with selectedRows := newRows, selectedIndex := index } : State α).rows = newRows :=
    if_pos hnew
  have hsnodup := nodup_rows hs
  refine ⟨⟨h.nodup, ?_, ?_, ?_⟩, ⟨?_, hfocus.trans hc.focus⟩⟩
  · refine List.Nodup.of_map s'.session.torrentHashAt ?_
    rw [h.map_eq]
    refine List.Nodup.map_on ?_ (hperm.nodup_iff.mpr hsnodup)
    exact fun r hr q _ heq => hs.torrentHashAt_inj (hperm.subset hr) heq
  · intro t ht
    rw [hrows] at ht
    have hin : s'.session.torrentHashAt t ∈ rows.map s.session.torrentHashAt :=
      h.map_eq ▸ List.mem_map_of_mem ht
    obtain ⟨r, hr, heq⟩ := List.mem_map.mp hin
    have hlt := hs.rows r (hperm.subset hr)
    rw [← HttpMergeEngine.length_hashes] at hlt ⊢
    rw [HttpMergeEngine.torrentHashAt_eq, HttpMergeEngine.torrentHashAt_eq,
      List.getElem?_eq_getElem hlt] at heq
    exact (List.getElem?_eq_some_iff.mp heq.symm).1
  · intro r hr
    rw [hrows]
    exact hindex r hr
  · rw [hrows]
    exact (List.Perm.of_eq h.map_eq).trans ((hperm.map _).trans hc.rows)

theorem Progress.keepsOrder (h : Progress s beside Ahead rows s.selected rows newRows s') :
    KeepsOrder s.selected s.session.torrents s'.session.torrents := by
  obtain ⟨hselected, hothers⟩ := h.order
  unfold HttpMergeEngine.hashes at hselected hothers
  rw [h.https, List.filter_append, List.filter_append] at hselected hothers
  exact ⟨List.append_cancel_right hselected, List.append_cancel_right hothers⟩

end Step

end BATorrent.SessionBridge
