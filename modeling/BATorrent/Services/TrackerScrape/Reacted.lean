import BATorrent.Services.TrackerScrape

namespace BATorrent.TrackerScrape

open Lib
open Lib.DataStream (Bytes putBE getBE getBE_putBE length_putBE)

section Sessions

variable {q : Session} {o : Outcome} {h : Happens} {acts : List Act} {t : Talk} {tx : UInt32}

-- What is the same of every reaction: a session ends once, and its time-out is to come until it has.
structure Sane (q : Session) (o : Outcome) : Prop where
  hashes : o.session.hashes = q.hashes
  done : q.done = true → o.session.done = true
  ends : o.acts.countP Act.finishes = if o.session.done ∧ q.done = false then 1 else 0
  timing : q.done = true ∨ q.timing = true ∧ q.deleted = false →
    o.session.done = true ∨ o.session.timing = true ∧ o.session.deleted = false

theorem sane_finish (q : Session) {acts : List Act} (hacts : acts.countP Act.finishes = 0) : Sane q (q.finish acts) := by
  unfold Session.finish
  cases hdone : q.done with
  | true =>
      rw [if_pos rfl]
      exact ⟨rfl, fun _ => hdone, by simp [hacts, hdone], fun _ => .inl hdone⟩
  | false =>
      rw [if_neg Bool.false_ne_true]
      refine ⟨rfl, fun _ => rfl, ?_, fun _ => .inl rfl⟩
      rw [List.countP_append, hacts]
      simp [hdone, Act.finishes]

theorem sane_quiet (q : Session) (talk : Option Talk) (crashed : Bool) (hacts : acts.countP Act.finishes = 0) :
    Sane q ⟨{ q with talk := talk }, acts, crashed⟩ where
  hashes := rfl
  done := id
  ends := by
    rw [hacts, if_neg]
    rintro ⟨hdone, hnot⟩
    rw [hnot] at hdone
    exact Bool.false_ne_true hdone
  timing := id

theorem sane_send (q : Session) (t : Talk) (hacts : acts.countP Act.finishes = 0) (tx : UInt32) :
    Sane q (q.send t acts tx) := by
  have hwrite : ∀ packet, (acts ++ [Act.write t.addr q.port packet]).countP Act.finishes = 0 := by
    intro packet
    rw [List.countP_append, hacts]
    rfl
  unfold Session.send
  dsimp only
  cases t.batch with
  | negSucc k => exact sane_quiet q _ _ (hwrite _)
  | ofNat i =>
      dsimp only
      cases q.batches[i]? with
      | none => exact sane_quiet q q.talk true rfl
      | some keys => exact sane_quiet q _ _ (hwrite _)

theorem Sane.of_eq {q' : Session} (hsame : Sane q' o) (hhashes : q'.hashes = q.hashes) (hdone : q'.done = q.done)
    (htiming : q.timing = true → q'.timing = true) (hdeleted : q'.deleted = q.deleted) : Sane q o where
  hashes := hsame.hashes.trans hhashes
  done := fun h => hsame.done (hdone.trans h)
  ends := hdone ▸ hsame.ends
  timing := by
    rintro (h | ⟨h, h'⟩)
    · exact .inl (hsame.done (hdone.trans h))
    · exact hsame.timing (.inr ⟨htiming h, hdeleted.trans h'⟩)

theorem sane_advance (q : Session) (t : Talk) (hacts : acts.countP Act.finishes = 0) (tx : UInt32) :
    Sane q (q.advance t acts tx) := by
  unfold Session.advance
  dsimp only
  split_ifs
  · exact (sane_finish _ hacts).of_eq rfl rfl id rfl
  · exact sane_send q _ hacts tx

theorem sane_read (q : Session) (t : Talk) (reply : Bytes) (tx : UInt32) : Sane q (q.read t reply tx) := by
  unfold Session.read
  cases t.batch with
  | negSucc k =>
      dsimp only
      cases parseConnect reply t.tx with
      | none => exact sane_quiet q q.talk false rfl
      | some cid => exact sane_advance q _ rfl tx
  | ofNat i =>
      dsimp only
      cases q.batches[i]? with
      | none => exact sane_quiet q q.talk true rfl
      | some keys =>
          dsimp only
          split_ifs
          · exact sane_quiet q q.talk false rfl
          · exact sane_advance q _ rfl tx

theorem sane_react (hreact : q.react h = some o) : Sane q o := by
  cases h with
  | lookedUp addr bound tx =>
      rw [Session.react] at hreact
      by_cases hgone : q.deleted = true ∨ q.looking = false
      · rw [if_pos hgone] at hreact
        exact absurd hreact nofun
      rw [if_neg hgone] at hreact
      cases addr with
      | none =>
          obtain rfl := Option.some.inj hreact
          exact (sane_finish _ rfl).of_eq rfl rfl id rfl
      | some addr =>
          cases bound with
          | true =>
              obtain rfl := Option.some.inj hreact
              exact (sane_send _ _ rfl tx).of_eq rfl rfl id rfl
          | false =>
              obtain rfl := Option.some.inj hreact
              exact (sane_finish _ rfl).of_eq rfl rfl id rfl
  | datagram reply tx =>
      rw [Session.react] at hreact
      split_ifs at hreact
      obtain ⟨t, -, rfl⟩ := Option.map_eq_some_iff.mp hreact
      exact sane_read q t reply tx
  | timeout =>
      rw [Session.react] at hreact
      split_ifs at hreact
      obtain rfl := Option.some.inj hreact
      have hdone : ({ q with timing := false }.finish []).session.done = true := by
        unfold Session.finish
        split_ifs with h
        · exact h
        · rfl
      have hsane : Sane { q with timing := false } ({ q with timing := false }.finish []) := sane_finish _ rfl
      exact ⟨hsane.hashes, hsane.done, hsane.ends, fun _ => .inl hdone⟩
  | deletes =>
      rw [Session.react] at hreact
      split_ifs at hreact with hready
      obtain rfl := Option.some.inj hreact
      refine ⟨rfl, id, ?_, fun _ => .inl hready.1⟩
      rw [if_neg (by simp [hready.1])]
      rfl

end Sessions

section Late

variable {q : Session} {o : Outcome} {h : Happens} {acts : List Act} {t : Talk} {tx : UInt32}

-- A datagram that is read when the last batch of the tracker has been answered.
def Happens.Late (q : Session) : Happens → Prop
  | .datagram _ _ => ∃ t, q.talk = some t ∧ (q.batches.length : Int) ≤ t.batch
  | _ => False

-- What a talk may be at: the connect, one of the batches, or past the last one when the session has ended.
def Session.Placed (q : Session) : Prop :=
  ∀ t, q.talk = some t → -1 ≤ t.batch ∧ t.batch ≤ q.batches.length ∧ (t.batch = q.batches.length → q.done = true)

theorem finish_crashed (q : Session) (acts : List Act) : (q.finish acts).crashed = false := by
  unfold Session.finish
  split_ifs <;> rfl

theorem finish_talk (q : Session) (acts : List Act) : (q.finish acts).session.talk = q.talk := by
  unfold Session.finish
  split_ifs <;> rfl

theorem finish_done (q : Session) (acts : List Act) : (q.finish acts).session.done = true := by
  unfold Session.finish
  split_ifs with h
  · exact h
  · rfl

theorem finish_hashes (q : Session) (acts : List Act) : (q.finish acts).session.hashes = q.hashes := by
  unfold Session.finish
  split_ifs <;> rfl

theorem placed_finish (hplaced : q.Placed) (acts : List Act) : (q.finish acts).session.Placed := by
  intro t ht
  rw [finish_talk] at ht
  have hsame : (q.finish acts).session.batches = q.batches := congrArg batchKeys (finish_hashes q acts)
  rw [hsame]
  exact ⟨(hplaced t ht).1, (hplaced t ht).2.1, fun _ => finish_done q acts⟩

theorem send_spec (hhigh : t.batch < q.batches.length) :
    (q.send t acts tx).crashed = false ∧ (q.send t acts tx).session = { q with talk := some { t with tx := tx } } := by
  unfold Session.send
  dsimp only
  cases hbatch : t.batch with
  | negSucc k => exact ⟨rfl, rfl⟩
  | ofNat i =>
      have hi : i < q.batches.length := by
        rw [hbatch] at hhigh
        exact Int.ofNat_lt.mp hhigh
      dsimp only
      rw [List.getElem?_eq_getElem hi]
      exact ⟨rfl, rfl⟩

theorem placed_send (hlow : -1 ≤ t.batch) (hhigh : t.batch < q.batches.length) : (q.send t acts tx).session.Placed := by
  rw [(send_spec hhigh).2]
  intro t' ht'
  obtain rfl := Option.some.inj ht'
  have hsame : Session.batches { q with talk := some { t with tx := tx } } = q.batches := rfl
  rw [hsame]
  dsimp only
  exact ⟨hlow, hhigh.le, fun h => absurd h hhigh.ne⟩

theorem advance_spec (hlow : -1 ≤ t.batch) (hhigh : t.batch < q.batches.length) :
    (q.advance t acts tx).crashed = false ∧ (q.advance t acts tx).session.Placed := by
  unfold Session.advance
  dsimp only
  split_ifs with hlast
  · refine ⟨finish_crashed _ _, fun t' ht' => ?_⟩
    rw [finish_talk] at ht'
    obtain rfl := Option.some.inj ht'
    have hsame : Session.batches ({ q with talk := some { t with batch := t.batch + 1 } }.finish acts).session = q.batches :=
      congrArg batchKeys (finish_hashes _ acts)
    rw [hsame]
    dsimp only
    exact ⟨by omega, by omega, fun _ => finish_done _ _⟩
  · have hlow' : -1 ≤ t.batch + 1 := by omega
    have hhigh' : t.batch + 1 < q.batches.length := by omega
    exact ⟨(@send_spec q acts { t with batch := t.batch + 1 } tx hhigh').1,
      @placed_send q acts { t with batch := t.batch + 1 } tx hlow' hhigh'⟩

theorem placed_of_eq {q' : Session} (hplaced : q.Placed) (htalk : q'.talk = q.talk) (hhashes : q'.hashes = q.hashes)
    (hdone : q.done = true → q'.done = true) : q'.Placed := by
  intro t ht
  have hsame : q'.batches = q.batches := congrArg batchKeys hhashes
  rw [hsame]
  obtain ⟨hlow, hhigh, hend⟩ := hplaced t (htalk ▸ ht)
  exact ⟨hlow, hhigh, fun h => hdone (hend h)⟩

theorem read_spec (hplaced : q.Placed) (ht : q.talk = some t) (reply : Bytes) :
    ((q.read t reply tx).crashed = true ↔ (q.batches.length : Int) ≤ t.batch) ∧
    ((q.read t reply tx).crashed = false → (q.read t reply tx).session.Placed) := by
  obtain ⟨hlow, hhigh, -⟩ := hplaced t ht
  by_cases hlate : (q.batches.length : Int) ≤ t.batch
  · have hcrashed : (q.read t reply tx).crashed = true := by
      unfold Session.read
      cases hbatch : t.batch with
      | negSucc k =>
          rw [hbatch] at hlate
          exact absurd hlate (by have := Int.negSucc_lt_zero k; omega)
      | ofNat i =>
          have hi : q.batches.length ≤ i := by
            rw [hbatch] at hlate
            exact Int.ofNat_le.mp hlate
          dsimp only
          rw [List.getElem?_eq_none hi]
    exact ⟨iff_of_true hcrashed hlate, fun h => absurd (hcrashed.symm.trans h) (Bool.false_ne_true ∘ Eq.symm)⟩
  · suffices hok : (q.read t reply tx).crashed = false ∧ (q.read t reply tx).session.Placed from
      ⟨iff_of_false (by rw [hok.1]; exact Bool.false_ne_true) hlate, fun _ => hok.2⟩
    have hhigh' : t.batch < q.batches.length := by omega
    unfold Session.read
    cases hbatch : t.batch with
    | negSucc k =>
        dsimp only
        cases parseConnect reply t.tx with
        | none => exact ⟨rfl, hplaced⟩
        | some cid =>
            have hadvance := @advance_spec q [] { t with cid := cid } tx hlow hhigh'
            rw [hbatch] at hadvance
            exact hadvance
    | ofNat i =>
        have hi : i < q.batches.length := by
          rw [hbatch] at hhigh'
          exact Int.ofNat_lt.mp hhigh'
        dsimp only
        rw [List.getElem?_eq_getElem hi]
        dsimp only
        split_ifs
        · exact ⟨rfl, hplaced⟩
        · exact advance_spec hlow hhigh'

theorem react_spec (hplaced : q.Placed) (hreact : q.react h = some o) :
    (o.crashed = true ↔ h.Late q) ∧ (o.crashed = false → o.session.Placed) := by
  cases h with
  | lookedUp addr bound tx =>
      have hquiet : ∀ {o : Outcome}, o.crashed = false → o.session.Placed →
          (o.crashed = true ↔ Happens.Late q (.lookedUp addr bound tx)) ∧ (o.crashed = false → o.session.Placed) :=
        fun hno hp => ⟨iff_of_false (by rw [hno]; exact Bool.false_ne_true) id, fun _ => hp⟩
      have hstart : ({ q with looking := false } : Session).Placed := placed_of_eq hplaced rfl rfl id
      rw [Session.react] at hreact
      by_cases hgone : q.deleted = true ∨ q.looking = false
      · rw [if_pos hgone] at hreact
        exact absurd hreact nofun
      rw [if_neg hgone] at hreact
      cases addr with
      | none =>
          obtain rfl := Option.some.inj hreact
          exact hquiet (finish_crashed _ _) (placed_finish hstart _)
      | some addr =>
          cases bound with
          | true =>
              obtain rfl := Option.some.inj hreact
              have hhigh : (-1 : Int) < (Session.batches { q with looking := false }).length := by omega
              exact hquiet (@send_spec { q with looking := false } [] ⟨addr, tx, 0, -1⟩ tx hhigh).1
                (@placed_send { q with looking := false } [] ⟨addr, tx, 0, -1⟩ tx (Int.le_refl _) hhigh)
          | false =>
              obtain rfl := Option.some.inj hreact
              exact hquiet (finish_crashed _ _) (placed_finish hstart _)
  | datagram reply tx =>
      rw [Session.react] at hreact
      split_ifs at hreact
      obtain ⟨t, ht, rfl⟩ := Option.map_eq_some_iff.mp hreact
      obtain ⟨hcrash, hnext⟩ := @read_spec q t tx hplaced ht reply
      refine ⟨hcrash.trans ⟨fun hlate => ⟨t, ht, hlate⟩, ?_⟩, hnext⟩
      rintro ⟨t', ht', hlate⟩
      rw [Option.some.inj (ht.symm.trans ht')]
      exact hlate
  | timeout =>
      rw [Session.react] at hreact
      split_ifs at hreact
      obtain rfl := Option.some.inj hreact
      refine ⟨iff_of_false (by rw [finish_crashed]; exact Bool.false_ne_true) id, fun _ => placed_finish ?_ _⟩
      exact placed_of_eq hplaced rfl rfl id
  | deletes =>
      rw [Session.react] at hreact
      split_ifs at hreact
      obtain rfl := Option.some.inj hreact
      exact ⟨iff_of_false Bool.false_ne_true id, fun _ => placed_of_eq hplaced rfl rfl id⟩

end Late

end BATorrent.TrackerScrape
