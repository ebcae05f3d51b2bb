import BATorrent.Services.TrackerScrape.Reacted

namespace BATorrent.TrackerScrape

open Lib Machine
open Lib.DataStream (Bytes putBE getBE getBE_putBE length_putBE)

section Replies

variable {q : Session} {o : Outcome} {h : Happens} {acts : List Act} {t : Talk} {tx : UInt32}

-- The request for the batch that a talk is at is among these.
def Session.Wired (q : Session) (sent : Act → Prop) : Prop :=
  ∀ t b keys, q.talk = some t → t.batch = Int.ofNat b → q.batches[b]? = some keys →
    sent (.write t.addr q.port (scrapeRequest t.cid t.tx (raw keys)))

theorem finish_port (q : Session) (acts : List Act) : (q.finish acts).session.port = q.port := by
  unfold Session.finish
  split_ifs <;> rfl

theorem wired_of_eq {q' : Session} {sent : Act → Prop} (hwired : q.Wired sent) (htalk : q'.talk = q.talk)
    (hhashes : q'.hashes = q.hashes) (hport : q'.port = q.port) : q'.Wired sent := by
  intro t b keys ht hb hkeys
  rw [hport]
  have hsame : q'.batches = q.batches := congrArg batchKeys hhashes
  exact hwired t b keys (htalk ▸ ht) hb (hsame ▸ hkeys)

theorem wired_finish {sent : Act → Prop} (hwired : q.Wired sent) (acts : List Act) : (q.finish acts).session.Wired sent :=
  wired_of_eq hwired (finish_talk q acts) (finish_hashes q acts) (finish_port q acts)

theorem wired_send (hhigh : t.batch < q.batches.length) : (q.send t acts tx).session.Wired (· ∈ (q.send t acts tx).acts) := by
  intro t' b keys ht' hb hkeys
  rw [(send_spec hhigh).2] at ht' hkeys ⊢
  obtain rfl := Option.some.inj ht'
  have hbatch : t.batch = Int.ofNat b := hb
  have hi : q.batches[b]? = some keys := hkeys
  unfold Session.send
  dsimp only
  rw [hbatch]
  dsimp only
  rw [hi]
  exact List.mem_append_right _ (List.mem_singleton_self _)

theorem wired_advance (hlow : -1 ≤ t.batch) (hhigh : t.batch < q.batches.length) :
    (q.advance t acts tx).session.Wired (· ∈ (q.advance t acts tx).acts) := by
  unfold Session.advance
  dsimp only
  split_ifs with hlast
  · intro t' b keys ht' hb hkeys
    rw [finish_talk] at ht'
    obtain rfl := Option.some.inj ht'
    have hsame : Session.batches ({ q with talk := some { t with batch := t.batch + 1 } }.finish acts).session = q.batches :=
      congrArg batchKeys (finish_hashes _ acts)
    rw [hsame] at hkeys
    obtain ⟨hlt, -⟩ := List.getElem?_eq_some_iff.mp hkeys
    have hnext : t.batch + 1 = Int.ofNat b := hb
    rw [hnext] at hlast
    exact absurd (Int.ofNat_le.mp hlast) (Nat.not_le.mpr hlt)
  · have hhigh' : t.batch + 1 < q.batches.length := by omega
    exact @wired_send q acts { t with batch := t.batch + 1 } tx hhigh'

theorem Session.Wired.mono {sent sent' : Act → Prop} (hwired : q.Wired sent) (hmono : ∀ a, sent a → sent' a) :
    q.Wired sent' := fun t b keys ht hb hkeys => hmono _ (hwired t b keys ht hb hkeys)

theorem wired_read {sent : Act → Prop} (hplaced : q.Placed) (hwired : q.Wired sent) (ht : q.talk = some t) (reply : Bytes) :
    (q.read t reply tx).session.Wired fun a => a ∈ (q.read t reply tx).acts ∨ sent a := by
  obtain ⟨hlow, hhigh, -⟩ := hplaced t ht
  have hkept : q.Wired fun a => a ∈ ([] : List Act) ∨ sent a := hwired.mono fun _ => .inr
  by_cases hlate : (q.batches.length : Int) ≤ t.batch
  · unfold Session.read
    cases hbatch : t.batch with
    | negSucc k =>
        rw [hbatch] at hlate
        exact absurd hlate (by have := Int.negSucc_lt_zero k; omega)
    | ofNat i =>
        have hi : q.batches.length ≤ i := by
          rw [hbatch] at hlate
          exact Int.ofNat_le.mp hlate
        dsimp only
        rw [List.getElem?_eq_none hi]
        exact hkept
  · have hhigh' : t.batch < q.batches.length := by omega
    unfold Session.read
    cases hbatch : t.batch with
    | negSucc k =>
        dsimp only
        cases parseConnect reply t.tx with
        | none => exact hkept
        | some cid =>
            have hadvance := @wired_advance q [] { t with cid := cid } tx hlow hhigh'
            rw [hbatch] at hadvance
            exact hadvance.mono fun _ => .inl
    | ofNat i =>
        dsimp only
        cases q.batches[i]? with
        | none => exact hkept
        | some keys =>
            dsimp only
            split_ifs
            · exact hkept
            · exact (wired_advance hlow hhigh').mono fun _ => .inl

theorem wired_react {sent : Act → Prop} (hplaced : q.Placed) (hwired : q.Wired sent) (hreact : q.react h = some o) :
    o.session.Wired fun a => a ∈ o.acts ∨ sent a := by
  cases h with
  | lookedUp addr bound tx =>
      have hstart : ({ q with looking := false } : Session).Wired sent := wired_of_eq hwired rfl rfl rfl
      rw [Session.react] at hreact
      by_cases hgone : q.deleted = true ∨ q.looking = false
      · rw [if_pos hgone] at hreact
        cases hreact
      rw [if_neg hgone] at hreact
      cases addr with
      | none =>
          obtain rfl := Option.some.inj hreact
          exact (wired_finish hstart _).mono fun _ => .inr
      | some addr =>
          cases bound with
          | true =>
              obtain rfl := Option.some.inj hreact
              have hhigh : (-1 : Int) < (Session.batches { q with looking := false }).length := by omega
              exact (@wired_send { q with looking := false } [] ⟨addr, tx, 0, -1⟩ tx hhigh).mono fun _ => .inl
          | false =>
              obtain rfl := Option.some.inj hreact
              exact (wired_finish hstart _).mono fun _ => .inr
  | datagram reply tx =>
      rw [Session.react] at hreact
      split_ifs at hreact
      obtain ⟨t, ht, rfl⟩ := Option.map_eq_some_iff.mp hreact
      exact wired_read hplaced hwired ht reply
  | timeout =>
      rw [Session.react] at hreact
      split_ifs at hreact
      obtain rfl := Option.some.inj hreact
      have hstart : ({ q with timing := false } : Session).Wired sent := wired_of_eq hwired rfl rfl rfl
      exact (wired_finish hstart _).mono fun _ => .inr
  | deletes =>
      rw [Session.react] at hreact
      split_ifs at hreact
      obtain rfl := Option.some.inj hreact
      have hstart : ({ q with deleted := true } : Session).Wired sent := wired_of_eq hwired rfl rfl rfl
      exact hstart.mono fun _ => .inr

end Replies

section Counted

variable {q : Session} {o : Outcome} {h : Happens} {acts : List Act} {t : Talk} {tx : UInt32}
  {m : AList fun _ : Text => Counts}

-- A reply to the request with this id, with one count for each of so many hashes.
structure Answers (reply : Bytes) (tx : UInt32) (hashCount : Nat) : Prop where
  length : 8 + 12 * hashCount ≤ reply.length
  action : get32 reply 0 = kActionScrape
  id : get32 reply 4 = tx.toNat

theorem counts_finish (hm : .counts m ∈ (q.finish acts).acts) : .counts m ∈ acts := by
  unfold Session.finish at hm
  split_ifs at hm
  · exact hm
  · exact (List.mem_append.mp hm).resolve_right (by simp)

theorem counts_send (hm : .counts m ∈ (q.send t acts tx).acts) : .counts m ∈ acts := by
  unfold Session.send at hm
  dsimp only at hm
  cases hbatch : t.batch with
  | negSucc k =>
      rw [hbatch] at hm
      exact (List.mem_append.mp hm).resolve_right (by simp)
  | ofNat i =>
      rw [hbatch] at hm
      dsimp only at hm
      cases hkeys : q.batches[i]? with
      | none =>
          rw [hkeys] at hm
          exact absurd hm List.not_mem_nil
      | some keys =>
          rw [hkeys] at hm
          exact (List.mem_append.mp hm).resolve_right (by simp)

theorem counts_advance (hm : .counts m ∈ (q.advance t acts tx).acts) : .counts m ∈ acts := by
  unfold Session.advance at hm
  dsimp only at hm
  split_ifs at hm
  · exact counts_finish hm
  · exact counts_send hm

theorem parseScrape_ne_nil {reply : Bytes} {n : Nat} (hne : parseScrape reply tx n ≠ []) :
    Answers reply tx n ∧ parseScrape reply tx n = (List.range n).map (countsAt reply) := by
  unfold parseScrape at hne ⊢
  by_cases hno : reply.length < 8 + 12 * n ∨ get32 reply 0 ≠ kActionScrape ∨ get32 reply 4 ≠ tx.toNat
  · rw [if_pos hno] at hne
    exact absurd rfl hne
  · rw [if_neg hno]
    obtain ⟨hlength, haction, hid⟩ := not_or.mp hno |>.imp_right not_or.mp
    exact ⟨⟨Nat.le_of_not_lt hlength, not_not.mp haction, not_not.mp hid⟩, rfl⟩

theorem counts_read {reply : Bytes} (hm : .counts m ∈ (q.read t reply tx).acts) : ∃ b keys, t.batch = Int.ofNat b ∧
    q.batches[b]? = some keys ∧ Answers reply t.tx keys.length ∧
      m = byHash keys ((List.range keys.length).map (countsAt reply)) := by
  unfold Session.read at hm
  cases hbatch : t.batch with
  | negSucc k =>
      rw [hbatch] at hm
      dsimp only at hm
      cases hcid : parseConnect reply t.tx with
      | none =>
          rw [hcid] at hm
          exact absurd hm List.not_mem_nil
      | some cid =>
          rw [hcid] at hm
          exact absurd (counts_advance hm) List.not_mem_nil
  | ofNat i =>
      rw [hbatch] at hm
      dsimp only at hm
      cases hkeys : q.batches[i]? with
      | none =>
          rw [hkeys] at hm
          exact absurd hm List.not_mem_nil
      | some keys =>
          rw [hkeys] at hm
          dsimp only at hm
          split_ifs at hm with hempty
          · exact absurd hm List.not_mem_nil
          · obtain ⟨hanswers, hgot⟩ := parseScrape_ne_nil hempty
            have hsame := List.mem_singleton.mp (counts_advance hm)
            rw [hgot] at hsame
            exact ⟨i, keys, rfl, hkeys, hanswers, Act.counts.inj hsame⟩

theorem counts_react (hreact : q.react h = some o) (hm : .counts m ∈ o.acts) :
    ∃ reply tx t b keys, h = .datagram reply tx ∧ q.talk = some t ∧ t.batch = Int.ofNat b ∧ q.batches[b]? = some keys ∧
      Answers reply t.tx keys.length ∧ m = byHash keys ((List.range keys.length).map (countsAt reply)) := by
  cases h with
  | lookedUp addr bound tx =>
      rw [Session.react] at hreact
      by_cases hgone : q.deleted = true ∨ q.looking = false
      · rw [if_pos hgone] at hreact
        cases hreact
      rw [if_neg hgone] at hreact
      cases addr with
      | none =>
          obtain rfl := Option.some.inj hreact
          exact absurd (counts_finish hm) List.not_mem_nil
      | some addr =>
          cases bound with
          | true =>
              obtain rfl := Option.some.inj hreact
              exact absurd (counts_send hm) List.not_mem_nil
          | false =>
              obtain rfl := Option.some.inj hreact
              exact absurd (counts_finish hm) List.not_mem_nil
  | datagram reply tx =>
      rw [Session.react] at hreact
      split_ifs at hreact
      obtain ⟨t, ht, rfl⟩ := Option.map_eq_some_iff.mp hreact
      obtain ⟨b, keys, hb, hkeys, hanswers, hsame⟩ := counts_read hm
      exact ⟨reply, tx, t, b, keys, rfl, ht, hb, hkeys, hanswers, hsame⟩
  | timeout =>
      rw [Session.react] at hreact
      split_ifs at hreact
      obtain rfl := Option.some.inj hreact
      exact absurd (counts_finish hm) List.not_mem_nil
  | deletes =>
      rw [Session.react] at hreact
      split_ifs at hreact
      obtain rfl := Option.some.inj hreact
      exact absurd hm List.not_mem_nil

-- The counts under a hash are those at a position of the hash.
theorem lookup_byHash {keys : List Text} {f : Nat → Counts} {k : Text} {c : Counts}
    (hlookup : (byHash keys ((List.range keys.length).map f)).lookup k = some c) : ∃ p, keys[p]? = some k ∧ c = f p := by
  have hfold : ∀ (l : List (Text × Counts)) (m : AList fun _ : Text => Counts),
      (l.foldl (fun m e => m.insert e.1 e.2) m).lookup k = some c → (k, c) ∈ l ∨ m.lookup k = some c := by
    intro l
    induction l with
    | nil => exact fun m h => .inr h
    | cons e l ih =>
        intro m h
        rcases ih _ h with hmem | hrest
        · exact .inl (List.mem_cons_of_mem _ hmem)
        · by_cases hk : k = e.1
          · rw [hk, AList.lookup_insert, Option.some_inj] at hrest
            exact .inl (by rw [hk, ← hrest]; exact List.mem_cons_self)
          · rw [AList.lookup_insert_ne hk] at hrest
            exact .inr hrest
  rcases hfold _ _ hlookup with hmem | hempty
  · obtain ⟨p, hp, hpair⟩ := List.mem_iff_getElem.mp hmem
    rw [List.getElem_zip, List.getElem_map, List.getElem_range] at hpair
    obtain ⟨hkey, hcount⟩ := Prod.mk.inj hpair
    exact ⟨p, List.getElem?_eq_some_iff.mpr ⟨_, hkey⟩, hcount.symm⟩
  · exact absurd hempty nofun

theorem mem_byHash {keys : List Text} {f : Nat → Counts} {k : Text} (hk : k ∈ keys) :
    k ∈ byHash keys ((List.range keys.length).map f) := by
  have hfold : ∀ (l : List (Text × Counts)) (m : AList fun _ : Text => Counts),
      (k ∈ l.map Prod.fst ∨ k ∈ m) → k ∈ l.foldl (fun m e => m.insert e.1 e.2) m := by
    intro l
    induction l with
    | nil => exact fun m h => h.resolve_left List.not_mem_nil
    | cons e l ih =>
        intro m h
        refine ih _ ?_
        rw [AList.mem_insert]
        rcases h with hmem | hm
        · rcases List.mem_cons.mp hmem with hfirst | hrest
          · exact .inr (.inl hfirst)
          · exact .inl hrest
        · exact .inr (.inr hm)
  refine hfold _ _ (.inl ?_)
  rw [List.map_fst_zip (by simp)]
  exact hk

end Counted

section Totals

variable {s s' : State} {e : Event} {out : List Out} {past : List (Reaction State Event Out)}

def endsOf (i : Nat) : Out → Bool
  | .act j a => j = i && a.finishes
  | .finished => false

def isFinished : Out → Bool
  | .finished => true
  | .act _ _ => false

def Event.Late (s : State) : Event → Prop
  | .tracker i h => ∃ q, s.sessions[i]? = some q ∧ h.Late q
  | .later => False

structure Accounted (past : List (Reaction State Event Out)) (s : State) : Prop where
  ends : ∀ i q, s.sessions[i]? = some q → (log past).countP (endsOf i) = if q.done then 1 else 0
  timing : ∀ q ∈ s.sessions, q.done = true ∨ q.timing = true ∧ q.deleted = false
  pending : s.pending = s.sessions.countP fun q => !q.done
  finished : (log past).countP isFinished = if s.pending = 0 ∧ s.idle = false then 1 else 0
  idle : s.idle = true → s.sessions = []
  placed : s.crashed = false → ∀ q ∈ s.sessions, q.Placed
  wired : s.crashed = false → ∀ i (q : Session), s.sessions[i]? = some q → q.Wired fun a => .act i a ∈ log past

theorem ends_took (i j : Nat) (o : Outcome) (s : State) : (took s j o).2.countP (endsOf i) =
    if j = i then o.acts.countP Act.finishes else 0 := by
  unfold took
  dsimp only
  rw [List.countP_append, List.countP_map]
  have hlast : ∀ c : Prop, [Decidable c] → (if c then [Out.finished] else []).countP (endsOf i) = 0 := by
    intro c _
    split_ifs <;> rfl
  rw [hlast, Nat.add_zero]
  split_ifs with hij
  · subst hij
    exact List.countP_congr fun a _ => by simp [endsOf]
  · exact List.countP_eq_zero.mpr fun a _ => by simp [endsOf, hij]

theorem finished_took (j : Nat) (o : Outcome) (s : State) : (took s j o).2.countP isFinished =
    if o.acts.any Act.finishes ∧ (took s j o).1.pending = 0 then 1 else 0 := by
  unfold took
  dsimp only
  rw [List.countP_append, List.countP_map, List.countP_eq_zero.mpr (fun a _ => by simp [isFinished]), Nat.zero_add]
  split_ifs <;> rfl

theorem any_finishes {q : Session} {o : Outcome} (hsane : Sane q o) :
    o.acts.any Act.finishes = true ↔ o.session.done = true ∧ q.done = false := by
  rw [List.any_eq_true]
  constructor
  · rintro ⟨a, ha, hends⟩
    by_contra hno
    have hcount := hsane.ends
    rw [if_neg hno] at hcount
    exact List.countP_eq_zero.mp hcount a ha hends
  · intro hyes
    have hcount := hsane.ends
    rw [if_pos hyes] at hcount
    exact List.countP_pos_iff.mp (by omega)

theorem pending_took {j : Nat} {q : Session} {o : Outcome} (hq : s.sessions[j]? = some q) (hsane : Sane q o)
    (hpending : s.pending = s.sessions.countP fun q => !q.done) :
    (took s j o).1.pending = (took s j o).1.sessions.countP fun q => !q.done := by
  obtain ⟨hj, hget⟩ := List.getElem?_eq_some_iff.mp hq
  have hset := List.countP_set (p := fun q : Session => !q.done) (a := o.session) hj
  rw [hget] at hset
  have hpos : q.done = false → 0 < s.sessions.countP fun q => !q.done := fun hno =>
    List.countP_pos_iff.mpr ⟨q, hget ▸ List.getElem_mem hj, by simp [hno]⟩
  have hends := any_finishes hsane
  unfold took
  dsimp only
  rw [hset, hpending]
  cases hdone : q.done with
  | true =>
      have hafter := hsane.done hdone
      have hnone : o.acts.any Act.finishes = false := by
        rw [Bool.eq_false_iff]
        exact fun h => Bool.false_ne_true ((hends.mp h).2.symm.trans hdone)
      simp [hafter, hnone]
  | false =>
      cases hafter : o.session.done with
      | true =>
          rw [hends.mpr ⟨hafter, hdone⟩]
          have := hpos hdone
          simp only [Bool.not_false, Bool.not_true, Bool.false_eq_true, if_true, if_false, Nat.add_zero]
          omega
      | false =>
          have hnone : o.acts.any Act.finishes = false := by
            rw [Bool.eq_false_iff]
            exact fun h => Bool.false_ne_true (hafter.symm.trans (hends.mp h).1)
          have := hpos hdone
          rw [hnone]
          simp only [Bool.not_false, Bool.false_eq_true, if_true, if_false]
          omega

theorem getElem?_took {j : Nat} {o : Outcome} {i : Nat} {q' : Session}
    (hq' : (took s j o).1.sessions[i]? = some q') : (j = i ∧ q' = o.session) ∨ (j ≠ i ∧ s.sessions[i]? = some q') := by
  have hset : (s.sessions.set j o.session)[i]? = some q' := hq'
  by_cases hij : j = i
  · subst hij
    obtain ⟨hj, hget⟩ := List.getElem?_eq_some_iff.mp hset
    rw [List.getElem_set_self] at hget
    exact .inl ⟨rfl, hget.symm⟩
  · rw [List.getElem?_set_ne hij] at hset
    exact .inr ⟨hij, hset⟩

theorem accounted_took {j : Nat} {h : Happens} {q : Session} {o : Outcome} (hacc : Accounted past s) (hok : s.crashed = false)
    (hq : s.sessions[j]? = some q) (hreact : q.react h = some o) :
    Accounted (⟨s, .tracker j h, (took s j o).2⟩ :: past) (took s j o).1 := by
  have hsane := sane_react hreact
  have hmem : q ∈ s.sessions := List.mem_of_getElem? hq
  have hplaced := hacc.placed hok q hmem
  have hpending := pending_took hq hsane hacc.pending
  have hlog : ∀ p : Out → Bool, (log (⟨s, .tracker j h, (took s j o).2⟩ :: past)).countP p =
      (took s j o).2.countP p + (log past).countP p := fun p => List.countP_append
  have hidle : s.idle = false := by
    rw [Bool.eq_false_iff]
    intro hidle
    rw [hacc.idle hidle] at hmem
    exact absurd hmem List.not_mem_nil
  refine ⟨fun i q' hq' => ?_, fun q' hq' => ?_, hpending, ?_, fun h => absurd (hidle.symm.trans h) Bool.false_ne_true,
    fun hno q' hq' => ?_, fun hno i q' hq' => ?_⟩
  · rw [hlog, ends_took]
    rcases getElem?_took hq' with ⟨rfl, rfl⟩ | ⟨hij, hsame⟩
    · rw [if_pos rfl, hsane.ends, hacc.ends j q hq]
      cases hdone : q.done with
      | true => simp [hsane.done hdone]
      | false => simp
    · rw [if_neg hij, Nat.zero_add]
      exact hacc.ends i q' hsame
  · obtain ⟨i, hi, rfl⟩ := List.mem_iff_getElem.mp hq'
    rcases getElem?_took (List.getElem?_eq_getElem hi) with ⟨-, hsame⟩ | ⟨-, hsame⟩
    · rw [hsame]
      exact hsane.timing (hacc.timing q hmem)
    · exact hacc.timing _ (List.mem_of_getElem? hsame)
  · rw [hlog, finished_took, hacc.finished]
    have hkept : (took s j o).1.idle = s.idle := rfl
    rw [hkept, hidle]
    by_cases hends : o.acts.any Act.finishes = true
    · have hpos : s.pending ≠ 0 := by
        rw [hacc.pending]
        have hlt : 0 < s.sessions.countP fun q => !q.done :=
          List.countP_pos_iff.mpr ⟨q, hmem, by simp [((any_finishes hsane).mp hends).2]⟩
        omega
      simp [hends, hpos]
    · have hsame : (took s j o).1.pending = s.pending := by
        unfold took
        exact if_neg hends
      simp [hends, hsame]
  · obtain ⟨i, hi, rfl⟩ := List.mem_iff_getElem.mp hq'
    rcases getElem?_took (List.getElem?_eq_getElem hi) with ⟨-, hsame⟩ | ⟨-, hsame⟩
    · rw [hsame]
      exact (react_spec hplaced hreact).2 hno
    · exact hacc.placed hok _ (List.mem_of_getElem? hsame)
  · rcases getElem?_took hq' with ⟨rfl, rfl⟩ | ⟨-, hsame⟩
    · refine (wired_react hplaced (hacc.wired hok j q hq) hreact).mono fun a ha => ?_
      rcases ha with hnew | hold
      · exact List.mem_append_left _ (List.mem_append_left _ (List.mem_map_of_mem hnew))
      · exact List.mem_append_right _ hold
    · exact (hacc.wired hok i q' hsame).mono fun a ha => List.mem_append_right _ ha

-- What a step can be: the late end of a scrape of no trackers, or the reaction of one session.
theorem next_cases (hnext : next s e = some (s', out)) : s.crashed = false ∧
    ((e = .later ∧ s.idle = true ∧ s' = { s with idle := false } ∧ out = [.finished]) ∨
      ∃ j h q o, e = .tracker j h ∧ s.sessions[j]? = some q ∧ q.react h = some o ∧ s' = (took s j o).1 ∧
        out = (took s j o).2) := by
  cases e with
  | later =>
      rw [next] at hnext
      split_ifs at hnext with hno
      obtain ⟨hok, hidle⟩ := not_or.mp hno
      obtain ⟨rfl, rfl⟩ := Prod.mk.inj (Option.some.inj hnext)
      exact ⟨Bool.eq_false_iff.mpr hok, .inl ⟨rfl, Bool.eq_true_of_not_eq_false hidle, rfl, rfl⟩⟩
  | tracker j h =>
      rw [next] at hnext
      split_ifs at hnext with hno
      obtain ⟨q, hq, hmap⟩ := Option.bind_eq_some_iff.mp hnext
      obtain ⟨o, ho, htook⟩ := Option.map_eq_some_iff.mp hmap
      exact ⟨Bool.eq_false_iff.mpr hno, .inr ⟨j, h, q, o, rfl, hq, ho, (congrArg Prod.fst htook).symm,
        (congrArg Prod.snd htook).symm⟩⟩

theorem accounted_next (hacc : Accounted past s) (hnext : next s e = some (s', out)) :
    Accounted (⟨s, e, out⟩ :: past) s' := by
  obtain ⟨hok, ⟨rfl, hidle, rfl, rfl⟩ | ⟨j, h, q, o, rfl, hq, hreact, rfl, rfl⟩⟩ := next_cases hnext
  · have hnone := hacc.idle hidle
    refine ⟨fun i q hq => ?_, hacc.timing, hacc.pending, ?_, fun h => absurd h Bool.false_ne_true, hacc.placed,
      fun hok i q hq => ?_⟩
    · rw [hnone] at hq
      exact absurd hq nofun
    · have hlog : (log (⟨s, .later, [.finished]⟩ :: past)).countP isFinished = 1 + (log past).countP isFinished :=
        List.countP_append
      have hzero : s.pending = 0 := by rw [hacc.pending, hnone]; rfl
      rw [hlog, hacc.finished, hidle]
      simp [hzero]
    · rw [hnone] at hq
      exact absurd hq nofun
  · exact accounted_took hacc hok hq hreact

theorem accounted_init (trackersByHash : List (Text × List Text)) : Accounted [] (scrape trackersByHash) := by
  have hsession : ∀ q ∈ (scrape trackersByHash).sessions, ∃ a, q = askTracker a := by
    intro q hq
    obtain ⟨a, -, rfl⟩ := List.mem_map.mp hq
    exact ⟨a, rfl⟩
  refine ⟨fun i q hq => ?_, fun q hq => ?_, ?_, ?_, of_decide_eq_true, fun _ q hq => ?_, fun _ i q hq => ?_⟩
  · obtain ⟨a, rfl⟩ := hsession q (List.mem_of_getElem? hq)
    rfl
  · obtain ⟨a, rfl⟩ := hsession q hq
    exact .inr ⟨rfl, rfl⟩
  · have hall : (scrape trackersByHash).sessions.countP (fun q => !q.done) = (scrape trackersByHash).sessions.length := by
      refine List.countP_eq_length.mpr fun q hq => ?_
      obtain ⟨a, rfl⟩ := hsession q hq
      rfl
    rw [hall]
    rfl
  · refine (if_neg ?_).symm
    rintro ⟨hzero, hidle⟩
    have hlength : (scrape trackersByHash).sessions.length = 0 := Int.ofNat_eq_zero.mp hzero
    exact of_decide_eq_false hidle (List.length_eq_zero_iff.mp hlength)
  · obtain ⟨a, rfl⟩ := hsession q hq
    exact nofun
  · obtain ⟨a, rfl⟩ := hsession q (List.mem_of_getElem? hq)
    exact nofun

theorem accounted_run {trackersByHash : List (Text × List Text)}
    (hrun : (machine trackersByHash).Run (fun _ _ => True) past s) : Accounted past s :=
  Run.invariant_past Accounted (accounted_init trackersByHash) (fun _ _ _ _ _ hacc _ hnext => accounted_next hacc hnext) hrun

end Totals

section Once

variable {s s' : State} {e : Event} {out : List Out} {past : List (Reaction State Event Out)}

def packetOf : Out → Option Bytes
  | .act _ (.write _ _ packet) => some packet
  | _ => none

def idOf (packet : Bytes) : Nat := get32 packet 12

-- No two requests of these have the same transaction id.
def Distinct (outs : List Out) : Prop := ((outs.filterMap packetOf).map idOf).Nodup

-- Counts come from a reply to the request for a batch of the tracker's own hashes, each from a position of its hash.
def Own (past : List (Reaction State Event Out)) (r : Reaction State Event Out) : Prop :=
  ∀ i m, .act i (.counts m) ∈ r.out → ∃ reply tx q addr cid id keys, r.event = .tracker i (.datagram reply tx) ∧
    r.before.sessions[i]? = some q ∧ keys ∈ batchKeys q.hashes ∧ Answers reply id keys.length ∧
    .act i (.write addr q.port (scrapeRequest cid id (raw keys))) ∈ log past ∧
    (Distinct (log past) → ∀ j addr' port packet, .act j (.write addr' port packet) ∈ log past → idOf packet = id.toNat →
      packet = scrapeRequest cid id (raw keys)) ∧
    (∀ k c, m.lookup k = some c → ∃ p, keys[p]? = some k ∧ c = countsAt reply p) ∧ ∀ k ∈ keys, k ∈ m

-- The end is signalled when every tracker has finished.
def Last (r : Reaction State Event Out) (s' : State) : Prop := .finished ∈ r.out → ∀ q ∈ s'.sessions, q.done = true

-- Each tracker finishes once, at its time-out at the latest, and the end is signalled once, after all of them.
structure Kept (past : List (Reaction State Event Out)) (s : State) : Prop where
  trackers : ∀ i q, s.sessions[i]? = some q → (log past).countP (endsOf i) = (if q.done then 1 else 0) ∧
    (q.done = true ∨ q.timing = true ∧ q.deleted = false)
  finished : (log past).countP isFinished = if (∀ q ∈ s.sessions, q.done = true) ∧ s.idle = false then 1 else 0
  last : eachStep (fun _ r s' => Last r s') past s
  own : eachStep (fun past r _ => Own past r) past s
  inside : s.crashed = false

theorem pending_zero (hacc : Accounted past s) : s.pending = 0 ↔ ∀ q ∈ s.sessions, q.done = true := by
  rw [hacc.pending, Int.ofNat_eq_zero, List.countP_eq_zero]
  simp

theorem idOf_scrapeRequest (cid : UInt64) (tx : UInt32) (hashes : List Bytes) :
    idOf (scrapeRequest cid tx hashes) = tx.toNat := by
  have hfour : (putBE 8 cid.toNat ++ putBE 4 kActionScrape).length = 12 := by
    rw [List.length_append, length_putBE, length_putBE]
  have hlt : tx.toNat < 256 ^ 4 := tx.toNat_lt
  unfold idOf get32 getAt scrapeRequest
  rw [List.append_assoc, List.drop_left' hfour, getBE_putBE, Nat.zero_mul, Nat.zero_add, Nat.mod_eq_of_lt hlt]

theorem own_next (hacc : Accounted past s) (hnext : next s e = some (s', out)) : Own past ⟨s, e, out⟩ := by
  intro i m hm
  obtain ⟨hok, ⟨rfl, -, -, rfl⟩ | ⟨j, h, q, o, rfl, hq, hreact, -, rfl⟩⟩ := next_cases hnext
  · exact absurd (List.mem_singleton.mp hm) nofun
  · have hlast : ∀ c : Prop, [Decidable c] → Out.act i (.counts m) ∉ if c then [Out.finished] else [] := by
      intro c _ hmem
      split_ifs at hmem
      · exact absurd (List.mem_singleton.mp hmem) nofun
      · exact absurd hmem List.not_mem_nil
    have hmem : .act i (.counts m) ∈ o.acts.map (Out.act j) := (List.mem_append.mp hm).resolve_right (hlast _)
    obtain ⟨a, ha, hsame⟩ := List.mem_map.mp hmem
    obtain ⟨rfl, rfl⟩ := Out.act.inj hsame
    obtain ⟨reply, tx, t, b, keys, rfl, ht, hb, hkeys, hanswers, rfl⟩ := counts_react hreact ha
    have hsent := hacc.wired hok j q hq t b keys ht hb hkeys
    refine ⟨reply, tx, q, t.addr, t.cid, t.tx, keys, rfl, hq, List.mem_of_getElem? hkeys, hanswers, hsent, ?_,
      fun k c hlookup => lookup_byHash hlookup, fun k hk => mem_byHash hk⟩
    intro hdistinct i addr' port packet hpacket hid
    refine List.inj_on_of_nodup_map hdistinct (List.mem_filterMap.mpr ⟨_, hpacket, rfl⟩)
      (List.mem_filterMap.mpr ⟨_, hsent, rfl⟩) ?_
    rw [hid, idOf_scrapeRequest]

theorem last_next (hacc : Accounted past s) (hnext : next s e = some (s', out)) : Last ⟨s, e, out⟩ s' := by
  intro hfin
  have hacc' := accounted_next hacc hnext
  refine (pending_zero hacc').mp ?_
  by_contra hpending
  have hnone : (log (⟨s, e, out⟩ :: past)).countP isFinished = 0 := by
    rw [hacc'.finished, if_neg fun h => hpending h.1]
  exact List.countP_eq_zero.mp hnone _ (List.mem_append_left _ hfin) rfl

theorem crashed_next (hacc : Accounted past s) (hnext : next s e = some (s', out)) :
    s.crashed = false ∧ (s'.crashed = true ↔ e.Late s) := by
  obtain ⟨hok, ⟨rfl, -, rfl, -⟩ | ⟨j, h, q, o, rfl, hq, hreact, rfl, -⟩⟩ := next_cases hnext
  · exact ⟨hok, iff_of_false (by rw [hok]; exact Bool.false_ne_true) id⟩
  · refine ⟨hok, ?_⟩
    have hcrash : (took s j o).1.crashed = true ↔ h.Late q :=
      (react_spec (hacc.placed hok q (List.mem_of_getElem? hq)) hreact).1
    rw [hcrash]
    constructor
    · exact fun hlate => ⟨q, hq, hlate⟩
    · rintro ⟨q', hq', hlate⟩
      rw [Option.some.inj (hq.symm.trans hq')]
      exact hlate

theorem crashed_run {trackersByHash : List (Text × List Text)}
    (hrun : (machine trackersByHash).Run (fun _ _ => True) past s) :
    s.crashed = false ↔ ∀ r ∈ past, ¬ r.event.Late r.before := by
  induction hrun with
  | init => exact iff_of_true rfl fun r hr => absurd hr List.not_mem_nil
  | step hrun _ hnext ih =>
      obtain ⟨hok, hcrash⟩ := crashed_next (accounted_run hrun) hnext
      rw [List.forall_mem_cons, ← ih, ← Bool.not_eq_true, hcrash]
      exact ⟨fun hno => ⟨hno, hok⟩, And.left⟩

theorem eachStep_run {trackersByHash : List (Text × List Text)}
    (hrun : (machine trackersByHash).Run (fun _ _ => True) past s) :
    eachStep (fun _ r s' => Last r s') past s ∧ eachStep (fun past r _ => Own past r) past s := by
  induction hrun with
  | init => exact ⟨trivial, trivial⟩
  | step hrun _ hnext ih =>
      have hacc := accounted_run hrun
      exact ⟨⟨last_next hacc hnext, ih.1⟩, own_next hacc hnext, ih.2⟩

-- All holds of a run in which no datagram is read of a tracker whose last batch has been answered.
theorem kept_iff {trackersByHash : List (Text × List Text)}
    (hrun : (machine trackersByHash).Run (fun _ _ => True) past s) :
    Kept past s ↔ ∀ r ∈ past, ¬ r.event.Late r.before := by
  have hacc := accounted_run hrun
  rw [← crashed_run hrun]
  refine ⟨fun hkept => hkept.inside, fun hok => ⟨fun i q hq => ?_, ?_, (eachStep_run hrun).1, (eachStep_run hrun).2, hok⟩⟩
  · exact ⟨hacc.ends i q hq, hacc.timing q (List.mem_of_getElem? hq)⟩
  · rw [hacc.finished]
    exact if_congr (and_congr_left fun _ => pending_zero hacc) rfl rfl

def one : List (Text × List Text) := [(['a', 'a'], [['t', ':', '1']])]

def connected (tx next : UInt32) : Event :=
  .tracker 0 (.datagram (putBE 4 kActionConnect ++ putBE 4 tx.toNat ++ putBE 8 5) next)

def answered (tx next : UInt32) : Event :=
  .tracker 0 (.datagram (putBE 4 kActionScrape ++ putBE 4 tx.toNat ++ putBE 4 3 ++ putBE 4 0 ++ putBE 4 1) next)

theorem kept_one : ∃ past s, (machine one).Run (fun _ _ => True) past s ∧ (log past).countP isFinished = 1 ∧ Kept past s := by
  obtain ⟨past, s, hrun, hok, hfinished⟩ := @Machine.exists_run_log _ _ _ (machine one) (fun _ _ => True) _
    (fun r => r.1.crashed = false ∧ r.2.countP isFinished = 1) _
    [.tracker 0 (.lookedUp (some 1) true 7), connected 7 8, answered 8 9] (by decide +kernel)
  exact ⟨past, s, hrun, hfinished, (kept_iff hrun).mpr ((crashed_run hrun).mp hok)⟩

-- The reply to the last batch comes twice, the second time before the socket is deleted.
theorem reads_past_batches : ∃ past s, (machine one).Run (fun _ _ => True) past s ∧ ¬ Kept past s := by
  obtain ⟨past, s, hrun, hcrashed⟩ := @Machine.exists_run _ _ _ (machine one) (fun _ _ => True) _ (fun s => s.crashed = true) _
    [.tracker 0 (.lookedUp (some 1) true 7), connected 7 8, answered 8 9, answered 8 9] (by decide +kernel)
  exact ⟨past, s, hrun, fun hkept => Bool.false_ne_true (hkept.inside.symm.trans hcrashed)⟩

end Once

end BATorrent.TrackerScrape
