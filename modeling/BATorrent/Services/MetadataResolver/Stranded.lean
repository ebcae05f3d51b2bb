import BATorrent.Services.MetadataResolver.Advances

namespace BATorrent.MetadataResolver

open Lib Machine

section Drain

variable {env : Env} {s : State}

-- A lookup that leaves the parked ones does not come back.
def Useful (env : Env) (s : State) : Prop := env.configured = false ∨ s.tokenValid env = true

-- A token is of use while it is good, whatever becomes of it later.
theorem useful_token (env : Env) (s : State) (b : Body) :
    Useful env { s with
      igdbAccessToken := b.accessToken
      igdbTokenExpiry := env.now + b.expiresIn - 60 } ↔
      env.configured = false ∨ b.accessToken ≠ [] ∧ 60 < b.expiresIn := by
  unfold Useful State.tokenValid
  rw [Bool.and_eq_true, decide_eq_true_iff, decide_eq_true_iff]
  have hclock : env.now < env.now + b.expiresIn - 60 ↔ 60 < b.expiresIn := by omega
  rw [hclock]

theorem pending_withoutIgdb (s : State) (key : InfoHash) (parsed : ParsedName) :
    (s.withoutIgdb key parsed).igdbPending = s.igdbPending := by
  unfold State.withoutIgdb
  cases parsed.contentType <;> rfl

theorem pending_drainOne (h : Useful env s) : (State.drainOne env s).igdbPending = s.igdbPending.tail := by
  unfold State.drainOne
  split
  · next hpending => rw [hpending]; rfl
  · next key parsed rest hpending =>
      rw [hpending]
      unfold State.queryIgdb
      rcases h with hconfigured | hvalid
      · rw [if_pos (by simp [hconfigured])]
        exact pending_withoutIgdb _ key parsed
      · have hvalid' : ({ s with igdbPending := rest } : State).tokenValid env = true := hvalid
        by_cases hconfigured : env.configured = true
        · rw [if_neg (by simp [hconfigured]), if_neg (by simp [hvalid'])]
          rfl
        · rw [if_pos (by simp [hconfigured])]
          exact pending_withoutIgdb _ key parsed

theorem length_drainOne (h : ¬ Useful env s) :
    (State.drainOne env s).igdbPending.length = s.igdbPending.length := by
  obtain ⟨hconfigured, hvalid⟩ := not_or.mp h
  unfold State.drainOne
  split
  · rfl
  · next key parsed rest hpending =>
      have hvalid' : ¬ ({ s with igdbPending := rest } : State).tokenValid env = true := hvalid
      have hparked : ¬ (({ s with igdbPending := rest } : State).park key parsed).tokenValid env = true := hvalid
      rw [State.queryIgdb, if_neg (by simpa using hconfigured), if_pos (by simpa using hvalid'),
        State.ensureIgdbToken, if_neg hparked, if_neg (by simpa using hconfigured), hpending]
      exact List.length_append

theorem useful_drainOne : Useful env (State.drainOne env s) ↔ Useful env s := by
  unfold State.drainOne
  split
  · rfl
  · next key parsed rest hpending =>
      obtain ⟨htoken, hexpiry⟩ := (takes_queryIgdb env { s with igdbPending := rest } key parsed []).token
      unfold Useful State.tokenValid
      rw [htoken, hexpiry]

theorem useful_iterate (n : Nat) : Useful env ((State.drainOne env)^[n] s) ↔ Useful env s := by
  induction n with
  | zero => rfl
  | succ n ih => rw [Function.iterate_succ_apply', useful_drainOne, ih]

theorem pending_iterate (h : Useful env s) (n : Nat) :
    ((State.drainOne env)^[n] s).igdbPending = s.igdbPending.drop n := by
  induction n generalizing s with
  | zero => rfl
  | succ n ih =>
      rw [Function.iterate_succ_apply, ih (useful_drainOne.mpr h), pending_drainOne h, List.drop_tail]

theorem length_iterate (h : ¬ Useful env s) (n : Nat) :
    ((State.drainOne env)^[n] s).igdbPending.length = s.igdbPending.length := by
  induction n generalizing s with
  | zero => rfl
  | succ n ih =>
      rw [Function.iterate_succ_apply, ih (useful_drainOne.not.mpr h), length_drainOne h]

theorem hung_drain : (s.drain env).hung = true ↔ s.igdbPending ≠ [] ∧ ¬ Useful env s := by
  change decide (((State.drainOne env)^[s.igdbPending.length] s).igdbPending ≠ []) = true ↔ _
  rw [decide_eq_true_iff]
  by_cases huseful : Useful env s
  · rw [pending_iterate huseful, List.drop_length]
    exact iff_of_false (fun h => h rfl) fun h => h.2 huseful
  · rw [← List.length_pos_iff, length_iterate huseful, List.length_pos_iff, and_iff_left huseful]

theorem steps_drainOne (env : Env) (h : Core s) (hwaiting : Waiting s → Working s) : Steps s (State.drainOne env s) := by
  unfold State.drainOne
  split
  · exact steps_refl h hwaiting
  · next key parsed rest hpending =>
      have htakes := takes_queryIgdb env { s with igdbPending := rest } key parsed []
      have hold : ∀ _ : s.requestInFlight = true,
          ∃ r ∈ (({ s with igdbPending := rest } : State).queryIgdb env key parsed []).outstanding,
            r.isLookup = true := by
        intro hb
        obtain ⟨r, hr, hlookup⟩ := h.busy hb
        exact ⟨r, htakes.requests hr, hlookup⟩
      have hbusy := fun hb => (htakes.inFlight hb).elim hold id
      have hmanual : ∀ k, s.manualQueries k ≠ none → k = key ∨ Kept { s with igdbPending := rest } k := by
        intro k hk
        rcases h.manual k hk with hqueue | ⟨other, hin⟩ | hout
        · exact .inr (.inl hqueue)
        · rw [hpending] at hin
          rcases List.mem_cons.mp hin with heq | hin
          · exact .inl (congrArg Prod.fst heq)
          · exact .inr (.inr (.inl ⟨other, hin⟩))
        · exact .inr (.inr (.inr hout))
      obtain ⟨hcore, hworking⟩ := htakes.core hbusy hmanual
      refine ⟨htakes.hung, hcore, fun _ => hworking, fun hparked => htakes.keepsParked fun _ => hparked ?_⟩
      rw [hpending]
      exact List.cons_ne_nil _ _

theorem steps_iterate (env : Env) (h : Core s) (hwaiting : Waiting s → Working s) (n : Nat) :
    Steps s ((State.drainOne env)^[n] s) := by
  induction n with
  | zero => exact steps_refl h hwaiting
  | succ n ih =>
      rw [Function.iterate_succ_apply']
      have hstep := steps_drainOne env ih.core ih.waiting
      exact ⟨hstep.hung.trans ih.hung, hstep.core, hstep.waiting, fun hparked => hstep.parked (ih.parked hparked)⟩

end Drain

section Run

variable {m : MetadataMatch} {s t : State} {env : Env} {i : Nat}

-- Without its answer the request for a token is gone, and nothing else.
theorem core_eraseIdx_token (h : Core s) (hi : s.outstanding[i]? = some .token) :
    Core { s with outstanding := s.outstanding.eraseIdx i } where
  busy hb := by
    obtain ⟨r, hr, hlookup⟩ := h.busy hb
    rcases mem_eraseIdx hi hr with rfl | hr
    · cases hlookup
    · exact ⟨r, hr, hlookup⟩
  manual k hk := by
    rcases h.manual k hk with hqueue | hpending | ⟨r, hr, hkey⟩
    · exact .inl hqueue
    · exact .inr (.inl hpending)
    · rcases mem_eraseIdx hi hr with rfl | hr
      · cases hkey
      · exact .inr (.inr ⟨r, hr, hkey⟩)

theorem working_eraseIdx_token (h : Working s) (hi : s.outstanding[i]? = some .token) :
    Working { s with outstanding := s.outstanding.eraseIdx i } := by
  rcases h with ⟨r, hr, k, hkey⟩ | hrest
  · rcases mem_eraseIdx hi hr with rfl | hr
    · cases hkey
    · exact .inl ⟨r, hr, k, hkey⟩
  · exact .inr hrest

-- What the answer to a request for a token leaves, and when it goes on from there.
theorem steps_onToken (answer : Option Body) (h : Core s) (hwaiting : Waiting s → Working s)
    (hi : s.outstanding[i]? = some .token) (halive : s.hung = false) :
    let t := { s with outstanding := s.outstanding.eraseIdx i }.onToken env answer
    Core t ∧ (Waiting t → Working t) ∧ (t.hung = false ∧ Parked t ↔ TokenUsed s (.reply env i answer)) := by
  have hcore := core_eraseIdx_token h hi
  have hworks := fun hw : Waiting s => working_eraseIdx_token (hwaiting hw) hi
  cases answer with
  | none =>
      refine ⟨hcore, hworks, ?_⟩
      change s.hung = false ∧ (s.igdbPending ≠ [] → .token ∈ s.outstanding.eraseIdx i) ↔
        (s.outstanding[i]? = some .token → s.igdbPending ≠ [] → .token ∈ s.outstanding.eraseIdx i)
      rw [and_iff_right halive]
      exact ⟨fun h _ => h, fun h => h hi⟩
  | some b =>
      have hcore' : Core { s with
          outstanding := s.outstanding.eraseIdx i
          igdbAccessToken := b.accessToken
          igdbTokenExpiry := env.now + b.expiresIn - 60 } := ⟨hcore.busy, hcore.manual⟩
      have hsteps := steps_iterate env hcore' hworks s.igdbPending.length
      refine ⟨⟨hsteps.core.busy, hsteps.core.manual⟩, hsteps.waiting, ?_⟩
      have hover : ∀ {u : State}, (u.drain env).hung = false ∧ Parked (u.drain env) ↔ (u.drain env).hung = false := by
        intro u
        refine and_iff_left_of_imp fun hhung hpending => ?_
        exact absurd hpending (of_decide_eq_false hhung)
      refine hover.trans ?_
      rw [← Bool.not_eq_true, hung_drain, not_and_not_right]
      rw [useful_token]
      exact ⟨fun h _ => h, fun h => h hi⟩

-- What holds of a run whether or not a lookup is stranded in it.
structure Inv (s : State) : Prop where
  core : Core s
  waiting : Waiting s → Working s

-- A step leads on from a state that does exactly where it makes use of the token.
theorem next_advances_iff {e : Event} (h : Inv s) (hnext : s.next m e = some t) :
    Inv t ∧ (Parked s → (t.hung = false ∧ Parked t ↔ TokenUsed s e)) := by
  have halive : s.hung = false := by
    by_contra hhung
    unfold State.next at hnext
    rw [if_pos (by simpa using hhung)] at hnext
    cases hnext
  unfold State.next at hnext
  rw [if_neg (by simp [halive])] at hnext
  have hsteps : Steps s t → TokenUsed s e → Inv t ∧ (Parked s → (t.hung = false ∧ Parked t ↔ TokenUsed s e)) :=
    fun hsteps hused => ⟨⟨hsteps.core, hsteps.waiting⟩,
      fun hparked => iff_of_true ⟨hsteps.hung.trans halive, hsteps.parked hparked⟩ hused⟩
  cases e with
  | resolve env infoHash parsed =>
      cases hnext
      exact hsteps (steps_resolve env h.core h.waiting infoHash parsed) trivial
  | batchResolve env torrents =>
      cases hnext
      exact hsteps (steps_batchResolve env h.core h.waiting torrents) trivial
  | resolveManual env infoHash query parsed =>
      cases hnext
      exact hsteps (steps_resolveManual env h.core h.waiting infoHash query parsed) trivial
  | clearMetadata infoHash =>
      cases hnext
      exact hsteps (steps_clearMetadata h.core h.waiting infoHash) trivial
  | timeout env =>
      dsimp only at hnext
      split_ifs at hnext
      obtain rfl := Option.some.inj hnext
      exact hsteps (steps_timeout env h.core) trivial
  | reply env i answer =>
      obtain ⟨request, hi, rfl⟩ := Option.map_eq_some_iff.mp hnext
      by_cases htoken : request = .token
      · subst htoken
        obtain ⟨hcore, hwaiting, hiff⟩ := steps_onToken answer h.core h.waiting hi halive
        exact ⟨⟨hcore, hwaiting⟩, fun _ => hiff⟩
      · refine hsteps (steps_onReply m env answer h.core hi htoken) fun hi' => ?_
        exact absurd (Option.some.inj (hi.symm.trans hi')) htoken

-- No lookup is stranded in a run, and no loop is without end, exactly while each answer for a token is
-- of use to the lookups that wait for it.
theorem run_advances (m : MetadataMatch) (cache : InfoHash → Option MetadataResult)
    {past : List (Reaction State Event Empty)} {s : State}
    (hrun : (machine m cache).Run (fun _ _ => True) past s) :
    (∀ t ∈ visited past s, t.hung = false ∧ Parked t ∧ Advances t) ↔
      ∀ r ∈ past, TokenUsed r.before r.event := by
  have hinv : ∀ {past s}, (machine m cache).Run (fun _ _ => True) past s → Inv s := by
    intro past s hrun
    refine hrun.invariant Inv
      ⟨⟨fun hb => absurd hb Bool.false_ne_true, fun k hk => absurd rfl hk⟩, ?_⟩ fun s e t out hs _ hnext => ?_
    · rintro (hne | hne) <;> exact absurd rfl hne
    · obtain ⟨t', ht, heq⟩ := Option.map_eq_some_iff.mp hnext
      obtain ⟨rfl, -⟩ := Prod.mk.inj heq
      exact (next_advances_iff hs ht).1
  have hiff := hrun.forall_visited_iff (P := fun t => t.hung = false ∧ Parked t ∧ Advances t) (C := TokenUsed)
    (iff_of_true ⟨rfl, fun hne => absurd rfl hne, by
      rintro (hne | hne | hne | ⟨k, hne⟩) <;> exact absurd rfl hne⟩ trivial) ?_
  · rw [hiff, true_and]
  · intro past s e t out hrun ⟨_, hparked, _⟩ hnext
    obtain ⟨t', ht, heq⟩ := Option.map_eq_some_iff.mp hnext
    obtain ⟨rfl, -⟩ := Prod.mk.inj heq
    obtain ⟨hnew, hstep⟩ := next_advances_iff (hinv hrun) ht
    rw [← hstep hparked]
    exact ⟨fun h => ⟨h.1, h.2.1⟩, fun h => ⟨h.1, h.2, advances_of_working hnew.core hnew.waiting h.2⟩⟩

def pickFirst : MetadataMatch where
  confidentTitle title other := title = other
  shortenedSearchTitle _ := []
  pickBestIgdbResult games _ _ := games.head?

def game : ParsedName := ⟨['g'], 0, .game⟩

def atNoon : Env := ⟨43200, true, true, true⟩

-- A game is parked, found once there is a token, and its cover is saved.
theorem run_advances_game : ∃ past s, (machine pickFirst fun _ => none).Run (fun _ _ => True) past s ∧
    past.length = 4 ∧ ∀ t ∈ visited past s, t.hung = false ∧ Parked t ∧ Advances t := by
  have hinit : (machine pickFirst fun _ => none).Run (fun _ _ => True) []
      (machine pickFirst fun _ => none).init := .init
  have hrun := (((hinit.extend (.resolve atNoon ['a'] game) trivial rfl).extend
    (.reply atNoon 0 (some { accessToken := ['t'] })) trivial rfl).extend
    (.reply atNoon 0 (some { games := [⟨['G'], [], ['i']⟩] })) trivial rfl).extend
    (.reply atNoon 0 (some {})) trivial rfl
  refine ⟨_, _, hrun, rfl, (run_advances pickFirst _ hrun).mpr ?_⟩
  rw [List.forall_mem_cons, List.forall_mem_cons, List.forall_mem_cons, List.forall_mem_singleton]
  exact ⟨(fun htoken => by cases htoken), (fun htoken => by cases htoken),
    fun _ _ => .inr ⟨nofun, by decide⟩, trivial⟩

-- The request for a token fails, or its answer has none.
theorem not_advances :
    (¬ ∀ past s, (machine pickFirst fun _ => none).Run (fun _ _ => True) past s → Advances s) ∧
      ¬ ∀ past s, (machine pickFirst fun _ => none).Run (fun _ _ => True) past s → s.hung = false := by
  have hinit : (machine pickFirst fun _ => none).Run (fun _ _ => True) []
      (machine pickFirst fun _ => none).init := .init
  have hasked := hinit.extend (.resolve atNoon ['a'] game) trivial rfl
  constructor
  · intro h
    have hrun := hasked.extend (.reply atNoon 0 none) trivial rfl
    have hstranded := h _ _ hrun (.inr (.inr (.inl (List.cons_ne_nil _ _))))
    exact hstranded.elim (fun hout => hout rfl) Bool.false_ne_true
  · intro h
    have hrun := hasked.extend (.reply atNoon 0 (some {})) trivial rfl
    exact absurd (h _ _ hrun) Bool.noConfusion

end Run

end BATorrent.MetadataResolver
