import BATorrent.Services.MetadataResolver.Takes

namespace BATorrent.MetadataResolver

open Lib Machine

-- While something waits, or a manual query has no answer, something is on its way that will go on.
def Advances (s : State) : Prop :=
  (s.queue ≠ [] ∨ s.collectionQueue ≠ [] ∨ s.igdbPending ≠ [] ∨ ∃ k, s.manualQueries k ≠ none) →
    s.outstanding ≠ [] ∨ s.timer = true

-- What is parked waits for a token.
def Parked (s : State) : Prop := s.igdbPending ≠ [] → .token ∈ s.outstanding

-- The answer to a request for a token is of use to the lookups that wait for it, or is an error while
-- another such request is outstanding.
def TokenUsed (s : State) : Event → Prop
  | .reply env i answer =>
      s.outstanding[i]? = some .token → s.igdbPending ≠ [] →
        match answer with
        | none => .token ∈ s.outstanding.eraseIdx i
        | some b => env.configured = false ∨ b.accessToken ≠ [] ∧ 60 < b.expiresIn
  | _ => True

def Working (s : State) : Prop :=
  (∃ r ∈ s.outstanding, ∃ k, r.key = some k) ∨ s.timer = true ∨ s.igdbPending ≠ []

def Waiting (s : State) : Prop := s.queue ≠ [] ∨ s.collectionQueue ≠ []

-- Where a manual query can still be answered from.
def Kept (s : State) (k : InfoHash) : Prop :=
  (∃ parsed, (k, parsed) ∈ s.queue) ∨ (∃ parsed, (k, parsed) ∈ s.igdbPending) ∨
    ∃ r ∈ s.outstanding, r.key = some k

structure Core (s : State) : Prop where
  busy : s.requestInFlight = true → ∃ r ∈ s.outstanding, r.isLookup = true
  manual : ∀ k, s.manualQueries k ≠ none → Kept s k

section Step

variable {s t : State} {key : InfoHash}

theorem exists_key {r : Request} (h : r.isLookup = true) : ∃ k, r.key = some k := by
  cases r with
  | token => cases h
  | movieDetails result done => cases done <;> exact ⟨_, rfl⟩
  | _ => exact ⟨_, rfl⟩

theorem Core.working_of_busy (h : Core s) (hbusy : s.requestInFlight = true) : Working s := by
  obtain ⟨r, hr, hlookup⟩ := h.busy hbusy
  exact .inl ⟨r, hr, exists_key hlookup⟩

-- Nothing is left waiting for good: the invariant of a run.
theorem advances_of_working (h : Core s) (hwaiting : Waiting s → Working s) (hparked : Parked s) :
    Advances s := by
  have hworking : Working s → s.outstanding ≠ [] ∨ s.timer = true := by
    rintro (⟨r, hr, -⟩ | htimer | hpending)
    · exact .inl (List.ne_nil_of_mem hr)
    · exact .inr htimer
    · exact .inl (List.ne_nil_of_mem (hparked hpending))
  rintro (hqueue | hcollection | hpending | ⟨k, hk⟩)
  · exact hworking (hwaiting (.inl hqueue))
  · exact hworking (hwaiting (.inr hcollection))
  · exact .inl (List.ne_nil_of_mem (hparked hpending))
  · rcases h.manual k hk with ⟨parsed, hqueue⟩ | ⟨parsed, hpending⟩ | ⟨r, hr, -⟩
    · exact hworking (hwaiting (.inl (List.ne_nil_of_mem hqueue)))
    · exact .inl (List.ne_nil_of_mem (hparked (List.ne_nil_of_mem hpending)))
    · exact .inl (List.ne_nil_of_mem hr)

-- A lookup that was taken out of where it was goes on from there.
theorem Takes.core (h : Takes s key t) (hbusy : t.requestInFlight = true → ∃ r ∈ t.outstanding, r.isLookup = true)
    (hmanual : ∀ k, s.manualQueries k ≠ none → k = key ∨ Kept s k) : Core t ∧ Working t := by
  constructor
  · refine ⟨hbusy, fun k hk => ?_⟩
    rcases hmanual k (h.manual k hk) with rfl | ⟨parsed, hqueue⟩ | ⟨parsed, hpending⟩ | ⟨r, hr, hkey⟩
    · rcases h.goesOn with hout | hpending | ⟨-, hnone⟩
      · exact .inr (.inr hout)
      · exact .inr (.inl hpending)
      · exact absurd hnone hk
    · exact .inl ⟨parsed, h.queue ▸ hqueue⟩
    · exact .inr (.inl ⟨parsed, h.pending hpending⟩)
    · exact .inr (.inr ⟨r, h.requests hr, hkey⟩)
  · rcases h.goesOn with ⟨r, hr, hkey⟩ | ⟨parsed, hpending⟩ | ⟨htimer, -⟩
    · exact .inl ⟨r, hr, key, hkey⟩
    · exact .inr (.inr (List.ne_nil_of_mem hpending))
    · exact .inr (.inl htimer)

theorem Takes.keepsParked (h : Takes s key t) (hparked : Parked s) : Parked t := by
  intro hpending
  rcases h.parked with heq | htoken
  · exact h.requests (hparked (heq ▸ hpending))
  · exact htoken

-- What an operation does that asks for more: nothing is lost, and what waits is worked on.
structure Steps (s t : State) : Prop where
  hung : t.hung = s.hung
  core : Core t
  waiting : Waiting t → Working t
  parked : Parked s → Parked t

theorem steps_nextCollection (h : Core s) (hidle : s.requestInFlight = false) (hqueue : s.queue = [])
    (keys : List InfoHash) : Steps s (s.nextCollection keys) := by
  induction keys with
  | nil =>
      refine ⟨rfl, ⟨h.busy, h.manual⟩, ?_, id⟩
      rintro (hne | hne)
      · exact absurd hqueue hne
      · exact absurd rfl hne
  | cons key rest ih =>
      rw [State.nextCollection]
      split_ifs
      · have htakes : Takes { s with collectionQueue := rest } key
            ({ s with collectionQueue := rest }.fetchTmdbMovieDetails ((s.cache key).getD {}) (.collection key)) :=
          takes_launch rfl rfl
        have hbusy := fun hb => (htakes.inFlight hb).resolve_left (by
          change ¬ s.requestInFlight = true
          rw [hidle]
          exact Bool.false_ne_true)
        obtain ⟨hcore, hworking⟩ := htakes.core hbusy fun k hk => .inr (h.manual k hk)
        exact ⟨htakes.hung, hcore, fun _ => hworking, htakes.keepsParked⟩
      · exact ih

theorem steps_processQueue (env : Env) (h : Core s) (hidle : s.requestInFlight = false) :
    Steps s (s.processQueue env) := by
  unfold State.processQueue
  rw [if_neg (by simp [hidle])]
  split
  · next hqueue => exact steps_nextCollection h hidle hqueue _
  · next key parsed rest hqueue =>
      have htakes := takes_lookup env { s with queue := rest } key parsed
      have hbusy := fun hb => (htakes.inFlight hb).resolve_left (by
        change ¬ s.requestInFlight = true
        rw [hidle]
        exact Bool.false_ne_true)
      have hmanual : ∀ k, s.manualQueries k ≠ none → k = key ∨ Kept { s with queue := rest } k := by
        intro k hk
        rcases h.manual k hk with ⟨other, hin⟩ | hpending | hout
        · rw [hqueue] at hin
          rcases List.mem_cons.mp hin with heq | hin
          · exact .inl (congrArg Prod.fst heq)
          · exact .inr (.inl ⟨other, hin⟩)
        · exact .inr (.inr (.inl hpending))
        · exact .inr (.inr (.inr hout))
      obtain ⟨hcore, hworking⟩ := htakes.core hbusy hmanual
      exact ⟨htakes.hung, hcore, fun _ => hworking, htakes.keepsParked⟩

theorem steps_kick (env : Env) (h : Core s) : Steps s (s.kick env) := by
  unfold State.kick
  split_ifs with hkick
  · exact steps_processQueue env h (by simpa using (Bool.and_eq_true_iff.mp hkick).1)
  · refine ⟨rfl, h, fun _ => ?_, id⟩
    cases hbusy : s.requestInFlight with
    | true => exact h.working_of_busy hbusy
    | false => exact .inr (.inl (by simpa [hbusy] using hkick))

theorem Core.enqueue (h : Core s) (key : InfoHash) (parsed : ParsedName) : Core (s.enqueue key parsed) where
  busy := h.busy
  manual k hk := by
    rcases h.manual k hk with ⟨other, hin⟩ | hkept
    · exact .inl ⟨other, List.mem_append_left _ hin⟩
    · exact .inr hkept

theorem steps_refl (h : Core s) (hwaiting : Waiting s → Working s) : Steps s s := ⟨rfl, h, hwaiting, id⟩

theorem steps_queueCollectionCheck (env : Env) (h : Core s) (hwaiting : Waiting s → Working s)
    (key : InfoHash) : Steps s (s.queueCollectionCheck env key) := by
  unfold State.queueCollectionCheck
  split_ifs
  · exact steps_refl h hwaiting
  · have hcore : Core { s with
        collectionAsked := key :: s.collectionAsked
        collectionQueue := s.collectionQueue ++ [key] } := ⟨h.busy, h.manual⟩
    have hkick := steps_kick env hcore
    exact ⟨hkick.hung, hkick.core, hkick.waiting, hkick.parked⟩

theorem steps_resolve (env : Env) (h : Core s) (hwaiting : Waiting s → Working s) (infoHash : Text)
    (parsed : ParsedName) : Steps s (s.resolve env infoHash parsed) := by
  unfold State.resolve
  dsimp only
  split_ifs
  · exact steps_refl h hwaiting
  · exact steps_queueCollectionCheck env h hwaiting _
  · have hkick := steps_kick env (h.enqueue (canonicalInfoHash infoHash) parsed)
    exact ⟨hkick.hung, hkick.core, hkick.waiting, hkick.parked⟩

theorem steps_resolveManual (env : Env) (h : Core s) (hwaiting : Waiting s → Working s) (infoHash query : Text)
    (parsed : ParsedName) : Steps s (s.resolveManual env infoHash query parsed) := by
  unfold State.resolveManual
  dsimp only
  split_ifs
  · exact steps_refl h hwaiting
  · have hcore : Core ({ s with
        cache := Function.update s.cache (canonicalInfoHash infoHash) none
        manualQueries := Function.update s.manualQueries (canonicalInfoHash infoHash) (some query) }.enqueue
          (canonicalInfoHash infoHash) parsed) := by
      refine ⟨h.busy, fun k hk => ?_⟩
      by_cases heq : k = canonicalInfoHash infoHash
      · exact .inl ⟨parsed, heq ▸ List.mem_append_right _ List.mem_cons_self⟩
      · have hold : s.manualQueries k ≠ none := by
          change Function.update s.manualQueries _ _ k ≠ none at hk
          rwa [Function.update_of_ne heq] at hk
        rcases h.manual k hold with ⟨other, hin⟩ | hkept
        · exact .inl ⟨other, List.mem_append_left _ hin⟩
        · exact .inr hkept
    have hkick := steps_kick env hcore
    exact ⟨hkick.hung, hkick.core, hkick.waiting, hkick.parked⟩

theorem Quiet.steps (hquiet : Quiet s t) (h : Core s) (hwaiting : Waiting s → Working s) : Steps s t := by
  refine ⟨hquiet.hung, ⟨?_, fun k hk => ?_⟩, ?_, ?_⟩
  · rw [hquiet.inFlight, hquiet.requests]
    exact h.busy
  · unfold Kept
    rw [hquiet.queue, hquiet.pending, hquiet.requests]
    exact h.manual k (hquiet.manual k hk)
  · unfold Waiting Working
    rw [hquiet.queue, hquiet.collectionQueue, hquiet.requests, hquiet.pending, hquiet.timer]
    exact hwaiting
  · unfold Parked
    rw [hquiet.pending, hquiet.requests]
    exact id

theorem steps_clearMetadata (h : Core s) (hwaiting : Waiting s → Working s) (infoHash : Text) :
    Steps s (s.clearMetadata infoHash) := by
  unfold State.clearMetadata
  dsimp only
  split_ifs
  · exact steps_refl h hwaiting
  · exact (quiet_ready s _ _).steps h hwaiting
  · exact (quiet_ready s _ _).steps h hwaiting

-- While a batch comes in its lookups are not looked at yet.
structure Gathers (s t : State) : Prop where
  hung : t.hung = s.hung
  core : Core t
  collection : t.collectionQueue ≠ [] → Working t
  parked : Parked s → Parked t

theorem gathers_batchAdd (env : Env) (h : Gathers s t) (torrent : Text × ParsedName) :
    Gathers s (State.batchAdd env t torrent) := by
  unfold State.batchAdd
  dsimp only
  split_ifs
  · exact h
  · unfold State.queueCollectionCheck
    split_ifs
    · exact h
    · have hcore : Core { t with
          collectionAsked := canonicalInfoHash torrent.1 :: t.collectionAsked
          collectionQueue := t.collectionQueue ++ [canonicalInfoHash torrent.1] } :=
        ⟨h.core.busy, h.core.manual⟩
      have hkick := steps_kick env hcore
      exact ⟨hkick.hung.trans h.hung, hkick.core, fun hne => hkick.waiting (.inr hne),
        fun hparked => hkick.parked (h.parked hparked)⟩
  · exact ⟨h.hung, h.core.enqueue _ _, h.collection, h.parked⟩

theorem gathers_foldl (env : Env) (torrents : List (Text × ParsedName)) (h : Gathers s t) :
    Gathers s (torrents.foldl (State.batchAdd env) t) := by
  induction torrents generalizing t with
  | nil => exact h
  | cons torrent torrents ih => exact ih (gathers_batchAdd env h torrent)

theorem steps_batchResolve (env : Env) (h : Core s) (hwaiting : Waiting s → Working s)
    (torrents : List (Text × ParsedName)) : Steps s (s.batchResolve env torrents) := by
  have hgathers : Gathers s (torrents.foldl (State.batchAdd env) s) :=
    gathers_foldl env torrents ⟨rfl, h, fun hne => hwaiting (.inr hne), id⟩
  unfold State.batchResolve
  dsimp only
  split_ifs with hqueue
  · have hkick := steps_kick env hgathers.core
    exact ⟨hkick.hung.trans hgathers.hung, hkick.core, hkick.waiting,
      fun hparked => hkick.parked (hgathers.parked hparked)⟩
  · exact ⟨hgathers.hung, hgathers.core, fun hw => hgathers.collection (hw.resolve_left hqueue), hgathers.parked⟩

theorem steps_timeout (env : Env) (h : Core s) : Steps s ({ s with timer := false }.processQueue env) := by
  have hcore : Core { s with timer := false } := ⟨h.busy, h.manual⟩
  by_cases hbusy : s.requestInFlight = true
  · have hstay : { s with timer := false }.processQueue env = { s with timer := false } := if_pos hbusy
    rw [hstay]
    exact ⟨rfl, hcore, fun _ => hcore.working_of_busy hbusy, id⟩
  · have hsteps := steps_processQueue env hcore (Bool.not_eq_true _ ▸ hbusy)
    exact ⟨hsteps.hung, hsteps.core, hsteps.waiting, hsteps.parked⟩

section Reply

variable {i : Nat} {request : Request}

theorem mem_eraseIdx (hi : s.outstanding[i]? = some request) {r : Request} (hr : r ∈ s.outstanding) :
    r = request ∨ r ∈ s.outstanding.eraseIdx i := by
  obtain ⟨hlt, rfl⟩ := List.getElem?_eq_some_iff.mp hi
  obtain ⟨j, hj, rfl⟩ := List.mem_iff_getElem.mp hr
  by_cases hij : j = i
  · exact .inl (by simp only [hij])
  · exact .inr (List.mem_eraseIdx_iff_getElem.mpr ⟨j, hj, hij, rfl⟩)

theorem kept_eraseIdx (h : Core s) (hi : s.outstanding[i]? = some request) (hkey : request.key = some key)
    (k : InfoHash) (hk : s.manualQueries k ≠ none) :
    k = key ∨ Kept { s with outstanding := s.outstanding.eraseIdx i } k := by
  rcases h.manual k hk with hqueue | hpending | ⟨r, hr, hrkey⟩
  · exact .inr (.inl hqueue)
  · exact .inr (.inr (.inl hpending))
  · rcases mem_eraseIdx hi hr with rfl | hr
    · exact .inl (Option.some.inj (hrkey.symm.trans hkey))
    · exact .inr (.inr (.inr ⟨r, hr, hrkey⟩))

theorem parked_eraseIdx (hi : s.outstanding[i]? = some request) (hne : request ≠ .token) (hparked : Parked s) :
    Parked { s with outstanding := s.outstanding.eraseIdx i } :=
  fun hpending => (mem_eraseIdx hi (hparked hpending)).resolve_left hne.symm

-- The answer to a request that was in flight.
theorem steps_landed (h : Core s) (hi : s.outstanding[i]? = some request) (hkey : request.key = some key)
    (htakes : Takes ({ s with outstanding := s.outstanding.eraseIdx i }.landed) key t) : Steps s t := by
  have hne : request ≠ .token := by
    rintro rfl
    cases hkey
  obtain ⟨hcore, hworking⟩ := htakes.core (fun hb => (htakes.inFlight hb).resolve_left Bool.false_ne_true)
    (kept_eraseIdx h hi hkey)
  exact ⟨htakes.hung, hcore, fun _ => hworking,
    fun hparked => htakes.keepsParked (parked_eraseIdx hi hne hparked)⟩

theorem steps_onReply (m : MetadataMatch) (env : Env) (answer : Option Body) (h : Core s)
    (hi : s.outstanding[i]? = some request) (hne : request ≠ .token) :
    Steps s ({ s with outstanding := s.outstanding.eraseIdx i }.onReply m env answer request) := by
  cases request with
  | token => exact absurd rfl hne
  | igdb infoHash parsed queryTitle =>
      exact steps_landed h hi rfl (takes_onIgdb m env _ infoHash answer parsed queryTitle)
  | movie infoHash parsed => exact steps_landed h hi rfl (takes_onMovie m _ infoHash answer parsed)
  | movieDetails result done =>
      obtain ⟨key, hkey⟩ : ∃ key, (Request.movieDetails result done).key = some key := exists_key rfl
      exact steps_landed h hi hkey (takes_onMovieDetails env _ key answer result done hkey)
  | tv infoHash parsed => exact steps_landed h hi rfl (takes_onTv m env _ infoHash answer parsed)
  | overviewEn result infoHash posterPath => exact steps_landed h hi rfl (takes_finish _ infoHash posterPath _)
  | steamItems infoHash => exact steps_landed h hi rfl (takes_onSteamItems _ infoHash answer)
  | steamSearch infoHash parsed =>
      change Steps s (State.onSteamSearch _ infoHash answer)
      unfold State.onSteamSearch
      split_ifs
      · exact steps_landed h hi rfl (takes_finishLookup _ infoHash)
      · have htakes : Takes { s with outstanding := s.outstanding.eraseIdx i } infoHash
            ({ s with outstanding := s.outstanding.eraseIdx i }.ask (.steamItems infoHash)) := takes_ask rfl
        have hbusy := fun _ : s.requestInFlight = true =>
          (⟨.steamItems infoHash, List.mem_append_right _ List.mem_cons_self, rfl⟩ :
            ∃ r ∈ s.outstanding.eraseIdx i ++ [.steamItems infoHash], r.isLookup = true)
        obtain ⟨hcore, hworking⟩ := htakes.core hbusy (kept_eraseIdx h hi rfl)
        exact ⟨rfl, hcore, fun _ => hworking,
          fun hparked => htakes.keepsParked (parked_eraseIdx hi hne hparked)⟩
  | poster key part =>
      have htakes := takes_settle { s with outstanding := s.outstanding.eraseIdx i } key
        (if answer.isSome ∧ env.writes then { part with posterPath := key.text ++ ".jpg".toList } else part)
      have hbusy : s.requestInFlight = true → ∃ r ∈ s.outstanding.eraseIdx i, r.isLookup = true := by
        intro hb
        obtain ⟨r, hr, hlookup⟩ := h.busy hb
        rcases mem_eraseIdx hi hr with rfl | hr
        · cases hlookup
        · exact ⟨r, hr, hlookup⟩
      obtain ⟨hcore, hworking⟩ := htakes.core hbusy (kept_eraseIdx h hi rfl)
      exact ⟨rfl, hcore, fun _ => hworking,
        fun hparked => htakes.keepsParked (parked_eraseIdx hi hne hparked)⟩

end Reply

end Step

end BATorrent.MetadataResolver
