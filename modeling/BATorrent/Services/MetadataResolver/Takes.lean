import BATorrent.Services.MetadataResolver

namespace BATorrent.MetadataResolver

namespace Request

-- The lookup that a request is for.
def key : Request → Option InfoHash
  | .token => none
  | .igdb infoHash _ _ => some infoHash
  | .movie infoHash _ => some infoHash
  | .movieDetails _ (.film infoHash _) => some infoHash
  | .movieDetails _ (.collection key) => some key
  | .tv infoHash _ => some infoHash
  | .overviewEn _ infoHash _ => some infoHash
  | .steamSearch infoHash _ => some infoHash
  | .steamItems infoHash => some infoHash
  | .poster key _ => some key

-- The requests that count as in flight.
def isLookup : Request → Bool
  | .token => false
  | .poster _ _ => false
  | _ => true

-- The check of a film that is cached.
def isCheck : Request → Bool
  | .movieDetails _ (.collection _) => true
  | _ => false

end Request

-- What becomes of a lookup: a request for it is outstanding, it is parked until there is a token, or
-- it is over.
structure Takes (s : State) (key : InfoHash) (t : State) : Prop where
  queue : t.queue = s.queue
  collectionQueue : t.collectionQueue = s.collectionQueue
  hung : t.hung = s.hung
  token : t.igdbAccessToken = s.igdbAccessToken ∧ t.igdbTokenExpiry = s.igdbTokenExpiry
  manual : ∀ k, t.manualQueries k ≠ none → s.manualQueries k ≠ none
  requests : s.outstanding ⊆ t.outstanding
  pending : s.igdbPending ⊆ t.igdbPending
  parked : t.igdbPending = s.igdbPending ∨ .token ∈ t.outstanding
  timer : s.timer = true → t.timer = true
  inFlight : t.requestInFlight = true →
    s.requestInFlight = true ∨ ∃ r ∈ t.outstanding, r.isLookup = true
  goesOn : (∃ r ∈ t.outstanding, r.key = some key) ∨ (∃ parsed, (key, parsed) ∈ t.igdbPending) ∨
    t.timer = true ∧ t.manualQueries key = none

section Takes

variable {s t u : State} {key : InfoHash}

theorem manual_update {manual : InfoHash → Option Text} {k : InfoHash}
    (h : Function.update manual key none k ≠ none) : manual k ≠ none := by
  by_cases hk : k = key
  · rw [hk, Function.update_self] at h
    exact absurd rfl h
  · rwa [Function.update_of_ne hk] at h

theorem takes_ask {request : Request} (hkey : request.key = some key) : Takes s key (s.ask request) where
  queue := rfl
  collectionQueue := rfl
  hung := rfl
  token := ⟨rfl, rfl⟩
  manual _ := id
  requests := List.subset_append_left _ _
  pending := fun _ => id
  parked := .inl rfl
  timer := id
  inFlight := .inl
  goesOn := .inl ⟨request, List.mem_append_right _ List.mem_cons_self, hkey⟩

theorem takes_launch {request : Request} (hkey : request.key = some key) (hlookup : request.isLookup = true) :
    Takes s key (s.launch request) where
  queue := rfl
  collectionQueue := rfl
  hung := rfl
  token := ⟨rfl, rfl⟩
  manual _ := id
  requests := List.subset_append_left _ _
  pending := fun _ => id
  parked := .inl rfl
  timer := id
  inFlight _ := .inr ⟨request, List.mem_append_right _ List.mem_cons_self, hlookup⟩
  goesOn := .inl ⟨request, List.mem_append_right _ List.mem_cons_self, hkey⟩

theorem takes_finishLookup (s : State) (key : InfoHash) : Takes s key (s.finishLookup key) where
  queue := rfl
  collectionQueue := rfl
  hung := rfl
  token := ⟨rfl, rfl⟩
  manual _ := manual_update
  requests := fun _ => id
  pending := fun _ => id
  parked := .inl rfl
  timer _ := rfl
  inFlight := .inl
  goesOn := .inr (.inr ⟨rfl, Function.update_self ..⟩)

-- A change that the queue does not see.
structure Quiet (s t : State) : Prop where
  queue : t.queue = s.queue
  collectionQueue : t.collectionQueue = s.collectionQueue
  hung : t.hung = s.hung
  token : t.igdbAccessToken = s.igdbAccessToken ∧ t.igdbTokenExpiry = s.igdbTokenExpiry
  manual : ∀ k, t.manualQueries k ≠ none → s.manualQueries k ≠ none
  requests : t.outstanding = s.outstanding
  pending : t.igdbPending = s.igdbPending
  timer : t.timer = s.timer
  inFlight : t.requestInFlight = s.requestInFlight

theorem Quiet.takes (h : Quiet s t) (h' : Takes t key u) : Takes s key u where
  queue := h'.queue.trans h.queue
  collectionQueue := h'.collectionQueue.trans h.collectionQueue
  hung := h'.hung.trans h.hung
  token := ⟨h'.token.1.trans h.token.1, h'.token.2.trans h.token.2⟩
  manual k hk := h.manual k (h'.manual k hk)
  requests := h.requests ▸ h'.requests
  pending := h.pending ▸ h'.pending
  parked := h.pending ▸ h'.parked
  timer := h.timer ▸ h'.timer
  inFlight := h.inFlight ▸ h'.inFlight
  goesOn := h'.goesOn

theorem quiet_insert (s : State) (key : InfoHash) (r : MetadataResult) : Quiet s (s.insert key r) :=
  ⟨rfl, rfl, rfl, ⟨rfl, rfl⟩, fun _ => id, rfl, rfl, rfl, rfl⟩

theorem quiet_ready (s : State) (key : InfoHash) (r : MetadataResult) :
    Quiet s ((s.insert key r).metadataReady key r) :=
  ⟨rfl, rfl, rfl, ⟨rfl, rfl⟩, fun _ => manual_update, rfl, rfl, rfl, rfl⟩

theorem takes_settle (s : State) (key : InfoHash) (r : MetadataResult) : Takes s key (s.settle key r) :=
  (quiet_ready s key r).takes (takes_finishLookup _ _)

theorem takes_downloadPoster (s : State) (key : InfoHash) (r : MetadataResult) :
    Takes s key (s.downloadPoster key r) := by
  unfold State.downloadPoster
  rw [canonicalInfoHash_text]
  exact takes_ask rfl

theorem takes_finish (s : State) (key : InfoHash) (posterPath : Text) (r : MetadataResult) :
    Takes s key (s.finish key posterPath r) := by
  unfold State.finish
  split_ifs
  · exact takes_downloadPoster s key r
  · exact takes_settle s key r

theorem takes_withoutIgdb (s : State) (key : InfoHash) (parsed : ParsedName) :
    Takes s key (s.withoutIgdb key parsed) := by
  unfold State.withoutIgdb
  cases parsed.contentType with
  | unknown => exact takes_launch rfl rfl
  | game => exact takes_launch rfl rfl
  | movie => exact takes_finishLookup s key
  | series => exact takes_finishLookup s key

-- A lookup is parked only with a request for a token.
theorem takes_queryIgdb (env : Env) (s : State) (key : InfoHash) (parsed : ParsedName) (searchOverride : Text) :
    Takes s key (s.queryIgdb env key parsed searchOverride) := by
  unfold State.queryIgdb
  by_cases hconfigured : env.configured = true
  · rw [if_neg (by simp [hconfigured])]
    by_cases hvalid : s.tokenValid env = true
    · rw [if_neg (by simp [hvalid])]
      exact takes_launch rfl rfl
    · rw [if_pos (by simp [hvalid])]
      have hparked : (s.park key parsed).ensureIgdbToken env = (s.park key parsed).ask .token := by
        have hvalid' : ¬ (s.park key parsed).tokenValid env = true := hvalid
        rw [State.ensureIgdbToken, if_neg hvalid', if_neg (by simp [hconfigured])]
      rw [hparked]
      exact {
        queue := rfl
        collectionQueue := rfl
        hung := rfl
        token := ⟨rfl, rfl⟩
        manual := fun _ => id
        requests := List.subset_append_left _ _
        pending := List.subset_append_left _ _
        parked := .inr (List.mem_append_right _ List.mem_cons_self)
        timer := id
        inFlight := nofun
        goesOn := .inr (.inl ⟨parsed, List.mem_append_right _ List.mem_cons_self⟩) }
  · rw [if_pos (by simp [hconfigured])]
    exact takes_withoutIgdb s key parsed

theorem takes_lookup (env : Env) (s : State) (key : InfoHash) (parsed : ParsedName) :
    Takes s key (s.lookup env key parsed) := by
  unfold State.lookup
  cases parsed.contentType with
  | series => exact takes_launch rfl rfl
  | movie => exact takes_launch rfl rfl
  | game => exact takes_queryIgdb env s key parsed []
  | unknown => exact takes_queryIgdb env s key parsed []

section Replies

variable (m : MetadataMatch) (env : Env) (s : State) (key : InfoHash) (answer : Option Body)

theorem takes_onIgdb (parsed : ParsedName) (queryTitle : Text) :
    Takes s key (s.onIgdb m env key parsed queryTitle answer) := by
  cases answer with
  | none => exact takes_withoutIgdb s key parsed
  | some b =>
      unfold State.onIgdb
      dsimp only
      cases m.pickBestIgdbResult b.games parsed.cleanTitle parsed.year with
      | none =>
          dsimp only
          split_ifs
          · exact takes_queryIgdb env s key parsed _
          · exact takes_withoutIgdb s key parsed
      | some game => exact takes_finish s key _ _

theorem takes_onMovie (parsed : ParsedName) : Takes s key (s.onMovie m key parsed answer) := by
  cases answer with
  | none => exact takes_finishLookup s key
  | some b =>
      unfold State.onMovie
      dsimp only
      cases b.results with
      | nil =>
          dsimp only
          split_ifs
          · exact takes_launch rfl rfl
          · exact takes_finishLookup s key
      | cons item _ =>
          dsimp only
          split_ifs
          · exact takes_launch rfl rfl
          · exact takes_finish s key _ _
          · exact takes_finish s key _ _
          · exact takes_launch rfl rfl
          · exact takes_launch rfl rfl

theorem takes_onMovieDetails (result : MetadataResult) (done : Done)
    (hkey : (Request.movieDetails result done).key = some key) :
    Takes s key (s.onMovieDetails env result done answer) := by
  unfold State.onMovieDetails
  dsimp only
  cases done with
  | film infoHash posterPath =>
      obtain rfl := Option.some.inj hkey
      dsimp only
      split_ifs
      · exact takes_launch rfl rfl
      · exact takes_finish s infoHash _ _
  | collection key' =>
      obtain rfl := Option.some.inj hkey
      dsimp only
      split_ifs
      · exact (quiet_ready s key' _).takes (takes_finishLookup _ _)
      · exact (quiet_insert s key' _).takes (takes_finishLookup _ _)
      · exact takes_finishLookup s key'

theorem takes_onTv (parsed : ParsedName) : Takes s key (s.onTv m env key parsed answer) := by
  cases answer with
  | none => exact takes_finishLookup s key
  | some b =>
      unfold State.onTv
      dsimp only
      cases b.results with
      | nil => exact takes_finishLookup s key
      | cons item _ =>
          dsimp only
          split_ifs
          · exact takes_finishLookup s key
          · exact takes_launch rfl rfl
          · exact takes_finish s key _ _

theorem takes_onSteamItems : Takes s key (s.onSteamItems key answer) := by
  unfold State.onSteamItems
  dsimp only
  split_ifs
  · exact takes_finishLookup s key
  · exact takes_downloadPoster s key _
  · rw [canonicalInfoHash_text]
    exact takes_settle s key _

end Replies

end Takes

end BATorrent.MetadataResolver
