import BATorrent.Services.MetadataResolver.Takes
import BATorrent.Services.MetadataResolver.Stranded
import Mathlib.Data.List.Perm.Basic

namespace BATorrent.MetadataResolver

-- What is looked for at IGDB first.
def Sought (parsed : ParsedName) : Prop := parsed.contentType = .game ∨ parsed.contentType = .unknown

def Request.Sought : Request → Prop
  | .igdb _ parsed _ => MetadataResolver.Sought parsed
  | _ => True

-- All that one reaction can make of a lookup.
inductive Outcome (s : State) (key : InfoHash) : State → Prop where
  | launched (r : Request) (hkey : r.key = some key) (hlookup : r.isLookup = true) (hsought : r.Sought)
      (hplain : r.isCheck = false) : Outcome s key (s.launch r)
  | poster (r : MetadataResult) : Outcome s key (s.ask (.poster key r))
  | parked (parsed : ParsedName) (hsought : Sought parsed) : Outcome s key ((s.park key parsed).ask .token)
  | nothing : Outcome s key (s.finishLookup key)
  | settled (r : MetadataResult) : Outcome s key (s.settle key r)

section Outcome

variable (s : State) (key : InfoHash)

theorem outcome_finish (posterPath : Text) (r : MetadataResult) : Outcome s key (s.finish key posterPath r) := by
  unfold State.finish State.downloadPoster
  rw [canonicalInfoHash_text]
  split_ifs
  · exact .poster r
  · exact .settled r

theorem outcome_withoutIgdb (parsed : ParsedName) : Outcome s key (s.withoutIgdb key parsed) := by
  unfold State.withoutIgdb
  cases parsed.contentType with
  | unknown => exact .launched _ rfl rfl trivial rfl
  | game => exact .launched _ rfl rfl trivial rfl
  | movie => exact .nothing
  | series => exact .nothing

theorem outcome_queryIgdb (env : Env) {parsed : ParsedName} (hsought : Sought parsed) (searchOverride : Text) :
    Outcome s key (s.queryIgdb env key parsed searchOverride) := by
  unfold State.queryIgdb
  by_cases hconfigured : env.configured = true
  · rw [if_neg (by simp [hconfigured])]
    by_cases hvalid : s.tokenValid env = true
    · rw [if_neg (by simp [hvalid])]
      exact .launched _ rfl rfl hsought rfl
    · rw [if_pos (by simp [hvalid])]
      have hvalid' : ¬ (s.park key parsed).tokenValid env = true := hvalid
      rw [State.ensureIgdbToken, if_neg hvalid', if_neg (by simp [hconfigured])]
      exact .parked parsed hsought
  · rw [if_pos (by simp [hconfigured])]
    exact outcome_withoutIgdb s key parsed

theorem outcome_lookup (env : Env) (parsed : ParsedName) : Outcome s key (s.lookup env key parsed) := by
  unfold State.lookup
  cases htype : parsed.contentType with
  | series => exact .launched _ rfl rfl trivial rfl
  | movie => exact .launched _ rfl rfl trivial rfl
  | game => exact outcome_queryIgdb s key env (.inl htype) []
  | unknown => exact outcome_queryIgdb s key env (.inr htype) []

section Replies

variable (m : MetadataMatch) (env : Env) (answer : Option Body)

theorem outcome_onIgdb {parsed : ParsedName} (hsought : Sought parsed) (queryTitle : Text) :
    Outcome s key (s.onIgdb m env key parsed queryTitle answer) := by
  cases answer with
  | none => exact outcome_withoutIgdb s key parsed
  | some b =>
      unfold State.onIgdb
      dsimp only
      cases m.pickBestIgdbResult b.games parsed.cleanTitle parsed.year with
      | none =>
          dsimp only
          split_ifs
          · exact outcome_queryIgdb s key env hsought _
          · exact outcome_withoutIgdb s key parsed
      | some game => exact outcome_finish s key _ _

theorem outcome_onMovie (parsed : ParsedName) : Outcome s key (s.onMovie m key parsed answer) := by
  cases answer with
  | none => exact .nothing
  | some b =>
      unfold State.onMovie
      dsimp only
      cases b.results with
      | nil =>
          dsimp only
          split_ifs
          · exact .launched _ rfl rfl trivial rfl
          · exact .nothing
      | cons item _ =>
          dsimp only
          split_ifs
          · exact .launched _ rfl rfl trivial rfl
          · exact outcome_finish s key _ _
          · exact outcome_finish s key _ _
          · exact .launched _ rfl rfl trivial rfl
          · exact .launched _ rfl rfl trivial rfl

theorem outcome_onTv (parsed : ParsedName) : Outcome s key (s.onTv m env key parsed answer) := by
  cases answer with
  | none => exact .nothing
  | some b =>
      unfold State.onTv
      dsimp only
      cases b.results with
      | nil => exact .nothing
      | cons item _ =>
          dsimp only
          split_ifs
          · exact .nothing
          · exact .launched _ rfl rfl trivial rfl
          · exact outcome_finish s key _ _

theorem outcome_onFilm (result : MetadataResult) (posterPath : Text) :
    Outcome s key (s.onMovieDetails env result (.film key posterPath) answer) := by
  unfold State.onMovieDetails
  dsimp only
  split_ifs
  · exact .launched _ rfl rfl trivial rfl
  · exact outcome_finish s key _ _

theorem outcome_onSteamItems : Outcome s key (s.onSteamItems key answer) := by
  unfold State.onSteamItems State.downloadPoster
  dsimp only
  rw [canonicalInfoHash_text]
  split_ifs
  · exact .nothing
  · exact .poster _
  · exact .settled _

end Replies

end Outcome

open Lib Machine

def State.lookups (s : State) : Nat := s.outstanding.countP Request.isLookup

-- One lookup is in flight at the most, and the flag says whether there is one.
def Serial (s : State) : Prop := s.lookups ≤ 1 ∧ (s.requestInFlight = true ↔ s.lookups = 1)

-- What is parked, and what IGDB was asked for, is looked for there first.
structure AllSought (s : State) : Prop where
  pending : ∀ p ∈ s.igdbPending, Sought p.2
  requests : ∀ r ∈ s.outstanding, r.Sought

-- One lookup may have been launched.
structure Adds (s t : State) : Prop where
  lookups : t.lookups = s.lookups ∧ (t.requestInFlight = s.requestInFlight ∨ t.requestInFlight = false) ∨
    t.lookups = s.lookups + 1 ∧ t.requestInFlight = true
  sought : AllSought s → AllSought t

structure Idle (s : State) : Prop where
  lookups : s.lookups = 0
  inFlight : s.requestInFlight = false

section Lookups

variable {s t : State} {key : InfoHash} {env : Env}

theorem Idle.serial (h : Idle s) : Serial s := by
  refine ⟨by rw [h.lookups]; exact Nat.zero_le 1, ?_⟩
  rw [h.lookups, h.inFlight]
  exact iff_of_false Bool.false_ne_true Nat.zero_ne_one

theorem Serial.idle (h : Serial s) (hflag : s.requestInFlight = false) : Idle s := by
  refine ⟨?_, hflag⟩
  have hone : s.lookups ≠ 1 := fun hone => by
    rw [h.2.mpr hone] at hflag
    cases hflag
  have hle := h.1
  omega

theorem Adds.serial (h : Adds s t) (hidle : Idle s) : Serial t := by
  rcases h.lookups with ⟨hlookups, hflag⟩ | ⟨hlookups, hflag⟩
  · refine Idle.serial ⟨hlookups.trans hidle.lookups, ?_⟩
    rcases hflag with hflag | hflag
    · exact hflag.trans hidle.inFlight
    · exact hflag
  · rw [hidle.lookups] at hlookups
    exact ⟨hlookups.le, iff_of_true hflag hlookups⟩

theorem lookups_ask (s : State) (r : Request) : (s.ask r).lookups = s.lookups + if r.isLookup then 1 else 0 := by
  unfold State.lookups State.ask
  rw [List.countP_append, List.countP_singleton]

theorem sought_ask {r : Request} (hr : r.Sought) (h : AllSought s) : AllSought (s.ask r) where
  pending := h.pending
  requests r' hr' := by
    rcases List.mem_append.mp hr' with hr' | hr'
    · exact h.requests r' hr'
    · rw [List.mem_singleton.mp hr']
      exact hr

theorem adds_launch {r : Request} (hlookup : r.isLookup = true) (hr : r.Sought) : Adds s (s.launch r) where
  lookups := .inr ⟨(lookups_ask s r).trans (by rw [if_pos hlookup]), rfl⟩
  sought h := ⟨(sought_ask hr h).pending, (sought_ask hr h).requests⟩

theorem Outcome.adds (h : Outcome s key t) : Adds s t := by
  cases h with
  | launched r hkey hlookup hsought hplain => exact adds_launch hlookup hsought
  | poster r => exact ⟨.inl ⟨lookups_ask s _, .inl rfl⟩, sought_ask trivial⟩
  | parked parsed hsought =>
      refine ⟨.inl ⟨lookups_ask _ _, .inr rfl⟩, fun h => sought_ask trivial ⟨fun p hp => ?_, h.requests⟩⟩
      rcases List.mem_append.mp hp with hp | hp
      · exact h.pending p hp
      · rw [List.mem_singleton.mp hp]
        exact hsought
  | nothing => exact ⟨.inl ⟨rfl, .inl rfl⟩, fun h => ⟨h.pending, h.requests⟩⟩
  | settled r => exact ⟨.inl ⟨rfl, .inl rfl⟩, fun h => ⟨h.pending, h.requests⟩⟩

theorem adds_onCollection (env : Env) (s : State) (answer : Option Body) (result : MetadataResult) :
    Adds s (s.onMovieDetails env result (.collection key) answer) := by
  unfold State.onMovieDetails
  dsimp only
  split_ifs <;> exact ⟨.inl ⟨rfl, .inl rfl⟩, fun h => ⟨h.pending, h.requests⟩⟩

theorem adds_nextCollection (s : State) (keys : List InfoHash) : Adds s (s.nextCollection keys) := by
  induction keys with
  | nil => exact ⟨.inl ⟨rfl, .inl rfl⟩, fun h => ⟨h.pending, h.requests⟩⟩
  | cons key rest ih =>
      unfold State.nextCollection
      dsimp only
      split_ifs
      · have hadds : Adds { s with collectionQueue := rest }
            (({ s with collectionQueue := rest } : State).launch
              (.movieDetails ((s.cache key).getD {}) (.collection key))) := adds_launch rfl trivial
        exact ⟨hadds.lookups, fun h => hadds.sought ⟨h.pending, h.requests⟩⟩
      · exact ih

theorem adds_processQueue (env : Env) (s : State) : Adds s (s.processQueue env) := by
  unfold State.processQueue
  split_ifs with hbusy
  · exact ⟨.inl ⟨rfl, .inl rfl⟩, id⟩
  · split
    · exact adds_nextCollection s s.collectionQueue
    · next key parsed rest hqueue =>
        have hadds := (outcome_lookup { s with queue := rest } key env parsed).adds
        exact ⟨hadds.lookups, fun h => hadds.sought ⟨h.pending, h.requests⟩⟩

end Lookups

-- What leaves the lookups in one line.
structure Keeps (s t : State) : Prop where
  serial : Serial s → Serial t
  sought : AllSought s → AllSought t

section Steps

variable {s t u : State} {key : InfoHash} {env : Env}

theorem Keeps.trans (h : Keeps s t) (h' : Keeps t u) : Keeps s u :=
  ⟨fun hs => h'.serial (h.serial hs), fun hs => h'.sought (h.sought hs)⟩

-- What neither the requests nor the parked lookups are part of.
theorem keeps_of_eq (hout : t.outstanding = s.outstanding) (hpending : t.igdbPending = s.igdbPending)
    (hflag : t.requestInFlight = s.requestInFlight) : Keeps s t := by
  refine ⟨fun h => ?_, fun h => ⟨hpending ▸ h.pending, hout ▸ h.requests⟩⟩
  unfold Serial State.lookups at h ⊢
  rwa [hout, hflag]

theorem keeps_processQueue (env : Env) (s : State) : Keeps s (s.processQueue env) := by
  refine ⟨fun h => ?_, (adds_processQueue env s).sought⟩
  by_cases hbusy : s.requestInFlight = true
  · rwa [show s.processQueue env = s from if_pos hbusy]
  · exact (adds_processQueue env s).serial (h.idle (Bool.eq_false_iff.mpr hbusy))

theorem keeps_processed (env : Env) (h : Keeps s t) : Keeps s (t.processQueue env) :=
  h.trans (keeps_processQueue env t)

theorem keeps_kick (env : Env) (s : State) : Keeps s (s.kick env) := by
  unfold State.kick
  split_ifs
  · exact keeps_processQueue env s
  · exact ⟨id, id⟩

theorem keeps_kicked (env : Env) (h : Keeps s t) : Keeps s (t.kick env) := h.trans (keeps_kick env t)

theorem keeps_queueCollectionCheck (env : Env) (s : State) (key : InfoHash) :
    Keeps s (s.queueCollectionCheck env key) := by
  unfold State.queueCollectionCheck
  split_ifs
  · exact ⟨id, id⟩
  · exact keeps_kicked env (keeps_of_eq rfl rfl rfl)

theorem keeps_resolve (env : Env) (s : State) (infoHash : Text) (parsed : ParsedName) :
    Keeps s (s.resolve env infoHash parsed) := by
  unfold State.resolve
  dsimp only
  split_ifs
  · exact ⟨id, id⟩
  · exact keeps_queueCollectionCheck env s _
  · exact keeps_kicked env (keeps_of_eq rfl rfl rfl)

theorem keeps_batchAdd (env : Env) (s : State) (torrent : Text × ParsedName) :
    Keeps s (State.batchAdd env s torrent) := by
  unfold State.batchAdd
  dsimp only
  split_ifs
  · exact ⟨id, id⟩
  · exact keeps_queueCollectionCheck env s _
  · exact keeps_of_eq rfl rfl rfl

theorem keeps_batchResolve (env : Env) (s : State) (torrents : List (Text × ParsedName)) :
    Keeps s (s.batchResolve env torrents) := by
  have hfold : ∀ s, Keeps s (torrents.foldl (State.batchAdd env) s) := by
    induction torrents with
    | nil => exact fun s => ⟨id, id⟩
    | cons torrent torrents ih => exact fun s => (keeps_batchAdd env s torrent).trans (ih _)
  unfold State.batchResolve
  dsimp only
  split_ifs
  · exact (hfold s).trans (keeps_kick env _)
  · exact hfold s

theorem keeps_resolveManual (env : Env) (s : State) (infoHash query : Text) (parsed : ParsedName) :
    Keeps s (s.resolveManual env infoHash query parsed) := by
  unfold State.resolveManual
  dsimp only
  split_ifs
  · exact ⟨id, id⟩
  · exact keeps_kicked env (keeps_of_eq rfl rfl rfl)

theorem keeps_clearMetadata (s : State) (infoHash : Text) : Keeps s (s.clearMetadata infoHash) := by
  unfold State.clearMetadata
  dsimp only
  split_ifs
  · exact ⟨id, id⟩
  · exact keeps_of_eq rfl rfl rfl
  · exact keeps_of_eq rfl rfl rfl

end Steps

section Replies

variable {s t : State} {env : Env} {i : Nat} {request : Request}

def State.without (s : State) (i : Nat) : State := { s with outstanding := s.outstanding.eraseIdx i }

theorem lookups_without (hi : s.outstanding[i]? = some request) :
    s.lookups = (s.without i).lookups + if request.isLookup then 1 else 0 := by
  obtain ⟨hlt, rfl⟩ := List.getElem?_eq_some_iff.mp hi
  have hperm := (List.getElem_cons_eraseIdx_perm hlt).countP_eq Request.isLookup
  rw [List.countP_cons] at hperm
  exact hperm.symm

theorem sought_without (i : Nat) (h : AllSought s) : AllSought (s.without i) :=
  ⟨h.pending, fun r hr => h.requests r (List.mem_of_mem_eraseIdx hr)⟩

theorem idle_landed (h : Serial s) (hi : s.outstanding[i]? = some request) (hlookup : request.isLookup = true) :
    Idle (s.without i).landed := by
  have hcount := lookups_without hi
  rw [if_pos hlookup] at hcount
  have hle := h.1
  exact ⟨show (s.without i).lookups = 0 by omega, rfl⟩

theorem keeps_landed (hi : s.outstanding[i]? = some request) (hlookup : request.isLookup = true)
    (hadds : Adds (s.without i).landed t) : Keeps s t where
  serial h := hadds.serial (idle_landed h hi hlookup)
  sought h := hadds.sought ⟨(sought_without i h).pending, (sought_without i h).requests⟩

-- The answers that are no token keep the lookups in one line.
theorem keeps_onReply (m : MetadataMatch) (env : Env) (answer : Option Body) (hsought : AllSought s)
    (hi : s.outstanding[i]? = some request) (hne : request ≠ .token) :
    Keeps s ((s.without i).onReply m env answer request) := by
  cases request with
  | token => exact absurd rfl hne
  | igdb key parsed queryTitle =>
      exact keeps_landed hi rfl (outcome_onIgdb _ key m env answer (hsought.requests _ (List.mem_of_getElem? hi)) _).adds
  | movie key parsed => exact keeps_landed hi rfl (outcome_onMovie _ key m answer parsed).adds
  | movieDetails result done =>
      cases done with
      | film key posterPath => exact keeps_landed hi rfl (outcome_onFilm _ key env answer result posterPath).adds
      | collection key => exact keeps_landed hi rfl (adds_onCollection env _ answer result)
  | tv key parsed => exact keeps_landed hi rfl (outcome_onTv _ key m env answer parsed).adds
  | overviewEn result key posterPath => exact keeps_landed hi rfl (outcome_finish _ key posterPath _).adds
  | steamItems key => exact keeps_landed hi rfl (outcome_onSteamItems _ key answer).adds
  | steamSearch key parsed =>
      change Keeps s ((s.without i).onSteamSearch key answer)
      unfold State.onSteamSearch
      split_ifs
      · exact keeps_landed hi rfl (Outcome.adds (.nothing : Outcome (s.without i).landed key _))
      · refine ⟨fun h => ?_, fun h => sought_ask trivial (sought_without i h)⟩
        -- The second request of the store goes out in the place of the first.
        have hcount : s.lookups = (s.without i).lookups + 1 := lookups_without hi
        have hask : ((s.without i).ask (.steamItems key)).lookups = s.lookups :=
          (lookups_ask _ _).trans hcount.symm
        unfold Serial at h ⊢
        rwa [hask]
  | poster key part =>
      have hcount : s.lookups = (s.without i).lookups := lookups_without hi
      refine ⟨fun h => ?_, fun h => ⟨(sought_without i h).pending, (sought_without i h).requests⟩⟩
      unfold Serial at h
      rw [hcount] at h
      exact h

end Replies

section Drain

variable {s : State} {env : Env}

-- With a token each lookup that was parked goes out at once.
theorem drainOne_useful (huseful : Useful env s) (hsought : AllSought s) (hpending : s.igdbPending ≠ []) :
    (State.drainOne env s).lookups = s.lookups + 1 ∧ (State.drainOne env s).requestInFlight = true ∧
      AllSought (State.drainOne env s) := by
  unfold State.drainOne
  split
  · next hnil => exact absurd hnil hpending
  · next key parsed rest hcons =>
      have hthis : Sought parsed := hsought.pending (key, parsed) (hcons ▸ List.mem_cons_self)
      have hrest : AllSought { s with igdbPending := rest } :=
        ⟨fun p hp => hsought.pending p (hcons ▸ List.mem_cons_of_mem _ hp), hsought.requests⟩
      refine ⟨?_, ?_, (outcome_queryIgdb { s with igdbPending := rest } key env hthis []).adds.sought hrest⟩
      all_goals
        unfold State.queryIgdb
        by_cases hconfigured : env.configured = true
        · have hvalid := huseful.resolve_left (by simp [hconfigured])
          have hvalid' : ({ s with igdbPending := rest } : State).tokenValid env = true := hvalid
          rw [if_neg (by simp [hconfigured]), if_neg (by simp [hvalid'])]
          first
          | exact lookups_ask _ _
          | rfl
        · rw [if_pos (by simp [hconfigured])]
          unfold State.withoutIgdb
          rcases hthis with htype | htype <;> rw [htype] <;> first | exact lookups_ask _ _ | rfl

theorem iterate_useful (huseful : Useful env s) (hsought : AllSought s) {n : Nat} (hn : n < s.igdbPending.length) :
    ((State.drainOne env)^[n + 1] s).lookups = s.lookups + (n + 1) ∧
      ((State.drainOne env)^[n + 1] s).requestInFlight = true ∧ AllSought ((State.drainOne env)^[n + 1] s) := by
  induction n with
  | zero => exact drainOne_useful huseful hsought (List.ne_nil_of_length_pos hn)
  | succ n ih =>
      obtain ⟨hlookups, _, hall⟩ := ih (Nat.lt_of_succ_lt hn)
      have hstill : Useful env ((State.drainOne env)^[n + 1] s) := (useful_iterate (n + 1)).mpr huseful
      have hpending : ((State.drainOne env)^[n + 1] s).igdbPending ≠ [] := by
        rw [pending_iterate huseful, Ne, List.drop_eq_nil_iff, not_le]
        exact hn
      rw [Function.iterate_succ_apply']
      obtain ⟨hnext, hflag, hsought'⟩ := drainOne_useful hstill hall hpending
      exact ⟨by rw [hnext, hlookups, Nat.add_assoc], hflag, hsought'⟩

-- Without a token they are parked again, and the flag is down.
theorem drainOne_useless (huseless : ¬ Useful env s) (hsought : AllSought s) (hpending : s.igdbPending ≠ []) :
    (State.drainOne env s).lookups = s.lookups ∧ (State.drainOne env s).requestInFlight = false ∧
      AllSought (State.drainOne env s) := by
  obtain ⟨hconfigured, hvalid⟩ := not_or.mp huseless
  unfold State.drainOne
  split
  · next hnil => exact absurd hnil hpending
  · next key parsed rest hcons =>
      have hthis : Sought parsed := hsought.pending (key, parsed) (hcons ▸ List.mem_cons_self)
      have hrest : AllSought { s with igdbPending := rest } :=
        ⟨fun p hp => hsought.pending p (hcons ▸ List.mem_cons_of_mem _ hp), hsought.requests⟩
      have hvalid' : ¬ ({ s with igdbPending := rest } : State).tokenValid env = true := hvalid
      have hparked : ¬ (({ s with igdbPending := rest } : State).park key parsed).tokenValid env = true := hvalid
      refine ⟨?_, ?_, (outcome_queryIgdb { s with igdbPending := rest } key env hthis []).adds.sought hrest⟩
      all_goals
        rw [State.queryIgdb, if_neg (by simpa using hconfigured), if_pos (by simpa using hvalid'),
          State.ensureIgdbToken, if_neg hparked, if_neg (by simpa using hconfigured)]
      · exact lookups_ask _ _
      · rfl

theorem iterate_useless (huseless : ¬ Useful env s) (hsought : AllSought s) (hpending : s.igdbPending ≠ []) (n : Nat) :
    ((State.drainOne env)^[n + 1] s).lookups = s.lookups ∧
      ((State.drainOne env)^[n + 1] s).requestInFlight = false ∧ AllSought ((State.drainOne env)^[n + 1] s) := by
  induction n with
  | zero => exact drainOne_useless huseless hsought hpending
  | succ n ih =>
      obtain ⟨hlookups, _, hall⟩ := ih
      have hstill : ¬ Useful env ((State.drainOne env)^[n + 1] s) := (useful_iterate (n + 1)).not.mpr huseless
      have hpending' : ((State.drainOne env)^[n + 1] s).igdbPending ≠ [] := by
        rw [← List.length_pos_iff, length_iterate huseless, List.length_pos_iff]
        exact hpending
      rw [Function.iterate_succ_apply']
      obtain ⟨hnext, hflag, hsought'⟩ := drainOne_useless hstill hall hpending'
      exact ⟨hnext.trans hlookups, hflag, hsought'⟩

-- What the loop leaves, with nothing parked, with a token that is of use and with none.
theorem serial_drain (h : Serial s) (hsought : AllSought s) :
    AllSought (s.drain env) ∧
      (Serial (s.drain env) ↔ s.igdbPending = [] ∨
        s.requestInFlight = false ∧ (s.igdbPending.length = 1 ∨ ¬ Useful env s)) := by
  obtain ⟨n, hn⟩ | hnil : (∃ n, s.igdbPending.length = n + 1) ∨ s.igdbPending = [] := by
    cases hpending : s.igdbPending with
    | nil => exact .inr rfl
    | cons p rest => exact .inl ⟨rest.length, rfl⟩
  · have hpending : s.igdbPending ≠ [] := List.ne_nil_of_length_pos (by omega)
    have hdrain : s.drain env = { (State.drainOne env)^[n + 1] s with
        hung := ((State.drainOne env)^[n + 1] s).igdbPending ≠ [] } := by
      unfold State.drain
      rw [hn]
    rw [hdrain, or_iff_right hpending, hn]
    by_cases huseful : Useful env s
    · obtain ⟨hlookups, hflag, hall⟩ := iterate_useful huseful hsought (n := n) (by omega)
      refine ⟨⟨hall.pending, hall.requests⟩, ?_⟩
      rw [or_iff_left (not_not.mpr huseful)]
      unfold Serial State.lookups at h ⊢
      unfold State.lookups at hlookups
      dsimp only
      rw [hlookups, hflag]
      constructor
      · rintro ⟨hle, -⟩
        have hzero : s.outstanding.countP Request.isLookup = 0 := by omega
        refine ⟨Bool.eq_false_iff.mpr fun hbusy => ?_, by omega⟩
        rw [h.2.mp hbusy] at hzero
        cases hzero
      · rintro ⟨hidle, hone⟩
        have hzero : s.outstanding.countP Request.isLookup = 0 := (Serial.idle h hidle).lookups
        rw [hzero]
        exact ⟨by omega, iff_of_true rfl (by omega)⟩
    · obtain ⟨hlookups, hflag, hall⟩ := iterate_useless huseful hsought hpending n
      refine ⟨⟨hall.pending, hall.requests⟩, ?_⟩
      rw [and_iff_left (.inr huseful)]
      unfold Serial State.lookups at h ⊢
      unfold State.lookups at hlookups
      dsimp only
      rw [hlookups, hflag, ← Bool.not_eq_true, h.2, iff_false_left Bool.false_ne_true, and_iff_right h.1]
  · have hstay : s.drain env = { s with hung := false } := by
      unfold State.drain
      rw [hnil]
      simp [hnil]
    rw [hstay]
    exact ⟨⟨hsought.pending, hsought.requests⟩, iff_of_true h (.inl hnil)⟩

end Drain

section Run

variable {m : MetadataMatch} {s t : State}

-- A token comes when no more than one lookup waits for it, and none is in flight beside that one.
def OneWaiting (s : State) : Event → Prop
  | .reply env i (some b) => s.outstanding[i]? = some .token → s.igdbPending = [] ∨
      s.requestInFlight = false ∧
        (s.igdbPending.length = 1 ∨ env.configured = true ∧ (b.accessToken = [] ∨ b.expiresIn ≤ 60))
  | _ => True

theorem serial_onToken {env : Env} {i : Nat} (answer : Option Body) (h : Serial s) (hsought : AllSought s)
    (hi : s.outstanding[i]? = some .token) :
    AllSought ((s.without i).onToken env answer) ∧
      (Serial ((s.without i).onToken env answer) ↔ OneWaiting s (.reply env i answer)) := by
  have hcount : s.lookups = (s.without i).lookups := lookups_without hi
  have hserial : Serial (s.without i) := by
    unfold Serial at h
    rwa [hcount] at h
  cases answer with
  | none => exact ⟨sought_without i hsought, iff_of_true hserial trivial⟩
  | some b =>
      have hserial' : Serial { s.without i with
          igdbAccessToken := b.accessToken
          igdbTokenExpiry := env.now + b.expiresIn - 60 } := hserial
      have hsought' := sought_without i hsought
      obtain ⟨hall, hiff⟩ := serial_drain hserial' ⟨hsought'.pending, hsought'.requests⟩
      refine ⟨hall, hiff.trans ?_⟩
      rw [useful_token, not_or, not_and_or, not_not, Bool.not_eq_false, Int.not_lt]
      exact ⟨fun h _ => h, fun h => h hi⟩

-- A step keeps the lookups in one line exactly where no token comes to several.
theorem next_serial_iff {e : Event} (h : Serial s) (hsought : AllSought s) (hnext : s.next m e = some t) :
    AllSought t ∧ (Serial t ↔ OneWaiting s e) := by
  unfold State.next at hnext
  by_cases hhung : s.hung = true
  · rw [if_pos hhung] at hnext
    cases hnext
  rw [if_neg hhung] at hnext
  have hkeeps : Keeps s t → OneWaiting s e → AllSought t ∧ (Serial t ↔ OneWaiting s e) :=
    fun hkeeps hone => ⟨hkeeps.sought hsought, iff_of_true (hkeeps.serial h) hone⟩
  cases e with
  | resolve env infoHash parsed =>
      cases hnext
      exact hkeeps (keeps_resolve env s infoHash parsed) trivial
  | batchResolve env torrents =>
      cases hnext
      exact hkeeps (keeps_batchResolve env s torrents) trivial
  | resolveManual env infoHash query parsed =>
      cases hnext
      exact hkeeps (keeps_resolveManual env s infoHash query parsed) trivial
  | clearMetadata infoHash =>
      cases hnext
      exact hkeeps (keeps_clearMetadata s infoHash) trivial
  | timeout env =>
      dsimp only at hnext
      split_ifs at hnext
      obtain rfl := Option.some.inj hnext
      exact hkeeps (keeps_processed env (keeps_of_eq rfl rfl rfl)) trivial
  | reply env i answer =>
      obtain ⟨request, hi, rfl⟩ := Option.map_eq_some_iff.mp hnext
      by_cases htoken : request = .token
      · subst htoken
        exact serial_onToken answer h hsought hi
      · have hone : OneWaiting s (.reply env i answer) := by
          cases answer with
          | none => trivial
          | some b => exact fun hi' => absurd (Option.some.inj (hi.symm.trans hi')) htoken
        exact hkeeps (keeps_onReply m env answer hsought hi htoken) hone

-- The lookups of a run are one after the other, and the flag tells, exactly while each token comes to
-- one of them.
theorem run_serial (m : MetadataMatch) (cache : InfoHash → Option MetadataResult)
    {past : List (Reaction State Event Empty)} {s : State}
    (hrun : (machine m cache).Run (fun _ _ => True) past s) :
    (∀ t ∈ visited past s, Serial t) ↔ ∀ r ∈ past, OneWaiting r.before r.event := by
  have hinit : Serial (machine m cache).init := ⟨Nat.zero_le 1, iff_of_false Bool.false_ne_true Nat.zero_ne_one⟩
  have hinv : ∀ {past s}, (machine m cache).Run (fun _ _ => True) past s →
      (∀ r ∈ past, OneWaiting r.before r.event) → Serial s ∧ AllSought s := by
    intro past s hrun
    refine hrun.invariant_past (fun past s => (∀ r ∈ past, OneWaiting r.before r.event) → Serial s ∧ AllSought s)
      (fun _ => ⟨hinit, nofun, nofun⟩) fun past s e t out hs _ hnext hone => ?_
    obtain ⟨hlast, hpast⟩ := List.forall_mem_cons.mp hone
    obtain ⟨hserial, hsought⟩ := hs hpast
    obtain ⟨t', ht, heq⟩ := Option.map_eq_some_iff.mp hnext
    obtain ⟨rfl, -⟩ := Prod.mk.inj heq
    obtain ⟨hsought', hiff⟩ := next_serial_iff hserial hsought ht
    exact ⟨hiff.mpr hlast, hsought'⟩
  rw [hrun.forall_visited_iff_of_past (C := OneWaiting) (iff_of_true hinit trivial) ?_, true_and]
  intro past s e t out hrun hone hserial hnext
  obtain ⟨t', ht, heq⟩ := Option.map_eq_some_iff.mp hnext
  obtain ⟨rfl, -⟩ := Prod.mk.inj heq
  exact (next_serial_iff hserial (hinv hrun hone).2 ht).2

-- A game is parked and asked for, and then a film beside the cover of the game.
theorem run_serial_beside_cover :
    ∃ past s, (machine pickFirst fun _ => none).Run (fun _ _ => True) past s ∧ s.outstanding.length = 2 ∧
      ∀ t ∈ visited past s, Serial t := by
  have hinit : (machine pickFirst fun _ => none).Run (fun _ _ => True) []
      (machine pickFirst fun _ => none).init := .init
  have hrun := (((hinit.extend (.resolve atNoon ['a'] game) trivial rfl).extend
    (.reply atNoon 0 (some { accessToken := ['t'] })) trivial rfl).extend
    (.reply atNoon 0 (some { games := [⟨['G'], [], ['i']⟩] })) trivial rfl).extend
    (.resolve atNoon ['b'] ⟨['f'], 0, .movie⟩) trivial rfl
  refine ⟨_, _, hrun, rfl, (run_serial pickFirst _ hrun).mpr ?_⟩
  rw [List.forall_mem_cons, List.forall_mem_cons, List.forall_mem_cons, List.forall_mem_singleton]
  exact ⟨trivial, (fun htoken => by cases htoken), fun _ => .inr ⟨rfl, .inl rfl⟩, trivial⟩

-- Two games wait for one token.
theorem not_serial :
    ¬ ∀ past s, (machine pickFirst fun _ => none).Run (fun _ _ => True) past s → Serial s := by
  intro h
  have hinit : (machine pickFirst fun _ => none).Run (fun _ _ => True) []
      (machine pickFirst fun _ => none).init := .init
  have hrun := ((hinit.extend (.resolve atNoon ['a'] game) trivial rfl).extend
    (.resolve atNoon ['b'] game) trivial rfl).extend
    (.reply atNoon 0 (some { accessToken := ['t'] })) trivial rfl
  exact absurd (h _ _ hrun).1 (by decide)

end Run

end BATorrent.MetadataResolver
