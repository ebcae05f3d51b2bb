import BATorrent.Services.DiscoveryService.Replies

namespace BATorrent.DiscoveryService

open Lib
open Lib.DataStream (QString)
open Lib.KeepFirst (keepFirst)

variable {catalog : Catalog} {toLower : QString → QString} {w : World} {s : Service}

-- What keeps the shelves in order and in the language: a second page after the first, a failed token
-- only where the others fail too, and a switch of language only between two refreshes, with a key.
def Orderly (catalog : Catalog) (s : Service) : World × Call → Prop
  | (_, .load) => True
  | (_, .refresh) => True
  | (w, .reloadForLanguage language) =>
      language = s.language ∨
        s.loading = false ∧ (w.haveTmdb = true ∨ w.haveIgdb = true ∨ s.rows = [])
  | (_, .reply ⟨shelf, .tmdb page⟩) => PageInOrder catalog s shelf page
  | (_, .reply ⟨shelf, .token⟩) => TokenInOrder catalog s shelf
  | (_, .reply _) => True

instance (s : Service) (shelf : Shelf) (page : Nat) : Decidable (PageInOrder catalog s shelf page) :=
  inferInstanceAs (Decidable (_ → _ → _))

instance (s : Service) (shelf : Shelf) : Decidable (TokenInOrder catalog s shelf) :=
  inferInstanceAs (Decidable (_ → _))

instance : (s : Service) → (e : World × Call) → Decidable (Orderly catalog s e)
  | _, (_, .load) => .isTrue trivial
  | _, (_, .refresh) => .isTrue trivial
  | _, (_, .reloadForLanguage _) => inferInstanceAs (Decidable (_ ∨ _))
  | s, (_, .reply ⟨shelf, .tmdb page⟩) => inferInstanceAs (Decidable (PageInOrder catalog s shelf page))
  | s, (_, .reply ⟨shelf, .token⟩) => inferInstanceAs (Decidable (TokenInOrder catalog s shelf))
  | _, (_, .reply ⟨_, .types⟩) => .isTrue trivial
  | _, (_, .reply ⟨_, .ids _⟩) => .isTrue trivial
  | _, (_, .reply ⟨_, .gamesByIds _⟩) => .isTrue trivial
  | _, (_, .reply ⟨_, .games⟩) => .isTrue trivial

section Handle

theorem passes_eq {f : Fetch} {order : Nat} (hfresh : f.tokenFresh = false) :
    passes catalog f order =
      match catalog.token (f.shelf order) with
      | some (token, _) => decide (token ≠ [])
      | none => decide (f.igdbToken ≠ []) := by
  rw [passes, hfresh]
  rfl

theorem settled_inserted (h : Settled catalog toLower s) (hbusy : s.loading = true) {shelf : Shelf} {ask : Ask}
    (hr : ⟨shelf, ask⟩ ∈ s.outstanding) (hask : ∀ page, ask ≠ .tmdb page) {items : List Item}
    (hitems : items = gameItems catalog s.fetch shelf.order) :
    let s' := maybeFinish toLower w
      (insertGames shelf.order shelf.label items { s with outstanding := s.outstanding.erase ⟨shelf, ask⟩ })
    Settled catalog toLower s' ∧ Finished catalog toLower s.fetch s' := by
  have hasked := asked h hbusy hr hask
  have hlabel : shelf.label = s.fetch.label shelf.order := congrArg Shelf.label hasked.shelf_eq
  have hinsert := insertGames_rowOf (f := s.fetch)
    (s := { s with outstanding := s.outstanding.erase ⟨shelf, ask⟩ }) hasked.accum items
  rw [hlabel, hinsert]
  exact settled_games h hbusy hr hask hitems

theorem settled_handle (h : Settled catalog toLower s) (hbusy : s.loading = true) {r : Request}
    (hr : r ∈ s.outstanding) (horderly : Orderly catalog s (w, .reply r)) :
    let s' := handle toLower w catalog r { s with outstanding := s.outstanding.erase r }
    Settled catalog toLower s' ∧ Finished catalog toLower s.fetch s' := by
  obtain ⟨shelf, ask⟩ := r
  cases ask with
  | tmdb page => exact settled_tmdb h hbusy hr horderly
  | token =>
      have hasked := asked h hbusy hr (fun _ => Ask.noConfusion)
      have hpasses : passes catalog s.fetch shelf.order = _ := passes_eq hasked.progress.of_token.1
      rw [← hasked.shelf_eq] at hpasses
      unfold handle
      dsimp only
      cases htoken : catalog.token shelf with
      | none =>
          rw [htoken] at hpasses
          apply settled_withToken h hbusy hr
          rw [hpasses]
          exact decide_eq_decide.mpr (not_congr (horderly htoken)).symm
      | some reply =>
          rw [htoken] at hpasses
          exact settled_withToken h hbusy hr hpasses
  | types =>
      have hasked := asked h hbusy hr (fun _ => Ask.noConfusion)
      obtain ⟨hzero, hpass, hunknown⟩ := hasked.progress.of_types
      have hids : hypeType catalog s.fetch = catalog.types shelf := by
        rw [hypeType, hunknown, if_neg (Nat.lt_irrefl 0), hasked.shelf_eq, hzero]
      apply settled_next h hbusy hr (fun _ => Ask.noConfusion)
      · exact fun o ho hzero' => absurd (hzero'.trans hzero.symm) ho
      · rw [← hids]
        exact .ids hzero hasked.key hpass
  | ids hypeTypeId =>
      have hasked := asked h hbusy hr (fun _ => Ask.noConfusion)
      obtain ⟨hzero, hpass, rfl⟩ := hasked.progress.of_ids
      have hfound : catalog.ids shelf (hypeType catalog s.fetch) = hypeIds catalog s.fetch := by
        rw [hypeIds, ← hzero, ← hasked.shelf_eq]
      unfold handle
      dsimp only
      rw [hfound]
      by_cases hnone : hypeIds catalog s.fetch = []
      · rw [if_pos hnone]
        have hitems : gameItems catalog s.fetch shelf.order = [] := by
          rw [gameItems, hzero, hpass, if_neg (by simp), if_pos rfl, if_pos hnone]
        exact settled_nothing h hbusy hr (fun _ => Ask.noConfusion) hitems
      · rw [if_neg hnone]
        apply settled_next h hbusy hr (fun _ => Ask.noConfusion) (fun _ _ _ => rfl)
        exact .gamesByIds hzero hasked.key hpass hnone
  | gamesByIds ids =>
      have hasked := asked h hbusy hr (fun _ => Ask.noConfusion)
      obtain ⟨hzero, hpass, rfl, hids⟩ := hasked.progress.of_gamesByIds
      have hitems : catalog.gamesByIds shelf (hypeIds catalog s.fetch) =
          gameItems catalog s.fetch shelf.order := by
        rw [gameItems, hzero, hpass, if_neg (by simp), if_pos rfl, if_neg hids, ← hzero,
          ← hasked.shelf_eq]
      exact settled_inserted h hbusy hr (fun _ => Ask.noConfusion) hitems
  | games =>
      have hasked := asked h hbusy hr (fun _ => Ask.noConfusion)
      obtain ⟨hne, hpass⟩ := hasked.progress.of_games
      have hitems : catalog.games shelf = gameItems catalog s.fetch shelf.order := by
        rw [gameItems, hpass, if_neg (by simp), if_neg hne, ← hasked.shelf_eq]
      exact settled_inserted h hbusy hr (fun _ => Ask.noConfusion) hitems

end Handle

section Refresh

-- What a refresh asks first for a shelf of games.
def firstAsk (f : Fetch) (order : Nat) : Ask :=
  if f.tokenFresh then
    if order = 0 then
      if 0 < f.hypeTypeId then .ids f.hypeTypeId else .types
    else .games
  else .token

def pageRequests (f : Fetch) (order : Nat) : List Request :=
  [⟨f.shelf order, .tmdb 1⟩, ⟨f.shelf order, .tmdb 2⟩]

theorem fetchIgdb_eq (hfresh : s.fetch.tokenFresh = decide (s.igdbToken ≠ [] ∧ w.now < s.igdbTokenExpiry))
    (hhype : s.fetch.hypeTypeId = s.hypeTypeId) (order : Nat) :
    fetchIgdb toLower w (s.fetch.shelf order) s =
      { s with
        outstanding := s.outstanding ++ [⟨s.fetch.shelf order, firstAsk s.fetch order⟩]
        pending := s.pending + 1 } := by
  unfold fetchIgdb ensureIgdbToken firstAsk
  dsimp only
  rw [hfresh, hhype]
  by_cases htoken : s.igdbToken ≠ [] ∧ w.now < s.igdbTokenExpiry
  · rw [if_pos htoken, decide_eq_true htoken, if_pos rfl]
    unfold withToken
    dsimp only
    rw [if_neg htoken.1]
    have horder : (s.fetch.shelf order).order = order := rfl
    rw [horder]
    by_cases hzero : order = 0
    · rw [if_pos hzero, if_pos hzero]
      split
      · rfl
      · rfl
    · rw [if_neg hzero, if_neg hzero]
      rfl
  · rw [if_neg htoken, decide_eq_false htoken, if_neg Bool.false_ne_true]
    rfl

theorem foldl_fetchIgdb (hfresh : s.fetch.tokenFresh = decide (s.igdbToken ≠ [] ∧ w.now < s.igdbTokenExpiry))
    (hhype : s.fetch.hypeTypeId = s.hypeTypeId) (orders : List Nat) :
    orders.foldl (fun s order => fetchIgdb toLower w (s.fetch.shelf order) s) s =
      { s with
        outstanding := s.outstanding ++ orders.map fun order => ⟨s.fetch.shelf order, firstAsk s.fetch order⟩
        pending := s.pending + orders.length } := by
  induction orders generalizing s with
  | nil => simp
  | cons order orders ih =>
      rw [List.foldl_cons, fetchIgdb_eq hfresh hhype]
      apply (ih (s := { s with
        outstanding := s.outstanding ++ [⟨s.fetch.shelf order, firstAsk s.fetch order⟩]
        pending := s.pending + 1 }) hfresh hhype).trans
      simp only [List.map_cons, List.length_cons, List.append_assoc, List.cons_append, List.nil_append]
      congr 1
      push_cast
      omega

theorem foldl_fetchTmdb (orders : List Nat) :
    orders.foldl (fun s order => fetchTmdb (s.fetch.shelf order) 2 (fetchTmdb (s.fetch.shelf order) 1 s)) s =
      { s with
        outstanding := s.outstanding ++ orders.flatMap (pageRequests s.fetch)
        pending := s.pending + (orders.flatMap (pageRequests s.fetch)).length } := by
  induction orders generalizing s with
  | nil => simp
  | cons order orders ih =>
      rw [List.foldl_cons, ih, fetchTmdb, fetchTmdb, send, send]
      simp only [pageRequests, List.flatMap_cons, List.length_cons, List.append_assoc, List.cons_append,
        List.nil_append]
      congr 1
      push_cast
      omega

-- Of requests sent one to a shelf, those of one shelf.
theorem filter_map_shelf (f : Fetch) (ask : Nat → Ask) {orders : List Nat} (hnodup : orders.Nodup)
    (order : Nat) :
    (orders.map fun o => (⟨f.shelf o, ask o⟩ : Request)).filter (fun r => r.shelf.order = order) =
      if order ∈ orders then [⟨f.shelf order, ask order⟩] else [] := by
  induction orders with
  | nil => rfl
  | cons o orders ih =>
      obtain ⟨hnot, hnodup⟩ := List.nodup_cons.mp hnodup
      rw [List.map_cons, List.filter_cons, ih hnodup]
      by_cases ho : o = order
      · subst ho
        rw [if_neg hnot, if_pos List.mem_cons_self]
        exact if_pos (decide_eq_true rfl)
      · simp only [List.mem_cons, Ne.symm ho, false_or]
        exact if_neg fun h => ho (of_decide_eq_true h)

theorem filter_pages (f : Fetch) {orders : List Nat} (hnodup : orders.Nodup) (order : Nat) :
    (orders.flatMap (pageRequests f)).filter (fun r => r.shelf.order = order) =
      if order ∈ orders then pageRequests f order else [] := by
  induction orders with
  | nil => rfl
  | cons o orders ih =>
      obtain ⟨hnot, hnodup⟩ := List.nodup_cons.mp hnodup
      rw [List.flatMap_cons, List.filter_append, ih hnodup]
      by_cases ho : o = order
      · subst ho
        rw [if_neg hnot, if_pos List.mem_cons_self, List.append_nil]
        simp [pageRequests, Fetch.shelf]
      · have hnone : (pageRequests f o).filter (fun r => decide (r.shelf.order = order)) = [] := by
          simp [pageRequests, Fetch.shelf, ho]
        rw [hnone, List.nil_append]
        simp only [List.mem_cons, Ne.symm ho, false_or]

-- What a refresh sent.
def requests (f : Fetch) : List Request :=
  (if f.haveIgdb then igdbOrders.map fun o => ⟨f.shelf o, firstAsk f o⟩ else []) ++
    (if f.haveTmdb then tmdbOrders.flatMap (pageRequests f) else [])

theorem refresh_eq (hidle : s.loading = false) (hkeys : w.haveTmdb = true ∨ w.haveIgdb = true) :
    refresh toLower w s =
      { startRefresh w s with
        outstanding := s.outstanding ++ requests (startRefresh w s).fetch
        pending := (requests (startRefresh w s).fetch).length } := by
  have hnone : ¬ ((!w.haveTmdb && !w.haveIgdb) = true) := by
    rcases hkeys with h | h
    · simp [h]
    · simp [h]
  have hgames := @foldl_fetchIgdb toLower w (startRefresh w s) rfl rfl igdbOrders
  rw [refresh, hidle, if_neg Bool.false_ne_true, if_neg hnone]
  dsimp only
  rw [hgames]
  unfold requests
  have hi : (startRefresh w s).fetch.haveIgdb = w.haveIgdb := rfl
  have ht : (startRefresh w s).fetch.haveTmdb = w.haveTmdb := rfl
  rw [hi, ht]
  cases hgame : w.haveIgdb with
  | true =>
      cases hfilm : w.haveTmdb with
      | true =>
          rw [if_pos rfl, if_pos rfl, if_pos rfl, if_pos rfl, foldl_fetchTmdb]
          simp [startRefresh]
      | false =>
          rw [if_pos rfl, if_neg Bool.false_ne_true, if_pos rfl, if_neg Bool.false_ne_true]
          simp [startRefresh]
  | false =>
      cases hfilm : w.haveTmdb with
      | true =>
          rw [if_neg Bool.false_ne_true, if_pos rfl, if_neg Bool.false_ne_true, if_pos rfl, foldl_fetchTmdb]
          simp [startRefresh]
      | false =>
          rw [hgame, hfilm] at hkeys
          rcases hkeys with h | h
          · cases h
          · cases h

-- Every shelf starts with its first request out.
theorem progress_start (f : Fetch) (hpass : f.tokenFresh = true → ∀ order, passes catalog f order = true)
    (order : Nat) :
    Progress catalog f f.hypeTypeId order ((requests f).filter fun r => r.shelf.order = order) none := by
  have hgames : igdbOrders.Nodup := by decide
  have hpages : tmdbOrders.Nodup := by decide
  have hapart : order ∈ igdbOrders → order ∉ tmdbOrders := by
    intro hgame hpage
    simp only [igdbOrders, tmdbOrders, List.mem_cons, List.not_mem_nil, or_false] at hgame hpage
    omega
  have hnothing : shelfItems catalog f order = [] → Progress catalog f f.hypeTypeId order [] none := by
    intro hitems
    have hdone : Progress catalog f f.hypeTypeId order [] _ := .done
    rw [expected, hitems, rowOf_nil] at hdone
    exact hdone
  have hfirst : (if f.haveIgdb then
      igdbOrders.map fun o => (⟨f.shelf o, firstAsk f o⟩ : Request) else []).filter
        (fun r => decide (r.shelf.order = order)) =
        if f.haveIgdb = true ∧ order ∈ igdbOrders then [⟨f.shelf order, firstAsk f order⟩] else [] := by
    cases f.haveIgdb with
    | true => rw [if_pos rfl, filter_map_shelf f _ hgames]; simp
    | false => simp
  have hsecond : (if f.haveTmdb then tmdbOrders.flatMap (pageRequests f) else []).filter
      (fun r => decide (r.shelf.order = order)) =
        if f.haveTmdb = true ∧ order ∈ tmdbOrders then pageRequests f order else [] := by
    cases f.haveTmdb with
    | true => rw [if_pos rfl, filter_pages f hpages]; simp
    | false => simp
  rw [requests, List.filter_append, hfirst, hsecond]
  by_cases hgame : order ∈ igdbOrders
  · have hno : ¬ (f.haveTmdb = true ∧ order ∈ tmdbOrders) := fun h => hapart hgame h.2
    rw [if_neg hno, List.append_nil]
    by_cases hkey : f.haveIgdb = true
    · rw [if_pos ⟨hkey, hgame⟩, firstAsk]
      by_cases hfresh : f.tokenFresh = true
      · rw [if_pos hfresh]
        by_cases hzero : order = 0
        · subst hzero
          rw [if_pos rfl]
          by_cases hknown : 0 < f.hypeTypeId
          · have hids : hypeType catalog f = f.hypeTypeId := if_pos hknown
            have hnext : Progress catalog f f.hypeTypeId 0 _ none := .ids rfl hkey (hpass hfresh 0)
            rw [hids] at hnext
            rw [if_pos hknown]
            exact hnext
          · rw [if_neg hknown]
            exact .types rfl hkey (hpass hfresh 0) (by omega)
        · rw [if_neg hzero]
          exact .games hgame hzero hkey (hpass hfresh order)
      · rw [if_neg hfresh]
        exact .token hgame hkey (Bool.eq_false_iff.mpr hfresh) fun _ => rfl
    · rw [if_neg (fun h => hkey h.1)]
      apply hnothing
      rw [shelfItems, if_pos hgame, if_neg hkey]
  · rw [if_neg (fun h => hgame h.2), List.nil_append]
    by_cases hpage : order ∈ tmdbOrders
    · by_cases hkey : f.haveTmdb = true
      · rw [if_pos ⟨hkey, hpage⟩]
        exact .pages hpage hkey
      · rw [if_neg (fun h => hkey h.1)]
        apply hnothing
        rw [shelfItems, if_neg hgame, if_pos hpage, if_neg hkey]
    · rw [if_neg (fun h => hpage h.2)]
      apply hnothing
      rw [shelfItems, if_neg hgame, if_neg hpage]

theorem requests_ne_nil {f : Fetch} (h : f.haveTmdb = true ∨ f.haveIgdb = true) : requests f ≠ [] := by
  unfold requests
  rcases h with h | h
  · rw [h, if_pos rfl]
    exact List.append_ne_nil_of_right_ne_nil _ (List.cons_ne_nil _ _)
  · rw [h, if_pos rfl]
    exact List.append_ne_nil_of_left_ne_nil (List.cons_ne_nil _ _) _

-- A refresh may start with rows of another language on the page.
theorem settled_refresh (hidle : s.loading = false) (hnone : s.outstanding = [])
    (hkeys : w.haveTmdb = true ∨ w.haveIgdb = true)
    (hcache : ∀ c ∈ s.cache, FetchedIn catalog toLower c.lang c.rows c.hero) :
    Settled catalog toLower (refresh toLower w s) := by
  rw [refresh_eq hidle hkeys, hnone, List.nil_append]
  constructor
  · exact fun h => nomatch h
  · refine fun _ => ⟨⟨rfl, rfl, rfl, fun order => ?_⟩, requests_ne_nil hkeys⟩
    apply progress_start
    intro hfresh order
    rw [passes, if_pos hfresh]
  · exact hcache

theorem refresh_busy (hbusy : s.loading = true) : refresh toLower w s = s := if_pos hbusy

theorem refresh_keyless (hkeys : ¬ (w.haveTmdb = true ∨ w.haveIgdb = true)) : refresh toLower w s = s := by
  rw [refresh]
  split
  · rfl
  · rw [if_pos]
    simpa using hkeys

theorem settled_refresh' (h : Settled catalog toLower s) : Settled catalog toLower (refresh toLower w s) := by
  by_cases hbusy : s.loading = true
  · rw [refresh_busy hbusy]
    exact h
  · have hidle := Bool.eq_false_iff.mpr hbusy
    by_cases hkeys : w.haveTmdb = true ∨ w.haveIgdb = true
    · exact settled_refresh hidle (h.idle hidle).1 hkeys h.cache
    · rw [refresh_keyless hkeys]
      exact h

theorem settled_reload (h : Settled catalog toLower s) {language : QString}
    (horderly : Orderly catalog s (w, .reloadForLanguage language)) :
    Settled catalog toLower (reloadForLanguage toLower w language s) := by
  rw [reloadForLanguage]
  rcases horderly with rfl | ⟨hidle, hswitch⟩
  · exact settled_refresh' h
  · by_cases hkeys : w.haveTmdb = true ∨ w.haveIgdb = true
    · exact settled_refresh hidle (h.idle hidle).1 hkeys h.cache
    · have hrows : s.rows = [] := by tauto
      rw [refresh_keyless hkeys]
      refine ⟨fun _ => ⟨(h.idle hidle).1, .inl hrows⟩, fun hbusy => ?_, h.cache⟩
      rw [hidle] at hbusy
      cases hbusy

theorem settled_loadFromCache (h : Settled catalog toLower s) :
    Settled catalog toLower (loadFromCache w s).1 := by
  unfold loadFromCache
  cases hcache : s.cache with
  | none => exact h
  | some o =>
      dsimp only
      split
      · exact h
      · split
        · exact h
        · split
          · exact h
          · next hlang =>
            cases o.savedAt with
            | none => exact h
            | some savedAt =>
                dsimp only
                split
                · exact h
                · have hfetched := h.cache o hcache
                  rw [not_not.mp hlang] at hfetched
                  refine ⟨fun hidle => ⟨(h.idle hidle).1, .inr hfetched⟩, fun hbusy => ?_,
                    fun c hc => h.cache c (hcache.trans hc)⟩
                  obtain ⟨hgathering, hwaits⟩ := h.busy hbusy
                  exact ⟨⟨hgathering.lang, hbusy, hgathering.pending, hgathering.shelves⟩, hwaits⟩

theorem loadFromCache_loading (w : World) (s : Service) : (loadFromCache w s).1.loading = s.loading := by
  unfold loadFromCache
  cases s.cache with
  | none => rfl
  | some o =>
      dsimp only
      split_ifs
      · rfl
      · rfl
      · rfl
      · cases o.savedAt with
        | none => rfl
        | some savedAt =>
            dsimp only
            split_ifs <;> rfl

theorem load_busy (hbusy : s.loading = true) : (load toLower w s).loading = true := by
  have hcached := loadFromCache_loading w s
  unfold load
  split
  · exact hbusy
  · rcases hload : loadFromCache w s with ⟨s', found⟩
    rw [hload, hbusy] at hcached
    dsimp only at hcached
    cases found with
    | true => exact hcached
    | false =>
        dsimp only
        rw [refresh_busy hcached]
        exact hcached

theorem settled_load (h : Settled catalog toLower s) : Settled catalog toLower (load toLower w s) := by
  have hcached := settled_loadFromCache (w := w) h
  unfold load
  split
  · exact h
  · rcases hload : loadFromCache w s with ⟨s', found⟩
    rw [hload] at hcached
    cases found with
    | true => exact hcached
    | false => exact settled_refresh' hcached

end Refresh

end BATorrent.DiscoveryService

namespace BATorrent.DiscoveryService

open Lib Lib.Machine
open Lib.DataStream (QString)

variable {catalog : Catalog} {toLower : QString → QString} {language : QString} {cache : Option Cache}

section Session

variable {s s' : Service} {e : World × Call} {told : List Unit}

theorem settled_start (hcache : ∀ c ∈ cache, FetchedIn catalog toLower c.lang c.rows c.hero) :
    Settled catalog toLower (start language cache) where
  idle _ := ⟨rfl, .inl rfl⟩
  busy hbusy := nomatch hbusy
  cache := hcache

theorem settled_next_call (h : Settled catalog toLower s) (horderly : Orderly catalog s e)
    (hnext : next toLower catalog s e = some (s', told)) :
    Settled catalog toLower s' ∧ (s.loading = true → Finished catalog toLower s.fetch s') := by
  obtain ⟨w, call⟩ := e
  cases call with
  | load =>
      cases hnext
      refine ⟨settled_load h, fun hbusy hidle => ?_⟩
      rw [load_busy hbusy] at hidle
      cases hidle
  | refresh =>
      cases hnext
      refine ⟨settled_refresh' h, fun hbusy hidle => ?_⟩
      rw [refresh_busy hbusy, hbusy] at hidle
      cases hidle
  | reloadForLanguage language =>
      cases hnext
      refine ⟨settled_reload h horderly, fun hbusy hidle => ?_⟩
      rw [reloadForLanguage, refresh_busy (s := { s with language := language }) hbusy] at hidle
      dsimp only at hidle
      rw [hbusy] at hidle
      cases hidle
  | reply r =>
      rw [next] at hnext
      split at hnext
      · next hr =>
        cases hnext
        have hbusy : s.loading = true := by
          by_contra hidle
          rw [(h.idle (Bool.eq_false_iff.mpr hidle)).1] at hr
          cases hr
        obtain ⟨hsettled, hfinished⟩ := settled_handle h hbusy hr horderly
        exact ⟨hsettled, fun _ => hfinished⟩
      · cases hnext

theorem session_settled {past : List (Reaction Service (World × Call) Unit)}
    (hcache : ∀ c ∈ cache, FetchedIn catalog toLower c.lang c.rows c.hero)
    (hrun : (machine toLower catalog language cache).Run (Orderly catalog) past s) :
    Settled catalog toLower s :=
  hrun.invariant (Settled catalog toLower) (settled_start hcache)
    fun _ _ _ _ h horderly hnext => (settled_next_call h horderly hnext).1

end Session

-- The last call of a run ended the refresh that `f` started.
def Ends (past : List (Reaction Service (World × Call) Unit)) (s : Service) (f : Fetch) : Prop :=
  ∃ r earlier, past = r :: earlier ∧ r.before.loading = true ∧ s.loading = false ∧ r.before.fetch = f

-- In a run whose calls and replies are all in order: the shelves a refresh ends with are those of the
-- replies to it, whatever their order; what is shown with nothing out is in the language last switched
-- to; and the cache file names the language of its rows.
theorem shelves_in_order {past : List (Reaction Service (World × Call) Unit)} {s : Service}
    (hcache : ∀ c ∈ cache, FetchedIn catalog toLower c.lang c.rows c.hero)
    (hrun : (machine toLower catalog language cache).Run (Orderly catalog) past s) :
    (∀ f, Ends past s f → s.rows = rowsFromAccum toLower (expected catalog f) ∧
      s.hero = heroFromAccum (expected catalog f) 6) ∧
    (s.outstanding = [] → s.rows = [] ∨ FetchedIn catalog toLower s.language s.rows s.hero) ∧
    ∀ c ∈ s.cache, FetchedIn catalog toLower c.lang c.rows c.hero := by
  have hsettled := session_settled hcache hrun
  refine ⟨?_, fun hnone => ?_, hsettled.cache⟩
  · rintro f ⟨r, earlier, rfl, hbusy, hidle, rfl⟩
    cases hrun with
    | step hrun hguard hnext =>
        exact (settled_next_call (session_settled hcache hrun) hguard hnext).2 hbusy hidle
  · by_cases hbusy : s.loading = true
    · exact absurd hnone (hsettled.busy hbusy).2
    · exact (hsettled.idle (Bool.eq_false_iff.mpr hbusy)).2

def english : QString := units "en-US"
def portuguese : QString := units "pt-BR"

def dune : Item := ⟨units "Dune", units "movie", units "/d.jpg", units "/b.jpg", units "sand"⟩

-- A catalog that knows one film, under its English page.
def oneFilm : Catalog where
  tmdb shelf page := if shelf.lang = english ∧ shelf.order = 10 ∧ page = 1 then some [dune] else none
  token _ := none
  types _ := 0
  ids _ _ := []
  gamesByIds _ _ := []
  games _ := []

def noon : World where
  haveTmdb := true
  haveIgdb := false
  region := units "BR"
  now := 43200
  label _ := units "Movies"
  writable := true

def lastShown : List (World × Call) :=
  (noon, .refresh) ::
    (requests (startRefresh noon (start english none)).fetch).map fun r => (noon, .reply r)

theorem shelves_in_order_film :
    ∃ past s, (machine id oneFilm english none).Run (Orderly oneFilm) past s ∧ s.rows ≠ [] ∧
      (s.rows = [] ∨ FetchedIn oneFilm id s.language s.rows s.hero) := by
  obtain ⟨past, s, hrun, hnone, hrows⟩ :
      ∃ past s, (machine id oneFilm english none).Run (Orderly oneFilm) past s ∧
        s.outstanding = [] ∧ s.rows ≠ [] := exists_run lastShown (by decide +kernel)
  obtain ⟨_, hshown, _⟩ := shelves_in_order (fun c hc => (Option.not_mem_none c hc).elim) hrun
  exact ⟨past, s, hrun, hrows, hshown hnone⟩

-- The language is switched while the replies are on their way.
def switched : List (World × Call) :=
  (noon, .refresh) :: (noon, .reloadForLanguage portuguese) ::
    (requests (startRefresh noon (start english none)).fetch).map fun r => (noon, .reply r)

theorem not_fetched_portuguese {rows : List Row} {hero : List Item}
    (h : FetchedIn oneFilm id portuguese rows hero) : rows = [] := by
  obtain ⟨f, hlang, rfl, _⟩ := h
  have hpage : ∀ order page, pageItems oneFilm f order page = [] := by
    intro order page
    have hother : ¬ ((f.shelf order).lang = english ∧ (f.shelf order).order = 10 ∧ page = 1) := by
      intro hknown
      have hsame : portuguese = english := hlang.symm.trans hknown.1
      exact absurd hsame (by decide)
    rw [pageItems, oneFilm]
    dsimp only
    rw [if_neg hother]
    rfl
  have hgame : ∀ order, gameItems oneFilm f order = [] := by
    intro order
    unfold gameItems
    split_ifs <;> rfl
  have hnothing : expected oneFilm f = fun _ => none := by
    funext order
    have hitems : shelfItems oneFilm f order = [] := by
      unfold shelfItems
      rw [hgame, hpage, hpage]
      split_ifs <;> rfl
    rw [expected, hitems, rowOf_nil]
  rw [hnothing]
  rfl

-- The English film is shown and saved as Portuguese.
theorem mislabels_switched :
    ¬ ∀ past s, (machine id oneFilm english none).Run (fun _ _ => True) past s →
      (s.outstanding = [] → s.rows = [] ∨ FetchedIn oneFilm id s.language s.rows s.hero) ∧
        ∀ c ∈ s.cache, FetchedIn oneFilm id c.lang c.rows c.hero := by
  intro h
  obtain ⟨past, s, hrun, hnone, hrows, hlanguage⟩ :
      ∃ past s, (machine id oneFilm english none).Run (fun _ _ => True) past s ∧
        s.outstanding = [] ∧ s.rows ≠ [] ∧ s.language = portuguese := exists_run switched (by decide +kernel)
  rcases (h past s hrun).1 hnone with hempty | hfetched
  · exact hrows hempty
  · rw [hlanguage] at hfetched
    exact hrows (not_fetched_portuguese hfetched)

end BATorrent.DiscoveryService
