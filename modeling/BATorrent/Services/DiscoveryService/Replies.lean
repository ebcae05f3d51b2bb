import BATorrent.Services.DiscoveryService

namespace BATorrent.DiscoveryService

open Lib
open Lib.DataStream (QString)
open Lib.KeepFirst (keepFirst)

variable {catalog : Catalog} {toLower : QString → QString} {w : World} {s : Service}

section Finish

-- What the last reply of a refresh leaves shown.
def Finished (catalog : Catalog) (toLower : QString → QString) (f : Fetch) (s : Service) : Prop :=
  s.loading = false → s.rows = rowsFromAccum toLower (expected catalog f) ∧
    s.hero = heroFromAccum (expected catalog f) 6

@[simp] theorem saveToCache_rows (w : World) (s : Service) : (saveToCache w s).rows = s.rows := by
  unfold saveToCache
  split_ifs <;> rfl

@[simp] theorem saveToCache_hero (w : World) (s : Service) : (saveToCache w s).hero = s.hero := by
  unfold saveToCache
  split_ifs <;> rfl

@[simp] theorem saveToCache_language (w : World) (s : Service) : (saveToCache w s).language = s.language := by
  unfold saveToCache
  split_ifs <;> rfl

@[simp] theorem saveToCache_outstanding (w : World) (s : Service) :
    (saveToCache w s).outstanding = s.outstanding := by
  unfold saveToCache
  split_ifs <;> rfl

theorem saveToCache_cache (h : ∀ c ∈ s.cache, FetchedIn catalog toLower c.lang c.rows c.hero)
    (hrows : FetchedIn catalog toLower s.language s.rows s.hero) :
    ∀ c ∈ (saveToCache w s).cache, FetchedIn catalog toLower c.lang c.rows c.hero := by
  unfold saveToCache
  split_ifs
  · exact h
  · intro c hc
    cases hc
    exact hrows
  · exact h

theorem maybeFinish_settled (h : Gathering catalog 1 s)
    (hcache : ∀ c ∈ s.cache, FetchedIn catalog toLower c.lang c.rows c.hero) :
    Settled catalog toLower (maybeFinish toLower w s) ∧
      Finished catalog toLower s.fetch (maybeFinish toLower w s) := by
  have hpending := h.pending
  unfold maybeFinish
  dsimp only
  by_cases hmore : 0 < s.pending - 1
  · rw [if_pos hmore]
    have hwaits : s.outstanding ≠ [] := by
      intro hnone
      rw [hnone] at hpending
      simp at hpending
      omega
    refine ⟨⟨fun hidle => ?_, fun _ => ⟨⟨h.lang, h.loading, ?_, h.shelves⟩, hwaits⟩, hcache⟩, fun hidle => ?_⟩
    · rw [h.loading] at hidle
      cases hidle
    · push_cast at hpending ⊢
      omega
    · rw [h.loading] at hidle
      cases hidle
  · rw [if_neg hmore]
    have hnone : s.outstanding = [] := by
      apply List.length_eq_zero_iff.mp
      push_cast at hpending
      omega
    have hrows : FetchedIn catalog toLower s.language (rowsFromAccum toLower s.accum)
        (heroFromAccum s.accum 6) :=
      ⟨s.fetch, h.lang, by rw [h.accum_eq hnone], by rw [h.accum_eq hnone]⟩
    refine ⟨⟨fun _ => ⟨?_, .inr ?_⟩, fun hbusy => ?_, ?_⟩, fun _ => ⟨?_, ?_⟩⟩
    · simp [hnone]
    · simpa using hrows
    · cases hbusy
    · exact saveToCache_cache hcache hrows
    · simp [h.accum_eq hnone]
    · simp [h.accum_eq hnone]

end Finish

section Answered

variable {r : Request} {order : Nat}

-- The shelf of a request that was answered: what of it is still out, and how it goes on.
theorem gathering_answered (h : Gathering catalog 0 s) (hr : r ∈ s.outstanding) {t : Service}
    (more : List Request) (hmore : more.length ≤ 1) (hout : t.outstanding = s.outstanding.erase r ++ more)
    (horder : ∀ q ∈ more, q.shelf.order = r.shelf.order)
    (hlang : t.language = s.language) (hloading : t.loading = true) (hpending : t.pending = s.pending)
    (hfetch : t.fetch = s.fetch) (haccum : ∀ o, o ≠ r.shelf.order → t.accum o = s.accum o)
    (hhype : ∀ o, o ≠ r.shelf.order → o = 0 → t.hypeTypeId = s.hypeTypeId)
    (hshelf : Progress catalog s.fetch t.hypeTypeId r.shelf.order ((out s r.shelf.order).erase r ++ more)
      (t.accum r.shelf.order)) :
    Gathering catalog (1 - more.length) t where
  lang := by rw [hfetch, hlang, h.lang]
  loading := hloading
  pending := by
    have hlength := List.length_erase_of_mem hr
    have hpos := List.length_pos_of_mem hr
    have hbefore := h.pending
    rw [hpending, hout, List.length_append, hbefore, hlength]
    omega
  shelves o := by
    rw [hfetch, out, hout, List.filter_append, out_erase]
    by_cases ho : o = r.shelf.order
    · subst ho
      have hall : more.filter (fun q => decide (q.shelf.order = r.shelf.order)) = more :=
        List.filter_eq_self.mpr fun q hq => decide_eq_true (horder q hq)
      rw [hall]
      exact hshelf
    · have hnone : more.filter (fun q => decide (q.shelf.order = o)) = [] := by
        apply List.filter_eq_nil_iff.mpr
        intro q hq hsame
        exact ho ((of_decide_eq_true hsame).symm.trans (horder q hq))
      have hother : r ∉ out s o := by
        intro hin
        exact ho (of_decide_eq_true (List.mem_filter.mp hin).2).symm
      rw [hnone, List.append_nil, List.erase_of_not_mem hother, haccum o ho]
      exact (h.shelves o).hype (hhype o ho)

-- The reply was the last of its shelf.
theorem settled_finish (h : Settled catalog toLower s) (hbusy : s.loading = true) (hr : r ∈ s.outstanding)
    {accum : Accum} {token : QString} {expiry : Int}
    (haccum : ∀ o, o ≠ r.shelf.order → accum o = s.accum o)
    (hshelf : Progress catalog s.fetch s.hypeTypeId r.shelf.order ((out s r.shelf.order).erase r)
      (accum r.shelf.order)) :
    let s' := maybeFinish toLower w { s with
      outstanding := s.outstanding.erase r
      accum := accum
      igdbToken := token
      igdbTokenExpiry := expiry }
    Settled catalog toLower s' ∧ Finished catalog toLower s.fetch s' := by
  have hgathering := gathering_answered (h.busy hbusy).1 hr [] (Nat.zero_le 1)
    (t := { s with
      outstanding := s.outstanding.erase r
      accum := accum
      igdbToken := token
      igdbTokenExpiry := expiry })
    (List.append_nil _).symm (fun q hq => absurd hq List.not_mem_nil) rfl hbusy rfl rfl haccum
    (fun _ _ _ => rfl) (by rw [List.append_nil]; exact hshelf)
  exact maybeFinish_settled hgathering h.cache

-- Another request follows for the shelf.
theorem settled_send (h : Settled catalog toLower s) (hbusy : s.loading = true) (hr : r ∈ s.outstanding)
    {ask : Ask} {token : QString} {expiry : Int} {hype : Nat}
    (hhype : ∀ o, o ≠ r.shelf.order → o = 0 → hype = s.hypeTypeId)
    (hshelf : Progress catalog s.fetch hype r.shelf.order ((out s r.shelf.order).erase r ++ [⟨r.shelf, ask⟩])
      (s.accum r.shelf.order)) :
    let s' := send r.shelf ask { s with
      outstanding := s.outstanding.erase r
      igdbToken := token
      igdbTokenExpiry := expiry
      hypeTypeId := hype }
    Settled catalog toLower s' ∧ Finished catalog toLower s.fetch s' := by
  have hgathering := gathering_answered (h.busy hbusy).1 hr [⟨r.shelf, ask⟩] (Nat.le_refl 1)
    (t := send r.shelf ask { s with
      outstanding := s.outstanding.erase r
      igdbToken := token
      igdbTokenExpiry := expiry
      hypeTypeId := hype })
    rfl (fun q hq => by rw [List.mem_singleton.mp hq]) rfl hbusy rfl rfl (fun _ _ => rfl) hhype hshelf
  refine ⟨⟨fun hidle => ?_, fun _ => ⟨hgathering, ?_⟩, h.cache⟩, fun hidle => ?_⟩
  · rw [hgathering.loading] at hidle
    cases hidle
  · exact List.append_ne_nil_of_right_ne_nil _ (List.cons_ne_nil _ _)
  · rw [hgathering.loading] at hidle
    cases hidle

end Answered

-- A page comes after the one before it, or the two merge the same way round either way.
def PageInOrder (catalog : Catalog) (s : Service) (shelf : Shelf) (page : Nat) : Prop :=
  let items := fun page => (catalog.tmdb shelf page).getD []
  page = 2 → ⟨shelf, .tmdb 1⟩ ∈ s.outstanding →
    mergeShelfByPoster (mergeShelfByPoster [] (items 2)) (items 1) =
      mergeShelfByPoster (mergeShelfByPoster [] (items 1)) (items 2)

-- A token request fails only while the token is there, or is not, as it was when the refresh began.
def TokenInOrder (catalog : Catalog) (s : Service) (shelf : Shelf) : Prop :=
  catalog.token shelf = none → (s.igdbToken = [] ↔ s.fetch.igdbToken = [])

section Replies

variable {shelf : Shelf}

theorem erase_second (shelf : Shelf) :
    [(⟨shelf, .tmdb 1⟩ : Request), ⟨shelf, .tmdb 2⟩].erase ⟨shelf, .tmdb 2⟩ = [⟨shelf, .tmdb 1⟩] := by
  simp

theorem merge_nil (xs : List Item) : mergeShelfByPoster [] xs = keepFirst Item.poster [] xs := List.nil_append _

theorem settled_tmdb (h : Settled catalog toLower s) (hbusy : s.loading = true) {page : Nat}
    (hr : ⟨shelf, .tmdb page⟩ ∈ s.outstanding) (horderly : PageInOrder catalog s shelf page) :
    let s' := handle toLower w catalog ⟨shelf, .tmdb page⟩
      { s with outstanding := s.outstanding.erase ⟨shelf, .tmdb page⟩ }
    Settled catalog toLower s' ∧ Finished catalog toLower s.fetch s' := by
  have hprogress := (h.busy hbusy).1.shelves shelf.order
  have hin : (⟨shelf, .tmdb page⟩ : Request) ∈ out s shelf.order := List.mem_filter.mpr ⟨hr, decide_eq_true rfl⟩
  apply settled_finish h hbusy hr
  · intro o ho
    unfold ingestTmdbShelf
    dsimp only
    split
    · exact Function.update_of_ne ho _ _
    · rfl
  · dsimp only
    generalize hreqs : out s shelf.order = reqs at hprogress hin ⊢
    generalize hrow : s.accum shelf.order = row at hprogress
    generalize ho : shelf.order = order at hprogress hreqs hrow ⊢
    cases hprogress with
    | done => cases hin
    | token => cases List.mem_singleton.mp hin
    | types => cases List.mem_singleton.mp hin
    | ids => cases List.mem_singleton.mp hin
    | gamesByIds => cases List.mem_singleton.mp hin
    | games => cases List.mem_singleton.mp hin
    | pages hmem hkey =>
        have hempty : s.accum order = rowOf s.fetch order (keepFirst Item.poster [] []) := hrow
        rcases List.mem_cons.mp hin with heq | hin
        · cases heq
          rw [Fetch.shelf, ingest_rowOf hempty, Function.update_self, List.nil_append, List.erase_cons_head]
          exact .second hmem hkey
        · cases List.mem_singleton.mp hin
          rw [Fetch.shelf, ingest_rowOf hempty, Function.update_self, List.nil_append,
            erase_second]
          apply Progress.first hmem hkey
          have hfirst : (⟨s.fetch.shelf order, .tmdb 1⟩ : Request) ∈ s.outstanding := by
            have hboth : (⟨s.fetch.shelf order, .tmdb 1⟩ : Request) ∈ out s order := by
              rw [hreqs]
              exact List.mem_cons_self
            exact (List.mem_filter.mp hboth).1
          have hswap := horderly rfl hfirst
          rw [merge_nil, merge_nil, merge_keepFirst, merge_keepFirst] at hswap
          exact hswap
    | second hmem hkey =>
        cases List.mem_singleton.mp hin
        have hdone : Progress catalog s.fetch s.hypeTypeId order [] _ := .done
        rw [expected_tmdb hmem hkey] at hdone
        rw [Fetch.shelf, ingest_rowOf hrow, Function.update_self, List.erase_cons_head]
        exact hdone
    | first hmem hkey hswap =>
        cases List.mem_singleton.mp hin
        have hdone : Progress catalog s.fetch s.hypeTypeId order [] _ := .done
        rw [expected_tmdb hmem hkey, ← hswap] at hdone
        rw [Fetch.shelf, ingest_rowOf hrow, Function.update_self, List.erase_cons_head]
        exact hdone

theorem gameItems_blocked {f : Fetch} {order : Nat} (h : passes catalog f order = false) :
    gameItems catalog f order = [] := if_pos h

theorem rowOf_nil (f : Fetch) (order : Nat) : rowOf f order [] = none := if_pos rfl

section Inversion

variable {f : Fetch} {hype order : Nat} {reqs : List Request} {row : Option AccumRow}

-- A shelf of games has one request out at a time.
theorem Progress.single (h : Progress catalog f hype order reqs row) {ask : Ask} (hin : ⟨shelf, ask⟩ ∈ reqs)
    (hask : ∀ page, ask ≠ .tmdb page) :
    shelf = f.shelf order ∧ reqs = [⟨shelf, ask⟩] ∧ row = none ∧ order ∈ igdbOrders ∧ f.haveIgdb = true := by
  have hzero : 0 ∈ igdbOrders := List.mem_cons_self
  cases h with
  | done => cases hin
  | token hmem hkey =>
      cases List.mem_singleton.mp hin
      exact ⟨rfl, rfl, rfl, hmem, hkey⟩
  | types ho hkey =>
      cases List.mem_singleton.mp hin
      exact ⟨rfl, rfl, rfl, ho ▸ hzero, hkey⟩
  | ids ho hkey =>
      cases List.mem_singleton.mp hin
      exact ⟨rfl, rfl, rfl, ho ▸ hzero, hkey⟩
  | gamesByIds ho hkey =>
      cases List.mem_singleton.mp hin
      exact ⟨rfl, rfl, rfl, ho ▸ hzero, hkey⟩
  | games hmem _ hkey =>
      cases List.mem_singleton.mp hin
      exact ⟨rfl, rfl, rfl, hmem, hkey⟩
  | pages =>
      rcases List.mem_cons.mp hin with heq | hin
      · cases heq
        exact absurd rfl (hask 1)
      · cases List.mem_singleton.mp hin
        exact absurd rfl (hask 2)
  | second =>
      cases List.mem_singleton.mp hin
      exact absurd rfl (hask 2)
  | first =>
      cases List.mem_singleton.mp hin
      exact absurd rfl (hask 1)

theorem Progress.of_token (h : Progress catalog f hype order [⟨shelf, .token⟩] row) :
    f.tokenFresh = false ∧ (order = 0 → hype = f.hypeTypeId) := by
  cases h with
  | token _ _ hfresh hhype => exact ⟨hfresh, hhype⟩

theorem Progress.of_types (h : Progress catalog f hype order [⟨shelf, .types⟩] row) :
    order = 0 ∧ passes catalog f 0 = true ∧ f.hypeTypeId = 0 := by
  cases h with
  | types ho _ hpass hzero => exact ⟨ho, hpass, hzero⟩

theorem Progress.of_ids {hypeTypeId : Nat} (h : Progress catalog f hype order [⟨shelf, .ids hypeTypeId⟩] row) :
    order = 0 ∧ passes catalog f 0 = true ∧ hypeTypeId = hypeType catalog f := by
  cases h with
  | ids ho _ hpass => exact ⟨ho, hpass, rfl⟩

theorem Progress.of_gamesByIds {ids : List Int}
    (h : Progress catalog f hype order [⟨shelf, .gamesByIds ids⟩] row) :
    order = 0 ∧ passes catalog f 0 = true ∧ ids = hypeIds catalog f ∧ ids ≠ [] := by
  cases h with
  | gamesByIds ho _ hpass hids => exact ⟨ho, hpass, rfl, hids⟩

theorem Progress.of_games (h : Progress catalog f hype order [⟨shelf, .games⟩] row) :
    order ≠ 0 ∧ passes catalog f order = true := by
  cases h with
  | games _ hne _ hpass => exact ⟨hne, hpass⟩

end Inversion

-- What holds of a shelf of games when its request is answered.
structure Asked (catalog : Catalog) (s : Service) (shelf : Shelf) (ask : Ask) : Prop where
  shelf_eq : shelf = s.fetch.shelf shelf.order
  alone : (out s shelf.order).erase ⟨shelf, ask⟩ = []
  accum : s.accum shelf.order = none
  igdb : shelf.order ∈ igdbOrders
  key : s.fetch.haveIgdb = true
  progress : Progress catalog s.fetch s.hypeTypeId shelf.order [⟨shelf, ask⟩] none

theorem asked (h : Settled catalog toLower s) (hbusy : s.loading = true) {ask : Ask}
    (hr : ⟨shelf, ask⟩ ∈ s.outstanding) (hask : ∀ page, ask ≠ .tmdb page) : Asked catalog s shelf ask := by
  have hprogress := (h.busy hbusy).1.shelves shelf.order
  have hin : (⟨shelf, ask⟩ : Request) ∈ out s shelf.order := List.mem_filter.mpr ⟨hr, decide_eq_true rfl⟩
  obtain ⟨hshelf, hout, haccum, higdb, hkey⟩ := hprogress.single hin hask
  rw [hout, haccum] at hprogress
  refine ⟨hshelf, ?_, haccum, higdb, hkey, hprogress⟩
  rw [hout, List.erase_cons_head]

-- The last reply of a shelf of games.
theorem settled_games (h : Settled catalog toLower s) (hbusy : s.loading = true) {ask : Ask}
    (hr : ⟨shelf, ask⟩ ∈ s.outstanding) (hask : ∀ page, ask ≠ .tmdb page)
    {token : QString} {expiry : Int} {items : List Item}
    (hitems : items = gameItems catalog s.fetch shelf.order) :
    let s' := maybeFinish toLower w { s with
      outstanding := s.outstanding.erase ⟨shelf, ask⟩
      accum := Function.update s.accum shelf.order (rowOf s.fetch shelf.order items)
      igdbToken := token
      igdbTokenExpiry := expiry }
    Settled catalog toLower s' ∧ Finished catalog toLower s.fetch s' := by
  have hasked := asked h hbusy hr hask
  apply settled_finish h hbusy hr
  · intro o ho
    exact Function.update_of_ne ho _ _
  · have hdone : Progress catalog s.fetch s.hypeTypeId shelf.order [] _ := .done
    rw [expected_igdb hasked.igdb hasked.key, ← hitems] at hdone
    dsimp only
    rw [hasked.alone, Function.update_self]
    exact hdone

theorem settled_nothing (h : Settled catalog toLower s) (hbusy : s.loading = true) {ask : Ask}
    (hr : ⟨shelf, ask⟩ ∈ s.outstanding) (hask : ∀ page, ask ≠ .tmdb page)
    {token : QString} {expiry : Int} (hitems : gameItems catalog s.fetch shelf.order = []) :
    let s' := maybeFinish toLower w { s with
      outstanding := s.outstanding.erase ⟨shelf, ask⟩
      igdbToken := token
      igdbTokenExpiry := expiry }
    Settled catalog toLower s' ∧ Finished catalog toLower s.fetch s' := by
  have hasked := asked h hbusy hr hask
  apply settled_finish h hbusy hr (fun _ _ => rfl)
  have hdone : Progress catalog s.fetch s.hypeTypeId shelf.order [] _ := .done
  rw [expected_igdb hasked.igdb hasked.key, hitems, rowOf_nil] at hdone
  dsimp only
  rw [hasked.alone, hasked.accum]
  exact hdone

theorem settled_next (h : Settled catalog toLower s) (hbusy : s.loading = true) {ask ask' : Ask}
    (hr : ⟨shelf, ask⟩ ∈ s.outstanding) (hask : ∀ page, ask ≠ .tmdb page)
    {token : QString} {expiry : Int} {hype : Nat} (hhype : ∀ o, o ≠ shelf.order → o = 0 → hype = s.hypeTypeId)
    (hnext : Progress catalog s.fetch hype shelf.order [⟨s.fetch.shelf shelf.order, ask'⟩] none) :
    let s' := send shelf ask' { s with
      outstanding := s.outstanding.erase ⟨shelf, ask⟩
      igdbToken := token
      igdbTokenExpiry := expiry
      hypeTypeId := hype }
    Settled catalog toLower s' ∧ Finished catalog toLower s.fetch s' := by
  have hasked := asked h hbusy hr hask
  apply settled_send h hbusy hr hhype
  dsimp only
  rw [hasked.alone, hasked.accum]
  rw [← hasked.shelf_eq] at hnext
  exact hnext

-- The token request of a shelf was answered, well or not.
theorem settled_withToken (h : Settled catalog toLower s) (hbusy : s.loading = true)
    (hr : ⟨shelf, .token⟩ ∈ s.outstanding) {token : QString} {expiry : Int}
    (htoken : passes catalog s.fetch shelf.order = decide (token ≠ [])) :
    let s' := withToken toLower w shelf { s with
      outstanding := s.outstanding.erase ⟨shelf, .token⟩
      igdbToken := token
      igdbTokenExpiry := expiry }
    Settled catalog toLower s' ∧ Finished catalog toLower s.fetch s' := by
  have hasked := asked h hbusy hr (fun _ => Ask.noConfusion)
  obtain ⟨hfresh, hhype⟩ := hasked.progress.of_token
  unfold withToken
  dsimp only
  by_cases hnone : token = []
  · rw [if_pos hnone]
    rw [decide_eq_false (fun hne => hne hnone)] at htoken
    exact settled_nothing h hbusy hr (fun _ => Ask.noConfusion) (gameItems_blocked htoken)
  · rw [if_neg hnone]
    rw [decide_eq_true hnone] at htoken
    by_cases hzero : shelf.order = 0
    · rw [if_pos hzero]
      rw [hzero] at htoken
      by_cases hknown : 0 < s.hypeTypeId
      · rw [if_pos hknown]
        have hids : hypeType catalog s.fetch = s.hypeTypeId := by
          rw [hypeType, ← hhype hzero, if_pos hknown]
        apply settled_next h hbusy hr (fun _ => Ask.noConfusion) (fun _ _ _ => rfl)
        rw [← hids]
        exact .ids hzero hasked.key htoken
      · rw [if_neg hknown]
        apply settled_next h hbusy hr (fun _ => Ask.noConfusion) (fun _ _ _ => rfl)
        refine .types hzero hasked.key htoken ?_
        rw [← hhype hzero]
        omega
    · rw [if_neg hzero]
      apply settled_next h hbusy hr (fun _ => Ask.noConfusion) (fun _ _ _ => rfl)
      exact .games hasked.igdb hzero hasked.key htoken

end Replies

end BATorrent.DiscoveryService
