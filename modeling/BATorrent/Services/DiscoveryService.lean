import BATorrent.Lib.DataStream
import BATorrent.Lib.KeepFirst
import BATorrent.Lib.Run

namespace BATorrent.DiscoveryService

open Lib
open Lib.DataStream (QString)
open Lib.KeepFirst (keepFirst)

def units (s : String) : QString := s.toList.map fun c => UInt16.ofNat c.toNat

structure Item where
  title : QString
  type : QString
  poster : QString
  backdrop : QString
  overview : QString
  deriving DecidableEq

-- A shelf as it is gathered, and as it is shown.
structure AccumRow where
  label : QString
  items : List Item
  deriving DecidableEq

structure Row where
  label : QString
  genre : QString
  items : List Item
  deriving DecidableEq

-- By the number of the shelf. The map is walked by its keys, and these are the only ones put in.
abbrev Accum := Nat → Option AccumRow

def igdbOrders : List Nat := [0, 1, 2, 3, 4, 5, 6]
def tmdbOrders : List Nat := [10, 11, 12, 13, 14, 15, 16, 17]

def entries (accum : Accum) : List (Nat × AccumRow) :=
  (igdbOrders ++ tmdbOrders).filterMap fun order => (accum order).map fun row => (order, row)

section Assemble

def mergeShelfByPoster (existing incoming : List Item) : List Item :=
  existing ++ keepFirst Item.poster (existing.map Item.poster) incoming

-- A reply that is none reported an error.
def ingestTmdbShelf (accum : Accum) (order : Nat) (label : QString) (reply : Option (List Item)) : Accum :=
  let items := reply.getD []
  let merged := mergeShelfByPoster (((accum order).map AccumRow.items).getD []) items
  if merged ≠ [] then Function.update accum order (some ⟨label, merged⟩) else accum

def orderGenre (order : Nat) : QString :=
  match order with
  | 3 => units "rpg"
  | 4 => units "shooter"
  | 5 => units "strategy"
  | 6 => units "indie"
  | 14 => units "action"
  | 15 => units "scifi"
  | 16 => units "horror"
  | _ => []

variable (toLower : QString → QString)

def titleKey (m : Item) : QString := toLower m.title ++ units "|" ++ m.type

def rowsLoop : List QString → List (Nat × AccumRow) → List Row
  | _, [] => []
  | seenTitles, (order, row) :: rest =>
      let kept := keepFirst (titleKey toLower) seenTitles row.items
      let shown := rowsLoop (kept.map (titleKey toLower) ++ seenTitles) rest
      if kept ≠ [] then ⟨row.label, orderGenre order, kept⟩ :: shown else shown

def rowsFromAccum (accum : Accum) : List Row := rowsLoop toLower [] (entries accum)

def heroStep (limit col : Nat) (hero items : List Item) : List Item :=
  if limit ≤ hero.length then hero
  else
    match items[col]? with
    | none => hero
    | some m =>
        if m.backdrop = [] ∨ m.overview = [] then hero
        else if m.title ∈ hero.map Item.title then hero
        else hero ++ [m]

def heroFromAccum (accum : Accum) (limit : Nat) : List Item :=
  let rowItems := (entries accum).map fun e => e.2.items
  let maxItems := (rowItems.map List.length).foldl max 0
  (List.range maxItems).foldl
    (fun hero col => if hero.length < limit then rowItems.foldl (heroStep limit col) hero else hero) []

end Assemble

-- What the callback of a request for a shelf holds.
structure Shelf where
  refresh : Nat
  lang : QString
  order : Nat
  label : QString
  deriving DecidableEq

inductive Ask where
  | tmdb (page : Nat)
  | token
  | types
  | ids (hypeTypeId : Nat)
  | gamesByIds (ids : List Int)
  | games
  deriving DecidableEq

structure Request where
  shelf : Shelf
  ask : Ask
  deriving DecidableEq

-- What the catalogs reply to a request, as the parsers read it. An error is none, or no items.
structure Catalog where
  tmdb : Shelf → Nat → Option (List Item)
  token : Shelf → Option (QString × Int)
  types : Shelf → Nat
  ids : Shelf → Nat → List Int
  gamesByIds : Shelf → List Int → List Item
  games : Shelf → List Item

-- The world as a call finds it: the keys, the region, the time, the translated labels, and whether
-- the cache file can be written.
structure World where
  haveTmdb : Bool
  haveIgdb : Bool
  region : QString
  now : Int
  label : Nat → QString
  writable : Bool

structure Cache where
  v : Nat
  region : QString
  lang : QString
  savedAt : Option Int
  rows : List Row
  hero : List Item
  deriving DecidableEq

-- What a refresh started from.
structure Fetch where
  refresh : Nat
  lang : QString
  haveTmdb : Bool
  haveIgdb : Bool
  label : Nat → QString
  igdbToken : QString
  tokenFresh : Bool
  hypeTypeId : Nat

def Fetch.shelf (f : Fetch) (order : Nat) : Shelf := ⟨f.refresh, f.lang, order, f.label order⟩

-- `fetch` is the last refresh, for the proofs.
structure Service where
  language : QString
  loading : Bool
  rows : List Row
  hero : List Item
  accum : Accum
  pending : Int
  igdbToken : QString
  igdbTokenExpiry : Int
  hypeTypeId : Nat
  cache : Option Cache
  outstanding : List Request
  fetch : Fetch

def CacheTtlSecs : Int := 12 * 60 * 60
def CacheVersion : Nat := 8

section Service

variable (toLower : QString → QString) (w : World)

def saveToCache (s : Service) : Service :=
  if s.rows = [] then s
  else if w.writable then
    { s with cache := some ⟨CacheVersion, w.region, s.language, some w.now, s.rows, s.hero⟩ }
  else s

def maybeFinish (s : Service) : Service :=
  let s := { s with pending := s.pending - 1 }
  if 0 < s.pending then s
  else
    let s := { s with rows := rowsFromAccum toLower s.accum, hero := heroFromAccum s.accum 6 }
    { saveToCache w s with loading := false }

def send (shelf : Shelf) (ask : Ask) (s : Service) : Service :=
  { s with outstanding := s.outstanding ++ [⟨shelf, ask⟩] }

-- The games shelves wait for a token; the first then asks by popularity, the others for their games.
def withToken (shelf : Shelf) (s : Service) : Service :=
  if s.igdbToken = [] then maybeFinish toLower w s
  else if shelf.order = 0 then
    if 0 < s.hypeTypeId then send shelf (.ids s.hypeTypeId) s else send shelf .types s
  else send shelf .games s

def ensureIgdbToken (shelf : Shelf) (s : Service) : Service :=
  if s.igdbToken ≠ [] ∧ w.now < s.igdbTokenExpiry then withToken toLower w shelf s
  else send shelf .token s

def fetchIgdb (shelf : Shelf) (s : Service) : Service :=
  ensureIgdbToken toLower w shelf { s with pending := s.pending + 1 }

def fetchTmdb (shelf : Shelf) (page : Nat) (s : Service) : Service :=
  send shelf (.tmdb page) { s with pending := s.pending + 1 }

def startRefresh (s : Service) : Service :=
  { s with
    accum := fun _ => none
    pending := 0
    loading := true
    fetch := {
      refresh := s.fetch.refresh + 1
      lang := s.language
      haveTmdb := w.haveTmdb
      haveIgdb := w.haveIgdb
      label := w.label
      igdbToken := s.igdbToken
      tokenFresh := decide (s.igdbToken ≠ [] ∧ w.now < s.igdbTokenExpiry)
      hypeTypeId := s.hypeTypeId } }

def refresh (s : Service) : Service :=
  if s.loading then s
  else if !w.haveTmdb && !w.haveIgdb then s
  else
    let s := startRefresh w s
    let s := if w.haveIgdb then
        igdbOrders.foldl (fun s order => fetchIgdb toLower w (s.fetch.shelf order) s) s
      else s
    if w.haveTmdb then
      tmdbOrders.foldl
        (fun s order => fetchTmdb (s.fetch.shelf order) 2 (fetchTmdb (s.fetch.shelf order) 1 s)) s
    else s

def loadFromCache (s : Service) : Service × Bool :=
  match s.cache with
  | none => (s, false)
  | some o =>
      if o.v ≠ CacheVersion then (s, false)
      else if o.region ≠ w.region then (s, false)
      else if o.lang ≠ s.language then (s, false)
      else
        match o.savedAt with
        | none => (s, false)
        | some savedAt =>
            if CacheTtlSecs < w.now - savedAt then (s, false)
            else
              let s := { s with rows := o.rows, hero := o.hero }
              (s, s.rows ≠ [])

def load (s : Service) : Service :=
  if s.rows ≠ [] then s
  else
    match loadFromCache w s with
    | (s, true) => s
    | (s, false) => refresh toLower w s

-- The content language is set, and the service hears of it.
def reloadForLanguage (language : QString) (s : Service) : Service :=
  refresh toLower w { s with language := language }

def insertGames (order : Nat) (label : QString) (items : List Item) (s : Service) : Service :=
  if items ≠ [] then { s with accum := Function.update s.accum order (some ⟨label, items⟩) } else s

variable (catalog : Catalog)

def handle (r : Request) (s : Service) : Service :=
  match r.ask with
  | .tmdb page =>
      let reply := catalog.tmdb r.shelf page
      maybeFinish toLower w { s with accum := ingestTmdbShelf s.accum r.shelf.order r.shelf.label reply }
  | .token =>
      let s :=
        match catalog.token r.shelf with
        | some (token, expiresIn) => { s with igdbToken := token, igdbTokenExpiry := w.now + expiresIn - 60 }
        | none => s
      withToken toLower w r.shelf s
  | .types =>
      let s := { s with hypeTypeId := catalog.types r.shelf }
      send r.shelf (.ids s.hypeTypeId) s
  | .ids hypeTypeId =>
      let ids := catalog.ids r.shelf hypeTypeId
      if ids = [] then maybeFinish toLower w s else send r.shelf (.gamesByIds ids) s
  | .gamesByIds ids =>
      maybeFinish toLower w (insertGames r.shelf.order r.shelf.label (catalog.gamesByIds r.shelf ids) s)
  | .games =>
      maybeFinish toLower w (insertGames r.shelf.order r.shelf.label (catalog.games r.shelf) s)

inductive Call where
  | load
  | refresh
  | reloadForLanguage (language : QString)
  | reply (r : Request)

def next (s : Service) (e : World × Call) : Option (Service × List Unit) :=
  match e with
  | (w, .load) => some (load toLower w s, [])
  | (w, .refresh) => some (refresh toLower w s, [])
  | (w, .reloadForLanguage language) => some (reloadForLanguage toLower w language s, [])
  | (w, .reply r) =>
      if r ∈ s.outstanding then
        some (handle toLower w catalog r { s with outstanding := s.outstanding.erase r }, [])
      else none

-- A session starts with nothing shown and the cache file that is there.
def start (language : QString) (cache : Option Cache) : Service where
  language := language
  loading := false
  rows := []
  hero := []
  accum := fun _ => none
  pending := 0
  igdbToken := []
  igdbTokenExpiry := 0
  hypeTypeId := 0
  cache := cache
  outstanding := []
  fetch := ⟨0, language, false, false, fun _ => [], [], false, 0⟩

def machine (language : QString) (cache : Option Cache) : Machine Service (World × Call) Unit where
  init := start language cache
  next := next toLower catalog

end Service

open Lib.KeepFirst (keepFirst keepFirst_append)

variable (catalog : Catalog)

section Expected

variable (f : Fetch)

def pageItems (order page : Nat) : List Item := (catalog.tmdb (f.shelf order) page).getD []

-- Whether the games shelf finds a token: the one there was, or what its own request brings.
def passes (order : Nat) : Bool :=
  if f.tokenFresh then true
  else
    match catalog.token (f.shelf order) with
    | some (token, _) => token ≠ []
    | none => f.igdbToken ≠ []

def hypeType : Nat := if 0 < f.hypeTypeId then f.hypeTypeId else catalog.types (f.shelf 0)

def hypeIds : List Int := catalog.ids (f.shelf 0) (hypeType catalog f)

def gameItems (order : Nat) : List Item :=
  if passes catalog f order = false then []
  else if order = 0 then
    if hypeIds catalog f = [] then [] else catalog.gamesByIds (f.shelf 0) (hypeIds catalog f)
  else catalog.games (f.shelf order)

-- The items of a shelf, by what the catalogs reply: the pages of a film shelf in their order,
-- without the posters that were there before.
def shelfItems (order : Nat) : List Item :=
  if order ∈ igdbOrders then
    if f.haveIgdb then gameItems catalog f order else []
  else if order ∈ tmdbOrders then
    if f.haveTmdb then
      keepFirst Item.poster [] (pageItems catalog f order 1 ++ pageItems catalog f order 2)
    else []
  else []

def rowOf (order : Nat) (items : List Item) : Option AccumRow :=
  if items = [] then none else some ⟨f.label order, items⟩

def expected : Accum := fun order => rowOf f order (shelfItems catalog f order)

end Expected

-- The rows and the hero list of a language, as some refresh in that language has them.
def FetchedIn (toLower : QString → QString) (lang : QString) (rows : List Row) (hero : List Item) : Prop :=
  ∃ f : Fetch, f.lang = lang ∧ rows = rowsFromAccum toLower (expected catalog f) ∧
    hero = heroFromAccum (expected catalog f) 6

-- How far a shelf has come: the requests still out for it, and what was gathered.
inductive Progress (f : Fetch) (hype order : Nat) : List Request → Option AccumRow → Prop where
  | done : Progress f hype order [] (expected catalog f order)
  | token : order ∈ igdbOrders → f.haveIgdb = true → f.tokenFresh = false →
      (order = 0 → hype = f.hypeTypeId) → Progress f hype order [⟨f.shelf order, .token⟩] none
  | types : order = 0 → f.haveIgdb = true → passes catalog f 0 = true → f.hypeTypeId = 0 →
      Progress f hype order [⟨f.shelf order, .types⟩] none
  | ids : order = 0 → f.haveIgdb = true → passes catalog f 0 = true →
      Progress f hype order [⟨f.shelf order, .ids (hypeType catalog f)⟩] none
  | gamesByIds : order = 0 → f.haveIgdb = true → passes catalog f 0 = true → hypeIds catalog f ≠ [] →
      Progress f hype order [⟨f.shelf order, .gamesByIds (hypeIds catalog f)⟩] none
  | games : order ∈ igdbOrders → order ≠ 0 → f.haveIgdb = true → passes catalog f order = true →
      Progress f hype order [⟨f.shelf order, .games⟩] none
  | pages : order ∈ tmdbOrders → f.haveTmdb = true →
      Progress f hype order [⟨f.shelf order, .tmdb 1⟩, ⟨f.shelf order, .tmdb 2⟩] none
  | second : order ∈ tmdbOrders → f.haveTmdb = true →
      Progress f hype order [⟨f.shelf order, .tmdb 2⟩]
        (rowOf f order (keepFirst Item.poster [] (pageItems catalog f order 1)))
  | first : order ∈ tmdbOrders → f.haveTmdb = true →
      keepFirst Item.poster [] (pageItems catalog f order 2 ++ pageItems catalog f order 1) =
        keepFirst Item.poster [] (pageItems catalog f order 1 ++ pageItems catalog f order 2) →
      Progress f hype order [⟨f.shelf order, .tmdb 1⟩]
        (rowOf f order (keepFirst Item.poster [] (pageItems catalog f order 2)))

-- The requests that are out for a shelf.
def out (s : Service) (order : Nat) : List Request := s.outstanding.filter fun r => r.shelf.order = order

-- While a refresh runs: `answered` of the shelves it counts have had their last reply without being
-- taken off the count.
structure Gathering (answered : Nat) (s : Service) : Prop where
  lang : s.fetch.lang = s.language
  loading : s.loading = true
  pending : s.pending = (s.outstanding.length + answered : Nat)
  shelves : ∀ order, Progress catalog s.fetch s.hypeTypeId order (out s order) (s.accum order)

structure Settled (toLower : QString → QString) (s : Service) : Prop where
  idle : s.loading = false →
    s.outstanding = [] ∧ (s.rows = [] ∨ FetchedIn catalog toLower s.language s.rows s.hero)
  busy : s.loading = true → Gathering catalog 0 s ∧ s.outstanding ≠ []
  cache : ∀ c ∈ s.cache, FetchedIn catalog toLower c.lang c.rows c.hero

section Rows

variable {catalog} {f : Fetch} {order : Nat} {accum : Accum}

theorem merge_keepFirst (xs ys : List Item) :
    mergeShelfByPoster (keepFirst Item.poster [] xs) ys = keepFirst Item.poster [] (xs ++ ys) := by
  rw [mergeShelfByPoster, keepFirst_append, List.append_nil]

-- A page goes behind what was gathered of its shelf.
theorem ingest_rowOf {xs : List Item} (h : accum order = rowOf f order (keepFirst Item.poster [] xs))
    (reply : Option (List Item)) :
    ingestTmdbShelf accum order (f.label order) reply =
      Function.update accum order (rowOf f order (keepFirst Item.poster [] (xs ++ reply.getD []))) := by
  have hitems : ((accum order).map AccumRow.items).getD [] = keepFirst Item.poster [] xs := by
    rw [h, rowOf]
    split
    · next hempty => rw [hempty]; rfl
    · rfl
  unfold ingestTmdbShelf
  dsimp only
  rw [hitems, merge_keepFirst]
  by_cases hmerged : keepFirst Item.poster [] (xs ++ reply.getD []) = []
  · have hbefore : keepFirst Item.poster [] xs = [] := by
      rw [keepFirst_append] at hmerged
      exact (List.append_eq_nil_iff.mp hmerged).1
    rw [if_neg (fun hne => hne hmerged), hmerged, rowOf, if_pos rfl]
    rw [hbefore, rowOf, if_pos rfl] at h
    rw [← h, Function.update_eq_self]
  · rw [if_pos hmerged, rowOf, if_neg hmerged]

theorem insertGames_rowOf {s : Service} (h : s.accum order = none) (items : List Item) :
    insertGames order (f.label order) items s =
      { s with accum := Function.update s.accum order (rowOf f order items) } := by
  by_cases hempty : items = []
  · rw [insertGames, rowOf, if_neg (fun hne => hne hempty), if_pos hempty, ← h, Function.update_eq_self]
  · rw [insertGames, rowOf, if_pos hempty, if_neg hempty]

theorem expected_tmdb (ho : order ∈ tmdbOrders) (hkey : f.haveTmdb = true) :
    expected catalog f order =
      rowOf f order (keepFirst Item.poster [] (pageItems catalog f order 1 ++ pageItems catalog f order 2)) := by
  have hnot : order ∉ igdbOrders := by
    intro hboth
    simp only [igdbOrders, tmdbOrders, List.mem_cons, List.not_mem_nil, or_false] at ho hboth
    omega
  rw [expected, shelfItems, if_neg hnot, if_pos ho, if_pos hkey]

theorem expected_igdb (ho : order ∈ igdbOrders) (hkey : f.haveIgdb = true) :
    expected catalog f order = rowOf f order (gameItems catalog f order) := by
  rw [expected, shelfItems, if_pos ho, if_pos hkey]

theorem Progress.hype {hype hype' : Nat} {reqs : List Request} {row : Option AccumRow}
    (h : Progress catalog f hype order reqs row) (hsame : order = 0 → hype' = hype) :
    Progress catalog f hype' order reqs row := by
  cases h with
  | done => exact .done
  | token ho hkey hfresh hhype => exact .token ho hkey hfresh fun h0 => (hsame h0).trans (hhype h0)
  | types ho hkey hpass hzero => exact .types ho hkey hpass hzero
  | ids ho hkey hpass => exact .ids ho hkey hpass
  | gamesByIds ho hkey hpass hids => exact .gamesByIds ho hkey hpass hids
  | games ho hne hkey hpass => exact .games ho hne hkey hpass
  | pages ho hkey => exact .pages ho hkey
  | second ho hkey => exact .second ho hkey
  | first ho hkey hswap => exact .first ho hkey hswap

theorem Progress.of_nil {hype : Nat} {row : Option AccumRow} (h : Progress catalog f hype order [] row) :
    row = expected catalog f order := by
  cases h with
  | done => rfl

end Rows

section Gathers

variable {catalog} {s : Service} {n : Nat}

-- With nothing out any more all the shelves are as expected.
theorem Gathering.accum_eq (h : Gathering catalog n s) (hnone : s.outstanding = []) :
    s.accum = expected catalog s.fetch := by
  funext order
  have hshelf := h.shelves order
  rw [out, hnone] at hshelf
  exact hshelf.of_nil

theorem out_erase (s : Service) (r : Request) (order : Nat) :
    (s.outstanding.erase r).filter (fun r => decide (r.shelf.order = order)) = (out s order).erase r :=
  List.erase_filter.symm

end Gathers

end BATorrent.DiscoveryService
