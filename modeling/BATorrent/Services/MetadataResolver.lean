import BATorrent.Lib.Run
import BATorrent.Lib.Text
import Mathlib.Logic.Function.Basic
import Mathlib.Logic.Function.Iterate

namespace BATorrent.MetadataResolver

open Lib

abbrev Text := List Char

-- An info-hash in the one case that everything is kept under.
structure InfoHash where
  text : Text
  lower : text.map Char.toLower = text
deriving DecidableEq

def canonicalInfoHash (hash : Text) : InfoHash := ⟨hash.map Char.toLower, Text.map_toLower_toLower hash⟩

@[simp] theorem canonicalInfoHash_text (hash : InfoHash) : canonicalInfoHash hash.text = hash := by
  obtain ⟨text, lower⟩ := hash
  simp only [canonicalInfoHash, lower]

inductive ContentType where
  | movie
  | series
  | game
  | unknown
deriving DecidableEq, Repr

structure ParsedName where
  cleanTitle : Text
  year : Int
  contentType : ContentType
deriving DecidableEq

structure MetadataResult where
  title : Text := []
  posterPath : Text := []
  description : Text := []
  contentType : ContentType := .unknown
  tmdbId : Int := 0
  collectionId : Int := 0
  collectionChecked : Bool := false
  valid : Bool := false
deriving DecidableEq

-- A result of a TMDB search, for a film or a show.
structure Item where
  title : Text
  overview : Text
  posterPath : Text
  id : Int
deriving DecidableEq

structure Game where
  name : Text
  summary : Text
  imageId : Text
deriving DecidableEq

structure StoreDetails where
  name : Text
  description : Text
  posterUrl : Text
deriving DecidableEq

-- What a body reads as. What it does not have is empty, all of it in a malformed one.
structure Body where
  accessToken : Text := []
  expiresIn : Int := 3600
  results : List Item := []
  games : List Game := []
  collection : Option Int := none
  overview : Text := []
  appId : Int := 0
  details : StoreDetails := ⟨[], [], []⟩
deriving DecidableEq

-- How titles are compared, and searched for once more.
structure MetadataMatch where
  confidentTitle : Text → Text → Bool
  shortenedSearchTitle : Text → Text
  pickBestIgdbResult : List Game → Text → Int → Option Game

-- What a film's details go on to.
inductive Done where
  | film (infoHash : InfoHash) (posterPath : Text)
  | collection (key : InfoHash)
deriving DecidableEq

inductive Request where
  | token
  | igdb (infoHash : InfoHash) (parsed : ParsedName) (queryTitle : Text)
  | movie (infoHash : InfoHash) (parsed : ParsedName)
  | movieDetails (result : MetadataResult) (done : Done)
  | tv (infoHash : InfoHash) (parsed : ParsedName)
  | overviewEn (result : MetadataResult) (infoHash : InfoHash) (posterPath : Text)
  | steamSearch (infoHash : InfoHash) (parsed : ParsedName)
  | steamItems (infoHash : InfoHash)
  | poster (key : InfoHash) (part : MetadataResult)
deriving DecidableEq

inductive Signal where
  | metadataReady (infoHash : InfoHash) (result : MetadataResult)
  | manualResolveFailed (infoHash : InfoHash) (query : Text)
deriving DecidableEq

-- `outstanding` are the requests without an answer, `timer` is the rate limiter, `saved` is what a file
-- holds for each key; `hung` once the program is in a loop without end.
structure State where
  cache : InfoHash → Option MetadataResult
  saved : InfoHash → Option MetadataResult
  queue : List (InfoHash × ParsedName)
  collectionQueue : List InfoHash
  collectionAsked : List InfoHash
  igdbPending : List (InfoHash × ParsedName)
  manualQueries : InfoHash → Option Text
  requestInFlight : Bool
  timer : Bool
  igdbAccessToken : Text
  igdbTokenExpiry : Int
  outstanding : List Request
  signals : List Signal
  hung : Bool

-- The clock in seconds, whether there are credentials for IGDB, whether the language is English, and
-- whether a poster can be written.
structure Env where
  now : Int
  configured : Bool
  english : Bool
  writes : Bool
deriving DecidableEq

namespace State

variable (s : State)

def ask (request : Request) : State := { s with outstanding := s.outstanding ++ [request] }

def launch (request : Request) : State := { s.ask request with requestInFlight := true }

-- What is cached is saved.
def insert (key : InfoHash) (r : MetadataResult) : State :=
  { s with
    cache := Function.update s.cache key (some r)
    saved := Function.update s.saved key (some r) }

def metadataReady (key : InfoHash) (r : MetadataResult) : State :=
  { s with
    manualQueries := Function.update s.manualQueries key none
    signals := s.signals ++ [.metadataReady key r] }

def finishLookup (infoHash : InfoHash) : State :=
  { s with
    manualQueries := Function.update s.manualQueries infoHash none
    signals :=
      match s.manualQueries infoHash with
      | some query => s.signals ++ [.manualResolveFailed infoHash query]
      | none => s.signals
    timer := true }

-- How a lookup ends that found something.
def settle (key : InfoHash) (r : MetadataResult) : State :=
  ((s.insert key r).metadataReady key r).finishLookup key

def downloadPoster (infoHash : InfoHash) (r : MetadataResult) : State :=
  s.ask (.poster (canonicalInfoHash infoHash.text) r)

def querySteam (infoHash : InfoHash) (parsed : ParsedName) : State := s.launch (.steamSearch infoHash parsed)

def queryTmdbMovie (infoHash : InfoHash) (parsed : ParsedName) : State := s.launch (.movie infoHash parsed)

def queryTmdbTv (infoHash : InfoHash) (parsed : ParsedName) : State := s.launch (.tv infoHash parsed)

def fetchTmdbMovieDetails (r : MetadataResult) (done : Done) : State := s.launch (.movieDetails r done)

-- Where IGDB has nothing.
def withoutIgdb (infoHash : InfoHash) (parsed : ParsedName) : State :=
  match parsed.contentType with
  | .unknown => s.queryTmdbMovie infoHash parsed
  | .game => s.querySteam infoHash parsed
  | _ => s.finishLookup infoHash

def tokenValid (env : Env) : Bool := s.igdbAccessToken ≠ [] && env.now < s.igdbTokenExpiry

def ensureIgdbToken (env : Env) : State :=
  if s.tokenValid env then s else if !env.configured then s else s.ask .token

-- A lookup that waits for the token is not in flight.
def park (infoHash : InfoHash) (parsed : ParsedName) : State :=
  { s with igdbPending := s.igdbPending ++ [(infoHash, parsed)], requestInFlight := false }

def queryIgdb (env : Env) (infoHash : InfoHash) (parsed : ParsedName) (searchOverride : Text) : State :=
  if !env.configured then s.withoutIgdb infoHash parsed
  else if !s.tokenValid env then (s.park infoHash parsed).ensureIgdbToken env
  else s.launch (.igdb infoHash parsed (if searchOverride = [] then parsed.cleanTitle else searchOverride))

def lookup (env : Env) (infoHash : InfoHash) (parsed : ParsedName) : State :=
  match parsed.contentType with
  | .series => s.queryTmdbTv infoHash parsed
  | .movie => s.queryTmdbMovie infoHash parsed
  | _ => s.queryIgdb env infoHash parsed []

def unchecked (r : MetadataResult) : Bool :=
  r.contentType = .movie && 0 < r.tmdbId && !r.collectionChecked

-- Films whose collection is known by now are passed over.
def nextCollection (s : State) : List InfoHash → State
  | [] => { s with collectionQueue := [] }
  | key :: rest =>
      let c := (s.cache key).getD {}
      if unchecked c then { s with collectionQueue := rest }.fetchTmdbMovieDetails c (.collection key)
      else nextCollection s rest

def processQueue (env : Env) : State :=
  if s.requestInFlight then s
  else
    match s.queue with
    | [] => s.nextCollection s.collectionQueue
    | (infoHash, parsed) :: rest => { s with queue := rest }.lookup env infoHash parsed

-- Unless a lookup is on its way.
def kick (env : Env) : State := if !s.requestInFlight && !s.timer then s.processQueue env else s

def queueCollectionCheck (env : Env) (key : InfoHash) : State :=
  if !unchecked ((s.cache key).getD {}) || s.collectionAsked.contains key then s
  else
    { s with
      collectionAsked := key :: s.collectionAsked
      collectionQueue := s.collectionQueue ++ [key] }.kick env

-- There is art, or a blank that is meant to be one.
def complete (key : InfoHash) : Bool :=
  match s.cache key with
  | some c => c.posterPath ≠ [] || c.valid && c.title = []
  | none => false

def enqueue (key : InfoHash) (parsed : ParsedName) : State := { s with queue := s.queue ++ [(key, parsed)] }

def resolve (env : Env) (infoHash : Text) (parsed : ParsedName) : State :=
  let key := canonicalInfoHash infoHash
  if key.text = [] then s
  else if s.complete key then s.queueCollectionCheck env key
  else (s.enqueue key parsed).kick env

def batchAdd (env : Env) (s : State) (torrent : Text × ParsedName) : State :=
  let key := canonicalInfoHash torrent.1
  if key.text = [] then s
  else if s.complete key then s.queueCollectionCheck env key
  else s.enqueue key torrent.2

def batchResolve (env : Env) (torrents : List (Text × ParsedName)) : State :=
  let s := torrents.foldl (batchAdd env) s
  if s.queue ≠ [] then s.kick env else s

def resolveManual (env : Env) (infoHash : Text) (query : Text) (parsed : ParsedName) : State :=
  let key := canonicalInfoHash infoHash
  if key.text = [] then s
  else
    ({ s with
        cache := Function.update s.cache key none
        manualQueries := Function.update s.manualQueries key (some query) }.enqueue key parsed).kick env

def clearMetadata (infoHash : Text) : State :=
  let key := canonicalInfoHash infoHash
  if key.text = [] then s
  else
    let prev := (s.cache key).getD {}
    let r : MetadataResult :=
      if prev.valid then { contentType := prev.contentType, tmdbId := prev.tmdbId, valid := true }
      else { valid := true }
    (s.insert key r).metadataReady key r

-- A poster, or none to get.
def finish (infoHash : InfoHash) (posterPath : Text) (r : MetadataResult) : State :=
  if posterPath ≠ [] then s.downloadPoster infoHash r else s.settle infoHash r

-- One turn of the loop over the lookups that were parked.
def drainOne (env : Env) (s : State) : State :=
  match s.igdbPending with
  | [] => s
  | (infoHash, parsed) :: rest => { s with igdbPending := rest }.queryIgdb env infoHash parsed []

-- A turn takes one lookup out and may park one, so the loop is over after as many turns as there were
-- lookups, or never.
def drain (env : Env) : State :=
  let s' := (drainOne env)^[s.igdbPending.length] s
  { s' with hung := s'.igdbPending ≠ [] }

def onToken (env : Env) : Option Body → State
  | none => s
  | some b =>
      { s with
        igdbAccessToken := b.accessToken
        igdbTokenExpiry := env.now + b.expiresIn - 60 }.drain env

def onIgdb (m : MetadataMatch) (env : Env) (infoHash : InfoHash) (parsed : ParsedName) (queryTitle : Text) :
    Option Body → State
  | none => s.withoutIgdb infoHash parsed
  | some b =>
      match m.pickBestIgdbResult b.games parsed.cleanTitle parsed.year with
      | none =>
          let shorter := m.shortenedSearchTitle queryTitle
          if shorter ≠ [] then s.queryIgdb env infoHash parsed shorter else s.withoutIgdb infoHash parsed
      | some game =>
          s.finish infoHash game.imageId
            { title := game.name, description := game.summary, contentType := .game, valid := true }

def onMovie (m : MetadataMatch) (infoHash : InfoHash) (parsed : ParsedName) : Option Body → State
  | none => s.finishLookup infoHash
  | some b =>
      match b.results with
      | [] =>
          if parsed.contentType = .unknown then s.queryTmdbTv infoHash parsed
          else s.finishLookup infoHash
      | item :: _ =>
          if parsed.contentType = .unknown ∧ !m.confidentTitle parsed.cleanTitle item.title then
            s.queryTmdbTv infoHash parsed
          else
            let r : MetadataResult :=
              { title := item.title, description := item.overview, tmdbId := item.id, valid := true
                contentType := if parsed.contentType = .game then .game else .movie }
            if item.id ≤ 0 then s.finish infoHash item.posterPath r
            else s.fetchTmdbMovieDetails r (.film infoHash item.posterPath)

def onMovieDetails (env : Env) (result : MetadataResult) (done : Done) (answer : Option Body) : State :=
  let r :=
    match answer.bind Body.collection with
    | some id => { result with collectionId := id, collectionChecked := true }
    | none => result
  match done with
  | .film infoHash posterPath =>
      if r.description = [] ∧ !env.english then s.launch (.overviewEn r infoHash posterPath)
      else s.finish infoHash posterPath r
  | .collection key =>
      let s' :=
        if r.collectionChecked then
          if 0 < r.collectionId then (s.insert key r).metadataReady key r else s.insert key r
        else s
      s'.finishLookup key

def onTv (m : MetadataMatch) (env : Env) (infoHash : InfoHash) (parsed : ParsedName) : Option Body → State
  | none => s.finishLookup infoHash
  | some b =>
      match b.results with
      | [] => s.finishLookup infoHash
      | item :: _ =>
          if parsed.contentType = .unknown ∧ !m.confidentTitle parsed.cleanTitle item.title then
            s.finishLookup infoHash
          else
            let r : MetadataResult :=
              { title := item.title, description := item.overview, tmdbId := item.id, valid := true
                contentType := .series }
            if r.description = [] ∧ 0 < item.id ∧ !env.english then
              s.launch (.overviewEn r infoHash item.posterPath)
            else s.finish infoHash item.posterPath r

def onOverviewEn (r : MetadataResult) (infoHash : InfoHash) (posterPath : Text) (answer : Option Body) : State :=
  let en := (answer.map Body.overview).getD []
  s.finish infoHash posterPath (if en ≠ [] then { r with description := en } else r)

-- The second request goes out while the first one counts as in flight.
def onSteamSearch (infoHash : InfoHash) (answer : Option Body) : State :=
  if (answer.map Body.appId).getD 0 ≤ 0 then { s with requestInFlight := false }.finishLookup infoHash
  else s.ask (.steamItems infoHash)

def onSteamItems (infoHash : InfoHash) (answer : Option Body) : State :=
  let d := (answer.map Body.details).getD ⟨[], [], []⟩
  if d.name = [] then s.finishLookup infoHash
  else
    let r : MetadataResult :=
      { title := d.name, description := d.description, contentType := .game, valid := true }
    if d.posterUrl ≠ [] then s.downloadPoster infoHash r else s.settle (canonicalInfoHash infoHash.text) r

-- `posterPath` is the file that the poster was written to.
def onPoster (env : Env) (key : InfoHash) (part : MetadataResult) (answer : Option Body) : State :=
  s.settle key (if answer.isSome ∧ env.writes then { part with posterPath := key.text ++ ".jpg".toList } else part)

def landed : State := { s with requestInFlight := false }

def onReply (m : MetadataMatch) (env : Env) (answer : Option Body) : Request → State
  | .token => s.onToken env answer
  | .igdb infoHash parsed queryTitle => s.landed.onIgdb m env infoHash parsed queryTitle answer
  | .movie infoHash parsed => s.landed.onMovie m infoHash parsed answer
  | .movieDetails result done => s.landed.onMovieDetails env result done answer
  | .tv infoHash parsed => s.landed.onTv m env infoHash parsed answer
  | .overviewEn result infoHash posterPath => s.landed.onOverviewEn result infoHash posterPath answer
  | .steamSearch infoHash _ => s.onSteamSearch infoHash answer
  | .steamItems infoHash => s.landed.onSteamItems infoHash answer
  | .poster key part => s.onPoster env key part answer

end State

-- Names come as the parser reads them, with the type that the files give. A reply without a body is an
-- error.
inductive Event where
  | resolve (env : Env) (infoHash : Text) (parsed : ParsedName)
  | batchResolve (env : Env) (torrents : List (Text × ParsedName))
  | resolveManual (env : Env) (infoHash : Text) (query : Text) (parsed : ParsedName)
  | clearMetadata (infoHash : Text)
  | timeout (env : Env)
  | reply (env : Env) (i : Nat) (answer : Option Body)
deriving DecidableEq

def State.next (m : MetadataMatch) (s : State) (e : Event) : Option State :=
  if s.hung then none
  else
    match e with
    | .resolve env infoHash parsed => some (s.resolve env infoHash parsed)
    | .batchResolve env torrents => some (s.batchResolve env torrents)
    | .resolveManual env infoHash query parsed => some (s.resolveManual env infoHash query parsed)
    | .clearMetadata infoHash => some (s.clearMetadata infoHash)
    | .timeout env => if s.timer then some ({ s with timer := false }.processQueue env) else none
    | .reply env i answer =>
        s.outstanding[i]?.map fun request =>
          { s with outstanding := s.outstanding.eraseIdx i }.onReply m env answer request

-- The cache is what earlier runs of the program left on disk.
def machine (m : MetadataMatch) (cache : InfoHash → Option MetadataResult) : Machine State Event Empty where
  init :=
    { cache := cache
      saved := cache
      queue := []
      collectionQueue := []
      collectionAsked := []
      igdbPending := []
      manualQueries := fun _ => none
      requestInFlight := false
      timer := false
      igdbAccessToken := []
      igdbTokenExpiry := 0
      outstanding := []
      signals := []
      hung := false }
  next s e := (s.next m e).map fun s' => (s', [])

end BATorrent.MetadataResolver
