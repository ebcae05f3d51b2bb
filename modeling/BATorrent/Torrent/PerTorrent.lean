import BATorrent.Lib.Run
import BATorrent.Lib.Text
import BATorrent.Torrent.Library.Session
import Mathlib.Logic.Function.Basic

namespace BATorrent.PerTorrent

open Lib Library

-- The maps and sets of SessionManager that are keyed by a torrent's hash.
inductive Setting where
  | stopAfter
  | maxSeed
  | downLimit
  | upLimit
  | completed
  | forceStart
  | tags
  | category
  | intendedPath
  | coverHint
  | missingHashes
  | missingSeen
  | missingPaused
deriving DecidableEq

namespace Setting

-- A set is a map whose values are all true.
abbrev Value : Setting → Type
  | .stopAfter => Int
  | .maxSeed => Int
  | .downLimit => Int
  | .upLimit => Int
  | .completed => Bool
  | .forceStart => Bool
  | .tags => List Text
  | .category => Text
  | .intendedPath => Text
  | .coverHint => Text × Int
  | .missingHashes => Bool
  | .missingSeen => Bool
  | .missingPaused => Bool

-- What a getter gives where the map has nothing.
def default : (σ : Setting) → σ.Value
  | .stopAfter => -1
  | .maxSeed => -1
  | .downLimit => 0
  | .upLimit => 0
  | .completed => false
  | .forceStart => false
  | .tags => []
  | .category => []
  | .intendedPath => []
  | .coverHint => ([], 0)
  | .missingHashes => false
  | .missingSeen => false
  | .missingPaused => false

-- What the settings file has, and the constructor reads back.
def persisted : Setting → Bool
  | .intendedPath => false
  | .coverHint => false
  | .missingHashes => false
  | .missingSeen => false
  | .missingPaused => false
  | _ => true

end Setting

-- What is keyed by the handle, the status cache and m_magnetHashes aside. What the entries say is
-- not used here.
inductive Note where
  | queuePaused
  | killSwitchPaused
  | lastResumeSaveAt
  | lastFastAt
  | streamWindows
  | streamed
  | pendingResumeStripCheck
  | magnetAddedAt
  | fault
deriving DecidableEq

-- A torrent libtorrent has, or had before its handle expired.
structure Torrent where
  hashes : InfoHashes
  hasMetadata : Bool
  expired : Bool
deriving DecidableEq

structure Staged where
  handle : Handle
  uri : InfoHashes

-- A hash as QString has it, none for the empty one.
abbrev Key := Option Sha1Hash

-- `cached` is has_metadata of the status in m_statusCache.
structure State where
  torrents : Handle → Option Torrent
  rows : List Handle
  staged : Sha1Hash → Option Staged
  cached : Handle → Option Bool
  magnetHashes : Handle → Option Sha1Hash
  table : (σ : Setting) → Key → Option σ.Value
  saved : (σ : Setting) → Key → Option σ.Value
  noted : Note → Handle → Bool
  categorySavePaths : Text → Text
  tempPath : Option Text
  pauseOnMissingData : Bool

def init : State where
  torrents _ := none
  rows := []
  staged _ := none
  cached _ := none
  magnetHashes _ := none
  table _ _ := none
  saved _ _ := none
  noted _ _ := false
  categorySavePaths _ := []
  tempPath := none
  pauseOnMissingData := true

namespace State

variable (s : State)

section Tables

def put (σ : Setting) (k : Key) (v : σ.Value) : State :=
  { s with table := Function.update s.table σ (Function.update (s.table σ) k (some v)) }

def drop (σ : Setting) (k : Key) : State :=
  { s with table := Function.update s.table σ (Function.update (s.table σ) k none) }

def save (σ : Setting) (k : Key) : State :=
  { s with saved := Function.update s.saved σ (Function.update (s.saved σ) k (s.table σ k)) }

def unsave (σ : Setting) (k : Key) : State :=
  { s with saved := Function.update s.saved σ (Function.update (s.saved σ) k none) }

def saveAll (σ : Setting) : State :=
  { s with saved := Function.update s.saved σ (s.table σ) }

def note (τ : Note) (h : Handle) : State :=
  { s with noted := Function.update s.noted τ (Function.update (s.noted τ) h true) }

def strike (τ : Note) (h : Handle) : State :=
  { s with noted := Function.update s.noted τ (Function.update (s.noted τ) h false) }

end Tables

section Hashes

def isValid (h : Handle) : Bool := (s.torrents h).any fun t => !t.expired

-- A status that is not cached is asked for.
def cachedMetadata (h : Handle) : Bool :=
  match s.cached h with
  | some b => b
  | none => (s.torrents h).any fun t => !t.expired && t.hasMetadata

-- cachedStatus keeps what it asked for.
def warm (h : Handle) : State :=
  if s.isValid h then { s with cached := Function.update s.cached h (some (s.cachedMetadata h)) }
  else s

def hashOf (h : Handle) : Key :=
  (s.torrents h).bind fun t =>
    if t.expired then none
    else if s.cachedMetadata h then some t.hashes.best
    else s.magnetHashes h

def torrentHash (i : Nat) : Key := s.rows[i]?.bind s.hashOf

-- The hash of a cached status that has metadata.
def metadataHash (h : Handle) : Key :=
  (s.torrents h).bind fun t =>
    if t.expired then none else if s.cachedMetadata h then some t.hashes.best else none

end Hashes

section Getters

def value (σ : Setting) (k : Key) : σ.Value := (s.table σ k).getD σ.default

-- torrentStopAfterDownload, torrentMaxSeedSeconds, torrentDownloadLimit, torrentUploadLimit,
-- isForceStart and torrentTags; and what the other maps have under the same hash.
def getter (σ : Setting) (i : Nat) : σ.Value :=
  match s.torrentHash i with
  | none => σ.default
  | some hash => s.value σ (some hash)

-- The fields of torrentAt: category and tags.
def torrentAt (σ : Setting) (i : Nat) : σ.Value :=
  match s.rows[i]?.bind s.metadataHash with
  | none => σ.default
  | some hash => s.value σ (some hash)

end Getters

section Setters

def warmRow (i : Nat) : State :=
  match s.rows[i]? with
  | some h => s.warm h
  | none => s

-- A setter that keeps nothing for an empty hash.
def withHash (i : Nat) (f : State → Key → State) : State :=
  match s.torrentHash i with
  | none => s.warmRow i
  | some hash => f (s.warmRow i) (some hash)

def setTorrentStopAfterDownload (i : Nat) (value : Int) : State :=
  s.withHash i fun s k =>
    if value < 0 then s.drop .stopAfter k
    else s.put .stopAfter k (if value ≠ 0 then (1 : Int) else (0 : Int))

def setTorrentMaxSeedSeconds (i : Nat) (seconds : Int) : State :=
  s.withHash i fun s k => if seconds < 0 then s.drop .maxSeed k else s.put .maxSeed k seconds

def setForceStart (i : Nat) (on : Bool) : State :=
  s.withHash i fun s k =>
    let s' :=
      if on then
        let s' := s.put .forceStart k true
        match s.rows[i]? with
        | some h => s'.strike .queuePaused h
        | none => s'
      else s.drop .forceStart k
    s'.saveAll .forceStart

-- Of the limits' setters the row and its handle are checked, and an empty hash is not.
def withHandle (i : Nat) (f : State → Key → State) : State :=
  match s.rows[i]? with
  | none => s
  | some h => if s.isValid h then f (s.warm h) (s.hashOf h) else s

def setTorrentDownloadLimit (i : Nat) (kbps : Int) : State :=
  s.withHandle i fun s k =>
    (if kbps ≤ 0 then s.drop .downLimit k else s.put .downLimit k kbps).save .downLimit k

def setTorrentUploadLimit (i : Nat) (kbps : Int) : State :=
  s.withHandle i fun s k =>
    (if kbps ≤ 0 then s.drop .upLimit k else s.put .upLimit k kbps).save .upLimit k

-- Completion is kept for a torrent whose status has metadata.
def withMetadata (i : Nat) (f : State → Key → State) : State :=
  match s.rows[i]?.bind s.metadataHash with
  | none => s.warmRow i
  | some hash => f (s.warmRow i) (some hash)

def markCompleted (i : Nat) : State :=
  s.withMetadata i fun s k =>
    if s.value .completed k then s else (s.put .completed k true).saveAll .completed

def unmarkCompleted (i : Nat) : State :=
  s.withMetadata i fun s k =>
    if s.value .completed k then (s.drop .completed k).saveAll .completed else s

-- A category's save path becomes the intended one of a torrent that downloads to the temp path.
def setTorrentCategory (i : Nat) (category : Text) (downloading : Bool) : State :=
  s.withHash i fun s k =>
    let s' := (if category = [] then s.drop .category k else s.put .category k category).save
      .category k
    let catPath := s.categorySavePaths category
    if category ≠ [] ∧ catPath ≠ [] ∧ downloading ∧ s.tempPath.isSome then
      s'.put .intendedPath k catPath
    else s'

-- `same` compares as QString does, case-insensitively.
def cleanTags (same : Text → Text → Bool) (tags : List Text) : List Text :=
  tags.foldl (fun clean raw =>
    let t := Text.trim raw
    if t = [] ∨ clean.any (same · t) then clean else clean ++ [t]) []

def setTorrentTags (same : Text → Text → Bool) (i : Nat) (tags : List Text) : State :=
  s.withHash i fun s k =>
    let clean := cleanTags same tags
    (if clean = [] then s.drop .tags k else s.put .tags k clean).save .tags k

def saveResumeData : State := ((s.saveAll .category).saveAll .stopAfter).saveAll .maxSeed

def setPauseOnMissingData (enabled : Bool) : State :=
  let s' := { s with pauseOnMissingData := enabled }
  if enabled then s'
  else { s' with table := Function.update s'.table .missingPaused fun _ => none }

end Setters

section Metadata

-- A key moves with its value, over what the new key had.
def rekeyed {α : Type} (t : Key → Option α) (oldHash best : Key) : Key → Option α :=
  match t oldHash with
  | some v => Function.update (Function.update t best (some v)) oldHash none
  | none => t

def rekey (σ : Setting) (oldHash best : Key) : State :=
  { s with table := Function.update s.table σ (rekeyed (s.table σ) oldHash best) }

def handleMetadata (h : Handle) : State :=
  match s.magnetHashes h, s.torrents h with
  | some oldHash, some t =>
      let best := t.hashes.best
      if best ≠ oldHash then
        let s' := s.rekey .intendedPath (some oldHash) (some best)
        let s' := s'.rekey .coverHint (some oldHash) (some best)
        let s' := s'.rekey .stopAfter (some oldHash) (some best)
        { s' with magnetHashes := Function.update s'.magnetHashes h (some best) }
      else s
  | _, _ => s

end Metadata

section Adding

def isDuplicate (ih : InfoHashes) : Bool :=
  s.rows.any fun h => (s.torrents h).any fun t => !t.expired && t.hashes = ih

-- The handle add_torrent gives: a new one, or that of a torrent with a hash of these.
def gives (ih : InfoHashes) (h : Handle) : Bool :=
  match s.torrents h with
  | none => true
  | some t => !t.expired && t.hashes.Shares ih

def know (h : Handle) (ih : InfoHashes) (hasMetadata : Bool) : State :=
  match s.torrents h with
  | none => { s with torrents := Function.update s.torrents h (some ⟨ih, hasMetadata, false⟩) }
  | some _ => s

def adopt (h : Handle) (ih : InfoHashes) (hasMetadata : Bool) : State :=
  let s' := s.know h ih hasMetadata
  { s' with rows := s'.rows ++ [h] }

def intend (hash : Sha1Hash) (savePath : Text) : State :=
  if s.tempPath.isSome then s.put .intendedPath (some hash) savePath else s

-- addTorrent and addTorrentInfo. The intended path is there before add_torrent can throw.
def addTorrent (ih : InfoHashes) (savePath : Text) (given : Option Handle) : State :=
  if s.isDuplicate ih then s
  else
    let s' := s.intend ih.best savePath
    match given with
    | some h => s'.adopt h ih true
    | none => s'

def addMagnet (ih : InfoHashes) (savePath coverHint : Text) (coverType : Int)
    (given : Option Handle) : State :=
  if s.isDuplicate ih then s
  else
    let s' := if coverHint ≠ [] then s.put .coverHint (some ih.best) (coverHint, coverType) else s
    let s' := s'.intend ih.best savePath
    match given with
    | some h =>
        let s' := (s'.adopt h ih false).note .magnetAddedAt h
        { s' with magnetHashes := Function.update s'.magnetHashes h (some ih.best) }
    | none => s'

def stageMagnet (ih : InfoHashes) (h : Handle) : State :=
  if s.isDuplicate ih ∨ (s.staged ih.best).isSome then s
  else
    let s' := s.know h ih false
    { s' with staged := Function.update s'.staged ih.best (some ⟨h, ih⟩) }

def discardStaged (hash : Sha1Hash) : State :=
  { s with staged := Function.update s.staged hash none }

def commitStaged (hash : Sha1Hash) (savePath : Text) (given : Option Handle) : State :=
  match s.staged hash with
  | none => s
  | some st =>
      let s' := s.discardStaged hash
      if s'.isValid st.handle then
        let s' := s'.intend hash savePath
        let s' := { s' with
          rows := s'.rows ++ [st.handle]
          magnetHashes := Function.update s'.magnetHashes st.handle (some hash) }
        if (s'.torrents st.handle).any (·.hasMetadata) then s'.handleMetadata st.handle
        else s'.note .magnetAddedAt st.handle
      else s'.addMagnet st.uri savePath [] 0 given

def restoreFromResumeData (ih : InfoHashes) (hasMetadata : Bool) (h : Handle) : State :=
  s.adopt h ih hasMetadata

-- One turn of the loop of loadResumeData. `gone` says that data which was there is not any more.
def loadResumeData (ih : InfoHashes) (hasMetadata gone : Bool) (h : Handle) : State :=
  let s' :=
    if s.pauseOnMissingData ∧ gone ∧ hasMetadata then
      ((s.put .missingHashes (some ih.best) true).put .missingSeen (some ih.best) true).put
        .missingPaused (some ih.best) true
    else s
  let s' := (s'.adopt h ih hasMetadata).note .pendingResumeStripCheck h
  if hasMetadata then s'
  else
    { s'.note .magnetAddedAt h with
      magnetHashes := Function.update s'.magnetHashes h (some ih.best) }

def takeCoverHint (hash : Key) : State := s.drop .coverHint hash

end Adding

section Missing

-- Probed data counts as gone when two probes in a row miss it.
def confirmed (missing : List Sha1Hash) (k : Key) : Bool :=
  k.any (· ∈ missing) && s.value .missingSeen k

-- One turn of the loop of pauseMissing. `running` are the torrents that are not paused.
def pauseRow (confirmed : Key → Bool) (running : List Handle) (h : Handle) : State :=
  match s.metadataHash h with
  | some hash =>
      if h ∈ running ∧ confirmed (some hash) ∧ ¬ s.value .missingPaused (some hash) then
        (s.warm h).put .missingPaused (some hash) true
      else s.warm h
  | none => s.warm h

def pauseMissing (confirmed : Key → Bool) (running : List Handle) : State :=
  if s.pauseOnMissingData then
    s.rows.foldl (fun s h => s.pauseRow confirmed running h) s
  else s

-- The answer of a probe.
def checkMissingFiles (missing : List Sha1Hash) (running : List Handle) : State :=
  let confirmed := s.confirmed missing
  let seen : Key → Option Bool := fun k => if k.any (· ∈ missing) then some true else none
  let gone : Key → Option Bool := fun k => if confirmed k then some true else none
  let still : Key → Option Bool := fun k => if confirmed k then s.table .missingPaused k else none
  let s' := { s with table := Function.update s.table .missingSeen seen }
  let s' := { s' with table := Function.update s'.table .missingHashes gone }
  let s' := { s' with table := Function.update s'.table .missingPaused still }
  s'.pauseMissing confirmed running

-- With nothing to probe.
def forgetMissing : State :=
  let s' := { s with table := Function.update s.table .missingHashes fun _ => none }
  { s' with table := Function.update s'.table .missingSeen fun _ => none }

end Missing

section Removing

-- Without metadata the status has no hash.
def removedHash (h : Handle) (t : Torrent) : Sha1Hash :=
  if t.hasMetadata then t.hashes.best else (s.magnetHashes h).getD zeroHash

-- The second remove runs only where the first took nothing out.
def removeLimits (k : Key) : State :=
  if (s.table .downLimit k).isSome then
    ((s.drop .downLimit k).unsave .downLimit k).unsave .upLimit k
  else if (s.table .upLimit k).isSome then
    ((s.drop .upLimit k).unsave .downLimit k).unsave .upLimit k
  else s

-- A set or a map whose saved copy is written only if something was taken out.
def removeSaved (σ : Setting) (k : Key) : State :=
  if (s.table σ k).isSome then (s.drop σ k).saveAll σ else s

def removeTags (k : Key) : State :=
  if (s.table .tags k).isSome then (s.drop .tags k).save .tags k else s

def forgetHandle (h : Handle) : State :=
  { s with
    cached := Function.update s.cached h none
    magnetHashes := Function.update s.magnetHashes h none
    noted := fun τ => if τ = .fault then s.noted τ else Function.update (s.noted τ) h false }

def forgetHash (k : Key) : State :=
  let s' := ((s.drop .stopAfter k).drop .maxSeed k).removeLimits k
  ((s'.removeSaved .completed k).removeSaved .forceStart k).removeTags k

def removeTorrent (i : Nat) : State :=
  match s.rows[i]? with
  | none => s
  | some h =>
      match s.torrents h with
      | none => { s with rows := s.rows.eraseIdx i }
      | some t =>
          if t.expired then { s with rows := s.rows.eraseIdx i }
          else
            let s' := (s.forgetHash (some (s.removedHash h t))).forgetHandle h
            { s' with rows := s'.rows.eraseIdx i }

end Removing

section Restarting

-- Tags are saved as one text.
def reload : (σ : Setting) → Option σ.Value → Option σ.Value
  | .tags, saved => saved.map fun tags => tags.flatMap fun t => (t.splitOn ',').filter (· ≠ [])
  | .intendedPath, _ => none
  | .coverHint, _ => none
  | .missingHashes, _ => none
  | .missingSeen, _ => none
  | .missingPaused, _ => none
  | _, saved => saved

def restart : State :=
  { init with
    table := fun σ k => reload σ (s.saved σ k)
    saved := s.saved
    categorySavePaths := s.categorySavePaths
    tempPath := s.tempPath
    pauseOnMissingData := s.pauseOnMissingData }

end Restarting

end State

-- `given` is the handle that add_torrent gives, none where it throws.
inductive Event where
  | setTorrentStopAfterDownload (i : Nat) (value : Int)
  | setTorrentMaxSeedSeconds (i : Nat) (seconds : Int)
  | setForceStart (i : Nat) (on : Bool)
  | setTorrentDownloadLimit (i : Nat) (kbps : Int)
  | setTorrentUploadLimit (i : Nat) (kbps : Int)
  | markCompleted (i : Nat)
  | unmarkCompleted (i : Nat)
  | setTorrentCategory (i : Nat) (category : Text) (downloading : Bool)
  | setTorrentTags (i : Nat) (tags : List Text)
  | setCategorySavePath (category path : Text)
  | setTempPath (path : Option Text)
  | setPauseOnMissingData (enabled : Bool)
  | saveResumeData
  | addTorrent (ih : InfoHashes) (savePath : Text) (given : Option Handle)
  | addMagnet (ih : InfoHashes) (savePath coverHint : Text) (coverType : Int)
      (given : Option Handle)
  | stageMagnet (ih : InfoHashes) (h : Handle)
  | discardStaged (hash : Sha1Hash)
  | commitStaged (hash : Sha1Hash) (savePath : Text) (given : Option Handle)
  | restoreFromResumeData (ih : InfoHashes) (hasMetadata : Bool) (h : Handle)
  | loadResumeData (ih : InfoHashes) (hasMetadata gone : Bool) (h : Handle)
  | takeCoverHint (hash : Key)
  | handleMetadata (h : Handle)
  | checkMissingFiles (missing : List Sha1Hash) (running : List Handle)
  | forgetMissing
  | removeTorrent (i : Nat)
  | restart
  -- The queue, the kill switch, the streams and the alerts note a handle and strike it out again.
  | note (τ : Note) (h : Handle)
  | strike (τ : Note) (h : Handle)
  | statusCached (h : Handle)
  | stateUpdate (h : Handle)
  | metadataArrives (h : Handle) (ih : InfoHashes)
  | expire (h : Handle)

namespace State

variable (s : State)

def givesTo (ih : InfoHashes) (given : Option Handle) : Bool := given.all (s.gives ih)

def stateUpdate (h : Handle) : Option State :=
  (s.torrents h).bind fun t =>
    if t.expired then none
    else some { s with cached := Function.update s.cached h (some t.hasMetadata) }

def metadataArrives (h : Handle) (ih : InfoHashes) : Option State :=
  (s.torrents h).bind fun t =>
    if ¬ t.hasMetadata ∧ ∀ k ∈ t.hashes.keys, k ∈ ih.keys then
      some { s with torrents := Function.update s.torrents h (some ⟨ih, true, t.expired⟩) }
    else none

def expire (h : Handle) : Option State :=
  (s.torrents h).map fun t =>
    { s with torrents := Function.update s.torrents h (some { t with expired := true }) }

def act (same : Text → Text → Bool) : Event → Option State
  | .setTorrentStopAfterDownload i value => some (s.setTorrentStopAfterDownload i value)
  | .setTorrentMaxSeedSeconds i seconds => some (s.setTorrentMaxSeedSeconds i seconds)
  | .setForceStart i on => some (s.setForceStart i on)
  | .setTorrentDownloadLimit i kbps => some (s.setTorrentDownloadLimit i kbps)
  | .setTorrentUploadLimit i kbps => some (s.setTorrentUploadLimit i kbps)
  | .markCompleted i => some (s.markCompleted i)
  | .unmarkCompleted i => some (s.unmarkCompleted i)
  | .setTorrentCategory i category downloading => some (s.setTorrentCategory i category downloading)
  | .setTorrentTags i tags => some (s.setTorrentTags same i tags)
  | .setCategorySavePath category path =>
      some { s with categorySavePaths := Function.update s.categorySavePaths category path }
  | .setTempPath path => some { s with tempPath := path }
  | .setPauseOnMissingData enabled => some (s.setPauseOnMissingData enabled)
  | .saveResumeData => some s.saveResumeData
  | .addTorrent ih savePath given =>
      if s.givesTo ih given then some (s.addTorrent ih savePath given) else none
  | .addMagnet ih savePath coverHint coverType given =>
      if s.givesTo ih given then some (s.addMagnet ih savePath coverHint coverType given) else none
  | .stageMagnet ih h => if s.gives ih h then some (s.stageMagnet ih h) else none
  | .discardStaged hash => some (s.discardStaged hash)
  | .commitStaged hash savePath given =>
      if (s.staged hash).all fun st => s.givesTo st.uri given then
        some (s.commitStaged hash savePath given)
      else none
  | .restoreFromResumeData ih hasMetadata h =>
      if s.gives ih h then some (s.restoreFromResumeData ih hasMetadata h) else none
  | .loadResumeData ih hasMetadata gone h =>
      if s.gives ih h then some (s.loadResumeData ih hasMetadata gone h) else none
  | .takeCoverHint hash => some (s.takeCoverHint hash)
  | .handleMetadata h =>
      if (s.torrents h).any fun t => !t.expired && t.hasMetadata then some (s.handleMetadata h)
      else none
  | .checkMissingFiles missing running => some (s.checkMissingFiles missing running)
  | .forgetMissing => some s.forgetMissing
  | .removeTorrent i => some (s.removeTorrent i)
  | .restart => some s.restart
  | .note τ h => if s.isValid h then some (s.note τ h) else none
  | .strike τ h => some (s.strike τ h)
  | .statusCached h => some (s.warm h)
  | .stateUpdate h => s.stateUpdate h
  | .metadataArrives h ih => s.metadataArrives h ih
  | .expire h => s.expire h

end State

def machine (same : Text → Text → Bool) : Machine State Event Empty where
  init := init
  next s e := (s.act same e).map fun s' => (s', [])

end BATorrent.PerTorrent
