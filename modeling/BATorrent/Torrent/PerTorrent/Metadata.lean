import BATorrent.Torrent.PerTorrent

namespace BATorrent.PerTorrent

open Lib Lib.Machine Library

-- What the user sets for one torrent.
def Setting.ofUser : Setting → Bool
  | .completed => false
  | .missingHashes => false
  | .missingSeen => false
  | .missingPaused => false
  | _ => true

-- The maps that handleMetadata rekeys.
def Setting.rekeyed : Setting → Bool
  | .intendedPath => true
  | .coverHint => true
  | .stopAfter => true
  | _ => false

namespace State

section Rekeying

variable {α : Type} {t : Key → Option α} {oldHash best : Key}

theorem rekeyed_best (hne : best ≠ oldHash) :
    rekeyed t oldHash best best = (t oldHash).or (t best) := by
  rw [rekeyed]
  cases t oldHash with
  | none => rfl
  | some v =>
      dsimp only
      rw [Function.update_of_ne hne, Function.update_self, Option.some_or]

end Rekeying

section Frame

variable (s : State) (h : Handle) (oldHash best : Sha1Hash)

theorem rekey_table_self (σ : Setting) (oldHash best : Key) :
    (s.rekey σ oldHash best).table σ = rekeyed (s.table σ) oldHash best := Function.update_self ..

theorem rekey_table_of_ne {σ σ' : Setting} (hne : σ' ≠ σ) (oldHash best : Key) :
    (s.rekey σ oldHash best).table σ' = s.table σ' := Function.update_of_ne hne ..

variable {s h oldHash} {t : Torrent}

-- What handleMetadata changes of a magnet that goes by another hash from here.
theorem handleMetadata_eq (htorrent : s.torrents h = some t) (hmagnet : s.magnetHashes h = some oldHash)
    (hbest : t.hashes.best ≠ oldHash) :
    (s.handleMetadata h).rows = s.rows ∧ (s.handleMetadata h).torrents = s.torrents ∧
      (s.handleMetadata h).cached = s.cached ∧
      (s.handleMetadata h).magnetHashes h = some t.hashes.best ∧
      ∀ σ, (s.handleMetadata h).table σ =
        if σ.rekeyed then rekeyed (s.table σ) (some oldHash) (some t.hashes.best) else s.table σ := by
  rw [handleMetadata, hmagnet, htorrent]
  dsimp only
  rw [if_pos hbest]
  refine ⟨rfl, rfl, rfl, Function.update_self .., fun σ => ?_⟩
  dsimp only
  cases σ with
  | intendedPath =>
      rw [rekey_table_of_ne _ (by decide), rekey_table_of_ne _ (by decide), rekey_table_self]
      rfl
  | coverHint =>
      rw [rekey_table_of_ne _ (by decide), rekey_table_self, rekey_table_of_ne _ (by decide)]
      rfl
  | stopAfter =>
      rw [rekey_table_self, rekey_table_of_ne _ (by decide), rekey_table_of_ne _ (by decide)]
      rfl
  | _ =>
      rw [rekey_table_of_ne _ (by decide), rekey_table_of_ne _ (by decide),
        rekey_table_of_ne _ (by decide)]
      rfl

end Frame

section Settings

-- The getters give for the row what they gave.
def SameSettings (s s' : State) (i : Nat) : Prop :=
  (∀ σ : Setting, σ.ofUser → s'.getter σ i = s.getter σ i) ∧
    s'.torrentAt .category i = s.torrentAt .category i ∧
    s'.torrentAt .tags i = s.torrentAt .tags i

-- The maps that stay as they are read the same under both hashes. Of the others the old hash has an
-- entry or the new one has none to show; a getter that goes by the new hash already is not changed
-- by an older entry.
def Carried (s : State) (h : Handle) (oldHash best : Sha1Hash) : Prop :=
  ∀ σ : Setting, σ.ofUser →
    if s.cachedMetadata h then
      σ.rekeyed → s.table σ (some oldHash) = none ∨
        s.value σ (some oldHash) = s.value σ (some best)
    else if σ.rekeyed then
      (s.table σ (some oldHash)).isSome ∨ s.value σ (some best) = σ.default
    else s.value σ (some oldHash) = s.value σ (some best)

variable {s : State} {i : Nat} {h : Handle} {t : Torrent} {oldHash : Sha1Hash}

theorem getter_of_hashOf {k : Sha1Hash} (hrow : s.rows[i]? = some h) (hhash : s.hashOf h = some k)
    (σ : Setting) : s.getter σ i = s.value σ (some k) := by
  rw [getter, torrentHash, hrow, Option.bind_some, hhash]

theorem hashOf_live (htorrent : s.torrents h = some t) (hlive : t.expired = false) :
    s.hashOf h = if s.cachedMetadata h then some t.hashes.best else s.magnetHashes h := by
  rw [hashOf, htorrent, Option.bind_some, hlive]
  rfl

theorem getD_or {α : Type} (a b : Option α) (d : α) :
    (a.or b).getD d = if a.isSome then a.getD d else b.getD d := by
  cases a with
  | none => rfl
  | some v => rfl

-- The getters after metadata, by the hash the torrent has from here.
theorem getter_handleMetadata (hrow : s.rows[i]? = some h) (htorrent : s.torrents h = some t)
    (hlive : t.expired = false) (hmagnet : s.magnetHashes h = some oldHash)
    (hbest : t.hashes.best ≠ oldHash) (σ : Setting) :
    (s.handleMetadata h).getter σ i =
      if σ.rekeyed ∧ (s.table σ (some oldHash)).isSome then s.value σ (some oldHash)
      else s.value σ (some t.hashes.best) := by
  obtain ⟨hrows, htorrents, hcached, hmagnet', htable⟩ := handleMetadata_eq htorrent hmagnet hbest
  have hhash : (s.handleMetadata h).hashOf h = some t.hashes.best := by
    rw [hashOf_live (htorrents ▸ htorrent) hlive, hmagnet']
    split_ifs <;> rfl
  rw [getter_of_hashOf (hrows ▸ hrow) hhash, value, htable]
  by_cases hσ : σ.rekeyed
  · have hne : (some t.hashes.best : Key) ≠ some oldHash := fun heq => hbest (Option.some.inj heq)
    simp only [hσ, if_true, true_and, rekeyed_best hne, getD_or, value]
  · rw [if_neg hσ, if_neg fun hboth => hσ hboth.1, value]

theorem torrentAt_handleMetadata (hrow : s.rows[i]? = some h) (htorrent : s.torrents h = some t)
    (hmagnet : s.magnetHashes h = some oldHash) (hbest : t.hashes.best ≠ oldHash) {σ : Setting}
    (hσ : ¬ σ.rekeyed) : (s.handleMetadata h).torrentAt σ i = s.torrentAt σ i := by
  obtain ⟨hrows, htorrents, hcached, -, htable⟩ := handleMetadata_eq htorrent hmagnet hbest
  have hmetadata : (s.handleMetadata h).cachedMetadata h = s.cachedMetadata h := by
    rw [cachedMetadata, cachedMetadata, htorrents, hcached]
  have hhash : (s.handleMetadata h).metadataHash h = s.metadataHash h := by
    rw [metadataHash, metadataHash, htorrents, hmetadata]
  have hvalue : (s.handleMetadata h).value σ = s.value σ := by
    funext k
    rw [value, value, htable, if_neg hσ]
  simp only [torrentAt, hrows, hrow, Option.bind_some, hhash, hvalue]

theorem handleMetadata_keeps (hrow : s.rows[i]? = some h) (htorrent : s.torrents h = some t)
    (hlive : t.expired = false) (hmagnet : s.magnetHashes h = some oldHash)
    (hbest : t.hashes.best ≠ oldHash) :
    s.SameSettings (s.handleMetadata h) i ↔ s.Carried h oldHash t.hashes.best := by
  have hshown : ∀ {σ : Setting}, ¬ σ.rekeyed →
      (s.handleMetadata h).torrentAt σ i = s.torrentAt σ i :=
    torrentAt_handleMetadata hrow htorrent hmagnet hbest
  have hboth : s.SameSettings (s.handleMetadata h) i ↔
      ∀ σ : Setting, σ.ofUser → (s.handleMetadata h).getter σ i = s.getter σ i :=
    and_iff_left ⟨hshown (by decide), hshown (by decide)⟩
  rw [hboth, Carried]
  refine forall_congr' fun σ => imp_congr_right fun _ => ?_
  rw [getter_handleMetadata hrow htorrent hlive hmagnet hbest]
  have hhash := hashOf_live htorrent hlive
  by_cases hcached : s.cachedMetadata h
  · rw [if_pos hcached] at hhash
    rw [getter_of_hashOf hrow hhash, if_pos hcached]
    cases hold : s.table σ (some oldHash) with
    | none => simp
    | some v => simp
  · rw [if_neg hcached, hmagnet] at hhash
    rw [getter_of_hashOf hrow hhash, if_neg hcached]
    by_cases hσ : σ.rekeyed
    · cases hold : s.table σ (some oldHash) with
      | none =>
          have hnothing : s.value σ (some oldHash) = σ.default := by rw [value, hold, Option.getD_none]
          simp [hσ, hnothing]
      | some v => simp [hσ]
    · simp only [hσ]
      exact eq_comm

-- A hybrid torrent, and a magnet link that knows its first hash only.
def firstHash : Sha1Hash := .replicate 20 1

def secondHash : Sha256Hash := .replicate 32 2

def firstOnly : InfoHashes := ⟨some firstHash, none, by decide⟩

def hybrid : InfoHashes := ⟨some firstHash, some secondHash, by decide⟩

-- A magnet told to stop after its download, with metadata that handleMetadata has not seen.
def stopsAfter : State :=
  let s := (init.addMagnet firstOnly ['d'] ['c'] 1 (some 0)).setTorrentStopAfterDownload 0 1
  { s with torrents := Function.update s.torrents 0 (some ⟨hybrid, true, false⟩) }

theorem handleMetadata_keeps_stopsAfter :
    stopsAfter.SameSettings (stopsAfter.handleMetadata 0) 0 ∧
      stopsAfter.getter .stopAfter 0 = (1 : Int) := by
  refine ⟨(handleMetadata_keeps rfl rfl rfl rfl (by decide)).mpr ?_, by decide⟩
  intro σ _
  cases σ <;> decide

end Settings

end State

def sameTag (a b : Text) : Bool := a.map Char.toLower = b.map Char.toLower

-- A category set before the metadata is there stays behind under the first hash.
theorem not_handleMetadata_keeps : ¬ ∀ past s i h t oldHash,
    (machine sameTag).Run (fun _ _ => True) past s → s.rows[i]? = some h →
      s.torrents h = some t → t.expired = false → s.magnetHashes h = some oldHash →
        t.hashes.best ≠ oldHash → s.SameSettings (s.handleMetadata h) i := by
  intro hall
  have hreached : ∃ past s, (machine sameTag).Run (fun _ _ => True) past s ∧
      (s.rows[0]? = some 0 ∧ s.torrents 0 = some ⟨State.hybrid, true, false⟩ ∧
        s.magnetHashes 0 = some State.firstHash ∧
        (s.handleMetadata 0).getter .category 0 ≠ s.getter .category 0) :=
    exists_run [.addMagnet State.firstOnly ['d'] [] 0 (some 0),
      .setTorrentCategory 0 "Movies".toList true, .metadataArrives 0 State.hybrid] (by decide)
  obtain ⟨past, s, hrun, hrow, htorrent, hmagnet, hne⟩ := hreached
  have hsame := hall past s 0 0 _ _ hrun hrow htorrent rfl hmagnet (by decide)
  exact hne (hsame.1 .category rfl)

end BATorrent.PerTorrent
