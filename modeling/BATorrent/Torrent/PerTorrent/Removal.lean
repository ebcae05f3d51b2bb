import BATorrent.Torrent.PerTorrent

namespace BATorrent.PerTorrent

open Lib Lib.Machine Library

-- The maps and sets that removeTorrent does not look at.
def Setting.leftBehind : Setting → Bool
  | .category => true
  | .intendedPath => true
  | .coverHint => true
  | .missingHashes => true
  | .missingSeen => true
  | .missingPaused => true
  | _ => false

def Setting.isLimit : Setting → Bool
  | .downLimit => true
  | .upLimit => true
  | _ => false

namespace State

section Lookups

variable (s : State) (σ σ' : Setting) (k k' : Key)

@[simp] theorem put_table_self (v : σ.Value) :
    (s.put σ k v).table σ = Function.update (s.table σ) k (some v) := Function.update_self ..

@[simp] theorem drop_table_self : (s.drop σ k).table σ = Function.update (s.table σ) k none :=
  Function.update_self ..

variable {σ σ'}

theorem put_table_of_ne (h : σ' ≠ σ) (v : σ.Value) : (s.put σ k v).table σ' = s.table σ' :=
  Function.update_of_ne h ..

theorem drop_table_of_ne (h : σ' ≠ σ) : (s.drop σ k).table σ' = s.table σ' :=
  Function.update_of_ne h ..

theorem save_saved_self :
    (s.save σ k).saved σ = Function.update (s.saved σ) k (s.table σ k) := Function.update_self ..

theorem save_saved_of_ne (h : σ' ≠ σ) : (s.save σ k).saved σ' = s.saved σ' :=
  Function.update_of_ne h ..

theorem unsave_saved_self : (s.unsave σ k).saved σ = Function.update (s.saved σ) k none :=
  Function.update_self ..

theorem unsave_saved_of_ne (h : σ' ≠ σ) : (s.unsave σ k).saved σ' = s.saved σ' :=
  Function.update_of_ne h ..

theorem saveAll_saved_of_ne (h : σ' ≠ σ) : (s.saveAll σ).saved σ' = s.saved σ' :=
  Function.update_of_ne h ..

end Lookups

section Limits

-- The rate limits, and what the settings file has of them, are as they were.
structure SameLimits (s s' : State) : Prop where
  table : ∀ σ : Setting, σ.isLimit → s'.table σ = s.table σ
  saved : ∀ σ : Setting, σ.isLimit → s'.saved σ = s.saved σ

namespace SameLimits

variable {s s' s'' : State} {σ : Setting} {k : Key}

theorem rfl : SameLimits s s := ⟨fun _ _ => Eq.refl _, fun _ _ => Eq.refl _⟩

theorem trans (h : SameLimits s s') (h' : SameLimits s' s'') : SameLimits s s'' :=
  ⟨fun σ hσ => (h'.table σ hσ).trans (h.table σ hσ), fun σ hσ => (h'.saved σ hσ).trans (h.saved σ hσ)⟩

theorem of_eq (htable : s'.table = s.table) (hsaved : s'.saved = s.saved) : SameLimits s s' :=
  ⟨fun _ _ => congrFun htable _, fun _ _ => congrFun hsaved _⟩

theorem ne_of_isLimit {σ σ' : Setting} (hσ : ¬ σ.isLimit) (hσ' : σ'.isLimit) : σ' ≠ σ := by
  rintro rfl
  exact hσ hσ'

theorem put (hσ : ¬ σ.isLimit) (v : σ.Value) : SameLimits s (s.put σ k v) :=
  ⟨fun _ hσ' => s.put_table_of_ne k (ne_of_isLimit hσ hσ') v, fun _ _ => Eq.refl _⟩

theorem drop (hσ : ¬ σ.isLimit) : SameLimits s (s.drop σ k) :=
  ⟨fun _ hσ' => s.drop_table_of_ne k (ne_of_isLimit hσ hσ'), fun _ _ => Eq.refl _⟩

theorem save (hσ : ¬ σ.isLimit) : SameLimits s (s.save σ k) :=
  ⟨fun _ _ => Eq.refl _, fun _ hσ' => s.save_saved_of_ne k (ne_of_isLimit hσ hσ')⟩

theorem saveAll (hσ : ¬ σ.isLimit) : SameLimits s (s.saveAll σ) :=
  ⟨fun _ _ => Eq.refl _, fun _ hσ' => s.saveAll_saved_of_ne (ne_of_isLimit hσ hσ')⟩

theorem update (hσ : ¬ σ.isLimit) (t : Key → Option σ.Value) :
    SameLimits s { s with table := Function.update s.table σ t } :=
  ⟨fun _ hσ' => Function.update_of_ne (ne_of_isLimit hσ hσ') .., fun _ _ => Eq.refl _⟩

theorem ite {c : Prop} [Decidable c] (ht : SameLimits s s') (hf : SameLimits s s'') :
    SameLimits s (if c then s' else s'') := by
  split_ifs
  · exact ht
  · exact hf

theorem foldl {β : Type} {f : State → β → State} (hf : ∀ s b, SameLimits s (f s b)) (l : List β) :
    ∀ s, SameLimits s (l.foldl f s) := by
  induction l with
  | nil => exact fun s => rfl
  | cons b l ih => exact fun s => (hf s b).trans (ih (f s b))

end SameLimits

-- What is saved of the limits is also in force.
def SavedInForce (s : State) : Prop :=
  ∀ σ : Setting, σ.isLimit → ∀ k, s.table σ k = none → s.saved σ k = none

variable {s s' : State}

theorem SavedInForce.of_sameLimits (hs : s.SavedInForce) (h : SameLimits s s') : s'.SavedInForce := by
  intro σ hσ k
  rw [h.table σ hσ, h.saved σ hσ]
  exact hs σ hσ k

end Limits

section Setters

variable (s : State)

theorem warm_sameLimits (h : Handle) : SameLimits s (s.warm h) := by
  rw [warm]
  split_ifs
  · exact .of_eq rfl rfl
  · exact .rfl

theorem warmRow_sameLimits (i : Nat) : SameLimits s (s.warmRow i) := by
  rw [warmRow]
  split
  · exact s.warm_sameLimits _
  · exact .rfl

theorem withHash_sameLimits (i : Nat) {f : State → Key → State}
    (hf : ∀ s k, SameLimits s (f s k)) : SameLimits s (s.withHash i f) := by
  rw [withHash]
  split
  · exact s.warmRow_sameLimits i
  · exact (s.warmRow_sameLimits i).trans (hf _ _)

theorem withMetadata_sameLimits (i : Nat) {f : State → Key → State}
    (hf : ∀ s k, SameLimits s (f s k)) : SameLimits s (s.withMetadata i f) := by
  rw [withMetadata]
  split
  · exact s.warmRow_sameLimits i
  · exact (s.warmRow_sameLimits i).trans (hf _ _)

theorem strike_sameLimits (τ : Note) (h : Handle) : SameLimits s (s.strike τ h) := .of_eq rfl rfl

theorem note_sameLimits (τ : Note) (h : Handle) : SameLimits s (s.note τ h) := .of_eq rfl rfl

theorem setTorrentStopAfterDownload_sameLimits (i : Nat) (value : Int) :
    SameLimits s (s.setTorrentStopAfterDownload i value) :=
  s.withHash_sameLimits i fun s k => .ite (.drop (by decide)) (.put (by decide) _)

theorem setTorrentMaxSeedSeconds_sameLimits (i : Nat) (seconds : Int) :
    SameLimits s (s.setTorrentMaxSeedSeconds i seconds) :=
  s.withHash_sameLimits i fun s k => .ite (.drop (by decide)) (.put (by decide) _)

theorem setForceStart_sameLimits (i : Nat) (on : Bool) : SameLimits s (s.setForceStart i on) := by
  refine s.withHash_sameLimits i fun s k => ?_
  have hput : SameLimits s (s.put .forceStart k true) := .put (by decide) _
  refine SameLimits.trans (.ite ?_ (.drop (by decide))) (.saveAll (by decide))
  dsimp only
  split
  · exact hput.trans (strike_sameLimits _ _ _)
  · exact hput

theorem markCompleted_sameLimits (i : Nat) : SameLimits s (s.markCompleted i) := by
  refine s.withMetadata_sameLimits i fun s k => ?_
  split_ifs
  · exact .rfl
  · exact (SameLimits.put (by decide) _).trans (.saveAll (by decide))

theorem unmarkCompleted_sameLimits (i : Nat) : SameLimits s (s.unmarkCompleted i) := by
  refine s.withMetadata_sameLimits i fun s k => ?_
  split_ifs
  · exact (SameLimits.drop (by decide)).trans (.saveAll (by decide))
  · exact .rfl

theorem setTorrentCategory_sameLimits (i : Nat) (category : Text) (downloading : Bool) :
    SameLimits s (s.setTorrentCategory i category downloading) := by
  refine s.withHash_sameLimits i fun s k => ?_
  have hset : SameLimits s
      ((if category = [] then s.drop .category k else s.put .category k category).save
        .category k) :=
    SameLimits.trans (.ite (.drop (by decide)) (.put (by decide) _)) (.save (by decide))
  have hintended : ¬ Setting.intendedPath.isLimit := by decide
  exact .ite (hset.trans (.put hintended _)) hset

theorem setTorrentTags_sameLimits (same : Text → Text → Bool) (i : Nat) (tags : List Text) :
    SameLimits s (s.setTorrentTags same i tags) := by
  refine s.withHash_sameLimits i fun s k => ?_
  exact SameLimits.trans (.ite (.drop (by decide)) (.put (by decide) _)) (.save (by decide))

theorem saveResumeData_sameLimits : SameLimits s s.saveResumeData :=
  ((SameLimits.saveAll (by decide)).trans (.saveAll (by decide))).trans (.saveAll (by decide))

theorem setPauseOnMissingData_sameLimits (enabled : Bool) :
    SameLimits s (s.setPauseOnMissingData enabled) := by
  rw [setPauseOnMissingData]
  split_ifs
  · exact .of_eq rfl rfl
  · have hflag : SameLimits s { s with pauseOnMissingData := enabled } := .of_eq rfl rfl
    exact hflag.trans (.update (by decide) _)

-- One entry of a limit is set in force and saved.
theorem SavedInForce.save {s s' : State} {σ : Setting} {k : Key} (hs : s.SavedInForce)
    (hother : ∀ σ' ≠ σ, s'.table σ' = s.table σ') (hentry : ∀ k' ≠ k, s'.table σ k' = s.table σ k')
    (hsaved : s'.saved = s.saved) : (s'.save σ k).SavedInForce := by
  intro σ' hσ' k' hnone
  by_cases hσ : σ' = σ
  · subst hσ
    rw [save_saved_self]
    by_cases hk : k' = k
    · subst hk
      rw [Function.update_self]
      exact hnone
    · rw [Function.update_of_ne hk, hsaved]
      exact hs σ' hσ' k' ((hentry k' hk).symm.trans hnone)
  · rw [s'.save_saved_of_ne k hσ, hsaved]
    exact hs σ' hσ' k' ((congrFun (hother σ' hσ) k').symm.trans hnone)

theorem SavedInForce.put_save {s : State} (hs : s.SavedInForce) (σ : Setting) (k : Key)
    (v : σ.Value) : ((s.put σ k v).save σ k).SavedInForce := by
  refine hs.save (fun σ' hσ' => s.put_table_of_ne k hσ' v) (fun k' hk' => ?_) rfl
  rw [put_table_self, Function.update_of_ne hk']

theorem SavedInForce.drop_save {s : State} (hs : s.SavedInForce) (σ : Setting) (k : Key) :
    ((s.drop σ k).save σ k).SavedInForce := by
  refine hs.save (fun σ' hσ' => s.drop_table_of_ne k hσ') (fun k' hk' => ?_) rfl
  rw [drop_table_self, Function.update_of_ne hk']

theorem SavedInForce.withHandle {s : State} (hs : s.SavedInForce) (i : Nat)
    {f : State → Key → State} (hf : ∀ s k, s.SavedInForce → (f s k).SavedInForce) :
    (s.withHandle i f).SavedInForce := by
  rw [State.withHandle]
  split
  · exact hs
  · split_ifs
    · exact hf _ _ (hs.of_sameLimits (s.warm_sameLimits _))
    · exact hs

theorem SavedInForce.setTorrentDownloadLimit {s : State} (hs : s.SavedInForce) (i : Nat)
    (kbps : Int) : (s.setTorrentDownloadLimit i kbps).SavedInForce := by
  refine hs.withHandle i fun s k hs => ?_
  split_ifs
  · exact hs.drop_save _ _
  · exact hs.put_save _ _ _

theorem SavedInForce.setTorrentUploadLimit {s : State} (hs : s.SavedInForce) (i : Nat)
    (kbps : Int) : (s.setTorrentUploadLimit i kbps).SavedInForce := by
  refine hs.withHandle i fun s k hs => ?_
  split_ifs
  · exact hs.drop_save _ _
  · exact hs.put_save _ _ _

end Setters

section Adding

variable (s : State)

theorem handleMetadata_sameLimits (h : Handle) : SameLimits s (s.handleMetadata h) := by
  rw [handleMetadata]
  split
  next oldHash t hmagnet htorrent =>
    let k : Key := some oldHash
    let k' : Key := some t.hashes.best
    let s₁ := s.rekey .intendedPath k k'
    let s₂ := s₁.rekey .coverHint k k'
    let s₃ := s₂.rekey .stopAfter k k'
    have h₁ : SameLimits s s₁ := .update (by decide) _
    have h₂ : SameLimits s₁ s₂ := .update (by decide) _
    have h₃ : SameLimits s₂ s₃ := .update (by decide) _
    exact .ite (((h₁.trans h₂).trans h₃).trans (.of_eq rfl rfl)) .rfl
  next => exact .rfl

theorem know_sameLimits (h : Handle) (ih : InfoHashes) (hasMetadata : Bool) :
    SameLimits s (s.know h ih hasMetadata) := by
  rw [know]
  split
  · exact .of_eq rfl rfl
  · exact .rfl

theorem adopt_sameLimits (h : Handle) (ih : InfoHashes) (hasMetadata : Bool) :
    SameLimits s (s.adopt h ih hasMetadata) :=
  (s.know_sameLimits h ih hasMetadata).trans (.of_eq rfl rfl)

theorem intend_sameLimits (hash : Sha1Hash) (savePath : Text) :
    SameLimits s (s.intend hash savePath) := by
  rw [intend]
  split_ifs
  · exact .put (by decide) _
  · exact .rfl

theorem addTorrent_sameLimits (ih : InfoHashes) (savePath : Text) (given : Option Handle) :
    SameLimits s (s.addTorrent ih savePath given) := by
  rw [addTorrent]
  split_ifs
  · exact .rfl
  · cases given with
    | none => exact s.intend_sameLimits _ _
    | some h => exact (s.intend_sameLimits _ _).trans (adopt_sameLimits _ _ _ _)

theorem addMagnet_sameLimits (ih : InfoHashes) (savePath coverHint : Text) (coverType : Int)
    (given : Option Handle) : SameLimits s (s.addMagnet ih savePath coverHint coverType given) := by
  let s₁ := if coverHint ≠ [] then s.put .coverHint (some ih.best) (coverHint, coverType) else s
  have h₁ : SameLimits s s₁ := .ite (.put (by decide) _) .rfl
  have h₂ := h₁.trans (s₁.intend_sameLimits ih.best savePath)
  refine .ite .rfl ?_
  cases given with
  | none => exact h₂
  | some h => exact (h₂.trans (adopt_sameLimits _ _ _ _)).trans (.of_eq rfl rfl)

theorem stageMagnet_sameLimits (ih : InfoHashes) (h : Handle) :
    SameLimits s (s.stageMagnet ih h) :=
  .ite .rfl ((s.know_sameLimits h ih false).trans (.of_eq rfl rfl))

theorem discardStaged_sameLimits (hash : Sha1Hash) : SameLimits s (s.discardStaged hash) :=
  .of_eq rfl rfl

theorem commitStaged_sameLimits (hash : Sha1Hash) (savePath : Text) (given : Option Handle) :
    SameLimits s (s.commitStaged hash savePath given) := by
  rw [commitStaged]
  split
  · exact .rfl
  next st hstaged =>
    let s₁ := s.discardStaged hash
    let s₂ := s₁.intend hash savePath
    let s₃ : State := { s₂ with
      rows := s₂.rows ++ [st.handle]
      magnetHashes := Function.update s₂.magnetHashes st.handle (some hash) }
    have h₁ : SameLimits s s₁ := s.discardStaged_sameLimits hash
    have h₃ : SameLimits s s₃ := (h₁.trans (s₁.intend_sameLimits _ _)).trans (.of_eq rfl rfl)
    refine .ite ?_ (h₁.trans (s₁.addMagnet_sameLimits _ _ _ _ _))
    exact .ite (h₃.trans (s₃.handleMetadata_sameLimits _)) (h₃.trans (s₃.note_sameLimits _ _))

theorem loadResumeData_sameLimits (ih : InfoHashes) (hasMetadata gone : Bool) (h : Handle) :
    SameLimits s (s.loadResumeData ih hasMetadata gone h) := by
  let k : Key := some ih.best
  let s₁ := s.put .missingHashes k true
  let s₂ := s₁.put .missingSeen k true
  let s₃ := s₂.put .missingPaused k true
  have h₁ : SameLimits s s₁ := .put (by decide) _
  have h₂ : SameLimits s₁ s₂ := .put (by decide) _
  have h₃ : SameLimits s₂ s₃ := .put (by decide) _
  let s₄ := if s.pauseOnMissingData ∧ gone ∧ hasMetadata then s₃ else s
  have h₄ : SameLimits s s₄ := .ite ((h₁.trans h₂).trans h₃) .rfl
  have h₅ := (h₄.trans (s₄.adopt_sameLimits h ih hasMetadata)).trans
    (note_sameLimits _ .pendingResumeStripCheck h)
  exact .ite h₅ (h₅.trans (.of_eq rfl rfl))

theorem pauseRow_sameLimits (confirmed : Key → Bool) (running : List Handle) (h : Handle) :
    SameLimits s (s.pauseRow confirmed running h) := by
  have hwarm := s.warm_sameLimits h
  rw [pauseRow]
  split
  · exact .ite (hwarm.trans (.put (by decide) _)) hwarm
  · exact hwarm

theorem pauseMissing_sameLimits (confirmed : Key → Bool) (running : List Handle) :
    SameLimits s (s.pauseMissing confirmed running) :=
  .ite (.foldl (fun s h => s.pauseRow_sameLimits confirmed running h) _ s) .rfl

theorem checkMissingFiles_sameLimits (missing : List Sha1Hash) (running : List Handle) :
    SameLimits s (s.checkMissingFiles missing running) := by
  refine SameLimits.trans ?_ (pauseMissing_sameLimits _ _ _)
  have hseen : ¬ Setting.missingSeen.isLimit := by decide
  have hhashes : ¬ Setting.missingHashes.isLimit := by decide
  have hpaused : ¬ Setting.missingPaused.isLimit := by decide
  exact ((SameLimits.update hseen _).trans (.update hhashes _)).trans (.update hpaused _)

theorem forgetMissing_sameLimits : SameLimits s s.forgetMissing := by
  have hseen : ¬ Setting.missingSeen.isLimit := by decide
  have hhashes : ¬ Setting.missingHashes.isLimit := by decide
  exact (SameLimits.update hhashes _).trans (.update hseen _)

end Adding

section Removing

variable (s : State) (k : Key)

theorem drop_table (σ : Setting) (σ' : Setting) (k' : Key) :
    (s.drop σ k).table σ' k' = if σ' = σ ∧ k' = k then none else s.table σ' k' := by
  by_cases hσ : σ' = σ
  · subst hσ
    rw [drop_table_self, Function.update_apply]
    simp
  · rw [drop_table_of_ne s k hσ, if_neg fun h => hσ h.1]

theorem unsave_saved (σ : Setting) (σ' : Setting) (k' : Key) :
    (s.unsave σ k).saved σ' k' = if σ' = σ ∧ k' = k then none else s.saved σ' k' := by
  by_cases hσ : σ' = σ
  · subst hσ
    rw [unsave_saved_self, Function.update_apply]
    simp
  · rw [unsave_saved_of_ne s k hσ, if_neg fun h => hσ h.1]

theorem removeSaved_table (σ : Setting) (σ' : Setting) (k' : Key) :
    (s.removeSaved σ k).table σ' k' = if σ' = σ ∧ k' = k then none else s.table σ' k' := by
  rw [removeSaved]
  split_ifs with hsome heq heq
  · rw [saveAll, drop_table, if_pos heq]
  · rw [saveAll, drop_table, if_neg heq]
  · obtain ⟨rfl, rfl⟩ := heq
    simpa using hsome
  · rfl

theorem removeTags_table (σ' : Setting) (k' : Key) :
    (s.removeTags k).table σ' k' = if σ' = .tags ∧ k' = k then none else s.table σ' k' := by
  rw [removeTags]
  split_ifs with hsome heq heq
  · rw [save, drop_table, if_pos heq]
  · rw [save, drop_table, if_neg heq]
  · obtain ⟨rfl, rfl⟩ := heq
    simpa using hsome
  · rfl

-- An upload limit stays where there was a download limit.
theorem removeLimits_table (σ' : Setting) (k' : Key) :
    (s.removeLimits k).table σ' k' =
      if k' = k ∧ (σ' = .downLimit ∨ σ' = .upLimit ∧ s.table .downLimit k = none) then none
      else s.table σ' k' := by
  have hunsave : ∀ s' : State, ((s'.unsave .downLimit k).unsave .upLimit k).table = s'.table :=
    fun _ => rfl
  by_cases hdown : (s.table .downLimit k).isSome
  · have hne : s.table .downLimit k ≠ none := Option.isSome_iff_ne_none.mp hdown
    rw [removeLimits, if_pos hdown, hunsave, drop_table]
    refine if_congr ?_ rfl rfl
    tauto
  · have hnone : s.table .downLimit k = none := Option.not_isSome_iff_eq_none.mp hdown
    by_cases hup : (s.table .upLimit k).isSome
    · rw [removeLimits, if_neg hdown, if_pos hup, hunsave, drop_table]
      by_cases hσ : σ' = .downLimit ∧ k' = k
      · obtain ⟨rfl, rfl⟩ := hσ
        simp [hnone]
      · refine if_congr ?_ rfl rfl
        tauto
    · have hnone' : s.table .upLimit k = none := Option.not_isSome_iff_eq_none.mp hup
      rw [removeLimits, if_neg hdown, if_neg hup]
      split_ifs with heq
      · obtain ⟨rfl, rfl | ⟨rfl, -⟩⟩ := heq
        · exact hnone
        · exact hnone'
      · rfl

theorem removeLimits_saved {σ : Setting} (hs : s.SavedInForce) (hσ : σ.isLimit) (k' : Key) :
    (s.removeLimits k).saved σ k' = if k' = k then none else s.saved σ k' := by
  have hboth : ∀ s' : State, s'.saved = s.saved →
      ((s'.unsave .downLimit k).unsave .upLimit k).saved σ k' =
        if k' = k then none else s.saved σ k' := by
    intro s' hsaved
    rw [unsave_saved, unsave_saved, hsaved]
    cases σ with
    | downLimit => simp
    | upLimit => simp
    | _ => cases hσ
  by_cases hdown : (s.table .downLimit k).isSome
  · rw [removeLimits, if_pos hdown]
    exact hboth _ rfl
  · by_cases hup : (s.table .upLimit k).isSome
    · rw [removeLimits, if_neg hdown, if_pos hup]
      exact hboth _ rfl
    · rw [removeLimits, if_neg hdown, if_neg hup]
      split_ifs with heq
      · subst heq
        cases σ with
        | downLimit => exact hs .downLimit rfl k' (Option.not_isSome_iff_eq_none.mp hdown)
        | upLimit => exact hs .upLimit rfl k' (Option.not_isSome_iff_eq_none.mp hup)
        | _ => cases hσ
      · rfl

theorem removeSaved_noted (σ : Setting) : (s.removeSaved σ k).noted = s.noted := by
  rw [removeSaved]
  split_ifs <;> rfl

theorem forgetHash_noted : (s.forgetHash k).noted = s.noted := by
  have htags : ∀ s' : State, (s'.removeTags k).noted = s'.noted := by
    intro s'
    rw [removeTags]
    split_ifs <;> rfl
  have hlimits : ∀ s' : State, (s'.removeLimits k).noted = s'.noted := by
    intro s'
    rw [removeLimits]
    split_ifs <;> rfl
  rw [forgetHash, htags, removeSaved_noted, removeSaved_noted, hlimits]
  rfl

theorem forgetHash_table_of_ne {k' : Key} (hk : k' ≠ k) (σ : Setting) :
    (s.forgetHash k).table σ k' = s.table σ k' := by
  simp only [forgetHash, removeTags_table, removeSaved_table, removeLimits_table, drop_table, hk,
    and_false, false_and, if_false]

-- What removeTorrent takes out of the maps and sets.
def cleared (σ : Setting) : Prop := ¬ σ.leftBehind ∧ (σ = .upLimit → s.table .downLimit k = none)

instance (σ : Setting) : Decidable (s.cleared k σ) := by
  unfold cleared
  infer_instance

theorem forgetHash_table_self (σ : Setting) :
    (s.forgetHash k).table σ k = if s.cleared k σ then none else s.table σ k := by
  simp only [forgetHash, removeTags_table, removeSaved_table, removeLimits_table, drop_table,
    cleared, and_true, true_and]
  cases σ <;> simp [Setting.leftBehind]

theorem removeSaved_sameLimits {σ : Setting} (hσ : ¬ σ.isLimit) :
    SameLimits s (s.removeSaved σ k) :=
  .ite ((SameLimits.drop hσ).trans (.saveAll hσ)) .rfl

theorem removeTags_sameLimits : SameLimits s (s.removeTags k) :=
  have hσ : ¬ Setting.tags.isLimit := by decide
  .ite ((SameLimits.drop hσ).trans (.save hσ)) .rfl

theorem forgetHash_saved {σ : Setting} (hs : s.SavedInForce) (hσ : σ.isLimit) (k' : Key) :
    (s.forgetHash k).saved σ k' = if k' = k then none else s.saved σ k' := by
  let s₁ := s.drop .stopAfter k
  let s₂ := s₁.drop .maxSeed k
  let s₃ := s₂.removeLimits k
  let s₄ := s₃.removeSaved .completed k
  let s₅ := s₄.removeSaved .forceStart k
  have h₁ : SameLimits s s₁ := .drop (by decide)
  have h₂ : SameLimits s₁ s₂ := .drop (by decide)
  have h₄ : SameLimits s₃ s₄ := s₃.removeSaved_sameLimits k (by decide)
  have h₅ : SameLimits s₄ s₅ := s₄.removeSaved_sameLimits k (by decide)
  have hbefore := h₁.trans h₂
  have hafter := (h₄.trans h₅).trans (s₅.removeTags_sameLimits k)
  have hforget : (s.forgetHash k).saved σ = s₃.saved σ := hafter.saved σ hσ
  rw [hforget, s₂.removeLimits_saved k (hs.of_sameLimits hbefore) hσ, hbefore.saved σ hσ]

theorem SavedInForce.forgetHash {s : State} (hs : s.SavedInForce) (k : Key) :
    (s.forgetHash k).SavedInForce := by
  intro σ hσ k' hnone
  rw [s.forgetHash_saved k hs hσ]
  split_ifs with hk
  · rfl
  · rw [s.forgetHash_table_of_ne k hk] at hnone
    exact hs σ hσ k' hnone

theorem SavedInForce.removeTorrent {s : State} (hs : s.SavedInForce) (i : Nat) :
    (s.removeTorrent i).SavedInForce := by
  rw [State.removeTorrent]
  split
  · exact hs
  · split
    · exact hs
    · split_ifs
      · exact hs
      · exact (hs.forgetHash _).of_sameLimits (.of_eq rfl rfl)

theorem SavedInForce.restart {s : State} : s.restart.SavedInForce := by
  intro σ hσ k hnone
  cases σ with
  | downLimit => exact hnone
  | upLimit => exact hnone
  | _ => cases hσ

end Removing

section Steps

variable {s s' : State} {same : Text → Text → Bool} {e : Event}

theorem SavedInForce.act (hs : s.SavedInForce) (h : s.act same e = some s') : s'.SavedInForce := by
  have hsome : ∀ {t : State}, SameLimits s t → some t = some s' → s'.SavedInForce := by
    rintro t ht ⟨⟩
    exact hs.of_sameLimits ht
  have hif : ∀ {c : Prop} [Decidable c] {t : State}, SameLimits s t →
      (if c then some t else none) = some s' → s'.SavedInForce := by
    intro c _ t ht h
    exact hsome ht (Option.ite_none_right_eq_some.mp h).2
  cases e with
  | setTorrentStopAfterDownload i value =>
      exact hsome (s.setTorrentStopAfterDownload_sameLimits i value) h
  | setTorrentMaxSeedSeconds i seconds =>
      exact hsome (s.setTorrentMaxSeedSeconds_sameLimits i seconds) h
  | setForceStart i on => exact hsome (s.setForceStart_sameLimits i on) h
  | setTorrentDownloadLimit i kbps =>
      obtain rfl := Option.some.inj h
      exact hs.setTorrentDownloadLimit i kbps
  | setTorrentUploadLimit i kbps =>
      obtain rfl := Option.some.inj h
      exact hs.setTorrentUploadLimit i kbps
  | markCompleted i => exact hsome (s.markCompleted_sameLimits i) h
  | unmarkCompleted i => exact hsome (s.unmarkCompleted_sameLimits i) h
  | setTorrentCategory i category downloading =>
      exact hsome (s.setTorrentCategory_sameLimits i category downloading) h
  | setTorrentTags i tags => exact hsome (s.setTorrentTags_sameLimits same i tags) h
  | setCategorySavePath category path =>
      obtain rfl := Option.some.inj h
      exact hs.of_sameLimits (.of_eq rfl rfl)
  | setTempPath path =>
      obtain rfl := Option.some.inj h
      exact hs.of_sameLimits (.of_eq rfl rfl)
  | setPauseOnMissingData enabled => exact hsome (s.setPauseOnMissingData_sameLimits enabled) h
  | saveResumeData => exact hsome s.saveResumeData_sameLimits h
  | addTorrent ih savePath given => exact hif (s.addTorrent_sameLimits ih savePath given) h
  | addMagnet ih savePath coverHint coverType given =>
      exact hif (s.addMagnet_sameLimits ih savePath coverHint coverType given) h
  | stageMagnet ih x => exact hif (s.stageMagnet_sameLimits ih x) h
  | discardStaged hash => exact hsome (s.discardStaged_sameLimits hash) h
  | commitStaged hash savePath given => exact hif (s.commitStaged_sameLimits hash savePath given) h
  | restoreFromResumeData ih hasMetadata x => exact hif (s.adopt_sameLimits x ih hasMetadata) h
  | loadResumeData ih hasMetadata gone x =>
      exact hif (s.loadResumeData_sameLimits ih hasMetadata gone x) h
  | takeCoverHint hash => exact hsome (.drop (by decide)) h
  | handleMetadata x => exact hif (s.handleMetadata_sameLimits x) h
  | checkMissingFiles missing running =>
      exact hsome (s.checkMissingFiles_sameLimits missing running) h
  | forgetMissing => exact hsome s.forgetMissing_sameLimits h
  | removeTorrent i =>
      obtain rfl := Option.some.inj h
      exact hs.removeTorrent i
  | restart =>
      obtain rfl := Option.some.inj h
      exact .restart
  | note τ x => exact hif (s.note_sameLimits τ x) h
  | strike τ x => exact hsome (s.strike_sameLimits τ x) h
  | statusCached x => exact hsome (s.warm_sameLimits x) h
  | stateUpdate x =>
      obtain ⟨t, -, h⟩ := Option.bind_eq_some_iff.mp h
      obtain ⟨-, h⟩ := Option.ite_none_left_eq_some.mp h
      obtain rfl := Option.some.inj h
      exact hs.of_sameLimits (.of_eq rfl rfl)
  | metadataArrives x ih =>
      obtain ⟨t, -, h⟩ := Option.bind_eq_some_iff.mp h
      obtain ⟨-, h⟩ := Option.ite_none_right_eq_some.mp h
      obtain rfl := Option.some.inj h
      exact hs.of_sameLimits (.of_eq rfl rfl)
  | expire x =>
      obtain ⟨t, -, rfl⟩ := Option.map_eq_some_iff.mp h
      exact hs.of_sameLimits (.of_eq rfl rfl)

end Steps

section Forgetting

-- No map or set has an entry for the hash, nor the settings file a rate limit.
def Bare (s : State) (k : Key) : Prop :=
  (∀ σ, s.table σ k = none) ∧ ∀ σ : Setting, σ.isLimit → s.saved σ k = none

def BareHandle (s : State) (h : Handle) : Prop :=
  s.cached h = none ∧ s.magnetHashes h = none ∧ ∀ τ, s.noted τ h = false

-- Nothing is left of the torrent under any of its hashes, nor under its handle.
def Forgotten (s : State) (h : Handle) (t : Torrent) : Prop :=
  (∀ k ∈ t.hashes.keys, s.Bare (some k)) ∧ s.BareHandle h

-- Where removeTorrent cleans up after itself.
def Forgettable (s : State) (h : Handle) (t : Torrent) : Prop :=
  if t.expired then s.Forgotten h t
  else
    (∀ k ∈ t.hashes.keys, k ≠ s.removedHash h t → s.Bare (some k)) ∧
      (s.removedHash h t ∈ t.hashes.keys →
        (∀ σ : Setting, σ.leftBehind → s.table σ (some (s.removedHash h t)) = none) ∧
          (s.table .downLimit (some (s.removedHash h t)) = none ∨
            s.table .upLimit (some (s.removedHash h t)) = none)) ∧
      s.noted .fault h = false

variable {s : State} {h : Handle} {t : Torrent} {k k' : Key}

theorem bare_forgetHash_of_ne (hs : s.SavedInForce) (hk : k' ≠ k) :
    (s.forgetHash k).Bare k' ↔ s.Bare k' := by
  have hsaved : ∀ σ : Setting, σ.isLimit → (s.forgetHash k).saved σ k' = s.saved σ k' := by
    intro σ hσ
    rw [s.forgetHash_saved k hs hσ, if_neg hk]
  refine and_congr (forall_congr' fun σ => ?_) (forall₂_congr fun σ hσ => ?_)
  · rw [s.forgetHash_table_of_ne k hk]
  · rw [hsaved σ hσ]

theorem bare_forgetHash_self (hs : s.SavedInForce) :
    (s.forgetHash k).Bare k ↔ (∀ σ : Setting, σ.leftBehind → s.table σ k = none) ∧
      (s.table .downLimit k = none ∨ s.table .upLimit k = none) := by
  have hsaved : ∀ σ : Setting, σ.isLimit → (s.forgetHash k).saved σ k = none := by
    intro σ hσ
    rw [s.forgetHash_saved k hs hσ, if_pos rfl]
  constructor
  · rintro ⟨htable, -⟩
    refine ⟨fun σ hσ => ?_, ?_⟩
    · have hnone := htable σ
      rwa [forgetHash_table_self, if_neg fun hcleared => hcleared.1 hσ] at hnone
    · by_cases hdown : s.table .downLimit k = none
      · exact .inl hdown
      · have hnone := htable .upLimit
        rw [forgetHash_table_self, if_neg fun hcleared => hdown (hcleared.2 rfl)] at hnone
        exact .inr hnone
  · rintro ⟨hleft, hlimits⟩
    refine ⟨fun σ => ?_, hsaved⟩
    rw [forgetHash_table_self]
    split_ifs with hcleared
    · rfl
    · by_cases hσ : σ.leftBehind
      · exact hleft σ hσ
      · have hup : σ = .upLimit ∧ s.table .downLimit k ≠ none := by
          simpa [cleared, hσ] using hcleared
        obtain ⟨rfl, hdown⟩ := hup
        exact hlimits.resolve_left hdown

theorem bareHandle_forgetHandle :
    (s.forgetHandle h).BareHandle h ↔ s.noted .fault h = false := by
  constructor
  · rintro ⟨-, -, hnoted⟩
    exact hnoted .fault
  · intro hfault
    refine ⟨Function.update_self .., Function.update_self .., fun τ => ?_⟩
    rw [forgetHandle]
    dsimp only
    split_ifs with hτ
    · rw [hτ, hfault]
    · exact Function.update_self ..

theorem forgotten_forget (hs : s.SavedInForce) (hlive : t.expired = false) :
    ((s.forgetHash (some (s.removedHash h t))).forgetHandle h).Forgotten h t ↔
      s.Forgettable h t := by
  have hfault : ((s.forgetHash (some (s.removedHash h t))).forgetHandle h).BareHandle h ↔
      s.noted .fault h = false := by
    rw [bareHandle_forgetHandle, forgetHash_noted]
  rw [Forgettable, hlive, if_neg (by decide), Forgotten, hfault, ← and_assoc]
  refine and_congr_left fun _ => ?_
  constructor
  · intro hbare
    refine ⟨fun k hk hne => ?_, fun hk => ?_⟩
    · exact (bare_forgetHash_of_ne hs fun heq => hne (Option.some.inj heq)).mp (hbare k hk)
    · exact (bare_forgetHash_self hs).mp (hbare _ hk)
  · rintro ⟨hother, hself⟩ k hk
    by_cases hne : k = s.removedHash h t
    · subst hne
      exact (bare_forgetHash_self hs).mpr (hself hk)
    · exact (bare_forgetHash_of_ne hs fun heq => hne (Option.some.inj heq)).mpr (hother k hk hne)

end Forgetting

end State

section Runs

variable {same : Text → Text → Bool} {past : List (Reaction State Event Empty)} {s : State}
  {guard : State → Event → Prop}

theorem run_savedInForce (hrun : (machine same).Run guard past s) : s.SavedInForce := by
  refine hrun.invariant State.SavedInForce (fun _ _ _ _ => rfl) fun t e t' out ht _ hnext => ?_
  obtain ⟨u, hact, heq⟩ := Option.map_eq_some_iff.mp hnext
  obtain ⟨rfl, -⟩ := Prod.mk.inj heq
  exact ht.act hact

theorem run_forgets {i : Nat} {h : Handle} {t : Torrent}
    (hrun : (machine same).Run (fun _ _ => True) past s) (hrow : s.rows[i]? = some h)
    (htorrent : s.torrents h = some t) :
    (s.removeTorrent i).Forgotten h t ↔ s.Forgettable h t := by
  have hs := run_savedInForce hrun
  rw [State.removeTorrent, hrow]
  dsimp only
  rw [htorrent]
  dsimp only
  cases hlive : t.expired with
  | true =>
      rw [if_pos rfl, State.Forgettable, hlive, if_pos rfl]
      rfl
  | false =>
      rw [if_neg (by decide)]
      exact State.forgotten_forget hs hlive

def onlyHash : Sha1Hash := .replicate 20 1

def single : InfoHashes := ⟨some onlyHash, none, by decide⟩

theorem run_forgets_limited : ∃ past s, (machine (· = ·)).Run (fun _ _ => True) past s ∧
    s.getter .downLimit 0 = (100 : Int) ∧ s.getter .tags 0 = [['a']] ∧
    (s.removeTorrent 0).Forgotten 0 ⟨single, true, false⟩ := by
  have hstart : (machine (· = ·)).Run (fun _ _ => True) [] init := .init
  have hadded := hstart.extend (.addTorrent single ['d'] (some 0)) trivial rfl
  have hlimited := hadded.extend (.setTorrentDownloadLimit 0 100) trivial rfl
  have htagged := hlimited.extend (.setTorrentTags 0 [['a']]) trivial rfl
  refine ⟨_, _, htagged, by decide, by decide, (run_forgets htagged rfl rfl).mpr ?_⟩
  rw [State.Forgettable, if_neg (by decide)]
  refine ⟨fun k hk hne => absurd (List.mem_singleton.mp hk) hne, fun _ => ⟨fun σ hσ => ?_, ?_⟩, ?_⟩
  · cases σ <;> first | rfl | cases hσ
  · exact .inr rfl
  · rfl

-- With both limits set, the second one stays.
theorem not_run_forgets : ¬ ∀ past s i h t, (machine (· = ·)).Run (fun _ _ => True) past s →
    s.rows[i]? = some h → s.torrents h = some t → (s.removeTorrent i).Forgotten h t := by
  intro hall
  have hreached : ∃ past s, (machine (· = ·)).Run (fun _ _ => True) past s ∧
      (s.rows[0]? = some 0 ∧ s.torrents 0 = some ⟨single, true, false⟩ ∧
        ((s.removeTorrent 0).table .upLimit (some onlyHash)).isSome) :=
    exists_run [.addTorrent single ['d'] (some 0), .setTorrentDownloadLimit 0 100,
      .setTorrentUploadLimit 0 50] (by decide)
  obtain ⟨past, s, hrun, hrow, htorrent, hsome⟩ := hreached
  have hnone := ((hall past s 0 0 _ hrun hrow htorrent).1 onlyHash (by decide)).1 .upLimit
  rw [hnone] at hsome
  cases hsome

end Runs

end BATorrent.PerTorrent
