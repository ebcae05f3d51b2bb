import BATorrent.Torrent.Library.Held

namespace BATorrent.Library

open Lib Lib.FilePath SessionResume State

variable {rules : Rules} {s s' : State} {p : Params} {h : Handle} {hash : Sha1Hash}

section Property

-- The library holds each torrent once, and none that still waits in the Add window.
structure HeldOnce (s : State) : Prop where
  rows : s.torrents.Nodup
  unstaged : ∀ h ∈ s.torrents, s.isStaged h = false

instance (s : State) : Decidable (HeldOnce s) :=
  decidable_of_iff (s.torrents.Nodup ∧ ∀ h ∈ s.torrents, s.isStaged h = false)
    ⟨fun ⟨hr, hu⟩ => ⟨hr, hu⟩, fun ⟨hr, hu⟩ => ⟨hr, hu⟩⟩

-- The torrent that the session has under one of these hashes is in no row and not staged.
def State.Unheld (s : State) (ih : InfoHashes) : Prop :=
  ∀ t, s.session.find ih = some t → t.handle ∉ s.torrents ∧ s.isStaged t.handle = false

-- The handle of a magnet that is committed is under no other key, or the magnet is added anew.
def State.CommitsUnheld (s : State) (hash : Sha1Hash) (fails : Bool) : Prop :=
  ∀ st, s.staged.lookup hash = some st →
    if s.valid st.handle = true then
      ∀ hash' st', s.staged.lookup hash' = some st' → st'.handle = st.handle → hash' = hash
    else s.isDuplicate st.uri.hashes = true ∨ fails = true ∨ s.Unheld st.uri.hashes

-- An add that is neither refused as a duplicate nor fails finds no torrent that is held.
def AddsUnheld (s : State) : Event → Prop
  | .addTorrent ti _ fails => s.isDuplicate ti.hashes = true ∨ fails = true ∨ s.Unheld ti.hashes
  | .addTorrentInfo ti _ fails => s.isDuplicate ti.hashes = true ∨ fails = true ∨ s.Unheld ti.hashes
  | .addMagnet uri _ _ fails _ => s.isDuplicate uri.hashes = true ∨ fails = true ∨ s.Unheld uri.hashes
  | .addMagnetWith uri _ _ fails _ =>
      s.isDuplicate uri.hashes = true ∨ fails = true ∨ s.Unheld uri.hashes
  | .stageMagnet uri _ fails =>
      s.isDuplicate uri.hashes = true ∨ (s.staged.lookup uri.hashes.best).isSome = true ∨
        fails = true ∨ ∀ t, s.session.find uri.hashes = some t → t.handle ∉ s.torrents
  | .commitStaged hash _ _ fails _ => s.CommitsUnheld hash fails
  | .restoreFromResumeData p fails => fails = true ∨ s.Unheld p.hashes
  | .restoreRemoved hash fails =>
      ∀ p, s.removedDir.lookup hash = some p → fails = true ∨ s.Unheld p.hashes
  | .importFromQBittorrent file defaultSavePath fails =>
      file.refused s = true ∨ fails = true ∨ s.Unheld (file.params defaultSavePath).hashes
  | .loadResumeData fails _ =>
      ∀ hash p, s.unloaded.head? = some hash → s.resumeDir.lookup hash = some p →
        fails = true ∨ s.Unheld p.hashes
  | _ => True

end Property

section Known

-- A handle that is kept was given by the session that runs.
structure Known (s : State) : Prop where
  torrents : ∀ h ∈ s.torrents, h < s.session.nextHandle
  staged : ∀ hash st, s.staged.lookup hash = some st → st.handle < s.session.nextHandle

theorem Known.congr (hknown : Known s) (hheld : s'.held = s.held) : Known s' := by
  obtain ⟨hsession, htorrents, hstaged⟩ := held_eq hheld
  refine ⟨?_, ?_⟩
  · rw [htorrents, hsession]
    exact hknown.torrents
  · rw [hstaged, hsession]
    exact hknown.staged

theorem Known.mono (hknown : Known s) (htorrents : ∀ h ∈ s'.torrents, h ∈ s.torrents)
    (hstaged : ∀ hash st, s'.staged.lookup hash = some st → s.staged.lookup hash = some st)
    (hnext : s.session.nextHandle ≤ s'.session.nextHandle) : Known s' where
  torrents h hh := (hknown.torrents h (htorrents h hh)).trans_le hnext
  staged hash st hst := (hknown.staged hash st (hstaged hash st hst)).trans_le hnext

theorem nextHandle_le_add (s : Session) (p : Params) :
    s.nextHandle ≤ (s.add p).1.nextHandle ∧ (s.add p).2 < (s.add p).1.nextHandle := by
  cases hfind : s.find p.hashes with
  | some t =>
      rw [Session.add_of_find hfind]
      exact ⟨le_rfl, s.known t (Session.find_some hfind).1⟩
  | none =>
      obtain ⟨-, hnext, hhandle⟩ := Session.add_of_new hfind
      rw [hnext, hhandle]
      exact ⟨Nat.le_succ _, Nat.lt_succ_self _⟩

theorem Known.adopt (hknown : Known s) (p : Params) : Known (s.adopt p).1 := by
  obtain ⟨hle, hlt⟩ := nextHandle_le_add s.session p
  refine ⟨?_, fun hash st hst => (hknown.staged hash st hst).trans_le hle⟩
  intro h hh
  rcases List.mem_append.mp hh with hh | hh
  · exact (hknown.torrents h hh).trans_le hle
  · rw [List.mem_singleton.mp hh]
    exact hlt

theorem Known.unless (hknown : Known s) {refused : Prop} [Decidable refused]
    (hheld : s'.held = if refused then s.held else (s.adopt p).1.held) : Known s' := by
  split_ifs at hheld
  · exact hknown.congr hheld
  · exact (hknown.adopt p).congr hheld

theorem Known.stageMagnet (hknown : Known s) (uri : Magnet) (scratchDir : Text) (fails : Bool) :
    Known (s.stageMagnet uri scratchDir fails) := by
  unfold State.stageMagnet
  dsimp only
  split_ifs
  · exact hknown
  · obtain ⟨hle, hlt⟩ := nextHandle_le_add s.session (magnetParams uri scratchDir uri.name)
    refine ⟨fun h hh => (hknown.torrents h hh).trans_le hle, fun hash st hst => ?_⟩
    rcases lookup_insert_eq_some.mp hst with ⟨-, rfl⟩ | ⟨-, hst⟩
    · exact hlt
    · exact (hknown.staged hash st hst).trans_le hle

theorem Known.commitStaged (hknown : Known s) (savePath : Text) (paused fails commits : Bool) :
    Known (s.commitStaged hash savePath paused fails commits) := by
  cases hst : s.staged.lookup hash with
  | none =>
      rw [State.commitStaged, hst]
      exact hknown
  | some st =>
      have hheld := held_commitStaged hst savePath paused fails commits
      set t : State := { s with staged := s.staged.erase hash } with ht
      have hout : ∀ hash' st', t.staged.lookup hash' = some st' →
          s.staged.lookup hash' = some st' := fun hash' st' h => (lookup_erase_eq_some.mp h).2
      have hknown' : Known t := hknown.mono (fun _ h => h) hout le_rfl
      split_ifs at hheld
      · have hpushed : Known { t with torrents := s.torrents ++ [st.handle] } := by
          refine ⟨?_, hknown'.staged⟩
          intro h hh
          rcases List.mem_append.mp hh with hh | hh
          · exact hknown.torrents h hh
          · rw [List.mem_singleton.mp hh]
            exact hknown.staged hash st hst
        exact hpushed.congr hheld
      · exact (hknown'.unless (held_addMagnetWith st.uri savePath paused fails commits)).congr hheld

end Known

section Steps

theorem HeldOnce.congr (hheld : s'.held = s.held) : HeldOnce s' ↔ HeldOnce s := by
  obtain ⟨-, htorrents, hstaged⟩ := held_eq hheld
  have hsame : s'.isStaged = s.isStaged := by
    funext h
    rw [isStaged, isStaged, hstaged]
  constructor
  · rintro ⟨hrows, hunstaged⟩
    exact ⟨htorrents ▸ hrows, fun h hh => hsame ▸ hunstaged h (htorrents ▸ hh)⟩
  · rintro ⟨hrows, hunstaged⟩
    exact ⟨htorrents ▸ hrows, fun h hh => hsame ▸ hunstaged h (htorrents ▸ hh)⟩

theorem heldOnce_push_iff (hs : HeldOnce s) (htorrents : s'.torrents = s.torrents ++ [h])
    (hstaged : s'.staged = s.staged) :
    HeldOnce s' ↔ h ∉ s.torrents ∧ s.isStaged h = false := by
  have hsame : s'.isStaged = s.isStaged := by
    funext h
    rw [isStaged, isStaged, hstaged]
  constructor
  · rintro ⟨hrows, hunstaged⟩
    rw [htorrents] at hrows
    refine ⟨?_, hsame ▸ hunstaged h (htorrents ▸ List.mem_append_right _ (List.mem_singleton_self h))⟩
    intro hh
    exact List.disjoint_of_nodup_append hrows hh (List.mem_singleton_self h)
  · rintro ⟨hnew, hfree⟩
    refine ⟨?_, ?_⟩
    · rw [htorrents]
      exact hs.rows.append (List.nodup_singleton h) (List.disjoint_singleton.mpr hnew)
    · intro h' hh'
      rw [hsame]
      rw [htorrents] at hh'
      rcases List.mem_append.mp hh' with hh' | hh'
      · exact hs.unstaged h' hh'
      · rw [List.mem_singleton.mp hh']
        exact hfree

theorem heldOnce_adopt_iff (hknown : Known s) (hs : HeldOnce s)
    (hheld : s'.held = (s.adopt p).1.held) : HeldOnce s' ↔ s.Unheld p.hashes := by
  rw [HeldOnce.congr hheld, heldOnce_push_iff hs adopt_torrents rfl]
  cases hfind : s.session.find p.hashes with
  | some t =>
      rw [(adopt_of_find hfind).1, Unheld, hfind]
      simp
  | none =>
      rw [(adopt_of_new hfind).1, Unheld, hfind]
      refine iff_of_true ⟨?_, ?_⟩ fun t ht => absurd ht.symm (Option.some_ne_none t)
      · exact fun hh => (hknown.torrents _ hh).false
      · rw [isStaged_eq_false]
        exact fun hash st hst => (hknown.staged hash st hst).ne

theorem heldOnce_unless_iff (hknown : Known s) (hs : HeldOnce s) {refused : Prop} [Decidable refused]
    (hheld : s'.held = if refused then s.held else (s.adopt p).1.held) :
    HeldOnce s' ↔ refused ∨ s.Unheld p.hashes := by
  by_cases hrefused : refused
  · rw [if_pos hrefused] at hheld
    exact iff_of_true ((HeldOnce.congr hheld).mpr hs) (.inl hrefused)
  · rw [if_neg hrefused] at hheld
    rw [heldOnce_adopt_iff hknown hs hheld]
    simp [hrefused]

theorem HeldOnce.mono (hs : HeldOnce s) (htorrents : s'.torrents.Subperm s.torrents)
    (hstaged : ∀ hash st, s'.staged.lookup hash = some st → s.staged.lookup hash = some st) :
    HeldOnce s' := by
  refine ⟨?_, ?_⟩
  · obtain ⟨l, hperm, hsub⟩ := htorrents
    exact hperm.nodup_iff.mp (hs.rows.sublist hsub)
  · intro h hh
    have hfree := isStaged_eq_false.mp (hs.unstaged h (htorrents.subset hh))
    rw [isStaged_eq_false]
    exact fun hash st hst => hfree hash st (hstaged hash st hst)

theorem heldOnce_stageMagnet_iff (hknown : Known s) (hs : HeldOnce s) (uri : Magnet)
    (scratchDir : Text) (fails : Bool) :
    HeldOnce (s.stageMagnet uri scratchDir fails) ↔
      s.isDuplicate uri.hashes = true ∨ (s.staged.lookup uri.hashes.best).isSome = true ∨
        fails = true ∨ ∀ t, s.session.find uri.hashes = some t → t.handle ∉ s.torrents := by
  unfold stageMagnet
  dsimp only
  split_ifs with hrefused
  · refine iff_of_true hs ?_
    rcases hrefused with h | h | h
    · exact .inl h
    · exact .inr (.inl h)
    · exact .inr (.inr (.inl h))
  · simp only [not_or] at hrefused
    simp only [hrefused, Bool.false_eq_true, false_or]
    set p := magnetParams uri scratchDir uri.name with hp
    have hfree : (∀ t, s.session.find uri.hashes = some t → t.handle ∉ s.torrents) ↔
        (s.session.add p).2 ∉ s.torrents := by
      cases hfind : s.session.find uri.hashes with
      | some t =>
          rw [Session.add_of_find (p := p) hfind]
          simp
      | none =>
          rw [(Session.add_of_new (p := p) hfind).2.2]
          refine iff_of_true (fun t ht => absurd ht.symm (Option.some_ne_none t)) ?_
          exact fun hh => (hknown.torrents _ hh).false
    rw [hfree]
    constructor
    · intro h hh
      have hstaged := h.unstaged _ hh
      rw [isStaged_eq_false] at hstaged
      exact hstaged uri.hashes.best _ (AList.lookup_insert _) rfl
    · intro hnew
      refine ⟨hs.rows, fun h hh => isStaged_eq_false.mpr fun hash st hst => ?_⟩
      rcases lookup_insert_eq_some.mp hst with ⟨-, rfl⟩ | ⟨-, hst⟩
      · rintro rfl
        exact hnew hh
      · exact isStaged_eq_false.mp (hs.unstaged h hh) hash st hst

theorem heldOnce_commitStaged_iff (hknown : Known s) (hs : HeldOnce s) (savePath : Text)
    (paused fails commits : Bool) :
    HeldOnce (s.commitStaged hash savePath paused fails commits) ↔ s.CommitsUnheld hash fails := by
  unfold CommitsUnheld
  cases hst : s.staged.lookup hash with
  | none =>
      have hsame : s.commitStaged hash savePath paused fails commits = s := by
        rw [commitStaged, hst]
      rw [hsame]
      exact iff_of_true hs fun st h => absurd h.symm (Option.some_ne_none st)
  | some st =>
      simp only [Option.some.injEq, forall_eq']
      have hheld := held_commitStaged hst savePath paused fails commits
      set t : State := { s with staged := s.staged.erase hash } with ht
      have hout : ∀ hash' st', t.staged.lookup hash' = some st' →
          s.staged.lookup hash' = some st' := fun hash' st' h => (lookup_erase_eq_some.mp h).2
      have hs' : HeldOnce t := hs.mono (List.Subperm.refl _) hout
      have hknown' : Known t := hknown.mono (fun _ h => h) hout le_rfl
      by_cases hvalid : s.valid st.handle = true
      · rw [if_pos hvalid] at hheld ⊢
        have hrow : st.handle ∉ s.torrents := by
          intro hh
          have hstaged := hs.unstaged _ hh
          rw [isStaged_eq_false] at hstaged
          exact hstaged hash st hst rfl
        set u : State := { t with torrents := s.torrents ++ [st.handle] } with hu
        have hpushed : (s.commitStaged hash savePath paused fails commits).held = u.held := hheld
        have hpush : HeldOnce u ↔ _ := heldOnce_push_iff hs' rfl rfl
        rw [HeldOnce.congr hpushed, hpush, and_iff_right hrow, isStaged_eq_false]
        constructor
        · intro h hash' st' hst' hsame
          by_contra hne
          exact h hash' st' (lookup_erase_eq_some.mpr ⟨hne, hst'⟩) hsame
        · intro h hash' st' hst' hsame
          obtain ⟨hne, hst'⟩ := lookup_erase_eq_some.mp hst'
          exact hne (h hash' st' hst' hsame)
      · rw [if_neg hvalid] at hheld ⊢
        -- The key taken out held a handle that no torrent has any more.
        have hunheld : t.Unheld st.uri.hashes ↔ s.Unheld st.uri.hashes := by
          refine forall_congr' fun u => imp_congr_right fun hu => and_congr_right fun _ => ?_
          have hne : st.handle ≠ u.handle := by
            intro hsame
            rw [valid, State.torrent, hsame, Option.not_isSome_iff_eq_none,
              Session.torrent_eq_none] at hvalid
            exact hvalid u (Session.find_some hu).1 rfl
          rw [isStaged_eq_false, isStaged_eq_false]
          constructor
          · intro h hash' st' hst' hsame
            by_cases hkey : hash' = hash
            · rw [hkey, hst] at hst'
              rw [← Option.some.inj hst'] at hsame
              exact hne hsame
            · exact h hash' st' (lookup_erase_eq_some.mpr ⟨hkey, hst'⟩) hsame
          · exact fun h hash' st' hst' => h hash' st' (hout hash' st' hst')
        rw [HeldOnce.congr hheld, heldOnce_unless_iff hknown' hs'
          (held_addMagnetWith st.uri savePath paused fails commits), hashes_magnetParams, hunheld,
          or_assoc]
        rfl

end Steps

section Run

-- Where the library was in order, it is after the step just when C holds.
def Decides (s s' : State) (C : Prop) : Prop := Known s' ∧ (HeldOnce s → (HeldOnce s' ↔ C))

theorem decides_congr (hknown : Known s) (hheld : s'.held = s.held) : Decides s s' True :=
  ⟨hknown.congr hheld, fun hs => iff_of_true ((HeldOnce.congr hheld).mpr hs) trivial⟩

theorem decides_mono (hknown : Known s) (htorrents : s'.torrents.Subperm s.torrents)
    (hstaged : ∀ hash st, s'.staged.lookup hash = some st → s.staged.lookup hash = some st)
    (hnext : s'.session.nextHandle = s.session.nextHandle) : Decides s s' True :=
  ⟨hknown.mono (fun _ h => htorrents.subset h) hstaged hnext.ge,
    fun hs => iff_of_true (hs.mono htorrents hstaged) trivial⟩

theorem decides_unless (hknown : Known s) {refused : Prop} [Decidable refused]
    (hheld : s'.held = if refused then s.held else (s.adopt p).1.held) :
    Decides s s' (refused ∨ s.Unheld p.hashes) :=
  ⟨hknown.unless hheld, fun hs => heldOnce_unless_iff hknown hs hheld⟩

theorem decides_removeTorrent (hknown : Known s) (i : Nat) (deleteFiles permanent : Bool) :
    Decides s (s.removeTorrent rules i deleteFiles permanent) True := by
  cases hi : s.torrents[i]? with
  | none =>
      have hsame : s.removeTorrent rules i deleteFiles permanent = s := by
        rw [removeTorrent, hi]
      rw [hsame]
      exact decides_congr hknown rfl
  | some h =>
      have hheld := held_removeTorrent rules hi deleteFiles permanent
      obtain ⟨hsession, hrest⟩ := Prod.mk.inj hheld
      obtain ⟨htorrents, hstaged⟩ := Prod.mk.inj hrest
      refine decides_mono hknown ?_ (fun hash st hst => hstaged ▸ hst) ?_
      · rw [htorrents]
        exact (List.eraseIdx_sublist _ _).subperm
      · rw [hsession]
        split_ifs <;> rfl

theorem decides_loadNext (hknown : Known s) {fails : Bool} {disk : Text → Option Int}
    (hload : s.loadNext rules fails disk = some s') :
    Decides s s' (AddsUnheld s (.loadResumeData fails disk)) := by
  unfold loadNext at hload
  cases hunloaded : s.unloaded with
  | nil =>
      rw [hunloaded] at hload
      exact absurd hload.symm (Option.some_ne_none _)
  | cons hash rest =>
      rw [hunloaded] at hload
      obtain rfl := Option.some.inj hload
      have hhead : s.unloaded.head? = some hash := by rw [hunloaded, List.head?_cons]
      cases hp : s.resumeDir.lookup hash with
      | none =>
          have hsame : (State.loadResumeData { s with unloaded := rest } rules hash fails disk).held =
              s.held := by
            rw [State.loadResumeData, hp]
            rfl
          have hc : AddsUnheld s (.loadResumeData fails disk) ↔ True := by
            refine iff_true_intro fun hash' p hhash' hp' => ?_
            rw [← Option.some.inj (hhead.symm.trans hhash'), hp] at hp'
            exact absurd hp'.symm (Option.some_ne_none p)
          rw [hc]
          exact decides_congr hknown hsame
      | some p =>
          have hheld := held_loadResumeData rules (s := { s with unloaded := rest }) fails
            disk hp
          have hc : AddsUnheld s (.loadResumeData fails disk) ↔
              fails = true ∨ s.Unheld (reconcile rules disk p).hashes := by
            rw [hashes_reconcile]
            constructor
            · exact fun h => h hash p hhead hp
            · intro h hash' p' hhash' hp'
              rw [← Option.some.inj (hhead.symm.trans hhash'), hp] at hp'
              exact Option.some.inj hp' ▸ h
          rw [hc]
          exact decides_unless hknown hheld

theorem decides_act (hknown : Known s) {e : Event} (hact : s.act rules e = some s') :
    Decides s s' (AddsUnheld s e) := by
  cases e with
  | addTorrent ti savePath fails =>
      obtain rfl := Option.some.inj hact
      have h := decides_unless hknown (held_addWithInfo ti savePath fails)
      rwa [or_assoc] at h
  | addTorrentInfo ti savePath fails =>
      obtain rfl := Option.some.inj hact
      have h := decides_unless hknown (held_addWithInfo ti savePath fails)
      rwa [or_assoc] at h
  | addMagnet uri savePath coverHint fails commits =>
      obtain rfl := Option.some.inj hact
      have h := decides_unless hknown (held_addMagnet uri savePath coverHint fails commits)
      rwa [or_assoc] at h
  | addMagnetWith uri savePath paused fails commits =>
      obtain rfl := Option.some.inj hact
      have h := decides_unless hknown (held_addMagnetWith uri savePath paused fails commits)
      rwa [or_assoc] at h
  | stageMagnet uri scratchDir fails =>
      obtain rfl := Option.some.inj hact
      exact ⟨hknown.stageMagnet uri scratchDir fails,
        fun hs => heldOnce_stageMagnet_iff hknown hs uri scratchDir fails⟩
  | discardStaged hash =>
      obtain rfl := Option.some.inj hact
      unfold discardStaged
      cases hst : s.staged.lookup hash with
      | none => exact decides_congr hknown rfl
      | some st =>
          refine decides_mono hknown (List.Subperm.refl _) ?_ rfl
          exact fun hash' st' h => (lookup_erase_eq_some.mp h).2
  | commitStaged hash savePath paused fails commits =>
      obtain rfl := Option.some.inj hact
      exact ⟨hknown.commitStaged savePath paused fails commits,
        fun hs => heldOnce_commitStaged_iff hknown hs savePath paused fails commits⟩
  | restoreFromResumeData p fails =>
      obtain rfl := Option.some.inj hact
      exact decides_unless hknown (held_restoreFromResumeData p fails)
  | restoreRemoved hash fails =>
      obtain rfl := Option.some.inj hact
      cases hp : s.removedDir.lookup hash with
      | none =>
          have hsame : s.restoreRemoved hash fails = s := by
            rw [restoreRemoved, hp]
          have h := decides_congr hknown (congrArg held hsame)
          simpa [AddsUnheld, hp] using h
      | some p =>
          have h := decides_unless hknown (held_restoreRemoved fails hp)
          simpa [AddsUnheld, hp] using h
  | importFromQBittorrent file defaultSavePath fails =>
      obtain rfl := Option.some.inj hact
      have h := decides_unless hknown (held_importFromQBittorrent file defaultSavePath fails)
      rwa [or_assoc] at h
  | removeTorrent i deleteFiles permanent =>
      obtain rfl := Option.some.inj hact
      exact decides_removeTorrent hknown i deleteFiles permanent
  | setTorrentQueuePosition i position =>
      obtain rfl := Option.some.inj hact
      have hframe : (s.setTorrentQueuePosition i position).session = s.session ∧
          (s.setTorrentQueuePosition i position).staged = s.staged := by
        unfold setTorrentQueuePosition
        split_ifs <;> exact ⟨rfl, rfl⟩
      refine decides_mono hknown (torrents_setTorrentQueuePosition i position).subperm ?_ ?_
      · exact fun hash st hst => hframe.2 ▸ hst
      · rw [hframe.1]
  | processAlerts commits => exact decides_congr hknown (held_processAlerts hact)
  | attempt i existing failed =>
      obtain ⟨⟨s'', timer⟩, hattempt, rfl⟩ := Option.map_eq_some_iff.mp hact
      exact decides_congr hknown (held_attempt hattempt)
  | restart files =>
      dsimp only [act] at hact
      split_ifs at hact
      obtain rfl := Option.some.inj hact
      obtain ⟨-, hrest⟩ := Prod.mk.inj (held_restart (s := s) files)
      obtain ⟨htorrents, hstaged⟩ := Prod.mk.inj hrest
      have hnone : ∀ hash, (s.restart files).staged.lookup hash = none := by
        rw [hstaged]
        exact fun hash => AList.lookup_empty hash
      refine ⟨⟨?_, ?_⟩, fun _ => iff_of_true ⟨?_, ?_⟩ trivial⟩
      · rw [htorrents]
        exact fun h hh => absurd hh List.not_mem_nil
      · exact fun hash st hst => absurd (hnone hash ▸ hst) (Option.some_ne_none st).symm
      · rw [htorrents]
        exact List.nodup_nil
      · rw [htorrents]
        exact fun h hh => absurd hh List.not_mem_nil
  | loadResumeData fails disk => exact decides_loadNext hknown hact
  | metadataArrives h ti =>
      obtain ⟨t, -, hact⟩ := Option.bind_eq_some_iff.mp hact
      split_ifs at hact
      obtain ⟨session, hreceive, rfl⟩ := Option.map_eq_some_iff.mp hact
      exact decides_mono hknown (List.Subperm.refl _) (fun _ _ hst => hst)
        (Session.receive_eq_some h hreceive).1
  | removalDone h =>
      obtain ⟨t, -, hact⟩ := Option.bind_eq_some_iff.mp hact
      split_ifs at hact
      obtain rfl := Option.some.inj hact
      exact decides_mono hknown (List.Subperm.refl _) (fun _ _ hst => hst) rfl
  | answerSave i saved => exact decides_congr hknown (held_answerSave hact)
  | pauseTorrent i =>
      obtain rfl := Option.some.inj hact
      exact decides_congr hknown (held_pauseTorrent i)
  | resumeTorrent i =>
      obtain rfl := Option.some.inj hact
      exact decides_congr hknown (held_pauseTorrent i)
  | pieceFinished h =>
      obtain rfl := Option.some.inj hact
      exact decides_congr hknown held_stageResumeSave
  | fileRenamed h file name =>
      obtain rfl := Option.some.inj hact
      exact decides_mono hknown (List.Subperm.refl _) (fun _ _ hst => hst) rfl
  | storageMoved h savePath =>
      obtain rfl := Option.some.inj hact
      exact decides_mono hknown (List.Subperm.refl _) (fun _ _ hst => hst) rfl
  | pruneRemovedHistory _ | pauseAll | resumeAll | saveResumeData | setTempPath _
  | setContentLayout _ =>
      obtain rfl := Option.some.inj hact
      exact decides_congr hknown rfl

theorem act_of_next {e : Event} {out : List Out} (hnext : next rules s e = some (s', out)) :
    s.act rules e = some s' ∧ out = s.touched e := by
  unfold next at hnext
  split_ifs at hnext
  obtain ⟨s'', hact, heq⟩ := Option.map_eq_some_iff.mp hnext
  obtain ⟨rfl, rfl⟩ := Prod.mk.inj heq
  exact ⟨hact, rfl⟩

theorem known_init : Known init :=
  ⟨fun _ hh => absurd hh List.not_mem_nil,
    fun hash st hst => absurd ((AList.lookup_empty hash).symm.trans hst) (Option.some_ne_none st).symm⟩

theorem run_known {past : List (Reaction State Event Out)}
    (hrun : (machine rules).Run (fun _ _ => True) past s) : Known s := by
  refine Machine.Run.invariant Known known_init ?_ hrun
  intro s e s' out hknown _ hnext
  exact (decides_act hknown (act_of_next hnext).1).1

-- The library holds each torrent once just when no add finds one that it holds already.
theorem run_heldOnce_iff {past : List (Reaction State Event Out)}
    (hrun : (machine rules).Run (fun _ _ => True) past s) :
    (∀ t ∈ Machine.visited past s, HeldOnce t) ↔ ∀ r ∈ past, AddsUnheld r.before r.event := by
  have hinit : HeldOnce (machine rules).init ↔ True :=
    iff_of_true ⟨List.nodup_nil, fun h hh => absurd hh List.not_mem_nil⟩ trivial
  have hiff := hrun.forall_visited_iff hinit fun past s e s' out hrun hs hnext =>
    (decides_act (run_known hrun) (act_of_next hnext).1).2 hs
  rwa [true_and] at hiff

instance (s : State) (ih : InfoHashes) : Decidable (s.Unheld ih) :=
  match hfind : s.session.find ih with
  | none => isTrue fun t ht => absurd (hfind.symm.trans ht) (Option.some_ne_none t).symm
  | some t =>
      decidable_of_iff (t.handle ∉ s.torrents ∧ s.isStaged t.handle = false)
        ⟨fun h _ hu => Option.some.inj (hfind.symm.trans hu) ▸ h, fun h => h t hfind⟩

def sha1 (b : Fin 256) : Sha1Hash := .replicate 20 b

def sha256 (b : Fin 256) : Sha256Hash := .replicate 32 b

-- A torrent file with the hashes of both versions.
def hybridTorrent : TorrentInfo where
  hashes := ⟨some (sha1 1), some (sha256 2), by decide⟩
  name := ['a']
  files := [⟨['a'], 1⟩]

def otherTorrent : TorrentInfo where
  hashes := ⟨some (sha1 3), none, by decide⟩
  name := ['b']
  files := [⟨['b'], 1⟩]

-- A link to the first torrent, by the hash of its older version.
def plainMagnet : Magnet where
  hashes := ⟨some (sha1 1), none, by decide⟩
  name := ['a']

-- Two torrents are added that have nothing in common.
theorem run_heldOnce_apart : ∃ past s, (machine unix).Run (fun _ _ => True) past s ∧
    s.torrents = [0, 1] ∧ ∀ t ∈ Machine.visited past s, HeldOnce t := by
  have hstart : (machine unix).Run (fun _ _ => True) [] init := .init
  have hone := hstart.extend (.addTorrent hybridTorrent ['/', 'd'] false) trivial rfl
  have htwo := hone.extend (.addTorrent otherTorrent ['/', 'd'] false) trivial rfl
  refine ⟨_, _, htwo, by decide +kernel, (run_heldOnce_iff htwo).mpr ?_⟩
  intro r hr
  rcases List.mem_cons.mp hr with rfl | hr
  · exact .inr (.inr (by decide +kernel))
  · rw [List.mem_singleton.mp hr]
    exact .inr (.inr (by decide +kernel))

-- The pair of hashes is not the torrent's, and libtorrent hands back the torrent that is there.
theorem run_not_heldOnce : ∃ past s,
    (machine unix).Run (fun _ _ => True) past s ∧ ¬ HeldOnce s :=
  Machine.exists_run
    [.addTorrent hybridTorrent ['/', 'd'] false, .addMagnet plainMagnet ['/', 'd'] [] false true]
    (by decide +kernel)

end Run

end BATorrent.Library
