import BATorrent.Torrent.Pausing.Completion

namespace BATorrent.Pausing.Completion

open Lib
open NetworkSettings (Text)

variable {s s' t : State} {w : World} {h g : Handle} {st : Status} {back : Handle → Prop}

section Calm

-- What a torrent is known by.
def ident (st : Status) : Text × Bool := (st.hash, st.hasMetadata)

-- A status speaks of the torrent that libtorrent has, if with less than it knows by now.
def Agrees (s : State) (h : Handle) (st : Status) : Prop :=
  ∀ live, s.live h = some live → st.hasMetadata = true →
    live.hasMetadata = true ∧ live.hash = st.hash

theorem agrees_live (hlive : s.live h = some st) : Agrees s h st := by
  intro live hlive' hmetadata
  obtain rfl := Option.some.inj (hlive.symm.trans hlive')
  exact ⟨hmetadata, rfl⟩

theorem Agrees.of_ident (ha : Agrees t h st) (hlive : (t.live h).map ident = (s.live h).map ident) :
    Agrees s h st := by
  intro live hs hmetadata
  rw [hs, Option.map_some] at hlive
  obtain ⟨old, ht, hident⟩ := Option.map_eq_some_iff.mp hlive
  have hold := ha old ht hmetadata
  simp only [ident, Prod.mk.injEq] at hident
  exact ⟨hident.2 ▸ hold.1, hident.1 ▸ hold.2⟩

-- A change that marks no torrent completed and resumes none of these but those taken back.
structure Calm (back : Handle → Prop) (s s' : State) : Prop where
  torrents : ∀ h ∈ s'.torrents, h ∈ s.torrents
  live : ∀ h ∈ s'.torrents, (s'.live h).map ident = (s.live h).map ident
  paused : ∀ h ∈ s'.torrents, ¬ back h → s.pausedNow h = true → s'.pausedNow h = true
  completed : ∀ hash ∈ s'.completedTorrents, hash ∈ s.completedTorrents
  cached : ∀ h ∈ s'.torrents, ∀ st, s'.statusCache h = some st →
    s.statusCache h = some st ∨ Agrees s h st

theorem Calm.refl (s : State) : Calm back s s :=
  ⟨fun _ => id, fun _ _ => rfl, fun _ _ _ => id, fun _ => id, fun _ _ _ => .inl⟩

theorem Calm.trans (hc : Calm back s t) (hc' : Calm back t s') : Calm back s s' where
  torrents h hh := hc.torrents h (hc'.torrents h hh)
  live h hh := (hc'.live h hh).trans (hc.live h (hc'.torrents h hh))
  paused h hh hback hp := hc'.paused h hh hback (hc.paused h (hc'.torrents h hh) hback hp)
  completed hash hmem := hc.completed hash (hc'.completed hash hmem)
  cached h hh st hst := by
    have hearlier := hc'.torrents h hh
    rcases hc'.cached h hh st hst with hst | hagrees
    · exact hc.cached h hearlier st hst
    · exact .inr (hagrees.of_ident (hc.live h hearlier))

-- Most calls touch no torrent at all.
theorem calm_books (htorrents : ∀ h ∈ s'.torrents, h ∈ s.torrents) (hlive : s'.live = s.live)
    (hcompleted : s'.completedTorrents = s.completedTorrents)
    (hcached : s'.statusCache = s.statusCache) : Calm back s s' where
  torrents := htorrents
  live _ _ := by rw [hlive]
  paused _ _ _ hp := by rwa [State.pausedNow, hlive]
  completed _ hmem := hcompleted ▸ hmem
  cached _ _ _ hst := .inl (hcached ▸ hst)

theorem calm_cached (hcached : ∀ h ∈ s.torrents, ∀ st, s'.statusCache h = some st →
      s.statusCache h = some st ∨ Agrees s h st)
    (htorrents : s'.torrents = s.torrents) (hlive : s'.live = s.live)
    (hcompleted : s'.completedTorrents = s.completedTorrents) : Calm back s s' where
  torrents _ hh := htorrents ▸ hh
  live _ _ := by rw [hlive]
  paused _ _ _ hp := by rwa [State.pausedNow, hlive]
  completed _ hmem := hcompleted ▸ hmem
  cached h hh := hcached h (htorrents ▸ hh)

theorem calm_warm (s : State) (h : Handle) : Calm back s (s.warm h) := by
  refine calm_cached (fun g _ st hst => ?_) rfl rfl rfl
  by_cases hgh : g = h
  · subst hgh
    have hself : (s.warm g).statusCache g = s.cachedStatus g := Function.update_self ..
    rw [hself, State.cachedStatus] at hst
    cases hcache : s.statusCache g with
    | none =>
        rw [hcache, Option.none_or] at hst
        exact .inr (agrees_live hst)
    | some old =>
        rw [hcache, Option.some_or] at hst
        exact .inl hst
  · have hother : (s.warm h).statusCache g = s.statusCache g := Function.update_of_ne hgh ..
    exact .inl (hother ▸ hst)

theorem map_ident_setPaused (s : State) (h : Handle) (paused : Bool) (g : Handle) :
    ((s.setPaused h paused).live g).map ident = (s.live g).map ident := by
  unfold State.setPaused
  by_cases hgh : g = h
  · subst hgh
    simp only [Function.update_self, Option.map_map]
    rfl
  · simp [hgh]

theorem calm_pause (s : State) (cause : Cause) (h : Handle) : Calm back s (s.pause cause h) :=
  ⟨fun _ => id, fun g _ => map_ident_setPaused s h true g,
    fun _ _ _ => State.pausedNow_pause s cause h, fun _ => id, fun _ _ _ => .inl⟩

theorem calm_resume (hback : back h) : Calm back s (s.resume h) := by
  refine ⟨fun _ => id, fun g _ => map_ident_setPaused s h false g, ?_, fun _ => id,
    fun _ _ _ => .inl⟩
  intro g _ hnot hp
  have hne : g ≠ h := fun heq => hnot (heq ▸ hback)
  have hother : (s.resume h).live g = s.live g := Function.update_of_ne hne ..
  rwa [State.pausedNow, hother]

theorem calm_foldl {α : Type} {f : State → α → State} (l : List α)
    (hf : ∀ s, ∀ a ∈ l, Calm back s (f s a)) : ∀ s, Calm back s (l.foldl f s) := by
  induction l with
  | nil => exact Calm.refl
  | cons a l ih =>
      intro s
      have hhead := hf s a List.mem_cons_self
      exact hhead.trans (ih (fun s b hb => hf s b (List.mem_cons_of_mem a hb)) _)

theorem calm_resumes (l : List Handle) (hback : ∀ h ∈ l, back h) (s : State) :
    Calm back s (l.foldl State.resume s) :=
  calm_foldl l (fun _ h hh => calm_resume (hback h hh)) s

end Calm

section Guards

theorem calm_pauseIf (s : State) (cause : Cause) (p : Status → Bool) (h : Handle) :
    Calm back s (s.pauseIf cause p h) := by
  unfold State.pauseIf
  split_ifs
  · exact (calm_warm s h).trans (calm_pause _ cause h)
  · exact calm_warm s h

theorem calm_checkDiskPressure (w : World) (s : State) : Calm back s (s.checkDiskPressure w) := by
  unfold State.checkDiskPressure
  split_ifs
  · have hpaused : Calm back s (s.torrents.foldl
        (fun s h => s.pauseIf .diskPressure (fun st => st.downloads && !st.paused) h) s) :=
      calm_foldl _ (fun s h _ => calm_pauseIf s .diskPressure _ h) s
    exact hpaused.trans (calm_books (fun _ => id) rfl rfl rfl)
  · exact calm_books (fun _ => id) rfl rfl rfl
  · exact .refl s

theorem calm_fireKillSwitch (s : State) : Calm back s s.fireKillSwitch := by
  unfold State.fireKillSwitch
  have hbook : Calm back s { s with killSwitchActive := true, killSwitchPaused := [] } :=
    calm_books (fun _ => id) rfl rfl rfl
  refine hbook.trans (calm_foldl _ (fun s h _ => ?_) _)
  unfold State.fireOne
  split_ifs
  · exact (calm_pause s .killSwitch h).trans (calm_books (fun _ => id) rfl rfl rfl)
  · exact .refl s

theorem calm_releaseKillSwitch (hback : ∀ h ∈ s.killSwitchPaused, back h) :
    Calm back s s.releaseKillSwitch := by
  have hbook : Calm back s { s with killSwitchActive := false } :=
    calm_books (fun _ => id) rfl rfl rfl
  exact (hbook.trans (calm_resumes s.killSwitchPaused hback _)).trans
    (calm_books (fun _ => id) rfl rfl rfl)

theorem calm_restoreInterface (hback : ∀ h ∈ s.killSwitchPaused, back h) :
    Calm back s (s.restoreInterface w) := by
  have hreleased : Calm back s (State.setOutgoingInterface (w.nics.map Nic.toAdapter)
      s.net.outgoingInterface w.live { s with killSwitchActive := false }) := by
    have hbook : Calm back s { s with killSwitchActive := false } :=
      calm_books (fun _ => id) rfl rfl rfl
    exact (hbook.trans (calm_releaseKillSwitch hback)).trans (calm_books (fun _ => id) rfl rfl rfl)
  unfold State.restoreInterface
  dsimp only
  -- The setter has emptied the set by then.
  have hnone : ∀ h ∈ ([] : List Handle), back h := fun h hh => absurd hh List.not_mem_nil
  split_ifs
  · exact (hreleased.trans (calm_resumes [] hnone _)).trans (calm_books (fun _ => id) rfl rfl rfl)
  · exact hreleased.trans (calm_books (fun _ => id) rfl rfl rfl)

theorem calm_checkInterfaceStatus (s : State) (w : World) :
    Calm (fun h => s.Restores w ∧ h ∈ s.killSwitchPaused) s (s.checkInterfaceStatus w) := by
  obtain ⟨-, hlooked⟩ | ⟨hrestores, hlooked⟩ | ⟨-, -, hlooked⟩ := s.checkInterfaceStatus_cases w
  · exact hlooked ▸ calm_fireKillSwitch s
  · exact hlooked ▸ calm_restoreInterface fun h hh => ⟨hrestores, hh⟩
  · exact hlooked.symm ▸ .refl s

theorem calm_checkMissingFiles (w : World) (s : State) : Calm back s (s.checkMissingFiles w) := by
  have hseen : Calm back s ((s.torrents.filter s.valid).foldl State.warm s) :=
    calm_foldl _ (fun s h _ => calm_warm s h) s
  unfold State.checkMissingFiles
  dsimp only
  split_ifs
  · exact .refl s
  · exact hseen.trans (calm_books (fun _ => id) rfl rfl rfl)
  · exact hseen.trans (calm_books (fun _ => id) rfl rfl rfl)

theorem calm_pauseAll (s : State) (cause : Cause) : Calm back s (s.pauseAll cause) :=
  calm_foldl _ (fun s h _ => calm_pause s cause h) s

theorem calm_checkMemoryGuard (w : World) (s : State) : Calm back s (s.checkMemoryGuard w) := by
  unfold State.checkMemoryGuard
  split_ifs
  · have hbook : Calm back s { s with memWarnedAt := w.now } := calm_books (fun _ => id) rfl rfl rfl
    exact hbook.trans (calm_pauseAll _ .memoryGuard)
  · exact .refl s

theorem calm_pauseMissing (confirmed : List Text) (s : State) :
    Calm back s (s.pauseMissing confirmed) := by
  unfold State.pauseMissing
  split_ifs
  · exact .refl s
  · refine calm_foldl _ (fun s h _ => ?_) s
    unfold State.pauseMissingOne
    split_ifs
    · cases s.cachedStatus h with
      | none => exact .refl s
      | some st =>
          dsimp only
          split_ifs
          · exact ((calm_warm s h).trans (calm_pause _ .missingData h)).trans
              (calm_books (fun _ => id) rfl rfl rfl)
          · exact calm_warm s h
    · exact .refl s

theorem calm_probed (missing : List Text) (s : State) : Calm back s (s.probed missing) := by
  have hbooks : Calm back s { s with
      missingSeen := missing
      missingHashes := missing.filter (· ∈ s.missingSeen)
      missingPaused := s.missingPaused.filter (· ∈ missing.filter (· ∈ s.missingSeen)) } :=
    calm_books (fun _ => id) rfl rfl rfl
  exact (hbooks.trans (calm_pauseMissing (missing.filter (· ∈ s.missingSeen)) _)).trans
    (calm_books (fun _ => id) rfl rfl rfl)

theorem calm_noteTorrentFault (h : Handle) (now : Int) (s : State) :
    Calm back s (s.noteTorrentFault h now) := by
  unfold State.noteTorrentFault
  cases s.live h with
  | none => exact .refl s
  | some st =>
      dsimp only
      split_ifs
      all_goals first
        | exact calm_books (fun _ => id) rfl rfl rfl
        | exact (calm_pause s .fileError h).trans (calm_books (fun _ => id) rfl rfl rfl)

theorem calm_onFileError (h : Handle) (diskFull : Bool) (now : Int) (s : State) :
    Calm back s (s.onFileError h diskFull now) := by
  unfold State.onFileError
  dsimp only
  split_ifs
  · exact calm_foldl _ (fun s h _ => calm_pauseIf s .fileError _ h) s
  · exact (calm_pause s .fileError h).trans (calm_noteTorrentFault h now _)
  · exact calm_noteTorrentFault h now s

end Guards

section Queue

theorem calm_stampOf (s : State) (now : Int) (h : Handle) : Calm back s (s.stampOf now h) := by
  unfold State.stampOf
  cases s.cachedStatus h with
  | none => exact .refl s
  | some st =>
      unfold State.stamp
      dsimp only
      split_ifs
      · exact calm_books (fun _ => id) rfl rfl rfl
      · exact .refl s

theorem calm_seenBy (hback : ∀ h, back h) (now : Int) (h : Handle) :
    Calm back s (s.seenBy now h) := by
  have hwarm : Calm back s (s.warm h) := calm_warm s h
  unfold State.seenBy
  cases s.verdict now h with
  | unseen => exact .refl s
  | resume => exact hwarm.trans (calm_resume (hback h))
  | active => exact hwarm.trans (calm_stampOf _ now h)
  | stalled => exact hwarm.trans (calm_stampOf _ now h)
  | exempt => exact hwarm
  | queued => exact hwarm
  | other => exact hwarm

theorem calm_pass {f : State.Pass → Handle → State.Pass} (hf : ∀ p h, Calm back p.s (f p h).s)
    (l : List Handle) : ∀ p, Calm back p.s (l.foldl f p).s := by
  induction l with
  | nil => exact fun p => .refl p.s
  | cons h l ih => exact fun p => (hf p h).trans (ih _)

theorem calm_scanOne (hback : ∀ h, back h) (now : Int) (p : State.Pass) (h : Handle) :
    Calm back p.s (State.scanOne now p h).s := by
  rw [State.scanOne_spec]
  exact calm_seenBy hback now h

theorem calm_demote (p : State.Pass) (h : Handle) : Calm back p.s (State.demote p h).s :=
  (calm_pause p.s .queue h).trans (calm_books (fun _ => id) rfl rfl rfl)

theorem calm_promote (hback : ∀ h, back h) (p : State.Pass) (h : Handle) :
    Calm back p.s (State.promote p h).s :=
  (calm_resume (hback h)).trans (calm_books (fun _ => id) rfl rfl rfl)

theorem calm_queuePass (hback : ∀ h, back h) (now : Int) (s : State) :
    Calm back s (State.queuePass now s).s := by
  have hscan : Calm back s (State.scan now s).s :=
    calm_pass (calm_scanOne hback now) s.torrents ⟨s, [], [], [], []⟩
  unfold State.queuePass State.balance
  split_ifs
  · exact .refl s
  · exact hscan.trans (calm_pass calm_demote _ _)
  · exact hscan.trans (calm_pass (calm_promote hback) _ _)

-- The queue resumes those it forces and those it lets in.
theorem calm_enforceDownloadQueue (now : Int) (s : State) :
    Calm (fun h => 0 < s.maxActiveDownloads ∧
        (s.verdict now h = .resume ∨ h ∈ s.promotes now)) s (s.enforceDownloadQueue now) := by
  have hcalm : Calm (fun _ => True) s (State.queuePass now s).s :=
    calm_queuePass (fun _ => trivial) now s
  refine ⟨hcalm.torrents, hcalm.live, fun h _ hnot hp => ?_, hcalm.completed, hcalm.cached⟩
  by_cases hlimit : 0 < s.maxActiveDownloads
  · have hpassed := State.passed_queuePass hlimit now
    refine hpassed.keeps h ?_ hp
    rw [hpassed.resumed]
    rintro (⟨-, hv⟩ | hpromoted)
    · exact hnot ⟨hlimit, .inl hv⟩
    · exact hnot ⟨hlimit, .inr hpromoted⟩
  · have hpass : s.enforceDownloadQueue now = s := by
      rw [State.enforceDownloadQueue, State.queuePass, if_pos (by omega)]
    rwa [hpass]

end Queue

section Calls

theorem calm_onRow {f : State → Handle → State} {i : Nat}
    (hf : ∀ g, s.torrents[i]? = some g → Calm back s (f s g)) : Calm back s (s.onRow i f) := by
  unfold State.onRow
  cases hi : s.torrents[i]? with
  | none => exact .refl s
  | some g =>
      dsimp only
      split_ifs
      · exact hf g hi
      · exact .refl s

theorem calm_setForceStart (i : Nat) (on : Bool) :
    Calm (Thaws s (.setForceStart i on)) s (s.setForceStart i on) := by
  unfold State.setForceStart
  cases hi : s.torrents[i]? with
  | none => exact .refl s
  | some g =>
      dsimp only
      cases hhash : s.torrentHash g with
      | none => exact calm_warm s g
      | some hash =>
          dsimp only
          split_ifs with hon
          · have hbook : Calm (Thaws s (.setForceStart i on)) s { s.warm g with
                forceStartHashes := s.forceStartHashes.insert hash } :=
              (calm_warm s g).trans (calm_books (fun _ => id) rfl rfl rfl)
            have hthaws : Thaws s (.setForceStart i on) g := ⟨hon, hi, by rw [hhash]; rfl⟩
            exact (hbook.trans (calm_resume hthaws)).trans (calm_books (fun _ => id) rfl rfl rfl)
          · exact (calm_warm s g).trans (calm_books (fun _ => id) rfl rfl rfl)

theorem calm_removeTorrent (i : Nat) (s : State) : Calm back s (s.removeTorrent i) := by
  unfold State.removeTorrent
  cases hi : s.torrents[i]? with
  | none => exact .refl s
  | some h =>
      have herased : ∀ g ∈ s.torrents.eraseIdx i, g ∈ s.torrents :=
        fun g hg => List.mem_of_mem_eraseIdx hg
      dsimp only
      cases s.live h with
      | none => exact calm_books herased rfl rfl rfl
      | some st =>
          have hne (g : Handle) (hg : g ∈ s.torrents.eraseIdx i) : g ≠ h :=
            fun heq => notMem_eraseIdx s.distinct hi (heq ▸ hg)
          dsimp only [State.forget]
          refine ⟨herased, fun g hg => ?_, fun g hg _ hp => ?_, fun _ hm => (List.mem_filter.mp hm).1,
            fun g hg st hst => .inl ?_⟩
          · simp [hne g hg]
          · simpa [State.pausedNow, hne g hg] using hp
          · simpa [hne g hg] using hst

theorem calm_onTorrentFinished (h : Handle) (s : State) : Calm back s (s.onTorrentFinished h) := by
  unfold State.onTorrentFinished
  cases s.live h with
  | none => exact .refl s
  | some st =>
      dsimp only
      split_ifs
      · exact (calm_pause s .stopAfterDownload h).trans (calm_books (fun _ => id) rfl rfl rfl)
      · exact calm_books (fun _ => id) rfl rfl rfl

theorem calm_onTorrentChecked (h : Handle) (s : State) : Calm back s (s.onTorrentChecked h) := by
  unfold State.onTorrentChecked
  split_ifs
  · refine calm_cached (fun g _ st hst => ?_) rfl rfl rfl
    by_cases hgh : g = h
    · subst hgh
      have hlive : s.live g = some st := by simpa using hst
      exact .inr (agrees_live hlive)
    · exact .inl (by simpa [hgh] using hst)
  · exact .refl s

theorem calm_forceRecheck (i : Nat) (s : State) : Calm back s (s.forceRecheck i) := by
  refine calm_onRow fun h _ => calm_cached (fun g _ st hst => .inl ?_) rfl rfl rfl
  by_cases hgh : g = h
  · subst hgh
    simp at hst
  · simpa [hgh] using hst

theorem calm_progress (hsame : (s.live h).all fun old =>
      old.hash = st.hash && old.hasMetadata = st.hasMetadata) : Calm back s (s.progress h st) := by
  refine ⟨fun _ => id, fun g _ => ?_, fun g _ _ hp => ?_, fun _ => id, fun _ _ _ => .inl⟩
  · unfold State.progress
    by_cases hgh : g = h
    · subst hgh
      cases hlive : s.live g with
      | none => simp
      | some old =>
          have hident : old.hash = st.hash ∧ old.hasMetadata = st.hasMetadata := by
            simpa [hlive] using hsame
          simp [ident, hident]
    · simp [hgh]
  · have hsteady : State.Steady (fun _ => False) { s with killSwitchActive := true }
        (State.progress h st { s with killSwitchActive := true }) := State.steady_progress h st _
    exact hsteady.paused g id rfl hp

-- The cache after a batch: what it was, or a status of the batch.
theorem onStateUpdate_cached (sts : List (Handle × Status)) (s : State) :
    (s.onStateUpdate sts).statusCache h = some st →
      s.statusCache h = some st ∨ (h, st) ∈ sts := by
  unfold State.onStateUpdate
  dsimp only
  generalize s.statusCache = cache
  induction sts generalizing cache with
  | nil => exact .inl
  | cons p sts ih =>
      intro hst
      rcases ih _ hst with hst | hmem
      · by_cases hgh : h = p.1
        · subst hgh
          have hp : p.2 = st := by simpa using hst
          exact .inr (hp ▸ List.mem_cons_self)
        · exact .inl (by simpa [hgh] using hst)
      · exact .inr (List.mem_cons_of_mem p hmem)

-- The calls that neither mark a torrent nor bring one.
def Plain : Event → Prop
  | .tick _ => False
  | .markCompleted _ => False
  | .unmarkCompleted _ => False
  | .resumeTorrent _ => False
  | .addTorrent _ _ _ => False
  | _ => True

theorem had_iff {s : Session} : s.had h st = true ↔ Agrees s.toState h st := by
  unfold Session.had Agrees
  cases s.live h with
  | none => simp
  | some live =>
      cases st.hasMetadata <;> simp

theorem calm_step {s : Session} {e : Event} (hplain : Plain e) (hadmits : s.admits e = true)
    (hstep : Pausing.step s.toState e = some s') : Calm (Thaws s.toState e) s.toState s' := by
  cases e with
  | tick w => exact hplain.elim
  | markCompleted i => exact hplain.elim
  | unmarkCompleted i => exact hplain.elim
  | resumeTorrent i => exact hplain.elim
  | addTorrent h st magnetHash => exact hplain.elim
  | pauseTorrent i =>
      obtain rfl := Option.some.inj hstep
      exact calm_onRow fun g _ => calm_pause s.toState .user g
  | stopSeedingTorrent i =>
      obtain rfl := Option.some.inj hstep
      exact calm_onRow fun g _ => calm_pause s.toState .user g
  | pauseAll =>
      obtain rfl := Option.some.inj hstep
      exact calm_pauseAll s.toState .user
  | resumeAll =>
      obtain rfl := Option.some.inj hstep
      exact calm_resumes (s.torrents.filter s.valid) (fun _ _ => trivial) s.toState
  | setForceStart i on =>
      obtain rfl := Option.some.inj hstep
      exact calm_setForceStart i on
  | setOutgoingInterface adapters name live =>
      obtain rfl := Option.some.inj hstep
      exact (calm_releaseKillSwitch fun _ hh => hh).trans (calm_books (fun _ => id) rfl rfl rfl)
  | setKillSwitchEnabled enabled =>
      obtain rfl := Option.some.inj hstep
      unfold State.setKillSwitchEnabled
      dsimp only
      have hset : Calm (Thaws s.toState (.setKillSwitchEnabled enabled)) s.toState
          { s.toState with killSwitchEnabled := enabled } := calm_books (fun _ => id) rfl rfl rfl
      split_ifs with henabled
      · exact hset
      · exact hset.trans (calm_releaseKillSwitch fun h hh => ⟨by simpa using henabled, hh⟩)
  | setVpnProxy adapters port user pass live =>
      obtain rfl := Option.some.inj hstep
      unfold State.setVpnProxy
      dsimp only
      split_ifs with hoff
      · exact (calm_releaseKillSwitch fun h hh => ⟨hoff, hh⟩).trans
          (calm_books (fun _ => id) rfl rfl rfl)
      · exact calm_books (fun _ => id) rfl rfl rfl
  | removeTorrent i =>
      obtain rfl := Option.some.inj hstep
      exact calm_removeTorrent i s.toState
  | forceRecheck i =>
      obtain rfl := Option.some.inj hstep
      exact calm_forceRecheck i s.toState
  | setTorrentQueuePosition i position =>
      obtain rfl := Option.some.inj hstep
      unfold State.setTorrentQueuePosition
      split_ifs with hrows
      · exact calm_books (fun g => (moveRow_perm hrows.1 hrows.2.1).mem_iff.mp) rfl rfl rfl
      · exact .refl _
  | setTorrentMaxSeedSeconds i seconds =>
      obtain rfl := Option.some.inj hstep
      unfold State.setTorrentMaxSeedSeconds
      split
      · exact .refl _
      · split
        · exact calm_warm s.toState _
        · exact (calm_warm s.toState _).trans (calm_books (fun _ => id) rfl rfl rfl)
  | setTorrentStopAfterDownload i value =>
      obtain rfl := Option.some.inj hstep
      unfold State.setTorrentStopAfterDownload
      split
      · exact .refl _
      · split
        · exact calm_warm s.toState _
        · exact (calm_warm s.toState _).trans (calm_books (fun _ => id) rfl rfl rfl)
  | progress h st =>
      obtain rfl := Option.some.inj hstep
      exact calm_progress hadmits
  | stateUpdate sts =>
      obtain rfl := Option.some.inj hstep
      refine calm_cached (fun h _ st hst => ?_) rfl rfl rfl
      refine (onStateUpdate_cached sts s.toState hst).imp_right fun hmem => ?_
      exact had_iff.mp (List.all_eq_true.mp hadmits (h, st) hmem)
  | torrentChecked h =>
      obtain rfl := Option.some.inj hstep
      exact calm_onTorrentChecked h s.toState
  | torrentFinished h =>
      obtain rfl := Option.some.inj hstep
      exact calm_onTorrentFinished h s.toState
  | torrentError h now =>
      obtain rfl := Option.some.inj hstep
      exact calm_noteTorrentFault h now s.toState
  | fileError h diskFull now =>
      obtain rfl := Option.some.inj hstep
      exact calm_onFileError h diskFull now s.toState
  | probed missing =>
      simp only [Pausing.step] at hstep
      split_ifs at hstep
      obtain rfl := Option.some.inj hstep
      exact calm_probed missing s.toState
  | _ =>
      obtain rfl := Option.some.inj hstep
      exact calm_books (fun _ => id) rfl rfl rfl

end Calls

section Invariant

-- What makes the set and the flags speak of the same torrents, and what they say in a run whose
-- calls take care.
structure Inv (careful : Prop) (s : Session) : Prop where
  agrees : ∀ h ∈ s.torrents, ∀ st, s.statusCache h = some st → Agrees s.toState h st
  alone : ∀ h ∈ s.torrents, ∀ g ∈ s.torrents, ∀ st st', s.live h = some st → s.live g = some st' →
    st.hash = st'.hash → h = g
  frozen : careful → Frozen s

variable {careful : Prop} {s s' : Session} {t t' : State}

theorem completed_iff : completed t h = true ↔ ∃ st, t.live h = some st ∧ st.hash ∈ t.completedTorrents := by
  unfold completed
  cases t.live h <;> simp

theorem Calm.live_of (hc : Calm back t t') (hh : h ∈ t'.torrents) (hlive : t'.live h = some st) :
    ∃ old, t.live h = some old ∧ old.hash = st.hash := by
  have hsame := hc.live h hh
  rw [hlive, Option.map_some] at hsame
  obtain ⟨old, hold, hident⟩ := Option.map_eq_some_iff.mp hsame.symm
  exact ⟨old, hold, (Prod.mk.inj hident).1⟩

theorem Calm.completed_of (hc : Calm back t t') (hh : h ∈ t'.torrents)
    (hcompleted : Completion.completed t' h = true) : Completion.completed t h = true := by
  obtain ⟨st, hlive, hmem⟩ := completed_iff.mp hcompleted
  obtain ⟨old, hold, hhash⟩ := hc.live_of hh hlive
  exact completed_iff.mpr ⟨old, hold, hhash ▸ hc.completed _ hmem⟩

theorem Inv.calm (hinv : Inv careful s) (hc : Calm back s.toState t)
    (hback : careful → ∀ h ∈ s.torrents, back h → completed s.toState h = false) :
    Inv careful { s with toState := t } where
  agrees h hh st hst := by
    have hagrees : Agrees s.toState h st := by
      rcases hc.cached h hh st hst with hst | hagrees
      · exact hinv.agrees h (hc.torrents h hh) st hst
      · exact hagrees
    exact hagrees.of_ident (hc.live h hh).symm
  alone h hh g hg st st' hst hst' hhash := by
    obtain ⟨old, hold, heq⟩ := hc.live_of hh hst
    obtain ⟨old', hold', heq'⟩ := hc.live_of hg hst'
    exact hinv.alone h (hc.torrents h hh) g (hc.torrents g hg) old old' hold hold'
      ((heq.trans hhash).trans heq'.symm)
  frozen hcareful h hh hcompleted := by
    have hmarked := hc.completed_of hh hcompleted
    obtain ⟨hpaused, hzero⟩ := hinv.frozen hcareful h (hc.torrents h hh) hmarked
    refine ⟨hc.paused h hh (fun hb => ?_) hpaused, hzero⟩
    exact absurd (hmarked.symm.trans (hback hcareful h (hc.torrents h hh) hb)) (by decide)

theorem Inv.quiet (hinv : Inv careful s) (hc : Calm (fun _ => False) s.toState t) :
    Inv careful { s with toState := t } := hinv.calm hc fun _ _ _ hb => hb.elim

-- Priorities may be set where the torrent is not completed, or to leave its files out.
theorem Inv.prioritize (hinv : Inv careful s) (priorities : Handle → List Nat)
    (hkept : careful → ∀ h ∈ s.torrents, completed s.toState h = true →
      priorities h = s.priorities h ∨ ∀ priority ∈ priorities h, priority = dontDownload) :
    Inv careful { s with priorities := priorities } where
  agrees := hinv.agrees
  alone := hinv.alone
  frozen hcareful h hh hcompleted := by
    obtain ⟨hpaused, hzero⟩ := hinv.frozen hcareful h hh hcompleted
    refine ⟨hpaused, ?_⟩
    rcases hkept hcareful h hh hcompleted with hsame | hout
    · exact fun priority hmem => hzero priority (hsame ▸ hmem)
    · exact hout

-- A hash may be marked once its torrents are frozen.
theorem Inv.mark (hinv : Inv careful s) (hash : Text) (hready : ∀ h ∈ s.torrents, ∀ st, s.live h = some st →
      st.hash = hash → s.pausedNow h = true ∧ ∀ priority ∈ s.priorities h, priority = dontDownload) :
    Inv careful { s with completedTorrents := hash :: s.completedTorrents } where
  agrees := hinv.agrees
  alone := hinv.alone
  frozen hcareful h hh hcompleted := by
    obtain ⟨st, hlive, hmem⟩ := completed_iff.mp hcompleted
    rcases List.mem_cons.mp hmem with heq | hmem
    · exact hready h hh st hlive heq
    · exact hinv.frozen hcareful h hh (completed_iff.mpr ⟨st, hlive, hmem⟩)

theorem Inv.agrees_cachedStatus (hinv : Inv careful s) (hh : h ∈ s.torrents)
    (hst : s.cachedStatus h = some st) : Agrees s.toState h st := by
  rw [State.cachedStatus] at hst
  cases hcache : s.statusCache h with
  | none =>
      rw [hcache, Option.none_or] at hst
      exact agrees_live hst
  | some old =>
      rw [hcache, Option.some_or] at hst
      exact hinv.agrees h hh st (hcache.trans hst)

end Invariant

section Mark

variable {careful : Prop} {s : Session} {t : State}

theorem prioritizeFiles_of_hasMetadata (priority : Nat)
    (hmetadata : (s.live h).any (·.hasMetadata) = true) :
    s.prioritizeFiles priority h = { s with
      priorities := Function.update s.priorities h ((s.priorities h).map fun _ => priority) } :=
  if_pos hmetadata

theorem markCompleted_of_new (hvalid : t.valid h = true) (hst : t.cachedStatus h = some st)
    (hmetadata : st.hasMetadata = true) (hnew : st.hash ∉ t.completedTorrents) :
    t.markCompleted h = { (t.warm h).pause .completed h with
      completedTorrents := st.hash :: t.completedTorrents } := by
  unfold State.markCompleted
  simp only [hvalid, hst, hmetadata, hnew, not_true_eq_false, or_self, if_false]
  rfl

theorem calm_markCompleted (hold : ¬ (t.valid h = true ∧ ((t.cachedStatus h).any fun st =>
      st.hasMetadata && decide (st.hash ∉ t.completedTorrents)) = true)) :
    Calm back t (t.markCompleted h) := by
  unfold State.markCompleted
  by_cases hvalid : t.valid h = true
  · cases hst : t.cachedStatus h with
    | none => simpa [hvalid] using Calm.refl t
    | some st =>
        have hkept : ¬ st.hasMetadata = true ∨ st.hash ∈ t.completedTorrents := by
          by_contra hnew
          push Not at hnew
          exact hold ⟨hvalid, by simp [hst, hnew]⟩
        simp only [hvalid, not_true_eq_false, if_false, if_pos hkept]
        exact calm_warm t h
  · simpa [hvalid] using Calm.refl t

theorem Inv.markCompleted (hinv : Inv careful s) (hh : h ∈ s.torrents) :
    Inv careful (s.markCompleted h) := by
  unfold Session.markCompleted
  split_ifs with hmarks
  · obtain ⟨hvalid, hany⟩ := hmarks
    obtain ⟨st, hst, hboth⟩ := (Option.any_eq_true ..).mp hany
    obtain ⟨hmetadata, hnew⟩ : st.hasMetadata = true ∧ st.hash ∉ s.completedTorrents := by
      simpa using hboth
    obtain ⟨live, hlive⟩ := Option.isSome_iff_exists.mp hvalid
    obtain ⟨hhas, hhash⟩ := hinv.agrees_cachedStatus hh hst live hlive hmetadata
    have hfiles : (s.live h).any (·.hasMetadata) = true := by rw [hlive]; exact hhas
    rw [prioritizeFiles_of_hasMetadata dontDownload hfiles,
      markCompleted_of_new hvalid hst hmetadata hnew]
    -- The torrent is paused and its files left out, and then the hash is entered.
    have hpaused := hinv.quiet ((calm_warm s.toState h).trans (calm_pause _ .completed h))
    have hout := hpaused.prioritize
      (Function.update s.priorities h ((s.priorities h).map fun _ => dontDownload))
      fun _ g _ _ => by
        by_cases hgh : g = h
        · subst hgh
          exact .inr (by simp)
        · exact .inl (by simp [hgh])
    refine hout.mark st.hash fun g hg st' hlive' heq => ?_
    have hcalm : Calm (fun _ => False) (s.warm h) ((s.warm h).pause .completed h) :=
      calm_pause _ .completed h
    obtain ⟨old, hold, hsame⟩ := hcalm.live_of hg hlive'
    have hgh : g = h := hinv.alone g hg h hh old live hold hlive ((hsame.trans heq).trans hhash.symm)
    subst hgh
    refine ⟨(State.setPaused_pausedNow _ g true).trans ?_, by simp⟩
    exact (Bool.and_true _).trans hvalid
  · exact hinv.quiet (calm_markCompleted hmarks)

theorem unmarkCompleted_of_marked (hst : t.cachedStatus h = some st)
    (hmetadata : st.hasMetadata = true) (hmarked : st.hash ∈ t.completedTorrents) :
    t.unmarkCompleted h = { t.warm h with
      completedTorrents := t.completedTorrents.filter (· ≠ st.hash) }.resume h := by
  unfold State.unmarkCompleted
  simp only [hst, hmetadata, hmarked, and_self, if_true]

theorem unmarkCompleted_torrents (t : State) (h : Handle) :
    (t.unmarkCompleted h).torrents = t.torrents := by
  unfold State.unmarkCompleted
  cases t.cachedStatus h with
  | none => rfl
  | some st =>
      dsimp only
      split_ifs <;> rfl

theorem calm_unmarkCompleted (hold : ¬ ((t.cachedStatus h).any fun st =>
      st.hasMetadata && decide (st.hash ∈ t.completedTorrents)) = true) :
    Calm back t (t.unmarkCompleted h) := by
  unfold State.unmarkCompleted
  cases hst : t.cachedStatus h with
  | none => exact .refl t
  | some st =>
      have hkept : ¬ (st.hasMetadata = true ∧ st.hash ∈ t.completedTorrents) := by
        intro hmarked
        exact hold (by simp [hst, hmarked])
      simp only [if_neg hkept]
      exact calm_warm t h

theorem calm_unmark (t : State) (h : Handle) (hash : Text) : Calm back t { t.warm h with
    completedTorrents := t.completedTorrents.filter (· ≠ hash) } :=
  (calm_warm t h).trans ⟨fun _ => id, fun _ _ => rfl, fun _ _ _ => id,
    fun _ hmem => (List.mem_filter.mp hmem).1, fun _ _ _ => .inl⟩

-- With its hash out of the set a torrent is completed no more.
theorem Inv.not_completed (hinv : Inv careful s) (hh : h ∈ s.torrents)
    (hst : s.cachedStatus h = some st) (hmetadata : st.hasMetadata = true) :
    completed { s.warm h with
      completedTorrents := s.completedTorrents.filter (· ≠ st.hash) } h = false := by
  refine Bool.eq_false_iff.mpr fun hcompleted => ?_
  obtain ⟨live, hlive, hleft⟩ := completed_iff.mp hcompleted
  obtain ⟨-, hhash⟩ := hinv.agrees_cachedStatus hh hst live hlive hmetadata
  simp [hhash] at hleft

theorem Inv.unmarkCompleted (hinv : Inv careful s) (hh : h ∈ s.torrents) :
    Inv careful (s.unmarkCompleted h) := by
  unfold Session.unmarkCompleted
  split_ifs with hmarked
  · obtain ⟨st, hst, hboth⟩ := (Option.any_eq_true ..).mp hmarked
    obtain ⟨hmetadata, hmem⟩ : st.hasMetadata = true ∧ st.hash ∈ s.completedTorrents := by
      simpa using hboth
    rw [unmarkCompleted_of_marked hst hmetadata hmem]
    have hfree := hinv.quiet (calm_unmark s.toState h st.hash)
    have hlost := hinv.not_completed hh hst hmetadata
    have hthawed := hfree.prioritize (s.prioritizeFiles defaultPriority h).priorities
      fun _ g _ hcompleted => .inl ?_
    · have hresumed : Calm (· = h) { s.warm h with
          completedTorrents := s.completedTorrents.filter (· ≠ st.hash) } _ := calm_resume rfl
      exact hthawed.calm hresumed fun _ g _ hg => hg ▸ hlost
    · have hgh : g ≠ h := by
        rintro rfl
        exact absurd (hcompleted.symm.trans hlost) (by decide)
      unfold Session.prioritizeFiles
      split_ifs
      · simp [hgh]
      · rfl
  · exact hinv.quiet (calm_unmarkCompleted hmarked)

-- What the session knows of a torrent frees it.
theorem Inv.completed_unmarkCompleted (hinv : Inv careful s) (hh : h ∈ s.torrents)
    (hknown : completed s.toState h = true → (s.cachedStatus h).any (·.hasMetadata) = true) :
    completed (s.toState.unmarkCompleted h) h = false := by
  refine Bool.eq_false_iff.mpr fun hcompleted => ?_
  by_cases hmarked : ((s.cachedStatus h).any fun st =>
      st.hasMetadata && decide (st.hash ∈ s.completedTorrents)) = true
  · obtain ⟨st, hst, hboth⟩ := (Option.any_eq_true ..).mp hmarked
    obtain ⟨hmetadata, hmem⟩ : st.hasMetadata = true ∧ st.hash ∈ s.completedTorrents := by
      simpa using hboth
    rw [unmarkCompleted_of_marked hst hmetadata hmem] at hcompleted
    have hresumed : Calm (· = h) { s.warm h with
        completedTorrents := s.completedTorrents.filter (· ≠ st.hash) } _ := calm_resume rfl
    have hlost := hinv.not_completed hh hst hmetadata
    exact absurd ((hresumed.completed_of hh hcompleted).symm.trans hlost) (by decide)
  · have hkept : Calm (fun _ => False) s.toState (s.toState.unmarkCompleted h) :=
      calm_unmarkCompleted hmarked
    have hrows : (s.toState.unmarkCompleted h).torrents = s.torrents :=
      unmarkCompleted_torrents s.toState h
    have hearlier := hkept.completed_of (hrows ▸ hh) hcompleted
    obtain ⟨st, hst, hmetadata⟩ := (Option.any_eq_true ..).mp (hknown hearlier)
    obtain ⟨live, hlive, hmem⟩ := completed_iff.mp hearlier
    obtain ⟨-, hhash⟩ := hinv.agrees_cachedStatus hh hst live hlive hmetadata
    exact hmarked (by simp [hst, hmetadata, ← hhash, hmem])

end Mark

section Tick

variable {careful : Prop} {s : Session}

@[simp] theorem markCompleted_toState (s : Session) (h : Handle) :
    (s.markCompleted h).toState = s.toState.markCompleted h := by
  unfold Session.markCompleted
  split_ifs <;> rfl

@[simp] theorem unmarkCompleted_toState (s : Session) (h : Handle) :
    (s.unmarkCompleted h).toState = s.toState.unmarkCompleted h := by
  unfold Session.unmarkCompleted
  split_ifs <;> rfl

-- The session that goes through the seeds is the one with files, less its files.
theorem checkSeeds_toState (due : Status → Bool) (s : Session) :
    (s.checkSeeds due).toState = s.toState.checkSeeds due := by
  unfold Session.checkSeeds State.checkSeeds
  generalize s.torrents = l
  induction l generalizing s with
  | nil => rfl
  | cons h l ih =>
      rw [List.foldl_cons, List.foldl_cons, ih]
      split_ifs
      · rw [markCompleted_toState]
      · rfl

theorem checkSeedRatios_toState (s : Session) :
    s.checkSeedRatios.toState = s.toState.checkSeedRatios := by
  unfold Session.checkSeedRatios State.checkSeedRatios
  cases s.seedRatio with
  | none => rfl
  | some reached => exact checkSeeds_toState _ s

theorem checkSeedingLimits_toState (s : Session) :
    s.checkSeedingLimits.toState = s.toState.checkSeedingLimits := checkSeeds_toState _ s

theorem checkAutoComplete_toState (s : Session) :
    s.checkAutoComplete.toState = s.toState.checkAutoComplete := by
  unfold Session.checkAutoComplete State.checkAutoComplete
  split_ifs
  · rfl
  · exact checkSeeds_toState _ s

theorem Inv.checkSeeds (hinv : Inv careful s) (due : Status → Bool) :
    Inv careful (s.checkSeeds due) := by
  unfold Session.checkSeeds
  obtain ⟨l, hl⟩ : ∃ l, s.torrents = l := ⟨_, rfl⟩
  have hrows : ∀ h ∈ l, h ∈ s.torrents := fun h hh => hl.symm ▸ hh
  rw [hl]
  clear hl
  induction l generalizing s with
  | nil => exact hinv
  | cons h l ih =>
      rw [List.foldl_cons]
      obtain ⟨hh, hl⟩ := List.forall_mem_cons.mp hrows
      have hwarm : Inv careful { s with toState := s.warm h } := hinv.quiet (calm_warm s.toState h)
      split_ifs
      · refine ih (hwarm.markCompleted hh) fun g hg => ?_
        rw [markCompleted_toState, (State.guarded_markCompleted _ h).frame.torrents]
        exact hl g hg
      · exact ih hwarm hl

theorem Inv.checkSeedRatios (hinv : Inv careful s) : Inv careful s.checkSeedRatios := by
  unfold Session.checkSeedRatios
  cases s.seedRatio with
  | none => exact hinv
  | some reached => exact hinv.checkSeeds _

theorem Inv.checkAutoComplete (hinv : Inv careful s) : Inv careful s.checkAutoComplete := by
  unfold Session.checkAutoComplete
  split_ifs
  · exact hinv
  · exact hinv.checkSeeds _

theorem Inv.tick (hinv : Inv careful s) (hspares : careful → Spares s (.session (.tick w))) :
    Inv careful { toState := s.toState.updateStats w, priorities := s.prioritiesAfter (.tick w) } := by
  have hseeds : Inv careful s.checkSeedRatios.checkSeedingLimits.checkAutoComplete :=
    (hinv.checkSeedRatios.checkSeeds _).checkAutoComplete
  have hbase : s.checkSeedRatios.checkSeedingLimits.checkAutoComplete.toState =
      s.toState.checkSeedRatios.checkSeedingLimits.checkAutoComplete := by
    rw [checkAutoComplete_toState, checkSeedingLimits_toState, checkSeedRatios_toState]
  have hdisk := hseeds.quiet (calm_checkDiskPressure w _)
  rw [hbase] at hdisk
  have hfirst := (State.guarded_beforeInterface w s.toState).frame.torrents
  have hlooked := hdisk.calm (calm_checkInterfaceStatus (s.beforeInterface w) w)
    fun hcareful h hh hb => (hspares hcareful).1 h (hfirst ▸ hh) hb
  have hlater : Calm (fun _ => False) ((s.beforeInterface w).checkInterfaceStatus w)
      (s.beforeQueue w) := (calm_checkMissingFiles w _).trans (calm_checkMemoryGuard w _)
  refine (hlooked.quiet hlater).calm (calm_enforceDownloadQueue w.now (s.beforeQueue w)) ?_
  intro hcareful h hh hb
  have hearlier := (calm_checkInterfaceStatus (s.beforeInterface w) w).torrents h
    (hlater.torrents h hh)
  exact (hspares hcareful).2 h (hfirst ▸ hearlier) hb

end Tick

section Step

variable {careful : Prop} {s s' : Session}

theorem Inv.onRow (hinv : Inv careful s) {f : Session → Handle → Session} {i : Nat}
    (hf : ∀ h ∈ s.torrents, Inv careful (f s h)) : Inv careful (s.onRow i f) := by
  unfold Session.onRow
  cases hi : s.torrents[i]? with
  | none => exact hinv
  | some h =>
      dsimp only
      split_ifs
      · exact hf h (List.mem_of_getElem? hi)
      · exact hinv

theorem onRow_toState {f : Session → Handle → Session} {f' : State → Handle → State}
    (hf : ∀ s h, (f s h).toState = f' s.toState h) (s : Session) (i : Nat) :
    (s.onRow i f).toState = s.toState.onRow i f' := by
  unfold Session.onRow State.onRow
  cases s.torrents[i]? with
  | none => rfl
  | some h =>
      dsimp only
      split_ifs
      · exact hf s h
      · rfl

theorem Inv.resumeTorrent (hinv : Inv careful s) (i : Nat)
    (hspares : careful → Spares s (.session (.resumeTorrent i))) :
    Inv careful { toState := s.toState.resumeTorrent i,
                  priorities := (s.onRow i Session.unmarkCompleted).priorities } := by
  unfold State.resumeTorrent State.onRow Session.onRow
  cases hi : s.torrents[i]? with
  | none => exact hinv
  | some h =>
      have hh : h ∈ s.torrents := List.mem_of_getElem? hi
      dsimp only
      split_ifs
      · have hfree := hinv.unmarkCompleted hh
        have hresumed : Calm (· = h) (s.unmarkCompleted h).toState
            ((s.toState.unmarkCompleted h).resume h) := by
          rw [unmarkCompleted_toState]
          exact calm_resume rfl
        refine hfree.calm hresumed fun hcareful g _ hg => ?_
        subst hg
        rw [unmarkCompleted_toState]
        refine hinv.completed_unmarkCompleted hh fun hcompleted => ?_
        by_contra hunknown
        have hthaws : Thaws s.toState (.resumeTorrent i) g := ⟨hi, by simpa using hunknown⟩
        exact absurd (hcompleted.symm.trans (hspares hcareful g hh hthaws)) (by decide)
      · exact hinv

theorem Inv.setFilePriority (hinv : Inv careful s) (i file : Nat) (priority : Int)
    (hspares : careful → Spares s (.setFilePriority i file priority)) :
    Inv careful (s.setFilePriority i file priority) := by
  unfold Session.setFilePriority Session.onRow
  cases hi : s.torrents[i]? with
  | none => exact hinv
  | some h =>
      dsimp only
      split_ifs
      · refine hinv.prioritize _ fun hcareful g hg hcompleted => ?_
        by_cases hgh : g = h
        · subst hgh
          rcases hspares hcareful with hout | hnone
          · refine .inr fun p hp => ?_
            rw [Function.update_self] at hp
            rcases List.mem_or_eq_of_mem_set hp with hold | rfl
            · exact (hinv.frozen hcareful g hg hcompleted).2 p hold
            · exact hout
          · exact absurd (hcompleted.symm.trans (hnone g hi)) (by decide)
        · exact .inl (by simp [hgh])
      · exact hinv
      · exact hinv

theorem alone_iff : s.alone h st = true ↔
    ∀ g ∈ s.torrents, g ≠ h → ∀ st', s.live g = some st' → st'.hash ≠ st.hash := by
  unfold Session.alone
  simp only [List.all_eq_true, Bool.or_eq_true, decide_eq_true_eq]
  refine forall₂_congr fun g _ => ?_
  cases s.live g with
  | none => simp
  | some st' => by_cases hgh : g = h <;> simp [hgh]

-- One torrent is new, or its metadata is.
theorem Inv.bring (hinv : Inv careful s) (st : Status) {t : State} {priorities : List Nat}
    (htorrents : ∀ g ∈ t.torrents, g = h ∨ g ∈ s.torrents)
    (hlive : t.live = Function.update s.live h (some st))
    (hcompleted : t.completedTorrents = s.completedTorrents) (hcache : t.statusCache = s.statusCache)
    (hnew : h ∈ t.torrents → ∀ old, s.statusCache h = some old → old.hasMetadata = false)
    (halone : s.alone h st = true)
    (hfrozen : careful → st.hash ∈ s.completedTorrents →
      st.paused = true ∧ ∀ priority ∈ priorities, priority = dontDownload) :
    Inv careful { toState := t, priorities := Function.update s.priorities h priorities } := by
  have hself : t.live h = some st := by rw [hlive, Function.update_self]
  have hother (g : Handle) (hgh : g ≠ h) : t.live g = s.live g := by
    rw [hlive, Function.update_of_ne hgh]
  have hrow (g : Handle) (hg : g ∈ t.torrents) (hgh : g ≠ h) : g ∈ s.torrents :=
    (htorrents g hg).resolve_left hgh
  rw [alone_iff] at halone
  constructor
  · intro g hg st' hst live hlive' hmetadata
    rw [hcache] at hst
    by_cases hgh : g = h
    · subst hgh
      rw [hnew hg st' hst] at hmetadata
      exact absurd hmetadata (by decide)
    · exact hinv.agrees g (hrow g hg hgh) st' hst live ((hother g hgh).symm.trans hlive') hmetadata
  · intro g hg g' hg' st₁ st₂ hst₁ hst₂ hhash
    by_cases hgh : g = h
    · by_cases hgh' : g' = h
      · exact hgh.trans hgh'.symm
      · subst hgh
        obtain rfl := Option.some.inj (hself.symm.trans hst₁)
        exact absurd hhash.symm
          (halone g' (hrow g' hg' hgh') hgh' st₂ ((hother g' hgh').symm.trans hst₂))
    · by_cases hgh' : g' = h
      · subst hgh'
        obtain rfl := Option.some.inj (hself.symm.trans hst₂)
        exact absurd hhash (halone g (hrow g hg hgh) hgh st₁ ((hother g hgh).symm.trans hst₁))
      · exact hinv.alone g (hrow g hg hgh) g' (hrow g' hg' hgh') st₁ st₂
          ((hother g hgh).symm.trans hst₁) ((hother g' hgh').symm.trans hst₂) hhash
  · intro hcareful g hg hmarked
    obtain ⟨live, hlive', hmem⟩ := completed_iff.mp hmarked
    rw [hcompleted] at hmem
    by_cases hgh : g = h
    · subst hgh
      obtain rfl := Option.some.inj (hself.symm.trans hlive')
      obtain ⟨hpaused, hzero⟩ := hfrozen hcareful hmem
      refine ⟨?_, by simpa using hzero⟩
      rw [State.pausedNow, hself]
      exact hpaused
    · have hold := hinv.frozen hcareful g (hrow g hg hgh)
        (completed_iff.mpr ⟨live, (hother g hgh).symm.trans hlive', hmem⟩)
      refine ⟨?_, by simpa [hgh] using hold.2⟩
      rw [State.pausedNow, hother g hgh]
      exact hold.1

theorem Inv.addTorrent (hinv : Inv careful s) {magnetHash : Option Text} {priorities : List Nat}
    (hspares : careful → Spares s (.addTorrent h st magnetHash priorities))
    (hstep : step s (.addTorrent h st magnetHash priorities) = some s') : Inv careful s' := by
  simp only [step] at hstep
  split_ifs at hstep with hlib
  obtain ⟨hfresh, halone⟩ := hlib
  obtain ⟨t, ht, rfl⟩ := Option.map_eq_some_iff.mp hstep
  simp only [Pausing.step] at ht
  split_ifs at ht with hnew hnone
  obtain rfl := Option.some.inj ht
  refine hinv.bring st (fun g hg => ?_) rfl rfl rfl ?_ halone hspares
  · rcases List.mem_append.mp hg with hold | hlast
    · exact .inr hold
    · exact .inl (List.mem_singleton.mp hlast)
  · intro _ old hold
    rw [hfresh] at hold
    cases hold

theorem Inv.metadata (hinv : Inv careful s) {priorities : List Nat}
    (hspares : careful → Spares s (.metadata h st priorities))
    (hstep : step s (.metadata h st priorities) = some s') : Inv careful s' := by
  simp only [step] at hstep
  split_ifs at hstep with hlib
  obtain ⟨hbare, -, halone⟩ := hlib
  obtain rfl := Option.some.inj hstep
  obtain ⟨old, hold, hnone⟩ := (Option.any_eq_true ..).mp hbare
  refine hinv.bring { st with paused := old.paused || st.paused } (fun _ => .inr) ?_ rfl rfl ?_
    halone fun hcareful hmem => ?_
  · simp [State.progress, hold]
  · intro hh c hc
    refine Bool.eq_false_iff.mpr fun hmetadata => ?_
    obtain ⟨hhas, -⟩ := hinv.agrees h hh c hc old hold hmetadata
    simp [hhas] at hnone
  · obtain ⟨hpaused, hzero⟩ := hspares hcareful hmem
    refine ⟨?_, hzero⟩
    simpa [State.pausedNow, hold] using hpaused

theorem Inv.step {call : Call} (hinv : Inv careful s) (hspares : careful → Spares s call)
    (hstep : Completion.step s call = some s') : Inv careful s' := by
  cases call with
  | setFilePriority i file priority =>
      obtain rfl := Option.some.inj hstep
      exact hinv.setFilePriority i file priority hspares
  | addTorrent h st magnetHash priorities => exact hinv.addTorrent hspares hstep
  | metadata h st priorities => exact hinv.metadata hspares hstep
  | session e =>
      simp only [Completion.step] at hstep
      split_ifs at hstep with hadmits
      obtain ⟨t, ht, rfl⟩ := Option.map_eq_some_iff.mp hstep
      cases e with
      | tick w =>
          obtain rfl := Option.some.inj ht
          exact hinv.tick hspares
      | markCompleted i =>
          obtain rfl := Option.some.inj ht
          have hmarked := hinv.onRow (i := i) fun h hh => hinv.markCompleted hh
          rw [← onRow_toState markCompleted_toState]
          exact hmarked
      | unmarkCompleted i =>
          obtain rfl := Option.some.inj ht
          have hfreed := hinv.onRow (i := i) fun h hh => hinv.unmarkCompleted hh
          rw [← onRow_toState unmarkCompleted_toState]
          exact hfreed
      | resumeTorrent i =>
          obtain rfl := Option.some.inj ht
          exact hinv.resumeTorrent i hspares
      | addTorrent h st magnetHash => exact absurd hadmits (by simp [Session.admits])
      | _ => exact hinv.calm (calm_step (by exact trivial) hadmits ht) hspares

end Step

section Run

variable {c : Setup} {past : List (Reaction Session Call Out)} {s s' : Session}

theorem step_of_next_completion {call : Call} {out : List Out}
    (hnext : (machine c).next s call = some (s', out)) : step s call = some s' := by
  obtain ⟨t, hstep, hout⟩ := Option.map_eq_some_iff.mp hnext
  obtain ⟨rfl, -⟩ := Prod.mk.inj hout
  exact hstep

theorem inv_run {careful : Prop} {guard : Session → Call → Prop}
    (hguard : ∀ s call, guard s call → careful → Spares s call)
    (hstart : careful → Frozen (begin c)) (hrun : (machine c).Run guard past s) :
    Inv careful s := by
  refine hrun.invariant (Inv careful) ⟨fun _ _ _ hst => ?_, c.alone, hstart⟩ ?_
  · cases hst
  · intro s call s' out hinv hg hnext
    exact hinv.step (hguard s call hg) (step_of_next_completion hnext)

end Run

section Priorities

variable {s : Session}

theorem map_const_eq_self {l : List Nat} {priority : Nat} :
    (l.map fun _ => priority) = l ↔ ∀ p ∈ l, p = priority := by
  rw [List.map_const', eq_comm, List.eq_replicate_length]

theorem prioritizeFiles_ne (priority : Nat) (hgh : g ≠ h) :
    (s.prioritizeFiles priority h).priorities g = s.priorities g := by
  unfold Session.prioritizeFiles
  split_ifs
  · simp [hgh]
  · rfl

theorem length_prioritizeFiles (s : Session) (priority : Nat) (h g : Handle) :
    ((s.prioritizeFiles priority h).priorities g).length = (s.priorities g).length := by
  unfold Session.prioritizeFiles
  split_ifs
  · by_cases hgh : g = h
    · subst hgh
      simp
    · simp [hgh]
  · rfl

-- What the withdrawal of a mark looks at.
theorem markCompleted_known {t : State} (hvalid : t.valid h = true)
    (hst : t.cachedStatus h = some st) (hmetadata : st.hasMetadata = true) :
    (t.markCompleted h).cachedStatus h = some st ∧ st.hash ∈ (t.markCompleted h).completedTorrents ∧
      ((t.markCompleted h).live h).map ident = (t.live h).map ident := by
  have hcached : (t.warm h).statusCache h = some st := (Function.update_self ..).trans hst
  by_cases hmarked : st.hash ∈ t.completedTorrents
  · have hsame : t.markCompleted h = t.warm h := by
      unfold State.markCompleted
      simp [hvalid, hst, hmarked]
    rw [hsame]
    exact ⟨(State.cachedStatus_warm t h).trans hst, hmarked, rfl⟩
  · rw [markCompleted_of_new hvalid hst hmetadata hmarked]
    refine ⟨?_, List.mem_cons_self, map_ident_setPaused (t.warm h) h true h⟩
    exact (congrArg (Option.or · _) hcached).trans (Option.some_or ..)

theorem priorities_markedAndBack {careful : Prop} (hinv : Inv careful s) (hh : h ∈ s.torrents)
    (hvalid : s.valid h = true) (hst : s.cachedStatus h = some st)
    (hmetadata : st.hasMetadata = true) :
    ((s.markCompleted h).unmarkCompleted h).priorities =
      Function.update s.priorities h ((s.priorities h).map fun _ => defaultPriority) := by
  obtain ⟨live, hlive⟩ := Option.isSome_iff_exists.mp hvalid
  obtain ⟨hhas, -⟩ := hinv.agrees_cachedStatus hh hst live hlive hmetadata
  obtain ⟨hcached, hmarked, hident⟩ := markCompleted_known hvalid hst hmetadata
  rw [← markCompleted_toState] at hcached hmarked hident
  have hfiles : ((s.markCompleted h).live h).any (·.hasMetadata) = true := by
    rw [hlive] at hident
    obtain ⟨marked, hthere, hsame⟩ := Option.map_eq_some_iff.mp hident
    rw [hthere, Option.any_some, (Prod.mk.inj hsame).2]
    exact hhas
  have hkept (g : Handle) (hgh : g ≠ h) : (s.markCompleted h).priorities g = s.priorities g := by
    unfold Session.markCompleted
    split_ifs
    · exact prioritizeFiles_ne dontDownload hgh
    · rfl
  have hlength : ((s.markCompleted h).priorities h).length = (s.priorities h).length := by
    unfold Session.markCompleted
    split_ifs
    · exact length_prioritizeFiles s dontDownload h h
    · rfl
  have hfrees : (((s.markCompleted h).cachedStatus h).any fun st =>
      st.hasMetadata && decide (st.hash ∈ (s.markCompleted h).completedTorrents)) = true := by
    rw [hcached, Option.any_some, hmetadata, decide_eq_true hmarked, Bool.and_self]
  unfold Session.unmarkCompleted
  rw [if_pos hfrees, prioritizeFiles_of_hasMetadata _ hfiles]
  funext g
  by_cases hgh : g = h
  · subst hgh
    simp [List.map_const', hlength]
  · simp [hgh, hkept g hgh]

-- Nothing is known of the files, and nothing is done to them.
theorem priorities_unmarked (hnone : (s.cachedStatus h).any (·.hasMetadata) = false) :
    ((s.markCompleted h).unmarkCompleted h).priorities = s.priorities := by
  have hmetadata : ∀ st, s.cachedStatus h = some st → st.hasMetadata = false := by
    intro st hst
    simpa [hst] using hnone
  have hkept : ((s.markCompleted h).priorities = s.priorities) := by
    unfold Session.markCompleted
    rw [if_neg]
    rintro ⟨-, hany⟩
    obtain ⟨st, hst, hboth⟩ := (Option.any_eq_true ..).mp hany
    simp [hmetadata st hst] at hboth
  have hcached : (s.toState.markCompleted h).cachedStatus h = s.cachedStatus h := by
    unfold State.markCompleted
    split_ifs
    · cases hst : s.cachedStatus h with
      | none => exact hst
      | some st =>
          simp only [hmetadata st hst, Bool.false_eq_true, not_false_eq_true, true_or, if_true]
          exact (State.cachedStatus_warm s.toState h).trans hst
    · rfl
  unfold Session.unmarkCompleted
  rw [if_neg]
  · exact hkept
  · intro hany
    obtain ⟨st, hst, hboth⟩ := (Option.any_eq_true ..).mp hany
    rw [markCompleted_toState, hcached] at hst
    simp [hmetadata st hst] at hboth

theorem markedAndBack_iff {careful : Prop} (hinv : Inv careful s) (i : Nat) :
    (s.markedAndBack i).priorities = s.priorities ↔
      ∀ h, s.torrents[i]? = some h → s.valid h = true →
        (s.cachedStatus h).any (·.hasMetadata) = true →
          ∀ priority ∈ s.priorities h, priority = defaultPriority := by
  unfold Session.markedAndBack Session.onRow
  cases hi : s.torrents[i]? with
  | none => simp [hi]
  | some h =>
      have hh : h ∈ s.torrents := List.mem_of_getElem? hi
      by_cases hvalid : s.valid h = true
      · have hguarded := State.guarded_markCompleted s.toState h
        have hrows : (s.markCompleted h).torrents = s.torrents := by
          rw [markCompleted_toState]
          exact hguarded.frame.torrents
        have hthere : (s.markCompleted h).valid h = true := by
          rw [markCompleted_toState]
          exact (hguarded.valid h).trans hvalid
        simp only [if_pos hvalid, hrows, hi, if_pos hthere]
        by_cases hknown : (s.cachedStatus h).any (·.hasMetadata) = true
        · obtain ⟨st, hst, hmetadata⟩ := (Option.any_eq_true ..).mp hknown
          rw [priorities_markedAndBack hinv hh hvalid hst hmetadata, Function.update_eq_self_iff,
            map_const_eq_self]
          constructor
          · rintro hall g hg - -
            exact Option.some.inj hg ▸ hall
          · exact fun hall => hall h rfl hvalid hknown
        · rw [priorities_unmarked (by simpa using hknown)]
          refine iff_of_true rfl fun g hg _ hany => ?_
          exact absurd (Option.some.inj hg ▸ hany) hknown
      · simp only [if_neg hvalid, hi]
        refine iff_of_true trivial fun g hg hthere => ?_
        exact absurd (Option.some.inj hg ▸ hthere) hvalid

end Priorities

section Reached

variable {c : Setup}

-- Where the calls spare the completed torrents these stay as they were frozen. A mark taken back
-- gives the files what they had just where they had the default.
theorem run_frozen (hstart : Frozen (begin c)) :
    (∀ past s, (machine c).Run Spares past s → Frozen s) ∧
      ∀ past s, (machine c).Run (fun _ _ => True) past s → ∀ i,
        ((s.markedAndBack i).priorities = s.priorities ↔
          ∀ h, s.torrents[i]? = some h → s.valid h = true →
            (s.cachedStatus h).any (·.hasMetadata) = true →
              ∀ priority ∈ s.priorities h, priority = defaultPriority) := by
  constructor
  · intro past s hrun
    have hinv : Inv True s := inv_run (fun _ _ hspares _ => hspares) (fun _ => hstart) hrun
    exact hinv.frozen trivial
  · intro past s hrun i
    have hinv : Inv False s := inv_run (fun _ _ _ hcareful => hcareful.elim) False.elim hrun
    exact markedAndBack_iff hinv i

-- A seed that is marked is frozen after a tick. With both files wanted a mark taken back leaves
-- no trace.
theorem run_frozen_marked :
    (∃ past s, (machine seeded).Run Spares past s ∧ s.completedTorrents = [['a']] ∧ Frozen s) ∧
      ((begin whole).markedAndBack 0).priorities = (begin whole).priorities := by
  constructor
  · have hinit : (machine seeded).Run Spares [] _ := .init
    have hmarked := hinit.extend (.session (.markCompleted 0)) (fun _ _ => False.elim) rfl
    have hticked := hmarked.extend (.session (.tick (calm 100 [tun]))) ⟨by decide, by decide⟩ rfl
    exact ⟨_, _, hticked, by decide, (run_frozen (c := seeded) (by decide)).1 _ _ hticked⟩
  · refine ((run_frozen (c := whole) (by decide)).2 [] _ .init 0).mpr fun h hi _ _ => ?_
    have hh : h ∈ [0] := List.mem_of_getElem? hi
    obtain rfl := List.mem_singleton.mp hh
    decide

-- Resuming all torrents thaws a seed that was marked completed, and a mark taken back gives a
-- priority to a file that was left out.
theorem not_run_frozen : Frozen (begin seeded) ∧
    (∃ past s, (machine seeded).Run (fun _ _ => True) past s ∧ ¬ Frozen s) ∧
      ((begin seeded).markedAndBack 0).priorities ≠ (begin seeded).priorities := by
  refine ⟨by decide, ?_, ?_⟩
  · have hinit : (machine seeded).Run (fun _ _ => True) [] _ := .init
    have hmarked := hinit.extend (.session (.markCompleted 0)) trivial rfl
    have hresumed := hmarked.extend (.session .resumeAll) trivial rfl
    exact ⟨_, _, hresumed, by decide⟩
  · intro hsame
    exact absurd (congrFun hsame 0) (by decide)

end Reached

end BATorrent.Pausing.Completion
