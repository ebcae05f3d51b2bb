import BATorrent.Lib.Run
import BATorrent.Torrent.Pausing.Guards

namespace BATorrent.Pausing

open Lib

variable {s s' t : State} {w : World} {now : Int} {h g : Handle} {st : Status}

namespace State

section Resumes

-- The session after a call of resume for each of these.
structure Resumed (l : List Handle) (s s' : State) : Prop where
  live : ∀ g, s'.live g = if g ∈ l then (s.live g).map fun st => { st with paused := false }
    else s.live g
  queuePaused : s'.queuePaused = s.queuePaused
  frame : Frame s s'

theorem frame_resume (s : State) (h : Handle) : Frame s (s.resume h) :=
  ⟨rfl, rfl, rfl, rfl, rfl, rfl, rfl, rfl, rfl⟩

theorem Resumed.cons {l : List Handle} (hr : Resumed l (s.resume h) s') : Resumed (h :: l) s s' where
  live g := by
    rw [hr.live g]
    by_cases hgh : g = h
    · subst hgh
      have hself : (s.resume g).live g = (s.live g).map fun st => { st with paused := false } :=
        Function.update_self ..
      rw [hself, if_pos List.mem_cons_self]
      split_ifs
      · simp [Option.map_map, Function.comp_def]
      · rfl
    · have hother : (s.resume h).live g = s.live g := Function.update_of_ne hgh ..
      simp [hother, hgh]
  queuePaused := hr.queuePaused
  frame := (frame_resume s h).trans hr.frame

theorem resumed_foldl (l : List Handle) : ∀ s, Resumed l s (l.foldl resume s) := by
  induction l with
  | nil => exact fun s => ⟨fun g => by simp, rfl, .refl s⟩
  | cons h l ih => exact fun s => (ih (s.resume h)).cons

end Resumes

section Interface

def Fires (s : State) (w : World) : Prop :=
  s.net.outgoingInterface ≠ [] ∧ s.killSwitchEnabled = true ∧ s.net.vpnProxyPort ≤ 0 ∧
    interfaceOk w.nics s.net.outgoingInterface = false ∧ s.killSwitchActive = false

def Restores (s : State) (w : World) : Prop :=
  s.net.outgoingInterface ≠ [] ∧ s.killSwitchEnabled = true ∧ s.net.vpnProxyPort ≤ 0 ∧
    interfaceOk w.nics s.net.outgoingInterface = true ∧ s.killSwitchActive = true

instance (s : State) (w : World) : Decidable (s.Fires w) := inferInstanceAs (Decidable (_ ∧ _))

instance (s : State) (w : World) : Decidable (s.Restores w) := inferInstanceAs (Decidable (_ ∧ _))

-- All that a look at the interface can come to.
theorem checkInterfaceStatus_cases (s : State) (w : World) :
    (s.Fires w ∧ s.checkInterfaceStatus w = s.fireKillSwitch) ∨
      (s.Restores w ∧ s.checkInterfaceStatus w = s.restoreInterface w) ∨
      (¬ s.Fires w ∧ ¬ s.Restores w ∧ s.checkInterfaceStatus w = s) := by
  unfold checkInterfaceStatus Fires Restores
  split_ifs with hoff hfire hrestore
  · refine .inr (.inr ⟨?_, ?_, rfl⟩)
    all_goals
      rintro ⟨hbound, henabled, hproxy, -⟩
      rcases hoff with hnone | hdisabled | hport
      · exact hbound hnone
      · exact hdisabled henabled
      · omega
  · push Not at hoff
    obtain ⟨hbound, henabled, hproxy⟩ := hoff
    obtain ⟨hlost, hinactive⟩ := hfire
    exact .inl ⟨⟨hbound, henabled, hproxy, by simpa using hlost, by simpa using hinactive⟩, rfl⟩
  · push Not at hoff
    obtain ⟨hbound, henabled, hproxy⟩ := hoff
    exact .inr (.inl ⟨⟨hbound, henabled, hproxy, hrestore⟩, rfl⟩)
  · refine .inr (.inr ⟨fun hf => hfire ?_, fun hr => hrestore hr.2.2.2, rfl⟩)
    obtain ⟨-, -, -, hlost, hinactive⟩ := hf
    simp [hlost, hinactive]

theorem not_restores_of_fires (hf : s.Fires w) : ¬ s.Restores w := by
  intro hr
  obtain ⟨-, -, -, -, hinactive⟩ := hf
  obtain ⟨-, -, -, -, hactive⟩ := hr
  rw [hinactive] at hactive
  exact absurd hactive (by decide)

end Interface

section Fire

-- The session after the kill switch went through these.
structure Fired (l : List Handle) (s s' : State) : Prop where
  paused : ∀ g, g ∈ l → s.valid g = true → s'.pausedNow g = true
  keeps : ∀ g, s.pausedNow g = true → s'.pausedNow g = true
  valid : ∀ g, s'.valid g = s.valid g
  killSwitchPaused : ∀ g, g ∈ s'.killSwitchPaused →
    g ∈ s.killSwitchPaused ∨ g ∈ l ∧ s.valid g = true ∧ s.pausedNow g = false
  killSwitchActive : s'.killSwitchActive = s.killSwitchActive
  torrents : s'.torrents = s.torrents

theorem runs_iff (s : State) (h : Handle) :
    ((s.live h).any fun st => !st.paused) = true ↔ s.valid h = true ∧ s.pausedNow h = false := by
  unfold State.valid State.pausedNow
  cases s.live h <;> simp

theorem fired_one (s : State) (h : Handle) : Fired [h] s (s.fireOne h) := by
  unfold fireOne
  split_ifs with hruns
  · obtain ⟨hvalid, hstopped⟩ := (runs_iff s h).mp hruns
    refine ⟨fun g hg _ => ?_, fun g => pausedNow_pause s .killSwitch h,
      fun g => setPaused_valid s h true g, fun g hg => ?_, rfl, rfl⟩
    · obtain rfl := List.mem_singleton.mp hg
      exact (setPaused_pausedNow s g true).trans (by simp [hvalid])
    · rcases List.mem_insert_iff.mp hg with rfl | hold
      · exact .inr ⟨List.mem_singleton_self g, hvalid, hstopped⟩
      · exact .inl hold
  · refine ⟨fun g hg hvalid => ?_, fun _ hp => hp, fun _ => rfl, fun _ => .inl, rfl, rfl⟩
    obtain rfl := List.mem_singleton.mp hg
    by_contra hstopped
    exact hruns ((runs_iff s g).mpr ⟨hvalid, by simpa using hstopped⟩)

theorem Fired.cons {l : List Handle} (hone : Fired [h] s t) (hrest : Fired l t s') :
    Fired (h :: l) s s' where
  paused g hg hvalid := by
    rcases List.mem_cons.mp hg with rfl | hg
    · exact hrest.keeps g (hone.paused g (List.mem_singleton_self g) hvalid)
    · exact hrest.paused g hg ((hone.valid g).trans hvalid)
  keeps g hp := hrest.keeps g (hone.keeps g hp)
  valid g := (hrest.valid g).trans (hone.valid g)
  killSwitchPaused g hg := by
    rcases hrest.killSwitchPaused g hg with hg | ⟨hmem, hvalid, hruns⟩
    · refine (hone.killSwitchPaused g hg).imp_right fun ⟨hmem, hstood⟩ => ⟨?_, hstood⟩
      exact List.mem_cons.mpr (.inl (List.mem_singleton.mp hmem))
    · refine .inr ⟨List.mem_cons_of_mem h hmem, (hone.valid g).symm.trans hvalid, ?_⟩
      by_contra hp
      rw [hone.keeps g (by simpa using hp)] at hruns
      exact absurd hruns (by decide)
  killSwitchActive := hrest.killSwitchActive.trans hone.killSwitchActive
  torrents := hrest.torrents.trans hone.torrents

theorem fired_foldl (l : List Handle) : ∀ s, Fired l s (l.foldl fireOne s) := by
  induction l with
  | nil =>
      exact fun s => ⟨fun g hg => absurd hg List.not_mem_nil, fun _ hp => hp, fun _ => rfl,
        fun _ => .inl, rfl, rfl⟩
  | cons h l ih => exact fun s => (fired_one s h).cons (ih (s.fireOne h))

theorem fired_fireKillSwitch (s : State) :
    Fired s.torrents { s with killSwitchActive := true, killSwitchPaused := [] } s.fireKillSwitch :=
  fired_foldl s.torrents _

end Fire

section Restore

-- The setter resumes and forgets the torrents before the option is looked at.
theorem restored_restoreInterface (s : State) (w : World) :
    (s.restoreInterface w).killSwitchActive = false ∧ (s.restoreInterface w).killSwitchPaused = [] ∧
      ∀ g, (s.restoreInterface w).live g = if g ∈ s.killSwitchPaused then
        (s.live g).map fun st => { st with paused := false } else s.live g := by
  have hreleased := resumed_foldl s.killSwitchPaused { s with killSwitchActive := false }
  unfold restoreInterface setOutgoingInterface releaseKillSwitch
  dsimp only
  split_ifs
  all_goals exact ⟨hreleased.frame.killSwitchActive, rfl, hreleased.live⟩

end Restore

section Steady

-- The calls by which the user takes a torrent back from the kill switch.
def TakesBack (s : State) : Event → Handle → Prop
  | .resumeTorrent i, h => s.torrents[i]? = some h
  | .unmarkCompleted i, h => s.torrents[i]? = some h
  | .setForceStart i on, h => on = true ∧ s.torrents[i]? = some h
  | .resumeAll, _ => True
  | .removeTorrent i, h => s.torrents[i]? = some h
  | .addTorrent g _ _, h => h = g
  | _, _ => False

-- A change that leaves the kill switch no more to hold, and while it is on resumes no torrent but
-- those taken back.
structure Steady (back : Handle → Prop) (s s' : State) : Prop where
  active : s'.killSwitchActive = true → s.killSwitchActive = true
  recorded : ∀ h ∈ s'.killSwitchPaused, h ∈ s.killSwitchPaused
  paused : ∀ h, ¬ back h → s'.killSwitchActive = true → s.pausedNow h = true → s'.pausedNow h = true

variable {back : Handle → Prop}

theorem Steady.refl (s : State) : Steady back s s := ⟨id, fun _ => id, fun _ _ _ => id⟩

theorem Steady.trans (hs : Steady back s t) (hs' : Steady back t s') : Steady back s s' where
  active ha := hs.active (hs'.active ha)
  recorded h hh := hs.recorded h (hs'.recorded h hh)
  paused h hback ha hp := hs'.paused h hback ha (hs.paused h hback (hs'.active ha) hp)

theorem Guarded.steady (hg : Guarded s s') : Steady back s s' where
  active ha := hg.frame.killSwitchActive ▸ ha
  recorded _ hh := hg.frame.killSwitchPaused ▸ hh
  paused _ _ _ hp := hg.pausedNow hp

theorem steady_live (hlive : ∀ h, ¬ back h → s'.live h = s.live h)
    (hactive : s'.killSwitchActive = s.killSwitchActive)
    (hrecorded : ∀ h ∈ s'.killSwitchPaused, h ∈ s.killSwitchPaused) : Steady back s s' := by
  refine ⟨fun ha => hactive ▸ ha, hrecorded, fun h hback _ hp => ?_⟩
  rw [State.pausedNow, hlive h hback]
  exact hp

theorem steady_quiet (hlive : s'.live = s.live) (hactive : s'.killSwitchActive = s.killSwitchActive)
    (hrecorded : s'.killSwitchPaused = s.killSwitchPaused) : Steady back s s' :=
  steady_live (fun h _ => congrFun hlive h) hactive (fun _ hh => hrecorded ▸ hh)

theorem steady_pause (s : State) (cause : Cause) (g : Handle) : Steady back s (s.pause cause g) :=
  ⟨id, fun _ => id, fun _ _ _ hp => pausedNow_pause s cause g hp⟩

theorem steady_resume (hback : back g) : Steady back s (s.resume g) := by
  refine steady_live (fun h hnot => ?_) rfl (fun _ => id)
  have hne : h ≠ g := fun heq => hnot (heq ▸ hback)
  exact Function.update_of_ne hne ..

theorem steady_releaseKillSwitch (s : State) : Steady back s s.releaseKillSwitch := by
  have hreleased := resumed_foldl s.killSwitchPaused { s with killSwitchActive := false }
  have hoff : s.releaseKillSwitch.killSwitchActive = false := hreleased.frame.killSwitchActive
  refine ⟨fun ha => ?_, fun h hh => absurd hh List.not_mem_nil, fun _ _ ha => ?_⟩
  all_goals exact absurd (hoff.symm.trans ha) (by decide)

theorem steady_onRow {f : State → Handle → State} {i : Nat}
    (hf : ∀ g, s.torrents[i]? = some g → Steady back s (f s g)) : Steady back s (s.onRow i f) := by
  unfold onRow
  cases hi : s.torrents[i]? with
  | none => exact .refl s
  | some g =>
      dsimp only
      split_ifs
      · exact hf g hi
      · exact .refl s

theorem steady_unmarkCompleted (hback : back g) : Steady back s (s.unmarkCompleted g) := by
  unfold State.unmarkCompleted
  cases s.cachedStatus g with
  | none => exact .refl s
  | some st =>
      dsimp only
      split_ifs
      · have hbook : Steady back s { s.warm g with
            completedTorrents := s.completedTorrents.filter (· ≠ st.hash) } := steady_quiet rfl rfl rfl
        exact hbook.trans (steady_resume hback)
      · exact steady_quiet rfl rfl rfl

theorem steady_setForceStart (i : Nat) (on : Bool) :
    Steady (s.TakesBack (.setForceStart i on)) s (s.setForceStart i on) := by
  unfold State.setForceStart
  cases hi : s.torrents[i]? with
  | none => exact .refl s
  | some g =>
      dsimp only
      cases s.torrentHash g with
      | none => exact steady_quiet rfl rfl rfl
      | some hash =>
          dsimp only
          split_ifs with hon
          · refine steady_live (fun h hback => ?_) rfl (fun _ => id)
            have hne : h ≠ g := fun heq => hback ⟨hon, heq ▸ hi⟩
            exact Function.update_of_ne hne ..
          · exact steady_quiet rfl rfl rfl

theorem steady_removeTorrent (i : Nat) :
    Steady (s.TakesBack (.removeTorrent i)) s (s.removeTorrent i) := by
  unfold State.removeTorrent
  cases hi : s.torrents[i]? with
  | none => exact .refl s
  | some g =>
      dsimp only
      cases s.live g with
      | none => exact steady_quiet rfl rfl rfl
      | some st =>
          refine steady_live (fun h hback => ?_) rfl (fun _ hh => (List.mem_filter.mp hh).1)
          have hne : h ≠ g := fun heq => hback (heq ▸ hi)
          exact Function.update_of_ne hne ..

theorem steady_progress (g : Handle) (st : Status) (s : State) : Steady back s (s.progress g st) := by
  refine ⟨id, fun _ => id, fun h _ _ hp => ?_⟩
  by_cases heq : h = g
  · subst heq
    have hself : (s.progress h st).live h =
        (s.live h).map fun old => { st with paused := old.paused || st.paused } :=
      Function.update_self ..
    unfold State.pausedNow at hp ⊢
    rw [hself]
    cases hlive : s.live h with
    | none => simp [hlive] at hp
    | some old => simpa [hlive] using .inl (by simpa [hlive] using hp)
  · have hother : (s.progress g st).live h = s.live h := Function.update_of_ne heq ..
    rw [State.pausedNow, hother]
    exact hp

theorem steady_onTorrentFinished (g : Handle) (s : State) :
    Steady back s (s.onTorrentFinished g) := by
  unfold State.onTorrentFinished
  cases s.live g with
  | none => exact .refl s
  | some st =>
      dsimp only
      split_ifs
      · exact (steady_pause s .stopAfterDownload g).trans (steady_quiet rfl rfl rfl)
      · exact steady_quiet rfl rfl rfl

theorem steady_step {e : Event} (hstep : step s e = some s') (htick : ∀ w, e ≠ .tick w) :
    Steady (s.TakesBack e) s s' := by
  cases e with
  | tick w => exact absurd rfl (htick w)
  | pauseTorrent i =>
      obtain rfl := Option.some.inj hstep
      exact steady_onRow fun g _ => steady_pause s .user g
  | stopSeedingTorrent i =>
      obtain rfl := Option.some.inj hstep
      exact steady_onRow fun g _ => steady_pause s .user g
  | resumeTorrent i =>
      obtain rfl := Option.some.inj hstep
      exact steady_onRow fun g hg => (steady_unmarkCompleted hg).trans (steady_resume hg)
  | markCompleted i =>
      obtain rfl := Option.some.inj hstep
      exact steady_onRow fun g _ => (guarded_markCompleted s g).steady
  | unmarkCompleted i =>
      obtain rfl := Option.some.inj hstep
      exact steady_onRow fun g hg => steady_unmarkCompleted hg
  | pauseAll =>
      obtain rfl := Option.some.inj hstep
      exact (guarded_pauseAll (by decide) s).steady
  | resumeAll =>
      obtain rfl := Option.some.inj hstep
      have hframe : Frame s s.resumeAll := (resumed_foldl _ s).frame
      exact ⟨fun ha => hframe.killSwitchActive ▸ ha, fun _ hh => hframe.killSwitchPaused ▸ hh,
        fun _ hback => absurd trivial hback⟩
  | setForceStart i on =>
      obtain rfl := Option.some.inj hstep
      exact steady_setForceStart i on
  | setOutgoingInterface adapters name live =>
      obtain rfl := Option.some.inj hstep
      exact (steady_releaseKillSwitch s).trans (steady_quiet rfl rfl rfl)
  | setKillSwitchEnabled enabled =>
      obtain rfl := Option.some.inj hstep
      unfold State.setKillSwitchEnabled
      dsimp only
      have hset : Steady (s.TakesBack (.setKillSwitchEnabled enabled)) s
          { s with killSwitchEnabled := enabled } := steady_quiet rfl rfl rfl
      split_ifs
      · exact hset
      · exact hset.trans (steady_releaseKillSwitch _)
  | setVpnProxy adapters port user pass live =>
      obtain rfl := Option.some.inj hstep
      unfold State.setVpnProxy
      dsimp only
      split_ifs
      · exact (steady_releaseKillSwitch s).trans (steady_quiet rfl rfl rfl)
      · exact steady_quiet rfl rfl rfl
  | addTorrent g st magnetHash =>
      simp only [step] at hstep
      split_ifs at hstep with hnew
      obtain rfl := Option.some.inj hstep
      exact steady_live (fun h hback => Function.update_of_ne hback ..) rfl (fun _ => id)
  | removeTorrent i =>
      obtain rfl := Option.some.inj hstep
      exact steady_removeTorrent i
  | forceRecheck i =>
      obtain rfl := Option.some.inj hstep
      exact steady_onRow fun g _ => steady_quiet rfl rfl rfl
  | setTorrentQueuePosition i position =>
      obtain rfl := Option.some.inj hstep
      unfold State.setTorrentQueuePosition
      split_ifs <;> exact steady_quiet rfl rfl rfl
  | setTorrentMaxSeedSeconds i seconds =>
      obtain rfl := Option.some.inj hstep
      unfold State.setTorrentMaxSeedSeconds
      split
      · exact .refl s
      · split <;> exact steady_quiet rfl rfl rfl
  | setTorrentStopAfterDownload i value =>
      obtain rfl := Option.some.inj hstep
      unfold State.setTorrentStopAfterDownload
      split
      · exact .refl s
      · split <;> exact steady_quiet rfl rfl rfl
  | progress g st =>
      obtain rfl := Option.some.inj hstep
      exact steady_progress g st s
  | torrentChecked g =>
      obtain rfl := Option.some.inj hstep
      unfold State.onTorrentChecked
      split_ifs <;> exact steady_quiet rfl rfl rfl
  | torrentFinished g =>
      obtain rfl := Option.some.inj hstep
      exact steady_onTorrentFinished g s
  | torrentError g now =>
      obtain rfl := Option.some.inj hstep
      exact (guarded_noteTorrentFault g now s).steady
  | fileError g diskFull now =>
      obtain rfl := Option.some.inj hstep
      exact (guarded_onFileError g diskFull now s).steady
  | probed missing =>
      simp only [step] at hstep
      split_ifs at hstep
      obtain rfl := Option.some.inj hstep
      exact (guarded_probed missing s).steady
  | _ =>
      obtain rfl := Option.some.inj hstep
      exact steady_quiet rfl rfl rfl

end Steady

end State

section Held

-- The torrents there when the kill switch fired last, less those taken back since.
def Held : List (Reaction State Event Out) → Handle → Prop
  | [], _ => False
  | ⟨s, .tick w, _⟩ :: past, h =>
      if (s.beforeInterface w).Fires w then
        h ∈ (s.beforeInterface w).torrents ∧ (s.beforeInterface w).valid h = true
      else Held past h
  | ⟨s, e, _⟩ :: past, h => Held past h ∧ ¬ s.TakesBack e h

def KeepsPaused (past : List (Reaction State Event Out)) (s : State) : Prop :=
  s.killSwitchActive = true → ∀ h, Held past h → s.pausedNow h = true


theorem held_of_fires {past : List (Reaction State Event Out)} {out : List Out}
    (hfires : (s.beforeInterface w).Fires w) (hmem : h ∈ (s.beforeInterface w).torrents)
    (hvalid : (s.beforeInterface w).valid h = true) : Held (⟨s, .tick w, out⟩ :: past) h := by
  rw [Held, if_pos hfires]
  exact ⟨hmem, hvalid⟩

theorem held_of_quiet {past : List (Reaction State Event Out)} {out : List Out}
    (hquiet : ¬ (s.beforeInterface w).Fires w) (hheld : Held past h) :
    Held (⟨s, .tick w, out⟩ :: past) h := by
  rw [Held, if_neg hquiet]
  exact hheld

theorem held_tick {past : List (Reaction State Event Out)} {out : List Out}
    (hheld : Held (⟨s, .tick w, out⟩ :: past) h) :
    if (s.beforeInterface w).Fires w then
      h ∈ (s.beforeInterface w).torrents ∧ (s.beforeInterface w).valid h = true
    else Held past h := hheld

theorem held_of_not_tick {past : List (Reaction State Event Out)} {e : Event} {out : List Out}
    (htick : ∀ w, e ≠ .tick w) (hheld : Held (⟨s, e, out⟩ :: past) h) :
    Held past h ∧ ¬ s.TakesBack e h := by
  cases e with
  | tick w => exact absurd rfl (htick w)
  | _ => exact hheld

theorem KeepsPaused.of_not_tick {past : List (Reaction State Event Out)} {e : Event} {out : List Out}
    (hk : KeepsPaused past s) (htick : ∀ w, e ≠ .tick w) (hstep : step s e = some s') :
    KeepsPaused (⟨s, e, out⟩ :: past) s' := by
  intro hactive h hheld
  obtain ⟨hold, hback⟩ := held_of_not_tick htick hheld
  have hsteady := State.steady_step hstep htick
  exact hsteady.paused h hback hactive (hk (hsteady.active hactive) h hold)

-- Up to the queue, a tick keeps the torrents that the kill switch holds.
theorem KeepsPaused.beforeQueue {past : List (Reaction State Event Out)} {out : List Out}
    (hk : KeepsPaused past s) (hactive : (s.beforeQueue w).killSwitchActive = true)
    (hheld : Held (⟨s, .tick w, out⟩ :: past) h) : (s.beforeQueue w).pausedNow h = true := by
  have hguards := State.guarded_beforeInterface w s
  have hrest := State.guarded_beforeQueue w s
  refine hrest.pausedNow ?_
  rw [hrest.frame.killSwitchActive] at hactive
  obtain ⟨hfires, hlooked⟩ | ⟨-, hlooked⟩ | ⟨hquiet, -, hlooked⟩ :=
    (s.beforeInterface w).checkInterfaceStatus_cases w
  · have hfired := State.fired_fireKillSwitch (s.beforeInterface w)
    have hthere := held_tick hheld
    rw [if_pos hfires] at hthere
    rw [hlooked]
    exact hfired.paused h hthere.1 hthere.2
  · rw [hlooked, (State.restored_restoreInterface (s.beforeInterface w) w).1] at hactive
    exact absurd hactive (by decide)
  · rw [hlooked] at hactive ⊢
    have hold := held_tick hheld
    rw [if_neg hquiet] at hold
    exact hguards.pausedNow (hk (hguards.frame.killSwitchActive ▸ hactive) h hold)

-- While the kill switch is on, the queue would resume none of the torrents it holds.
def SparesHeld (past : List (Reaction State Event Out)) (r : Reaction State Event Out) : Prop :=
  ∀ w, r.event = .tick w →
    (r.before.beforeQueue w).killSwitchActive = true →
    0 < (r.before.beforeQueue w).maxActiveDownloads →
    ∀ h ∈ (r.before.beforeQueue w).torrents, Held (r :: past) h →
      (r.before.beforeQueue w).verdict w.now h ≠ .resume ∧
        h ∉ (r.before.beforeQueue w).promotes w.now

theorem keepsPaused_tick_iff {past : List (Reaction State Event Out)} {out : List Out}
    (hk : KeepsPaused past s) :
    KeepsPaused (⟨s, .tick w, out⟩ :: past) (s.updateStats w) ↔
      SparesHeld past ⟨s, .tick w, out⟩ := by
  have hbefore : ∀ h, (s.beforeQueue w).killSwitchActive = true →
      Held (⟨s, .tick w, out⟩ :: past) h → (s.beforeQueue w).pausedNow h = true :=
    fun _ hactive hheld => hk.beforeQueue hactive hheld
  by_cases hlimit : 0 < (s.beforeQueue w).maxActiveDownloads
  · have hq := State.passed_queuePass hlimit w.now
    have hsame : (s.updateStats w).killSwitchActive = (s.beforeQueue w).killSwitchActive :=
      hq.frame.killSwitchActive
    constructor
    · rintro hkeeps w' hw hactive _ h htorrent hheld
      obtain rfl := Event.tick.inj hw
      have hstill := hkeeps (hsame.trans hactive) h hheld
      have hspared : h ∉ (State.queuePass w.now (s.beforeQueue w)).resumed := by
        intro hr
        exact absurd (hstill.symm.trans (hq.resumes h hr).1) (by decide)
      rw [hq.resumed] at hspared
      push Not at hspared
      exact ⟨hspared.1 htorrent, hspared.2⟩
    · intro hspares hactive h hheld
      rw [hsame] at hactive
      refine hq.keeps h ?_ (hbefore h hactive hheld)
      rw [hq.resumed]
      rintro (⟨htorrent, hv⟩ | hpromoted)
      · exact (hspares w rfl hactive hlimit h htorrent hheld).1 hv
      · have htorrent := (List.mem_filter.mp (List.mem_of_mem_take hpromoted)).1
        exact (hspares w rfl hactive hlimit h htorrent hheld).2 hpromoted
  · have hpass : s.updateStats w = s.beforeQueue w := by
      rw [State.updateStats, State.enforceDownloadQueue, State.queuePass, if_pos (by omega)]
    constructor
    · rintro - w' hw - hpos
      obtain rfl := Event.tick.inj hw
      exact absurd hpos hlimit
    · intro _ hactive h hheld
      rw [hpass] at hactive ⊢
      exact hbefore h hactive hheld

theorem step_of_next {c : Config} {e : Event} {out : List Out}
    (hnext : (machine c).next s e = some (s', out)) : step s e = some s' := by
  obtain ⟨t, hstep, hout⟩ := Option.map_eq_some_iff.mp hnext
  obtain ⟨rfl, -⟩ := Prod.mk.inj hout
  exact hstep

-- The kill switch holds in every state of a run just when no pass of the queue would undo it.
theorem run_keepsPaused_iff {c : Config} {past : List (Reaction State Event Out)} {s : State}
    (hrun : (machine c).Run (fun _ _ => True) past s) :
    Machine.eachStep (fun past r s => KeepsPaused (r :: past) s) past s ↔
      Machine.eachStep (fun past r _ => SparesHeld past r) past s := by
  refine hrun.eachStep_iff fun past s e s' out _ _ hnext hearlier => ?_
  have hk : KeepsPaused past s := by
    cases past with
    | nil => exact fun _ h hheld => absurd hheld id
    | cons r past => exact hearlier.1
  have hstep := step_of_next hnext
  by_cases htick : ∃ w, e = .tick w
  · obtain ⟨w, rfl⟩ := htick
    obtain rfl := Option.some.inj hstep
    exact keepsPaused_tick_iff hk
  · push Not at htick
    exact ⟨fun _ w hw => absurd hw (htick w), fun _ => hk.of_not_tick htick hstep⟩

-- The tick that fires the kill switch resumes neither of two downloads.
theorem run_keepsPaused_fired : Machine.eachStep (fun past r s => KeepsPaused (r :: past) s)
    [⟨start twoDownloads, .tick (calm 100 []), []⟩] ((start twoDownloads).updateStats (calm 100 [])) := by
  have hstart : (machine twoDownloads).Run (fun _ _ => True) [] _ := .init
  have hfired := hstart.extend (.tick (calm 100 [])) trivial rfl
  refine (run_keepsPaused_iff hfired).mpr ⟨?_, trivial⟩
  intro w hw _ _ h hmem _
  obtain rfl := Event.tick.inj hw
  have hspared : ∀ h ∈ ((start twoDownloads).beforeQueue (calm 100 [])).torrents,
      ((start twoDownloads).beforeQueue (calm 100 [])).verdict 100 h ≠ .resume ∧
        h ∉ ((start twoDownloads).beforeQueue (calm 100 [])).promotes 100 := by decide
  exact hspared h hmem

-- A download that waits for its turn is resumed while the kill switch is on.
theorem run_not_keepsPaused : ∃ past s, (machine twoDownloads).Run (fun _ _ => True) past s ∧
    ¬ KeepsPaused past s := by
  have hstart : (machine twoDownloads).Run (fun _ _ => True) [] _ := .init
  have hqueued := hstart.extend (.tick (calm 100 [tun])) trivial rfl
  have hfired := hqueued.extend (.tick (calm 101 [])) trivial rfl
  have hseen := hfired.extend (.stateUpdate [(0, { fetching with paused := true }),
    (1, { fetching with hash := ['b'], paused := true })]) trivial rfl
  have hticked := hseen.extend (.tick (calm 102 [])) trivial rfl
  refine ⟨_, _, hticked, fun hk => ?_⟩
  have hpaused := hk rfl 1 (by
    refine held_of_quiet (by decide) ⟨?_, not_false⟩
    exact held_of_fires (by decide) (by decide) (by decide))
  exact absurd hpaused (by decide)

end Held

section Restored

-- The torrents that ran when the kill switch fired last.
def RunningAtLoss : List (Reaction State Event Out) → Handle → Prop
  | [], _ => False
  | ⟨s, .tick w, _⟩ :: past, h =>
      if (s.beforeInterface w).Fires w then
        (s.beforeInterface w).valid h = true ∧ (s.beforeInterface w).pausedNow h = false
      else RunningAtLoss past h
  | _ :: past, h => RunningAtLoss past h

-- What the return of the interface makes of the torrents.
structure Honours (past : List (Reaction State Event Out)) (s s' : State) : Prop where
  kept : s.autoResume = false →
    ∀ h ∈ s.killSwitchPaused, s.pausedNow h = true → s'.pausedNow h = true
  resumed : s.autoResume = true → ∀ h, s'.live h =
    if h ∈ s.killSwitchPaused then (s.live h).map fun st => { st with paused := false } else s.live h
  running : s.autoResume = true → ∀ h ∈ s.killSwitchPaused, RunningAtLoss past h

def HonoursAutoResume (past : List (Reaction State Event Out)) (r : Reaction State Event Out) :
    Prop :=
  ∀ w, r.event = .tick w → (r.before.beforeInterface w).Restores w →
    Honours past (r.before.beforeInterface w) ((r.before.beforeInterface w).checkInterfaceStatus w)

def NothingToHold (r : Reaction State Event Out) : Prop :=
  ∀ w, r.event = .tick w → (r.before.beforeInterface w).Restores w →
    (r.before.beforeInterface w).autoResume = true ∨
      ∀ h ∈ (r.before.beforeInterface w).killSwitchPaused,
        (r.before.beforeInterface w).pausedNow h = false

def Recorded (past : List (Reaction State Event Out)) (s : State) : Prop :=
  ∀ h ∈ s.killSwitchPaused, RunningAtLoss past h

theorem killSwitchPaused_updateStats (s : State) (w : World) :
    (s.updateStats w).killSwitchPaused =
      ((s.beforeInterface w).checkInterfaceStatus w).killSwitchPaused := by
  have hrest := (State.guarded_beforeQueue w s).frame.killSwitchPaused
  by_cases hlimit : 0 < (s.beforeQueue w).maxActiveDownloads
  · exact (State.passed_queuePass hlimit w.now).frame.killSwitchPaused.trans hrest
  · rw [State.updateStats, State.enforceDownloadQueue, State.queuePass, if_pos (by omega)]
    exact hrest

theorem Recorded.tick {past : List (Reaction State Event Out)} {out : List Out}
    (hr : Recorded past s) : Recorded (⟨s, .tick w, out⟩ :: past) (s.updateStats w) := by
  intro h hmem
  rw [killSwitchPaused_updateStats] at hmem
  have hguards := (State.guarded_beforeInterface w s).frame.killSwitchPaused
  unfold RunningAtLoss
  obtain ⟨hfires, hlooked⟩ | ⟨hrestores, hlooked⟩ | ⟨hquiet, -, hlooked⟩ :=
    (s.beforeInterface w).checkInterfaceStatus_cases w
  · rw [if_pos hfires]
    rw [hlooked] at hmem
    obtain hold | ⟨-, hvalid, hruns⟩ :=
      (State.fired_fireKillSwitch (s.beforeInterface w)).killSwitchPaused h hmem
    · exact absurd hold List.not_mem_nil
    · exact ⟨hvalid, hruns⟩
  · rw [hlooked, (State.restored_restoreInterface (s.beforeInterface w) w).2.1] at hmem
    exact absurd hmem List.not_mem_nil
  · rw [if_neg hquiet]
    rw [hlooked, hguards] at hmem
    exact hr h hmem

theorem recorded_run {c : Config} {past : List (Reaction State Event Out)} {s : State}
    (hrun : (machine c).Run (fun _ _ => True) past s) : Recorded past s := by
  refine hrun.invariant_past Recorded (fun h hmem => absurd hmem List.not_mem_nil) ?_
  intro past s e s' out hr _ hnext
  have hstep := step_of_next hnext
  by_cases htick : ∃ w, e = .tick w
  · obtain ⟨w, rfl⟩ := htick
    obtain rfl := Option.some.inj hstep
    exact hr.tick
  · push Not at htick
    intro h hmem
    have hold := hr h ((State.steady_step hstep htick).recorded h hmem)
    cases e with
    | tick w => exact absurd rfl (htick w)
    | _ => exact hold

theorem honours_iff {past : List (Reaction State Event Out)} (hr : Recorded past s)
    (hrestores : s.Restores w) : Honours past s (s.checkInterfaceStatus w) ↔
      s.autoResume = true ∨ ∀ h ∈ s.killSwitchPaused, s.pausedNow h = false := by
  have hlooked : s.checkInterfaceStatus w = s.restoreInterface w := by
    obtain ⟨hfires, -⟩ | ⟨-, hlooked⟩ | ⟨-, hnot, -⟩ := s.checkInterfaceStatus_cases w
    · exact absurd hrestores (State.not_restores_of_fires hfires)
    · exact hlooked
    · exact absurd hrestores hnot
  obtain ⟨-, -, hlive⟩ := State.restored_restoreInterface s w
  rw [hlooked]
  constructor
  · intro hh
    cases hauto : s.autoResume with
    | true => exact .inl rfl
    | false =>
        refine .inr fun h hmem => ?_
        by_contra hpaused
        have hstill := hh.kept hauto h hmem (by simpa using hpaused)
        rw [State.pausedNow, hlive h, if_pos hmem] at hstill
        cases hst : s.live h <;> simp [hst] at hstill
  · rintro (hauto | hnone)
    · refine ⟨fun hoff => ?_, fun _ => hlive, fun _ => hr⟩
      exact absurd (hoff.symm.trans hauto) (by decide)
    · exact ⟨fun _ h hmem hpaused => absurd ((hnone h hmem).symm.trans hpaused) (by decide),
        fun _ => hlive, fun _ => hr⟩

-- The return of the interface honours the option just when that leaves nothing to hold back.
theorem run_honours_iff {c : Config} {past : List (Reaction State Event Out)} {s : State}
    (hrun : (machine c).Run (fun _ _ => True) past s) :
    Machine.eachStep (fun past r _ => HonoursAutoResume past r) past s ↔
      Machine.eachStep (fun _ r _ => NothingToHold r) past s := by
  refine hrun.eachStep_iff fun past s e s' out hrun _ _ _ => ?_
  refine forall₂_congr fun w _ => forall_congr' fun hrestores => ?_
  have hguards := (State.guarded_beforeInterface w s).frame.killSwitchPaused
  have hr : Recorded past (s.beforeInterface w) := fun h hmem =>
    recorded_run hrun h (hguards ▸ hmem)
  exact honours_iff hr hrestores

-- With the option on, the two downloads that ran are resumed.
theorem run_honours_autoResume : Honours
    [⟨start { twoDownloads with autoResume := true }, .tick (calm 100 []), []⟩]
    (((start { twoDownloads with autoResume := true }).updateStats (calm 100 [])).beforeInterface
      (calm 101 [tun]))
    ((((start { twoDownloads with autoResume := true }).updateStats (calm 100 [])).beforeInterface
      (calm 101 [tun])).checkInterfaceStatus (calm 101 [tun])) := by
  have hstart : (machine { twoDownloads with autoResume := true }).Run (fun _ _ => True) [] _ := .init
  have hfired := hstart.extend (.tick (calm 100 [])) trivial rfl
  have hback := hfired.extend (.tick (calm 101 [tun])) trivial rfl
  refine ((run_honours_iff hback).mpr ⟨?_, ?_, trivial⟩).1 (calm 101 [tun]) rfl (by decide)
  · exact fun w hw _ => .inl (by obtain rfl := Event.tick.inj hw; rfl)
  · exact fun w hw _ => .inl (by obtain rfl := Event.tick.inj hw; rfl)

-- The option is off, and the return of the interface resumes the downloads all the same.
theorem run_not_honours : ∃ past s, (machine twoDownloads).Run (fun _ _ => True) past s ∧
    ¬ Machine.eachStep (fun past r _ => HonoursAutoResume past r) past s := by
  have hstart : (machine twoDownloads).Run (fun _ _ => True) [] _ := .init
  have hfired := hstart.extend (.tick (calm 100 [])) trivial rfl
  have hback := hfired.extend (.tick (calm 101 [tun])) trivial rfl
  refine ⟨_, _, hback, fun hh => ?_⟩
  have hkept := (hh.1 _ rfl (by decide)).kept rfl 0 (by decide) (by decide)
  exact absurd hkept (by decide)

end Restored

end BATorrent.Pausing
