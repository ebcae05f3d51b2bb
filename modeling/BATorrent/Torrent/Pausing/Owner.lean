import BATorrent.Torrent.Pausing.Guards

namespace BATorrent.Pausing

open Lib

variable {s s' t : State} {w : World} {now : Int} {h g : Handle} {st : Status}

namespace State

section Unqueued

-- Who pauses a torrent that the queue does not count as its own keeps it from the queue.
def Unqueued (s : State) : Prop :=
  ∀ h c, s.pausedBy h = some ⟨c, false⟩ → c ≠ .queue → h ∉ s.queuePaused

theorem Unqueued.congr (hs : Unqueued s) (hby : s'.pausedBy = s.pausedBy)
    (hset : ∀ h ∈ s'.queuePaused, h ∈ s.queuePaused) : Unqueued s' := by
  intro h c hpaused hcause hmem
  rw [hby] at hpaused
  exact hs h c hpaused hcause (hset h hmem)

theorem Unqueued.pause (hs : Unqueued s) (cause : Cause) (h : Handle) :
    Unqueued (s.pause cause h) := by
  intro g c hpaused hcause hmem
  by_cases heq : g = h
  · subst heq
    have hlast : (s.pause cause g).pausedBy g = some ⟨cause, decide (g ∈ s.queuePaused)⟩ :=
      Function.update_self ..
    have hqueued := congrArg Pause.queued (Option.some.inj (hlast.symm.trans hpaused))
    exact of_decide_eq_false hqueued hmem
  · have hsame : (s.pause cause h).pausedBy g = s.pausedBy g := Function.update_of_ne heq ..
    exact hs g c (hsame.symm.trans hpaused) hcause hmem

theorem Unqueued.resume (hs : Unqueued s) (h : Handle) : Unqueued (s.resume h) := by
  intro g c hpaused hcause hmem
  by_cases heq : g = h
  · subst heq
    have hnone : (s.resume g).pausedBy g = none := Function.update_self ..
    exact nomatch hnone.symm.trans hpaused
  · have hsame : (s.resume h).pausedBy g = s.pausedBy g := Function.update_of_ne heq ..
    exact hs g c (hsame.symm.trans hpaused) hcause hmem

theorem Unqueued.guarded (hs : Unqueued s) (hg : Guarded s s') : Unqueued s' := by
  induction hg with
  | quiet hquiet => exact hs.congr hquiet.pausedBy fun h hmem => hquiet.queuePaused ▸ hmem
  | pause cause h _ => exact hs.pause cause h
  | trans _ _ ih ih' => exact ih' (ih hs)

theorem Unqueued.foldl {α : Type} {f : State → α → State}
    (hf : ∀ s a, Unqueued s → Unqueued (f s a)) (l : List α) :
    ∀ {s}, Unqueued s → Unqueued (l.foldl f s) := by
  induction l with
  | nil => exact id
  | cons a l ih => exact fun hs => ih (hf _ a hs)

theorem Unqueued.resumes (hs : Unqueued s) (l : List Handle) : Unqueued (l.foldl State.resume s) :=
  hs.foldl (fun _ h hs => hs.resume h) l

theorem Unqueued.releaseKillSwitch (hs : Unqueued s) : Unqueued s.releaseKillSwitch := by
  have hinactive : Unqueued { s with killSwitchActive := false } := hs
  exact hinactive.resumes s.killSwitchPaused

theorem Unqueued.checkInterfaceStatus (hs : Unqueued s) (w : World) :
    Unqueued (s.checkInterfaceStatus w) := by
  unfold State.checkInterfaceStatus
  split_ifs
  · exact hs
  · have hfired : Unqueued { s with killSwitchActive := true, killSwitchPaused := [] } := hs
    refine hfired.foldl (fun s h hs => ?_) s.torrents
    unfold fireOne
    split_ifs
    · exact hs.pause .killSwitch h
    · exact hs
  · unfold restoreInterface
    dsimp only
    have hreleased : Unqueued ({ s with killSwitchActive := false }.setOutgoingInterface
        (w.nics.map Nic.toAdapter) s.net.outgoingInterface w.live) := by
      have hinactive : Unqueued { s with killSwitchActive := false } := hs
      exact hinactive.releaseKillSwitch
    split_ifs
    · exact hreleased.resumes _
    · exact hreleased
  · exact hs

theorem Unqueued.beforeQueue (hs : Unqueued s) (w : World) : Unqueued (s.beforeQueue w) :=
  ((hs.guarded (guarded_beforeInterface w s)).checkInterfaceStatus w).guarded (guarded_beforeQueue w s)

theorem Unqueued.enforceDownloadQueue (hs : Unqueued s) (now : Int) :
    Unqueued (s.enforceDownloadQueue now) := by
  by_cases hlimit : 0 < s.maxActiveDownloads
  · have hq := passed_queuePass hlimit now
    intro h c hpaused hcause hmem
    have hresumed : h ∉ (queuePass now s).resumed := by
      intro hr
      have hnone := (hq.resumes h hr).2
      exact nomatch hnone.symm.trans hpaused
    have hdemote : h ∉ s.demotes now := by
      intro hd
      obtain ⟨b, hby⟩ := hq.pauses h hd
      exact hcause (congrArg Pause.cause (Option.some.inj (hpaused.symm.trans hby)))
    have hbefore := (hq.leaves h hresumed hdemote).symm.trans hpaused
    exact hs h c hbefore hcause ((((hq.queuePaused h).mp hmem).1).resolve_right hdemote)
  · rw [State.enforceDownloadQueue, queuePass, if_pos (by omega)]
    exact hs

end Unqueued

section Step

theorem Unqueued.onRow {f : State → Handle → State} (hf : ∀ s h, Unqueued s → Unqueued (f s h))
    (hs : Unqueued s) (i : Nat) : Unqueued (s.onRow i f) := by
  unfold State.onRow
  cases s.torrents[i]? with
  | none => exact hs
  | some h =>
      dsimp only
      split_ifs
      · exact hf s h hs
      · exact hs

theorem Unqueued.unmarkCompleted (hs : Unqueued s) (h : Handle) : Unqueued (s.unmarkCompleted h) := by
  unfold State.unmarkCompleted
  cases s.cachedStatus h with
  | none => exact hs
  | some st =>
      dsimp only
      split_ifs
      · have hbook : Unqueued { s.warm h with
            completedTorrents := s.completedTorrents.filter (· ≠ st.hash) } := hs
        exact hbook.resume h
      · exact hs

theorem Unqueued.setForceStart (hs : Unqueued s) (i : Nat) (on : Bool) :
    Unqueued (s.setForceStart i on) := by
  unfold State.setForceStart
  cases s.torrents[i]? with
  | none => exact hs
  | some h =>
      dsimp only
      cases s.torrentHash h with
      | none => exact hs
      | some hash =>
          dsimp only
          split_ifs
          · have hbook : Unqueued { s.warm h with
                forceStartHashes := s.forceStartHashes.insert hash } := hs
            exact (hbook.resume h).congr rfl fun g hg => (List.mem_filter.mp hg).1
          · exact hs

theorem Unqueued.removeTorrent (hs : Unqueued s) (i : Nat) : Unqueued (s.removeTorrent i) := by
  unfold State.removeTorrent
  cases s.torrents[i]? with
  | none => exact hs
  | some h =>
      dsimp only
      cases s.live h with
      | none => exact hs
      | some st =>
          intro g c hpaused hcause hmem
          by_cases heq : g = h
          · subst heq
            exact absurd (List.mem_filter.mp hmem).2 (by simp)
          · have hsame : s.pausedBy g = some ⟨c, false⟩ :=
              (Function.update_of_ne heq ..).symm.trans hpaused
            exact hs g c hsame hcause (List.mem_filter.mp hmem).1

theorem Unqueued.addTorrent (hs : Unqueued s) (h : Handle) (st : Status)
    (magnetHash : Option NetworkSettings.Text) (hnew : h ∉ s.torrents) :
    Unqueued (s.addTorrent h st magnetHash hnew) := by
  intro g c hpaused hcause hmem
  by_cases heq : g = h
  · subst heq
    have hnone : (s.addTorrent g st magnetHash hnew).pausedBy g = none := Function.update_self ..
    exact nomatch hnone.symm.trans hpaused
  · have hsame : (s.addTorrent h st magnetHash hnew).pausedBy g = s.pausedBy g :=
      Function.update_of_ne heq ..
    exact hs g c (hsame.symm.trans hpaused) hcause hmem

theorem Unqueued.onTorrentFinished (hs : Unqueued s) (h : Handle) :
    Unqueued (s.onTorrentFinished h) := by
  unfold State.onTorrentFinished
  cases s.live h with
  | none => exact hs
  | some st =>
      dsimp only
      split_ifs
      · exact (hs.pause .stopAfterDownload h).congr rfl fun g hg => (List.mem_filter.mp hg).1
      · exact hs.congr rfl fun g hg => (List.mem_filter.mp hg).1

theorem unqueued_step {e : Event} (hs : Unqueued s) (hstep : step s e = some s') : Unqueued s' := by
  cases e with
  | tick w =>
      obtain rfl := Option.some.inj hstep
      exact (hs.beforeQueue w).enforceDownloadQueue w.now
  | pauseTorrent i =>
      obtain rfl := Option.some.inj hstep
      exact hs.onRow (fun _ h hs => hs.pause .user h) i
  | stopSeedingTorrent i =>
      obtain rfl := Option.some.inj hstep
      exact hs.onRow (fun _ h hs => hs.pause .user h) i
  | resumeTorrent i =>
      obtain rfl := Option.some.inj hstep
      exact hs.onRow (fun _ h hs => (hs.unmarkCompleted h).resume h) i
  | markCompleted i =>
      obtain rfl := Option.some.inj hstep
      exact hs.onRow (fun s h hs => hs.guarded (guarded_markCompleted s h)) i
  | unmarkCompleted i =>
      obtain rfl := Option.some.inj hstep
      exact hs.onRow (fun _ h hs => hs.unmarkCompleted h) i
  | pauseAll =>
      obtain rfl := Option.some.inj hstep
      exact hs.foldl (fun _ h hs => hs.pause .user h) _
  | resumeAll =>
      obtain rfl := Option.some.inj hstep
      exact hs.resumes _
  | setForceStart i on =>
      obtain rfl := Option.some.inj hstep
      exact hs.setForceStart i on
  | setOutgoingInterface adapters name live =>
      obtain rfl := Option.some.inj hstep
      exact hs.releaseKillSwitch
  | setKillSwitchEnabled enabled =>
      obtain rfl := Option.some.inj hstep
      have hbook : Unqueued { s with killSwitchEnabled := enabled } := hs
      unfold State.setKillSwitchEnabled
      dsimp only
      split_ifs
      · exact hbook
      · exact hbook.releaseKillSwitch
  | setVpnProxy adapters port user pass live =>
      obtain rfl := Option.some.inj hstep
      unfold State.setVpnProxy
      dsimp only
      split_ifs
      · exact hs.releaseKillSwitch
      · exact hs
  | addTorrent h st magnetHash =>
      simp only [step] at hstep
      split_ifs at hstep with hnew
      obtain rfl := Option.some.inj hstep
      exact hs.addTorrent h st magnetHash hnew
  | removeTorrent i =>
      obtain rfl := Option.some.inj hstep
      exact hs.removeTorrent i
  | forceRecheck i =>
      obtain rfl := Option.some.inj hstep
      exact hs.onRow (f := fun s h => { s with statusCache := Function.update s.statusCache h none })
        (fun _ _ hs => hs) i
  | setTorrentQueuePosition i position =>
      obtain rfl := Option.some.inj hstep
      unfold State.setTorrentQueuePosition
      split_ifs <;> exact hs
  | setTorrentMaxSeedSeconds i seconds =>
      obtain rfl := Option.some.inj hstep
      unfold State.setTorrentMaxSeedSeconds
      split
      · exact hs
      · split <;> exact hs
  | setTorrentStopAfterDownload i value =>
      obtain rfl := Option.some.inj hstep
      unfold State.setTorrentStopAfterDownload
      split
      · exact hs
      · split <;> exact hs
  | torrentChecked h =>
      obtain rfl := Option.some.inj hstep
      unfold State.onTorrentChecked
      split_ifs <;> exact hs
  | torrentFinished h =>
      obtain rfl := Option.some.inj hstep
      exact hs.onTorrentFinished h
  | torrentError h now =>
      obtain rfl := Option.some.inj hstep
      exact hs.guarded (guarded_noteTorrentFault h now s)
  | fileError h diskFull now =>
      obtain rfl := Option.some.inj hstep
      exact hs.guarded (guarded_onFileError h diskFull now s)
  | probed missing =>
      simp only [step] at hstep
      split_ifs at hstep
      obtain rfl := Option.some.inj hstep
      exact hs.guarded (guarded_probed missing s)
  | _ =>
      obtain rfl := Option.some.inj hstep
      exact hs

end Step

section Respect

-- Force-started, and known by its metadata.
def forced (s : State) (h : Handle) : Bool := s.valid h && (s.cachedStatus h).any s.exempt

-- The pass leaves paused what another than the queue paused last.
structure RespectsPauses (s : State) (now : Int) : Prop where
  resumed : ∀ h c, s.pausedBy h = some ⟨c, false⟩ → c ≠ .queue → s.forced h = false →
    h ∉ (queuePass now s).resumed
  paused : ∀ h c, s.pausedBy h = some ⟨c, false⟩ → c ≠ .queue → s.forced h = false →
    s.pausedNow h = true → (s.enforceDownloadQueue now).pausedNow h = true

theorem forced_of_verdict (hv : s.verdict now h = .resume) : s.forced h = true := by
  obtain ⟨hvalid, st, hst, hexempt, -⟩ := of_verdict_resume hv
  rw [forced, hvalid, hst, Option.any_some, hexempt]
  rfl

theorem mem_queuePaused_of_promotes (hp : h ∈ s.promotes now) : h ∈ s.queuePaused :=
  (of_verdict_queued (verdict_of_mem_promotes hp)).2.1

theorem Unqueued.respectsPauses (hs : Unqueued s) (now : Int) : s.RespectsPauses now := by
  by_cases hlimit : 0 < s.maxActiveDownloads
  · have hq := passed_queuePass hlimit now
    have hresumed : ∀ h c, s.pausedBy h = some ⟨c, false⟩ → c ≠ .queue → s.forced h = false →
        h ∉ (queuePass now s).resumed := by
      intro h c hpaused hcause hforced hmem
      rcases (hq.resumed h).mp hmem with ⟨-, hv⟩ | hpromoted
      · rw [forced_of_verdict hv] at hforced
        exact absurd hforced (by decide)
      · exact hs h c hpaused hcause (mem_queuePaused_of_promotes hpromoted)
    exact ⟨hresumed, fun h c hpaused hcause hforced hp =>
      hq.keeps h (hresumed h c hpaused hcause hforced) hp⟩
  · have hpass : queuePass now s = ⟨s, [], [], [], []⟩ := if_pos (by omega)
    refine ⟨fun h c _ _ _ => ?_, fun h c _ _ _ hp => ?_⟩
    · rw [hpass]
      exact List.not_mem_nil
    · rw [State.enforceDownloadQueue, hpass]
      exact hp

end Respect

end State

section Run

theorem unqueued_run {c : Config} {past : List (Reaction State Event Out)} {s : State}
    (hrun : (machine c).Run (fun _ _ => True) past s) : s.Unqueued := by
  refine hrun.invariant State.Unqueued ?_ ?_
  · intro h cause hpaused
    have hnone : (machine c).init.pausedBy h = none := rfl
    exact nomatch hnone.symm.trans hpaused
  · intro s e s' out hs _ hnext
    obtain ⟨t, hstep, hout⟩ := Option.map_eq_some_iff.mp hnext
    obtain ⟨rfl, -⟩ := Prod.mk.inj hout
    exact State.unqueued_step hs hstep

-- In every run, each pass of the queue respects the pauses it finds.
theorem run_respectsPauses {c : Config} {past : List (Reaction State Event Out)} {s : State}
    (hrun : (machine c).Run (fun _ _ => True) past s) :
    ∀ r ∈ past, ∀ w, r.event = .tick w → (r.before.beforeQueue w).RespectsPauses w.now := by
  intro r hr w _
  obtain ⟨_, _, hbefore, -⟩ := hrun.before hr
  exact ((unqueued_run hbefore).beforeQueue w).respectsPauses w.now

-- The user pauses a download, and the pass that follows lets it be.
theorem run_respectsPauses_user :
    0 ∉ (State.queuePass 100 (((start twoDownloads).pauseTorrent 0).onStateUpdate
      [(0, { fetching with paused := true })] |>.beforeQueue (calm 100 [tun]))).resumed := by
  have hstart : (machine twoDownloads).Run (fun _ _ => True) [] _ := .init
  have hpaused := hstart.extend (.pauseTorrent 0) trivial rfl
  have hseen := hpaused.extend (.stateUpdate [(0, { fetching with paused := true })]) trivial rfl
  have hticked := hseen.extend (.tick (calm 100 [tun])) trivial rfl
  exact (run_respectsPauses hticked _ List.mem_cons_self _ rfl).resumed 0 .user rfl (by decide)
    (by decide)

-- A force-started download that the user pauses is resumed by the next pass.
theorem run_not_respected : ∃ past s, (machine twoDownloads).Run (fun _ _ => True) past s ∧
    ∃ r ∈ past, ∃ w, r.event = .tick w ∧
      ∃ h, (r.before.beforeQueue w).pausedBy h = some ⟨.user, false⟩ ∧
        h ∈ (State.queuePass w.now (r.before.beforeQueue w)).resumed := by
  have hstart : (machine twoDownloads).Run (fun _ _ => True) [] _ := .init
  have hforced := hstart.extend (.setForceStart 0 true) trivial rfl
  have hpaused := hforced.extend (.pauseTorrent 0) trivial rfl
  have hseen := hpaused.extend (.stateUpdate [(0, { fetching with paused := true })]) trivial rfl
  have hticked := hseen.extend (.tick (calm 100 [tun])) trivial rfl
  exact ⟨_, _, hticked, _, List.mem_cons_self, _, rfl, 0, rfl, by decide⟩

end Run

end BATorrent.Pausing
