import BATorrent.Torrent.Library.Destination

namespace BATorrent.Library

open Lib Lib.FilePath SessionResume State

variable {rules : Rules} {s s' : Filing} {t : State} {h : Handle}

namespace Filing

section Steps

theorem inv_start : Inv start where
  known := ⟨nofun, nofun⟩
  once := ⟨List.nodup_nil, nofun⟩
  magnetKnown := nofun
  magnetLive := nofun
  movingKnown := nofun
  staged := nofun
  rows := nofun

-- What an event does to the folders, where the guard holds.
theorem Inv.follow (hs : Inv s) {e : Event} (hcareful : s.Careful (.session e))
    (hmoves : s.moves e = true) (hact : s.act rules e = some t) : Inv (s.follow e t) := by
  obtain ⟨hnew, hunheld, hclean⟩ := hcareful
  obtain ⟨hknown, honce⟩ := decides_act hs.known hact
  replace honce := (honce hs.once).mpr hunheld
  cases e with
  | addTorrent ti savePath fails =>
      obtain rfl := Option.some.inj hact
      exact hs.addWithInfo ti savePath fails hnew hclean
  | addTorrentInfo ti savePath fails =>
      obtain rfl := Option.some.inj hact
      exact hs.addWithInfo ti savePath fails hnew hclean
  | addMagnet uri savePath coverHint fails commits =>
      obtain rfl := Option.some.inj hact
      obtain ⟨hmagnets, halerts⟩ := magnetHashes_addMagnet s.toState uri savePath coverHint fails commits
        hnew
      exact hs.addMagnet uri savePath coverHint fails
        (held_addMagnet uri savePath coverHint fails commits) hmagnets halerts hnew hclean
  | addMagnetWith uri savePath paused fails commits =>
      obtain rfl := Option.some.inj hact
      exact hs.addMagnetWith uri savePath paused fails commits hnew hclean
  | stageMagnet uri scratchDir fails =>
      obtain rfl := Option.some.inj hact
      exact hs.stageMagnet uri scratchDir fails hknown honce hnew
  | discardStaged hash =>
      obtain rfl := Option.some.inj hact
      exact hs.discardStaged hknown honce
  | commitStaged hash savePath paused fails commits =>
      obtain rfl := Option.some.inj hact
      exact hs.commitStaged savePath paused fails commits hknown honce hnew hclean
  | restoreFromResumeData p fails =>
      obtain rfl := Option.some.inj hact
      exact hs.restoreFromResumeData p fails hnew hclean
  | restoreRemoved hash fails =>
      obtain rfl := Option.some.inj hact
      exact hs.restoreRemoved fails hnew hclean
  | importFromQBittorrent file defaultSavePath fails =>
      obtain rfl := Option.some.inj hact
      exact hs.importFromQBittorrent file defaultSavePath fails hnew hclean
  | removeTorrent i deleteFiles permanent =>
      obtain rfl := Option.some.inj hact
      exact hs.removeTorrent i deleteFiles permanent hknown honce
  | setTorrentQueuePosition i position =>
      obtain rfl := Option.some.inj hact
      exact hs.setTorrentQueuePosition i position hknown honce
  | processAlerts commits => exact hs.processAlerts hact hclean
  | attempt i existing failed =>
      obtain ⟨⟨t', timer⟩, hattempt, rfl⟩ := Option.map_eq_some_iff.mp hact
      exact hs.attempt hattempt
  | restart files =>
      dsimp only [State.act] at hact
      split_ifs at hact
      obtain rfl := Option.some.inj hact
      exact Inv.restart s files hknown honce
  | loadResumeData fails disk => exact hs.loadNext hact hnew hclean
  | answerSave i saved => exact hs.answerSave hact
  | metadataArrives h ti => exact hs.metadataArrives hact hknown honce hclean
  | fileRenamed h file name =>
      obtain rfl := Option.some.inj hact
      exact hs.fileRenamed file name hknown honce
  | storageMoved h path =>
      obtain rfl := Option.some.inj hact
      exact hs.storageMoved (of_decide_eq_true hmoves) hknown honce
  | removalDone h => exact hs.removalDone hact hknown honce
  | pauseTorrent i =>
      obtain rfl := Option.some.inj hact
      exact hs.pauseTorrent i
  | resumeTorrent i =>
      obtain rfl := Option.some.inj hact
      exact hs.pauseTorrent i
  | pieceFinished h =>
      obtain rfl := Option.some.inj hact
      exact hs.stageResumeSave
  | pruneRemovedHistory _ | pauseAll | resumeAll | saveResumeData | setTempPath _
  | setContentLayout _ =>
      obtain rfl := Option.some.inj hact
      exact hs.frame_alerts rfl rfl rfl

theorem Inv.setAutoMove (hs : Inv s) (enabled : Bool) (path : Text) :
    Inv { s with autoMoveEnabled := enabled, autoMovePath := path } :=
  ⟨hs.known, hs.once, hs.magnetKnown, hs.magnetLive, hs.movingKnown, hs.staged, hs.rows⟩

theorem Inv.step (hs : Inv s) {call : Call} (hcareful : s.Careful call)
    (hstep : s.step rules call = some s') : Inv s' := by
  cases call with
  | session e =>
      unfold Filing.step at hstep
      dsimp only at hstep
      split_ifs at hstep with hmoves
      obtain ⟨⟨t, out⟩, hnext, rfl⟩ := Option.map_eq_some_iff.mp hstep
      exact hs.follow hcareful hmoves (act_of_next hnext).1
  | setAutoMove enabled path =>
      obtain rfl := Option.some.inj hstep
      exact hs.setAutoMove enabled path
  | torrentFinished h total =>
      unfold Filing.step at hstep
      dsimp only at hstep
      split_ifs at hstep with hrefused
      · obtain rfl := Option.some.inj hstep
        exact hs
      · obtain rfl := Option.some.inj hstep
        simp only [not_or] at hrefused
        exact hs.onTorrentFinished (by simpa using hrefused.2.2) hcareful

end Steps

section Run

theorem run_inv {past : List (Reaction Filing Call Empty)}
    (hrun : (filing rules).Run Careful past s) : Inv s := by
  refine Machine.Run.invariant Inv inv_start ?_ hrun
  intro s call s' out hs hcareful hnext
  obtain ⟨s'', hstep, heq⟩ := Option.map_eq_some_iff.mp hnext
  obtain ⟨rfl, -⟩ := Prod.mk.inj heq
  exact hs.step hcareful hstep

theorem pending_of_next {total : Int} {out : List Empty}
    (hnext : (filing rules).next s (.torrentFinished h total) = some (s', out)) :
    s.metadataPending h = false := by
  obtain ⟨s'', hstep, -⟩ := Option.map_eq_some_iff.mp hnext
  unfold step at hstep
  dsimp only at hstep
  split_ifs at hstep with hrefused
  · simpa using (not_or.mp (not_or.mp hrefused).2).2
  · simpa using (not_or.mp (not_or.mp hrefused).2).2

-- Where each step is careful, a torrent that ends is sent to the folder of its most recent add.
theorem run_lands {past : List (Reaction Filing Call Empty)}
    (hrun : (filing rules).Run Careful past s) :
    ∀ r ∈ past, ∀ h total, r.event = .torrentFinished h total →
      downloadedPayloadThisSession total = true → h ∈ r.before.torrents → r.before.Lands h := by
  intro r hr h total hevent _ hh
  obtain ⟨earlier, s', hearlier, hcareful, hnext⟩ := hrun.before hr
  rw [hevent] at hcareful hnext
  exact (run_inv hearlier).lands hh (pending_of_next hnext) hcareful

instance (s : Filing) (h : Handle) : Decidable (s.Lands h) :=
  match hu : s.torrent h with
  | none => isTrue fun u hu' => absurd (hu.symm.trans hu') (Option.some_ne_none u).symm
  | some t =>
      decidable_of_iff (if (s.choice t.hashes.best).waits = true then
          some (s.destination t.hashes.best) = (s.choice t.hashes.best).path
        else s.destination t.hashes.best = [] ∧ some (s.folder t) = (s.choice t.hashes.best).path)
        ⟨fun hlands _ hu' => Option.some.inj (hu.symm.trans hu') ▸ hlands, fun hlands => hlands t hu⟩

-- A torrent that downloads in the temp folder ends, and goes where it was added to.
theorem run_lands_temp : ∃ past s r, (filing unix).Run Careful past s ∧ r ∈ past ∧
    r.event = .torrentFinished 0 1 ∧ r.before.tempPath = some ['/', 't'] ∧ r.before.Lands 0 := by
  have hstart : (filing unix).Run Careful [] start := .init
  have hone := hstart.extend (.session (.setTempPath (some ['/', 't']))) ⟨trivial, trivial, trivial⟩ rfl
  have hadds : Careful { start with tempPath := some ['/', 't'] }
      (.session (.addTorrent hybridTorrent ['/', 'd'] false)) :=
    ⟨.inr (.inr rfl), .inr (.inr nofun), .inr ⟨by decide, rfl⟩⟩
  have htwo := hone.extend (.session (.addTorrent hybridTorrent ['/', 'd'] false)) hadds rfl
  have hthree := htwo.extend (.torrentFinished 0 1) (.inl rfl) rfl
  refine ⟨_, _, _, hthree, List.mem_cons_self, rfl, rfl, ?_⟩
  exact run_lands hthree _ List.mem_cons_self 0 1 rfl (by decide) (by decide +kernel)

-- Torrent and finish of a run that goes wrong.
theorem exists_astray (events : List Call)
    (hastray : ((filing unix).replay (fun _ _ => True) start events).any fun s =>
      decide (0 ∈ s.torrents ∧ ¬ s.Lands 0 ∧ ((filing unix).next s (.torrentFinished 0 1)).isSome)) :
    ∃ past s r, (filing unix).Run (fun _ _ => True) past s ∧ r ∈ past ∧
      r.event = .torrentFinished 0 1 ∧ 0 ∈ r.before.torrents ∧ ¬ r.before.Lands 0 := by
  obtain ⟨past, s, hrun, hmem, hlands, hends⟩ := Machine.exists_run (M := filing unix)
    (P := fun s => 0 ∈ s.torrents ∧ ¬ s.Lands 0 ∧
      ((filing unix).next s (.torrentFinished 0 1)).isSome) events hastray
  obtain ⟨⟨s', out⟩, hnext⟩ := Option.isSome_iff_exists.mp hends
  exact ⟨_, _, _, hrun.extend _ trivial hnext, List.mem_cons_self, rfl, hmem, hlands⟩

-- The folders are forgotten when the program ends.
theorem run_not_lands : ∃ past s r, (filing unix).Run (fun _ _ => True) past s ∧ r ∈ past ∧
    r.event = .torrentFinished 0 1 ∧ 0 ∈ r.before.torrents ∧ ¬ r.before.Lands 0 :=
  exists_astray
    [.session (.setTempPath (some ['/', 't'])),
      .session (.addTorrent hybridTorrent ['/', 'd'] false),
      .session (.answerSave 0 true), .session (.processAlerts true),
      .session (.restart [hybridTorrent.hashes.best]),
      .session (.loadResumeData false fun _ => none)] (by decide +kernel)

end Run

end Filing

end BATorrent.Library
