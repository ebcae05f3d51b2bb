import BATorrent.Torrent.Pausing.Queue

namespace BATorrent.Pausing

open Lib

variable {s s' t : State} {w : World} {now : Int} {h g : Handle} {st : Status}

namespace State

section Guarded

-- A change that no torrent's flag and no set of the queue or the kill switch takes part in.
structure Quiet (s s' : State) : Prop where
  live : s'.live = s.live
  pausedBy : s'.pausedBy = s.pausedBy
  queuePaused : s'.queuePaused = s.queuePaused
  frame : Frame s s'

-- What the checks of a tick do: they pause torrents, and keep their own books.
inductive Guarded : State → State → Prop where
  | quiet {s s' : State} (hquiet : Quiet s s') : Guarded s s'
  | pause {s : State} (cause : Cause) (h : Handle) (hcause : cause ≠ .queue) :
      Guarded s (s.pause cause h)
  | trans {s t s' : State} (first : Guarded s t) (second : Guarded t s') : Guarded s s'

theorem Quiet.refl (s : State) : Quiet s s := ⟨rfl, rfl, rfl, .refl s⟩

theorem Guarded.refl (s : State) : Guarded s s := .quiet (.refl s)

theorem guarded_foldl {α : Type} {f : State → α → State} (hf : ∀ s a, Guarded s (f s a))
    (l : List α) : ∀ s, Guarded s (l.foldl f s) := by
  induction l with
  | nil => exact Guarded.refl
  | cons a l ih => exact fun s => (hf s a).trans (ih _)

theorem quiet_warm (s : State) (h : Handle) : Quiet s (s.warm h) :=
  ⟨rfl, rfl, rfl, ⟨rfl, rfl, rfl, rfl, rfl, rfl, rfl, rfl, rfl⟩⟩

theorem guarded_warm (s : State) (h : Handle) : Guarded s (s.warm h) := .quiet (quiet_warm s h)

theorem frame_pause (s : State) (cause : Cause) (h : Handle) : Frame s (s.pause cause h) :=
  ⟨rfl, rfl, rfl, rfl, rfl, rfl, rfl, rfl, rfl⟩

theorem Guarded.frame (hg : Guarded s s') : Frame s s' := by
  induction hg with
  | quiet hquiet => exact hquiet.frame
  | pause cause h _ => exact frame_pause _ cause h
  | trans _ _ ih ih' => exact ih.trans ih'

theorem Guarded.valid (hg : Guarded s s') (g : Handle) : s'.valid g = s.valid g := by
  induction hg with
  | quiet hquiet => rw [State.valid, State.valid, hquiet.live]
  | pause cause h _ => exact setPaused_valid _ h true g
  | trans _ _ ih ih' => exact ih'.trans ih

theorem pausedNow_pause (s : State) (cause : Cause) (h : Handle) (hp : s.pausedNow g = true) :
    (s.pause cause h).pausedNow g = true := by
  by_cases heq : g = h
  · subst heq
    have hvalid : s.valid g = true := Option.isSome_of_any hp
    refine (setPaused_pausedNow s g true).trans ?_
    simp [hvalid]
  · have hentry := entry_pause_of_ne (s := s) heq cause
    simp only [entry, Entry.mk.injEq] at hentry
    simpa [pausedNow, hentry] using hp

-- No check resumes a torrent.
theorem Guarded.pausedNow (hg : Guarded s s') (hp : s.pausedNow g = true) : s'.pausedNow g = true := by
  induction hg with
  | quiet hquiet => rwa [State.pausedNow, hquiet.live]
  | pause cause h _ => exact pausedNow_pause _ cause h hp
  | trans _ _ ih ih' => exact ih' (ih hp)

end Guarded

section Checks

theorem guarded_pauseIf {cause : Cause} (hcause : cause ≠ .queue) (s : State) (p : Status → Bool)
    (h : Handle) : Guarded s (s.pauseIf cause p h) := by
  unfold pauseIf
  split_ifs
  · exact (guarded_warm s h).trans (.pause cause h hcause)
  · exact guarded_warm s h

theorem guarded_markCompleted (s : State) (h : Handle) : Guarded s (s.markCompleted h) := by
  unfold markCompleted
  split_ifs
  · cases s.cachedStatus h with
    | none => exact .refl s
    | some st =>
        dsimp only
        split_ifs
        · exact guarded_warm s h
        · have hbook : Quiet s { s.warm h with completedTorrents := st.hash :: s.completedTorrents } :=
            ⟨rfl, rfl, rfl, ⟨rfl, rfl, rfl, rfl, rfl, rfl, rfl, rfl, rfl⟩⟩
          exact (Guarded.quiet hbook).trans (.pause .completed h (by decide))
  · exact .refl s

theorem guarded_checkSeeds (due : Status → Bool) (s : State) : Guarded s (s.checkSeeds due) := by
  refine guarded_foldl (fun s h => ?_) _ s
  split_ifs
  · exact (guarded_warm s h).trans (guarded_markCompleted _ h)
  · exact guarded_warm s h

theorem guarded_checkSeedRatios (s : State) : Guarded s s.checkSeedRatios := by
  unfold checkSeedRatios
  cases s.seedRatio with
  | none => exact .refl s
  | some reached => exact guarded_checkSeeds _ s

theorem guarded_checkSeedingLimits (s : State) : Guarded s s.checkSeedingLimits :=
  guarded_checkSeeds _ s

theorem guarded_checkAutoComplete (s : State) : Guarded s s.checkAutoComplete := by
  unfold checkAutoComplete
  split_ifs
  · exact .refl s
  · exact guarded_checkSeeds _ s

theorem guarded_checkDiskPressure (w : World) (s : State) : Guarded s (s.checkDiskPressure w) := by
  have hpaused : Guarded s (s.torrents.foldl
      (fun s h => s.pauseIf .diskPressure (fun st => st.downloads && !st.paused) h) s) :=
    guarded_foldl (fun s h => guarded_pauseIf (by decide) s _ h) _ s
  unfold checkDiskPressure
  split_ifs
  · exact hpaused.trans (.quiet ⟨rfl, rfl, rfl, ⟨rfl, rfl, rfl, rfl, rfl, rfl, rfl, rfl, rfl⟩⟩)
  · exact .quiet ⟨rfl, rfl, rfl, ⟨rfl, rfl, rfl, rfl, rfl, rfl, rfl, rfl, rfl⟩⟩
  · exact .refl s

theorem guarded_beforeInterface (w : World) (s : State) : Guarded s (s.beforeInterface w) :=
  (((guarded_checkSeedRatios s).trans (guarded_checkSeedingLimits _)).trans
    (guarded_checkAutoComplete _)).trans (guarded_checkDiskPressure w _)

theorem guarded_checkMissingFiles (w : World) (s : State) : Guarded s (s.checkMissingFiles w) := by
  have hseen : Guarded s ((s.torrents.filter s.valid).foldl warm s) :=
    guarded_foldl guarded_warm _ s
  unfold checkMissingFiles
  dsimp only
  split_ifs
  · exact .refl s
  · exact hseen.trans (.quiet ⟨rfl, rfl, rfl, ⟨rfl, rfl, rfl, rfl, rfl, rfl, rfl, rfl, rfl⟩⟩)
  · exact hseen.trans (.quiet ⟨rfl, rfl, rfl, ⟨rfl, rfl, rfl, rfl, rfl, rfl, rfl, rfl, rfl⟩⟩)

theorem guarded_pauseAll {cause : Cause} (hcause : cause ≠ .queue) (s : State) :
    Guarded s (s.pauseAll cause) :=
  guarded_foldl (fun _ h => .pause cause h hcause) _ s

theorem guarded_checkMemoryGuard (w : World) (s : State) : Guarded s (s.checkMemoryGuard w) := by
  unfold checkMemoryGuard
  split_ifs
  · have hbook : Quiet s { s with memWarnedAt := w.now } :=
      ⟨rfl, rfl, rfl, ⟨rfl, rfl, rfl, rfl, rfl, rfl, rfl, rfl, rfl⟩⟩
    have hcause : Cause.memoryGuard ≠ .queue := by decide
    exact (Guarded.quiet hbook).trans (guarded_pauseAll hcause _)
  · exact .refl s

-- The part of the tick between the interface and the queue.
theorem guarded_beforeQueue (w : World) (s : State) :
    Guarded ((s.beforeInterface w).checkInterfaceStatus w) (s.beforeQueue w) :=
  (guarded_checkMissingFiles w _).trans (guarded_checkMemoryGuard w _)

theorem guarded_pauseMissing (confirmed : List NetworkSettings.Text) (s : State) :
    Guarded s (s.pauseMissing confirmed) := by
  unfold pauseMissing
  split_ifs
  · exact .refl s
  · refine guarded_foldl (fun s h => ?_) _ s
    unfold pauseMissingOne
    split_ifs
    · cases s.cachedStatus h with
      | none => exact .refl s
      | some st =>
          dsimp only
          split_ifs
          · refine ((guarded_warm s h).trans (.pause .missingData h (by decide))).trans (.quiet ?_)
            exact ⟨rfl, rfl, rfl, ⟨rfl, rfl, rfl, rfl, rfl, rfl, rfl, rfl, rfl⟩⟩
          · exact guarded_warm s h
    · exact .refl s

theorem guarded_probed (missing : List NetworkSettings.Text) (s : State) :
    Guarded s (s.probed missing) := by
  have hbooks : Quiet s { s with
      missingSeen := missing
      missingHashes := missing.filter (· ∈ s.missingSeen)
      missingPaused := s.missingPaused.filter (· ∈ missing.filter (· ∈ s.missingSeen)) } :=
    ⟨rfl, rfl, rfl, ⟨rfl, rfl, rfl, rfl, rfl, rfl, rfl, rfl, rfl⟩⟩
  have hacted := (Guarded.quiet hbooks).trans
    (guarded_pauseMissing (missing.filter (· ∈ s.missingSeen)) _)
  exact hacted.trans (.quiet ⟨rfl, rfl, rfl, ⟨rfl, rfl, rfl, rfl, rfl, rfl, rfl, rfl, rfl⟩⟩)

theorem guarded_noteTorrentFault (h : Handle) (now : Int) (s : State) :
    Guarded s (s.noteTorrentFault h now) := by
  unfold noteTorrentFault
  cases s.live h with
  | none => exact .refl s
  | some st =>
      dsimp only
      split_ifs
      all_goals first
        | exact .quiet ⟨rfl, rfl, rfl, ⟨rfl, rfl, rfl, rfl, rfl, rfl, rfl, rfl, rfl⟩⟩
        | exact (Guarded.pause .fileError h (by decide)).trans
            (.quiet ⟨rfl, rfl, rfl, ⟨rfl, rfl, rfl, rfl, rfl, rfl, rfl, rfl, rfl⟩⟩)

theorem guarded_onFileError (h : Handle) (diskFull : Bool) (now : Int) (s : State) :
    Guarded s (s.onFileError h diskFull now) := by
  unfold onFileError
  dsimp only
  split_ifs
  · exact guarded_foldl (fun s h => guarded_pauseIf (by decide) s _ h) _ s
  · exact (Guarded.pause .fileError h (by decide)).trans (guarded_noteTorrentFault h now _)
  · exact guarded_noteTorrentFault h now s

end Checks

end State

end BATorrent.Pausing
