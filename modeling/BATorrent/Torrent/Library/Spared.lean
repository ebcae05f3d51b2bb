import BATorrent.Torrent.Library.Deletion

namespace BATorrent.Library

open Lib Lib.FilePath SessionResume State

variable {rules : Rules} {s s' : State} {p : Params} {h : Handle} {hash : Sha1Hash}

section Files

theorem mem_files {f : Text} : f ∈ s.files rules ↔ ∃ h ∈ s.torrents, f ∈ s.filesAt rules h :=
  List.mem_flatMap

theorem filesAt_of_torrent {t : Torrent} (ht : s.torrent h = some t) :
    s.filesAt rules h = t.locations rules := by
  rw [filesAt, ht]

theorem files_congr (hsession : s'.session = s.session) (htorrents : s'.torrents = s.torrents) :
    s'.files rules = s.files rules := by
  have hsame : s'.filesAt rules = s.filesAt rules := by
    funext h
    rw [filesAt, filesAt, State.torrent, State.torrent, hsession]
  rw [files, files, htorrents, hsame]

theorem files_held (hheld : s'.held = s.held) {f : Text} (hf : f ∈ s'.files rules) :
    f ∈ s.files rules := by
  rwa [← files_congr (held_eq hheld).1 (held_eq hheld).2.1]

-- An add brings the files of the torrent it is given.
theorem files_adopt (hknown : Known s) (hheld : s'.held = (s.adopt p).1.held) {f : Text}
    (hf : f ∈ s'.files rules) : f ∈ s.files rules ∨ f ∈ (s.given p).locations rules := by
  replace hf := files_held hheld hf
  obtain ⟨h, hh, hf⟩ := mem_files.mp hf
  obtain ⟨t, htorrent, hfound⟩ := adopt_valid (s := s) (p := p)
  rw [adopt_torrents] at hh
  rcases List.mem_append.mp hh with hh | hh
  · refine .inl (mem_files.mpr ⟨h, hh, ?_⟩)
    cases hfind : s.session.find p.hashes with
    | some u =>
        rw [filesAt, State.torrent, (adopt_of_find hfind).2] at hf
        exact hf
    | none =>
        have hold : (s.adopt p).1.torrent h = s.torrent h :=
          (Session.torrent_add_of_new hfind h).trans (if_neg (hknown.torrents h hh).ne)
        rw [filesAt, hold] at hf
        exact hf
  · rw [List.mem_singleton.mp hh, filesAt_of_torrent htorrent] at hf
    refine .inr ?_
    rcases hfound with hfind | ⟨hfind, rfl⟩
    · rw [given, hfind]
      exact hf
    · rw [given, hfind]
      exact hf

theorem files_unless (hknown : Known s) {refused : Prop} [Decidable refused]
    (hheld : s'.held = if refused then s.held else (s.adopt p).1.held) {f : Text}
    (hf : f ∈ s'.files rules) : f ∈ s.files rules ∨ f ∈ s.givenUnless rules refused p := by
  unfold givenUnless
  split_ifs at hheld ⊢
  · exact .inl (files_held hheld hf)
  · exact files_adopt hknown hheld hf

-- Rows may go, and the torrents of those that stay have the files they had.
theorem files_mono {rows : List Handle} {f : Text} (hf : f ∈ s'.files rules)
    (hrows : ∀ h ∈ s'.torrents, h ∈ rows)
    (hfiles : ∀ h ∈ rows, ∀ t', s'.torrent h = some t' →
      ∃ t, s.torrent h = some t ∧ t'.locations rules = t.locations rules) :
    f ∈ rows.flatMap (s.filesAt rules) := by
  obtain ⟨h, hh, hf⟩ := mem_files.mp hf
  refine List.mem_flatMap.mpr ⟨h, hrows h hh, ?_⟩
  unfold filesAt at hf
  split at hf
  next t' ht' =>
    obtain ⟨t, ht, hsame⟩ := hfiles h (hrows h hh) t' ht'
    rw [filesAt_of_torrent ht, ← hsame]
    exact hf
  next => cases hf

-- Of one torrent the files change.
theorem files_changed {g : Handle} {change : Torrent → Params} {f : Text} (hf : f ∈ s'.files rules)
    (htorrents : s'.torrents = s.torrents)
    (htorrent : ∀ h t', s'.torrent h = some t' → ∃ t, s.torrent h = some t ∧
      (t'.locations rules = t.locations rules ∨
        h = g ∧ t'.locations rules = (change t).locations rules)) :
    f ∈ s.files rules ∨ f ∈ s.changed rules g change := by
  obtain ⟨h, hh, hf⟩ := mem_files.mp hf
  rw [htorrents] at hh
  unfold filesAt at hf
  split at hf
  next t' ht' =>
    obtain ⟨t, ht, hsame | ⟨rfl, hsame⟩⟩ := htorrent h t' ht'
    · rw [hsame] at hf
      exact .inl (mem_files.mpr ⟨h, hh, filesAt_of_torrent ht ▸ hf⟩)
    · rw [hsame] at hf
      refine .inr ?_
      rw [changed, if_pos hh, ht]
      exact hf
  next => cases hf

theorem files_modify {g : Handle} {c : Torrent → Torrent} {f : Text} (hf : f ∈ s'.files rules)
    (htorrents : s'.torrents = s.torrents) (hhandle : ∀ t, (c t).handle = t.handle)
    (hhashes : ∀ t, (c t).hashes = t.hashes)
    (hsession : s'.session = s.session.modify g c hhandle hhashes) :
    f ∈ s.files rules ∨ f ∈ s.changed rules g fun t => (c t).toParams := by
  refine files_changed hf htorrents fun h t' ht' => ?_
  rw [State.torrent, hsession, Session.torrent_modify] at ht'
  obtain ⟨t, ht, rfl⟩ := Option.map_eq_some_iff.mp ht'
  refine ⟨t, ht, ?_⟩
  split_ifs with hgh
  · exact .inr ⟨(Session.torrent_eq_some.mp ht).2.symm.trans hgh, rfl⟩
  · exact .inl rfl

theorem locations_remove {g : Handle} {t' : Torrent} (ht' : (s.session.remove g).torrent h = some t') :
    ∃ t, s.torrent h = some t ∧ t'.locations rules = t.locations rules := by
  rw [Session.remove, Session.torrent_modify] at ht'
  obtain ⟨t, ht, rfl⟩ := Option.map_eq_some_iff.mp ht'
  refine ⟨t, ht, ?_⟩
  split_ifs <;> rfl

theorem files_removeTorrent (i : Nat) (deleteFiles permanent : Bool) {f : Text}
    (hf : f ∈ (s.removeTorrent rules i deleteFiles permanent).files rules) :
    f ∈ (s.torrents.eraseIdx i).flatMap (s.filesAt rules) := by
  cases hi : s.torrents[i]? with
  | none =>
      rw [removeTorrent, hi] at hf
      rw [List.eraseIdx_of_length_le (List.getElem?_eq_none_iff.mp hi)]
      exact hf
  | some g =>
      obtain ⟨hsession, hrest⟩ := Prod.mk.inj (held_removeTorrent rules hi deleteFiles permanent)
      have htorrents := (Prod.mk.inj hrest).1
      refine files_mono hf (fun h hh => htorrents ▸ hh) fun h _ t' ht' => ?_
      rw [State.torrent, hsession] at ht'
      split_ifs at ht'
      · exact locations_remove ht'
      · exact ⟨t', ht', rfl⟩

theorem files_commitStaged (hknown : Known s) (savePath : Text) (paused fails commits : Bool) {f : Text}
    (hf : f ∈ (s.commitStaged hash savePath paused fails commits).files rules) :
    f ∈ s.files rules ∨ f ∈ s.arriving rules (.commitStaged hash savePath paused fails commits) := by
  rw [arriving]
  cases hst : s.staged.lookup hash with
  | none =>
      rw [State.commitStaged, hst] at hf
      exact .inl hf
  | some st =>
      have hheld := held_commitStaged hst savePath paused fails commits
      dsimp only
      split_ifs at hheld ⊢
      · obtain ⟨hsession, hrest⟩ := Prod.mk.inj hheld
        have htorrents := (Prod.mk.inj hrest).1
        obtain ⟨h, hh, hf⟩ := mem_files.mp hf
        have hsame : (s.commitStaged hash savePath paused fails commits).filesAt rules h =
            s.filesAt rules h := by
          rw [filesAt, filesAt, State.torrent, State.torrent, hsession]
        rw [hsame] at hf
        rw [htorrents] at hh
        rcases List.mem_append.mp hh with hh | hh
        · exact .inl (mem_files.mpr ⟨h, hh, hf⟩)
        · exact .inr (List.mem_singleton.mp hh ▸ hf)
      · have herased : Known { s with staged := s.staged.erase hash } :=
          hknown.mono (fun _ hh => hh) (fun _ _ hst => (lookup_erase_eq_some.mp hst).2) le_rfl
        exact files_unless herased
          (hheld.trans (held_addMagnetWith st.uri savePath paused fails commits)) hf

theorem files_stageMagnet (hknown : Known s) (uri : Magnet) (scratchDir : Text) (fails : Bool) {f : Text}
    (hf : f ∈ (s.stageMagnet uri scratchDir fails).files rules) : f ∈ s.files rules := by
  unfold State.stageMagnet at hf
  dsimp only at hf
  split_ifs at hf
  · exact hf
  · refine files_mono hf (fun _ hh => hh) fun h hh t' ht' => ?_
    cases hfind : s.session.find uri.hashes with
    | some u =>
        rw [State.torrent, Session.add_of_find (p := magnetParams uri scratchDir uri.name) hfind] at ht'
        exact ⟨t', ht', rfl⟩
    | none =>
        rw [State.torrent, Session.torrent_add_of_new (p := magnetParams uri scratchDir uri.name) hfind,
          if_neg (hknown.torrents h hh).ne] at ht'
        exact ⟨t', ht', rfl⟩

theorem files_loadNext (hknown : Known s) {fails : Bool} {disk : Text → Option Int}
    (hload : s.loadNext rules fails disk = some s') {f : Text} (hf : f ∈ s'.files rules) :
    f ∈ s.files rules ∨ f ∈ s.arriving rules (.loadResumeData fails disk) := by
  unfold State.loadNext at hload
  rw [arriving]
  cases hunloaded : s.unloaded with
  | nil =>
      rw [hunloaded] at hload
      cases hload
  | cons hash rest =>
      rw [hunloaded] at hload
      obtain rfl := Option.some.inj hload
      rw [List.head?_cons, Option.bind_some]
      cases hp : s.resumeDir.lookup hash with
      | none =>
          unfold State.loadResumeData at hf
          dsimp only at hf
          rw [hp] at hf
          exact .inl hf
      | some p =>
          exact files_unless (s := { s with unloaded := rest }) ⟨hknown.torrents, hknown.staged⟩
            (held_loadResumeData rules (s := { s with unloaded := rest }) fails disk hp) hf

-- What each event does to the files of the list.
theorem files_act (hknown : Known s) {e : Event} (hact : s.act rules e = some s') {f : Text}
    (hf : f ∈ s'.files rules) : f ∈ s.staying rules e ∨ f ∈ s.arriving rules e := by
  cases e with
  | addTorrent ti savePath fails =>
      obtain rfl := Option.some.inj hact
      exact files_unless hknown (held_addWithInfo ti savePath fails) hf
  | addTorrentInfo ti savePath fails =>
      obtain rfl := Option.some.inj hact
      exact files_unless hknown (held_addWithInfo ti savePath fails) hf
  | addMagnet uri savePath coverHint fails commits =>
      obtain rfl := Option.some.inj hact
      exact files_unless hknown (held_addMagnet uri savePath coverHint fails commits) hf
  | addMagnetWith uri savePath paused fails commits =>
      obtain rfl := Option.some.inj hact
      exact files_unless hknown (held_addMagnetWith uri savePath paused fails commits) hf
  | stageMagnet uri scratchDir fails =>
      obtain rfl := Option.some.inj hact
      exact .inl (files_stageMagnet hknown uri scratchDir fails hf)
  | discardStaged hash =>
      obtain rfl := Option.some.inj hact
      refine .inl ?_
      unfold State.discardStaged at hf
      split at hf
      · exact hf
      · exact files_mono hf (fun _ hh => hh) fun _ _ _ ht' => locations_remove ht'
  | commitStaged hash savePath paused fails commits =>
      obtain rfl := Option.some.inj hact
      exact files_commitStaged hknown savePath paused fails commits hf
  | restoreFromResumeData p fails =>
      obtain rfl := Option.some.inj hact
      exact files_unless hknown (held_restoreFromResumeData p fails) hf
  | restoreRemoved hash fails =>
      obtain rfl := Option.some.inj hact
      rw [arriving]
      cases hp : s.removedDir.lookup hash with
      | none =>
          rw [State.restoreRemoved, hp] at hf
          exact .inl hf
      | some p => exact files_unless hknown (held_restoreRemoved fails hp) hf
  | importFromQBittorrent file defaultSavePath fails =>
      obtain rfl := Option.some.inj hact
      exact files_unless hknown (held_importFromQBittorrent file defaultSavePath fails) hf
  | removeTorrent i deleteFiles permanent =>
      obtain rfl := Option.some.inj hact
      exact .inl (files_removeTorrent i deleteFiles permanent hf)
  | setTorrentQueuePosition i position =>
      obtain rfl := Option.some.inj hact
      have hrows := (torrents_setTorrentQueuePosition (s := s) i position).subset
      refine .inl (files_mono hf hrows fun h _ t' ht' => ⟨t', ?_, rfl⟩)
      unfold State.setTorrentQueuePosition at ht'
      split_ifs at ht' <;> exact ht'
  | processAlerts commits => exact .inl (files_held (held_processAlerts hact) hf)
  | attempt i existing failed =>
      obtain ⟨⟨s'', timer⟩, hattempt, rfl⟩ := Option.map_eq_some_iff.mp hact
      exact .inl (files_held (held_attempt hattempt) hf)
  | restart files =>
      dsimp only [State.act] at hact
      split_ifs at hact
      obtain rfl := Option.some.inj hact
      obtain ⟨-, hrest⟩ := Prod.mk.inj (held_restart (s := s) files)
      have htorrents := (Prod.mk.inj hrest).1
      rw [State.files, htorrents] at hf
      cases hf
  | loadResumeData fails disk => exact files_loadNext hknown hact hf
  | answerSave i saved => exact .inl (files_held (held_answerSave hact) hf)
  | metadataArrives h ti =>
      obtain ⟨t, -, hact⟩ := Option.bind_eq_some_iff.mp hact
      split_ifs at hact
      obtain ⟨session, hreceive, rfl⟩ := Option.map_eq_some_iff.mp hact
      refine files_changed hf rfl fun g t' ht' => ?_
      have ht' := (Session.receive_eq_some g hreceive).2.symm.trans ht'
      obtain ⟨u, hu, rfl⟩ := Option.map_eq_some_iff.mp ht'
      refine ⟨u, hu, ?_⟩
      split_ifs with hgh
      · exact .inr ⟨(Session.torrent_eq_some.mp hu).2.symm.trans hgh, rfl⟩
      · exact .inl rfl
  | fileRenamed h file name =>
      obtain rfl := Option.some.inj hact
      exact files_modify (s := s) (c := fun t => { t with names := t.names.set file name }) hf rfl
        (fun _ => rfl) (fun _ => rfl) rfl
  | storageMoved h path =>
      obtain rfl := Option.some.inj hact
      exact files_modify (s := s) (c := fun t => { t with savePath := path }) hf rfl (fun _ => rfl)
        (fun _ => rfl) rfl
  | removalDone h =>
      obtain ⟨t, -, hact⟩ := Option.bind_eq_some_iff.mp hact
      split_ifs at hact
      obtain rfl := Option.some.inj hact
      refine .inl (files_mono hf (fun _ hh => hh) fun g _ t' ht' => ⟨t', ?_, rfl⟩)
      rw [State.torrent, Session.torrent_drop] at ht'
      split_ifs at ht'
      exact ht'
  | pauseTorrent i | resumeTorrent i =>
      obtain rfl := Option.some.inj hact
      exact .inl (files_held (held_pauseTorrent i) hf)
  | pieceFinished h =>
      obtain rfl := Option.some.inj hact
      exact .inl (files_held held_stageResumeSave hf)
  | pruneRemovedHistory _ | pauseAll | resumeAll | saveResumeData | setTempPath _
  | setContentLayout _ =>
      obtain rfl := Option.some.inj hact
      exact .inl hf

end Files

section Waiting

-- What the timers have to do, and what is kept of it for the next start.
def State.deletions (s : State) : List Scheduled × List Text × List Text :=
  (s.timers, s.pendingTrash, s.pendingDelete)

theorem waiting_congr (hsame : s'.deletions = s.deletions) : s'.waiting = s.waiting := by
  obtain ⟨htimers, hrest⟩ := Prod.mk.inj hsame
  obtain ⟨htrash, hdelete⟩ := Prod.mk.inj hrest
  rw [waiting, waiting, htimers, htrash, hdelete]

theorem deletions_stageResumeSave : (s.stageResumeSave h).deletions = s.deletions := by
  unfold stageResumeSave
  split_ifs <;> rfl

theorem deletions_pauseTorrent (i : Nat) : (s.pauseTorrent i).deletions = s.deletions := by
  unfold State.pauseTorrent
  split
  · exact deletions_stageResumeSave
  · rfl

theorem deletions_writeResume (hash : Sha1Hash) (p : Params) (commits : Bool) :
    (s.writeResume hash p commits).deletions = s.deletions := by
  unfold writeResume
  split_ifs <;> rfl

theorem deletions_addWithInfo (ti : TorrentInfo) (savePath : Text) (fails : Bool) :
    (s.addWithInfo ti savePath fails).deletions = s.deletions := by
  unfold State.addWithInfo
  split_ifs
  · rfl
  · exact deletions_stageResumeSave

theorem deletions_addMagnet (uri : Magnet) (savePath coverHint : Text) (fails commits : Bool) :
    (s.addMagnet uri savePath coverHint fails commits).deletions = s.deletions := by
  unfold State.addMagnet
  split_ifs
  · rfl
  · exact deletions_writeResume _ _ commits

theorem deletions_addMagnetWith (uri : Magnet) (savePath : Text) (paused fails commits : Bool) :
    (s.addMagnetWith uri savePath paused fails commits).deletions = s.deletions := by
  have hadded := deletions_addMagnet (s := s) uri savePath [] fails commits
  unfold State.addMagnetWith
  dsimp only
  split_ifs
  · split
    · exact (deletions_pauseTorrent _).trans hadded
    · exact hadded
  · exact hadded

theorem deletions_handleMetadata : (s.handleMetadata h).deletions = s.deletions := by
  have hrekey : (s.rekey h).deletions = s.deletions := by
    unfold State.rekey
    split
    · split_ifs <;> rfl
    · rfl
  rw [State.handleMetadata, deletions_stageResumeSave, hrekey]

theorem deletions_processAlert (a : Alert) (commits : Bool) :
    (s.processAlert a commits).deletions = s.deletions := by
  unfold State.processAlert
  split_ifs
  · rfl
  · split
    · unfold State.persistResumeAlert
      split_ifs
      · rfl
      · exact deletions_writeResume _ _ commits
    · rfl
    · split_ifs
      · exact deletions_handleMetadata
      · rfl
    · exact deletions_stageResumeSave

theorem deletions_stageMagnet (uri : Magnet) (scratchDir : Text) (fails : Bool) :
    (s.stageMagnet uri scratchDir fails).deletions = s.deletions := by
  unfold State.stageMagnet
  dsimp only
  split_ifs <;> rfl

theorem deletions_commitStaged (savePath : Text) (paused fails commits : Bool) :
    (s.commitStaged hash savePath paused fails commits).deletions = s.deletions := by
  unfold State.commitStaged
  split
  · rfl
  · dsimp only
    split_ifs
    · exact deletions_handleMetadata
    · exact deletions_writeResume _ _ commits
    · exact deletions_addMagnetWith _ savePath paused fails commits

theorem deletions_restoreFromResumeData (p : Params) (fails : Bool) :
    (s.restoreFromResumeData p fails).deletions = s.deletions := by
  unfold State.restoreFromResumeData
  split_ifs
  · rfl
  · dsimp only
    split
    · split_ifs <;> rfl
    · rfl

theorem deletions_restoreRemoved (fails : Bool) :
    (s.restoreRemoved hash fails).deletions = s.deletions := by
  unfold State.restoreRemoved
  split
  · rfl
  · split_ifs
    · rfl
    · exact deletions_restoreFromResumeData _ fails

theorem deletions_importFromQBittorrent (file : Backup) (defaultSavePath : Text) (fails : Bool) :
    (s.importFromQBittorrent file defaultSavePath fails).deletions = s.deletions := by
  rw [importFromQBittorrent_eq]
  split_ifs <;> rfl

theorem deletions_loadResumeData (fails : Bool) (disk : Text → Option Int) :
    (s.loadResumeData rules hash fails disk).deletions = s.deletions := by
  unfold State.loadResumeData
  split
  · rfl
  · dsimp only
    split_ifs <;> rfl

theorem mem_waiting {path : Text} : path ∈ s.waiting ↔
    (∃ timer ∈ s.timers, path ∈ timer.targets) ∨ path ∈ s.pendingTrash ∨ path ∈ s.pendingDelete := by
  rw [waiting, List.mem_append, List.mem_append, List.mem_flatMap, or_assoc]

theorem mem_foldl_pending {targets pending : List Text} {path : Text}
    (hmem : path ∈ targets.foldl (fun pending t => if t ∈ pending then pending else pending ++ [t])
      pending) : path ∈ pending ∨ path ∈ targets := by
  induction targets generalizing pending with
  | nil => exact .inl hmem
  | cons t targets ih =>
      rcases ih hmem with hpending | htargets
      · dsimp only at hpending
        split_ifs at hpending
        · exact .inl hpending
        · rcases List.mem_append.mp hpending with hold | hlast
          · exact .inl hold
          · exact .inr (List.mem_singleton.mp hlast ▸ List.mem_cons_self)
      · exact .inr (List.mem_cons_of_mem t htargets)

theorem waiting_addPendingTargets (permanent : Bool) (targets : List Text) {path : Text}
    (hmem : path ∈ (s.addPendingTargets permanent targets).waiting) :
    path ∈ s.waiting ∨ path ∈ targets := by
  rw [mem_waiting] at hmem ⊢
  unfold addPendingTargets setPendingTargets pendingTargets at hmem
  cases permanent with
  | true =>
      rcases hmem with htimer | htrash | hdelete
      · exact .inl (.inl htimer)
      · exact .inl (.inr (.inl htrash))
      · exact (mem_foldl_pending hdelete).imp_left fun hold => .inr (.inr hold)
  | false =>
      rcases hmem with htimer | htrash | hdelete
      · exact .inl (.inl htimer)
      · exact (mem_foldl_pending htrash).imp_left fun hold => .inr (.inl hold)
      · exact .inl (.inr (.inr hdelete))

theorem waiting_schedule (permanent : Bool) (targets : List Text) (attempt : Nat) {path : Text}
    (hmem : path ∈ (s.schedule permanent targets attempt).waiting) :
    path ∈ s.waiting ∨ path ∈ targets := by
  have hkept : path ∈ (if attempt = 0 then s.addPendingTargets permanent targets else s).waiting →
      path ∈ s.waiting ∨ path ∈ targets := by
    split_ifs
    · exact waiting_addPendingTargets permanent targets
    · exact .inl
  rw [mem_waiting] at hmem hkept
  rcases hmem with ⟨timer, htimer, hpath⟩ | hpending
  · rcases List.mem_append.mp htimer with hold | hnew
    · exact hkept (.inl ⟨timer, hold, hpath⟩)
    · rw [List.mem_singleton.mp hnew] at hpath
      exact .inr hpath
  · exact hkept (.inr hpending)

theorem waiting_clearDoneTargets (permanent : Bool) (attempted remaining : List Text) {path : Text}
    (hmem : path ∈ (s.clearDoneTargets permanent attempted remaining).waiting) : path ∈ s.waiting := by
  rw [mem_waiting] at hmem ⊢
  unfold clearDoneTargets setPendingTargets pendingTargets at hmem
  cases permanent with
  | true => exact hmem.imp_right fun hpending => hpending.imp_right List.mem_of_mem_filter
  | false => exact hmem.imp_right fun hpending => hpending.imp_left List.mem_of_mem_filter

-- An attempt tries again what it failed to take away, and no more.
theorem waiting_attempt {i : Nat} {existing failed : List Text} {timer : Scheduled}
    (hattempt : s.attempt i existing failed = some (s', timer)) :
    (∀ path ∈ s'.waiting, path ∈ s.waiting) ∧ ∀ path ∈ timer.targets, path ∈ s.waiting := by
  obtain ⟨timer', htimer, heq⟩ := Option.map_eq_some_iff.mp hattempt
  obtain ⟨rfl, rfl⟩ := Prod.mk.inj heq
  have htargets : ∀ path ∈ timer'.targets, path ∈ s.waiting := fun path hpath =>
    mem_waiting.mpr (.inl ⟨timer', List.mem_of_getElem? htimer, hpath⟩)
  have hcleared {remaining : List Text} {path : Text}
      (hmem : path ∈ (State.clearDoneTargets { s with timers := s.timers.eraseIdx i } timer'.permanent
        timer'.targets remaining).waiting) : path ∈ s.waiting := by
    have hmem := mem_waiting.mp (waiting_clearDoneTargets _ _ _ hmem)
    refine mem_waiting.mpr (hmem.imp_left fun ⟨timer, htimer, hpath⟩ => ⟨timer, ?_, hpath⟩)
    exact List.mem_of_mem_eraseIdx htimer
  constructor
  · intro path hmem
    split_ifs at hmem
    · rcases waiting_schedule _ _ _ hmem with hold | hremaining
      · exact hcleared hold
      · exact htargets path (List.mem_of_mem_filter (List.mem_of_mem_filter hremaining))
    · exact hcleared hmem
  · exact fun path hpath => htargets path (List.mem_of_mem_filter hpath)

theorem waiting_removeTorrent (i : Nat) (deleteFiles permanent : Bool) {path : Text}
    (hmem : path ∈ (s.removeTorrent rules i deleteFiles permanent).waiting) :
    path ∈ s.waiting ∨ path ∈ s.scheduled rules (.removeTorrent i deleteFiles permanent) := by
  unfold State.removeTorrent at hmem
  cases hi : s.torrents[i]? with
  | none =>
      rw [hi] at hmem
      exact .inl hmem
  | some h =>
      rw [hi] at hmem
      dsimp only at hmem
      cases ht : s.torrent h with
      | none =>
          rw [ht] at hmem
          exact .inl hmem
      | some t =>
          rw [ht] at hmem
          have hmem : path ∈ ((s.release t).scheduleRemoval deleteFiles permanent
              (if deleteFiles = true then s.removalTargets rules t else [])).waiting := hmem
          have hreleased : (s.release t).waiting = s.waiting := waiting_congr rfl
          cases deleteFiles with
          | false => exact .inl (hreleased ▸ hmem)
          | true =>
              rw [scheduled, hi, Option.bind_some, ht]
              rw [← hreleased]
              unfold State.scheduleRemoval at hmem
              split at hmem
              · exact waiting_schedule _ _ _ hmem
              · exact waiting_schedule _ _ _ hmem
              · exact .inl hmem

-- The next start has the targets that were kept.
theorem waiting_restart (files : List Sha1Hash) {path : Text}
    (hmem : path ∈ (s.restart files).waiting) : path ∈ s.waiting := by
  have htrash : path ∈ s.pendingTrash → path ∈ s.waiting := fun hpath =>
    mem_waiting.mpr (.inr (.inl hpath))
  have hdelete : path ∈ s.pendingDelete → path ∈ s.waiting := fun hpath =>
    mem_waiting.mpr (.inr (.inr hpath))
  unfold State.restart at hmem
  dsimp only at hmem
  split_ifs at hmem
  · rcases waiting_schedule _ _ _ hmem with hmem | hpath
    · rcases waiting_schedule _ _ _ hmem with hnone | hpath
      · cases hnone
      · exact htrash hpath
    · exact hdelete hpath
  · rcases waiting_schedule _ _ _ hmem with hnone | hpath
    · cases hnone
    · exact hdelete hpath
  · rcases waiting_schedule _ _ _ hmem with hnone | hpath
    · cases hnone
    · exact htrash hpath
  · cases hmem

-- What each event does to the targets that wait.
theorem waiting_act {e : Event} (hact : s.act rules e = some s') {path : Text}
    (hmem : path ∈ s'.waiting) : path ∈ s.waiting ∨ path ∈ s.scheduled rules e := by
  have hsame (hdeletions : s'.deletions = s.deletions) : path ∈ s.waiting ∨ path ∈ s.scheduled rules e :=
    .inl (waiting_congr hdeletions ▸ hmem)
  cases e with
  | removeTorrent i deleteFiles permanent =>
      obtain rfl := Option.some.inj hact
      exact waiting_removeTorrent i deleteFiles permanent hmem
  | attempt i existing failed =>
      obtain ⟨⟨s'', timer⟩, hattempt, rfl⟩ := Option.map_eq_some_iff.mp hact
      exact .inl ((waiting_attempt hattempt).1 path hmem)
  | restart files =>
      dsimp only [State.act] at hact
      split_ifs at hact
      obtain rfl := Option.some.inj hact
      exact .inl (waiting_restart files hmem)
  | addTorrent ti savePath fails | addTorrentInfo ti savePath fails =>
      obtain rfl := Option.some.inj hact
      exact hsame (deletions_addWithInfo ti savePath fails)
  | addMagnet uri savePath coverHint fails commits =>
      obtain rfl := Option.some.inj hact
      exact hsame (deletions_addMagnet uri savePath coverHint fails commits)
  | addMagnetWith uri savePath paused fails commits =>
      obtain rfl := Option.some.inj hact
      exact hsame (deletions_addMagnetWith uri savePath paused fails commits)
  | stageMagnet uri scratchDir fails =>
      obtain rfl := Option.some.inj hact
      exact hsame (deletions_stageMagnet uri scratchDir fails)
  | discardStaged hash =>
      obtain rfl := Option.some.inj hact
      refine hsame ?_
      unfold State.discardStaged
      split <;> rfl
  | commitStaged hash savePath paused fails commits =>
      obtain rfl := Option.some.inj hact
      exact hsame (deletions_commitStaged savePath paused fails commits)
  | restoreFromResumeData p fails =>
      obtain rfl := Option.some.inj hact
      exact hsame (deletions_restoreFromResumeData p fails)
  | restoreRemoved hash fails =>
      obtain rfl := Option.some.inj hact
      exact hsame (deletions_restoreRemoved fails)
  | importFromQBittorrent file defaultSavePath fails =>
      obtain rfl := Option.some.inj hact
      exact hsame (deletions_importFromQBittorrent file defaultSavePath fails)
  | setTorrentQueuePosition i position =>
      obtain rfl := Option.some.inj hact
      refine hsame ?_
      unfold State.setTorrentQueuePosition
      split_ifs <;> rfl
  | processAlerts commits =>
      dsimp only [State.act] at hact
      unfold State.processAlerts at hact
      split at hact
      · cases hact
      · obtain rfl := Option.some.inj hact
        exact hsame (deletions_processAlert _ commits)
  | loadResumeData fails disk =>
      dsimp only [State.act] at hact
      unfold State.loadNext at hact
      split at hact
      · cases hact
      · obtain rfl := Option.some.inj hact
        exact hsame (deletions_loadResumeData fails disk)
  | answerSave i saved =>
      obtain ⟨h, -, hact⟩ := Option.bind_eq_some_iff.mp hact
      dsimp only at hact
      refine hsame ?_
      split at hact <;> split_ifs at hact <;> rw [← Option.some.inj hact] <;> rfl
  | metadataArrives h ti =>
      obtain ⟨t, -, hact⟩ := Option.bind_eq_some_iff.mp hact
      split_ifs at hact
      obtain ⟨session, -, rfl⟩ := Option.map_eq_some_iff.mp hact
      exact hsame rfl
  | removalDone h =>
      obtain ⟨t, -, hact⟩ := Option.bind_eq_some_iff.mp hact
      split_ifs at hact
      obtain rfl := Option.some.inj hact
      exact hsame rfl
  | pauseTorrent i | resumeTorrent i =>
      obtain rfl := Option.some.inj hact
      exact hsame (deletions_pauseTorrent i)
  | pieceFinished h =>
      obtain rfl := Option.some.inj hact
      exact hsame deletions_stageResumeSave
  | pruneRemovedHistory _ | pauseAll | resumeAll | saveResumeData | setTempPath _
  | setContentLayout _ | fileRenamed _ _ _ | storageMoved _ _ =>
      obtain rfl := Option.some.inj hact
      exact hsame rfl

end Waiting

section Run

variable {under : Text → Text → Prop}

-- An event that brings files and one that schedules targets are not the same.
theorem arriving_or_scheduled (rules : Rules) (s : State) (e : Event) :
    s.arriving rules e = [] ∨ s.scheduled rules e = [] := by
  cases e with
  | removeTorrent i deleteFiles permanent => exact .inl rfl
  | _ => exact .inr rfl

theorem staying_subset {e : Event} {f : Text} (hf : f ∈ s.staying rules e) : f ∈ s.files rules := by
  cases e with
  | removeTorrent i deleteFiles permanent =>
      obtain ⟨h, hh, hf⟩ := List.mem_flatMap.mp hf
      exact mem_files.mpr ⟨h, List.mem_of_mem_eraseIdx hh, hf⟩
  | _ => exact hf

theorem Clear.act (hs : Clear under rules s) (hknown : Known s) {e : Event}
    (hspares : Spares under rules s e) (hact : s.act rules e = some s') : Clear under rules s' := by
  intro f hf path hpath
  rcases files_act hknown hact hf with hstays | harrives
  · rcases waiting_act hact hpath with hwaits | hnew
    · exact hs f (staying_subset hstays) path hwaits
    · exact hspares.staying f hstays path hnew
  · rcases waiting_act hact hpath with hwaits | hnew
    · exact hspares.arriving f harrives path hwaits
    · rcases arriving_or_scheduled rules s e with hnone | hnone
      · rw [hnone] at harrives
        cases harrives
      · rw [hnone] at hnew
        cases hnew

theorem run_clear {past : List (Reaction State Event Out)}
    (hrun : (machine rules).Run (Spares under rules) past s) : Clear under rules s := by
  have hboth : Known s ∧ Clear under rules s := by
    refine Machine.Run.invariant (fun s => Known s ∧ Clear under rules s) ?_ ?_ hrun
    · exact ⟨known_init, nofun⟩
    · intro s e s' out ⟨hknown, hs⟩ hspares hnext
      have hact := (act_of_next hnext).1
      exact ⟨(decides_act hknown hact).1, hs.act hknown hspares hact⟩
  exact hboth.2

-- Where each step spares the files of the list, no attempt takes one of them away.
theorem run_spared {past : List (Reaction State Event Out)}
    (hrun : (machine rules).Run (Spares under rules) past s) :
    ∀ r ∈ past, ∀ o ∈ r.out, ∀ f ∈ r.before.files rules, ¬ under o.path f := by
  intro r hr o ho f hf
  obtain ⟨earlier, s', hearlier, -, hnext⟩ := hrun.before hr
  refine run_clear hearlier f hf o.path ?_
  rw [(act_of_next hnext).2] at ho
  unfold touched at ho
  split at ho
  · split at ho
    next s'' timer hattempt =>
      obtain ⟨path, hpath, rfl⟩ := List.mem_map.mp ho
      exact (waiting_attempt hattempt).2 path hpath
    next => cases ho
  · cases ho

-- A file is at a path or below it, by their names.
def AtOrUnder (path file : Text) : Prop := file = path ∨ path ++ ['/'] <+: file

instance (path file : Text) : Decidable (AtOrUnder path file) := inferInstanceAs (Decidable (_ ∨ _))

instance [∀ path file, Decidable (under path file)] (s : State) (e : Event) :
    Decidable (Spares under rules s e) :=
  decidable_of_iff ((∀ f ∈ s.arriving rules e, ∀ p ∈ s.waiting, ¬ under p f) ∧
    ∀ f ∈ s.staying rules e, ∀ p ∈ s.scheduled rules e, ¬ under p f)
    ⟨fun ⟨ha, hs⟩ => ⟨ha, hs⟩, fun ⟨ha, hs⟩ => ⟨ha, hs⟩⟩

-- A torrent goes with its file, and its neighbour keeps the one it has.
theorem run_spared_neighbour : ∃ past s r o, (machine unix).Run (Spares AtOrUnder unix) past s ∧
    r ∈ past ∧ o ∈ r.out ∧ r.before.files unix = ["/d/b.!bt".toList] ∧
      ∀ f ∈ r.before.files unix, ¬ AtOrUnder o.path f := by
  have hstart : (machine unix).Run (Spares AtOrUnder unix) [] init := .init
  have hone := hstart.extend (.addTorrent hybridTorrent ['/', 'd'] false) (by decide +kernel) rfl
  have htwo := hone.extend (.addTorrent otherTorrent ['/', 'd'] false) (by decide +kernel) rfl
  have hthree := htwo.extend (.removeTorrent 0 true true) (by decide +kernel) rfl
  have hfour := hthree.extend (.attempt 0 ["/d/a.!bt".toList] []) (by decide +kernel) rfl
  refine ⟨_, _, _, ⟨true, "/d/a.!bt".toList⟩, hfour, List.mem_cons_self, List.mem_singleton_self _,
    by decide +kernel, ?_⟩
  exact run_spared hfour _ List.mem_cons_self _ (List.mem_singleton_self _)

-- An episode of a series. All of them are in one folder.
def episode (b : Fin 256) (hb : sha1 b ≠ zeroHash) (file : Text) : TorrentInfo where
  hashes := ⟨some (sha1 b), none, hb⟩
  name := ['S']
  files := [⟨'S' :: '/' :: file, 1⟩]

-- The folder goes with the first episode, and the second one was in it.
theorem run_not_spared : ∃ past s r o f, (machine unix).Run (fun _ _ => True) past s ∧ r ∈ past ∧
    o ∈ r.out ∧ f ∈ r.before.files unix ∧ AtOrUnder o.path f := by
  have hstart : (machine unix).Run (fun _ _ => True) [] init := .init
  have hone := hstart.extend (.addTorrent (episode 1 (by decide) ['a']) ['/', 'd'] false) trivial rfl
  have htwo := hone.extend (.addTorrent (episode 2 (by decide) ['b']) ['/', 'd'] false) trivial rfl
  have hthree := htwo.extend (.removeTorrent 0 true false) trivial rfl
  have hfour := hthree.extend (.attempt 0 ["/d/S".toList] []) trivial rfl
  exact ⟨_, _, _, ⟨false, "/d/S".toList⟩, "/d/S/b.!bt".toList, hfour, List.mem_cons_self,
    List.mem_singleton_self _, by decide +kernel, by decide +kernel⟩

end Run

end BATorrent.Library
