import BATorrent.Torrent.Library

namespace BATorrent.Library

open Lib SessionResume

variable {s s' : State} {p : Params} {h : Handle} {hash : Sha1Hash}

namespace State

section Frame

-- What the rows and the waiting magnets hold, and the session they hold it in.
def held (s : State) : Session × List Handle × AList fun _ : Sha1Hash => Staged :=
  (s.session, s.torrents, s.staged)

theorem held_eq (hheld : s'.held = s.held) :
    s'.session = s.session ∧ s'.torrents = s.torrents ∧ s'.staged = s.staged := by
  simpa [held] using hheld

@[simp] theorem held_request : (s.request h).held = s.held := rfl

@[simp] theorem held_stageResumeSave : (s.stageResumeSave h).held = s.held := by
  unfold stageResumeSave
  split_ifs <;> rfl

@[simp] theorem held_pauseTorrent (i : Nat) : (s.pauseTorrent i).held = s.held := by
  unfold pauseTorrent
  split
  · exact held_stageResumeSave
  · rfl

@[simp] theorem held_writeResume (hash : Sha1Hash) (p : Params) (commits : Bool) : (s.writeResume hash p commits).held = s.held := by
  unfold writeResume
  split_ifs <;> rfl

@[simp] theorem held_persistMagnetParams (path : Text) (commits : Bool) :
    (s.persistMagnetParams p hash path commits).held = s.held := held_writeResume _ _ commits

@[simp] theorem held_persistResumeAlert (commits : Bool) :
    (s.persistResumeAlert p commits).held = s.held := by
  unfold persistResumeAlert
  split_ifs
  · rfl
  · exact held_writeResume _ _ commits

@[simp] theorem held_rekey : (s.rekey h).held = s.held := by
  unfold rekey
  split
  · split_ifs <;> rfl
  · rfl

@[simp] theorem held_handleMetadata : (s.handleMetadata h).held = s.held := by
  rw [handleMetadata, held_stageResumeSave, held_rekey]

@[simp] theorem held_processAlert (a : Alert) (commits : Bool) :
    (s.processAlert a commits).held = s.held := by
  unfold processAlert
  split_ifs
  · rfl
  · split
    · exact held_persistResumeAlert commits
    · rfl
    · split_ifs
      · exact held_handleMetadata
      · rfl
    · exact held_stageResumeSave

@[simp] theorem held_schedule (permanent : Bool) (targets : List Text) (attempt : Nat) :
    (s.schedule permanent targets attempt).held = s.held := by
  unfold schedule addPendingTargets setPendingTargets
  dsimp only
  split_ifs <;> rfl

@[simp] theorem held_clearDoneTargets (permanent : Bool) (attempted remaining : List Text) :
    (s.clearDoneTargets permanent attempted remaining).held = s.held := by
  unfold clearDoneTargets setPendingTargets
  split_ifs <;> rfl

theorem held_attempt {i : Nat} {existing failed : List Text} {timer : Scheduled}
    (hattempt : s.attempt i existing failed = some (s', timer)) : s'.held = s.held := by
  obtain ⟨timer', -, heq⟩ := Option.map_eq_some_iff.mp hattempt
  obtain ⟨rfl, -⟩ := Prod.mk.inj heq
  split_ifs
  · rw [held_schedule, held_clearDoneTargets]
    rfl
  · rw [held_clearDoneTargets]
    rfl

end Frame

section Staged

theorem isStaged_iff : s.isStaged h = true ↔ ∃ hash st, s.staged.lookup hash = some st ∧
    st.handle = h := by
  unfold isStaged
  rw [List.any_eq_true]
  constructor
  · rintro ⟨⟨hash, st⟩, hmem, hst⟩
    exact ⟨hash, st, AList.mem_lookup_iff.mpr hmem, of_decide_eq_true hst⟩
  · rintro ⟨hash, st, hlookup, hst⟩
    exact ⟨⟨hash, st⟩, AList.mem_lookup_iff.mp hlookup, decide_eq_true hst⟩

theorem isStaged_eq_false : s.isStaged h = false ↔
    ∀ hash st, s.staged.lookup hash = some st → st.handle ≠ h := by
  rw [← Bool.not_eq_true, isStaged_iff]
  simp

theorem lookup_erase_eq_some {α : Type} [DecidableEq α] {β : Type} {l : AList fun _ : α => β}
    {k k' : α} {v : β} : (l.erase k).lookup k' = some v ↔ k' ≠ k ∧ l.lookup k' = some v := by
  by_cases hk : k' = k
  · rw [hk, AList.lookup_erase]
    simp
  · rw [AList.lookup_erase_ne hk]
    simp [hk]

theorem lookup_insert_eq_some {α : Type} [DecidableEq α] {β : Type} {l : AList fun _ : α => β}
    {k k' : α} {v w : β} : (l.insert k w).lookup k' = some v ↔
      k' = k ∧ w = v ∨ k' ≠ k ∧ l.lookup k' = some v := by
  by_cases hk : k' = k
  · rw [hk, AList.lookup_insert]
    simp
  · rw [AList.lookup_insert_ne hk]
    simp [hk]

end Staged

section Adopt

-- The row that an add puts at the end is of the torrent libtorrent finds, or of a new one.
theorem adopt_torrents : (s.adopt p).1.torrents = s.torrents ++ [(s.adopt p).2] := rfl

theorem adopt_of_find {t : Torrent} (hfind : s.session.find p.hashes = some t) :
    (s.adopt p).2 = t.handle ∧ (s.adopt p).1.session = s.session := by
  simp [adopt, Session.add_of_find hfind]

theorem adopt_of_new (hnew : s.session.find p.hashes = none) :
    (s.adopt p).2 = s.session.nextHandle ∧
      (s.adopt p).1.session.nextHandle = s.session.nextHandle + 1 := by
  obtain ⟨-, hnext, hhandle⟩ := Session.add_of_new hnew
  exact ⟨hhandle, hnext⟩

theorem adopt_valid : ∃ t, (s.adopt p).1.torrent (s.adopt p).2 = some t ∧
    (s.session.find p.hashes = some t ∨
      s.session.find p.hashes = none ∧ t = ⟨p, s.session.nextHandle, false⟩) := by
  cases hfind : s.session.find p.hashes with
  | some t =>
      obtain ⟨hhandle, hsession⟩ := adopt_of_find hfind
      refine ⟨t, ?_, .inl rfl⟩
      rw [torrent, hsession, Session.torrent_eq_some]
      exact ⟨(Session.find_some hfind).1, hhandle.symm⟩
  | none =>
      refine ⟨_, ?_, .inr ⟨rfl, rfl⟩⟩
      rw [torrent, (adopt_of_new hfind).1]
      exact (Session.torrent_add_of_new hfind _).trans (if_pos rfl)

end Adopt

section Adding

-- Each way in adopts its parameters, unless it is refused.
theorem held_addWithInfo (ti : TorrentInfo) (savePath : Text) (fails : Bool) :
    (s.addWithInfo ti savePath fails).held =
      if s.isDuplicate ti.hashes = true ∨ fails = true then s.held
      else
        (s.adopt (infoParams ti (s.downloadPath savePath) (addedNames s.contentLayout ti))).1.held := by
  unfold addWithInfo
  split_ifs
  · rfl
  · exact held_stageResumeSave

theorem held_addMagnet (uri : Magnet) (savePath coverHint : Text) (fails commits : Bool) :
    (s.addMagnet uri savePath coverHint fails commits).held =
      if s.isDuplicate uri.hashes = true ∨ fails = true then s.held
      else
        (s.adopt (magnetParams uri (s.downloadPath savePath) (magnetName uri coverHint))).1.held := by
  unfold addMagnet
  split_ifs with hrefused
  · rfl
  · exact held_persistMagnetParams savePath commits

theorem held_addMagnetWith (uri : Magnet) (savePath : Text) (paused fails commits : Bool) :
    (s.addMagnetWith uri savePath paused fails commits).held =
      if s.isDuplicate uri.hashes = true ∨ fails = true then s.held
      else (s.adopt (magnetParams uri (s.downloadPath savePath) (magnetName uri []))).1.held := by
  rw [← held_addMagnet uri savePath [] fails commits]
  unfold addMagnetWith
  dsimp only
  split_ifs
  · split
    · exact held_pauseTorrent _
    · rfl
  · rfl

theorem held_restoreFromResumeData (p : Params) (fails : Bool) :
    (s.restoreFromResumeData p fails).held =
      if fails = true then s.held else (s.adopt p).1.held := by
  unfold restoreFromResumeData
  split_ifs
  · rfl
  · dsimp only
    split
    · split_ifs <;> rfl
    · rfl

theorem held_restoreRemoved (fails : Bool) (hp : s.removedDir.lookup hash = some p) :
    (s.restoreRemoved hash fails).held =
      if fails = true then s.held else (s.adopt p).1.held := by
  rw [← held_restoreFromResumeData p fails]
  unfold restoreRemoved
  rw [hp]
  dsimp only
  split_ifs with hfails
  · rw [restoreFromResumeData, if_pos hfails]
  · rfl

-- The parameters of a backup, with the folder that its torrent goes to.
def Backup.params (file : Backup) (defaultSavePath : Text) : Params :=
  match file.fastresume with
  | some p => { p with savePath := if p.savePath = [] then defaultSavePath else p.savePath }
  | none => infoParams file.torrent defaultSavePath (file.torrent.files.map TorrentFile.path)

def Backup.refused (file : Backup) (s : State) : Bool :=
  file.fastresume.any fun p => s.isDuplicate p.hashes

theorem importFromQBittorrent_eq (file : Backup) (defaultSavePath : Text) (fails : Bool) :
    s.importFromQBittorrent file defaultSavePath fails =
      if file.refused s = true ∨ fails = true then s else (s.adopt (file.params defaultSavePath)).1 := by
  unfold importFromQBittorrent Backup.refused Backup.params
  cases file.fastresume with
  | some p => rfl
  | none => simp only [Option.any_none, Bool.false_eq_true, false_or]

theorem held_importFromQBittorrent (file : Backup) (defaultSavePath : Text) (fails : Bool) :
    (s.importFromQBittorrent file defaultSavePath fails).held =
      if file.refused s = true ∨ fails = true then s.held
      else (s.adopt (file.params defaultSavePath)).1.held := by
  rw [importFromQBittorrent_eq]
  split_ifs <;> rfl

theorem held_loadResumeData (rules : Lib.FilePath.Rules) (fails : Bool) (disk : Text → Option Int)
    (hp : s.resumeDir.lookup hash = some p) :
    (s.loadResumeData rules hash fails disk).held =
      if fails = true then s.held else (s.adopt (reconcile rules disk p)).1.held := by
  unfold loadResumeData
  rw [hp]
  dsimp only
  split_ifs <;> rfl

@[simp] theorem hashes_reconcile (rules : Lib.FilePath.Rules) (disk : Text → Option Int) :
    (reconcile rules disk p).hashes = p.hashes := by
  unfold reconcile
  split <;> rfl

@[simp] theorem hashes_infoParams (ti : TorrentInfo) (savePath : Text) (names : List Text) :
    (infoParams ti savePath names).hashes = ti.hashes := rfl

@[simp] theorem hashes_magnetParams (uri : Magnet) (savePath name : Text) :
    (magnetParams uri savePath name).hashes = uri.hashes := rfl

theorem held_commitStaged {st : Staged} (hst : s.staged.lookup hash = some st) (savePath : Text)
    (paused fails commits : Bool) :
    (s.commitStaged hash savePath paused fails commits).held =
      if s.valid st.handle = true then (s.session, s.torrents ++ [st.handle], s.staged.erase hash)
      else
        (State.addMagnetWith { s with staged := s.staged.erase hash } st.uri savePath paused fails
          commits).held := by
  unfold commitStaged
  rw [hst]
  by_cases hvalid : s.valid st.handle = true
  · have hvalid' : State.valid { s with staged := s.staged.erase hash } st.handle = true := hvalid
    simp only [hvalid, hvalid', not_true_eq_false, if_true, if_false]
    split_ifs
    · exact held_handleMetadata
    · exact held_persistMagnetParams savePath commits
  · have hvalid' : ¬ State.valid { s with staged := s.staged.erase hash } st.handle = true := hvalid
    simp only [hvalid, hvalid', not_false_eq_true, if_true, if_false, Bool.false_eq_true]

@[simp] theorem held_scheduleRemoval (deleteFiles permanent : Bool) (targets : List Text) :
    (s.scheduleRemoval deleteFiles permanent targets).held = s.held := by
  unfold scheduleRemoval
  split
  · exact held_schedule false targets 0
  · exact held_schedule true targets 0
  · rfl

-- The row goes, and libtorrent is asked to let go of its torrent if it still has it.
theorem held_removeTorrent (rules : Lib.FilePath.Rules) {i : Nat} (hi : s.torrents[i]? = some h)
    (deleteFiles permanent : Bool) :
    (s.removeTorrent rules i deleteFiles permanent).held =
      (if s.valid h then s.session.remove h else s.session, s.torrents.eraseIdx i, s.staged) := by
  unfold removeTorrent valid
  rw [hi]
  dsimp only
  cases ht : s.torrent h with
  | none => rfl
  | some t =>
      have hhandle : t.handle = h := (Session.torrent_eq_some.mp ht).2
      obtain ⟨hsession, htorrents, hstaged⟩ := held_eq (held_scheduleRemoval (s := s.release t)
        deleteFiles permanent (if deleteFiles = true then s.removalTargets rules t else []))
      refine Prod.ext (hsession.trans ?_) (Prod.ext (congrArg (·.eraseIdx i) htorrents) hstaged)
      rw [← hhandle]
      rfl

theorem held_processAlerts {commits : Bool} (hs' : s.processAlerts commits = some s') :
    s'.held = s.held := by
  unfold processAlerts at hs'
  split at hs'
  · exact absurd hs'.symm (Option.some_ne_none _)
  · rw [← Option.some.inj hs', held_processAlert]
    rfl

theorem held_answerSave {i : Nat} {saved : Bool} (hs' : s.answerSave i saved = some s') :
    s'.held = s.held := by
  obtain ⟨h, -, hs'⟩ := Option.bind_eq_some_iff.mp hs'
  dsimp only at hs'
  split at hs' <;> split_ifs at hs' <;> rw [← Option.some.inj hs'] <;> rfl

theorem held_restart (files : List Sha1Hash) : (s.restart files).held = (.start, [], ∅) := by
  unfold restart
  dsimp only
  split_ifs
  · rw [scheduleDelete, held_schedule, scheduleTrash, held_schedule]
    rfl
  · rw [scheduleDelete, held_schedule]
    rfl
  · rw [scheduleTrash, held_schedule]
    rfl
  · rfl

theorem torrents_setTorrentQueuePosition (i position : Nat) :
    (s.setTorrentQueuePosition i position).torrents.Perm s.torrents := by
  unfold setTorrentQueuePosition
  split_ifs with hi hj
  · exact moveRow_perm hi hj
  · exact .refl _
  · exact .refl _

end Adding

end State

end BATorrent.Library
