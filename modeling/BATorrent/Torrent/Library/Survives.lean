import BATorrent.Torrent.Library.Books

namespace BATorrent.Library

open Lib Lib.FilePath SessionResume State

variable {rules : Rules} {s s' : State} {p : Params} {h : Handle} {hash : Sha1Hash}

section Property

-- The next start loads each torrent of the library whose metadata is there: its resume file is there
-- under its hash, and it is of that hash.
def Survives (s : State) : Prop :=
  ∀ h ∈ s.torrents, ∀ a, s.live h = some a → a.metadata = true →
    ∃ p, s.resumeDir.lookup a.hashes.best = some p ∧ p.hashes.best = a.hashes.best

-- Every call of save_resume_data has been answered, and its answer processed.
structure Answered (s : State) : Prop where
  requests : s.requests = []
  saved : ∀ h p, .saved h p ∉ s.alerts
  failed : ∀ h, .saveFailed h ∉ s.alerts

-- No torrent's metadata came in unnoticed.
def Noticed (s : State) : Prop := ∀ h, .metadataReceived h ∉ s.alerts

-- An add that is not refused gives a torrent that the session did not have.
def AddsNew (s : State) : Event → Prop
  | .addTorrent ti _ fails =>
      s.isDuplicate ti.hashes = true ∨ fails = true ∨ s.session.find ti.hashes = none
  | .addTorrentInfo ti _ fails =>
      s.isDuplicate ti.hashes = true ∨ fails = true ∨ s.session.find ti.hashes = none
  | .addMagnet uri _ _ fails _ =>
      s.isDuplicate uri.hashes = true ∨ fails = true ∨ s.session.find uri.hashes = none
  | .addMagnetWith uri _ _ fails _ =>
      s.isDuplicate uri.hashes = true ∨ fails = true ∨ s.session.find uri.hashes = none
  | .stageMagnet uri _ fails =>
      s.isDuplicate uri.hashes = true ∨ (s.staged.lookup uri.hashes.best).isSome = true ∨
        fails = true ∨ s.session.find uri.hashes = none
  | .commitStaged hash _ _ fails _ =>
      ∀ st, s.staged.lookup hash = some st → s.valid st.handle = true ∨
        s.isDuplicate st.uri.hashes = true ∨ fails = true ∨ s.session.find st.uri.hashes = none
  | .restoreFromResumeData p fails => fails = true ∨ s.session.find p.hashes = none
  | .restoreRemoved hash fails =>
      ∀ p, s.removedDir.lookup hash = some p → fails = true ∨ s.session.find p.hashes = none
  | .importFromQBittorrent file defaultSavePath fails =>
      file.refused s = true ∨ fails = true ∨
        s.session.find (file.params defaultSavePath).hashes = none
  | .loadResumeData fails _ =>
      ∀ hash p, s.unloaded.head? = some hash → s.resumeDir.lookup hash = some p →
        fails = true ∨ s.session.find p.hashes = none
  | _ => True

-- A torrent that is imported with its metadata has its resume file already.
def ImportsSaved (s : State) : Event → Prop
  | .importFromQBittorrent file defaultSavePath fails =>
      file.refused s = true ∨ fails = true ∨ (file.params defaultSavePath).info.isSome = false ∨
        (s.resumeDir.lookup (file.params defaultSavePath).hashes.best).isSome = true
  | _ => True

-- The resume data of a row is written, unless its file is there: its hash is not among the removed
-- ones, and the file commits.
def WritesRows (s : State) : Event → Prop
  | .processAlerts commits =>
      ∀ h p, s.alerts.head? = some (.saved h p) → h ∈ s.torrents → p.info.isSome = true →
        p.hashes.best ∉ s.removedHashes ∧ commits = true ∨
          (s.resumeDir.lookup p.hashes.best).isSome = true
  | _ => True

structure Guard (s : State) (e : Event) : Prop where
  adds : AddsNew s e
  imports : ImportsSaved s e
  writes : WritesRows s e

end Property

section Covered

-- The resume file is there, or what will write it is on its way.
def State.Covered (s : State) (h : Handle) (best : Sha1Hash) : Prop :=
  (s.resumeDir.lookup best).isSome = true ∨ h ∈ s.requests ∨
    (∃ p, .saved h p ∈ s.alerts ∧ p.info.isSome = true) ∨ .metadataReceived h ∈ s.alerts

theorem covered_mono {best : Sha1Hash}
    (hresume : (s.resumeDir.lookup best).isSome = true → (s'.resumeDir.lookup best).isSome = true)
    (hrequests : h ∈ s.requests → h ∈ s'.requests)
    (halerts : ∀ a : Alert, a.handle = h → a ∈ s.alerts → a ∈ s'.alerts)
    (hcovered : s.Covered h best) : s'.Covered h best := by
  rcases hcovered with hfile | hrequest | ⟨p, hp, hinfo⟩ | hmetadata
  · exact .inl (hresume hfile)
  · exact .inr (.inl (hrequests hrequest))
  · exact .inr (.inr (.inl ⟨p, halerts _ rfl hp, hinfo⟩))
  · exact .inr (.inr (.inr (halerts _ rfl hmetadata)))

-- `open_` is the row whose file is still to be seen to.
def CoveredBut (open_ : Option Handle) (s : State) : Prop :=
  ∀ h ∈ s.torrents, open_ ≠ some h → ∀ a, s.live h = some a → a.metadata = true →
    s.Covered h a.hashes.best

structure Kept (s : State) : Prop where
  books : Books s
  covered : CoveredBut none s

theorem Kept.survives (hs : Kept s) (hanswered : Answered s) (hnoticed : Noticed s) : Survives s := by
  intro h hh a ha hmetadata
  rcases hs.covered h hh (Option.some_ne_none h).symm a ha hmetadata with
    hfile | hrequest | ⟨p, hp, -⟩ | hreceived
  · obtain ⟨p, hp⟩ := Option.isSome_iff_exists.mp hfile
    exact ⟨p, hp, hs.books.files _ p hp⟩
  · rw [hanswered.requests] at hrequest
    exact absurd hrequest List.not_mem_nil
  · exact absurd hp (hanswered.saved h p)
  · exact absurd hreceived (hnoticed h)

end Covered

section Frame

-- What else the books are about.
def State.shelf (s : State) : (AList fun _ : Handle => Sha1Hash) ×
    (AList fun _ : Sha1Hash => Params) × List Alert := (s.magnetHashes, s.resumeDir, s.alerts)

theorem shelf_eq (hshelf : s'.shelf = s.shelf) : s'.magnetHashes = s.magnetHashes ∧
    s'.resumeDir = s.resumeDir ∧ s'.alerts = s.alerts := by
  simpa [State.shelf] using hshelf

theorem shelf_stageResumeSave : (s.stageResumeSave h).shelf = s.shelf := by
  unfold stageResumeSave
  split_ifs <;> rfl

theorem requests_stageResumeSave {h' : Handle} (hh : h' ∈ s.requests) :
    h' ∈ (s.stageResumeSave h).requests := by
  unfold stageResumeSave
  split_ifs
  · exact List.mem_append_left _ hh
  · exact hh

theorem mem_requests_stageResumeSave (hvalid : s.valid h = true) :
    h ∈ (s.stageResumeSave h).requests := by
  unfold stageResumeSave
  rw [if_pos hvalid]
  exact List.mem_append_right _ (List.mem_singleton_self h)

theorem shelf_schedule (permanent : Bool) (targets : List Text) (attempt : Nat) :
    (s.schedule permanent targets attempt).shelf = s.shelf ∧
      (s.schedule permanent targets attempt).requests = s.requests := by
  unfold schedule addPendingTargets setPendingTargets
  dsimp only
  split_ifs <;> exact ⟨rfl, rfl⟩

theorem shelf_clearDoneTargets (permanent : Bool) (attempted remaining : List Text) :
    (s.clearDoneTargets permanent attempted remaining).shelf = s.shelf ∧
      (s.clearDoneTargets permanent attempted remaining).requests = s.requests := by
  unfold clearDoneTargets setPendingTargets
  split_ifs <;> exact ⟨rfl, rfl⟩

-- A step that adds requests, and changes nothing the books are about.
theorem Kept.frame (hs : Kept s) (hheld : s'.held = s.held) (hshelf : s'.shelf = s.shelf)
    (hrequests : ∀ h ∈ s.requests, h ∈ s'.requests) : Kept s' := by
  obtain ⟨hmagnets, hresume, halerts⟩ := shelf_eq hshelf
  refine ⟨hs.books.congr hheld (fun _ _ hk => .inl (hmagnets ▸ hk)) ?_ (fun _ _ hp => halerts ▸ hp), ?_⟩
  · rw [hresume]
    exact hs.books.files
  · intro h hh hopen a ha hmetadata
    rw [(held_eq hheld).2.1] at hh
    rw [live_congr hheld] at ha
    refine covered_mono ?_ (hrequests h) (fun a _ ha => halerts ▸ ha)
      (hs.covered h hh hopen a ha hmetadata)
    rw [hresume]
    exact id

theorem Kept.stageResumeSave (hs : Kept s) : Kept (s.stageResumeSave h) :=
  hs.frame held_stageResumeSave shelf_stageResumeSave fun _ hh => requests_stageResumeSave hh

theorem Kept.pauseTorrent (hs : Kept s) (i : Nat) : Kept (s.pauseTorrent i) := by
  unfold State.pauseTorrent
  split
  · exact hs.stageResumeSave
  · exact hs

theorem Kept.saveWhere (hs : Kept s) (q : Handle → Bool) : Kept (s.saveWhere q) :=
  hs.frame rfl rfl fun _ hh => List.mem_append_left _ hh

theorem Kept.attempt (hs : Kept s) {i : Nat} {existing failed : List Text} {timer : Scheduled}
    (hattempt : s.attempt i existing failed = some (s', timer)) : Kept s' := by
  have hheld := held_attempt hattempt
  obtain ⟨timer', -, heq⟩ := Option.map_eq_some_iff.mp hattempt
  obtain ⟨rfl, -⟩ := Prod.mk.inj heq
  set t : State := { s with timers := s.timers.eraseIdx i } with ht
  have hcleared := fun remaining => shelf_clearDoneTargets (s := t) timer'.permanent timer'.targets
    remaining
  split_ifs at hheld ⊢
  · refine hs.frame hheld ((shelf_schedule _ _ _).1.trans (hcleared _).1) fun h hh => ?_
    rw [(shelf_schedule _ _ _).2, (hcleared _).2]
    exact hh
  · refine hs.frame hheld (hcleared _).1 fun h hh => ?_
    rw [(hcleared _).2]
    exact hh

end Frame

section Adding

-- A new torrent with metadata needs its file, or a request for it.
theorem Kept.adopt (hs : Kept s) (hnew : s.session.find p.hashes = none)
    (hheld : s'.held = (s.adopt p).1.held)
    (hmagnets : ∀ h k, s'.magnetHashes.lookup h = some k →
      s.magnetHashes.lookup h = some k ∨ h = s.session.nextHandle ∧ k = p.hashes.best)
    (hfiles : ∀ k p, s'.resumeDir.lookup k = some p → p.hashes.best = k)
    (hresume : ∀ k, (s.resumeDir.lookup k).isSome = true → (s'.resumeDir.lookup k).isSome = true)
    (hrequests : ∀ h ∈ s.requests, h ∈ s'.requests) (halerts : s'.alerts = s.alerts)
    (hown : p.info.isSome = true → s'.Covered s.session.nextHandle p.hashes.best) : Kept s' := by
  refine ⟨hs.books.adopt hnew hheld hmagnets hfiles (fun _ _ hp => halerts ▸ hp), ?_⟩
  intro h hh hopen a ha hmetadata
  rw [live_congr hheld, live_adopt hnew] at ha
  rw [(held_eq hheld).2.1, adopt_torrents, (adopt_of_new hnew).1] at hh
  split_ifs at ha with heq
  · rw [← Option.some.inj ha] at hmetadata ⊢
    rw [heq]
    exact hown hmetadata
  · have hh' : h ∈ s.torrents :=
      (List.mem_append.mp hh).resolve_right fun hlast => heq (List.mem_singleton.mp hlast)
    exact covered_mono (hresume _) (hrequests h) (fun a _ ha => halerts ▸ ha)
      (hs.covered h hh' hopen a ha hmetadata)

theorem Kept.addWithInfo (hs : Kept s) (ti : TorrentInfo) (savePath : Text) (fails : Bool)
    (hnew : s.isDuplicate ti.hashes = true ∨ fails = true ∨ s.session.find ti.hashes = none) :
    Kept (s.addWithInfo ti savePath fails) := by
  by_cases hrefused : s.isDuplicate ti.hashes = true ∨ fails = true
  · rw [State.addWithInfo, if_pos hrefused]
    exact hs
  · rw [← or_assoc] at hnew
    replace hnew := hnew.resolve_left hrefused
    have hheld := held_addWithInfo ti savePath fails (s := s)
    rw [if_neg hrefused] at hheld
    rw [State.addWithInfo, if_neg hrefused] at hheld ⊢
    set p := infoParams ti (s.downloadPath savePath) (addedNames s.contentLayout ti) with hp
    obtain ⟨hmagnets, hresume, halerts⟩ := shelf_eq (shelf_stageResumeSave (s := (s.adopt p).1)
      (h := (s.adopt p).2))
    obtain ⟨t, ht, -⟩ := adopt_valid (s := s) (p := p)
    have hvalid : (s.adopt p).1.valid (s.adopt p).2 = true := by
      rw [valid, ht]
      rfl
    refine hs.adopt hnew hheld (fun h k hk => .inl (hmagnets ▸ hk)) ?_ ?_ ?_ halerts ?_
    · rw [hresume]
      exact hs.books.files
    · rw [hresume]
      exact fun _ h => h
    · exact fun h hh => requests_stageResumeSave hh
    · intro _
      rw [← (adopt_of_new (p := p) hnew).1]
      exact .inr (.inl (mem_requests_stageResumeSave hvalid))

theorem lookup_writeResume (commits : Bool) {k : Sha1Hash}
    (hk : (s.resumeDir.lookup k).isSome = true) :
    ((s.writeResume hash p commits).resumeDir.lookup k).isSome = true := by
  unfold writeResume
  split_ifs
  · rw [AList.lookup_isSome, AList.mem_insert]
    exact .inr (AList.lookup_isSome.mp hk)
  · exact hk

theorem files_writeResume (hfiles : ∀ k p, s.resumeDir.lookup k = some p → p.hashes.best = k)
    (hp : p.hashes.best = hash) (commits : Bool) (k : Sha1Hash) (q : Params)
    (hq : (s.writeResume hash p commits).resumeDir.lookup k = some q) : q.hashes.best = k := by
  unfold writeResume at hq
  split_ifs at hq
  · rcases lookup_insert_eq_some.mp hq with ⟨rfl, rfl⟩ | ⟨-, hq⟩
    · exact hp
    · exact hfiles k q hq
  · exact hfiles k q hq

theorem shelf_writeResume (hash : Sha1Hash) (p : Params) (commits : Bool) :
    (s.writeResume hash p commits).magnetHashes = s.magnetHashes ∧
      (s.writeResume hash p commits).alerts = s.alerts ∧
      (s.writeResume hash p commits).requests = s.requests := by
  unfold writeResume
  split_ifs <;> exact ⟨rfl, rfl, rfl⟩

theorem Kept.addMagnet (hs : Kept s) (uri : Magnet) (savePath coverHint : Text) (fails commits : Bool)
    (hnew : s.isDuplicate uri.hashes = true ∨ fails = true ∨ s.session.find uri.hashes = none) :
    Kept (s.addMagnet uri savePath coverHint fails commits) := by
  by_cases hrefused : s.isDuplicate uri.hashes = true ∨ fails = true
  · rw [State.addMagnet, if_pos hrefused]
    exact hs
  · rw [← or_assoc] at hnew
    replace hnew := hnew.resolve_left hrefused
    have hheld := held_addMagnet uri savePath coverHint fails commits (s := s)
    rw [if_neg hrefused] at hheld
    rw [State.addMagnet, if_neg hrefused] at hheld ⊢
    set p := magnetParams uri (s.downloadPath savePath) (magnetName uri coverHint) with hp
    set t : State := { (s.adopt p).1 with
      magnetHashes := s.magnetHashes.insert (s.adopt p).2 uri.hashes.best } with ht
    obtain ⟨hmagnets, halerts, hrequests⟩ := shelf_writeResume (s := t) uri.hashes.best
      { p with savePath := savePath } commits
    refine hs.adopt hnew hheld ?_ ?_ ?_ ?_ halerts ?_
    · intro h k hk
      have hk' : t.magnetHashes.lookup h = some k := hmagnets ▸ hk
      rcases lookup_insert_eq_some.mp hk' with ⟨rfl, rfl⟩ | ⟨-, hk'⟩
      · exact .inr ⟨(adopt_of_new hnew).1, rfl⟩
      · exact .inl hk'
    · exact files_writeResume (s := t) (p := { p with savePath := savePath }) hs.books.files rfl commits
    · exact fun k hk => lookup_writeResume (s := t) (p := { p with savePath := savePath }) commits hk
    · exact fun h hh => hrequests ▸ hh
    · exact fun hinfo => absurd hinfo Bool.false_ne_true

theorem Kept.addMagnetWith (hs : Kept s) (uri : Magnet) (savePath : Text) (paused fails commits : Bool)
    (hnew : s.isDuplicate uri.hashes = true ∨ fails = true ∨ s.session.find uri.hashes = none) :
    Kept (s.addMagnetWith uri savePath paused fails commits) := by
  have hadded := hs.addMagnet uri savePath [] fails commits hnew
  unfold State.addMagnetWith
  dsimp only
  split_ifs
  · split
    · exact hadded.pauseTorrent _
    · exact hadded
  · exact hadded

theorem Kept.restoreFromResumeData (hs : Kept s) (p : Params) (fails : Bool)
    (hnew : fails = true ∨ s.session.find p.hashes = none) :
    Kept (s.restoreFromResumeData p fails) := by
  have hheld := held_restoreFromResumeData (s := s) p fails
  unfold State.restoreFromResumeData at hheld ⊢
  split_ifs at hheld ⊢ with hfails
  · exact hs
  · replace hnew := hnew.resolve_left hfails
    have hkept : ∀ s' : State, s'.held = (s.adopt p).1.held → s'.magnetHashes = s.magnetHashes →
        s'.resumeDir = s.resumeDir → s'.alerts = s.alerts →
        s'.requests = s.requests ++ [(s.adopt p).2] → Kept s' := by
      intro s' hheld hmagnets hresume halerts hrequests
      refine hs.adopt hnew hheld (fun h k hk => .inl (hmagnets ▸ hk)) ?_ ?_ ?_ halerts ?_
      · rw [hresume]
        exact hs.books.files
      · rw [hresume]
        exact fun _ h => h
      · intro h hh
        rw [hrequests]
        exact List.mem_append_left _ hh
      · intro _
        refine .inr (.inl ?_)
        rw [hrequests, (adopt_of_new hnew).1]
        exact List.mem_append_right _ (List.mem_singleton_self _)
    dsimp only at hheld ⊢
    split at hheld
    · split_ifs at hheld ⊢
      · exact hkept _ hheld rfl rfl rfl rfl
      · exact hkept _ hheld rfl rfl rfl rfl
    · exact hkept _ hheld rfl rfl rfl rfl

theorem Kept.restoreRemoved (hs : Kept s) (fails : Bool)
    (hnew : ∀ p, s.removedDir.lookup hash = some p → fails = true ∨ s.session.find p.hashes = none) :
    Kept (s.restoreRemoved hash fails) := by
  unfold State.restoreRemoved
  split
  · exact hs
  · next p hp =>
      split_ifs
      · exact hs
      · exact (hs.restoreFromResumeData p fails (hnew p hp)).frame rfl rfl fun _ hh => hh

theorem Kept.importFromQBittorrent (hs : Kept s) (file : Backup) (defaultSavePath : Text) (fails : Bool)
    (hnew : file.refused s = true ∨ fails = true ∨
      s.session.find (file.params defaultSavePath).hashes = none)
    (hsaved : file.refused s = true ∨ fails = true ∨ (file.params defaultSavePath).info.isSome = false ∨
      (s.resumeDir.lookup (file.params defaultSavePath).hashes.best).isSome = true) :
    Kept (s.importFromQBittorrent file defaultSavePath fails) := by
  have hsame := importFromQBittorrent_eq (s := s) file defaultSavePath fails
  rw [hsame]
  split_ifs with hrefused
  · exact hs
  · rw [← or_assoc] at hnew hsaved
    replace hnew := hnew.resolve_left hrefused
    replace hsaved := hsaved.resolve_left hrefused
    refine hs.adopt hnew rfl (fun _ _ hk => .inl hk) hs.books.files (fun _ h => h) (fun _ hh => hh) rfl ?_
    intro hinfo
    rcases hsaved with hnone | hfile
    · rw [hinfo] at hnone
      exact absurd hnone Bool.noConfusion
    · exact .inl hfile

theorem Kept.loadResumeData (hs : Kept s) (fails : Bool) (disk : Text → Option Int)
    (hnew : ∀ p, s.resumeDir.lookup hash = some p → fails = true ∨ s.session.find p.hashes = none) :
    Kept (s.loadResumeData rules hash fails disk) := by
  unfold State.loadResumeData
  split
  · exact hs
  · next p hp =>
      have hfile : (s.resumeDir.lookup hash).isSome = true := by
        rw [hp]
        rfl
      split_ifs with hfails hinfo
      · exact hs
      · have hnew' := (hnew p hp).resolve_left hfails
        rw [← hashes_reconcile rules disk] at hnew'
        refine hs.adopt hnew' rfl ?_ hs.books.files (fun _ h => h) (fun _ hh => hh) rfl ?_
        · intro h k hk
          rcases lookup_insert_eq_some.mp hk with ⟨rfl, rfl⟩ | ⟨-, hk⟩
          · exact .inr ⟨(adopt_of_new hnew').1, by rw [hashes_reconcile]⟩
          · exact .inl hk
        · intro _
          rw [hashes_reconcile, hs.books.files hash p hp]
          exact .inl hfile
      · have hnew' := (hnew p hp).resolve_left hfails
        rw [← hashes_reconcile rules disk] at hnew'
        refine hs.adopt hnew' rfl (fun _ _ hk => .inl hk) hs.books.files (fun _ h => h) (fun _ hh => hh)
          rfl ?_
        intro _
        rw [hashes_reconcile, hs.books.files hash p hp]
        exact .inl hfile

end Adding

section Metadata

theorem valid_of_live {a : Live} (ha : s.live h = some a) : s.valid h = true := by
  obtain ⟨t, ht, -⟩ := Option.map_eq_some_iff.mp ha
  rw [valid, ht]
  rfl

-- Only the file under the torrent's own older hash goes.
theorem Kept.rekey {open_ : Option Handle} (hbooks : Books s) (hcovered : CoveredBut open_ s) :
    Books (s.rekey h) ∧ CoveredBut open_ (s.rekey h) := by
  unfold State.rekey
  split
  · next oldHash t hmagnet ht =>
      split_ifs with hnew
      · have hlive : s.live h = some t.live := by rw [State.live, ht, Option.map_some]
        have hold : oldHash ∈ t.hashes.keys := hbooks.magnetLive h oldHash _ hmagnet hlive
        refine ⟨hbooks.congr rfl ?_ ?_ (fun _ _ hp => hp), ?_⟩
        · intro h' k hk
          rcases lookup_insert_eq_some.mp hk with ⟨rfl, rfl⟩ | ⟨-, hk⟩
          · exact .inr ⟨t.live, hlive, t.hashes.best_mem_keys⟩
          · exact .inl hk
        · exact fun k p hp => hbooks.files k p (lookup_erase_eq_some.mp hp).2
        · intro h' hh' hopen a ha hmetadata
          refine covered_mono (s := s) ?_ id (fun _ _ ha => ha) (hcovered h' hh' hopen a ha hmetadata)
          have hne : a.hashes.best ≠ oldHash := by
            intro heq
            have hshares : a.hashes.Shares t.live.hashes :=
              ⟨a.hashes.best, a.hashes.best_mem_keys, heq ▸ hold⟩
            obtain rfl := eq_of_shares ha hlive hshares
            obtain rfl := Option.some.inj (ha.symm.trans hlive)
            exact hnew heq
          rw [AList.lookup_erase_ne hne]
          exact id
      · exact ⟨hbooks, hcovered⟩
  · exact ⟨hbooks, hcovered⟩

-- The row whose metadata came in is saved under the hash it goes by now.
theorem Kept.handleMetadata (hbooks : Books s) (hcovered : CoveredBut (some h) s)
    (hvalid : s.valid h = true) : Kept (s.handleMetadata h) := by
  obtain ⟨hbooks', hcovered'⟩ := Kept.rekey (h := h) hbooks hcovered
  have hvalid' : (s.rekey h).valid h = true := by
    rw [valid, State.torrent, (held_eq held_rekey).1]
    exact hvalid
  set t := s.rekey h with ht
  obtain ⟨hmagnets, hresume, halerts⟩ := shelf_eq (shelf_stageResumeSave (s := t) (h := h))
  have hheld := held_stageResumeSave (s := t) (h := h)
  refine ⟨hbooks'.congr hheld (fun _ _ hk => .inl (hmagnets ▸ hk)) (hresume ▸ hbooks'.files)
    (fun _ _ hp => halerts ▸ hp), ?_⟩
  intro h' hh' _ a ha hmetadata
  by_cases heq : h' = h
  · rw [heq]
    exact .inr (.inl (mem_requests_stageResumeSave hvalid'))
  · have hrow : h' ∈ t.torrents := (held_eq hheld).2.1 ▸ hh'
    have hlive : t.live h' = some a := live_congr hheld ▸ ha
    have hopen : some h ≠ some h' := fun hsame => heq (Option.some.inj hsame).symm
    exact covered_mono (hresume ▸ id) requests_stageResumeSave (fun _ _ ha => halerts ▸ ha)
      (hcovered' h' hrow hopen a hlive hmetadata)

theorem Kept.writeResume {open_ : Option Handle} (hbooks : Books s) (hcovered : CoveredBut open_ s)
    (hp : p.hashes.best = hash) (commits : Bool) :
    Books (s.writeResume hash p commits) ∧ CoveredBut open_ (s.writeResume hash p commits) := by
  obtain ⟨hmagnets, halerts, hrequests⟩ := shelf_writeResume (s := s) hash p commits
  have hheld := held_writeResume (s := s) hash p commits
  refine ⟨hbooks.congr hheld (fun _ _ hk => .inl (hmagnets ▸ hk))
    (files_writeResume hbooks.files hp commits) (fun _ _ hp => halerts ▸ hp), ?_⟩
  intro h hh hopen a ha hmetadata
  refine covered_mono (lookup_writeResume commits) (fun hh => hrequests ▸ hh)
    (fun _ _ ha => halerts ▸ ha) (hcovered h ((held_eq hheld).2.1 ▸ hh) hopen a ?_ hmetadata)
  exact live_congr hheld ▸ ha

-- The alert at hand is gone; what covered its row by another way still does.
theorem Kept.popAlert (hs : Kept s) {a : Alert} {rest : List Alert} (halerts : s.alerts = a :: rest) :
    Books { s with alerts := rest } ∧ CoveredBut (some a.handle) { s with alerts := rest } := by
  refine ⟨hs.books.congr rfl (fun _ _ hk => .inl hk) hs.books.files ?_, ?_⟩
  · intro h p hp
    rw [halerts]
    exact List.mem_cons_of_mem _ hp
  · intro h hh hopen b hb hmetadata
    refine covered_mono (s := s) id id ?_ (hs.covered h hh (Option.some_ne_none h).symm b hb hmetadata)
    intro a' ha' hmem
    rw [halerts] at hmem
    refine (List.mem_cons.mp hmem).resolve_left fun heq => hopen ?_
    rw [← heq, ha']

theorem Kept.processAlerts (hs : Kept s) {commits : Bool} (hwrites : WritesRows s (.processAlerts commits))
    (hs' : s.processAlerts commits = some s') : Kept s' := by
  unfold State.processAlerts at hs'
  split at hs'
  · exact absurd hs'.symm (Option.some_ne_none _)
  next a rest halerts =>
  obtain rfl := Option.some.inj hs'
  obtain ⟨hbooks, hcovered⟩ := hs.popAlert halerts
  set t : State := { s with alerts := rest } with ht
  -- A row that the alert did not cover is covered as before.
  have hclose : (∀ b, s.live a.handle = some b → b.metadata = true → a.handle ∈ s.torrents →
      t.Covered a.handle b.hashes.best) → CoveredBut none t := by
    intro hown h hh _ b hb hmetadata
    by_cases heq : a.handle = h
    · subst heq
      exact hown b hb hmetadata hh
    · exact hcovered h hh (fun hsame => heq (Option.some.inj hsame)) b hb hmetadata
  -- An alert that neither brings resume data nor metadata covered nothing.
  have hidle : (∀ h p, a = .saved h p → p.info.isSome = false) → (∀ h, a ≠ .metadataReceived h) →
      CoveredBut none t := by
    intro hbare hother
    refine hclose fun b hb hmetadata hh => ?_
    rcases hs.covered _ hh (Option.some_ne_none _).symm b hb hmetadata with
      hfile | hrequest | ⟨p, hp, hinfo⟩ | hreceived
    · exact .inl hfile
    · exact .inr (.inl hrequest)
    · rw [halerts] at hp
      rcases List.mem_cons.mp hp with heq | hp
      · rw [hbare _ p heq.symm] at hinfo
        exact absurd hinfo Bool.false_ne_true
      · exact .inr (.inr (.inl ⟨p, hp, hinfo⟩))
    · rw [halerts] at hreceived
      rcases List.mem_cons.mp hreceived with heq | hreceived
      · exact absurd heq.symm (hother _)
      · exact .inr (.inr (.inr hreceived))
  unfold State.processAlert
  split_ifs with hstaged
  · refine ⟨hbooks, hclose fun b _ _ hh => ?_⟩
    exact absurd (hs.books.once.unstaged _ hh) (by rw [show s.isStaged a.handle = true from hstaged]; decide)
  · cases a with
    | saved h p =>
        have hone : .saved h p ∈ s.alerts := halerts ▸ List.mem_cons_self
        by_cases hinfo : p.info.isSome = true
        · have hguard := hwrites h p (by rw [halerts, List.head?_cons])
          have hown : ∀ b, s.live h = some b → h ∈ s.torrents →
              ((t.persistResumeAlert p commits).resumeDir.lookup b.hashes.best).isSome = true := by
            intro b hb hh
            rw [← (hs.books.alertLive h p b hone hb hinfo).1]
            unfold persistResumeAlert State.writeResume
            rcases hguard hh hinfo with ⟨hkept, hcommits⟩ | hfile
            · rw [if_neg hkept, if_pos hcommits, AList.lookup_insert]
              rfl
            · split_ifs
              · exact hfile
              · rw [AList.lookup_insert]
                rfl
              · exact hfile
          have hkept : Books (t.persistResumeAlert p commits) ∧
              CoveredBut (some h) (t.persistResumeAlert p commits) := by
            unfold persistResumeAlert
            split_ifs
            · exact ⟨hbooks, hcovered⟩
            · exact Kept.writeResume hbooks hcovered rfl commits
          refine ⟨hkept.1, fun h' hh' _ b hb hmetadata => ?_⟩
          by_cases heq : h' = h
          · rw [heq] at hh' hb
            have hheld := held_persistResumeAlert (s := t) (p := p) commits
            rw [live_congr hheld] at hb
            rw [(held_eq hheld).2.1] at hh'
            exact .inl (hown b hb hh')
          · exact hkept.2 h' hh' (fun hsame => heq (Option.some.inj hsame).symm) b hb hmetadata
        · have hbare : CoveredBut none t := by
            refine hidle ?_ (fun _ => Alert.noConfusion)
            rintro h' p' heq
            obtain ⟨rfl, rfl⟩ := Alert.saved.inj heq
            exact Bool.eq_false_iff.mpr hinfo
          show Kept (t.persistResumeAlert p commits)
          unfold persistResumeAlert
          split_ifs
          · exact ⟨hbooks, hbare⟩
          · obtain ⟨hb, hc⟩ := Kept.writeResume hbooks hbare rfl commits
            exact ⟨hb, hc⟩
    | saveFailed h =>
        exact ⟨hbooks, hidle (fun _ _ => Alert.noConfusion) (fun _ => Alert.noConfusion)⟩
    | metadataReceived h =>
        show Kept (if t.valid h then t.handleMetadata h else t)
        split_ifs with hvalid
        · exact Kept.handleMetadata hbooks hcovered hvalid
        · refine ⟨hbooks, hclose fun b hb _ _ => ?_⟩
          exact absurd (valid_of_live hb) hvalid
    | fileRenamed h =>
        have hidle' : Kept t :=
          ⟨hbooks, hidle (fun _ _ => Alert.noConfusion) (fun _ => Alert.noConfusion)⟩
        exact hidle'.stageResumeSave

end Metadata

section Staging

theorem Kept.stageMagnet (hs : Kept s) (uri : Magnet) (scratchDir : Text) (fails : Bool)
    (hnew : s.isDuplicate uri.hashes = true ∨ (s.staged.lookup uri.hashes.best).isSome = true ∨
      fails = true ∨ s.session.find uri.hashes = none) :
    Kept (s.stageMagnet uri scratchDir fails) := by
  refine ⟨hs.books.stageMagnet uri scratchDir fails hnew, ?_⟩
  unfold State.stageMagnet
  dsimp only
  split_ifs with hrefused
  · exact hs.covered
  · simp only [not_or] at hrefused
    obtain ⟨hdup, hkey, hok⟩ := hrefused
    replace hnew := ((hnew.resolve_left hdup).resolve_left hkey).resolve_left hok
    intro h hh hopen a ha hmetadata
    have hlive : s.live h = some a := by
      have hadded : (s.adopt (magnetParams uri scratchDir uri.name)).1.live h = some a := ha
      rw [live_adopt hnew, if_neg (hs.books.known.torrents h hh).ne] at hadded
      exact hadded
    exact covered_mono (s := s) id id (fun _ _ ha => ha) (hs.covered h hh hopen a hlive hmetadata)

-- libtorrent is asked to let go of a torrent that is in no row and no longer staged.
theorem live_remove_same {h' : Handle} {a' : Live}
    (ha' : State.live { s with session := s.session.remove h } h' = some a') :
    ∃ a, s.live h' = some a ∧ a'.hashes = a.hashes ∧ a'.metadata = a.metadata ∧
      (h' ≠ h → a'.removing = a.removing) := by
  obtain ⟨a, ha, hchange⟩ := Option.map_eq_some_iff.mp ((live_remove h').symm.trans ha')
  refine ⟨a, ha, ?_⟩
  split_ifs at hchange with heq
  · rw [← hchange]
    exact ⟨rfl, rfl, fun hne => absurd heq hne⟩
  · rw [← hchange]
    exact ⟨rfl, rfl, fun _ => rfl⟩

theorem Kept.discardStaged (hs : Kept s) : Kept (s.discardStaged hash) := by
  unfold State.discardStaged
  split
  · exact hs
  next st hst =>
  set t : State := { s with session := s.session.remove st.handle, staged := s.staged.erase hash } with ht
  have hout : ∀ k st', t.staged.lookup k = some st' → k ≠ hash ∧ s.staged.lookup k = some st' :=
    fun k st' h => lookup_erase_eq_some.mp h
  have hfree : ∀ h, h ∈ t.torrents ∨ t.isStaged h = true → h ≠ st.handle := by
    rintro h (hh | hh) rfl
    · have hrow := isStaged_eq_false.mp (hs.books.once.unstaged _ hh)
      exact hrow hash st hst rfl
    · obtain ⟨k, st', hst', hsame⟩ := isStaged_iff.mp hh
      obtain ⟨hne, hst'⟩ := hout k st' hst'
      exact hne (hs.books.stagedOnce hash st k st' hst hst' hsame)
  have hlive : ∀ h a', t.live h = some a' → ∃ a, s.live h = some a ∧ a'.hashes = a.hashes ∧
      a'.metadata = a.metadata ∧ (h ≠ st.handle → a'.removing = a.removing) :=
    fun h a' ha' => live_remove_same ha'
  refine ⟨hs.books.shrink (List.Subperm.refl _) (fun k st' h => (hout k st' h).2) rfl ?_
    (fun _ _ hk => .inl hk) hs.books.files (fun _ _ hp => hp), ?_⟩
  · intro h a' ha'
    obtain ⟨a, ha, hhashes, hmetadata, hremoving⟩ := hlive h a' ha'
    exact ⟨a, ha, hhashes, hmetadata, fun hkept => hremoving (hfree h hkept)⟩
  · intro h hh hopen a' ha' hmetadata'
    obtain ⟨a, ha, hhashes, hmetadata, -⟩ := hlive h a' ha'
    rw [hhashes]
    rw [hmetadata] at hmetadata'
    exact covered_mono (s := s) id id (fun _ _ ha => ha) (hs.covered h hh hopen a ha hmetadata')

-- A magnet that leaves the window has its file written, or is saved with its metadata.
theorem Kept.commitStaged (hs : Kept s) (savePath : Text) (paused fails commits : Bool)
    (hnew : ∀ st, s.staged.lookup hash = some st → s.valid st.handle = true ∨
      s.isDuplicate st.uri.hashes = true ∨ fails = true ∨ s.session.find st.uri.hashes = none) :
    Kept (s.commitStaged hash savePath paused fails commits) := by
  unfold State.commitStaged
  split
  · exact hs
  next st hst =>
  have hdropped : Kept { s with staged := s.staged.erase hash } := by
    refine ⟨hs.books.shrink (List.Subperm.refl _) (fun k st' h => (lookup_erase_eq_some.mp h).2) rfl
      (fun h a ha => ⟨a, ha, rfl, rfl, fun _ => rfl⟩) (fun _ _ hk => .inl hk) hs.books.files
      (fun _ _ hp => hp), ?_⟩
    intro h hh hopen a ha hmetadata
    exact covered_mono (s := s) id id (fun _ _ ha => ha) (hs.covered h hh hopen a ha hmetadata)
  by_cases hvalid : s.valid st.handle = true
  · have hvalid' : State.valid { s with staged := s.staged.erase hash } st.handle = true := hvalid
    dsimp only
    rw [if_neg (not_not_intro hvalid')]
    set t : State := { s with
      staged := s.staged.erase hash
      torrents := s.torrents ++ [st.handle]
      magnetHashes := s.magnetHashes.insert st.handle hash } with ht
    have hrow : st.handle ∉ s.torrents := by
      intro hh
      exact isStaged_eq_false.mp (hs.books.once.unstaged _ hh) hash st hst rfl
    have hout : ∀ k st', t.staged.lookup k = some st' → k ≠ hash ∧ s.staged.lookup k = some st' :=
      fun k st' h => lookup_erase_eq_some.mp h
    have hunstaged : ({ s with staged := s.staged.erase hash } : State).isStaged st.handle = false := by
      rw [isStaged_eq_false]
      intro k st' hst' hsame
      obtain ⟨hne, hst'⟩ := hout k st' hst'
      exact hne (hs.books.stagedOnce hash st k st' hst hst' hsame)
    have hbooks : Books t := by
      refine ⟨?_, ?_, ?_, ?_, ?_, ?_, ?_, ?_, hs.books.files, hs.books.alertKnown, hs.books.alertLive⟩
      · have hpush : HeldOnce t ↔ _ := heldOnce_push_iff (h := st.handle) hdropped.books.once rfl rfl
        exact hpush.mpr ⟨hrow, hunstaged⟩
      · refine ⟨fun h hh => ?_, hdropped.books.known.staged⟩
        rcases List.mem_append.mp hh with hh | hh
        · exact hs.books.known.torrents h hh
        · rw [List.mem_singleton.mp hh]
          exact hs.books.known.staged hash st hst
      · intro h a ha hkept
        refine hs.books.alive h a ha ?_
        rcases hkept with hh | hh
        · rcases List.mem_append.mp hh with hh | hh
          · exact .inl hh
          · rw [List.mem_singleton.mp hh]
            exact .inr (isStaged_iff.mpr ⟨hash, st, hst, rfl⟩)
        · obtain ⟨k, st', hst', hsame⟩ := isStaged_iff.mp hh
          exact .inr (isStaged_iff.mpr ⟨k, st', (hout k st' hst').2, hsame⟩)
      · exact hdropped.books.stagedOnce
      · exact hdropped.books.stagedKey
      · exact hdropped.books.stagedLive
      · intro h k hk
        rcases lookup_insert_eq_some.mp hk with ⟨rfl, -⟩ | ⟨-, hk⟩
        · exact hs.books.known.staged hash st hst
        · exact hs.books.magnetKnown h k hk
      · intro h k a hk ha
        rcases lookup_insert_eq_some.mp hk with ⟨rfl, rfl⟩ | ⟨-, hk⟩
        · exact hs.books.stagedLive hash st a hst ha
        · exact hs.books.magnetLive h k a hk ha
    have hcovered : CoveredBut (some st.handle) t := by
      intro h hh hopen a ha hmetadata
      rcases List.mem_append.mp hh with hh | hh
      · exact covered_mono (s := s) id id (fun _ _ ha => ha)
          (hs.covered h hh (Option.some_ne_none h).symm a ha hmetadata)
      · exact absurd (congrArg some (List.mem_singleton.mp hh).symm) hopen
    split_ifs with hmetadata
    · exact Kept.handleMetadata hbooks hcovered hvalid
    · have hbare : CoveredBut none t := by
        intro h hh _ a ha hmeta
        by_cases heq : h = st.handle
        · exfalso
          apply hmetadata
          obtain ⟨u, hu, rfl⟩ := Option.map_eq_some_iff.mp ha
          rw [heq] at hu
          rw [hasMetadata, hu, Option.any_some]
          exact hmeta
        · exact hcovered h hh (fun hsame => heq (Option.some.inj hsame).symm) a ha hmeta
      obtain ⟨hb, hc⟩ := Kept.writeResume (s := t)
        (p := { magnetParams st.uri savePath st.uri.name with savePath := savePath }) hbooks hbare
        (hs.books.stagedKey hash st hst) commits
      exact ⟨hb, hc⟩
  · have hvalid' : ¬ State.valid { s with staged := s.staged.erase hash } st.handle = true := hvalid
    dsimp only
    rw [if_pos hvalid']
    exact hdropped.addMagnetWith st.uri savePath paused fails commits ((hnew st hst).resolve_left hvalid)

end Staging

section Removing

theorem shelf_scheduleRemoval (deleteFiles permanent : Bool) (targets : List Text) :
    (s.scheduleRemoval deleteFiles permanent targets).shelf = s.shelf ∧
      (s.scheduleRemoval deleteFiles permanent targets).requests = s.requests := by
  unfold scheduleRemoval
  split
  · exact shelf_schedule false targets 0
  · exact shelf_schedule true targets 0
  · exact ⟨rfl, rfl⟩

-- The file that is moved away is the removed torrent's own.
theorem removedHash_cases (hs : Books s) {t : Torrent} (ht : s.torrent h = some t) :
    s.removedHash t ∈ t.hashes.keys ∨ s.removedHash t = zeroHash := by
  have hhandle : t.handle = h := (Session.torrent_eq_some.mp ht).2
  have hlive : s.live t.handle = some t.live := by rw [hhandle, State.live, ht, Option.map_some]
  unfold removedHash
  split_ifs
  · exact .inl t.hashes.best_mem_keys
  · cases hmagnet : s.magnetHashes.lookup t.handle with
    | none => exact .inr rfl
    | some k => exact .inl (hs.magnetLive t.handle k t.live hmagnet hlive)

theorem Kept.removeTorrent (hs : Kept s) (i : Nat) (deleteFiles permanent : Bool) :
    Kept (s.removeTorrent rules i deleteFiles permanent) := by
  cases hi : s.torrents[i]? with
  | none =>
      rw [State.removeTorrent, hi]
      exact hs
  | some h =>
      have hheld := held_removeTorrent rules hi deleteFiles permanent
      have hrow : h ∉ s.torrents.eraseIdx i := by
        obtain ⟨hlt, hget⟩ := List.getElem?_eq_some_iff.mp hi
        intro hmem
        obtain ⟨j, hj, hne, hsame⟩ := List.mem_eraseIdx_iff_getElem.mp hmem
        exact hne (hs.books.once.rows.getElem_inj_iff.mp (hsame.trans hget.symm))
      have hsub : ∀ h', h' ∈ s.torrents.eraseIdx i → h' ∈ s.torrents :=
        fun h' hh' => List.mem_of_mem_eraseIdx hh'
      unfold State.removeTorrent at hheld ⊢
      rw [hi] at hheld ⊢
      dsimp only at hheld ⊢
      cases ht : s.torrent h with
      | none =>
          refine ⟨hs.books.shrink (List.eraseIdx_sublist _ _).subperm (fun _ _ hst => hst) rfl
            (fun h a ha => ⟨a, ha, rfl, rfl, fun _ => rfl⟩) (fun _ _ hk => .inl hk) hs.books.files
            (fun _ _ hp => hp), ?_⟩
          intro h' hh' hopen a ha hmetadata
          exact covered_mono (s := s) id id (fun _ _ ha => ha)
            (hs.covered h' (hsub h' hh') hopen a ha hmetadata)
      | some t =>
          rw [ht] at hheld
          have hvalid : s.valid h = true := by
            rw [valid, ht]
            rfl
          rw [if_pos hvalid] at hheld
          dsimp only at hheld ⊢
          set targets := if deleteFiles = true then s.removalTargets rules t else [] with htargets
          obtain ⟨hshelf, hrequests⟩ := shelf_scheduleRemoval (s := s.release t) deleteFiles permanent
            targets
          obtain ⟨hmagnets, hresume, halerts⟩ := shelf_eq hshelf
          set u := ((s.release t).scheduleRemoval deleteFiles permanent targets).eraseRow i with hu
          obtain ⟨hsession, hrest⟩ := Prod.mk.inj hheld
          obtain ⟨htorrents, hstaged⟩ := Prod.mk.inj hrest
          have hlive : ∀ h' a', u.live h' = some a' → ∃ a, s.live h' = some a ∧
              a'.hashes = a.hashes ∧ a'.metadata = a.metadata ∧ (h' ≠ h → a'.removing = a.removing) := by
            intro h' a' ha'
            refine live_remove_same (h := h) ?_
            rw [State.live, State.torrent, hsession] at ha'
            exact ha'
          have hmagnets' : ∀ h' k, u.magnetHashes.lookup h' = some k →
              s.magnetHashes.lookup h' = some k := by
            intro h' k hk
            have hk' : (s.release t).magnetHashes.lookup h' = some k := hmagnets ▸ hk
            exact (lookup_erase_eq_some.mp hk').2
          have hfile : ∀ k, u.resumeDir.lookup k = (s.resumeDir.erase (s.removedHash t)).lookup k :=
            fun k => congrArg (fun dir => AList.lookup k dir) hresume
          refine ⟨hs.books.shrink (htorrents ▸ (List.eraseIdx_sublist _ _).subperm)
            (fun k st hst => hstaged ▸ hst) (by rw [hsession]; rfl) ?_ (fun h' k hk => .inl (hmagnets' h' k hk))
            ?_ (fun _ _ hp => halerts ▸ hp), ?_⟩
          · intro h' a' ha'
            obtain ⟨a, ha, hhashes, hmetadata, hremoving⟩ := hlive h' a' ha'
            refine ⟨a, ha, hhashes, hmetadata, fun hkept => hremoving ?_⟩
            rintro rfl
            rcases hkept with hh | hh
            · exact hrow (htorrents ▸ hh)
            · have hstaged' : s.isStaged h' = true := by
                rw [isStaged, ← hstaged]
                exact hh
              have hmem : h' ∈ s.torrents := List.mem_of_getElem? hi
              rw [hs.books.once.unstaged h' hmem] at hstaged'
              exact Bool.false_ne_true hstaged'
          · intro k p hp
            rw [hfile] at hp
            exact hs.books.files k p (lookup_erase_eq_some.mp hp).2
          · intro h' hh' hopen a' ha' hmetadata'
            obtain ⟨a, ha, hhashes, hmetadata, -⟩ := hlive h' a' ha'
            have hmem : h' ∈ s.torrents.eraseIdx i := htorrents ▸ hh'
            rw [hhashes]
            rw [hmetadata] at hmetadata'
            refine covered_mono (s := s) ?_ (fun hh => hrequests ▸ hh) (fun _ _ ha => halerts ▸ ha)
              (hs.covered h' (hsub h' hmem) hopen a ha hmetadata')
            have hne : a.hashes.best ≠ s.removedHash t := by
              intro heq
              rcases removedHash_cases hs.books ht with hkey | hzero
              · have hown : s.live h = some t.live := by rw [State.live, ht, Option.map_some]
                obtain rfl := eq_of_shares ha hown
                  ⟨a.hashes.best, a.hashes.best_mem_keys, heq ▸ hkey⟩
                exact hrow hmem
              · exact a.hashes.known (heq.trans hzero)
            rw [hfile, AList.lookup_erase_ne hne]
            exact id

end Removing

section Engine

-- A request of a row is answered with its resume data: its torrent is not being removed.
theorem Kept.answerSave (hs : Kept s) {i : Nat} {saved : Bool} (hs' : s.answerSave i saved = some s') :
    Kept s' := by
  have hheld := held_answerSave hs'
  obtain ⟨h, hi, hs'⟩ := Option.bind_eq_some_iff.mp hs'
  have hother : ∀ h', h' ≠ h → h' ∈ s.requests → h' ∈ s.requests.eraseIdx i := by
    intro h' hne hh'
    obtain ⟨j, hj, rfl⟩ := List.mem_iff_getElem.mp hh'
    refine List.mem_eraseIdx_iff_getElem.mpr ⟨j, hj, ?_, rfl⟩
    rintro rfl
    rw [List.getElem?_eq_getElem hj] at hi
    exact hne (Option.some.inj hi)
  -- What the answer takes from its own torrent's row, it gives back.
  have hkept : ∀ a : Alert, a.handle = h →
      (∀ h' p, a = .saved h' p → (h' < s.session.nextHandle) ∧ ∀ b, s.live h' = some b →
        p.info.isSome = true → p.hashes = b.hashes ∧ b.metadata = true) →
      (∀ b, s.live h = some b → h ∈ s.torrents → b.metadata = true →
        ∃ p, a = .saved h p ∧ p.info.isSome = true) →
      Kept { s with requests := s.requests.eraseIdx i, alerts := s.alerts ++ [a] } := by
    intro a hhandle hsaved hown
    refine ⟨⟨⟨hs.books.once.rows, hs.books.once.unstaged⟩, ⟨hs.books.known.torrents, hs.books.known.staged⟩,
      hs.books.alive, hs.books.stagedOnce, hs.books.stagedKey, hs.books.stagedLive, hs.books.magnetKnown,
      hs.books.magnetLive, hs.books.files, ?_, ?_⟩, ?_⟩
    · intro h' p hp
      rcases List.mem_append.mp hp with hp | hp
      · exact hs.books.alertKnown h' p hp
      · exact (hsaved h' p (List.mem_singleton.mp hp).symm).1
    · intro h' p b hp hb hinfo
      rcases List.mem_append.mp hp with hp | hp
      · exact hs.books.alertLive h' p b hp hb hinfo
      · exact (hsaved h' p (List.mem_singleton.mp hp).symm).2 b hb hinfo
    · intro h' hh' hopen b hb hmetadata
      by_cases heq : h' = h
      · subst heq
        obtain ⟨p, rfl, hinfo⟩ := hown b hb hh' hmetadata
        exact .inr (.inr (.inl ⟨p, List.mem_append_right _ (List.mem_singleton_self _), hinfo⟩))
      · exact covered_mono (s := s) id (hother h' heq) (fun _ _ ha => List.mem_append_left _ ha)
          (hs.covered h' hh' hopen b hb hmetadata)
  dsimp only at hs'
  split at hs'
  · next t ht =>
      have hlive : s.live h = some t.live := by rw [State.live, ht, Option.map_some]
      have hsame : ∀ b, s.live h = some b → b = t.live :=
        fun b hb => Option.some.inj (hb.symm.trans hlive)
      split_ifs at hs' with hsaved hremoving
      · obtain rfl := Option.some.inj hs'
        refine hkept _ rfl ?_ ?_
        · intro h' p heq
          obtain ⟨rfl, rfl⟩ := Alert.saved.inj heq
          refine ⟨live_lt hlive, fun b hb hinfo => ?_⟩
          rw [hsame b hb]
          exact ⟨rfl, hinfo⟩
        · intro b hb _ hmetadata
          refine ⟨t.toParams, rfl, ?_⟩
          rw [hsame b hb] at hmetadata
          exact hmetadata
      · obtain rfl := Option.some.inj hs'
        refine hkept _ rfl (fun _ _ => Alert.noConfusion) ?_
        intro b hb hh hmetadata
        have hstays := hs.books.alive h b hb (.inl hh)
        rw [hsame b hb] at hstays
        exact absurd (hremoving.symm.trans hstays) Bool.noConfusion
  · next hnone =>
      split_ifs at hs'
      obtain rfl := Option.some.inj hs'
      refine hkept _ rfl (fun _ _ => Alert.noConfusion) ?_
      intro b hb
      rw [State.live, hnone] at hb
      exact absurd hb.symm (Option.some_ne_none b)

theorem Kept.metadataArrives (hs : Kept s) {ti : TorrentInfo}
    (hs' : s.metadataArrives h ti = some s') : Kept s' := by
  obtain ⟨t, ht, hs'⟩ := Option.bind_eq_some_iff.mp hs'
  split_ifs at hs' with hfits
  obtain ⟨hinfo, -, hkeys⟩ := hfits
  obtain ⟨session, hreceive, rfl⟩ := Option.map_eq_some_iff.mp hs'
  have hlive : s.live h = some t.live := by rw [State.live, ht, Option.map_some]
  have hnone : t.live.metadata = false := by
    rw [Torrent.live, hinfo]
    rfl
  refine ⟨hs.books.receive hlive hnone hkeys hreceive, ?_⟩
  intro h' hh' hopen b hb hmetadata
  obtain ⟨a, ha, hchange⟩ := Option.map_eq_some_iff.mp ((live_receive hreceive h').symm.trans hb)
  by_cases heq : h' = h
  · rw [heq]
    exact .inr (.inr (.inr (List.mem_append_right _ (List.mem_singleton_self _))))
  · rw [if_neg heq] at hchange
    rw [hchange] at ha
    exact covered_mono (s := s) id id (fun _ _ ha => List.mem_append_left _ ha)
      (hs.covered h' hh' hopen b ha hmetadata)

theorem Kept.removalDone (hs : Kept s) (hs' : s.removalDone h = some s') : Kept s' := by
  obtain ⟨t, -, hs'⟩ := Option.bind_eq_some_iff.mp hs'
  split_ifs at hs'
  obtain rfl := Option.some.inj hs'
  have hlive : ∀ h' a, State.live { s with session := s.session.drop h } h' = some a →
      s.live h' = some a := by
    intro h' a ha
    rw [live_drop] at ha
    split_ifs at ha
    exact ha
  refine ⟨hs.books.shrink (List.Subperm.refl _) (fun _ _ hst => hst) rfl
    (fun h' a ha => ⟨a, hlive h' a ha, rfl, rfl, fun _ => rfl⟩) (fun _ _ hk => .inl hk) hs.books.files
    (fun _ _ hp => hp), ?_⟩
  intro h' hh' hopen a ha hmetadata
  exact covered_mono (s := s) id id (fun _ _ ha => ha)
    (hs.covered h' hh' hopen a (hlive h' a ha) hmetadata)

-- Another name or another folder leaves the books as they are.
theorem Kept.relocate (hs : Kept s) {f : Torrent → Torrent} (hhandle : ∀ t, (f t).handle = t.handle)
    (hhashes : ∀ t, (f t).hashes = t.hashes) (hlive : ∀ t, (f t).live = t.live) (h : Handle)
    {alerts : List Alert} (halerts : ∀ h p, .saved h p ∉ alerts) :
    Kept { s with session := s.session.modify h f hhandle hhashes, alerts := s.alerts ++ alerts } := by
  have hsame : ∀ h', State.live { s with session := s.session.modify h f hhandle hhashes } h' =
      s.live h' := fun h' => live_modify hhandle hhashes hlive h h'
  refine ⟨hs.books.shrink (List.Subperm.refl _) (fun _ _ hst => hst) rfl
    (fun h' a ha => ⟨a, (hsame h').symm.trans ha, rfl, rfl, fun _ => rfl⟩) (fun _ _ hk => .inl hk)
    hs.books.files ?_, ?_⟩
  · intro h' p hp
    exact (List.mem_append.mp hp).resolve_right (halerts h' p)
  · intro h' hh' hopen a ha hmetadata
    exact covered_mono (s := s) id id (fun _ _ ha => List.mem_append_left _ ha)
      (hs.covered h' hh' hopen a ((hsame h').symm.trans ha) hmetadata)

theorem Kept.setTorrentQueuePosition (hs : Kept s) (i position : Nat) :
    Kept (s.setTorrentQueuePosition i position) := by
  unfold State.setTorrentQueuePosition
  split_ifs with hi hj
  · have hperm := moveRow_perm hi hj
    refine ⟨hs.books.shrink hperm.subperm (fun _ _ hst => hst) rfl
      (fun h a ha => ⟨a, ha, rfl, rfl, fun _ => rfl⟩) (fun _ _ hk => .inl hk) hs.books.files
      (fun _ _ hp => hp), ?_⟩
    intro h hh hopen a ha hmetadata
    exact covered_mono (s := s) id id (fun _ _ ha => ha)
      (hs.covered h (hperm.mem_iff.mp hh) hopen a ha hmetadata)
  · exact hs
  · exact hs

theorem shelf_restart (files : List Sha1Hash) :
    (s.restart files).shelf = (∅, s.resumeDir, []) ∧ (s.restart files).requests = [] := by
  unfold restart
  dsimp only
  split_ifs
  · exact ⟨(shelf_schedule _ _ _).1.trans (shelf_schedule _ _ _).1,
      (shelf_schedule _ _ _).2.trans (shelf_schedule _ _ _).2⟩
  · exact ⟨(shelf_schedule _ _ _).1, (shelf_schedule _ _ _).2⟩
  · exact ⟨(shelf_schedule _ _ _).1, (shelf_schedule _ _ _).2⟩
  · exact ⟨rfl, rfl⟩

-- A program that starts has its files and nothing else.
theorem Kept.restart (hs : Kept s) (files : List Sha1Hash) : Kept (s.restart files) := by
  obtain ⟨hsession, hrest⟩ := Prod.mk.inj (held_restart (s := s) files)
  obtain ⟨htorrents, hstaged⟩ := Prod.mk.inj hrest
  obtain ⟨hmagnets, hrest⟩ := Prod.mk.inj (shelf_restart (s := s) files).1
  obtain ⟨hresume, halerts⟩ := Prod.mk.inj hrest
  have hlive : ∀ h, (s.restart files).live h = none := by
    intro h
    rw [State.live, State.torrent, hsession]
    rfl
  have hbooks : Books { init with resumeDir := s.resumeDir } :=
    { books_init with
      files := hs.books.files
      once := ⟨List.nodup_nil, fun _ hh => absurd hh List.not_mem_nil⟩
      known := ⟨fun _ hh => absurd hh List.not_mem_nil, books_init.known.staged⟩ }
  refine ⟨hbooks.shrink ?_ ?_ ?_ ?_ ?_ ?_ ?_, ?_⟩
  · rw [htorrents]
    exact List.Subperm.refl _
  · rw [hstaged]
    exact fun _ _ hst => hst
  · rw [hsession]
    rfl
  · intro h a ha
    rw [hlive] at ha
    exact absurd ha.symm (Option.some_ne_none a)
  · rw [hmagnets]
    exact fun _ _ hk => .inl hk
  · rw [hresume]
    exact hs.books.files
  · rw [halerts]
    exact fun _ _ hp => absurd hp List.not_mem_nil
  · intro h hh
    rw [htorrents] at hh
    exact absurd hh List.not_mem_nil

theorem Kept.loadNext (hs : Kept s) {fails : Bool} {disk : Text → Option Int}
    (hnew : AddsNew s (.loadResumeData fails disk)) (hs' : s.loadNext rules fails disk = some s') :
    Kept s' := by
  unfold State.loadNext at hs'
  split at hs'
  · exact absurd hs'.symm (Option.some_ne_none _)
  next hash rest hunloaded =>
  obtain rfl := Option.some.inj hs'
  have hpopped : Kept { s with unloaded := rest } := hs.frame rfl rfl fun _ hh => hh
  refine hpopped.loadResumeData fails disk fun p hp => ?_
  exact hnew hash p (by rw [hunloaded, List.head?_cons]) hp

end Engine

section Run

theorem kept_act (hs : Kept s) {e : Event} (hguard : Guard s e) (hact : s.act rules e = some s') :
    Kept s' := by
  obtain ⟨hadds, himports, hwrites⟩ := hguard
  cases e with
  | addTorrent ti savePath fails | addTorrentInfo ti savePath fails =>
      obtain rfl := Option.some.inj hact
      exact hs.addWithInfo ti savePath fails hadds
  | addMagnet uri savePath coverHint fails commits =>
      obtain rfl := Option.some.inj hact
      exact hs.addMagnet uri savePath coverHint fails commits hadds
  | addMagnetWith uri savePath paused fails commits =>
      obtain rfl := Option.some.inj hact
      exact hs.addMagnetWith uri savePath paused fails commits hadds
  | stageMagnet uri scratchDir fails =>
      obtain rfl := Option.some.inj hact
      exact hs.stageMagnet uri scratchDir fails hadds
  | discardStaged hash =>
      obtain rfl := Option.some.inj hact
      exact hs.discardStaged
  | commitStaged hash savePath paused fails commits =>
      obtain rfl := Option.some.inj hact
      exact hs.commitStaged savePath paused fails commits hadds
  | restoreFromResumeData p fails =>
      obtain rfl := Option.some.inj hact
      exact hs.restoreFromResumeData p fails hadds
  | restoreRemoved hash fails =>
      obtain rfl := Option.some.inj hact
      exact hs.restoreRemoved fails hadds
  | importFromQBittorrent file defaultSavePath fails =>
      obtain rfl := Option.some.inj hact
      exact hs.importFromQBittorrent file defaultSavePath fails hadds himports
  | removeTorrent i deleteFiles permanent =>
      obtain rfl := Option.some.inj hact
      exact hs.removeTorrent i deleteFiles permanent
  | setTorrentQueuePosition i position =>
      obtain rfl := Option.some.inj hact
      exact hs.setTorrentQueuePosition i position
  | pauseTorrent i | resumeTorrent i =>
      obtain rfl := Option.some.inj hact
      exact hs.pauseTorrent i
  | pauseAll | resumeAll | saveResumeData =>
      obtain rfl := Option.some.inj hact
      exact hs.saveWhere _
  | processAlerts commits => exact hs.processAlerts hwrites hact
  | attempt i existing failed =>
      obtain ⟨⟨s'', timer⟩, hattempt, rfl⟩ := Option.map_eq_some_iff.mp hact
      exact hs.attempt hattempt
  | restart files =>
      dsimp only [act] at hact
      split_ifs at hact
      obtain rfl := Option.some.inj hact
      exact hs.restart files
  | loadResumeData fails disk => exact hs.loadNext hadds hact
  | pieceFinished h =>
      obtain rfl := Option.some.inj hact
      exact hs.stageResumeSave
  | answerSave i saved => exact hs.answerSave hact
  | metadataArrives h ti => exact hs.metadataArrives hact
  | removalDone h => exact hs.removalDone hact
  | fileRenamed h file name =>
      obtain rfl := Option.some.inj hact
      have halerts : ∀ h' p, Alert.saved h' p ∉ [Alert.fileRenamed h] :=
        fun h' p hp => Alert.noConfusion (List.mem_singleton.mp hp)
      exact hs.relocate (f := fun t => { t with names := t.names.set file name }) (fun _ => rfl)
        (fun _ => rfl) (fun _ => rfl) h halerts
  | storageMoved h savePath =>
      obtain rfl := Option.some.inj hact
      have halerts : ∀ h' p, Alert.saved h' p ∉ [] := fun _ _ => List.not_mem_nil
      have hmoved := hs.relocate (f := fun t => { t with savePath := savePath }) (fun _ => rfl)
        (fun _ => rfl) (fun _ => rfl) h halerts
      rwa [List.append_nil] at hmoved
  | pruneRemovedHistory _ | setTempPath _ | setContentLayout _ =>
      obtain rfl := Option.some.inj hact
      exact hs.frame rfl rfl fun _ hh => hh

theorem run_kept {past : List (Reaction State Event Out)} (hrun : (machine rules).Run Guard past s) :
    Kept s := by
  refine Machine.Run.invariant Kept ?_ ?_ hrun
  · exact ⟨books_init, fun h hh => absurd hh List.not_mem_nil⟩
  · intro s e s' out hs hguard hnext
    exact kept_act hs hguard (act_of_next hnext).1

-- Once its resume data is written, the library is there again at the next start.
theorem run_survives {past : List (Reaction State Event Out)}
    (hrun : (machine rules).Run Guard past s) (hanswered : Answered s) (hnoticed : Noticed s) :
    Survives s :=
  (run_kept hrun).survives hanswered hnoticed

-- A torrent is added, and its resume data is asked for, given and written.
theorem run_survives_added : ∃ past s, (machine unix).Run Guard past s ∧ s.torrents = [0] ∧
    Survives s := by
  have hstart : (machine unix).Run Guard [] init := .init
  have hadded := hstart.extend (.addTorrent otherTorrent ['/', 'd'] false)
    ⟨.inr (.inr (by decide +kernel)), trivial, trivial⟩ rfl
  have hanswered := hadded.extend (.answerSave 0 true) ⟨trivial, trivial, trivial⟩ rfl
  have hwritten := hanswered.extend (.processAlerts true)
    ⟨trivial, trivial, fun _ _ _ _ _ => .inl ⟨List.not_mem_nil, rfl⟩⟩ rfl
  refine ⟨_, _, hwritten, by decide +kernel, run_survives hwritten ⟨rfl, ?_, ?_⟩ ?_⟩
  · exact fun _ _ => List.not_mem_nil
  · exact fun _ => List.not_mem_nil
  · exact fun _ => List.not_mem_nil

-- A row whose torrent has its metadata and no resume file, and nothing on its way.
def Lost (s : State) : Prop :=
  s.requests = [] ∧ s.alerts.isEmpty = true ∧
    ∃ h ∈ s.torrents, (s.live h).any fun a =>
      a.metadata && (s.resumeDir.lookup a.hashes.best).isNone

instance : DecidablePred Lost := fun s => by
  unfold Lost
  infer_instance

theorem Lost.not_survives (hs : Lost s) : Answered s ∧ Noticed s ∧ ¬ Survives s := by
  obtain ⟨hrequests, hempty, h, hh, hrow⟩ := hs
  have halerts : ∀ a, a ∉ s.alerts := by
    rw [List.isEmpty_iff.mp hempty]
    exact fun _ => List.not_mem_nil
  refine ⟨⟨hrequests, fun _ _ => halerts _, fun _ => halerts _⟩, fun _ => halerts _, ?_⟩
  intro hsurvives
  cases ha : s.live h with
  | none =>
      rw [ha] at hrow
      exact Bool.false_ne_true hrow
  | some a =>
      rw [ha, Option.any_some, Bool.and_eq_true] at hrow
      obtain ⟨p, hp, -⟩ := hsurvives h hh a ha hrow.1
      rw [hp] at hrow
      exact Bool.false_ne_true hrow.2

-- A torrent that was removed is added again, and its resume data is dropped as that of a removed one.
theorem run_not_survives : ∃ past s, (machine unix).Run (fun _ _ => True) past s ∧ Answered s ∧
    Noticed s ∧ ¬ Survives s := by
  have hreached : ∃ past s, (machine unix).Run (fun _ _ => True) past s ∧ Lost s :=
    Machine.exists_run
      [.addTorrent otherTorrent ['/', 'd'] false, .answerSave 0 true, .processAlerts true,
        .removeTorrent 0 false false, .removalDone 0, .addTorrent otherTorrent ['/', 'd'] false,
        .answerSave 0 true, .processAlerts true] (by decide +kernel)
  obtain ⟨past, s, hrun, hlost⟩ := hreached
  exact ⟨past, s, hrun, hlost.not_survives⟩

end Run

end BATorrent.Library
