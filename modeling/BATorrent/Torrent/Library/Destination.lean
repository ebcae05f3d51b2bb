import BATorrent.Torrent.Library.Filing

namespace BATorrent.Library

open Lib Lib.FilePath SessionResume State

variable {rules : Rules} {s s' : Filing} {t : State} {p : Params} {h : Handle} {hash : Sha1Hash}

namespace Filing

section Rows

-- What is so of each row of the library that libtorrent still has a torrent of.
def RowOk (s : Filing) (h : Handle) : Prop :=
  ∀ u, s.torrent h = some u →
    (∀ key, s.magnetHashes.lookup h = some key → key ≠ u.hashes.best →
      s.metadataPending h = true) ∧
    s.Settled ((s.magnetHashes.lookup h).getD u.hashes.best) u.hashes.best (s.folder u)

-- A step that leaves a row, and the records of its torrent, as they were.
structure Undisturbed (s s' : Filing) (h : Handle) : Prop where
  torrent : ∀ u', s'.torrent h = some u' →
    ∃ u, s.torrent h = some u ∧ u'.hashes = u.hashes ∧ s'.folder u' = s.folder u
  magnet : s'.magnetHashes.lookup h = s.magnetHashes.lookup h
  pending : s.valid h = true → s.metadataPending h = true → s'.metadataPending h = true
  records : ∀ u, s.torrent h = some u → ∀ k ∈ u.hashes.keys,
    s'.torrentIntendedPath k = s.torrentIntendedPath k ∧ s'.choice k = s.choice k

theorem settled_congr {key best : Sha1Hash} {folder : Text}
    (hintended : s'.torrentIntendedPath key = s.torrentIntendedPath key)
    (hchoice : s'.choice best = s.choice best) :
    s'.Settled key best folder ↔ s.Settled key best folder := by
  unfold Settled
  rw [hintended, hchoice]

structure Inv (s : Filing) : Prop where
  known : Known s.toState
  once : HeldOnce s.toState
  magnetKnown : ∀ h key, s.magnetHashes.lookup h = some key → h < s.session.nextHandle
  magnetLive : ∀ h key u, s.magnetHashes.lookup h = some key → s.torrent h = some u →
    key ∈ u.hashes.keys
  movingKnown : ∀ h path, s.moving h = some path → h < s.session.nextHandle
  staged : ∀ key st u, s.staged.lookup key = some st → s.torrent st.handle = some u →
    key ∈ u.hashes.keys ∧ (u.info.isSome = false → u.hashes.best = key)
  rows : ∀ h ∈ s.torrents, s.RowOk h

-- A torrent's record is under one of its hashes.
theorem Inv.key_mem (hs : Inv s) {u : Torrent} (hu : s.torrent h = some u) :
    (s.magnetHashes.lookup h).getD u.hashes.best ∈ u.hashes.keys := by
  cases hkey : s.magnetHashes.lookup h with
  | none => exact u.hashes.best_mem_keys
  | some key => exact hs.magnetLive h key u hkey hu

theorem Inv.undisturbed (hs : Inv s) (hh : h ∈ s.torrents) (hu : Undisturbed s s' h) :
    s'.RowOk h := by
  intro u' hu'
  obtain ⟨u, htorrent, hhashes, hfolder⟩ := hu.torrent u' hu'
  obtain ⟨hmagnet, hsettled⟩ := hs.rows h hh u htorrent
  rw [hhashes, hfolder, hu.magnet]
  constructor
  · intro key hlookup hne
    have hvalid : s.valid h = true := by rw [State.valid, htorrent]; rfl
    exact hu.pending hvalid (hmagnet key hlookup hne)
  · have hrecord := (hu.records u htorrent _ (hs.key_mem htorrent)).1
    have hchoice := (hu.records u htorrent _ u.hashes.best_mem_keys).2
    exact (settled_congr hrecord hchoice).mpr hsettled

theorem torrent_lt {u : Torrent} (hu : s.torrent h = some u) : h < s.session.nextHandle := by
  obtain ⟨hmem, rfl⟩ := Session.torrent_eq_some.mp hu
  exact s.session.known u hmem

-- Torrents of different handles share no hash.
theorem eq_of_key {h' : Handle} {u u' : Torrent} {key : Sha1Hash} (hu : s.torrent h = some u)
    (hu' : s.torrent h' = some u') (hkey : key ∈ u.hashes.keys) (hkey' : key ∈ u'.hashes.keys) :
    h = h' := by
  obtain ⟨hmem, rfl⟩ := Session.torrent_eq_some.mp hu
  obtain ⟨hmem', rfl⟩ := Session.torrent_eq_some.mp hu'
  rw [Session.eq_of_shares hmem hmem' ⟨key, hkey, hkey'⟩]

theorem notMem_keys_of_find (hnew : s.session.find p.hashes = none) {u : Torrent}
    (hu : s.torrent h = some u) {key : Sha1Hash} (hkey : key ∈ u.hashes.keys) : key ∉ p.hashes.keys := by
  obtain ⟨hmem, rfl⟩ := Session.torrent_eq_some.mp hu
  exact fun hkey' => Session.find_eq_none.mp hnew u hmem ⟨key, hkey, hkey'⟩

end Rows

section Frame

-- A call that has nothing to do with rows, torrents and folders.
theorem Inv.frame (hs : Inv s) (hheld : t.held = s.held) (hmagnets : t.magnetHashes = s.magnetHashes)
    (hpending : ∀ h ∈ s.torrents, s.valid h = true → s.metadataPending h = true →
      metadataPending { s with toState := t } h = true) : Inv { s with toState := t } := by
  obtain ⟨hsession, htorrents, hstaged⟩ := held_eq hheld
  have hsame : t.torrent = s.torrent := by
    funext h
    rw [State.torrent, State.torrent, hsession]
  refine ⟨hs.known.congr hheld, (HeldOnce.congr hheld).mpr hs.once, ?_, ?_, ?_, ?_, ?_⟩
  · rw [hmagnets, hsession]
    exact hs.magnetKnown
  · rw [hmagnets, hsame]
    exact hs.magnetLive
  · rw [hsession]
    exact hs.movingKnown
  · rw [hstaged, hsame]
    exact hs.staged
  · intro h hh
    have hrow : h ∈ s.torrents := htorrents ▸ hh
    refine hs.undisturbed hrow ⟨?_, ?_, hpending h hrow, fun _ _ _ _ => ⟨rfl, rfl⟩⟩
    · intro u hu
      exact ⟨u, hsame ▸ hu, rfl, rfl⟩
    · rw [hmagnets]

theorem Inv.frame_alerts (hs : Inv s) (hheld : t.held = s.held)
    (hmagnets : t.magnetHashes = s.magnetHashes) (halerts : t.alerts = s.alerts) :
    Inv { s with toState := t } :=
  hs.frame hheld hmagnets fun h _ _ hp => by rwa [metadataPending, halerts]

end Frame

section Adopt

-- A torrent that the session did not have takes a row.
theorem Inv.adopt (hs : Inv s) (hnew : s.session.find p.hashes = none)
    (hheld : s'.held = (s.adopt p).1.held)
    (hmagnets : ∀ h, h < s.session.nextHandle → s'.magnetHashes.lookup h = s.magnetHashes.lookup h)
    (hmagnet : ∀ key, s'.magnetHashes.lookup s.session.nextHandle = some key → key = p.hashes.best)
    (hlater : ∀ h key, s'.magnetHashes.lookup h = some key → h ≤ s.session.nextHandle)
    (halerts : s'.alerts = s.alerts) (hmoving : s'.moving = s.moving)
    (hrecords : ∀ key ≠ p.hashes.best,
      s'.torrentIntendedPath key = s.torrentIntendedPath key ∧ s'.choice key = s.choice key)
    (hsettled : s'.Settled p.hashes.best p.hashes.best p.savePath) : Inv s' := by
  obtain ⟨hsession, htorrents, hstaged⟩ := held_eq hheld
  have hnext : s'.session.nextHandle = s.session.nextHandle + 1 := by
    rw [hsession]
    exact (adopt_of_new hnew).2
  have hrows : s'.torrents = s.torrents ++ [s.session.nextHandle] := by
    rw [htorrents, adopt_torrents, (adopt_of_new hnew).1]
  have htorrent : ∀ h, s'.torrent h =
      if h = s.session.nextHandle then some ⟨p, s.session.nextHandle, false⟩ else s.torrent h := by
    intro h
    rw [State.torrent, hsession]
    exact Session.torrent_add_of_new hnew h
  have hold (h : Handle) (hh : h < s.session.nextHandle) : s'.torrent h = s.torrent h := by
    rw [htorrent, if_neg hh.ne]
  refine ⟨(hs.known.adopt p).congr hheld, ?_, ?_, ?_, ?_, ?_, ?_⟩
  · rw [heldOnce_adopt_iff hs.known hs.once hheld]
    exact fun u hu => absurd (hnew.symm.trans hu) (Option.some_ne_none u).symm
  · intro h key hkey
    rw [hnext]
    exact Nat.lt_succ_of_le (hlater h key hkey)
  · intro h key u hkey hu
    rcases Nat.lt_or_eq_of_le (hlater h key hkey) with hlt | rfl
    · rw [hmagnets h hlt] at hkey
      exact hs.magnetLive h key u hkey ((hold h hlt).symm.trans hu)
    · rw [htorrent, if_pos rfl] at hu
      obtain rfl := Option.some.inj hu
      exact hmagnet key hkey ▸ p.hashes.best_mem_keys
  · intro h path hpath
    rw [hnext]
    exact (hs.movingKnown h path (hmoving ▸ hpath)).trans (Nat.lt_succ_self _)
  · intro key st u hst hu
    rw [hstaged] at hst
    rw [hold _ (hs.known.staged key st hst)] at hu
    exact hs.staged key st u hst hu
  · intro h hh
    rw [hrows] at hh
    rcases List.mem_append.mp hh with hh | hh
    · have hlt := hs.known.torrents h hh
      refine hs.undisturbed hh ⟨?_, hmagnets h hlt, ?_, ?_⟩
      · intro u hu
        refine ⟨u, (hold h hlt).symm.trans hu, rfl, ?_⟩
        rw [folder, folder, hmoving]
      · intro _ hp
        rwa [metadataPending, halerts]
      · intro u hu key hkey
        refine hrecords key fun heq => ?_
        exact notMem_keys_of_find hnew hu hkey (heq ▸ p.hashes.best_mem_keys)
    · obtain rfl := List.mem_singleton.mp hh
      intro u hu
      rw [htorrent, if_pos rfl] at hu
      obtain rfl := Option.some.inj hu
      have hkey : (s'.magnetHashes.lookup s.session.nextHandle).getD p.hashes.best = p.hashes.best := by
        cases hlookup : s'.magnetHashes.lookup s.session.nextHandle with
        | none => rfl
        | some key => exact hmagnet key hlookup
      have hstill : s'.moving s.session.nextHandle = none := by
        rw [hmoving]
        cases hpath : s.moving s.session.nextHandle with
        | none => rfl
        | some path => exact absurd (hs.movingKnown _ path hpath) (lt_irrefl _)
      constructor
      · exact fun key hlookup hne => absurd (hmagnet key hlookup) hne
      · have hfolder : s'.folder ⟨p, s.session.nextHandle, false⟩ = p.savePath := by
          rw [folder, hstill]
          rfl
        rw [hkey, hfolder]
        exact hsettled

end Adopt

section Add

-- Records and choices of hashes that no row's torrent has.
theorem Inv.rerecord (hs : Inv s) {paths : Sha1Hash → Option Text} {choice : Sha1Hash → Choice}
    (hkept : ∀ h ∈ s.torrents, ∀ u, s.torrent h = some u → ∀ key ∈ u.hashes.keys,
      paths key = s.torrentIntendedPath key ∧ choice key = s.choice key) :
    Inv { s with torrentIntendedPath := paths, choice := choice } :=
  ⟨hs.known, hs.once, hs.magnetKnown, hs.magnetLive, hs.movingKnown, hs.staged, fun h hh =>
    hs.undisturbed hh ⟨fun u hu => ⟨u, hu, rfl, rfl⟩, rfl, fun _ => id, hkept h hh⟩⟩

theorem addedHash_of_new {ih : InfoHashes} (hnew : s.session.find ih = none) :
    s.addedHash ih = ih.best := by
  rw [addedHash, hnew]
  rfl

theorem intend_ne {key : Sha1Hash} {savePath : Text} (hne : key ≠ hash) :
    s.intend hash savePath key = s.torrentIntendedPath key := by
  unfold intend
  split_ifs
  · exact Function.update_of_ne hne ..
  · rfl

-- An add under a free hash records its folder, or finds none recorded.
theorem settled_add {ih : InfoHashes} {savePath : Text} (hdup : ¬ s.isDuplicate ih = true)
    (hclean : s.AddsClean ih savePath false)
    (hintended : s'.torrentIntendedPath ih.best = s.intend ih.best savePath ih.best)
    (hchoice : s'.choice ih.best = ⟨some savePath, s.tempPath.isSome⟩) :
    s'.Settled ih.best ih.best (s.downloadPath savePath) := by
  replace hclean := hclean.resolve_left hdup
  unfold Settled
  rw [hintended, hchoice, intend]
  cases htemp : s.tempPath with
  | none =>
      rw [htemp] at hclean
      have hnone : s.torrentIntendedPath ih.best = none := by simpa using hclean
      simpa [State.downloadPath, htemp] using hnone
  | some temp =>
      rw [htemp] at hclean
      have hpath : savePath ≠ [] := hclean.1
      exact ⟨savePath, rfl, hpath, by simp⟩

theorem Inv.add (hs : Inv s) {ih : InfoHashes} {savePath : Text} {fails : Bool}
    (hp : p.hashes = ih) (hpath : p.savePath = s.downloadPath savePath)
    (hheld : t.held = if s.isDuplicate ih = true ∨ fails = true then s.held else (s.adopt p).1.held)
    (hrefused : s.isDuplicate ih = true ∨ fails = true → t.magnetHashes = s.magnetHashes)
    (hmagnets : ∀ h, h < s.session.nextHandle → t.magnetHashes.lookup h = s.magnetHashes.lookup h)
    (hmagnet : ∀ key, t.magnetHashes.lookup s.session.nextHandle = some key → key = ih.best)
    (hlater : ∀ h key, t.magnetHashes.lookup h = some key → h ≤ s.session.nextHandle)
    (halerts : t.alerts = s.alerts)
    (hnew : s.isDuplicate ih = true ∨ fails = true ∨ s.session.find ih = none)
    (hclean : s.AddsClean ih savePath fails) :
    Inv { s with
      toState := t
      torrentIntendedPath := s.intendUnlessDuplicate ih savePath
      choice := s.chooseAtAdd ih savePath fails } := by
  subst hp
  by_cases hdup : s.isDuplicate p.hashes = true
  · rw [if_pos (.inl hdup)] at hheld
    rw [intendUnlessDuplicate, if_pos hdup, chooseAtAdd, if_pos (.inl hdup)]
    exact hs.frame_alerts hheld (hrefused (.inl hdup)) halerts
  · rw [intendUnlessDuplicate, if_neg hdup]
    cases fails with
    | true =>
        rw [if_pos (.inr rfl)] at hheld
        rw [chooseAtAdd, if_pos (.inr rfl)]
        have hsame := hs.frame_alerts hheld (hrefused (.inr rfl)) halerts
        have hfree : s.tempPath.isSome = true → s.session.find p.hashes = none := by
          intro htemp
          have hboth := hclean.resolve_left hdup
          rw [if_pos htemp] at hboth
          exact hboth.2
        have hrows : t.torrents = s.torrents := (held_eq hheld).2.1
        have hsession : t.session = s.session := (held_eq hheld).1
        refine hsame.rerecord fun h _ u hu key hkey => ⟨?_, rfl⟩
        unfold intend
        split_ifs with htemp
        · refine Function.update_of_ne (fun heq => ?_) ..
          have hu' : s.torrent h = some u := by rwa [State.torrent, ← hsession]
          exact notMem_keys_of_find (hfree htemp) hu' hkey (heq ▸ p.hashes.best_mem_keys)
        · rfl
    | false =>
        have hadds : ¬ (s.isDuplicate p.hashes = true ∨ false = true) := by simpa using hdup
        rw [if_neg hadds] at hheld
        have hfree := (hnew.resolve_left hdup).resolve_left (by decide)
        rw [chooseAtAdd, if_neg hadds, addedHash_of_new hfree]
        refine hs.adopt hfree hheld hmagnets hmagnet hlater halerts rfl (fun key hne => ⟨?_, ?_⟩) ?_
        · exact intend_ne hne
        · exact Function.update_of_ne hne ..
        · rw [hpath]
          exact settled_add hdup hclean rfl (Function.update_self ..)

theorem magnetHashes_stageResumeSave (s : State) : (s.stageResumeSave h).magnetHashes = s.magnetHashes ∧
    (s.stageResumeSave h).alerts = s.alerts := by
  obtain ⟨hmagnets, -, halerts⟩ := shelf_eq (shelf_stageResumeSave (s := s) (h := h))
  exact ⟨hmagnets, halerts⟩

theorem magnetHashes_addWithInfo (s : State) (ti : TorrentInfo) (savePath : Text) (fails : Bool) :
    (s.addWithInfo ti savePath fails).magnetHashes = s.magnetHashes ∧
      (s.addWithInfo ti savePath fails).alerts = s.alerts := by
  unfold addWithInfo
  split_ifs
  · exact ⟨rfl, rfl⟩
  · exact magnetHashes_stageResumeSave _

theorem Inv.magnet_none (hs : Inv s) : s.magnetHashes.lookup s.session.nextHandle = none := by
  cases hlookup : s.magnetHashes.lookup s.session.nextHandle with
  | none => rfl
  | some key => exact absurd (hs.magnetKnown _ key hlookup) (lt_irrefl _)

theorem Inv.addWithInfo (hs : Inv s) (ti : TorrentInfo) (savePath : Text) (fails : Bool)
    (hnew : s.isDuplicate ti.hashes = true ∨ fails = true ∨ s.session.find ti.hashes = none)
    (hclean : s.AddsClean ti.hashes savePath fails) :
    Inv { s with
      toState := s.toState.addWithInfo ti savePath fails
      torrentIntendedPath := s.intendUnlessDuplicate ti.hashes savePath
      choice := s.chooseAtAdd ti.hashes savePath fails } := by
  obtain ⟨hmagnets, halerts⟩ := magnetHashes_addWithInfo s.toState ti savePath fails
  refine hs.add (p := infoParams ti (s.downloadPath savePath) (addedNames s.contentLayout ti)) rfl rfl
    (held_addWithInfo ti savePath fails) (fun _ => hmagnets) (fun h _ => by rw [hmagnets]) ?_ ?_ halerts
    hnew hclean
  · intro key hkey
    rw [hmagnets, hs.magnet_none] at hkey
    cases hkey
  · intro h key hkey
    exact (hs.magnetKnown h key (hmagnets ▸ hkey)).le

-- A magnet's hash is kept for its handle.
theorem magnetHashes_addMagnet (s : State) (uri : Magnet) (savePath coverHint : Text)
    (fails commits : Bool) (hnew : s.isDuplicate uri.hashes = true ∨ fails = true ∨ s.session.find uri.hashes = none) :
    (s.addMagnet uri savePath coverHint fails commits).magnetHashes =
        (if s.isDuplicate uri.hashes = true ∨ fails = true then s.magnetHashes
        else s.magnetHashes.insert s.session.nextHandle uri.hashes.best) ∧
      (s.addMagnet uri savePath coverHint fails commits).alerts = s.alerts := by
  by_cases hrefused : s.isDuplicate uri.hashes = true ∨ fails = true
  · rw [State.addMagnet, if_pos hrefused, if_pos hrefused]
    exact ⟨rfl, rfl⟩
  · rw [← or_assoc] at hnew
    have hfree := hnew.resolve_left hrefused
    rw [State.addMagnet, if_neg hrefused, if_neg hrefused]
    obtain ⟨hmagnets, halerts, -⟩ := shelf_writeResume (s := { (s.adopt (magnetParams uri
      (s.downloadPath savePath) (magnetName uri coverHint))).1 with
        magnetHashes := s.magnetHashes.insert (s.adopt (magnetParams uri (s.downloadPath savePath)
          (magnetName uri coverHint))).2 uri.hashes.best })
      (p := { magnetParams uri (s.downloadPath savePath) (magnetName uri coverHint) with
        savePath := savePath }) uri.hashes.best commits
    refine ⟨hmagnets.trans ?_, halerts⟩
    have hhandle := (adopt_of_new (s := s) (p := magnetParams uri (s.downloadPath savePath)
      (magnetName uri coverHint)) hfree).1
    rw [hhandle]

theorem magnetHashes_addMagnetWith (s : State) (uri : Magnet) (savePath : Text)
    (paused fails commits : Bool) :
    (s.addMagnetWith uri savePath paused fails commits).magnetHashes =
        (s.addMagnet uri savePath [] fails commits).magnetHashes ∧
      (s.addMagnetWith uri savePath paused fails commits).alerts =
        (s.addMagnet uri savePath [] fails commits).alerts := by
  unfold addMagnetWith
  dsimp only
  split_ifs
  · split
    · unfold State.pauseTorrent
      split
      · exact magnetHashes_stageResumeSave _
      · exact ⟨rfl, rfl⟩
    · exact ⟨rfl, rfl⟩
  · exact ⟨rfl, rfl⟩

theorem Inv.addMagnet (hs : Inv s) (uri : Magnet) (savePath coverHint : Text) (fails : Bool)
    (hheld : t.held = if s.isDuplicate uri.hashes = true ∨ fails = true then s.held
      else (s.adopt (magnetParams uri (s.downloadPath savePath) (magnetName uri coverHint))).1.held)
    (hmagnets : t.magnetHashes = if s.isDuplicate uri.hashes = true ∨ fails = true then s.magnetHashes
      else s.magnetHashes.insert s.session.nextHandle uri.hashes.best)
    (halerts : t.alerts = s.alerts)
    (hnew : s.isDuplicate uri.hashes = true ∨ fails = true ∨ s.session.find uri.hashes = none)
    (hclean : s.AddsClean uri.hashes savePath fails) :
    Inv { s with
      toState := t
      torrentIntendedPath := s.intendUnlessDuplicate uri.hashes savePath
      choice := s.chooseAtAdd uri.hashes savePath fails } := by
  have hlookup : ∀ h key, t.magnetHashes.lookup h = some key →
      s.magnetHashes.lookup h = some key ∨ h = s.session.nextHandle ∧ key = uri.hashes.best := by
    intro h key hkey
    rw [hmagnets] at hkey
    split_ifs at hkey
    · exact .inl hkey
    · rcases lookup_insert_eq_some.mp hkey with ⟨hh, heq⟩ | ⟨-, hold⟩
      · exact .inr ⟨hh, heq.symm⟩
      · exact .inl hold
  refine hs.add (p := magnetParams uri (s.downloadPath savePath) (magnetName uri coverHint)) rfl rfl
    hheld (fun hrefused => by rw [hmagnets, if_pos hrefused]) ?_ ?_ ?_ halerts hnew hclean
  · intro h hh
    rw [hmagnets]
    split_ifs
    · rfl
    · exact AList.lookup_insert_ne hh.ne
  · intro key hkey
    rcases hlookup _ key hkey with hold | ⟨-, heq⟩
    · rw [hs.magnet_none] at hold
      cases hold
    · exact heq
  · intro h key hkey
    rcases hlookup h key hkey with hold | ⟨rfl, -⟩
    · exact (hs.magnetKnown h key hold).le
    · exact le_rfl

theorem Inv.addMagnetWith (hs : Inv s) (uri : Magnet) (savePath : Text) (paused fails commits : Bool)
    (hnew : s.isDuplicate uri.hashes = true ∨ fails = true ∨ s.session.find uri.hashes = none)
    (hclean : s.AddsClean uri.hashes savePath fails) :
    Inv { s with
      toState := s.toState.addMagnetWith uri savePath paused fails commits
      torrentIntendedPath := s.intendUnlessDuplicate uri.hashes savePath
      choice := s.chooseAtAdd uri.hashes savePath fails } := by
  obtain ⟨hmagnets, halerts⟩ := magnetHashes_addMagnetWith s.toState uri savePath paused fails commits
  obtain ⟨hinserted, hkept⟩ := magnetHashes_addMagnet s.toState uri savePath [] fails commits hnew
  exact hs.addMagnet uri savePath [] fails
    (held_addMagnetWith (s := s.toState) uri savePath paused fails commits) (hmagnets.trans hinserted)
    (halerts.trans hkept) hnew hclean

end Add

section Restore

-- A torrent that comes back is where it was to go, or its record is still there.
theorem Inv.restore (hs : Inv s) (hnew : s.session.find p.hashes = none)
    (hheld : t.held = (s.adopt p).1.held)
    (hmagnets : t.magnetHashes = s.magnetHashes ∨
      t.magnetHashes = s.magnetHashes.insert s.session.nextHandle p.hashes.best)
    (halerts : t.alerts = s.alerts) {choice : Sha1Hash → Choice}
    (hkept : ∀ key ≠ p.hashes.best, choice key = s.choice key)
    (hsettled : Settled { s with toState := t, choice := choice } p.hashes.best p.hashes.best
      p.savePath) : Inv { s with toState := t, choice := choice } := by
  have hlookup : ∀ h key, t.magnetHashes.lookup h = some key →
      s.magnetHashes.lookup h = some key ∨ h = s.session.nextHandle ∧ key = p.hashes.best := by
    intro h key hkey
    rcases hmagnets with hsame | hinsert
    · exact .inl (hsame ▸ hkey)
    · rw [hinsert] at hkey
      rcases lookup_insert_eq_some.mp hkey with ⟨hh, heq⟩ | ⟨-, hold⟩
      · exact .inr ⟨hh, heq.symm⟩
      · exact .inl hold
  refine hs.adopt hnew hheld ?_ ?_ ?_ halerts rfl
    (fun key hne => ⟨rfl, hkept key hne⟩) hsettled
  · intro h hh
    rcases hmagnets with hsame | hinsert
    · rw [hsame]
    · rw [hinsert]
      exact AList.lookup_insert_ne hh.ne
  · intro key hkey
    rcases hlookup _ key hkey with hold | ⟨-, heq⟩
    · rw [hs.magnet_none] at hold
      cases hold
    · exact heq
  · intro h key hkey
    rcases hlookup h key hkey with hold | ⟨rfl, -⟩
    · exact (hs.magnetKnown h key hold).le
    · exact le_rfl

theorem magnetHashes_restoreFromResumeData (s : State) (p : Params) (fails : Bool) :
    (s.restoreFromResumeData p fails).magnetHashes = s.magnetHashes ∧
      (s.restoreFromResumeData p fails).alerts = s.alerts := by
  unfold State.restoreFromResumeData
  split_ifs
  · exact ⟨rfl, rfl⟩
  · dsimp only
    split
    · split_ifs <;> exact ⟨rfl, rfl⟩
    · exact ⟨rfl, rfl⟩

theorem Inv.restoreFromResumeData (hs : Inv s) (p : Params) (fails : Bool)
    (hnew : fails = true ∨ s.session.find p.hashes = none)
    (hclean : fails = true ∨ s.Settled p.hashes.best p.hashes.best p.savePath) :
    Inv { s with toState := s.toState.restoreFromResumeData p fails } := by
  obtain ⟨hmagnets, halerts⟩ := magnetHashes_restoreFromResumeData s.toState p fails
  have hheld := held_restoreFromResumeData (s := s.toState) p fails
  cases fails with
  | true => exact hs.frame_alerts hheld hmagnets halerts
  | false =>
      exact hs.restore (hnew.resolve_left (by decide)) hheld (.inl hmagnets) halerts (fun _ _ => rfl)
        (hclean.resolve_left (by decide))

theorem Inv.restoreRemoved (hs : Inv s) (fails : Bool)
    (hnew : ∀ p, s.removedDir.lookup hash = some p → fails = true ∨ s.session.find p.hashes = none)
    (hclean : ∀ p, s.removedDir.lookup hash = some p →
      fails = true ∨ s.Settled p.hashes.best p.hashes.best p.savePath) :
    Inv { s with toState := s.toState.restoreRemoved hash fails } := by
  unfold State.restoreRemoved
  split
  · exact hs
  · next p hp =>
      split_ifs
      · exact hs
      · have hback := hs.restoreFromResumeData p fails (hnew p hp) (hclean p hp)
        exact hback.frame_alerts rfl rfl rfl

theorem Inv.importFromQBittorrent (hs : Inv s) (file : Backup) (defaultSavePath : Text) (fails : Bool)
    (hnew : file.refused s.toState = true ∨ fails = true ∨
      s.session.find (file.params defaultSavePath).hashes = none)
    (hclean : file.refused s.toState = true ∨ fails = true ∨
      s.torrentIntendedPath (file.params defaultSavePath).hashes.best = none) :
    Inv (s.follow (.importFromQBittorrent file defaultSavePath fails)
      (s.toState.importFromQBittorrent file defaultSavePath fails)) := by
  unfold follow
  dsimp only [intendedAfter, movingAfter, choiceAfter]
  rw [importFromQBittorrent_eq]
  by_cases hrefused : file.refused s.toState = true ∨ fails = true
  · rw [if_pos hrefused, if_pos hrefused]
    exact hs
  · rw [← or_assoc] at hnew hclean
    have hfree := hnew.resolve_left hrefused
    rw [if_neg hrefused, if_neg hrefused, addedHash_of_new hfree]
    refine hs.restore hfree rfl (.inl rfl) rfl (fun key hne => Function.update_of_ne hne ..) ?_
    simpa [Settled] using hclean.resolve_left hrefused

theorem Inv.loadNext (hs : Inv s) {fails : Bool} {disk : Text → Option Int}
    (hload : s.loadNext rules fails disk = some t)
    (hnew : AddsNew s.toState (.loadResumeData fails disk))
    (hclean : s.Clean (.loadResumeData fails disk)) : Inv { s with toState := t } := by
  unfold State.loadNext at hload
  cases hunloaded : s.unloaded with
  | nil =>
      rw [hunloaded] at hload
      cases hload
  | cons hash rest =>
      rw [hunloaded] at hload
      obtain rfl := Option.some.inj hload
      have hhead : s.unloaded.head? = some hash := by rw [hunloaded, List.head?_cons]
      have hfirst : Inv { s with toState := { s.toState with unloaded := rest } } :=
        hs.frame_alerts rfl rfl rfl
      unfold State.loadResumeData
      dsimp only
      cases hp : s.resumeDir.lookup hash with
      | none => exact hfirst
      | some p =>
          dsimp only
          have hnewp := hnew hash p hhead hp
          have hcleanp := hclean hash p hhead hp
          have hpath : (reconcile rules disk p).savePath = p.savePath := by
            unfold reconcile
            split <;> rfl
          cases fails with
          | true => exact hfirst
          | false =>
              have hfree := hnewp.resolve_left (by decide)
              have hsettled := hcleanp.resolve_left (by decide)
              rw [← hashes_reconcile rules disk] at hfree hsettled
              rw [← hpath] at hsettled
              simp only [Bool.false_eq_true, if_false]
              split_ifs with hinfo
              · refine Inv.restore (p := reconcile rules disk p) hfirst hfree ?_ (.inr ?_) ?_ (fun _ _ => rfl)
                  hsettled
                · rfl
                · rw [hashes_reconcile, ← (adopt_of_new hfree).1]
                  rfl
                · rfl
              · exact hfirst.restore hfree rfl (.inl rfl) rfl (fun _ _ => rfl) hsettled

end Restore

section Shrink

-- Rows may go, and what is left of the torrents is as it was.
theorem Inv.shrink (hs : Inv s) (hknown : Known t) (honce : HeldOnce t)
    (hnext : s.session.nextHandle ≤ t.session.nextHandle) (hrows : ∀ h ∈ t.torrents, h ∈ s.torrents)
    (htorrent : ∀ h u', h < s.session.nextHandle → t.torrent h = some u' →
      ∃ u, s.torrent h = some u ∧ u'.handle = u.handle ∧ u'.hashes = u.hashes ∧
        u'.savePath = u.savePath ∧ u'.info = u.info)
    (hmagnets : ∀ h ∈ t.torrents, t.magnetHashes.lookup h = s.magnetHashes.lookup h)
    (hmagnetKnown : ∀ h key, t.magnetHashes.lookup h = some key → s.magnetHashes.lookup h = some key)
    (hstaged : ∀ key st, t.staged.lookup key = some st → s.staged.lookup key = some st ∨
      ∀ u, t.torrent st.handle = some u →
        key ∈ u.hashes.keys ∧ (u.info.isSome = false → u.hashes.best = key))
    (hpending : ∀ h, s.metadataPending h = true →
      metadataPending { s with toState := t } h = true) : Inv { s with toState := t } := by
  refine ⟨hknown, honce, ?_, ?_, ?_, ?_, ?_⟩
  · exact fun h key hkey => (hs.magnetKnown h key (hmagnetKnown h key hkey)).trans_le hnext
  · intro h key u' hkey hu'
    have hold := hmagnetKnown h key hkey
    obtain ⟨u, hu, -, hhashes, -, -⟩ := htorrent h u' (hs.magnetKnown h key hold) hu'
    exact hhashes ▸ hs.magnetLive h key u hold hu
  · exact fun h path hpath => (hs.movingKnown h path hpath).trans_le hnext
  · intro key st u' hst hu'
    rcases hstaged key st hst with hold | hfresh
    · obtain ⟨u, hu, -, hhashes, -, hinfo⟩ := htorrent _ u' (hs.known.staged key st hold) hu'
      rw [hhashes, hinfo]
      exact hs.staged key st u hold hu
    · exact hfresh u' hu'
  · intro h hh
    have hrow := hrows h hh
    refine hs.undisturbed hrow ⟨?_, hmagnets h hh, fun _ => hpending h, fun _ _ _ _ => ⟨rfl, rfl⟩⟩
    intro u' hu'
    obtain ⟨u, hu, hhandle, hhashes, hpath, -⟩ := htorrent h u' (hs.known.torrents h hrow) hu'
    exact ⟨u, hu, hhashes, by rw [folder, folder, hhandle, hpath]⟩

-- A call that changes of a torrent neither what it is known by nor where it is.
theorem torrent_modify_same {f : Torrent → Torrent} (hhandle : ∀ u, (f u).handle = u.handle)
    (hhashes : ∀ u, (f u).hashes = u.hashes) (hpath : ∀ u, (f u).savePath = u.savePath)
    (hinfo : ∀ u, (f u).info = u.info) (g : Handle) {u' : Torrent}
    (hu' : (s.session.modify g f hhandle hhashes).torrent h = some u') :
    ∃ u, s.torrent h = some u ∧ u'.handle = u.handle ∧ u'.hashes = u.hashes ∧
      u'.savePath = u.savePath ∧ u'.info = u.info := by
  rw [Session.torrent_modify] at hu'
  obtain ⟨u, hu, rfl⟩ := Option.map_eq_some_iff.mp hu'
  refine ⟨u, hu, ?_⟩
  split_ifs
  · exact ⟨hhandle u, hhashes u, hpath u, hinfo u⟩
  · exact ⟨rfl, rfl, rfl, rfl⟩

theorem Inv.discardStaged (hs : Inv s) (hknown : Known (s.toState.discardStaged hash))
    (honce : HeldOnce (s.toState.discardStaged hash)) :
    Inv { s with toState := s.toState.discardStaged hash } := by
  unfold State.discardStaged at hknown honce ⊢
  cases hst : s.staged.lookup hash with
  | none => exact hs
  | some st =>
      rw [hst] at hknown honce
      refine hs.shrink hknown honce le_rfl (fun _ hh => hh) ?_ (fun _ _ => rfl) (fun _ _ hkey => hkey) ?_
        fun _ hp => hp
      · intro h u' _ hu'
        exact torrent_modify_same (f := fun u => { u with removing := true }) (fun _ => rfl)
          (fun _ => rfl) (fun _ => rfl) (fun _ => rfl) st.handle hu'
      · exact fun key st hst => .inl (lookup_erase_eq_some.mp hst).2

theorem Inv.stageMagnet (hs : Inv s) (uri : Magnet) (scratchDir : Text) (fails : Bool)
    (hknown : Known (s.toState.stageMagnet uri scratchDir fails))
    (honce : HeldOnce (s.toState.stageMagnet uri scratchDir fails))
    (hnew : s.isDuplicate uri.hashes = true ∨ (s.staged.lookup uri.hashes.best).isSome = true ∨
      fails = true ∨ s.session.find uri.hashes = none) :
    Inv { s with toState := s.toState.stageMagnet uri scratchDir fails } := by
  unfold State.stageMagnet at hknown honce ⊢
  dsimp only at hknown honce ⊢
  by_cases hrefused : s.isDuplicate uri.hashes = true ∨
      (s.staged.lookup uri.hashes.best).isSome = true ∨ fails = true
  · rw [if_pos hrefused]
    exact hs
  · rw [if_neg hrefused] at hknown honce ⊢
    have hfree : s.session.find uri.hashes = none := by
      simp only [not_or] at hrefused
      exact ((hnew.resolve_left hrefused.1).resolve_left hrefused.2.1).resolve_left hrefused.2.2
    obtain ⟨-, hnext, hhandle⟩ := Session.add_of_new (p := magnetParams uri scratchDir uri.name) hfree
    have htorrent := Session.torrent_add_of_new (p := magnetParams uri scratchDir uri.name) hfree
    refine hs.shrink hknown honce (hnext ▸ Nat.le_succ _) (fun _ hh => hh) ?_ (fun _ _ => rfl)
      (fun _ _ hkey => hkey) ?_ fun _ hp => hp
    · intro h u hh hu
      rw [State.torrent, htorrent, if_neg hh.ne] at hu
      exact ⟨u, hu, rfl, rfl, rfl, rfl⟩
    · intro key st hst
      rcases lookup_insert_eq_some.mp hst with ⟨rfl, rfl⟩ | ⟨-, hold⟩
      · refine .inr fun u hu => ?_
        rw [State.torrent, htorrent, hhandle, if_pos rfl] at hu
        obtain rfl := Option.some.inj hu
        exact ⟨uri.hashes.best_mem_keys, fun _ => rfl⟩
      · exact .inl hold

-- The hash of a magnet goes with its row.
theorem magnetHashes_removeTorrent (rules : Rules) (s : State) {i : Nat}
    (hi : s.torrents[i]? = some h) (deleteFiles permanent : Bool) :
    (∀ g ≠ h, (s.removeTorrent rules i deleteFiles permanent).magnetHashes.lookup g =
        s.magnetHashes.lookup g) ∧
      (∀ g key, (s.removeTorrent rules i deleteFiles permanent).magnetHashes.lookup g = some key →
        s.magnetHashes.lookup g = some key) ∧
      (s.removeTorrent rules i deleteFiles permanent).alerts = s.alerts := by
  unfold State.removeTorrent
  rw [hi]
  dsimp only
  cases hu : s.torrent h with
  | none => exact ⟨fun _ _ => rfl, fun _ _ hkey => hkey, rfl⟩
  | some u =>
      have hhandle : u.handle = h := (Session.torrent_eq_some.mp hu).2
      obtain ⟨hshelf, -⟩ := shelf_scheduleRemoval (s := s.release u) deleteFiles permanent
        (if deleteFiles = true then s.removalTargets rules u else [])
      obtain ⟨hmagnets, -, halerts⟩ := shelf_eq hshelf
      have herased : ((s.release u).scheduleRemoval deleteFiles permanent
          (if deleteFiles = true then s.removalTargets rules u else [])).magnetHashes =
          s.magnetHashes.erase h := by
        rw [hmagnets, ← hhandle]
        rfl
      unfold State.eraseRow
      dsimp only
      rw [herased]
      refine ⟨fun g hg => AList.lookup_erase_ne hg, fun g key hkey => ?_, halerts⟩
      exact (lookup_erase_eq_some.mp hkey).2

theorem Inv.removeTorrent (hs : Inv s) (i : Nat) (deleteFiles permanent : Bool)
    (hknown : Known (s.toState.removeTorrent rules i deleteFiles permanent))
    (honce : HeldOnce (s.toState.removeTorrent rules i deleteFiles permanent)) :
    Inv { s with toState := s.toState.removeTorrent rules i deleteFiles permanent } := by
  cases hi : s.torrents[i]? with
  | none =>
      unfold State.removeTorrent
      rw [hi]
      exact hs
  | some h =>
      obtain ⟨hmagnets, hkept, halerts⟩ := magnetHashes_removeTorrent rules s.toState hi deleteFiles
        permanent
      obtain ⟨hsession, hrest⟩ := Prod.mk.inj (held_removeTorrent rules hi deleteFiles permanent)
      obtain ⟨htorrents, hstaged⟩ := Prod.mk.inj hrest
      refine hs.shrink hknown honce ?_ ?_ ?_ ?_ hkept ?_ ?_
      · rw [hsession]
        split_ifs <;> exact le_rfl
      · intro g hg
        rw [htorrents] at hg
        exact List.mem_of_mem_eraseIdx hg
      · intro g u' _ hu'
        rw [State.torrent, hsession] at hu'
        split_ifs at hu'
        · exact torrent_modify_same (f := fun u => { u with removing := true }) (fun _ => rfl)
            (fun _ => rfl) (fun _ => rfl) (fun _ => rfl) h hu'
        · exact ⟨u', hu', rfl, rfl, rfl, rfl⟩
      · intro g hg
        rw [htorrents] at hg
        exact hmagnets g fun heq => notMem_eraseIdx hs.once.rows hi (heq ▸ hg)
      · exact fun key st hst => .inl (hstaged ▸ hst)
      · intro g hp
        rwa [metadataPending, halerts]

theorem Inv.setTorrentQueuePosition (hs : Inv s) (i position : Nat)
    (hknown : Known (s.toState.setTorrentQueuePosition i position))
    (honce : HeldOnce (s.toState.setTorrentQueuePosition i position)) :
    Inv { s with toState := s.toState.setTorrentQueuePosition i position } := by
  have hperm := torrents_setTorrentQueuePosition (s := s.toState) i position
  unfold State.setTorrentQueuePosition at hknown honce hperm ⊢
  split_ifs at hknown honce hperm ⊢
  · refine hs.shrink hknown honce le_rfl (fun _ hh => hperm.mem_iff.mp hh) ?_ (fun _ _ => rfl)
      (fun _ _ hkey => hkey) (fun _ _ hst => .inl hst) fun _ hp => hp
    exact fun _ u _ hu => ⟨u, hu, rfl, rfl, rfl, rfl⟩
  · exact hs
  · exact hs

theorem Inv.removalDone (hs : Inv s) (hdone : s.toState.removalDone h = some t) (hknown : Known t)
    (honce : HeldOnce t) : Inv { s with toState := t } := by
  obtain ⟨u, hu, hdropped⟩ := Option.bind_eq_some_iff.mp hdone
  split_ifs at hdropped
  obtain rfl := Option.some.inj hdropped
  refine hs.shrink hknown honce le_rfl (fun _ hh => hh) ?_ (fun _ _ => rfl) (fun _ _ hkey => hkey)
    (fun _ _ hst => .inl hst) fun _ hp => hp
  intro g u' _ hu'
  rw [State.torrent, Session.torrent_drop] at hu'
  split_ifs at hu'
  exact ⟨u', hu', rfl, rfl, rfl, rfl⟩

end Shrink

section Metadata

theorem rekeyPaths_ne {paths : Sha1Hash → Option Text} {oldHash best key : Sha1Hash}
    (hold : key ≠ oldHash) (hbest : key ≠ best) : rekeyPaths paths oldHash best key = paths key := by
  unfold rekeyPaths
  split_ifs
  · rw [Function.update_of_ne hold, Function.update_of_ne hbest]
  · rfl

-- Under the new hash is what was under the old one.
theorem rekeyPaths_best {paths : Sha1Hash → Option Text} {oldHash best : Sha1Hash}
    (hclean : best = oldHash ∨ (paths oldHash).isSome = true ∨ paths best = none) :
    rekeyPaths paths oldHash best best = paths oldHash := by
  unfold rekeyPaths
  split_ifs with hmoves
  · rw [Function.update_of_ne hmoves.1, Function.update_self]
  · by_cases heq : best = oldHash
    · rw [heq]
    · have hnone : paths oldHash = none := by simpa [heq] using hmoves
      rw [hnone] at hclean ⊢
      exact (hclean.resolve_left heq).resolve_left (by decide)

theorem lookup_rekey_ne {g : Handle} (s : State) (hne : g ≠ h) :
    (s.rekey h).magnetHashes.lookup g = s.magnetHashes.lookup g := by
  unfold State.rekey
  split
  · split_ifs
    · exact AList.lookup_insert_ne hne
    · rfl
  · rfl

theorem lookup_rekey_self {s : State} {u : Torrent} (hu : s.torrent h = some u) :
    (s.rekey h).magnetHashes.lookup h = (s.magnetHashes.lookup h).map fun _ => u.hashes.best := by
  unfold State.rekey
  cases hlookup : s.magnetHashes.lookup h with
  | none => exact hlookup
  | some oldHash =>
      rw [hu]
      dsimp only
      split_ifs with hmoves
      · exact AList.lookup_insert _
      · rw [hlookup, Option.map_some, not_not.mp hmoves]

-- Once its metadata is processed a row is known by its torrent's hash, and so is its record.
theorem Inv.rekeyed (hs : Inv s) {u : Torrent} (hu : s.torrent h = some u) (hheld : t.held = s.held)
    (hmagnets : t.magnetHashes = (s.toState.rekey h).magnetHashes)
    (hpending : ∀ g ∈ s.torrents, g ≠ h → s.metadataPending g = true →
      metadataPending { s with toState := t } g = true)
    (hclean : h ∈ s.torrents → ∀ oldHash, s.magnetHashes.lookup h = some oldHash →
      u.hashes.best = oldHash ∨ (s.torrentIntendedPath oldHash).isSome = true ∨
        s.torrentIntendedPath u.hashes.best = none) :
    Inv { s with toState := t, torrentIntendedPath := s.intendedAtMetadata h } := by
  obtain ⟨hsession, htorrents, hstaged⟩ := held_eq hheld
  have hsame : t.torrent = s.torrent := by
    funext g
    rw [State.torrent, State.torrent, hsession]
  have hlookup (g : Handle) (hne : g ≠ h) : t.magnetHashes.lookup g = s.magnetHashes.lookup g := by
    rw [hmagnets, lookup_rekey_ne _ hne]
  have hself : t.magnetHashes.lookup h = (s.magnetHashes.lookup h).map fun _ => u.hashes.best := by
    rw [hmagnets, lookup_rekey_self hu]
  have hpaths (key : Sha1Hash) (hkey : key ∉ u.hashes.keys) :
      s.intendedAtMetadata h key = s.torrentIntendedPath key := by
    unfold intendedAtMetadata
    cases hmagnet : s.magnetHashes.lookup h with
    | none => rfl
    | some oldHash =>
        rw [hu]
        have hold := hs.magnetLive h oldHash u hmagnet hu
        exact rekeyPaths_ne (fun heq => hkey (heq ▸ hold))
          (fun heq => hkey (heq ▸ u.hashes.best_mem_keys))
  refine ⟨hs.known.congr hheld, (HeldOnce.congr hheld).mpr hs.once, ?_, ?_, ?_, ?_, ?_⟩
  · intro g key hkey
    rw [hsession]
    by_cases hgh : g = h
    · exact hgh ▸ torrent_lt hu
    · exact hs.magnetKnown g key ((hlookup g hgh).symm.trans hkey)
  · intro g key v hkey hv
    rw [hsame] at hv
    by_cases hgh : g = h
    · subst hgh
      obtain rfl := Option.some.inj (hu.symm.trans hv)
      obtain ⟨-, -, rfl⟩ := Option.map_eq_some_iff.mp (hself.symm.trans hkey)
      exact u.hashes.best_mem_keys
    · exact hs.magnetLive g key v ((hlookup g hgh).symm.trans hkey) hv
  · rw [hsession]
    exact hs.movingKnown
  · rw [hstaged, hsame]
    exact hs.staged
  · intro g hg
    have hrow : g ∈ s.torrents := htorrents ▸ hg
    by_cases hgh : g = h
    · subst hgh
      intro v hv
      obtain rfl := Option.some.inj (hu.symm.trans (hsame ▸ hv))
      have hsettled := (hs.rows g hrow u hu).2
      rw [hself]
      cases hmagnet : s.magnetHashes.lookup g with
      | none =>
          rw [hmagnet] at hsettled
          have hpath : s.intendedAtMetadata g = s.torrentIntendedPath := by
            rw [intendedAtMetadata, hmagnet]
          refine ⟨fun key hkey => absurd hkey (by simp), ?_⟩
          unfold Settled at hsettled ⊢
          simp only [Option.map_none, Option.getD_none] at hsettled ⊢
          rw [hpath]
          exact hsettled
      | some oldHash =>
          rw [hmagnet] at hsettled
          constructor
          · intro key hkey hne
            exact absurd (Option.some.inj hkey).symm hne
          · have hpath : s.intendedAtMetadata g u.hashes.best = s.torrentIntendedPath oldHash := by
              rw [intendedAtMetadata, hmagnet, hu]
              exact rekeyPaths_best (hclean hrow oldHash hmagnet)
            unfold Settled at hsettled ⊢
            simp only [Option.map_some, Option.getD_some] at hsettled ⊢
            rw [hpath]
            exact hsettled
    · refine hs.undisturbed hrow ⟨fun v hv => ⟨v, hsame ▸ hv, rfl, rfl⟩, hlookup g hgh,
        fun _ => hpending g hrow hgh, ?_⟩
      intro v hv key hkey
      exact ⟨hpaths key fun hkey' => hgh (eq_of_key hv hu hkey hkey'), rfl⟩

theorem metadataPending_cons {a : Alert} {rest : List Alert} (halerts : s.alerts = a :: rest)
    (hne : a ≠ .metadataReceived h) (hp : s.metadataPending h = true) :
    metadataPending { s with toState := { s.toState with alerts := rest } } h = true := by
  unfold metadataPending at hp ⊢
  rw [halerts, List.any_cons, Bool.or_eq_true] at hp
  refine hp.resolve_left fun hhead => ?_
  cases a with
  | metadataReceived g =>
      have hgh : g = h := by simpa using hhead
      exact hne (hgh ▸ rfl)
  | _ => simp at hhead

theorem processAlert_frame (s : State) {a : Alert} (commits : Bool)
    (hne : ∀ h, a ≠ .metadataReceived h) :
    (s.processAlert a commits).magnetHashes = s.magnetHashes ∧
      (s.processAlert a commits).alerts = s.alerts := by
  unfold State.processAlert
  split_ifs
  · exact ⟨rfl, rfl⟩
  · cases a with
    | saved g p =>
        unfold State.persistResumeAlert
        dsimp only
        split_ifs
        · exact ⟨rfl, rfl⟩
        · obtain ⟨hmagnets, halerts, -⟩ := shelf_writeResume (s := s) p.hashes.best (p := p) commits
          exact ⟨hmagnets, halerts⟩
    | saveFailed g => exact ⟨rfl, rfl⟩
    | fileRenamed g => exact magnetHashes_stageResumeSave s
    | metadataReceived g => exact absurd rfl (hne g)

theorem processAlert_metadata (s : State) (commits : Bool) :
    s.processAlert (.metadataReceived h) commits =
      if s.isStaged h = false ∧ s.valid h = true then s.handleMetadata h else s := by
  unfold State.processAlert
  dsimp only [Alert.handle]
  by_cases hstaged : s.isStaged h = true
  · simp [hstaged]
  · have hunstaged : s.isStaged h = false := by simpa using hstaged
    simp [hunstaged]

theorem Inv.processAlerts (hs : Inv s) {commits : Bool}
    (hprocess : s.processAlerts commits = some t) (hclean : s.Clean (.processAlerts commits)) :
    Inv (s.follow (.processAlerts commits) t) := by
  unfold State.processAlerts at hprocess
  unfold follow
  dsimp only [intendedAfter, movingAfter, choiceAfter]
  cases halerts : s.alerts with
  | nil =>
      rw [halerts] at hprocess
      cases hprocess
  | cons a rest =>
      rw [halerts] at hprocess
      obtain rfl := Option.some.inj hprocess
      have hheld : (State.processAlert { s.toState with alerts := rest } a commits).held = s.held :=
        held_processAlert a commits
      have hkept (hne : ∀ h, a ≠ .metadataReceived h) :
          Inv { s with toState := State.processAlert { s.toState with alerts := rest } a commits } := by
        obtain ⟨hmagnets, hrest⟩ := processAlert_frame { s.toState with alerts := rest } commits hne
        refine hs.frame hheld hmagnets fun h _ _ hp => ?_
        rw [metadataPending, hrest]
        exact metadataPending_cons halerts (hne h) hp
      cases a with
      | saved g p => exact hkept nofun
      | saveFailed g => exact hkept nofun
      | fileRenamed g => exact hkept nofun
      | metadataReceived g =>
          rw [List.head?_cons]
          dsimp only
          by_cases hrow : s.isStaged g = false ∧ s.valid g = true
          · rw [if_pos hrow]
            obtain ⟨hunstaged, hvalid⟩ := hrow
            obtain ⟨u, hu⟩ := Option.isSome_iff_exists.mp hvalid
            have hprocessed : State.processAlert { s.toState with alerts := rest } (.metadataReceived g)
                commits = State.handleMetadata { s.toState with alerts := rest } g :=
              (processAlert_metadata _ commits).trans (if_pos ⟨hunstaged, hvalid⟩)
            obtain ⟨hmagnets, hrest⟩ := magnetHashes_stageResumeSave (h := g)
              (State.rekey { s.toState with alerts := rest } g)
            have hpopped : (State.rekey { s.toState with alerts := rest } g).magnetHashes =
                (s.toState.rekey g).magnetHashes ∧
                (State.rekey { s.toState with alerts := rest } g).alerts = rest := by
              unfold State.rekey State.torrent
              dsimp only
              split
              · split_ifs <;> exact ⟨rfl, rfl⟩
              · exact ⟨rfl, rfl⟩
            rw [hprocessed] at hheld ⊢
            refine hs.rekeyed hu hheld (hmagnets.trans hpopped.1) (fun h _ hne hp => ?_)
              fun hmem oldHash hold => ?_
            · rw [metadataPending, State.handleMetadata, hrest, hpopped.2]
              refine metadataPending_cons halerts (fun heq => hne ?_) hp
              exact (Alert.metadataReceived.inj heq).symm
            · exact hclean g (by rw [halerts]; rfl) hmem oldHash u hold hu
          · rw [if_neg hrow]
            have hdropped : State.processAlert { s.toState with alerts := rest } (.metadataReceived g)
                commits = { s.toState with alerts := rest } :=
              (processAlert_metadata _ commits).trans (if_neg hrow)
            rw [hdropped]
            -- The alert is of no row, or of one whose torrent is gone.
            refine hs.frame rfl rfl fun h hmem hvalid hp => ?_
            refine metadataPending_cons halerts (fun heq => hrow ?_) hp
            obtain rfl := Alert.metadataReceived.inj heq
            exact ⟨hs.once.unstaged _ hmem, hvalid⟩

-- The choice goes with the torrent to its new hash. The record does later.
theorem Inv.metadataArrives (hs : Inv s) {ti : TorrentInfo}
    (harrives : s.toState.metadataArrives h ti = some t) (hknown : Known t) (honce : HeldOnce t)
    (hclean : s.Clean (.metadataArrives h ti)) : Inv (s.follow (.metadataArrives h ti) t) := by
  obtain ⟨u, hu, harrived⟩ := Option.bind_eq_some_iff.mp harrives
  split_ifs at harrived with hplain
  obtain ⟨hbare, -, hkeys⟩ := hplain
  obtain ⟨session, hreceive, rfl⟩ := Option.map_eq_some_iff.mp harrived
  have hhandle : u.handle = h := (Session.torrent_eq_some.mp hu).2
  have hnext := (Session.receive_eq_some h hreceive).1
  unfold follow
  dsimp only [intendedAfter, movingAfter, choiceAfter]
  rw [hu]
  dsimp only
  set s' : Filing := { s with
    toState := { s.toState with session := session, alerts := s.alerts ++ [.metadataReceived h] }
    choice := Function.update s.choice ti.hashes.best (s.choice u.hashes.best) } with hs'
  have hself : s'.torrent h = some (u.received ti) := by
    refine (Session.receive_eq_some h hreceive).2.trans ?_
    rw [show s.session.torrent h = some u from hu, Option.map_some, if_pos hhandle]
  have hother (g : Handle) (hne : g ≠ h) : s'.torrent g = s.torrent g := by
    refine (Session.receive_eq_some g hreceive).2.trans ?_
    cases hv : s.session.torrent g with
    | none => exact hv.symm
    | some v =>
        have hvg : v.handle = g := (Session.torrent_eq_some.mp hv).2
        rw [Option.map_some, if_neg (hvg ▸ hne)]
        exact hv.symm
  have hpending (g : Handle) (hp : s.metadataPending g = true) : s'.metadataPending g = true := by
    unfold metadataPending at hp ⊢
    rw [hs', List.any_append, hp, Bool.true_or]
  refine ⟨hknown, honce, ?_, ?_, ?_, ?_, ?_⟩
  · exact fun g key hkey => (hs.magnetKnown g key hkey).trans_eq hnext.symm
  · intro g key v hkey hv
    by_cases hgh : g = h
    · subst hgh
      obtain rfl := Option.some.inj (hself.symm.trans hv)
      exact hkeys key (hs.magnetLive g key u hkey hu)
    · exact hs.magnetLive g key v hkey ((hother g hgh).symm.trans hv)
  · exact fun g path hpath => (hs.movingKnown g path hpath).trans_eq hnext.symm
  · intro key st v hst hv
    by_cases hgh : st.handle = h
    · rw [hgh] at hv
      obtain rfl := Option.some.inj (hself.symm.trans hv)
      refine ⟨hkeys key (hs.staged key st u hst (hgh ▸ hu)).1, fun hnone => ?_⟩
      exact absurd hnone (by simp [Torrent.received])
    · exact hs.staged key st v hst ((hother _ hgh).symm.trans hv)
  · intro g hg
    by_cases hgh : g = h
    · subst hgh
      intro v hv
      obtain rfl := Option.some.inj (hself.symm.trans hv)
      have hpend : s'.metadataPending g = true := by
        unfold metadataPending
        simp [hs']
      refine ⟨fun _ _ _ => hpend, ?_⟩
      have hsettled := (hs.rows g hg u hu).2
      have hchoice : s'.choice (u.received ti).hashes.best = s.choice u.hashes.best :=
        Function.update_self ..
      have hfolder : s'.folder (u.received ti) = s.folder u := rfl
      unfold Settled at hsettled ⊢
      rw [hchoice, hfolder]
      cases hmagnet : s.magnetHashes.lookup g with
      | some key =>
          rw [hmagnet] at hsettled
          exact hsettled
      | none =>
          rw [hmagnet] at hsettled
          rcases hclean hg hmagnet u hu with hsame | ⟨hstays, hnone⟩
          · have hbest : (u.received ti).hashes.best = u.hashes.best := hsame
            rw [Option.getD_none] at hsettled ⊢
            rw [hbest]
            exact hsettled
          · rw [hstays] at hsettled ⊢
            exact ⟨hnone, hsettled.2⟩
    · refine hs.undisturbed hg ⟨fun v hv => ⟨v, (hother g hgh).symm.trans hv, rfl, rfl⟩, rfl,
        fun _ => hpending g, ?_⟩
      intro v hv key hkey
      refine ⟨rfl, Function.update_of_ne (fun heq => hgh ?_) ..⟩
      have hv' : s'.torrent g = some v := (hother g hgh).trans hv
      have hmem : ti.hashes.best ∈ v.hashes.keys := heq ▸ hkey
      exact eq_of_key hv' hself hmem ti.hashes.best_mem_keys

end Metadata

section Commit

theorem alerts_rekey (s : State) : (s.rekey h).alerts = s.alerts := by
  unfold State.rekey
  split
  · split_ifs <;> rfl
  · rfl

-- A magnet that is committed with its metadata is known by its torrent's hash at once.
theorem magnetHashes_commitStaged (s : State) {st : Staged} {u : Torrent}
    (hst : s.staged.lookup hash = some st) (hu : s.torrent st.handle = some u) (savePath : Text)
    (paused fails commits : Bool) :
    (∀ g ≠ st.handle, (s.commitStaged hash savePath paused fails commits).magnetHashes.lookup g =
        s.magnetHashes.lookup g) ∧
      (s.commitStaged hash savePath paused fails commits).magnetHashes.lookup st.handle =
        some (if u.info.isSome = true then u.hashes.best else hash) ∧
      (s.commitStaged hash savePath paused fails commits).alerts = s.alerts := by
  set s' : State := { s with
    staged := s.staged.erase hash
    torrents := s.torrents ++ [st.handle]
    magnetHashes := s.magnetHashes.insert st.handle hash } with hs'
  have hu' : s'.torrent st.handle = some u := hu
  have hlookup : s'.magnetHashes.lookup st.handle = some hash := AList.lookup_insert _
  have hothers : ∀ g ≠ st.handle, s'.magnetHashes.lookup g = s.magnetHashes.lookup g :=
    fun g hne => AList.lookup_insert_ne hne
  have hcommit : s.commitStaged hash savePath paused fails commits =
      if s'.hasMetadata st.handle = true then s'.handleMetadata st.handle
      else s'.persistMagnetParams (magnetParams st.uri savePath st.uri.name) hash savePath commits := by
    have hvalid : State.valid { s with staged := s.staged.erase hash } st.handle = true := by
      rw [State.valid, show State.torrent { s with staged := s.staged.erase hash } st.handle = some u
        from hu]
      rfl
    unfold State.commitStaged
    rw [hst]
    dsimp only
    rw [if_neg (by rw [hvalid]; decide)]
  have hhas : s'.hasMetadata st.handle = u.info.isSome := by
    rw [State.hasMetadata, hu', Option.any_some]
  rw [hcommit, hhas]
  split_ifs
  · obtain ⟨hmagnets, halerts⟩ := magnetHashes_stageResumeSave (h := st.handle) (s'.rekey st.handle)
    rw [State.handleMetadata, hmagnets, halerts, alerts_rekey]
    refine ⟨fun g hne => (lookup_rekey_ne s' hne).trans (hothers g hne), ?_, rfl⟩
    rw [lookup_rekey_self hu', hlookup]
    rfl
  · obtain ⟨hmagnets, halerts, -⟩ := shelf_writeResume (s := s') hash
      (p := { magnetParams st.uri savePath st.uri.name with savePath := savePath }) commits
    rw [State.persistMagnetParams, hmagnets, halerts]
    exact ⟨hothers, hlookup, rfl⟩

-- What is recorded of a magnet is under the hash that its row goes by.
theorem settled_commit {u : Torrent} {savePath : Text}
    (hkey : u.info.isSome = false → u.hashes.best = hash)
    (hclean : if s.tempPath.isSome = true then savePath ≠ []
      else s.torrentIntendedPath hash = none ∧ s.torrentIntendedPath u.hashes.best = none)
    (hintended : s'.torrentIntendedPath = if u.info.isSome = true then
      rekeyPaths (s.intend hash savePath) hash u.hashes.best else s.intend hash savePath)
    (hchoice : s'.choice u.hashes.best = ⟨some savePath, s.tempPath.isSome⟩) :
    s'.Settled u.hashes.best u.hashes.best (s.downloadPath savePath) := by
  have hbest (hsafe : u.hashes.best = hash ∨ (s.intend hash savePath hash).isSome = true ∨
      s.intend hash savePath u.hashes.best = none) :
      s'.torrentIntendedPath u.hashes.best = s.intend hash savePath hash := by
    rw [hintended]
    split_ifs with hinfo
    · exact rekeyPaths_best hsafe
    · rw [hkey (by simpa using hinfo)]
  unfold Settled
  rw [hchoice]
  cases htemp : s.tempPath with
  | none =>
      rw [htemp] at hclean
      have hnone : s.intend hash savePath = s.torrentIntendedPath := by simp [intend, htemp]
      rw [hnone] at hbest
      obtain ⟨hold, hfree⟩ := hclean
      refine ⟨(hbest (.inr (.inr hfree))).trans hold, ?_⟩
      simp [State.downloadPath, htemp]
  | some temp =>
      rw [htemp] at hclean
      have hpath : savePath ≠ [] := hclean
      have hwritten : s.intend hash savePath hash = some savePath := by simp [intend, htemp]
      exact ⟨savePath, rfl, hpath, (hbest (.inr (.inl (by simp [hwritten])))).trans hwritten⟩

theorem Inv.commit (hs : Inv s) {st : Staged} {u : Torrent} {savePath : Text}
    (hu : s.torrent st.handle = some u) (hknown : Known t) (honce : HeldOnce t)
    (hheld : t.held = (s.session, s.torrents ++ [st.handle], s.staged.erase hash))
    (hothers : ∀ g ≠ st.handle, t.magnetHashes.lookup g = s.magnetHashes.lookup g)
    (hself : t.magnetHashes.lookup st.handle =
      some (if u.info.isSome = true then u.hashes.best else hash))
    (halerts : t.alerts = s.alerts) (hmem : hash ∈ u.hashes.keys)
    (hkey : u.info.isSome = false → u.hashes.best = hash)
    (hclean : if s.tempPath.isSome = true then savePath ≠ []
      else s.torrentIntendedPath hash = none ∧ s.torrentIntendedPath u.hashes.best = none) :
    Inv { s with
      toState := t
      torrentIntendedPath := if u.info.isSome = true then
        rekeyPaths (s.intend hash savePath) hash u.hashes.best else s.intend hash savePath
      moving := Function.update s.moving st.handle (some (s.downloadPath savePath))
      choice := s.choose u.hashes.best savePath } := by
  obtain ⟨hsession, hrest⟩ := Prod.mk.inj hheld
  obtain ⟨htorrents, hstaged⟩ := Prod.mk.inj hrest
  have hsame : t.torrent = s.torrent := by
    funext g
    rw [State.torrent, State.torrent, hsession]
  have hhash : (if u.info.isSome = true then u.hashes.best else hash) = u.hashes.best := by
    split_ifs with hinfo
    · rfl
    · exact (hkey (by simpa using hinfo)).symm
  rw [hhash] at hself
  refine ⟨hknown, honce, ?_, ?_, ?_, ?_, ?_⟩
  · intro g key hlookup
    rw [hsession]
    by_cases hgh : g = st.handle
    · exact hgh ▸ torrent_lt hu
    · exact hs.magnetKnown g key ((hothers g hgh).symm.trans hlookup)
  · intro g key v hlookup hv
    rw [hsame] at hv
    by_cases hgh : g = st.handle
    · subst hgh
      obtain rfl := Option.some.inj (hu.symm.trans hv)
      obtain rfl := Option.some.inj (hself.symm.trans hlookup)
      exact u.hashes.best_mem_keys
    · exact hs.magnetLive g key v ((hothers g hgh).symm.trans hlookup) hv
  · intro g path hpath
    rw [hsession]
    by_cases hgh : g = st.handle
    · exact hgh ▸ torrent_lt hu
    · exact hs.movingKnown g path ((Function.update_of_ne hgh ..).symm.trans hpath)
  · intro key st' v hst' hv
    rw [hstaged] at hst'
    rw [hsame] at hv
    exact hs.staged key st' v (lookup_erase_eq_some.mp hst').2 hv
  · intro g hg
    by_cases hgh : g = st.handle
    · subst hgh
      intro v hv
      obtain rfl := Option.some.inj (hu.symm.trans (hsame ▸ hv))
      have hhandle : u.handle = st.handle := (Session.torrent_eq_some.mp hu).2
      constructor
      · exact fun key hlookup hne => absurd (Option.some.inj (hself.symm.trans hlookup)).symm hne
      · rw [hself, Option.getD_some]
        have hfolder : folder { s with
            toState := t
            torrentIntendedPath := if u.info.isSome = true then
              rekeyPaths (s.intend hash savePath) hash u.hashes.best else s.intend hash savePath
            moving := Function.update s.moving st.handle (some (s.downloadPath savePath))
            choice := s.choose u.hashes.best savePath } u = s.downloadPath savePath := by
          rw [folder, hhandle]
          simp
        rw [hfolder]
        exact settled_commit hkey hclean rfl (Function.update_self ..)
    · have hrow : g ∈ s.torrents := by
        rw [htorrents] at hg
        exact (List.mem_append.mp hg).resolve_right fun hlast => hgh (List.mem_singleton.mp hlast)
      refine hs.undisturbed hrow ⟨fun v hv => ?_, hothers g hgh, fun _ hp => ?_, fun v hv key hkey' => ?_⟩
      · rw [hsame] at hv
        have hvg : v.handle = g := (Session.torrent_eq_some.mp hv).2
        refine ⟨v, hv, rfl, ?_⟩
        unfold folder
        dsimp only
        rw [hvg, Function.update_of_ne hgh]
      · rwa [metadataPending, halerts]
      · have hapart : key ∉ u.hashes.keys := fun hmem' => hgh (eq_of_key hv hu hkey' hmem')
        have hne : key ≠ hash := fun heq => hapart (heq ▸ hmem)
        have hne' : key ≠ u.hashes.best := fun heq => hapart (heq ▸ u.hashes.best_mem_keys)
        refine ⟨?_, Function.update_of_ne hne' ..⟩
        dsimp only
        split_ifs
        · rw [rekeyPaths_ne hne hne', intend_ne hne]
        · exact intend_ne hne

theorem Inv.commitStaged (hs : Inv s) (savePath : Text) (paused fails commits : Bool)
    (hknown : Known (s.toState.commitStaged hash savePath paused fails commits))
    (honce : HeldOnce (s.toState.commitStaged hash savePath paused fails commits))
    (hnew : AddsNew s.toState (.commitStaged hash savePath paused fails commits))
    (hclean : s.CommitsClean hash savePath fails) :
    Inv (s.follow (.commitStaged hash savePath paused fails commits)
      (s.toState.commitStaged hash savePath paused fails commits)) := by
  unfold follow
  dsimp only [intendedAfter, movingAfter, choiceAfter]
  cases hst : s.staged.lookup hash with
  | none =>
      have hsame : s.toState.commitStaged hash savePath paused fails commits = s.toState := by
        rw [State.commitStaged, hst]
      rw [hsame, intendedAtCommit, hst]
      exact hs
  | some st =>
      have hheld := held_commitStaged hst savePath paused fails commits
      have hcleans := hclean st hst
      rw [intendedAtCommit, hst]
      dsimp only
      cases hu : s.torrent st.handle with
      | none =>
          have hgone : ¬ s.valid st.handle = true := by
            rw [State.valid, show s.toState.torrent st.handle = none from hu]
            decide
          rw [hu] at hcleans
          have hadded : s.toState.commitStaged hash savePath paused fails commits =
              State.addMagnetWith { s.toState with staged := s.staged.erase hash } st.uri savePath paused
                fails commits := by
            rw [State.commitStaged, hst]
            exact if_pos hgone
          have herased : Inv { s with toState := { s.toState with staged := s.staged.erase hash } } := by
            refine hs.shrink ?_ ?_ le_rfl (fun _ hh => hh) ?_ (fun _ _ => rfl) (fun _ _ hkey => hkey) ?_
              fun _ hp => hp
            · exact hs.known.mono (fun _ hh => hh) (fun _ _ hst => (lookup_erase_eq_some.mp hst).2) le_rfl
            · exact hs.once.mono (List.Subperm.refl _) fun _ _ hst => (lookup_erase_eq_some.mp hst).2
            · exact fun _ u _ hu => ⟨u, hu, rfl, rfl, rfl, rfl⟩
            · exact fun _ _ hst => .inl (lookup_erase_eq_some.mp hst).2
          rw [if_neg hgone, hadded]
          exact herased.addMagnetWith st.uri savePath paused fails commits
            ((hnew st hst).resolve_left hgone) hcleans
      | some u =>
          rw [hu] at hcleans
          have hvalid : s.valid st.handle = true := by
            rw [State.valid, show s.toState.torrent st.handle = some u from hu]
            rfl
          obtain ⟨hmem, hkey⟩ := hs.staged hash st u hst hu
          obtain ⟨hothers, hself, halerts⟩ := magnetHashes_commitStaged s.toState hst hu savePath paused
            fails commits
          rw [if_pos hvalid] at hheld
          rw [if_pos hvalid]
          dsimp only
          exact hs.commit hu hknown honce hheld hothers hself halerts hmem hkey hcleans

end Commit

section Others

theorem metadataPending_append {a : Alert} (hp : s.metadataPending h = true) :
    metadataPending { s with toState := { s.toState with alerts := s.alerts ++ [a] } } h = true := by
  unfold metadataPending at hp ⊢
  rw [List.any_append, hp, Bool.true_or]

theorem Inv.stageResumeSave (hs : Inv s) : Inv { s with toState := s.toState.stageResumeSave h } := by
  obtain ⟨hmagnets, halerts⟩ := magnetHashes_stageResumeSave (h := h) s.toState
  exact hs.frame_alerts held_stageResumeSave hmagnets halerts

theorem Inv.pauseTorrent (hs : Inv s) (i : Nat) : Inv { s with toState := s.toState.pauseTorrent i } := by
  unfold State.pauseTorrent
  split
  · exact hs.stageResumeSave
  · exact hs

theorem Inv.attempt (hs : Inv s) {i : Nat} {existing failed : List Text} {timer : Scheduled}
    (hattempt : s.attempt i existing failed = some (t, timer)) : Inv { s with toState := t } := by
  have hheld := held_attempt hattempt
  obtain ⟨timer', -, heq⟩ := Option.map_eq_some_iff.mp hattempt
  obtain ⟨rfl, -⟩ := Prod.mk.inj heq
  have hcleared := fun remaining => (shelf_clearDoneTargets
    (s := { s.toState with timers := s.timers.eraseIdx i }) timer'.permanent timer'.targets remaining).1
  split_ifs at hheld ⊢
  · obtain ⟨hmagnets, -, halerts⟩ := shelf_eq ((shelf_schedule _ _ _).1.trans (hcleared _))
    exact hs.frame_alerts hheld hmagnets halerts
  · obtain ⟨hmagnets, -, halerts⟩ := shelf_eq (hcleared _)
    exact hs.frame_alerts hheld hmagnets halerts

theorem Inv.answerSave (hs : Inv s) {i : Nat} {saved : Bool}
    (hanswer : s.answerSave i saved = some t) : Inv { s with toState := t } := by
  have hheld := held_answerSave hanswer
  obtain ⟨g, -, hanswer⟩ := Option.bind_eq_some_iff.mp hanswer
  have happended : ∃ a, t = { s.toState with
      requests := s.requests.eraseIdx i
      alerts := s.alerts ++ [a] } := by
    dsimp only at hanswer
    split at hanswer
    · split_ifs at hanswer
      · exact ⟨_, (Option.some.inj hanswer).symm⟩
      · exact ⟨_, (Option.some.inj hanswer).symm⟩
    · split_ifs at hanswer
      exact ⟨_, (Option.some.inj hanswer).symm⟩
  obtain ⟨a, rfl⟩ := happended
  exact hs.frame hheld rfl fun h _ _ hp => metadataPending_append hp

theorem Inv.fileRenamed (hs : Inv s) (file : Nat) (name : Text)
    (hknown : Known { s.toState with
      session := s.session.rename h file name
      alerts := s.alerts ++ [.fileRenamed h] })
    (honce : HeldOnce { s.toState with
      session := s.session.rename h file name
      alerts := s.alerts ++ [.fileRenamed h] }) :
    Inv { s with toState := { s.toState with
      session := s.session.rename h file name
      alerts := s.alerts ++ [.fileRenamed h] } } := by
  refine hs.shrink hknown honce le_rfl (fun _ hh => hh) ?_ (fun _ _ => rfl) (fun _ _ hkey => hkey)
    (fun _ _ hst => .inl hst) fun g hp => metadataPending_append hp
  intro g u' _ hu'
  exact torrent_modify_same (f := fun u => { u with names := u.names.set file name }) (fun _ => rfl)
    (fun _ => rfl) (fun _ => rfl) (fun _ => rfl) h hu'

-- The torrent is where it was to go.
theorem Inv.storageMoved (hs : Inv s) {path : Text} (hmoves : s.moving h = some path)
    (hknown : Known { s.toState with session := s.session.move h path })
    (honce : HeldOnce { s.toState with session := s.session.move h path }) :
    Inv { s with
      toState := { s.toState with session := s.session.move h path }
      moving := Function.update s.moving h none } := by
  set s' : Filing := { s with
    toState := { s.toState with session := s.session.move h path }
    moving := Function.update s.moving h none } with hs'
  have htorrent {g : Handle} {u' : Torrent} (hu' : s'.torrent g = some u') :
      ∃ u, s.torrent g = some u ∧ u' = if u.handle = h then { u with savePath := path } else u := by
    rw [State.torrent, show s'.session = s.session.move h path from rfl, Session.move,
      Session.torrent_modify] at hu'
    obtain ⟨u, hu, rfl⟩ := Option.map_eq_some_iff.mp hu'
    exact ⟨u, hu, rfl⟩
  refine ⟨hknown, honce, hs.magnetKnown, ?_, ?_, ?_, ?_⟩
  · intro g key u' hkey hu'
    obtain ⟨u, hu, rfl⟩ := htorrent hu'
    have hmem := hs.magnetLive g key u hkey hu
    split_ifs
    · exact hmem
    · exact hmem
  · intro g path' hpath'
    refine hs.movingKnown g path' ?_
    by_cases hgh : g = h
    · rw [hs', hgh] at hpath'
      simp at hpath'
    · exact (Function.update_of_ne hgh ..).symm.trans hpath'
  · intro key st u' hst hu'
    obtain ⟨u, hu, rfl⟩ := htorrent hu'
    have hkeys := hs.staged key st u hst hu
    split_ifs
    · exact hkeys
    · exact hkeys
  · intro g hg
    refine hs.undisturbed hg ⟨?_, rfl, fun _ hp => hp, fun _ _ _ _ => ⟨rfl, rfl⟩⟩
    intro u' hu'
    obtain ⟨u, hu, rfl⟩ := htorrent hu'
    refine ⟨u, hu, ?_, ?_⟩
    · split_ifs <;> rfl
    · split_ifs with huh
      · simp [folder, hs', huh, hmoves]
      · simp [folder, hs', huh]

-- A program that starts has no rows.
theorem Inv.restart (s : Filing) (files : List Sha1Hash) (hknown : Known (s.toState.restart files))
    (honce : HeldOnce (s.toState.restart files)) :
    Inv (s.follow (.restart files) (s.toState.restart files)) := by
  obtain ⟨-, hrest⟩ := Prod.mk.inj (held_restart (s := s.toState) files)
  obtain ⟨htorrents, hstaged⟩ := Prod.mk.inj hrest
  obtain ⟨hmagnets, -⟩ := Prod.mk.inj (shelf_restart (s := s.toState) files).1
  have hnone (g : Handle) : (s.toState.restart files).magnetHashes.lookup g = none := by
    rw [hmagnets]
    exact AList.lookup_empty g
  refine ⟨hknown, honce, ?_, ?_, nofun, ?_, ?_⟩
  · exact fun g key hkey => absurd ((hnone g).symm.trans hkey) (Option.some_ne_none key).symm
  · exact fun g key _ hkey => absurd ((hnone g).symm.trans hkey) (Option.some_ne_none key).symm
  · intro key st _ hst
    have hempty : (s.toState.restart files).staged.lookup key = none := by
      rw [hstaged]
      exact AList.lookup_empty key
    exact absurd (hempty.symm.trans hst) (Option.some_ne_none st).symm
  · intro g hg
    have hrow : g ∈ (s.toState.restart files).torrents := hg
    rw [htorrents] at hrow
    exact absurd hrow List.not_mem_nil

end Others

section Finish

-- A row goes by its torrent's hash, once its metadata is processed.
theorem Inv.key_eq (hs : Inv s) (hh : h ∈ s.torrents) (hpending : s.metadataPending h = false)
    {u : Torrent} (hu : s.torrent h = some u) :
    (s.magnetHashes.lookup h).getD u.hashes.best = u.hashes.best := by
  cases hkey : s.magnetHashes.lookup h with
  | none => rfl
  | some key =>
      by_contra hne
      rw [(hs.rows h hh u hu).1 key hkey hne] at hpending
      cases hpending

theorem Inv.settled (hs : Inv s) (hh : h ∈ s.torrents) (hpending : s.metadataPending h = false)
    {u : Torrent} (hu : s.torrent h = some u) :
    s.Settled u.hashes.best u.hashes.best (s.folder u) := by
  have hsettled := (hs.rows h hh u hu).2
  rwa [hs.key_eq hh hpending hu] at hsettled

theorem destination_waits {path : Text} (hpath : path ≠ [])
    (hrecord : s.torrentIntendedPath hash = some path) : s.destination hash = path := by
  rw [destination, hrecord]
  exact if_pos hpath

theorem destination_stays (hmove : s.autoMoveEnabled = false ∨ s.autoMovePath = [])
    (hrecord : s.torrentIntendedPath hash = none) : s.destination hash = [] := by
  unfold destination finishMoveDestination
  rw [hrecord]
  rcases hmove with hmove | hmove <;> simp [hmove]

-- Where a torrent that ends is asked to go.
theorem Settled.lands {u : Torrent} (hmove : s.autoMoveEnabled = false ∨ s.autoMovePath = [] ∨
      (s.choice u.hashes.best).waits = true)
    (hsettled : s.Settled u.hashes.best u.hashes.best (s.folder u)) :
    if (s.choice u.hashes.best).waits = true then
      some (s.destination u.hashes.best) = (s.choice u.hashes.best).path
    else
      s.destination u.hashes.best = [] ∧ some (s.folder u) = (s.choice u.hashes.best).path := by
  unfold Settled at hsettled
  split_ifs at hsettled ⊢ with hwaits
  · obtain ⟨path, hchosen, hpath, hrecord⟩ := hsettled
    rw [destination_waits hpath hrecord, hchosen]
  · have hoff : s.autoMoveEnabled = false ∨ s.autoMovePath = [] := by
      rw [← or_assoc] at hmove
      exact hmove.resolve_right hwaits
    exact ⟨destination_stays hoff hsettled.1, hsettled.2.symm⟩

theorem Inv.lands (hs : Inv s) (hh : h ∈ s.torrents) (hpending : s.metadataPending h = false)
    {total : Int} (hcareful : s.Careful (.torrentFinished h total)) : s.Lands h := by
  intro u hu
  refine (hs.settled hh hpending hu).lands ?_
  exact hcareful.imp_right (Or.imp_right fun hwaits => hwaits u hu)

-- The record is taken, and the torrent is where it was to go once it is moved.
theorem Settled.finished {u : Torrent} (hmove : s.autoMoveEnabled = false ∨ s.autoMovePath = [] ∨
      (s.choice u.hashes.best).waits = true)
    (hsettled : s.Settled u.hashes.best u.hashes.best (s.folder u))
    (hrecord : s'.torrentIntendedPath u.hashes.best = none)
    (hmoving : s'.moving u.handle =
      if s.destination u.hashes.best ≠ [] then some (s.destination u.hashes.best)
      else s.moving u.handle)
    (hchoice : s'.choice u.hashes.best = { s.choice u.hashes.best with waits := false }) :
    s'.Settled u.hashes.best u.hashes.best (s'.folder u) := by
  have hlands := hsettled.lands hmove
  unfold Settled at hsettled ⊢
  unfold folder at hlands hsettled ⊢
  rw [hchoice, hmoving]
  refine ⟨hrecord, ?_⟩
  split_ifs at hlands hsettled with hwaits
  · obtain ⟨path, hchosen, hpath, -⟩ := hsettled
    have hdest : s.destination u.hashes.best = path := Option.some.inj (hlands.trans hchosen)
    rw [hdest, if_pos hpath]
    exact hchosen
  · rw [if_neg (not_not.mpr hlands.1)]
    exact hlands.2.symm

theorem Inv.onTorrentFinished (hs : Inv s) (hpending : s.metadataPending h = false) {total : Int}
    (hcareful : s.Careful (.torrentFinished h total)) : Inv (s.onTorrentFinished h total) := by
  unfold Filing.onTorrentFinished
  cases hu : s.torrent h with
  | none => exact hs
  | some u =>
      by_cases hdownloaded : downloadedPayloadThisSession total = true
      · dsimp only
        rw [if_pos hdownloaded]
        set s' : Filing := { s with
          torrentIntendedPath := Function.update s.torrentIntendedPath u.hashes.best none
          moving := if s.destination u.hashes.best ≠ [] then
            Function.update s.moving h (some (s.destination u.hashes.best)) else s.moving
          choice := Function.update s.choice u.hashes.best
            { s.choice u.hashes.best with waits := false } } with hs'
        have hhandle : u.handle = h := (Session.torrent_eq_some.mp hu).2
        have hother (g : Handle) (hgh : g ≠ h) : s'.moving g = s.moving g := by
          rw [hs']
          dsimp only
          split_ifs
          · exact Function.update_of_ne hgh ..
          · rfl
        refine ⟨hs.known, hs.once, hs.magnetKnown, hs.magnetLive, ?_, hs.staged, fun g hg => ?_⟩
        · intro g path hpath
          by_cases hgh : g = h
          · exact hgh ▸ torrent_lt hu
          · exact hs.movingKnown g path ((hother g hgh).symm.trans hpath)
        · by_cases hgh : g = h
          · subst hgh
            intro v hv
            obtain rfl := Option.some.inj (hu.symm.trans hv)
            refine ⟨(hs.rows g hg u hu).1, ?_⟩
            rw [show s'.magnetHashes = s.magnetHashes from rfl, hs.key_eq hg hpending hu]
            refine (hs.settled hg hpending hu).finished ?_ (Function.update_self ..) ?_
              (Function.update_self ..)
            · exact hcareful.imp_right (Or.imp_right fun hwaits => hwaits u hu)
            · rw [hs', hhandle]
              dsimp only
              split_ifs
              · rw [Function.update_self]
              · rfl
          · refine hs.undisturbed hg ⟨fun v hv => ⟨v, hv, rfl, ?_⟩, rfl, fun _ hp => hp, ?_⟩
            · have hvg : v.handle = g := (Session.torrent_eq_some.mp hv).2
              rw [folder, folder, hvg, hother g hgh]
            · intro v hv key hkey
              have hne : key ≠ u.hashes.best := fun heq =>
                hgh (eq_of_key hv hu hkey (heq ▸ u.hashes.best_mem_keys))
              exact ⟨Function.update_of_ne hne .., Function.update_of_ne hne ..⟩
      · dsimp only
        rw [if_neg hdownloaded]
        exact hs

end Finish

end Filing

end BATorrent.Library
