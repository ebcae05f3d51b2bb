import BATorrent.Torrent.Library.Once

namespace BATorrent.Library

open Lib Lib.FilePath SessionResume State

variable {rules : Rules} {s s' : State} {p : Params} {h : Handle} {hash : Sha1Hash}

section Live

-- What decides where the resume file of a torrent is, and whether there has to be one.
structure Live where
  hashes : InfoHashes
  metadata : Bool
  removing : Bool

def Torrent.live (t : Torrent) : Live := ⟨t.hashes, t.info.isSome, t.removing⟩

def State.live (s : State) (h : Handle) : Option Live := (s.torrent h).map Torrent.live

theorem live_congr (hheld : s'.held = s.held) : s'.live = s.live := by
  funext h
  rw [State.live, State.live, State.torrent, State.torrent, (held_eq hheld).1]

theorem eq_of_shares {h' : Handle} {a a' : Live} (ha : s.live h = some a) (ha' : s.live h' = some a')
    (hshares : a.hashes.Shares a'.hashes) : h = h' := by
  obtain ⟨t, ht, rfl⟩ := Option.map_eq_some_iff.mp ha
  obtain ⟨t', ht', rfl⟩ := Option.map_eq_some_iff.mp ha'
  obtain ⟨hmem, rfl⟩ := Session.torrent_eq_some.mp ht
  obtain ⟨hmem', rfl⟩ := Session.torrent_eq_some.mp ht'
  rw [Session.eq_of_shares hmem hmem' hshares]

theorem live_lt {a : Live} (ha : s.live h = some a) : h < s.session.nextHandle := by
  obtain ⟨t, ht, -⟩ := Option.map_eq_some_iff.mp ha
  obtain ⟨hmem, rfl⟩ := Session.torrent_eq_some.mp ht
  exact s.session.known t hmem

theorem live_adopt (hnew : s.session.find p.hashes = none) (h : Handle) :
    (s.adopt p).1.live h =
      if h = s.session.nextHandle then some ⟨p.hashes, p.info.isSome, false⟩ else s.live h := by
  have htorrent : (s.adopt p).1.torrent h = _ := Session.torrent_add_of_new hnew h
  rw [State.live, htorrent]
  split_ifs <;> rfl

theorem live_modify {f : Torrent → Torrent} (hhandle : ∀ t, (f t).handle = t.handle)
    (hhashes : ∀ t, (f t).hashes = t.hashes) (hlive : ∀ t, (f t).live = t.live) (h h' : Handle) :
    State.live { s with session := s.session.modify h f hhandle hhashes } h' = s.live h' := by
  have htorrent := Session.torrent_modify (s := s.session) hhandle hhashes h h'
  unfold State.live State.torrent
  dsimp only
  rw [htorrent, Option.map_map]
  congr 1
  funext t
  rw [Function.comp_apply]
  split_ifs
  · exact hlive t
  · rfl

theorem live_remove (h' : Handle) : State.live { s with session := s.session.remove h } h' =
    (s.live h').map fun a => if h' = h then { a with removing := true } else a := by
  have hremove : (s.session.remove h).torrent h' = _ :=
    Session.torrent_modify (f := fun t => { t with removing := true }) (fun _ => rfl) (fun _ => rfl) h h'
  unfold State.live State.torrent
  dsimp only
  rw [hremove, Option.map_map, Option.map_map]
  cases ht : s.session.torrent h' with
  | none => rfl
  | some t =>
      have hhandle : t.handle = h' := (Session.torrent_eq_some.mp ht).2
      simp only [Option.map_some, Function.comp_apply, hhandle]
      split_ifs <;> rfl

theorem live_drop (h' : Handle) : State.live { s with session := s.session.drop h } h' =
    if h' = h then none else s.live h' := by
  have htorrent := Session.torrent_drop (s := s.session) (h := h) h'
  unfold State.live State.torrent
  dsimp only
  rw [htorrent]
  split_ifs <;> rfl

theorem live_receive {ti : TorrentInfo} {session : Session}
    (hreceive : s.session.receive h ti = some session) (h' : Handle) :
    State.live { s with session := session } h' =
      (s.live h').map fun a => if h' = h then ⟨ti.hashes, true, a.removing⟩ else a := by
  have htorrent := (Session.receive_eq_some h' hreceive).2
  unfold State.live State.torrent
  dsimp only
  rw [htorrent, Option.map_map, Option.map_map]
  cases ht : s.session.torrent h' with
  | none => rfl
  | some t =>
      have hhandle : t.handle = h' := (Session.torrent_eq_some.mp ht).2
      simp only [Option.map_some, Function.comp_apply, hhandle]
      split_ifs <;> rfl

end Live

section Books

-- What the library keeps by hash and by handle says what is so of the torrents themselves.
structure Books (s : State) : Prop where
  once : HeldOnce s
  known : Known s
  alive : ∀ h a, s.live h = some a → h ∈ s.torrents ∨ s.isStaged h = true → a.removing = false
  stagedOnce : ∀ k st k' st', s.staged.lookup k = some st → s.staged.lookup k' = some st' →
    st'.handle = st.handle → k' = k
  stagedKey : ∀ k st, s.staged.lookup k = some st → st.uri.hashes.best = k
  stagedLive : ∀ k st a, s.staged.lookup k = some st → s.live st.handle = some a →
    k ∈ a.hashes.keys
  magnetKnown : ∀ h k, s.magnetHashes.lookup h = some k → h < s.session.nextHandle
  magnetLive : ∀ h k a, s.magnetHashes.lookup h = some k → s.live h = some a → k ∈ a.hashes.keys
  files : ∀ k p, s.resumeDir.lookup k = some p → p.hashes.best = k
  alertKnown : ∀ h p, .saved h p ∈ s.alerts → h < s.session.nextHandle
  alertLive : ∀ h p a, .saved h p ∈ s.alerts → s.live h = some a → p.info.isSome = true →
    p.hashes = a.hashes ∧ a.metadata = true

theorem books_init : Books init where
  once := ⟨List.nodup_nil, fun _ hh => absurd hh List.not_mem_nil⟩
  known := ⟨fun _ hh => absurd hh List.not_mem_nil,
    fun hash st hst => absurd ((AList.lookup_empty hash).symm.trans hst) (Option.some_ne_none st).symm⟩
  alive _ a ha := absurd ha (Option.some_ne_none a).symm
  stagedOnce k st _ _ hst := absurd ((AList.lookup_empty k).symm.trans hst) (Option.some_ne_none st).symm
  stagedKey k st hst := absurd ((AList.lookup_empty k).symm.trans hst) (Option.some_ne_none st).symm
  stagedLive k st _ hst := absurd ((AList.lookup_empty k).symm.trans hst) (Option.some_ne_none st).symm
  magnetKnown h k hk := absurd ((AList.lookup_empty h).symm.trans hk) (Option.some_ne_none k).symm
  magnetLive h k _ hk := absurd ((AList.lookup_empty h).symm.trans hk) (Option.some_ne_none k).symm
  files k p hp := absurd ((AList.lookup_empty k).symm.trans hp) (Option.some_ne_none p).symm
  alertKnown _ _ hp := absurd hp List.not_mem_nil
  alertLive _ _ _ hp := absurd hp List.not_mem_nil

-- Rows and keys may go, and torrents with them: what is left of the books is as it was.
theorem Books.shrink (hs : Books s) (htorrents : s'.torrents.Subperm s.torrents)
    (hstaged : ∀ k st, s'.staged.lookup k = some st → s.staged.lookup k = some st)
    (hnext : s'.session.nextHandle = s.session.nextHandle)
    (hlive : ∀ h a', s'.live h = some a' → ∃ a, s.live h = some a ∧ a'.hashes = a.hashes ∧
      a'.metadata = a.metadata ∧
      (h ∈ s'.torrents ∨ s'.isStaged h = true → a'.removing = a.removing))
    (hmagnets : ∀ h k, s'.magnetHashes.lookup h = some k → s.magnetHashes.lookup h = some k ∨
      ∃ a, s.live h = some a ∧ k ∈ a.hashes.keys)
    (hfiles : ∀ k p, s'.resumeDir.lookup k = some p → p.hashes.best = k)
    (halerts : ∀ h p, .saved h p ∈ s'.alerts → .saved h p ∈ s.alerts) : Books s' := by
  have hheld : ∀ h, s'.isStaged h = true → s.isStaged h = true := by
    intro h hh
    obtain ⟨k, st, hst, hsame⟩ := isStaged_iff.mp hh
    exact isStaged_iff.mpr ⟨k, st, hstaged k st hst, hsame⟩
  refine ⟨hs.once.mono htorrents hstaged, hs.known.mono (fun _ hh => htorrents.subset hh) hstaged
    hnext.ge, ?_, ?_, ?_, ?_, ?_, ?_, hfiles, ?_, ?_⟩
  · intro h a' ha' hkept
    obtain ⟨a, ha, -, -, hremoving⟩ := hlive h a' ha'
    rw [hremoving hkept]
    exact hs.alive h a ha (hkept.imp (htorrents.subset ·) (hheld h))
  · exact fun k st k' st' hst hst' => hs.stagedOnce k st k' st' (hstaged k st hst) (hstaged k' st' hst')
  · exact fun k st hst => hs.stagedKey k st (hstaged k st hst)
  · intro k st a' hst ha'
    obtain ⟨a, ha, hhashes, -, -⟩ := hlive _ a' ha'
    rw [hhashes]
    exact hs.stagedLive k st a (hstaged k st hst) ha
  · intro h k hk
    rw [hnext]
    rcases hmagnets h k hk with hk | ⟨a, ha, -⟩
    · exact hs.magnetKnown h k hk
    · exact live_lt ha
  · intro h k a' hk ha'
    obtain ⟨a, ha, hhashes, -, -⟩ := hlive h a' ha'
    rw [hhashes]
    rcases hmagnets h k hk with hk | ⟨b, hb, hmem⟩
    · exact hs.magnetLive h k a hk ha
    · rwa [Option.some.inj (ha.symm.trans hb)]
  · intro h p hp
    rw [hnext]
    exact hs.alertKnown h p (halerts h p hp)
  · intro h p a' hp ha' hinfo
    obtain ⟨a, ha, hhashes, hmetadata, -⟩ := hlive h a' ha'
    rw [hhashes, hmetadata]
    exact hs.alertLive h p a (halerts h p hp) ha hinfo

theorem Books.congr (hs : Books s) (hheld : s'.held = s.held)
    (hmagnets : ∀ h k, s'.magnetHashes.lookup h = some k → s.magnetHashes.lookup h = some k ∨
      ∃ a, s.live h = some a ∧ k ∈ a.hashes.keys)
    (hfiles : ∀ k p, s'.resumeDir.lookup k = some p → p.hashes.best = k)
    (halerts : ∀ h p, .saved h p ∈ s'.alerts → .saved h p ∈ s.alerts) : Books s' := by
  obtain ⟨hsession, htorrents, hstaged⟩ := held_eq hheld
  refine hs.shrink (htorrents ▸ List.Subperm.refl _) (fun k st hst => hstaged ▸ hst)
    (by rw [hsession]) ?_ hmagnets hfiles halerts
  intro h a ha
  exact ⟨a, live_congr hheld ▸ ha, rfl, rfl, fun _ => rfl⟩

-- A new torrent takes a row, and no book speaks of it yet.
theorem Books.adopt (hs : Books s) (hnew : s.session.find p.hashes = none)
    (hheld : s'.held = (s.adopt p).1.held)
    (hmagnets : ∀ h k, s'.magnetHashes.lookup h = some k →
      s.magnetHashes.lookup h = some k ∨ h = s.session.nextHandle ∧ k = p.hashes.best)
    (hfiles : ∀ k p, s'.resumeDir.lookup k = some p → p.hashes.best = k)
    (halerts : ∀ h p, .saved h p ∈ s'.alerts → .saved h p ∈ s.alerts) : Books s' := by
  obtain ⟨hsession, htorrents, hstaged⟩ := held_eq hheld
  have hstaged' : s'.staged = s.staged := hstaged
  have hsame : s'.isStaged = s.isStaged := by
    funext h
    rw [isStaged, isStaged, hstaged']
  have hnext : s'.session.nextHandle = s.session.nextHandle + 1 := by
    rw [hsession]
    exact (adopt_of_new hnew).2
  have hrows : s'.torrents = s.torrents ++ [s.session.nextHandle] := by
    rw [htorrents, adopt_torrents, (adopt_of_new hnew).1]
  have hlive : ∀ h, s'.live h =
      if h = s.session.nextHandle then some ⟨p.hashes, p.info.isSome, false⟩ else s.live h := by
    intro h
    rw [live_congr hheld]
    exact live_adopt hnew h
  have hold : ∀ h, h < s.session.nextHandle → s'.live h = s.live h := by
    intro h hh
    rw [hlive, if_neg hh.ne]
  refine ⟨?_, (hs.known.adopt p).congr hheld, ?_, ?_, ?_, ?_, ?_, ?_, hfiles, ?_, ?_⟩
  · rw [heldOnce_adopt_iff hs.known hs.once hheld]
    exact fun t ht => absurd (hnew.symm.trans ht) (Option.some_ne_none t).symm
  · intro h a ha hkept
    rw [hlive] at ha
    split_ifs at ha with heq
    · rw [← Option.some.inj ha]
    · refine hs.alive h a ha ?_
      rw [hsame, hrows, List.mem_append, List.mem_singleton] at hkept
      rcases hkept with (hh | hh) | hh
      · exact .inl hh
      · exact absurd hh heq
      · exact .inr hh
  · rw [hstaged']
    exact hs.stagedOnce
  · rw [hstaged']
    exact hs.stagedKey
  · intro k st a hst ha
    rw [hstaged'] at hst
    rw [hold _ (hs.known.staged k st hst)] at ha
    exact hs.stagedLive k st a hst ha
  · intro h k hk
    rw [hnext]
    rcases hmagnets h k hk with hk | ⟨rfl, -⟩
    · exact (hs.magnetKnown h k hk).trans (Nat.lt_succ_self _)
    · exact Nat.lt_succ_self _
  · intro h k a hk ha
    rcases hmagnets h k hk with hk | ⟨rfl, rfl⟩
    · rw [hold h (hs.magnetKnown h k hk)] at ha
      exact hs.magnetLive h k a hk ha
    · rw [hlive, if_pos rfl] at ha
      rw [← Option.some.inj ha]
      exact p.hashes.best_mem_keys
  · intro h p hp
    rw [hnext]
    exact (hs.alertKnown h p (halerts h p hp)).trans (Nat.lt_succ_self _)
  · intro h p a hp ha
    rw [hold h (hs.alertKnown h p (halerts h p hp))] at ha
    exact hs.alertLive h p a (halerts h p hp) ha

-- A new torrent waits in the Add window under a key that was free.
theorem Books.stageMagnet (hs : Books s) (uri : Magnet) (scratchDir : Text) (fails : Bool)
    (hnew : s.isDuplicate uri.hashes = true ∨ (s.staged.lookup uri.hashes.best).isSome = true ∨
      fails = true ∨ s.session.find uri.hashes = none) :
    Books (s.stageMagnet uri scratchDir fails) := by
  unfold State.stageMagnet
  dsimp only
  split_ifs with hrefused
  · exact hs
  simp only [not_or] at hrefused
  obtain ⟨hdup, hkey, hok⟩ := hrefused
  replace hnew := ((hnew.resolve_left hdup).resolve_left hkey).resolve_left hok
  set p := magnetParams uri scratchDir uri.name with hp
  obtain ⟨-, hnext, hhandle⟩ := Session.add_of_new (p := p) hnew
  set s' : State := { s with
    session := (s.session.add p).1
    staged := s.staged.insert uri.hashes.best ⟨(s.session.add p).2, uri⟩ } with hs'
  have hlive : ∀ h, s'.live h =
      if h = s.session.nextHandle then some ⟨uri.hashes, false, false⟩ else s.live h := live_adopt hnew
  have hold : ∀ h, h < s.session.nextHandle → s'.live h = s.live h := by
    intro h hh
    rw [hlive, if_neg hh.ne]
  have hstaged : ∀ k st, s'.staged.lookup k = some st →
      k = uri.hashes.best ∧ st = ⟨s.session.nextHandle, uri⟩ ∨
        k ≠ uri.hashes.best ∧ s.staged.lookup k = some st := by
    intro k st hst
    rcases lookup_insert_eq_some.mp hst with ⟨hk, hst⟩ | hst
    · rw [hhandle] at hst
      exact .inl ⟨hk, hst.symm⟩
    · exact .inr hst
  have hstage : s.stageMagnet uri scratchDir fails = s' := by
    rw [State.stageMagnet, if_neg (by simp only [not_or]; exact ⟨hdup, hkey, hok⟩)]
  refine ⟨?_, hstage ▸ hs.known.stageMagnet uri scratchDir fails, ?_, ?_, ?_, ?_, ?_, ?_, hs.files, ?_,
    ?_⟩
  · rw [← hstage, heldOnce_stageMagnet_iff hs.known hs.once]
    refine .inr (.inr (.inr fun t ht => ?_))
    exact absurd (hnew.symm.trans ht) (Option.some_ne_none t).symm
  · intro h a ha hkept
    rw [hlive] at ha
    split_ifs at ha with heq
    · rw [← Option.some.inj ha]
    · refine hs.alive h a ha (hkept.imp_right fun hh => ?_)
      obtain ⟨k, st, hst, hsame⟩ := isStaged_iff.mp hh
      rcases hstaged k st hst with ⟨-, rfl⟩ | ⟨-, hst⟩
      · exact absurd hsame.symm heq
      · exact isStaged_iff.mpr ⟨k, st, hst, hsame⟩
  · intro k st k' st' hst hst' hsame
    rcases hstaged k st hst with ⟨rfl, rfl⟩ | ⟨-, hst⟩
    · rcases hstaged k' st' hst' with ⟨rfl, -⟩ | ⟨-, hst'⟩
      · rfl
      · exact absurd hsame (hs.known.staged k' st' hst').ne
    · rcases hstaged k' st' hst' with ⟨-, rfl⟩ | ⟨-, hst'⟩
      · exact absurd hsame.symm (hs.known.staged k st hst).ne
      · exact hs.stagedOnce k st k' st' hst hst' hsame
  · intro k st hst
    rcases hstaged k st hst with ⟨rfl, rfl⟩ | ⟨-, hst⟩
    · rfl
    · exact hs.stagedKey k st hst
  · intro k st a hst ha
    rcases hstaged k st hst with ⟨rfl, rfl⟩ | ⟨-, hst⟩
    · rw [hlive, if_pos rfl] at ha
      rw [← Option.some.inj ha]
      exact uri.hashes.best_mem_keys
    · rw [hold _ (hs.known.staged k st hst)] at ha
      exact hs.stagedLive k st a hst ha
  · intro h k hk
    exact (hs.magnetKnown h k hk).trans_le (hnext ▸ Nat.le_succ _)
  · intro h k a hk ha
    rw [hold h (hs.magnetKnown h k hk)] at ha
    exact hs.magnetLive h k a hk ha
  · intro h p hp
    exact (hs.alertKnown h p hp).trans_le (hnext ▸ Nat.le_succ _)
  · intro h p a hp ha
    rw [hold h (hs.alertKnown h p hp)] at ha
    exact hs.alertLive h p a hp ha

-- The metadata may add a hash, and takes none away.
theorem Books.receive (hs : Books s) {ti : TorrentInfo} {session : Session} {a : Live}
    (ha : s.live h = some a) (hnone : a.metadata = false)
    (hkeys : ∀ k ∈ a.hashes.keys, k ∈ ti.hashes.keys)
    (hreceive : s.session.receive h ti = some session) :
    Books { s with session := session, alerts := s.alerts ++ [.metadataReceived h] } := by
  have hnext := (Session.receive_eq_some h hreceive).1
  set s' : State := { s with session := session, alerts := s.alerts ++ [.metadataReceived h] } with hs'
  have hlive : ∀ h' b', s'.live h' = some b' → ∃ b, s.live h' = some b ∧
      b'.removing = b.removing ∧ (∀ k ∈ b.hashes.keys, k ∈ b'.hashes.keys) ∧
      (b.metadata = true → b' = b) := by
    intro h' b' hb'
    obtain ⟨b, hb, hchange⟩ := Option.map_eq_some_iff.mp ((live_receive hreceive h').symm.trans hb')
    refine ⟨b, hb, ?_⟩
    split_ifs at hchange with heq
    · have hab : a = b := Option.some.inj (ha.symm.trans (heq ▸ hb))
      rw [← hchange, ← hab]
      refine ⟨rfl, hkeys, fun hmetadata => ?_⟩
      rw [hnone] at hmetadata
      exact Bool.noConfusion hmetadata
    · rw [← hchange]
      exact ⟨rfl, fun k hk => hk, fun _ => rfl⟩
  have halerts : ∀ h' p, .saved h' p ∈ s'.alerts → .saved h' p ∈ s.alerts := by
    intro h' p hp
    simpa [hs'] using hp
  refine ⟨⟨hs.once.rows, hs.once.unstaged⟩, hs.known.mono (fun _ hh => hh) (fun _ _ hst => hst) hnext.ge,
    ?_, hs.stagedOnce, hs.stagedKey, ?_, ?_, ?_, hs.files, ?_, ?_⟩
  · intro h' b' hb' hkept
    obtain ⟨b, hb, hremoving, -, -⟩ := hlive h' b' hb'
    rw [hremoving]
    exact hs.alive h' b hb hkept
  · intro k st b' hst hb'
    obtain ⟨b, hb, -, hsub, -⟩ := hlive _ b' hb'
    exact hsub k (hs.stagedLive k st b hst hb)
  · intro h' k hk
    exact (hs.magnetKnown h' k hk).trans_eq hnext.symm
  · intro h' k b' hk hb'
    obtain ⟨b, hb, -, hsub, -⟩ := hlive h' b' hb'
    exact hsub k (hs.magnetLive h' k b hk hb)
  · intro h' p hp
    exact (hs.alertKnown h' p (halerts h' p hp)).trans_eq hnext.symm
  · intro h' p b' hp hb' hinfo
    obtain ⟨b, hb, -, -, hsame⟩ := hlive h' b' hb'
    obtain ⟨hhashes, hmetadata⟩ := hs.alertLive h' p b (halerts h' p hp) hb hinfo
    rw [hsame hmetadata]
    exact ⟨hhashes, hmetadata⟩

end Books

end BATorrent.Library
