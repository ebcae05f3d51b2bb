import BATorrent.Ipc.StreamMap.Churn.Sound

namespace BATorrent.StreamChurn

open Lib
open Lib.DataStream
open Protocol (Frame Kind takeFrame writeFrame drainFrames)
open StreamMap (Content Torrent StreamGeo Ui Activation colon geoKey geometryOf readEvent readReply
  readRequest readRow pieceFrame isReplyTo isRequestOf isPieceFinished Carries eventFrame
  snapshotFrame replyFrame putVariantMap streamGeometryName torrentRemovedName pieceFinishedName
  snapshotName)

variable {s s' : State} {e e' : Engine} {x y : Entry} {c : Content} {hash : QString} {file : Int}
  {g : StreamGeo} {p : Nat} {up up' down sent later : List Frame}

section Pieces

theorem finish_has {c : Content} {piece : Nat} (h : c.have_[p]? = some true) :
    (c.finish piece).have_[p]? = some true := by
  by_cases heq : piece = p
  · subst heq
    exact List.getElem?_set_self (List.getElem?_eq_some_iff.mp h).1
  · rwa [Content.finish, List.getElem?_set_ne heq]

-- What a task builds is as sound after the step, if the engine only grew.
theorem Flight.task_grows (h : Flight s up down) (hg : Grows s.engine e')
    (htask : e'.task = s.engine.task) : ∀ k, e'.task = some k → k.Sound e' :=
  fun k hk => (h.inv.engine.task k (htask ▸ hk)).grows hg

theorem good_pieceFinishes (h : Good s) {handle piece : Nat}
    (hn : s.pieceFinishes handle piece = some s') : Good s' := by
  obtain ⟨up, down, hf⟩ := h
  obtain ⟨x, hx, hrest⟩ := Option.bind_eq_some_iff.mp hn
  obtain ⟨c, hc, hrest⟩ := Option.bind_eq_some_iff.mp hrest
  split_ifs at hrest with hmissing
  obtain rfl := Option.some.inj hrest
  obtain ⟨hmem, rfl⟩ := of_entry hx
  have hthis : ∀ y ∈ s.engine.torrents, y.handle = x.handle → y = x := fun y hy heq =>
    hf.inv.engine.eq_of_handle hy hmem heq
  have hg : Grows s.engine { s.engine.modify x.handle (·.withContent (c.finish piece)) with
      alerts := s.engine.alerts ++ [(x.handle, piece)] } := by
    refine grows_modify rfl rfl (fun _ => rfl) (fun _ => rfl) ?_
    intro y hy heq c' hc'
    obtain rfl := hthis y hy heq
    obtain rfl := Option.some.inj (hc.symm.trans hc')
    exact ⟨c.finish piece, rfl, rfl, fun p hp => finish_has hp⟩
  refine hf.quiet rfl ?_ hg fun k hk => ⟨k, hk, rfl, rfl, rfl, rfl⟩
  refine sound_modify hf.inv.engine rfl rfl (fun _ => rfl) (fun _ => rfl)
    hf.inv.engine.streamed ?_ (hf.task_grows hg rfl)
  intro handle p hp
  rcases List.mem_append.mp hp with hp | hp
  · exact (hf.inv.engine.alerts handle p hp).grows hg
  · obtain ⟨rfl, rfl⟩ := Prod.mk.inj (List.mem_singleton.mp hp)
    refine ⟨hf.inv.engine.next x hmem, .inl ⟨x.withContent (c.finish p), ?_, rfl, c.finish p, rfl, ?_⟩⟩
    · exact mem_modify.mpr ⟨x, hmem, if_pos rfl⟩
    · exact List.getElem?_set_self (List.getElem?_eq_some_iff.mp hmissing).1

theorem good_metadataArrives (h : Good s) {handle : Nat} {c : Content}
    (hn : s.metadataArrives handle c = some s') : Good s' := by
  obtain ⟨up, down, hf⟩ := h
  obtain ⟨x, hx, hrest⟩ := Option.bind_eq_some_iff.mp hn
  split_ifs at hrest with hnone
  obtain rfl := Option.some.inj hrest
  obtain ⟨hmem, rfl⟩ := of_entry hx
  have hg : Grows s.engine (s.engine.modify x.handle (·.withContent c)) := by
    refine grows_modify rfl rfl (fun _ => rfl) (fun _ => rfl) ?_
    intro y hy heq c' hc'
    obtain rfl := hf.inv.engine.eq_of_handle hy hmem heq
    rw [Option.isNone_iff_eq_none.mp hnone] at hc'
    cases hc'
  refine hf.quiet rfl ?_ hg fun k hk => ⟨k, hk, rfl, rfl, rfl, rfl⟩
  exact sound_modify hf.inv.engine rfl rfl (fun _ => rfl) (fun _ => rfl) hf.inv.engine.streamed
    (fun handle p hp => (hf.inv.engine.alerts handle p hp).grows hg) (hf.task_grows hg rfl)

section Recheck

variable {bits : List Bool} {hbits : bits.length = c.info.numPieces}

theorem mem_recheck (hy : y ∈ e.torrents) :
    (if y.handle = x.handle then y.withContent (recheckedContent c bits hbits) else y) ∈
      (e.modify x.handle (·.withContent (recheckedContent c bits hbits))).torrents :=
  mem_modify.mpr ⟨y, hy, rfl⟩

theorem right_recheck (hs : e.Sound) (hx : x ∈ e.torrents) (hc : x.torrent.content = some c)
    (hr : Right e hash file g)
    (hkept : x.hash = hash → ∀ p : Nat, g.have_[p]? = some true → c.have_[p]? = some true →
      bits[p]? = some true) :
    Right (e.modify x.handle (·.withContent (recheckedContent c bits hbits))) hash file g := by
  obtain ⟨y, hy, rfl, c', hc', hdesc, hall⟩ := hr
  refine ⟨_, mem_recheck hy, ?_⟩
  split_ifs with heq
  · obtain rfl := hs.eq_of_handle hy hx heq
    obtain rfl := Option.some.inj (hc.symm.trans hc')
    exact ⟨rfl, _, rfl, hdesc.congr rfl, fun p hp => hkept rfl p hp (hall p hp)⟩
  · exact ⟨rfl, c', hc', hdesc, hall⟩

theorem has_recheck (hs : e.Sound) (hx : x ∈ e.torrents) (hc : x.torrent.content = some c)
    (hh : Has e hash p) (hkept : x.hash = hash → c.have_[p]? = some true → bits[p]? = some true) :
    Has (e.modify x.handle (·.withContent (recheckedContent c bits hbits))) hash p := by
  obtain ⟨y, hy, rfl, c', hc', hp⟩ := hh
  refine ⟨_, mem_recheck hy, ?_⟩
  split_ifs with heq
  · obtain rfl := hs.eq_of_handle hy hx heq
    obtain rfl := Option.some.inj (hc.symm.trans hc')
    exact ⟨rfl, _, rfl, hkept rfl hp⟩
  · exact ⟨rfl, c', hc', hp⟩

theorem sound_recheck (hs : e.Sound) (hx : x ∈ e.torrents) (hc : x.torrent.content = some c)
    (halerted : ∀ p : Nat, c.have_[p]? = some true → (x.handle, p) ∈ e.alerts → bits[p]? = some true)
    (hbuilt : ∀ k, e.task = some k → k.handle = x.handle → ∀ p : Nat, c.have_[p]? = some true →
      k.bits[p]? = some true → bits[p]? = some true) :
    (e.modify x.handle (·.withContent (recheckedContent c bits hbits))).Sound := by
  refine sound_modify hs rfl rfl (fun _ => rfl) (fun _ => rfl) hs.streamed ?_ ?_
  · intro handle p hp
    obtain ⟨hlt, ⟨y, hy, rfl, c', hc', hhas⟩ | hgone⟩ := hs.alerts handle p hp
    · refine ⟨hlt, .inl ⟨_, mem_recheck hy, ?_⟩⟩
      split_ifs with heq
      · obtain rfl := hs.eq_of_handle hy hx heq
        obtain rfl := Option.some.inj (hc.symm.trans hc')
        exact ⟨rfl, _, rfl, halerted p hhas hp⟩
      · exact ⟨rfl, c', hc', hhas⟩
    · refine ⟨hlt, .inr fun y' hy' => ?_⟩
      obtain ⟨y, hy, rfl⟩ := mem_modify.mp hy'
      split_ifs
      · exact hgone y hy
      · exact hgone y hy
  · intro k hk
    obtain ⟨hfile, y, hy, hhandle, c', hc', hinfo, hlen, hall⟩ := hs.task k hk
    refine ⟨hfile, _, mem_recheck hy, ?_⟩
    split_ifs with heq
    · obtain rfl := hs.eq_of_handle hy hx heq
      obtain rfl := Option.some.inj (hc.symm.trans hc')
      exact ⟨hhandle, _, rfl, hinfo, hlen, fun p hp => hbuilt k hk hhandle.symm p (hall p hp) hp⟩
    · exact ⟨hhandle, c', hc', hinfo, hlen, hall⟩

end Recheck

theorem good_recheck (h : Good s) {handle : Nat} {bits : List Bool}
    (hkeeps : KeepsMentioned s (.recheck handle bits)) (hn : s.recheck handle bits = some s') :
    Good s' := by
  obtain ⟨up, down, hf⟩ := h
  obtain ⟨x, hentry, hrest⟩ := Option.bind_eq_some_iff.mp hn
  obtain ⟨c, hc, hrest⟩ := Option.bind_eq_some_iff.mp hrest
  split_ifs at hrest with hbits
  obtain rfl := Option.some.inj hrest
  obtain ⟨hx, rfl⟩ := of_entry hentry
  have hs := hf.inv.engine
  have hdown := hf.toUi.drainFrames_eq
  -- A piece that something speaks of stays.
  have hstays : ∀ p : Nat, c.have_[p]? = some true → Mentions s x p → bits[p]? = some true := by
    intro p hp hmention
    by_contra hlost
    exact hkeeps x c hentry hc p hp hlost hmention
  refine ⟨up, down, hf.toEngine, hf.toUi, ?_, ?_, ?_, ?_⟩
  · exact sound_recheck hs hx hc (fun p hp halert => hstays p hp (.alerted halert))
      fun k hk hhandle p hp hbit => hstays p hp (.building hk hhandle hbit)
  · intro hash file g hg
    refine (hf.inv.kept hash file g hg).imp_left fun hr => right_recheck hs hx hc hr ?_
    rintro rfl p hbit hp
    exact hstays p hp (.kept hg hbit)
  · intro pre f post heq hpiece
    obtain ⟨hash, p, rfl, hlt, hplain, hhas⟩ := hf.inv.pieces pre f post heq hpiece
    refine ⟨hash, p, rfl, hlt, hplain, hhas.imp_left fun hh => has_recheck hs hx hc hh ?_⟩
    rintro rfl hp
    refine hstays p hp (.announced ?_)
    rw [hdown, heq]
    exact List.mem_append_right pre List.mem_cons_self
  · intro id hash file hw
    have w := hf.inv.waits id hash file hw
    refine ⟨w.asked, ?_, ?_, ?_⟩
    · intro k hk hid
      obtain ⟨⟨y, hy, hhandle, hhash⟩, hrest⟩ := w.served k hk hid
      refine ⟨⟨_, mem_recheck hy, ?_⟩, hrest⟩
      split_ifs
      · exact ⟨hhandle, hhash⟩
      · exact ⟨hhandle, hhash⟩
    · intro pre f post heq hto g hg
      refine (w.onTheWay pre f post heq hto g hg).imp_left fun hr => right_recheck hs hx hc hr ?_
      rintro rfl p hbit hp
      refine hstays p hp (.onTheWay hw ?_ hto hg hbit)
      rw [hdown, heq]
      exact List.mem_append_right pre List.mem_cons_self
    · intro blob g hl hg
      refine (w.replied blob g hl hg).imp_left fun hr => right_recheck hs hx hc hr ?_
      rintro rfl p hbit hp
      exact hstays p hp (.replied hw hl hg hbit)

end Pieces

section Rows

theorem good_addTorrent (h : Good s) (htask : s.engine.task = none) {t : Torrent}
    {plain : colon ∉ t.hash} (hn : s.addTorrent t plain = some s') : Good s' := by
  obtain ⟨up, down, hf⟩ := h
  unfold State.addTorrent at hn
  split_ifs at hn with hnew
  obtain rfl := Option.some.inj hn
  obtain ⟨hstreamed, hfresh⟩ := hnew
  have hs := hf.inv.engine
  have hg : Grows s.engine { s.engine with
      torrents := s.engine.torrents ++ [⟨s.engine.nextHandle, t, plain⟩]
      nextHandle := s.engine.nextHandle + 1 } := by
    refine ⟨fun x hx => ?_, fun x' hx' => ?_, Nat.le_succ _⟩
    · exact ⟨x, List.mem_append_left _ hx, rfl, rfl, fun c hc => ⟨c, hc, rfl, fun _ hp => hp⟩⟩
    · rcases List.mem_append.mp hx' with hx | hx
      · exact .inl ⟨x', hx, rfl⟩
      · exact .inr (List.mem_singleton.mp hx ▸ Nat.le_refl _)
  refine hf.quiet rfl ⟨?_, ?_, ?_, ?_, ?_, ?_⟩ hg fun k hk => nomatch htask.symm.trans hk
  · unfold Engine.hashes
    rw [List.map_append]
    refine List.nodup_append.mpr ⟨hs.hashes, List.nodup_singleton _, ?_⟩
    intro a ha b hb heq
    have hhash : a = t.hash := heq.trans (List.mem_singleton.mp hb)
    exact hfresh (hhash ▸ ha)
  · rw [List.map_append]
    refine List.nodup_append.mpr ⟨hs.handles, List.nodup_singleton _, ?_⟩
    intro a ha b hb heq
    obtain rfl := List.mem_singleton.mp hb
    obtain ⟨x, hx, rfl⟩ := List.mem_map.mp ha
    exact absurd heq (Nat.ne_of_lt (hs.next x hx))
  · intro x hx
    rcases List.mem_append.mp hx with hx | hx
    · exact Nat.lt_succ_of_lt (hs.next x hx)
    · rw [List.mem_singleton.mp hx]
      exact Nat.lt_succ_self _
  · intro x hx hash hh
    rcases List.mem_append.mp hx with hx | hx
    · exact hs.streamed x hx hash hh
    · obtain rfl := List.mem_singleton.mp hx
      exact nomatch hstreamed.symm.trans hh
  · exact fun handle p hp => (hs.alerts handle p hp).grows hg
  · exact hf.task_grows hg rfl

theorem good_moveTorrent (h : Good s) (htask : s.engine.task = none) {row position : Nat}
    (hn : s.moveTorrent row position = some s') : Good s' := by
  obtain ⟨up, down, hf⟩ := h
  unfold State.moveTorrent at hn
  split_ifs at hn with hrows
  obtain rfl := Option.some.inj hn
  have hs := hf.inv.engine
  have hperm := moveRow_perm hrows.1 hrows.2.1
  have hg : Grows s.engine
      { s.engine with torrents := moveRow s.engine.torrents row position hrows.1 } := by
    refine ⟨fun x hx => ?_, fun x' hx' => .inl ⟨x', hperm.mem_iff.mp hx', rfl⟩, Nat.le_refl _⟩
    exact ⟨x, hperm.mem_iff.mpr hx, rfl, rfl, fun c hc => ⟨c, hc, rfl, fun _ hp => hp⟩⟩
  refine hf.quiet rfl ⟨?_, ?_, ?_, ?_, ?_, ?_⟩ hg fun k hk =>
    absurd (htask.symm.trans hk) (Option.some_ne_none k).symm
  · exact (hperm.map Entry.hash).nodup_iff.mpr hs.hashes
  · exact (hperm.map Entry.handle).nodup_iff.mpr hs.handles
  · exact fun x hx => hs.next x (hperm.mem_iff.mp hx)
  · exact fun x hx => hs.streamed x (hperm.mem_iff.mp hx)
  · exact fun handle p hp => (hs.alerts handle p hp).grows hg
  · exact hf.task_grows hg rfl

end Rows

section Events

variable {name : QString} {args : Bytes}

theorem isPieceFinished_iff (h : (eventFrame name args).Fits) :
    isPieceFinished (eventFrame name args) ↔ name = pieceFinishedName := by
  unfold StreamMap.isPieceFinished
  rw [StreamMap.readEvent_eventFrame h]
  exact and_iff_right rfl

-- An event of the engine, while it serves no request.
theorem Flight.sends (h : Flight s up down) (e' : Engine) (hbuf : e'.buf = s.engine.buf)
    (htask : e'.task = none) (hsound : e'.Sound) (hfits : (eventFrame name args).Fits)
    (hc : Carried s.engine e' [eventFrame name args])
    (hpiece : name = pieceFinishedName → Announces e' (eventFrame name args) []) :
    Good (({ s with engine := e' } : State).toUiFrame (some (eventFrame name args))) := by
  refine h.engineStep (some _) (hbuf ▸ h.toEngine) (fun f hf => Option.some.inj hf ▸ hfits) ?_
  refine h.inv.engineStep hsound hc (by simp) (fun f hf => hf) ?_ (by simp [htask]) ?_
  · intro f hf hp
    obtain rfl := List.mem_singleton.mp hf
    exact hpiece ((isPieceFinished_iff hfits).mp hp)
  · intro id hash file _ f hf hto
    obtain rfl := List.mem_singleton.mp hf
    exact absurd hto (StreamMap.not_isReplyTo_event id name args)

theorem Keeps.refl (e : Engine) : Keeps e e := ⟨fun _ _ _ hr => hr, fun _ _ hh => hh⟩

theorem good_sendEvent (h : Good s) (htask : s.engine.task = none)
    (hname : name ≠ pieceFinishedName) (hfits : (eventFrame name args).Fits) :
    Good (s.toUiFrame (some (eventFrame name args))) := by
  obtain ⟨up, down, hf⟩ := h
  exact hf.sends s.engine rfl htask hf.inv.engine hfits (.inl (.refl s.engine))
    fun hp => absurd hp hname

theorem fits_removedFrame (row : Nat) : (removedFrame row).Fits := by
  have hname : (putString torrentRemovedName).length = 32 := by decide
  have hargs := StreamMap.length_putByteArray_le (putInt 4 row)
  rw [StreamMap.length_putInt] at hargs
  simp only [Frame.Fits, removedFrame, eventFrame, List.length_append, hname, Protocol.kMaxFrameBytes]
  omega

theorem cleared_removedFrame (row : Nat) : Cleared [removedFrame row] := by
  refine ⟨_, List.mem_singleton_self _, rfl, ?_⟩
  rw [removedFrame, StreamMap.readEvent_eventFrame (fits_removedFrame row)]

-- The maps that the UI has, or is to be given, are thrown away behind it.
theorem good_removeTorrent (h : Good s) (htask : s.engine.task = none) {row : Nat}
    (hn : s.removeTorrent row = some s') : Good s' := by
  obtain ⟨up, down, hf⟩ := h
  unfold State.removeTorrent at hn
  split_ifs at hn with hrow
  obtain rfl := Option.some.inj hn
  have hs := hf.inv.engine
  have hsub : (s.engine.torrents.eraseIdx row).Sublist s.engine.torrents := List.eraseIdx_sublist ..
  refine hf.sends { s.engine with torrents := s.engine.torrents.eraseIdx row } rfl htask
    ⟨?_, ?_, ?_, ?_, ?_, ?_⟩ (fits_removedFrame row) (.inr (cleared_removedFrame row))
    fun hp => absurd hp (by decide)
  · exact hs.hashes.sublist (hsub.map Entry.hash)
  · exact hs.handles.sublist (hsub.map Entry.handle)
  · exact fun x hx => hs.next x (hsub.subset hx)
  · exact fun x hx => hs.streamed x (hsub.subset hx)
  · intro handle p hp
    obtain ⟨hlt, ⟨x, hx, rfl, hhas⟩ | hgone⟩ := hs.alerts handle p hp
    · by_cases hthere : x ∈ s.engine.torrents.eraseIdx row
      · exact ⟨hlt, .inl ⟨x, hthere, rfl, hhas⟩⟩
      · refine ⟨hlt, .inr fun y hy heq => hthere ?_⟩
        exact hs.eq_of_handle (hsub.subset hy) hx heq ▸ hy
    · exact ⟨hlt, .inr fun x hx => hgone x (hsub.subset hx)⟩
  · exact fun k hk => nomatch htask.symm.trans hk

theorem good_pushSnapshot (h : Good s) (htask : s.engine.task = none) {rest : Bytes}
    (hfits : (snapshotFrame s.engine.hashes rest).Fits) :
    Good (s.toUiFrame (some (snapshotFrame s.engine.hashes rest))) :=
  good_sendEvent h htask (by decide) hfits

theorem Entry.Has.lt (h : x.Has p) : p < 2 ^ 28 := by
  obtain ⟨c, -, hp⟩ := h
  have hlt := (List.getElem?_eq_some_iff.mp hp).1
  rw [c.length_have] at hlt
  exact Nat.lt_trans hlt c.info.numPieces_lt

theorem good_popAlert (h : Good s) (htask : s.engine.task = none) (hn : s.popAlert = some s') :
    Good s' := by
  obtain ⟨up, down, hf⟩ := h
  have hs := hf.inv.engine
  unfold State.popAlert at hn
  cases halerts : s.engine.alerts with
  | nil => simp [halerts] at hn
  | cons a rest =>
      obtain ⟨handle, piece⟩ := a
      simp only [halerts] at hn
      obtain rfl := Option.some.inj hn
      have hsound : ({ s.engine with alerts := rest } : Engine).Sound :=
        hs.frame rfl rfl (fun a ha => halerts ▸ List.mem_cons_of_mem _ ha)
          fun k hk => nomatch htask.symm.trans hk
      have hg : Grows s.engine { s.engine with alerts := rest } := grows_of_torrents rfl rfl
      have hquiet : Good { s with engine := { s.engine with alerts := rest } } :=
        hf.quiet rfl hsound hg fun k hk => nomatch htask.symm.trans hk
      cases hstreamed : (({ s.engine with alerts := rest } : Engine).entry handle).bind
          (·.torrent.streamed) with
      | none => exact hquiet
      | some hash =>
          obtain ⟨x, hentry, hx⟩ := Option.bind_eq_some_iff.mp hstreamed
          obtain ⟨hmem, rfl⟩ := of_entry hentry
          obtain rfl := hs.streamed x hmem hash hx
          -- The torrent is there, so it has the piece that the alert is about.
          have hhas : x.Has piece := by
            obtain ⟨-, ⟨y, hy, heq, hhas⟩ | hgone⟩ := hs.alerts x.handle piece
              (halerts ▸ List.mem_cons_self)
            · exact hs.eq_of_handle hy hmem heq ▸ hhas
            · exact absurd rfl (hgone x hmem)
          have hfits := StreamMap.fits_pieceFinished x.torrent.hash_short piece
          refine hf.sends { s.engine with alerts := rest } rfl htask hsound hfits (.inl hg.keeps) ?_
          exact fun _ => ⟨x.hash, piece, rfl, hhas.lt, x.plain, .inl ⟨x, hmem, rfl, hhas⟩⟩

theorem good_engineReads (h : Good s) (n : Nat) : Good (s.engineReads n) := by
  obtain ⟨up, down, hf⟩ := h
  have hg : Grows s.engine { s.engine with buf := s.engine.buf ++ s.toEngine.take n } :=
    grows_of_torrents rfl rfl
  have hsound : ({ s.engine with buf := s.engine.buf ++ s.toEngine.take n } : Engine).Sound :=
    hf.inv.engine.frame rfl rfl (fun a ha => ha) (hf.task_grows hg rfl)
  refine ⟨up, down, hf.toEngine.read n, hf.toUi, ?_⟩
  have hinv : Inv { s.engine with buf := s.engine.buf ++ s.toEngine.take n } s.ui up (down ++ []) :=
    hf.inv.engineStep hsound (.inl hg.keeps) (by simp) (fun f hf => hf) (by simp)
      (fun id hash file _ w k hk hid => (w.served k hk hid).grows hg rfl rfl rfl) (by simp)
  rwa [List.append_nil] at hinv

end Events

section Requests

theorem find_some {row file : Int} {of : Nat × Nat} (h : e.find row file = some (x, c, of)) :
    x ∈ e.torrents ∧ x.torrent.content = some c ∧ 0 ≤ file ∧ c.info.files[file.toNat]? = some of := by
  unfold Engine.find at h
  split_ifs at h with hpos
  obtain ⟨x', hx, h⟩ := Option.bind_eq_some_iff.mp h
  obtain ⟨c', hc, h⟩ := Option.bind_eq_some_iff.mp h
  obtain ⟨f', hf, h⟩ := Option.map_eq_some_iff.mp h
  simp only [Prod.mk.injEq] at h
  obtain ⟨rfl, rfl, rfl⟩ := h
  exact ⟨List.mem_of_getElem? hx, hc, hpos.2, hf⟩

theorem grows_stream {handle : Nat} (htorrents : e'.torrents = (e.modify handle Entry.stream).torrents)
    (hnext : e'.nextHandle = e.nextHandle) : Grows e e' :=
  grows_modify htorrents hnext (fun _ => rfl) (fun _ => rfl)
    fun _ _ _ c hc => ⟨c, hc, rfl, fun _ hp => hp⟩

-- The torrent is registered before its pieces are read.
theorem sound_streamGeometry (hs : e.Sound) (hx : x ∈ e.torrents) (hc : x.torrent.content = some c)
    {of : Nat × Nat} (hof : of ∈ c.info.files) (id : UInt32) :
    ({ e.modify x.handle Entry.stream with task := some ⟨id, x.handle, c, of, []⟩ } : Engine).Sound := by
  have hg : Grows e
      { e.modify x.handle Entry.stream with task := some ⟨id, x.handle, c, of, []⟩ } :=
    grows_stream rfl rfl
  refine sound_modify hs rfl rfl (fun _ => rfl) (fun _ => rfl) ?_
    (fun handle p hp => (hs.alerts handle p hp).grows hg) ?_
  · intro y hy hash hh
    have hstream : y.stream.torrent.streamed = some (y.torrent.streamed.getD y.hash) := rfl
    cases hold : y.torrent.streamed with
    | none =>
        rw [hstream, hold] at hh
        exact (Option.some.inj hh).symm
    | some old =>
        rw [hstream, hold] at hh
        exact (Option.some.inj hh).symm.trans (hs.streamed y hy old hold)
  · intro k hk
    obtain rfl := Option.some.inj hk
    refine ⟨hof, x.stream, mem_modify.mpr ⟨x, hx, if_pos rfl⟩, rfl, c, hc, rfl, Nat.zero_le _, ?_⟩
    intro p hp
    simp at hp

-- A reply that holds no map, or a pong.
theorem Flight.answers (h : Flight s up down) (e' : Engine) {f : Frame}
    (hup : Carries (e'.buf ++ s.toEngine) up') (hsub : ∀ f ∈ up', f ∈ up)
    (hsound : e'.Sound) (hg : Grows s.engine e') (htask : e'.task = none) (hfits : f.Fits)
    (hkind : f.kind ≠ Kind.event.code)
    (hempty : ∀ id hash file, Waiting s.engine s.ui up down id hash file → isReplyTo id f →
      geometryOf (readReply f.payload).2 = none) :
    Good (({ s with engine := e' } : State).toUiFrame (some f)) := by
  refine h.engineStep (some f) hup (fun f' hf' => Option.some.inj hf' ▸ hfits) ?_
  refine h.inv.engineStep hsound (.inl hg.keeps) (by simp) hsub ?_ (by simp [htask]) ?_
  · intro f' hf' hp
    obtain rfl := List.mem_singleton.mp hf'
    exact absurd hp.1 hkind
  · intro id hash file w f' hf' hto g hmap
    obtain rfl := List.mem_singleton.mp hf'
    exact nomatch (hempty id hash file w hto).symm.trans hmap

theorem good_serve (h : Good s) (htask : s.engine.task = none) {result : Bytes}
    (hfits : (replyFrame 0 result).Fits) (hserves : ServesAsked s (.serve result))
    (hn : s.serve result = some s') : Good s' := by
  obtain ⟨up, down, hf⟩ := h
  unfold ServesAsked at hserves
  rcases hf.toEngine.take with hwait | ⟨f, up', rest, rfl, hframe, hrest⟩
  · simp [State.serve, hwait] at hn
  simp only [State.serve, hframe] at hn hserves
  obtain rfl := Option.some.inj hn
  have hsub : ∀ f' ∈ up', f' ∈ f :: up' := fun f' hf' => List.mem_cons_of_mem f hf'
  have hg : Grows s.engine { s.engine with buf := rest } := grows_of_torrents rfl rfl
  have hsound : ({ s.engine with buf := rest } : Engine).Sound :=
    hf.inv.engine.frame rfl rfl (fun a ha => ha) (hf.task_grows hg rfl)
  unfold Engine.dispatch
  by_cases hping : f.kind = Kind.ping.code
  · simp only [if_pos hping]
    refine hf.answers { s.engine with buf := rest } hrest hsub hsound hg htask (by decide)
      StreamMap.kind_codes.2.2.2.1 ?_
    intro id hash file _ hto
    exact absurd (StreamMap.isReplyTo_iff.mp hto).1 StreamMap.kind_codes.2.2.2.2
  by_cases hrequest : f.kind = Kind.request.code
  · simp only [if_neg hping, if_pos hrequest]
    by_cases hmethod : (readRequest f.payload).2.1 = streamGeometryName
    · simp only [if_pos hmethod]
      unfold Engine.streamGeometry
      cases hfind : ({ s.engine with buf := rest } : Engine).find
          (readRow (readRequest f.payload).2.2).1 (readRow (readRequest f.payload).2.2).2 with
      | none =>
          simp only
          refine hf.answers { s.engine with buf := rest } hrest hsub hsound hg htask
            (StreamMap.fits_empty _) (by decide : Kind.reply.code ≠ Kind.event.code) ?_
          intro id hash file _ _
          rw [StreamMap.readReply_replyFrame (StreamMap.fits_empty _)]
          exact StreamMap.geometryOf_empty
      | some found =>
          obtain ⟨x, c, of⟩ := found
          obtain ⟨hx, hc, hpos, hof⟩ := find_some hfind
          simp only
          have hmem : of ∈ c.info.files := List.mem_of_getElem? hof
          have hstreamed := sound_streamGeometry hsound hx hc hmem (readRequest f.payload).1
          have hg' : Grows s.engine
              { ({ s.engine with buf := rest } : Engine).modify x.handle Entry.stream with
                task := some ⟨(readRequest f.payload).1, x.handle, c, of, []⟩ } := grows_stream rfl rfl
          refine hf.engineStep none hrest (fun f' hf' => nomatch hf') ?_
          refine hf.inv.engineStep hstreamed (.inl hg'.keeps) (by simp) hsub (by simp) ?_ (by simp)
          intro id hash file hw w k hk hid
          obtain rfl := Option.some.inj hk
          have hid : (readRequest f.payload).1 = id := hid
          have hreq : isRequestOf id f := StreamMap.isRequestOf_iff.mpr ⟨hrequest, hid⟩
          have hasked : (hash, file) ∈ askedBy (readRequest f.payload).1 (.wait id (some (hash, file))) :=
            if_pos hid.symm
          have hhash := hserves hrequest hmethod _ hw _ hasked (x, c, of) hfind
          have hfile := (w.asked f List.mem_cons_self hreq).2
          refine ⟨⟨x.stream, mem_modify.mpr ⟨x, hx, if_pos rfl⟩, rfl, hhash⟩, ?_⟩
          rw [← hfile]
          exact ⟨hpos, hof⟩
    · simp only [if_neg hmethod]
      have hfits' : (replyFrame (readRequest f.payload).1 result).Fits :=
        StreamMap.fits_replyFrame hfits
      refine hf.answers { s.engine with buf := rest } hrest hsub hsound hg htask hfits'
        (by decide : Kind.reply.code ≠ Kind.event.code) ?_
      intro id hash file w hto
      have hid : (readRequest f.payload).1 = id := by
        have := (StreamMap.isReplyTo_iff.mp hto).2
        rwa [StreamMap.readReply_replyFrame hfits'] at this
      have hreq : isRequestOf id f := StreamMap.isRequestOf_iff.mpr ⟨hrequest, hid⟩
      exact absurd (w.asked f List.mem_cons_self hreq).1 hmethod
  · simp only [if_neg hping, if_neg hrequest]
    refine hf.engineStep none hrest (fun f' hf' => nomatch hf') ?_
    exact hf.inv.engineStep hsound (.inl hg.keeps) (by simp) hsub (by simp) (by simp [htask]) (by simp)

theorem Task.Sound.sized {k : Task} (h : k.Sound e) : k.geometry.Sized := by
  obtain ⟨x, -, -, c, -, hinfo, hlen, -⟩ := h.covered
  have hsize := k.content.info.pieceLength_lt
  have hfile := k.content.info.files_lt k.file h.file
  have hpieces := k.content.info.numPieces_lt
  rw [hinfo] at hlen
  unfold Task.geometry
  constructor <;> simp only <;> omega

-- What the task has read is right, whatever is still to be read.
theorem Task.Sound.right {k : Task} (h : k.Sound e) (hs : e.Sound) (hserves : Serves e k hash file) :
    Right e hash file k.geometry := by
  obtain ⟨x, hx, hhandle, c, hc, hinfo, -, hall⟩ := h.covered
  obtain ⟨⟨y, hy, hyk, rfl⟩, hpos, hof⟩ := hserves
  obtain rfl := hs.eq_of_handle hx hy (hhandle.trans hyk.symm)
  refine ⟨x, hx, rfl, c, hc, ⟨hpos, ?_, k.file, ?_, rfl, rfl⟩, hall⟩
  · rw [hinfo]
    rfl
  · rw [hinfo]
    exact hof

theorem good_readPiece (h : Good s) {k : Task} (htask : s.engine.task = some k) :
    Good (s.readPiece k) := by
  obtain ⟨up, down, hf⟩ := h
  have hs := hf.inv.engine
  have hk := hs.task k htask
  obtain ⟨x, hx, hhandle, c, hc, hinfo, hlen, hall⟩ := hk.covered
  have hentry : (s.engine.entry k.handle).bind (·.torrent.content) = some c := by
    rw [← hhandle, hs.entry_eq hx, Option.bind_some, hc]
  unfold State.readPiece
  rw [hentry]
  cases hnext : c.have_[k.bits.length]? with
  | some b =>
      simp only [hnext]
      have hg : Grows s.engine { s.engine with task := some { k with bits := k.bits ++ [b] } } :=
        grows_of_torrents rfl rfl
      refine hf.quiet rfl ?_ hg ?_
      · refine hs.frame rfl rfl (fun a ha => ha) ?_
        intro k' hk'
        obtain rfl := Option.some.inj hk'
        refine ⟨hk.file, x, hx, hhandle, c, hc, hinfo, ?_, ?_⟩
        · have hlt := (List.getElem?_eq_some_iff.mp hnext).1
          rw [c.length_have] at hlt
          rw [List.length_append, List.length_singleton]
          omega
        · intro p hp
          by_cases hold : p < k.bits.length
          · rw [List.getElem?_append_left hold] at hp
            exact hall p hp
          · -- The bit just read.
            have hlast : p = k.bits.length := by
              have hlt := (List.getElem?_eq_some_iff.mp hp).1
              rw [List.length_append, List.length_singleton] at hlt
              omega
            subst hlast
            rw [List.getElem?_concat_length] at hp
            exact hnext.trans hp
      · intro k' hk'
        obtain rfl := Option.some.inj hk'
        exact ⟨k, htask, rfl, rfl, rfl, rfl⟩
  | none =>
      simp only [hnext]
      have hbits : k.bits.length < 2 ^ 28 := Nat.lt_of_le_of_lt hlen c.info.numPieces_lt
      have hfits := StreamMap.fits_geometry (g := k.geometry) hbits k.id
      have hg : Grows s.engine { s.engine with task := none } := grows_of_torrents rfl rfl
      refine hf.engineStep (some _) hf.toEngine (fun f hf => Option.some.inj hf ▸ hfits) ?_
      refine hf.inv.engineStep ?_ (.inl hg.keeps) (by simp) (fun f hf => hf) ?_
        (fun _ _ _ _ _ k' hk' => nomatch hk') ?_
      · exact hs.frame rfl rfl (fun a ha => ha) (fun k' hk' => nomatch hk')
      · intro f hf hp
        obtain rfl := List.mem_singleton.mp hf
        exact absurd hp.1 (by decide : Kind.reply.code ≠ Kind.event.code)
      · intro id hash file w f hf hto g hmap
        obtain rfl := List.mem_singleton.mp hf
        rw [StreamMap.isReplyTo_iff, StreamMap.readReply_replyFrame hfits] at hto
        rw [StreamMap.readReply_replyFrame hfits, StreamMap.geometryOf_putVariantMap hk.sized] at hmap
        obtain rfl := Option.some.inj hmap
        exact hg.keeps.right hash file _ (hk.right hs (w.served k htask hto.2))

end Requests

section Respawn

theorem good_respawn {torrents : List Entry} {nextHandle : Nat}
    (hagrees : AgreesWithUi s (.respawn torrents nextHandle))
    (hn : s.respawn torrents nextHandle = some s') : Good s' := by
  obtain ⟨hbuf, hreplies, hkept⟩ := hagrees
  unfold State.respawn at hn
  split_ifs at hn with hfresh
  obtain rfl := Option.some.inj hn
  obtain ⟨hhashes, hhandles, hnew⟩ := hfresh
  have hhello : helloFrame.Fits := by decide
  have hdown : Carries (s.ui.buf ++ writeFrame helloFrame) [helloFrame] := by
    have := StreamMap.carries_nil.write hhello
    rwa [hbuf]
  have hnotReply : ∀ id, ¬ isReplyTo id helloFrame := fun id hto =>
    absurd (StreamMap.isReplyTo_iff.mp hto).1 (by decide)
  refine ⟨[], [helloFrame], StreamMap.carries_nil, hdown, ⟨?_, ?_, ?_, ?_, ?_, ?_⟩, ?_, ?_, ?_⟩
  · exact hhashes
  · exact hhandles
  · exact fun x hx => (hnew x hx).1
  · exact fun x hx h hh => nomatch (hnew x hx).2.symm.trans hh
  · exact fun handle p hp => absurd hp List.not_mem_nil
  · exact fun k hk => nomatch hk
  · exact fun hash file g hg => .inl (hkept hash file g hg)
  · intro pre f post heq hp
    have hmem : f ∈ [helloFrame] := heq ▸ List.mem_append_right pre List.mem_cons_self
    obtain rfl := List.mem_singleton.mp hmem
    exact absurd hp.1 (by decide)
  · intro id hash file hw
    refine ⟨fun f hf => absurd hf List.not_mem_nil, (fun k hk => nomatch hk), ?_, ?_⟩
    · intro pre f post heq hto
      have hmem : f ∈ [helloFrame] := heq ▸ List.mem_append_right pre List.mem_cons_self
      exact absurd (List.mem_singleton.mp hmem ▸ hto) (hnotReply id)
    · exact fun blob g hl hg => .inl (hreplies id hash file hw blob g hl hg)

end Respawn

end BATorrent.StreamChurn
