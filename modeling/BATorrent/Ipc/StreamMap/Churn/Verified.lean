import BATorrent.Ipc.StreamMap.Churn.Engine

namespace BATorrent.StreamChurn

open Lib
open Lib.DataStream
open Protocol (Frame Kind takeFrame writeFrame drainFrames)
open StreamMap (Content Torrent StreamGeo Ui Activation colon geoKey geometryOf readEvent readReply
  readRequest readRow readPiece putRow pieceFrame isReplyTo isRequestOf isPieceFinished isInt32
  Carries requestFrame streamGeometryName torrentRemovedName pieceFinishedName snapshotName)

variable {s s' : State} {e : Engine} {u : Ui} {hash : QString} {file : Int} {g : StreamGeo}
  {up down : List Frame}

section Ui

-- The UI's thread takes up or leaves something, and keeps what it knows.
theorem Inv.activation (h : Inv e u up down) {stack : List Activation} (buf : Bytes)
    (hstack : ∀ id file, .wait id file ∈ stack → .wait id file ∈ u.stack) :
    Inv e { u with stack := stack, buf := buf } up down where
  engine := h.engine
  kept := h.kept
  pieces := h.pieces
  waits id hash file hw := by
    have w := h.waits id hash file (hstack id _ hw)
    exact ⟨w.asked, w.served, w.onTheWay, w.replied⟩

theorem good_pump (h : Good s) (n : Nat) : Good (s.pump n) := by
  obtain ⟨up, down, hf⟩ := h
  refine ⟨up, down, hf.toEngine, hf.toUi.read n, hf.inv.activation _ ?_⟩
  intro id file hw
  rcases List.mem_cons.mp hw with heq | hw
  · cases heq
  · exact hw

theorem good_handled (h : Good s) {below : List Activation} (hs : s.ui.stack = .handler :: below) :
    Good { s with ui := { s.ui with stack := below } } := by
  obtain ⟨up, down, hf⟩ := h
  refine ⟨up, down, hf.toEngine, hf.toUi, hf.inv.activation _ ?_⟩
  exact fun id file hw => hs ▸ List.mem_cons_of_mem _ hw

theorem Inv.emits (h : Inv e u up down) : Inv e u.emit up down := by
  refine h.activation u.buf ?_
  intro id file hw
  rcases List.mem_cons.mp hw with heq | hw
  · cases heq
  · exact hw

section Ask

theorem good_ask (h : Good s) {method : QString} {args : Bytes} {asked : Option (QString × Int)}
    (hfresh : StreamMap.inUse s.link s.ui.nextId = false)
    (hfits : (requestFrame s.ui.nextId method args).Fits)
    (hasked : ∀ hash file, asked = some (hash, file) →
      method = streamGeometryName ∧ (readRow args).2 = file) : Good (s.ask method args asked) := by
  obtain ⟨up, down, hf⟩ := h
  have hnew : StreamMap.Unused s.link.engine s.ui up down s.ui.nextId :=
    StreamMap.unused_of_fresh hf.toEngine hf.toUi hfresh
  have hlookup : ∀ id blob, (s.ui.request asked).replies.lookup id = some blob →
      s.ui.replies.lookup id = some blob := by
    intro id blob hl
    unfold StreamMap.Ui.request at hl
    split_ifs at hl
    · simp at hl
    · exact hl
  have hread := StreamMap.readRequest_requestFrame hfits
  refine ⟨up ++ [requestFrame s.ui.nextId method args], down, ?_, hf.toUi, ?_⟩
  · have := hf.toEngine.write hfits
    rwa [List.append_assoc] at this
  refine ⟨hf.inv.engine, hf.inv.kept, hf.inv.pieces, ?_⟩
  intro id hash n hw
  rcases List.mem_cons.mp hw with heq | hw
  · obtain ⟨rfl, rfl⟩ := Activation.wait.inj heq
    refine ⟨?_, ?_, ?_, ?_⟩
    · intro f hf' hreq
      rcases List.mem_append.mp hf' with hf' | hf'
      · exact absurd hreq (hnew.up f hf')
      · obtain rfl := List.mem_singleton.mp hf'
        rw [hread]
        exact hasked hash n rfl
    · intro k hk hid
      exact absurd hid (hnew.task _ (congrArg (Option.map _) hk))
    · intro pre f post heq hto
      exact absurd hto (hnew.down f (heq ▸ List.mem_append_right pre List.mem_cons_self))
    · intro blob g hl
      exact nomatch hnew.replies.symm.trans (hlookup _ _ hl)
  · have w := hf.inv.waits id hash n hw
    refine ⟨?_, w.served, w.onTheWay, fun blob g hl => w.replied blob g (hlookup id blob hl)⟩
    intro f hf' hreq
    rcases List.mem_append.mp hf' with hf' | hf'
    · exact w.asked f hf' hreq
    · -- The new request has a number of its own.
      obtain rfl := List.mem_singleton.mp hf'
      rw [StreamMap.isRequestOf_iff, hread] at hreq
      exact absurd (hreq.2 ▸ hw) (hnew.waits _)

theorem good_streamGeo (h : Good s) {row file : Int} (hrow : isInt32 row) (hfile : isInt32 file)
    (hfresh : StreamMap.asks s.link row file → StreamMap.inUse s.link s.ui.nextId = false) :
    Good (s.streamGeo row file) := by
  unfold State.streamGeo
  by_cases hasks : StreamMap.asks s.link row file
  · have hasks' : ¬ (s.ui.torrentHashAt row = [] ∨
        (s.ui.streamGeo (geoKey (s.ui.torrentHashAt row) file)).isSome) := hasks
    simp only [if_neg hasks']
    rw [not_or] at hasks'
    refine good_ask h (hfresh hasks) (StreamMap.fits_streamGeometry _ _ _) ?_
    rintro hash n ⟨rfl, rfl⟩
    obtain ⟨hpos, -⟩ := StreamMap.torrentHashAt_eq hasks'.1
    simp only [StreamMap.isInt32, decide_eq_true_eq] at hrow hfile
    rw [StreamMap.readRow_putRow ⟨hpos, hrow.2⟩ hfile]
    exact ⟨rfl, rfl⟩
  · have hkept : s.ui.torrentHashAt row = [] ∨
        (s.ui.streamGeo (geoKey (s.ui.torrentHashAt row) file)).isSome := not_not.mp hasks
    simp only [if_pos hkept]
    exact h

end Ask

section Drain

theorem tail_of_kept {P : Prop} {f : Frame} (h : P ∨ Cleared (f :: down)) (hf : ¬ isRemoved f) :
    P ∨ Cleared down := by
  refine h.imp_right ?_
  rintro ⟨f', hf', hremoved⟩
  rcases List.mem_cons.mp hf' with rfl | hf'
  · exact absurd hremoved hf
  · exact ⟨f', hf', hremoved⟩

-- The oldest frame is taken, and what the UI then has is right for the others.
theorem Inv.arrives {u' : Ui} {f : Frame} (h : Inv e u up (f :: down))
    (hkept : ∀ hash file g, u'.streamGeo (geoKey hash file) = some g →
      Right e hash file g ∨ Cleared down)
    (hstack : ∀ id file, .wait id file ∈ u'.stack → .wait id file ∈ u.stack)
    (hreplied : ∀ id hash file, .wait id (some (hash, file)) ∈ u.stack → ∀ blob g,
      u'.replies.lookup id = some blob → geometryOf blob = some g →
        Right e hash file g ∨ Cleared down) : Inv e u' up down where
  engine := h.engine
  kept := hkept
  pieces := by
    intro pre f' post heq
    exact h.pieces (f :: pre) f' post (by rw [heq, List.cons_append])
  waits := by
    intro id hash file hw
    have w := h.waits id hash file (hstack id _ hw)
    refine ⟨w.asked, w.served, ?_, hreplied id hash file (hstack id _ hw)⟩
    intro pre f' post heq
    exact w.onTheWay (f :: pre) f' post (by rw [heq, List.cons_append])

-- A frame that throws nothing away, with what it changes.
theorem Inv.arrives_other {f : Frame} (h : Inv e u up (f :: down)) (hf : ¬ isRemoved f) (u' : Ui)
    (hkept : ∀ hash file g, u'.streamGeo (geoKey hash file) = some g →
      Right e hash file g ∨ Cleared down)
    (hstack : ∀ id file, .wait id file ∈ u'.stack → .wait id file ∈ u.stack)
    (hreplies : ∀ id blob, u'.replies.lookup id = some blob →
      u.replies.lookup id = some blob ∨ isReplyTo id f ∧ blob = (readReply f.payload).2) :
    Inv e u' up down := by
  refine h.arrives hkept hstack ?_
  intro id hash file hw blob g hl hg
  have w := h.waits id hash file hw
  rcases hreplies id blob hl with hl | ⟨hto, rfl⟩
  · exact tail_of_kept (w.replied blob g hl hg) hf
  · exact w.onTheWay [] f down rfl hto g hg

section SetBit

theorem setBit_only (g : StreamGeo) {piece : Int} {p : Nat}
    (h : (g.setBit piece).have_[p]? = some true) : g.have_[p]? = some true ∨ piece = p := by
  unfold StreamGeo.setBit at h
  split_ifs at h with hpiece
  · by_cases heq : piece.toNat = p
    · exact .inr (by omega)
    · rw [List.getElem?_set_ne heq] at h
      exact .inl h
  · exact .inl h

theorem Describes.setBit {c : Content} (h : Describes c file g) (piece : Int) :
    Describes c file (g.setBit piece) := by
  unfold StreamGeo.setBit
  split_ifs
  · exact h
  · exact h

theorem eq_of_isPrefixOf_geoKey {hash' : QString} (hplain : colon ∉ hash) (hplain' : colon ∉ hash')
    (h : (hash' ++ [colon]).isPrefixOf (geoKey hash file)) : hash' = hash := by
  obtain ⟨rest, hrest⟩ := List.isPrefixOf_iff_prefix.mp h
  rw [List.append_assoc, List.singleton_append, geoKey] at hrest
  exact (Text.append_cons_inj hplain' hplain hrest).1

-- The engine has the piece that is set.
theorem Right.setBit {p : Nat} (h : Right e hash file g) (hs : e.Sound) (hhas : Has e hash p) :
    Right e hash file (g.setBit p) := by
  obtain ⟨x, hx, rfl, c, hc, hdesc, hall⟩ := h
  obtain ⟨y, hy, hhash, c', hc', hp⟩ := hhas
  obtain rfl := hs.eq_of_hash hy hx hhash
  obtain rfl := Option.some.inj (hc.symm.trans hc')
  refine ⟨y, hx, rfl, c, hc, hdesc.setBit p, fun q hq => ?_⟩
  rcases setBit_only g hq with hold | heq
  · exact hall q hold
  · exact Int.ofNat.inj heq ▸ hp

end SetBit

theorem Inv.arrives_piece {f : Frame} (h : Inv e u up (f :: down)) (hfits : f.Fits)
    (hpiece : isPieceFinished f) :
    Inv e (u.setBits (readPiece (readEvent f.payload).2).1 (readPiece (readEvent f.payload).2).2)
      up down := by
  have hf : ¬ isRemoved f := fun hr => absurd (hpiece.2.symm.trans hr.2) (by decide)
  obtain ⟨hash', p, rfl, hlt, hplain', hhas⟩ := h.pieces [] f down rfl hpiece
  have hread : readPiece (readEvent (pieceFrame hash' p).payload).2 = (hash', (p : Int)) := by
    rw [(StreamMap.readEvent_pieceFrame hfits rfl).2]
    exact StreamMap.readPiece_putPiece hfits (by omega)
  rw [hread]
  refine h.arrives_other hf _ ?_ (fun _ _ hw => hw) fun _ _ hl => .inl hl
  intro hash file g' hg'
  unfold StreamMap.Ui.setBits at hg'
  simp only at hg'
  split_ifs at hg' with hkey
  · obtain ⟨g, hg, rfl⟩ := Option.map_eq_some_iff.mp hg'
    rcases tail_of_kept (h.kept hash file g hg) hf with hright | hcleared
    · rcases hhas with hhas | hcleared
      · obtain ⟨x, hx, hhash, hrest⟩ := hright
        have hplain : colon ∉ hash := hhash ▸ x.plain
        obtain rfl := eq_of_isPrefixOf_geoKey hplain hplain' hkey
        exact .inl (Right.setBit ⟨x, hx, hhash, hrest⟩ h.engine hhas)
      · exact .inr hcleared
    · exact .inr hcleared
  · exact tail_of_kept (h.kept hash file g' hg') hf

theorem Inv.handleFrame {f : Frame} (h : Inv e u up (f :: down)) (hfits : f.Fits)
    (hdrops : isRemoved f → RepliesRight u e) : Inv e (u.handleFrame f) up down := by
  have hsame : ¬ isRemoved f → Inv e u up down := fun hf =>
    h.arrives_other hf u (fun hash file g hg => tail_of_kept (h.kept hash file g hg) hf)
      (fun _ _ hw => hw) fun _ _ hl => .inl hl
  unfold StreamMap.Ui.handleFrame
  by_cases hhello : f.kind = Kind.hello.code
  · rw [if_pos hhello]
    exact (hsame fun hf => absurd (hhello.symm.trans hf.1) (by decide)).emits
  rw [if_neg hhello]
  by_cases hevent : f.kind = Kind.event.code
  · rw [if_pos hevent]
    unfold StreamMap.Ui.dispatchEvent
    by_cases hsnapshot : (readEvent f.payload).1 = snapshotName
    · simp only [if_pos hsnapshot]
      have hf : ¬ isRemoved f := fun hf => absurd (hsnapshot.symm.trans hf.2) (by decide)
      have hu := h.arrives_other hf
        { u with hashes := (StreamMap.read getStringList [] (readEvent f.payload).2).1 }
        (fun hash file g hg => tail_of_kept (h.kept hash file g hg) hf) (fun _ _ hw => hw)
        fun _ _ hl => .inl hl
      exact hu.emits
    by_cases hpiece : (readEvent f.payload).1 = pieceFinishedName
    · simp only [if_neg hsnapshot, if_pos hpiece]
      exact (h.arrives_piece hfits ⟨hevent, hpiece⟩).emits
    by_cases hremoved : (readEvent f.payload).1 = torrentRemovedName
    · simp only [if_neg hsnapshot, if_neg hpiece, if_pos hremoved]
      have hright := hdrops ⟨hevent, hremoved⟩
      have hu : Inv e { u with streamGeo := fun _ => none } up down :=
        h.arrives (fun _ _ _ hg => nomatch hg) (fun _ _ hw => hw)
          fun id hash file hw blob g hl hg => .inl (hright id hash file hw blob g hl hg)
      exact hu.emits
    · simp only [if_neg hsnapshot, if_neg hpiece, if_neg hremoved]
      exact (hsame fun hf => hremoved hf.2).emits
  rw [if_neg hevent]
  have hf : ¬ isRemoved f := fun hf => hevent hf.1
  by_cases hreply : f.kind = Kind.reply.code
  · rw [if_pos hreply]
    refine h.arrives_other hf _ (fun hash file g hg => tail_of_kept (h.kept hash file g hg) hf)
      (fun _ _ hw => hw) ?_
    intro id blob hl
    simp only [StreamMap.lookup_reply] at hl
    split_ifs at hl with hid
    · exact .inr ⟨StreamMap.isReplyTo_iff.mpr ⟨hreply, hid⟩, (Option.some.inj hl).symm⟩
    · exact .inl hl
  · rw [if_neg hreply]
    exact hsame hf

theorem good_drain (h : Good s) {below : List Activation} (hs : s.ui.stack = .drain :: below)
    (hdrops : DropsReplies s .drain) : Good (s.drain below) := by
  obtain ⟨up, down, hf⟩ := h
  unfold State.drain
  unfold DropsReplies at hdrops
  rcases hf.toUi.take with hwait | ⟨f, down, rest, rfl, hframe, hrest⟩
  · simp only [hwait]
    refine ⟨up, down, hf.toEngine, hf.toUi, hf.inv.activation _ ?_⟩
    exact fun id file hw => hs ▸ List.mem_cons_of_mem _ hw
  · simp only [hframe] at hdrops ⊢
    refine ⟨up, down, hf.toEngine, ?_, ?_⟩
    · rwa [StreamMap.handleFrame_buf]
    · have hfits := hf.toUi.fits f List.mem_cons_self
      exact (hf.inv.activation rest (fun _ _ hw => hw)).handleFrame hfits hdrops

end Drain

theorem geoKey_inj {hash' : QString} {file' : Int} (h : geoKey hash file = geoKey hash' file') :
    hash = hash' ∧ file = file' := by
  have hhash := StreamMap.append_cons_left_eq (StreamMap.colon_notMem_number file)
    (StreamMap.colon_notMem_number file') h
  subst hhash
  have hnumber := (List.cons.inj (List.append_cancel_left h)).2
  exact ⟨rfl, StreamMap.number_injective hnumber⟩

theorem good_returns (h : Good s) {id : UInt32} {asked : Option (QString × Int)}
    {below : List Activation} (hs : s.ui.stack = .wait id asked :: below) :
    Good (s.returns id asked below) := by
  obtain ⟨up, down, hf⟩ := h
  have hw : .wait id asked ∈ s.ui.stack := hs ▸ List.mem_cons_self
  have hinv : Inv s.engine
      { s.ui with replies := s.ui.replies.filter (fun kept => kept.1 ≠ id), stack := below }
      up down := by
    refine ⟨hf.inv.engine, hf.inv.kept, hf.inv.pieces, ?_⟩
    intro id' hash n hw'
    have w := hf.inv.waits id' hash n (hs ▸ List.mem_cons_of_mem _ hw')
    refine ⟨w.asked, w.served, w.onTheWay, fun blob g hl hg => w.replied blob g ?_ hg⟩
    exact StreamMap.lookup_of_taken hl
  refine ⟨up, down, hf.toEngine, ?_, ?_⟩
  · rw [State.returns, StreamMap.returned_buf]
    exact hf.toUi
  rw [State.returns]
  cases asked with
  | none => exact hinv
  | some asked =>
      obtain ⟨hash, n⟩ := asked
      cases hblob : geometryOf ((s.ui.replies.lookup id).getD []) with
      | none => simpa only [StreamMap.Ui.returned, hblob] using hinv
      | some g =>
          simp only [StreamMap.Ui.returned, hblob]
          refine ⟨hinv.engine, ?_, hinv.pieces, fun id' hash' n' hw' => ?_⟩
          · intro hash' n' g' hg'
            simp only at hg'
            split_ifs at hg' with hkey
            · obtain rfl := Option.some.inj hg'
              obtain ⟨rfl, rfl⟩ := geoKey_inj hkey
              cases hl : s.ui.replies.lookup id with
              | none =>
                  rw [hl] at hblob
                  exact absurd (StreamMap.geometryOf_nil.symm.trans hblob) (Option.some_ne_none _).symm
              | some blob =>
                  rw [hl] at hblob
                  exact (hf.inv.waits id hash' n' hw).replied blob g hl hblob
            · exact hf.inv.kept hash' n' g' hg'
          · have w := hinv.waits id' hash' n' hw'
            exact ⟨w.asked, w.served, w.onTheWay, w.replied⟩

end Ui

section Run

def Guard (s : State) (e : Event) : Prop :=
  FitsFrame s e ∧ FreshId s e ∧ KeepsMentioned s e ∧ ServesAsked s e ∧ DropsReplies s e ∧
    AgreesWithUi s e

theorem good_step {event : Event} (h : Good s) (hguard : Guard s event)
    (hn : step s event = some s') : Good s' := by
  obtain ⟨hfits, hfresh, hmentioned, hserves, hdrops, hagrees⟩ := hguard
  cases event with
  | pieceFinishes handle piece => exact good_pieceFinishes h hn
  | recheck handle bits => exact good_recheck h hmentioned hn
  | metadataArrives handle c => exact good_metadataArrives h hn
  | addTorrent t plain =>
      simp only [step] at hn
      split_ifs at hn with htask
      exact good_addTorrent h (Option.isNone_iff_eq_none.mp htask) hn
  | removeTorrent row =>
      simp only [step] at hn
      split_ifs at hn with htask
      exact good_removeTorrent h (Option.isNone_iff_eq_none.mp htask) hn
  | moveTorrent row position =>
      simp only [step] at hn
      split_ifs at hn with htask
      exact good_moveTorrent h (Option.isNone_iff_eq_none.mp htask) hn
  | popAlert =>
      simp only [step] at hn
      split_ifs at hn with htask
      exact good_popAlert h (Option.isNone_iff_eq_none.mp htask) hn
  | sendEvent name args =>
      simp only [step] at hn
      split_ifs at hn with hmay
      obtain rfl := Option.some.inj hn
      exact good_sendEvent h (Option.isNone_iff_eq_none.mp hmay.1) hmay.2.1 hfits
  | pushSnapshot rest =>
      simp only [step] at hn
      split_ifs at hn with htask
      obtain rfl := Option.some.inj hn
      exact good_pushSnapshot h (Option.isNone_iff_eq_none.mp htask) hfits
  | engineReads n =>
      obtain rfl := Option.some.inj hn
      exact good_engineReads h n
  | serve result =>
      simp only [step] at hn
      split_ifs at hn with htask
      exact good_serve h (Option.isNone_iff_eq_none.mp htask) hfits hserves hn
  | readPiece =>
      obtain ⟨k, hk, rfl⟩ := Option.map_eq_some_iff.mp hn
      exact good_readPiece h hk
  | respawn torrents nextHandle =>
      simp only [step] at hn
      split_ifs at hn
      exact good_respawn hagrees hn
  | request method args =>
      simp only [step] at hn
      split_ifs at hn
      obtain rfl := Option.some.inj hn
      exact good_ask h hfresh (StreamMap.fits_requestFrame hfits) (fun _ _ heq => nomatch heq)
  | streamGeo row file =>
      simp only [step] at hn
      split_ifs at hn with hmay
      obtain rfl := Option.some.inj hn
      exact good_streamGeo h hmay.2.1 hmay.2.2 hfresh
  | pump n =>
      simp only [step] at hn
      split_ifs at hn
      obtain rfl := Option.some.inj hn
      exact good_pump h n
  | drain =>
      simp only [step] at hn
      split at hn
      · next below hs =>
          obtain rfl := Option.some.inj hn
          exact good_drain h hs hdrops
      · cases hn
  | handled =>
      simp only [step] at hn
      split at hn
      · next below hs =>
          obtain rfl := Option.some.inj hn
          exact good_handled h hs
      · cases hn
  | returns =>
      simp only [step] at hn
      split at hn
      · next id asked below hs =>
          obtain rfl := Option.some.inj hn
          exact good_returns h hs
      · cases hn

theorem good_init : Good init := by
  refine ⟨[], [], StreamMap.carries_nil, StreamMap.carries_nil, ⟨?_, ?_, ?_, ?_, ?_, ?_⟩, ?_, ?_, ?_⟩
  · exact List.nodup_nil
  · exact List.nodup_nil
  · exact fun x hx => absurd hx List.not_mem_nil
  · exact fun x hx => absurd hx List.not_mem_nil
  · exact fun handle p hp => absurd hp List.not_mem_nil
  · exact fun k hk => nomatch hk
  · exact fun hash file g hg => nomatch hg
  · intro pre f post heq
    exact absurd (congrArg List.length heq) (by simp)
  · exact fun id hash file hw => absurd hw List.not_mem_nil

theorem run_good {past : List (Reaction State Event Out)} (hrun : machine.Run Guard past s) :
    Good s := by
  refine Machine.Run.invariant Good good_init ?_ hrun
  intro s event s' out h hguard hnext
  obtain ⟨s₁, hn, heq⟩ := Option.map_eq_some_iff.mp hnext
  obtain ⟨rfl, -⟩ := Prod.mk.inj heq
  exact good_step h hguard hn

-- No message is on its way.
structure Settled (s : State) : Prop where
  toUi : s.ui.buf ++ s.toUi = []
  toEngine : s.engine.buf ++ s.toEngine = []

-- Each map that is kept is of the torrent with that hash, and of pieces that the engine has.
def Verified (s : State) : Prop :=
  ∀ hash file g, s.ui.streamGeo (geoKey hash file) = some g → Right s.engine hash file g

theorem run_verified {past : List (Reaction State Event Out)} (hrun : machine.Run Guard past s)
    (hsettled : Settled s) : Verified s := by
  intro hash file g hg
  obtain ⟨up, down, hf⟩ := run_good hrun
  have hdown : down = [] := by
    rw [← hf.toUi.drainFrames_eq, hsettled.toUi]
    rfl
  rcases hf.inv.kept hash file g hg with hright | ⟨f, hmem, -⟩
  · exact hright
  · exact absurd (hdown ▸ hmem) List.not_mem_nil

instance : DecidablePred Settled := fun s =>
  decidable_of_iff (s.ui.buf ++ s.toUi = [] ∧ s.engine.buf ++ s.toEngine = [])
    ⟨fun h => ⟨h.1, h.2⟩, fun h => ⟨h.toUi, h.toEngine⟩⟩

instance (s : State) (event : Event) : Decidable (FitsFrame s event) := by
  cases event <;> dsimp only [FitsFrame] <;> infer_instance

instance (s : State) (event : Event) : Decidable (FreshId s event) := by
  cases event <;> dsimp only [FreshId] <;> infer_instance

instance (s : State) (event : Event) : Decidable (ServesAsked s event) := by
  cases event <;> dsimp only [ServesAsked]
  case serve => cases takeFrame s.engine.buf <;> infer_instance
  all_goals infer_instance

instance (f : Frame) : Decidable (isRemoved f) := inferInstanceAs (Decidable (_ ∧ _))

-- A run without a recheck, a removed torrent or a new engine.
def Plain (s : State) : Event → Prop
  | .recheck _ _ => False
  | .respawn _ _ => False
  | .drain =>
      match takeFrame s.ui.buf with
      | .frame f _ => ¬ isRemoved f
      | _ => True
  | _ => True

instance (s : State) (event : Event) : Decidable (Plain s event) := by
  cases event <;> dsimp only [Plain]
  case drain => cases takeFrame s.ui.buf <;> infer_instance
  all_goals infer_instance

theorem guard_of_plain {event : Event}
    (h : FitsFrame s event ∧ FreshId s event ∧ ServesAsked s event ∧ Plain s event) :
    Guard s event := by
  obtain ⟨hfits, hfresh, hserves, hplain⟩ := h
  refine ⟨hfits, hfresh, ?_, hserves, ?_, ?_⟩
  · cases event with
    | recheck handle bits => exact absurd hplain id
    | _ => trivial
  · cases event with
    | drain =>
        unfold Plain at hplain
        unfold DropsReplies
        cases htake : takeFrame s.ui.buf with
        | frame f rest =>
            simp only [htake] at hplain ⊢
            exact fun hremoved => absurd hremoved hplain
        | _ => trivial
    | _ => trivial
  · cases event with
    | respawn torrents nextHandle => exact absurd hplain id
    | _ => trivial

-- A torrent whose one piece is there.
def onePiece : Content := { StreamMap.onePiece with have_ := [true], length_have := rfl }

-- The file's map is asked for, and kept.
def keptEvents : List Event :=
  [.addTorrent StreamMap.lone (by decide), .metadataArrives 0 onePiece, .pushSnapshot [], .pump 1000,
    .drain, .handled, .drain, .streamGeo 0 0, .engineReads 1000, .serve [], .readPiece, .readPiece,
    .pump 1000, .drain, .drain, .returns]

-- The map that is kept has the piece. Has the engine?
def Says (bit : Bool) (s : State) : Prop :=
  (s.ui.streamGeo (geoKey StreamMap.lone.hash 0)).map (·.have_) = some [true] ∧
    s.engine.torrents.map (fun x => (x.hash, x.torrent.content.map (·.have_))) =
      [(StreamMap.lone.hash, some [bit])]

instance (bit : Bool) : DecidablePred (Says bit) := fun _ => inferInstanceAs (Decidable (_ ∧ _))

theorem Says.not_verified (h : Says false s) : ¬ Verified s := by
  intro hverified
  obtain ⟨g, hg, hbits⟩ := Option.map_eq_some_iff.mp h.1
  obtain ⟨x, hx, -, c, hc, -, hall⟩ := hverified StreamMap.lone.hash 0 g hg
  obtain ⟨y, hy, heq⟩ := List.map_eq_singleton_iff.mp h.2
  obtain rfl := List.mem_singleton.mp (hy ▸ hx)
  have hhave : c.have_ = [false] := by
    have := (Prod.mk.inj heq).2
    rw [hc] at this
    exact Option.some.inj this
  have hpiece := hall 0 (by rw [hbits]; rfl)
  rw [hhave] at hpiece
  cases hpiece

theorem run_verified_onePiece : ∃ past s, machine.Run Guard past s ∧ Says true s ∧ Verified s := by
  have hreached : ∃ past s, machine.Run
      (fun s event => FitsFrame s event ∧ FreshId s event ∧ ServesAsked s event ∧ Plain s event)
      past s ∧ (Settled s ∧ Says true s) :=
    Machine.exists_run keptEvents (by decide +kernel)
  obtain ⟨past, s, hrun, hsettled, hsays⟩ := hreached
  have hguarded := hrun.mono fun _ _ => guard_of_plain
  exact ⟨past, s, hguarded, hsays, run_verified hguarded hsettled⟩

-- A recheck takes the piece away, and the map that is kept still has it.
theorem run_not_verified : ∃ past s,
    machine.Run (fun s event => FitsFrame s event ∧ FreshId s event) past s ∧ Settled s ∧
      ¬ Verified s := by
  have hreached : ∃ past s, machine.Run (fun s event => FitsFrame s event ∧ FreshId s event) past s ∧
      (Settled s ∧ Says false s) :=
    Machine.exists_run (keptEvents ++ [.recheck 0 [false]]) (by decide +kernel)
  obtain ⟨past, s, hrun, hsettled, hsays⟩ := hreached
  exact ⟨past, s, hrun, hsettled, hsays.not_verified⟩

end Run

end BATorrent.StreamChurn
