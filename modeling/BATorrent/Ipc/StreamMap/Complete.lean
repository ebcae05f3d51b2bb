import BATorrent.Ipc.StreamMap.InFlight

namespace BATorrent.StreamMap

open Lib
open Lib.DataStream
open Protocol (Frame Kind takeFrame writeFrame drainFrames)

section Ui

variable {s : State} {e : Engine} {u : Ui} {up down : List Frame}

-- The user's thread takes up or leaves something, and keeps what it knows.
theorem Inv.activation (h : Inv e u up down) {stack : List Activation} (buf : Bytes)
    (hstack : ∀ id file, .wait id file ∈ stack → .wait id file ∈ u.stack) :
    Inv e { u with stack := stack, buf := buf } up down :=
  ⟨h.engine, h.names, h.snapshots, h.cached,
    fun id hash file hw => h.waits id hash file (hstack id (some (hash, file)) hw)⟩

theorem good_pump (h : Good s) (n : Nat) : Good (s.pump n) := by
  obtain ⟨up, down, hf⟩ := h
  refine ⟨up, down, hf.toEngine, hf.toUi.read n, hf.inv.activation _ ?_⟩
  intro id file hw
  rcases List.mem_cons.mp hw with heq | hw
  · cases heq
  · exact hw

theorem good_handled (h : Good s) {below : List Activation} (hs : s.ui.stack = .handler :: below) :
    Good { s with ui := { s.ui with stack := below } } := by
  obtain ⟨up, down, hf⟩ := h
  refine ⟨up, down, hf.toEngine, hf.toUi, hf.inv.activation _ ?_⟩
  exact fun id file hw => hs ▸ List.mem_cons_of_mem _ hw

section Ask

theorem waitsFor_iff {id : UInt32} {a : Activation} :
    a.waitsFor id ↔ ∃ file, a = .wait id file := by
  cases a with
  | wait i file => simp [Activation.waitsFor]
  | drain => simp [Activation.waitsFor]
  | handler => simp [Activation.waitsFor]

-- A number that is not in use means nothing to either side.
structure Unused (e : Engine) (u : Ui) (up down : List Frame) (id : UInt32) : Prop where
  waits : ∀ file, .wait id file ∉ u.stack
  replies : u.replies.lookup id = none
  task : ∀ k, e.task = some k → k.id ≠ id
  up : ∀ f ∈ up, ¬ isRequestOf id f
  down : ∀ f ∈ down, ¬ isReplyTo id f

theorem unused_of_fresh (hup : Carries (s.engine.buf ++ s.toEngine) up)
    (hdown : Carries (s.ui.buf ++ s.toUi) down) {id : UInt32} (hfresh : inUse s id = false) :
    Unused s.engine s.ui up down id := by
  simp only [inUse, hup.drainFrames_eq, hdown.drainFrames_eq, Bool.or_eq_false_iff,
    List.any_eq_false, Option.any_eq_false, decide_eq_true_eq] at hfresh
  obtain ⟨⟨⟨⟨hstack, hreplies⟩, htask⟩, hasked⟩, hanswered⟩ := hfresh
  refine ⟨?_, ?_, ?_, hasked, hanswered⟩
  · exact fun file hw => hstack _ hw (waitsFor_iff.mpr ⟨file, rfl⟩)
  · refine List.lookup_eq_none_iff.mpr fun r hr => ?_
    exact bne_iff_ne.mpr fun heq => hreplies r hr heq.symm
  · intro k hk
    simpa using htask k hk

theorem good_ask (h : Good s) {method : QString} {args : Bytes} {file : Option (QString × Int)}
    (hfresh : inUse s s.ui.nextId = false) (hfits : (requestFrame s.ui.nextId method args).Fits)
    (hfile : ∀ hash n, file = some (hash, n) →
      method = streamGeometryName ∧ HasRow s.engine (readRow args).1.toNat hash) :
    Good (s.ask method args file) := by
  obtain ⟨up, down, hf⟩ := h
  have hnew := unused_of_fresh hf.toEngine hf.toUi hfresh
  have hlookup : ∀ id blob, (s.ui.request file).replies.lookup id = some blob →
      s.ui.replies.lookup id = some blob := by
    intro id blob hl
    unfold Ui.request at hl
    split_ifs at hl
    · simp at hl
    · exact hl
  have hread := readRequest_requestFrame hfits
  refine ⟨up ++ [requestFrame s.ui.nextId method args], down, ?_, hf.toUi, ?_⟩
  · have := hf.toEngine.write hfits
    rwa [List.append_assoc] at this
  refine ⟨hf.inv.engine, hf.inv.names, hf.inv.snapshots, hf.inv.cached, ?_⟩
  intro id hash n hw
  rcases List.mem_cons.mp hw with heq | hw
  · obtain ⟨rfl, rfl⟩ := Activation.wait.inj heq
    obtain ⟨hmethod, hrow⟩ := hfile hash n rfl
    refine ⟨?_, fun k hk hid => absurd hid (hnew.task k hk), ?_, ?_⟩
    · intro f hf' hreq
      rcases List.mem_append.mp hf' with hf' | hf'
      · exact absurd hreq (hnew.up f hf')
      · obtain rfl := List.mem_singleton.mp hf'
        rw [hread]
        exact ⟨hmethod, hrow⟩
    · intro pre f post heq hto
      exact absurd hto (hnew.down f (heq ▸ List.mem_append_right pre List.mem_cons_self))
    · intro blob g hl
      have := hlookup _ _ hl
      rw [hnew.replies] at this
      cases this
  · have w := hf.inv.waits id hash n hw
    refine ⟨?_, w.served, w.onTheWay, fun blob g hl => w.replied blob g (hlookup id blob hl)⟩
    intro f hf' hreq
    rcases List.mem_append.mp hf' with hf' | hf'
    · exact w.asked f hf' hreq
    · -- The new request has a number of its own.
      obtain rfl := List.mem_singleton.mp hf'
      rw [isRequestOf_iff, hread] at hreq
      exact absurd (hreq.2 ▸ hw) (hnew.waits _)

theorem torrentHashAt_eq {u : Ui} {row : Int} (h : u.torrentHashAt row ≠ []) :
    0 ≤ row ∧ u.hashes[row.toNat]? = some (u.torrentHashAt row) := by
  unfold Ui.torrentHashAt at h ⊢
  split_ifs at h ⊢ with hrow
  · cases hh : u.hashes[row.toNat]? with
    | none => simp [hh] at h
    | some hash => exact ⟨hrow, rfl⟩
  · exact absurd rfl h

theorem good_streamGeo (h : Good s) {row file : Int} (hrow : isInt32 row) (hfile : isInt32 file)
    (hfresh : asks s row file → inUse s s.ui.nextId = false) : Good (s.streamGeo row file) := by
  unfold State.streamGeo
  by_cases hasks : asks s row file
  · simp only [if_neg hasks]
    unfold asks at hasks
    rw [not_or] at hasks
    refine good_ask h (hfresh (not_or.mpr hasks)) (fits_streamGeometry _ _ _) ?_
    rintro hash n ⟨rfl, rfl⟩
    obtain ⟨up, down, hf⟩ := h
    obtain ⟨hpos, hhash⟩ := torrentHashAt_eq hasks.1
    simp only [isInt32, decide_eq_true_eq] at hrow hfile
    rw [readRow_putRow ⟨hpos, hrow.2⟩ hfile]
    exact ⟨rfl, hf.inv.names _ _ hhash⟩
  · simp only [if_pos (not_not.mp hasks)]
    exact h

end Ask

section Drain

theorem Covered.tail {hash : QString} {bits : List Bool} {f : Frame} {later : List Frame}
    (h : Covered e hash bits (f :: later))
    (hf : ∀ p < bits.length, f = pieceFrame hash p → bits[p]? = some true) :
    Covered e hash bits later := by
  obtain ⟨row, t, c, ht, hhash, hstreamed, hc, hlen, hall⟩ := h
  refine ⟨row, t, c, ht, hhash, hstreamed, hc, hlen, ?_⟩
  intro p hp
  have hlt : p < bits.length := by
    rw [hlen, ← c.length_have]
    exact (List.getElem?_eq_some_iff.mp hp).1
  rcases hall p hp with hbit | halert | hframe
  · exact .inl hbit
  · exact .inr (.inl halert)
  · rcases List.mem_cons.mp hframe with heq | hframe
    · exact .inl (hf p hlt heq.symm)
    · exact .inr (.inr hframe)

theorem Covered.length_lt {hash : QString} {bits : List Bool} {later : List Frame}
    (h : Covered e hash bits later) : bits.length < 2 ^ 28 := by
  obtain ⟨_, _, c, -, -, -, -, hlen, -⟩ := h
  exact hlen ▸ c.info.numPieces_lt

-- More bits cover as much.
theorem Covered.mono {hash : QString} {bits bits' : List Bool} {later : List Frame}
    (h : Covered e hash bits later) (hlen : bits'.length = bits.length)
    (hbits : ∀ p : Nat, bits[p]? = some true → bits'[p]? = some true) : Covered e hash bits' later := by
  obtain ⟨row, t, c, ht, hhash, hstreamed, hc, hlen', hall⟩ := h
  exact ⟨row, t, c, ht, hhash, hstreamed, hc, hlen.trans hlen', fun p hp =>
    (hall p hp).imp_left (hbits p)⟩

theorem readEvent_pieceFrame {f : Frame} (hfits : f.Fits) {hash : QString} {p : Nat}
    (h : f = pieceFrame hash p) :
    f.kind = Kind.event.code ∧ readEvent f.payload = (pieceFinishedName, putPiece hash p) := by
  subst h
  exact ⟨rfl, readEvent_eventFrame hfits⟩

def isPieceFinished (f : Frame) : Prop :=
  f.kind = Kind.event.code ∧ (readEvent f.payload).1 = pieceFinishedName

theorem Covered.tail_of_other {hash : QString} {bits : List Bool} {f : Frame} {later : List Frame}
    (h : Covered e hash bits (f :: later)) (hfits : f.Fits) (hf : ¬ isPieceFinished f) :
    Covered e hash bits later := by
  refine h.tail fun p _ heq => absurd ?_ hf
  obtain ⟨hkind, hevent⟩ := readEvent_pieceFrame hfits heq
  exact ⟨hkind, by rw [hevent]⟩

-- The oldest frame is taken, and what the UI then has is right for the others.
theorem Inv.arrives {u' : Ui} {f : Frame} (h : Inv e u up (f :: down)) (hnames : Names e u'.hashes)
    (hcached : ∀ hash file g, u'.streamGeo (geoKey hash file) = some g →
      Covered e hash g.have_ down)
    (hstack : ∀ id file, .wait id file ∈ u'.stack → .wait id file ∈ u.stack)
    (hreplied : ∀ id hash file, .wait id (some (hash, file)) ∈ u.stack → ∀ blob g,
      u'.replies.lookup id = some blob → geometryOf blob = some g → Covered e hash g.have_ down) :
    Inv e u' up down where
  engine := h.engine
  names := hnames
  snapshots f' hf' := h.snapshots f' (List.mem_cons_of_mem f hf')
  cached := hcached
  waits := by
    intro id hash file hw
    have w := h.waits id hash file (hstack id _ hw)
    refine ⟨w.asked, w.served, ?_, hreplied id hash file (hstack id _ hw)⟩
    intro pre f' post heq
    exact w.onTheWay (f :: pre) f' post (by rw [heq, List.cons_append])

-- A frame that announces no piece, with what it changes.
theorem Inv.arrives_other {f : Frame} (h : Inv e u up (f :: down)) (hfits : f.Fits)
    (hf : ¬ isPieceFinished f) (u' : Ui) (hnames : Names e u'.hashes)
    (hgeo : ∀ key g, u'.streamGeo key = some g → u.streamGeo key = some g)
    (hstack : ∀ id file, .wait id file ∈ u'.stack → .wait id file ∈ u.stack)
    (hreplies : ∀ id blob, u'.replies.lookup id = some blob →
      u.replies.lookup id = some blob ∨ isReplyTo id f ∧ blob = (readReply f.payload).2) :
    Inv e u' up down := by
  refine h.arrives hnames ?_ hstack ?_
  · intro hash file g hg
    exact (h.cached hash file g (hgeo _ g hg)).tail_of_other hfits hf
  · intro id hash file hw blob g hl hg
    have w := h.waits id hash file hw
    rcases hreplies id blob hl with hl | ⟨hto, rfl⟩
    · exact (w.replied blob g hl hg).tail_of_other hfits hf
    · exact w.onTheWay [] f down rfl hto g hg

theorem isPrefixOf_geoKey (hash : QString) (file : Int) :
    (hash ++ [colon]).isPrefixOf (geoKey hash file) := by
  rw [List.isPrefixOf_iff_prefix, geoKey]
  exact ⟨number file, by rw [List.append_assoc, List.singleton_append]⟩

section SetBit

variable (g : StreamGeo) (piece : Int)

theorem length_setBit : (g.setBit piece).have_.length = g.have_.length := by
  unfold StreamGeo.setBit
  split_ifs
  · exact List.length_set
  · rfl

theorem setBit_keeps {p : Nat} (h : g.have_[p]? = some true) :
    (g.setBit piece).have_[p]? = some true := by
  unfold StreamGeo.setBit
  split_ifs
  · by_cases hp : piece.toNat = p
    · subst hp
      rw [List.getElem?_set_self (List.getElem?_eq_some_iff.mp h).1]
    · rwa [List.getElem?_set_ne hp]
  · exact h

theorem setBit_sets {p : Nat} (h : p < g.have_.length) : (g.setBit p).have_[p]? = some true := by
  rw [StreamGeo.setBit, if_pos ⟨Int.natCast_nonneg p, by omega⟩]
  exact List.getElem?_set_self h

end SetBit

theorem has_of_not_misses {replies : List (UInt32 × Bytes)} {hash : QString} {p : Nat} {id : UInt32}
    {file : Int} {blob : Bytes} {g : StreamGeo}
    (h : ¬ misses replies hash p (.wait id (some (hash, file)))) (hl : replies.lookup id = some blob)
    (hg : geometryOf blob = some g) (hp : p < g.have_.length) : g.have_[p]? = some true := by
  simp only [misses, hl, Option.bind_some, hg, Option.any_some, Int.toNat_natCast, true_and,
    decide_eq_true_eq] at h
  cases hbit : g.have_[p] with
  | true => rw [List.getElem?_eq_getElem hp, hbit]
  | false => exact absurd (by rw [List.getElem?_eq_getElem hp, hbit]) h

-- The announced piece is in every map that is kept of the torrent, and in every reply that waits.
theorem Inv.arrives_piece {f : Frame} (h : Inv e u up (f :: down)) (hfits : f.Fits)
    (hgap : u.stack.any (misses u.replies (readPiece (readEvent f.payload).2).1
      (readPiece (readEvent f.payload).2).2) = false) :
    Inv e (u.setBits (readPiece (readEvent f.payload).2).1 (readPiece (readEvent f.payload).2).2)
      up down := by
  -- What the UI reads, if the piece is one of this torrent's.
  have hpiece : ∀ hash p, p < 2 ^ 28 → f = pieceFrame hash p →
      readPiece (readEvent f.payload).2 = (hash, (p : Int)) := by
    intro hash p hp heq
    have hfits' : (pieceFrame hash p).Fits := heq ▸ hfits
    rw [(readEvent_pieceFrame hfits heq).2]
    exact readPiece_putPiece hfits' (by omega)
  refine h.arrives h.names ?_ (fun id file hw => hw) ?_
  · intro hash file g' hg'
    unfold Ui.setBits at hg'
    simp only at hg'
    split_ifs at hg' with hkey
    · obtain ⟨g, hg, rfl⟩ := Option.map_eq_some_iff.mp hg'
      have hcov := h.cached hash file g hg
      refine (hcov.mono (length_setBit g _) fun p hp => setBit_keeps g _ hp).tail ?_
      intro p hp heq
      rw [length_setBit] at hp
      rw [hpiece hash p (Nat.lt_trans hp hcov.length_lt) heq]
      exact setBit_sets g hp
    · have hcov := h.cached hash file g' hg'
      refine hcov.tail fun p hp heq => absurd ?_ hkey
      rw [hpiece hash p (Nat.lt_trans hp hcov.length_lt) heq]
      exact isPrefixOf_geoKey hash file
  · intro id hash file hw blob g hl hg
    have hcov := (h.waits id hash file hw).replied blob g hl hg
    refine hcov.tail fun p hp heq => ?_
    have hmiss := List.any_eq_false.mp hgap _ hw
    rw [hpiece hash p (Nat.lt_trans hp hcov.length_lt) heq] at hmiss
    exact has_of_not_misses hmiss hl hg hp

theorem Inv.emits (h : Inv e u up down) : Inv e u.emit up down := by
  refine h.activation u.buf ?_
  intro id file hw
  rcases List.mem_cons.mp hw with heq | hw
  · cases heq
  · exact hw

theorem lookup_filter {replies : List (UInt32 × Bytes)} {id : UInt32} {p : UInt32 × Bytes → Bool}
    (hp : ∀ b, p (id, b)) : (replies.filter p).lookup id = replies.lookup id := by
  induction replies with
  | nil => rfl
  | cons r replies ih =>
      obtain ⟨i, b⟩ := r
      by_cases hi : id = i
      · subst hi
        rw [List.filter_cons_of_pos (hp b), List.lookup_cons_self, List.lookup_cons_self]
      · by_cases hkeep : p (i, b)
        · rw [List.filter_cons_of_pos hkeep, List.lookup_cons, List.lookup_cons, ih]
        · rw [List.filter_cons_of_neg hkeep, ih, List.lookup_cons, beq_false_of_ne hi]

theorem lookup_reply (r : UInt32 × Bytes) (replies : List (UInt32 × Bytes)) (id : UInt32) :
    (r :: replies.filter (fun kept => kept.1 ≠ r.1)).lookup id =
      if r.1 = id then some r.2 else replies.lookup id := by
  obtain ⟨i, b⟩ := r
  split_ifs with hi
  · subst hi
    exact List.lookup_cons_self
  · rw [List.lookup_cons, beq_false_of_ne (Ne.symm hi)]
    exact lookup_filter fun _ => decide_eq_true (Ne.symm hi)

-- A reply is taken once, and no other is lost.
theorem lookup_of_taken {replies : List (UInt32 × Bytes)} {id id' : UInt32} {blob : Bytes}
    (h : (replies.filter (fun kept => kept.1 ≠ id)).lookup id' = some blob) :
    replies.lookup id' = some blob := by
  by_cases hid : id' = id
  · have hnone : (replies.filter (fun kept => kept.1 ≠ id)).lookup id = none := by
      refine List.lookup_eq_none_iff.mpr fun r hr => ?_
      exact bne_iff_ne.mpr (Ne.symm (of_decide_eq_true (List.mem_filter.mp hr).2))
    rw [hid, hnone] at h
    cases h
  · rwa [lookup_filter fun _ => decide_eq_true hid] at h

theorem Inv.handleFrame {f : Frame} (h : Inv e u up (f :: down)) (hfits : f.Fits)
    (hgap : isPieceFinished f →
      u.stack.any (misses u.replies (readPiece (readEvent f.payload).2).1
        (readPiece (readEvent f.payload).2).2) = false) :
    Inv e (u.handleFrame f) up down := by
  have hsame : ¬ isPieceFinished f → Inv e u up down := fun hf =>
    h.arrives_other hfits hf _ h.names (fun _ _ hg => hg) (fun _ _ hw => hw) fun _ _ hl => .inl hl
  unfold Ui.handleFrame
  by_cases hhello : f.kind = Kind.hello.code
  · rw [if_pos hhello]
    exact (hsame fun hf => absurd (hhello.symm.trans hf.1) (by decide)).emits
  rw [if_neg hhello]
  by_cases hevent : f.kind = Kind.event.code
  · rw [if_pos hevent]
    unfold Ui.dispatchEvent
    by_cases hsnapshot : (readEvent f.payload).1 = snapshotName
    · simp only [if_pos hsnapshot]
      have hf : ¬ isPieceFinished f := fun hf => absurd (hsnapshot.symm.trans hf.2) (by decide)
      have hnames := h.snapshots f List.mem_cons_self ⟨hevent, hsnapshot⟩
      exact (h.arrives_other hfits hf { u with hashes := hashesIn f } hnames
        (fun _ _ hg => hg) (fun _ _ hw => hw) fun _ _ hl => .inl hl).emits
    by_cases hpiece : (readEvent f.payload).1 = pieceFinishedName
    · simp only [if_neg hsnapshot, if_pos hpiece]
      exact (h.arrives_piece hfits (hgap ⟨hevent, hpiece⟩)).emits
    have hf : ¬ isPieceFinished f := fun hf => hpiece hf.2
    by_cases hremoved : (readEvent f.payload).1 = torrentRemovedName
    · simp only [if_neg hsnapshot, if_neg hpiece, if_pos hremoved]
      exact (h.arrives_other hfits hf { u with streamGeo := fun _ => none } h.names
        (fun _ _ hg => nomatch hg) (fun _ _ hw => hw) fun _ _ hl => .inl hl).emits
    · simp only [if_neg hsnapshot, if_neg hpiece, if_neg hremoved]
      exact (hsame hf).emits
  rw [if_neg hevent]
  have hf : ¬ isPieceFinished f := fun hf => hevent hf.1
  by_cases hreply : f.kind = Kind.reply.code
  · rw [if_pos hreply]
    refine h.arrives_other hfits hf _ h.names (fun _ _ hg => hg) (fun _ _ hw => hw) ?_
    intro id blob hl
    simp only [lookup_reply] at hl
    split_ifs at hl with hid
    · exact .inr ⟨isReplyTo_iff.mpr ⟨hreply, hid⟩, (Option.some.inj hl).symm⟩
    · exact .inl hl
  · rw [if_neg hreply]
    exact hsame hf

theorem handleFrame_buf (u : Ui) (f : Frame) : (u.handleFrame f).buf = u.buf := by
  unfold Ui.handleFrame Ui.dispatchEvent
  split_ifs <;> try rfl
  dsimp only
  split_ifs <;> rfl

theorem good_drain (h : Good s) {below : List Activation} (hs : s.ui.stack = .drain :: below)
    (hgap : NoGap s .drain) : Good (s.drain below) := by
  obtain ⟨up, down, hf⟩ := h
  unfold State.drain
  unfold NoGap at hgap
  rcases hf.toUi.take with hwait | ⟨f, down, rest, rfl, hframe, hrest⟩
  · simp only [hwait]
    refine ⟨up, down, hf.toEngine, hf.toUi, hf.inv.activation _ ?_⟩
    exact fun id file hw => hs ▸ List.mem_cons_of_mem _ hw
  · simp only [hframe] at hgap ⊢
    refine ⟨up, down, hf.toEngine, ?_, ?_⟩
    · rwa [handleFrame_buf]
    · have hfits := hf.toUi.fits f List.mem_cons_self
      exact (hf.inv.activation rest (fun _ _ hw => hw)).handleFrame hfits hgap

end Drain

theorem returned_buf (u : Ui) (file : Option (QString × Int)) (blob : Bytes) :
    (u.returned file blob).buf = u.buf := by
  cases file with
  | none => rfl
  | some asked =>
      unfold Ui.returned
      cases geometryOf blob with
      | none => rfl
      | some g => rfl

theorem geometryOf_nil : geometryOf [] = none := by decide

theorem good_returns (h : Good s) {id : UInt32} {file : Option (QString × Int)}
    {below : List Activation} (hs : s.ui.stack = .wait id file :: below) :
    Good (s.returns id file below) := by
  obtain ⟨up, down, hf⟩ := h
  have hw : .wait id file ∈ s.ui.stack := hs ▸ List.mem_cons_self
  have hinv : Inv s.engine
      { s.ui with replies := s.ui.replies.filter (fun kept => kept.1 ≠ id), stack := below }
      up down := by
    refine ⟨hf.inv.engine, hf.inv.names, hf.inv.snapshots, hf.inv.cached, ?_⟩
    intro id' hash n hw'
    have w := hf.inv.waits id' hash n (hs ▸ List.mem_cons_of_mem _ hw')
    exact ⟨w.asked, w.served, w.onTheWay, fun blob g hl => w.replied blob g (lookup_of_taken hl)⟩
  refine ⟨up, down, hf.toEngine, ?_, ?_⟩
  · rw [State.returns, returned_buf]
    exact hf.toUi
  rw [State.returns]
  cases file with
  | none => exact hinv
  | some asked =>
      obtain ⟨hash, n⟩ := asked
      cases hblob : geometryOf ((s.ui.replies.lookup id).getD []) with
      | none => simpa only [Ui.returned, hblob] using hinv
      | some g =>
          simp only [Ui.returned, hblob]
          refine ⟨hinv.engine, hinv.names, hinv.snapshots, ?_, hinv.waits⟩
          intro hash' n' g' hg'
          simp only at hg'
          split_ifs at hg' with hkey
          · obtain rfl := Option.some.inj hg'
            obtain rfl := append_cons_left_eq (colon_notMem_number n') (colon_notMem_number n) hkey
            cases hl : s.ui.replies.lookup id with
            | none =>
                rw [hl] at hblob
                simp [geometryOf_nil] at hblob
            | some blob =>
                rw [hl] at hblob
                exact (hf.inv.waits id hash' n hw).replied blob g hl hblob
          · exact hf.inv.cached hash' n' g' hg'

end Ui

section Run

def Guard (s : State) (e : Event) : Prop := FitsFrame s e ∧ FreshId s e ∧ NoGap s e

theorem good_step {s s' : State} {e : Event} (h : Good s) (hguard : Guard s e)
    (hn : step s e = some s') : Good s' := by
  obtain ⟨hfits, hfresh, hgap⟩ := hguard
  cases e with
  | pieceFinishes row piece => exact good_pieceFinishes h hn
  | addTorrent t => exact good_addTorrent h hn
  | metadataArrives row c => exact good_metadataArrives h hn
  | popAlert =>
      simp only [step] at hn
      split_ifs at hn with htask
      exact good_popAlert h (Option.isNone_iff_eq_none.mp htask) hn
  | sendEvent name args =>
      simp only [step] at hn
      split_ifs at hn with hmay
      obtain rfl := Option.some.inj hn
      exact good_sendEvent h (Option.isNone_iff_eq_none.mp hmay.1) hmay.2.2 hfits
  | pushSnapshot rest =>
      simp only [step] at hn
      split_ifs at hn with htask
      obtain rfl := Option.some.inj hn
      exact good_pushSnapshot h (Option.isNone_iff_eq_none.mp htask) hfits
  | engineReads n =>
      obtain rfl := Option.some.inj hn
      exact good_engineReads h n
  | serve result =>
      simp only [step] at hn
      split_ifs at hn with htask
      exact good_serve h (Option.isNone_iff_eq_none.mp htask) hfits hn
  | readPiece =>
      obtain ⟨k, hk, rfl⟩ := Option.map_eq_some_iff.mp hn
      exact good_readPiece h hk
  | request method args =>
      simp only [step] at hn
      split_ifs at hn
      obtain rfl := Option.some.inj hn
      exact good_ask h hfresh (fits_requestFrame hfits) (fun _ _ heq => nomatch heq)
  | streamGeo row file =>
      simp only [step] at hn
      split_ifs at hn with hmay
      obtain rfl := Option.some.inj hn
      exact good_streamGeo h hmay.2.1 hmay.2.2 hfresh
  | pump n =>
      simp only [step] at hn
      split_ifs at hn
      obtain rfl := Option.some.inj hn
      exact good_pump h n
  | drain =>
      simp only [step] at hn
      split at hn
      · next below hs =>
          obtain rfl := Option.some.inj hn
          exact good_drain h hs hgap
      · cases hn
  | handled =>
      simp only [step] at hn
      split at hn
      · next below hs =>
          obtain rfl := Option.some.inj hn
          exact good_handled h hs
      · cases hn
  | returns =>
      simp only [step] at hn
      split at hn
      · next id file below hs =>
          obtain rfl := Option.some.inj hn
          exact good_returns h hs
      · cases hn

theorem good_init : Good init := by
  refine ⟨[], [], carries_nil, carries_nil, ⟨?_, ?_, ?_, ?_⟩, ?_, ?_, ?_, ?_⟩
  · rintro i j hash ⟨t, ht, -⟩
    simp [init] at ht
  · intro t ht
    simp [init] at ht
  · intro row p hp
    simp [init] at hp
  · intro k hk
    simp [init] at hk
  · intro i hash hi
    simp [init] at hi
  · intro f hf
    simp at hf
  · intro hash file g hg
    simp [init] at hg
  · intro id hash file hw
    simp [init] at hw

theorem run_good {past : List (Reaction State Event Out)} {s : State}
    (hrun : machine.Run Guard past s) : Good s := by
  refine Machine.Run.invariant Good good_init ?_ hrun
  intro s e s' out h hguard hnext
  obtain ⟨s₁, hn, heq⟩ := Option.map_eq_some_iff.mp hnext
  obtain ⟨rfl, -⟩ := Prod.mk.inj heq
  exact good_step h hguard hn

-- Nothing of the engine is still on its way to the UI.
structure Settled (s : State) : Prop where
  alerts : s.engine.alerts = []
  channel : s.ui.buf ++ s.toUi = []

-- No map that is kept of a file lacks a piece that the engine has of its torrent.
def Complete (s : State) : Prop :=
  ∀ hash file g, s.ui.streamGeo (geoKey hash file) = some g →
    ∀ t ∈ s.engine.torrents, t.hash = hash → ∀ c, t.content = some c →
      ∀ p : Nat, c.have_[p]? = some true → g.have_[p]? = some true

theorem run_complete {past : List (Reaction State Event Out)} {s : State}
    (hrun : machine.Run Guard past s) (hsettled : Settled s) : Complete s := by
  intro hash file g hg t ht hhash c hc p hp
  obtain ⟨up, down, hf⟩ := run_good hrun
  have hdown : down = [] := by
    rw [← hf.toUi.drainFrames_eq, hsettled.channel]
    rfl
  obtain ⟨row, t', c', ht', hhash', -, hc', -, hall⟩ := hf.inv.cached hash file g hg
  obtain ⟨i, hi⟩ := List.mem_iff_getElem?.mp ht
  have hrow : i = row := hf.inv.engine.unique i row hash ⟨t, hi, hhash⟩ ⟨t', ht', hhash'⟩
  subst hrow
  obtain rfl := Option.some.inj (hi.symm.trans ht')
  obtain rfl := Option.some.inj (hc.symm.trans hc')
  rcases hall p hp with hbit | halert | hframe
  · exact hbit
  · rw [hsettled.alerts] at halert
    cases halert
  · rw [hdown] at hframe
    cases hframe

instance : DecidablePred Settled := fun s =>
  decidable_of_iff (s.engine.alerts = [] ∧ s.ui.buf ++ s.toUi = [])
    ⟨fun h => ⟨h.1, h.2⟩, fun h => ⟨h.1, h.2⟩⟩

-- A torrent of one piece that is a file of ten bytes.
def onePiece : Content where
  info :=
    { pieceLength := 16384
      numPieces := 1
      files := [(0, 10)]
      pieceLength_lt := by decide
      numPieces_lt := by decide
      files_lt := by decide }
  have_ := [false]
  length_have := rfl

def lone : Torrent where
  hash := text ['0', 'f']
  content := none
  streamed := none
  hash_short := by decide

-- The file's map is asked for while its piece is not there, and the reply is written.
def askedEvents : List Event :=
  [.addTorrent lone, .metadataArrives 0 onePiece, .pushSnapshot [], .pump 1000, .drain, .handled,
    .drain, .streamGeo 0 0, .engineReads 1000, .serve [], .readPiece, .readPiece]

-- What the map of the file says of the piece that the engine has.
def Says (bit : Bool) (s : State) : Prop :=
  (s.ui.streamGeo (geoKey lone.hash 0)).map (·.have_) = some [bit] ∧
    s.engine.torrents.map (fun t => (t.hash, t.content.map (·.have_))) =
      [(lone.hash, some [true])]

instance (bit : Bool) : DecidablePred (Says bit) := fun _ => inferInstanceAs (Decidable (_ ∧ _))

theorem Says.not_complete {s : State} (h : Says false s) : ¬ Complete s := by
  intro hcomplete
  obtain ⟨g, hg, hbits⟩ := Option.map_eq_some_iff.mp h.1
  obtain ⟨t, ht, heq⟩ := List.map_eq_singleton_iff.mp h.2
  obtain ⟨hhash, hcontent⟩ := Prod.mk.inj heq
  obtain ⟨c, hc, hhave⟩ := Option.map_eq_some_iff.mp hcontent
  have := hcomplete lone.hash 0 g hg t (ht ▸ List.mem_singleton_self t) hhash c hc 0
    (by rw [hhave]; rfl)
  rw [hbits] at this
  cases this

instance (s : State) (e : Event) : Decidable (FitsFrame s e) := by
  cases e <;> dsimp only [FitsFrame] <;> infer_instance

instance (s : State) (e : Event) : Decidable (FreshId s e) := by
  cases e <;> dsimp only [FreshId] <;> infer_instance

instance (s : State) (e : Event) : Decidable (NoGap s e) := by
  cases e <;> dsimp only [NoGap]
  case drain => cases takeFrame s.ui.buf <;> infer_instance
  all_goals infer_instance

instance (s : State) (e : Event) : Decidable (Guard s e) := inferInstanceAs (Decidable (_ ∧ _))

-- The piece is finished once the map is kept.
theorem run_complete_onePiece : ∃ past s, machine.Run Guard past s ∧ Says true s ∧ Complete s := by
  have hreached : ∃ past s, machine.Run Guard past s ∧ (Settled s ∧ Says true s) :=
    Machine.exists_run (askedEvents ++ [.pump 1000, .drain, .drain, .returns, .pieceFinishes 0 0,
      .popAlert, .pump 1000, .drain, .handled, .drain]) (by decide +kernel)
  obtain ⟨past, s, hrun, hsettled, hsays⟩ := hreached
  exact ⟨past, s, hrun, hsays, run_complete hrun hsettled⟩

-- The piece is finished at once, and read together with the reply.
theorem run_not_complete : ∃ past s,
    machine.Run (fun s e => FitsFrame s e ∧ FreshId s e) past s ∧ Settled s ∧ ¬ Complete s := by
  have hreached : ∃ past s, machine.Run (fun s e => FitsFrame s e ∧ FreshId s e) past s ∧
      (Settled s ∧ Says false s) :=
    Machine.exists_run (askedEvents ++ [.pieceFinishes 0 0, .popAlert, .pump 1000, .drain, .drain,
      .handled, .drain, .returns]) (by decide +kernel)
  obtain ⟨past, s, hrun, hsettled, hsays⟩ := hreached
  exact ⟨past, s, hrun, hsettled, hsays.not_complete⟩

end Run

end BATorrent.StreamMap
