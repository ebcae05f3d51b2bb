import BATorrent.Ipc.StreamMap

namespace BATorrent.StreamMap

open Lib
open Lib.DataStream
open Protocol (Frame Kind takeFrame writeFrame drainFrames)

section Guards

-- What is written is no longer than a frame may be.
def FitsFrame (s : State) : Event → Prop
  | .sendEvent name args => (eventFrame name args).Fits
  | .pushSnapshot rest => (snapshotFrame s.engine.hashes rest).Fits
  | .serve result => (replyFrame 0 result).Fits
  | .request method args => (requestFrame 0 method args).Fits
  | _ => True

def Activation.waitsFor (id : UInt32) : Activation → Bool
  | .wait i _ => i = id
  | _ => false

def isRequestOf (id : UInt32) (f : Frame) : Bool :=
  f.kind = Kind.request.code ∧ (readRequest f.payload).1 = id

def isReplyTo (id : UInt32) (f : Frame) : Bool :=
  f.kind = Kind.reply.code ∧ (readReply f.payload).1 = id

-- A call that waits, a request that is on its way or being served, or a reply not taken.
def inUse (s : State) (id : UInt32) : Bool :=
  s.ui.stack.any (·.waitsFor id) || s.ui.replies.any (·.1 = id) || s.engine.task.any (·.id = id) ||
    (drainFrames (s.engine.buf ++ s.toEngine)).any (isRequestOf id) ||
    (drainFrames (s.ui.buf ++ s.toUi)).any (isReplyTo id)

def asks (s : State) (row file : Int) : Prop :=
  ¬ (s.ui.torrentHashAt row = [] ∨
    (s.ui.streamGeo (geoKey (s.ui.torrentHashAt row) file)).isSome)

instance (s : State) (row file : Int) : Decidable (asks s row file) :=
  inferInstanceAs (Decidable (¬ _))

-- The counter of requests has not come round to a number that still means another one.
def FreshId (s : State) : Event → Prop
  | .request _ _ => inUse s s.ui.nextId = false
  | .streamGeo row file => asks s row file → inUse s s.ui.nextId = false
  | _ => True

-- The call waits for the map of a file of this torrent, and its reply is there without the piece.
def misses (replies : List (UInt32 × Bytes)) (hash : QString) (piece : Int) : Activation → Bool
  | .wait id (some (h, _)) =>
      h = hash ∧ ((replies.lookup id).bind geometryOf).any fun g =>
        g.have_[piece.toNat]? = some false
  | _ => false

-- No piece is announced between a reply's arrival and the end of the call that it answers.
def NoGap (s : State) : Event → Prop
  | .drain =>
      match takeFrame s.ui.buf with
      | .frame f _ =>
          f.kind = Kind.event.code ∧ (readEvent f.payload).1 = pieceFinishedName →
            let piece := readPiece (readEvent f.payload).2
            s.ui.stack.any (misses s.ui.replies piece.1 piece.2) = false
      | _ => True
  | _ => True

end Guards

section Frames

-- The bytes are these frames, whatever part of them was read.
structure Carries (bytes : Bytes) (fs : List Frame) : Prop where
  bytes : bytes = fs.flatMap writeFrame
  fits : ∀ f ∈ fs, f.Fits

theorem carries_nil : Carries [] [] := ⟨rfl, by simp⟩

theorem Carries.write {bytes : Bytes} {fs : List Frame} (h : Carries bytes fs) {f : Frame}
    (hf : f.Fits) : Carries (bytes ++ writeFrame f) (fs ++ [f]) where
  bytes := by rw [h.bytes, List.flatMap_append, List.flatMap_singleton]
  fits := by
    intro f' hf'
    rcases List.mem_append.mp hf' with hf' | hf'
    · exact h.fits f' hf'
    · rwa [List.mem_singleton.mp hf']

theorem Carries.read {buf channel : Bytes} {fs : List Frame} (h : Carries (buf ++ channel) fs)
    (n : Nat) : Carries (buf ++ channel.take n ++ channel.drop n) fs := by
  rwa [List.append_assoc, List.take_append_drop]

theorem Carries.drainFrames_eq {bytes : Bytes} {fs : List Frame} (h : Carries bytes fs) :
    drainFrames bytes = fs := h.bytes ▸ Protocol.drainFrames_flatMap h.fits

-- The next frame is the oldest, or it is not there yet.
theorem Carries.take {buf channel : Bytes} {fs : List Frame} (h : Carries (buf ++ channel) fs) :
    takeFrame buf = .wait ∨
      ∃ f fs' rest, fs = f :: fs' ∧ takeFrame buf = .frame f rest ∧ Carries (rest ++ channel) fs' := by
  cases fs with
  | nil =>
      left
      have hbuf : buf = [] := List.append_eq_nil_iff.mp h.bytes |>.1
      rw [hbuf]
      rfl
  | cons f fs =>
      have heq := h.bytes
      rw [List.flatMap_cons] at heq
      rcases Protocol.takeFrame_append (h.fits f List.mem_cons_self) heq with
        hwait | ⟨rest, -, hframe, hrest⟩
      · exact .inl hwait
      · exact .inr ⟨f, fs, rest, rfl, hframe, hrest, fun f' hf' => h.fits f' (List.mem_cons_of_mem f hf')⟩

-- A frame of the channel was there before the last step, or it is the one just sent.
theorem split_sent {down sent pre post : List Frame} {f : Frame} (hlen : sent.length ≤ 1)
    (heq : down ++ sent = pre ++ f :: post) :
    (∃ m, down = pre ++ f :: m ∧ post = m ++ sent) ∨ f ∈ sent ∧ post = [] := by
  have hlast : ∀ m, sent = m ++ f :: post → f ∈ sent ∧ post = [] := by
    intro m hm
    refine ⟨hm ▸ List.mem_append_right m List.mem_cons_self, ?_⟩
    have hcount := congrArg List.length hm
    simp only [List.length_append, List.length_cons] at hcount
    exact List.eq_nil_of_length_eq_zero (by omega)
  rcases List.append_eq_append_iff.mp heq with ⟨m, rfl, hm⟩ | ⟨m, rfl, hm⟩
  · exact .inr (hlast m hm)
  · cases m with
    | nil => exact .inr (hlast [] hm.symm)
    | cons f' m =>
        rw [List.cons_append, List.cons.injEq] at hm
        obtain ⟨rfl, rfl⟩ := hm
        exact .inl ⟨m, rfl, rfl⟩

end Frames

section Engine

-- A map of the torrent that lacks nothing but what is still to be announced.
def Covered (e : Engine) (hash : QString) (bits : List Bool) (later : List Frame) : Prop :=
  ∃ row t c, e.torrents[row]? = some t ∧ t.hash = hash ∧ t.streamed = some hash ∧
    t.content = some c ∧ bits.length = c.info.numPieces ∧
    ∀ p, c.have_[p]? = some true →
      bits[p]? = some true ∨ (row, p) ∈ e.alerts ∨ pieceFrame hash p ∈ later

def HasRow (e : Engine) (row : Nat) (hash : QString) : Prop :=
  ∃ t, e.torrents[row]? = some t ∧ t.hash = hash

structure Task.Sound (e : Engine) (k : Task) : Prop where
  file : k.file ∈ k.content.info.files
  covered : ∃ t c, e.torrents[k.row]? = some t ∧ t.streamed = some t.hash ∧ t.content = some c ∧
    c.info = k.content.info ∧ k.bits.length ≤ c.info.numPieces ∧
    ∀ p < k.bits.length, c.have_[p]? = some true →
      k.bits[p]? = some true ∨ (k.row, p) ∈ e.alerts

structure Engine.Sound (e : Engine) : Prop where
  unique : ∀ i j hash, HasRow e i hash → HasRow e j hash → i = j
  streamed : ∀ t ∈ e.torrents, ∀ h, t.streamed = some h → h = t.hash ∧ ∃ c, t.content = some c
  alerts : ∀ row p, (row, p) ∈ e.alerts →
    ∃ t c, e.torrents[row]? = some t ∧ t.content = some c ∧ p < c.info.numPieces
  task : ∀ k, e.task = some k → k.Sound e

-- How the engine moves on while it sends `sent`.
structure Evolves (e e' : Engine) (sent : List Frame) : Prop where
  torrent : ∀ row t, e.torrents[row]? = some t → ∃ t', e'.torrents[row]? = some t' ∧
    t'.hash = t.hash ∧ (∀ h, t.streamed = some h → t'.streamed = some h) ∧
    ∀ c, t.content = some c → ∃ c', t'.content = some c' ∧ c'.info = c.info ∧
      ∀ p, c'.have_[p]? = some true → c.have_[p]? = some true ∨ (row, p) ∈ e'.alerts
  alerts : ∀ row p, (row, p) ∈ e.alerts → (row, p) ∈ e'.alerts ∨
    ∀ t h, e.torrents[row]? = some t → t.streamed = some h → pieceFrame h p ∈ sent

theorem Evolves.hasRow {e e' : Engine} {sent : List Frame} (h : Evolves e e' sent) {row : Nat}
    {hash : QString} (hrow : HasRow e row hash) : HasRow e' row hash := by
  obtain ⟨t, ht, rfl⟩ := hrow
  obtain ⟨t', ht', hhash, -⟩ := h.torrent row t ht
  exact ⟨t', ht', hhash⟩

theorem Covered.evolves {e e' : Engine} {sent later : List Frame} {hash : QString}
    {bits : List Bool} (h : Covered e hash bits later) (hev : Evolves e e' sent) :
    Covered e' hash bits (later ++ sent) := by
  obtain ⟨row, t, c, ht, hhash, hstreamed, hc, hlen, hall⟩ := h
  obtain ⟨t', ht', hhash', hstreamed', hcontent'⟩ := hev.torrent row t ht
  obtain ⟨c', hc', hinfo, hhave⟩ := hcontent' c hc
  refine ⟨row, t', c', ht', hhash'.trans hhash, hstreamed' hash hstreamed, hc', hinfo ▸ hlen, ?_⟩
  intro p hp
  rcases hhave p hp with hold | halert
  · rcases hall p hold with hbit | halert | hframe
    · exact .inl hbit
    · rcases hev.alerts row p halert with halert | hsent
      · exact .inr (.inl halert)
      · exact .inr (.inr (List.mem_append_right later (hsent t hash ht hstreamed)))
    · exact .inr (.inr (List.mem_append_left sent hframe))
  · exact .inr (.inl halert)

theorem Task.Sound.evolves {e e' : Engine} {sent : List Frame} {k : Task} (h : k.Sound e)
    (hev : Evolves e e' sent) (halerts : ∀ a ∈ e.alerts, a ∈ e'.alerts) : k.Sound e' where
  file := h.file
  covered := by
    obtain ⟨t, c, ht, hstreamed, hc, hinfo, hlen, hall⟩ := h.covered
    obtain ⟨t', ht', hhash', hstreamed', hcontent'⟩ := hev.torrent k.row t ht
    obtain ⟨c', hc', hinfo', hhave⟩ := hcontent' c hc
    refine ⟨t', c', ht', hhash' ▸ hstreamed' _ hstreamed, hc', hinfo'.trans hinfo, hinfo' ▸ hlen, ?_⟩
    intro p hp hset
    rcases hhave p hset with hold | halert
    · exact (hall p hp hold).imp_right (halerts _)
    · exact .inr halert

theorem mem_of_row {e : Engine} {row : Nat} {t : Torrent} (h : e.torrents[row]? = some t) :
    t ∈ e.torrents := List.mem_of_getElem? h

section SetTorrent

variable {e e' : Engine} {row : Nat} {t t' : Torrent}

theorem getElem?_setTorrent (ht : e.torrents[row]? = some t)
    (hset : e'.torrents = e.torrents.set row t') (i : Nat) :
    e'.torrents[i]? = if i = row then some t' else e.torrents[i]? := by
  rw [hset, List.getElem?_set]
  by_cases hi : i = row
  · have hlt := (List.getElem?_eq_some_iff.mp ht).1
    rw [if_pos hi.symm, if_pos hlt, if_pos hi]
  · rw [if_neg (Ne.symm hi), if_neg hi]

theorem evolves_setTorrent (ht : e.torrents[row]? = some t)
    (hset : e'.torrents = e.torrents.set row t') (hhash : t'.hash = t.hash)
    (hstreamed : ∀ h, t.streamed = some h → t'.streamed = some h)
    (hcontent : ∀ c, t.content = some c → ∃ c', t'.content = some c' ∧ c'.info = c.info ∧
      ∀ p, c'.have_[p]? = some true → c.have_[p]? = some true ∨ (row, p) ∈ e'.alerts)
    (halerts : ∀ a ∈ e.alerts, a ∈ e'.alerts) : Evolves e e' [] where
  torrent := by
    intro i ti hi
    rw [getElem?_setTorrent ht hset]
    split_ifs with hrow
    · subst hrow
      obtain rfl := Option.some.inj (ht.symm.trans hi)
      exact ⟨t', rfl, hhash, hstreamed, hcontent⟩
    · exact ⟨ti, hi, rfl, fun h hh => hh, fun c hc => ⟨c, hc, rfl, fun p hp => .inl hp⟩⟩
  alerts := fun i p hp => .inl (halerts (i, p) hp)

theorem hasRow_of_setTorrent (ht : e.torrents[row]? = some t)
    (hset : e'.torrents = e.torrents.set row t') (hhash : t'.hash = t.hash) {i : Nat}
    {hash : QString} (h : HasRow e' i hash) : HasRow e i hash := by
  obtain ⟨ti, hi, rfl⟩ := h
  rw [getElem?_setTorrent ht hset] at hi
  split_ifs at hi with hrow
  · obtain rfl := Option.some.inj hi
    exact ⟨t, hrow ▸ ht, hhash.symm⟩
  · exact ⟨ti, hi, rfl⟩

theorem sound_setTorrent (h : e.Sound) (ht : e.torrents[row]? = some t)
    (hset : e'.torrents = e.torrents.set row t') (hhash : t'.hash = t.hash)
    (hstreamed : ∀ h, t'.streamed = some h → h = t'.hash ∧ ∃ c, t'.content = some c)
    (hev : Evolves e e' [])
    (halerts : ∀ a ∈ e'.alerts, a ∈ e.alerts ∨
      a.1 = row ∧ ∃ c, t'.content = some c ∧ a.2 < c.info.numPieces)
    (htask : ∀ k, e'.task = some k → k.Sound e') : e'.Sound where
  unique i j hash hi hj :=
    h.unique i j hash (hasRow_of_setTorrent ht hset hhash hi) (hasRow_of_setTorrent ht hset hhash hj)
  streamed := by
    intro t₁ ht₁
    rw [hset] at ht₁
    rcases List.mem_or_eq_of_mem_set ht₁ with ht₁ | rfl
    · exact h.streamed t₁ ht₁
    · exact hstreamed
  alerts := by
    intro i p hp
    rcases halerts (i, p) hp with hold | ⟨hrow, c, hc, hlt⟩
    · obtain ⟨t₁, c, ht₁, hc, hlt⟩ := h.alerts i p hold
      obtain ⟨t₂, ht₂, -, -, hcontent⟩ := hev.torrent i t₁ ht₁
      obtain ⟨c₂, hc₂, hinfo, -⟩ := hcontent c hc
      exact ⟨t₂, c₂, ht₂, hc₂, hinfo ▸ hlt⟩
    · refine ⟨t', c, ?_, hc, hlt⟩
      rw [getElem?_setTorrent ht hset, if_pos hrow]
  task := htask

end SetTorrent

theorem evolves_of_torrents {e e' : Engine} (htorrents : e'.torrents = e.torrents)
    (halerts : ∀ a ∈ e.alerts, a ∈ e'.alerts) (sent : List Frame) : Evolves e e' sent where
  torrent _ t ht :=
    ⟨t, htorrents ▸ ht, rfl, fun _ hh => hh, fun c hc => ⟨c, hc, rfl, fun _ hp => .inl hp⟩⟩
  alerts row p hp := .inl (halerts (row, p) hp)

theorem evolves_buf (e : Engine) (buf : Bytes) (sent : List Frame) :
    Evolves e { e with buf := buf } sent where
  torrent _ t ht := ⟨t, ht, rfl, fun _ hh => hh, fun c hc => ⟨c, hc, rfl, fun _ hp => .inl hp⟩⟩
  alerts _ _ hp := .inl hp

theorem evolves_task (e : Engine) (task : Option Task) (sent : List Frame) :
    Evolves e { e with task := task } sent where
  torrent _ t ht := ⟨t, ht, rfl, fun _ hh => hh, fun c hc => ⟨c, hc, rfl, fun _ hp => .inl hp⟩⟩
  alerts _ _ hp := .inl hp

-- Only the buffer, the alerts and the task differ.
theorem Engine.Sound.frame {e e' : Engine} (h : e.Sound) (htorrents : e'.torrents = e.torrents)
    (halerts : ∀ a ∈ e'.alerts, a ∈ e.alerts) (htask : ∀ k, e'.task = some k → k.Sound e') :
    e'.Sound where
  unique i j hash hi hj := by
    unfold HasRow at hi hj
    rw [htorrents] at hi hj
    exact h.unique i j hash hi hj
  streamed := htorrents ▸ h.streamed
  alerts row p hp := by
    rw [htorrents]
    exact h.alerts row p (halerts _ hp)
  task := htask

end Engine

section Invariant

-- What is known of a call that waits for the map of a file of `hash`.
structure Waiting (e : Engine) (replies : List (UInt32 × Bytes)) (up down : List Frame) (id : UInt32)
    (hash : QString) : Prop where
  asked : ∀ f ∈ up, isRequestOf id f → (readRequest f.payload).2.1 = streamGeometryName ∧
    HasRow e (readRow (readRequest f.payload).2.2).1.toNat hash
  served : ∀ k, e.task = some k → k.id = id → HasRow e k.row hash
  onTheWay : ∀ pre f post, down = pre ++ f :: post → isReplyTo id f →
    ∀ g, geometryOf (readReply f.payload).2 = some g → Covered e hash g.have_ post
  replied : ∀ blob g, replies.lookup id = some blob → geometryOf blob = some g →
    Covered e hash g.have_ down

def Names (e : Engine) (hashes : List QString) : Prop :=
  ∀ i h, hashes[i]? = some h → HasRow e i h

def isSnapshot (f : Frame) : Prop :=
  f.kind = Kind.event.code ∧ (readEvent f.payload).1 = snapshotName

def hashesIn (f : Frame) : List QString := (read getStringList [] (readEvent f.payload).2).1

structure Inv (e : Engine) (u : Ui) (up down : List Frame) : Prop where
  engine : e.Sound
  names : Names e u.hashes
  snapshots : ∀ f ∈ down, isSnapshot f → Names e (hashesIn f)
  cached : ∀ hash file g, u.streamGeo (geoKey hash file) = some g → Covered e hash g.have_ down
  waits : ∀ id hash file, .wait id (some (hash, file)) ∈ u.stack →
    Waiting e u.replies up down id hash

theorem Names.evolves {e e' : Engine} {sent : List Frame} {hashes : List QString}
    (h : Names e hashes) (hev : Evolves e e' sent) : Names e' hashes :=
  fun i hash hi => hev.hasRow (h i hash hi)

-- A step of the engine: it may take a request and sends one frame at most.
theorem Inv.engineStep {e e' : Engine} {u : Ui} {up up' down sent : List Frame}
    (h : Inv e u up down) (hsound : e'.Sound) (hev : Evolves e e' sent) (hlen : sent.length ≤ 1)
    (hup : ∀ f ∈ up', f ∈ up) (hsnapshot : ∀ f ∈ sent, isSnapshot f → Names e' (hashesIn f))
    (hserved : ∀ id hash, Waiting e u.replies up down id hash → ∀ k, e'.task = some k →
      k.id = id → HasRow e' k.row hash)
    (hreply : ∀ id hash, Waiting e u.replies up down id hash → ∀ f ∈ sent, isReplyTo id f →
      ∀ g, geometryOf (readReply f.payload).2 = some g → Covered e' hash g.have_ []) :
    Inv e' u up' (down ++ sent) where
  engine := hsound
  names := h.names.evolves hev
  snapshots := by
    intro f hf hs
    rcases List.mem_append.mp hf with hf | hf
    · exact (h.snapshots f hf hs).evolves hev
    · exact hsnapshot f hf hs
  cached hash file g hg := (h.cached hash file g hg).evolves hev
  waits := by
    intro id hash file hw
    have w := h.waits id hash file hw
    refine ⟨?_, hserved id hash w, ?_, ?_⟩
    · intro f hf hreq
      obtain ⟨hmethod, hrow⟩ := w.asked f (hup f hf) hreq
      exact ⟨hmethod, hev.hasRow hrow⟩
    · intro pre f post heq hto g hg
      rcases split_sent hlen heq with ⟨m, rfl, rfl⟩ | ⟨hmem, rfl⟩
      · exact (w.onTheWay pre f m rfl hto g hg).evolves hev
      · exact hreply id hash w f hmem hto g hg
    · exact fun blob g hl hg => (w.replied blob g hl hg).evolves hev

structure Flight (s : State) (up down : List Frame) : Prop where
  toEngine : Carries (s.engine.buf ++ s.toEngine) up
  toUi : Carries (s.ui.buf ++ s.toUi) down
  inv : Inv s.engine s.ui up down

def Good (s : State) : Prop := ∃ up down, Flight s up down

theorem Flight.engineStep {s : State} {up up' down : List Frame} (h : Flight s up down)
    {e' : Engine} (sent : Option Frame) (hup : Carries (e'.buf ++ s.toEngine) up')
    (hfits : ∀ f, sent = some f → f.Fits) (hinv : Inv e' s.ui up' (down ++ sent.toList)) :
    Good (({ s with engine := e' } : State).toUiFrame sent) := by
  cases sent with
  | none =>
      rw [Option.toList_none, List.append_nil] at hinv
      exact ⟨up', down, hup, h.toUi, hinv⟩
  | some f =>
      refine ⟨up', down ++ [f], hup, ?_, hinv⟩
      have := h.toUi.write (hfits f rfl)
      rwa [List.append_assoc] at this

-- The engine changed, nothing was taken and nothing was sent.
theorem Flight.quiet {s : State} {up down : List Frame} (h : Flight s up down) {e' : Engine}
    (hbuf : e'.buf = s.engine.buf) (hsound : e'.Sound) (hev : Evolves s.engine e' [])
    (hserved : ∀ k, e'.task = some k → ∃ k', s.engine.task = some k' ∧ k'.id = k.id ∧ k'.row = k.row) :
    Good { s with engine := e' } := by
  refine h.engineStep none (hbuf ▸ h.toEngine) (fun f hf => nomatch hf) ?_
  refine h.inv.engineStep hsound hev (by simp) (fun f hf => hf) (by simp) ?_ (by simp)
  intro id hash w k hk hid
  obtain ⟨k', hk', hid', hrow⟩ := hserved k hk
  exact hrow ▸ hev.hasRow (w.served k' hk' (hid'.trans hid))

theorem good_pieceFinishes {s s' : State} (h : Good s) {row piece : Nat}
    (hn : s.pieceFinishes row piece = some s') : Good s' := by
  obtain ⟨up, down, hf⟩ := h
  obtain ⟨t, ht, hrest⟩ := Option.bind_eq_some_iff.mp hn
  obtain ⟨c, hc, hrest⟩ := Option.bind_eq_some_iff.mp hrest
  split_ifs at hrest with hmissing
  obtain rfl := Option.some.inj hrest
  have hev : Evolves s.engine { s.engine.setTorrent row { t with content := some (c.finish piece) } with
      alerts := s.engine.alerts ++ [(row, piece)] } [] := by
    refine evolves_setTorrent ht rfl rfl (fun h hh => hh) ?_ ?_
    · intro c' hc'
      obtain rfl := Option.some.inj (hc.symm.trans hc')
      refine ⟨c.finish piece, rfl, rfl, ?_⟩
      intro p hp
      by_cases hpiece : p = piece
      · exact .inr (List.mem_append_right _ (by simp [hpiece]))
      · left
        rwa [Content.finish, List.getElem?_set_ne (Ne.symm hpiece)] at hp
    · exact fun a ha => List.mem_append_left _ ha
  refine hf.quiet rfl ?_ hev fun k hk => ⟨k, hk, rfl, rfl⟩
  refine sound_setTorrent hf.inv.engine ht rfl rfl ?_ hev ?_ ?_
  · intro h hh
    exact ⟨(hf.inv.engine.streamed t (mem_of_row ht) h hh).1, _, rfl⟩
  · intro a ha
    rcases List.mem_append.mp ha with ha | ha
    · exact .inl ha
    · obtain rfl := List.mem_singleton.mp ha
      refine .inr ⟨rfl, c.finish piece, rfl, ?_⟩
      have hlt := (List.getElem?_eq_some_iff.mp hmissing).1
      rwa [c.length_have] at hlt
  · intro k hk
    exact (hf.inv.engine.task k hk).evolves hev fun a ha => List.mem_append_left _ ha

theorem good_metadataArrives {s s' : State} (h : Good s) {row : Nat} {c : Content}
    (hn : s.metadataArrives row c = some s') : Good s' := by
  obtain ⟨up, down, hf⟩ := h
  obtain ⟨t, ht, hrest⟩ := Option.bind_eq_some_iff.mp hn
  split_ifs at hrest with hnone
  obtain rfl := Option.some.inj hrest
  have hcontent : t.content = none := by simpa using hnone
  have hev : Evolves s.engine (s.engine.setTorrent row { t with content := some c }) [] := by
    refine evolves_setTorrent ht rfl rfl (fun h hh => hh) ?_ (fun a ha => ha)
    intro c' hc'
    simp [hcontent] at hc'
  refine hf.quiet rfl ?_ hev fun k hk => ⟨k, hk, rfl, rfl⟩
  refine sound_setTorrent hf.inv.engine ht rfl rfl ?_ hev (fun a ha => .inl ha) ?_
  · intro h hh
    exact ⟨(hf.inv.engine.streamed t (mem_of_row ht) h hh).1, _, rfl⟩
  · exact fun k hk => (hf.inv.engine.task k hk).evolves hev fun a ha => ha

theorem good_addTorrent {s s' : State} (h : Good s) {t : Torrent}
    (hn : s.addTorrent t = some s') : Good s' := by
  obtain ⟨up, down, hf⟩ := h
  unfold State.addTorrent at hn
  split_ifs at hn with hnew
  obtain rfl := Option.some.inj hn
  obtain ⟨hstreamed, hfresh⟩ := hnew
  have hkept : ∀ (i : Nat) (ti : Torrent), s.engine.torrents[i]? = some ti → (s.engine.torrents ++ [t])[i]? = some ti := by
    intro i ti hi
    rw [List.getElem?_append_left (List.getElem?_eq_some_iff.mp hi).1, hi]
  have hev : Evolves s.engine { s.engine with torrents := s.engine.torrents ++ [t] } [] :=
    ⟨fun i ti hi => ⟨ti, hkept i ti hi, rfl, fun _ hh => hh,
      fun c hc => ⟨c, hc, rfl, fun _ hp => .inl hp⟩⟩, fun i p hp => .inl hp⟩
  have hold : ∀ i hash, HasRow { s.engine with torrents := s.engine.torrents ++ [t] } i hash →
      HasRow s.engine i hash ∨ i = s.engine.torrents.length ∧ hash = t.hash := by
    rintro i hash ⟨ti, hi, rfl⟩
    by_cases hlt : i < s.engine.torrents.length
    · rw [List.getElem?_append_left hlt] at hi
      exact .inl ⟨ti, hi, rfl⟩
    · rw [List.getElem?_append_right (by omega), List.getElem?_singleton] at hi
      split_ifs at hi with hzero
      obtain rfl := Option.some.inj hi
      exact .inr ⟨by omega, rfl⟩
  have hnone : ∀ i, ¬ HasRow s.engine i t.hash := by
    rintro i ⟨ti, hi, hhash⟩
    exact hfresh (List.mem_map.mpr ⟨ti, mem_of_row hi, hhash⟩)
  refine hf.quiet rfl ⟨?_, ?_, ?_, ?_⟩ hev fun k hk => ⟨k, hk, rfl, rfl⟩
  · intro i j hash hi hj
    rcases hold i hash hi with hi | ⟨hlast, rfl⟩
    · rcases hold j hash hj with hj | ⟨hlast, rfl⟩
      · exact hf.inv.engine.unique i j hash hi hj
      · exact absurd hi (hnone i)
    · rcases hold j _ hj with hj | ⟨hlast', -⟩
      · exact absurd hj (hnone j)
      · omega
  · intro t' ht' h hh
    rcases List.mem_append.mp ht' with ht' | ht'
    · exact hf.inv.engine.streamed t' ht' h hh
    · rw [List.mem_singleton.mp ht', hstreamed] at hh
      simp at hh
  · intro i p hp
    obtain ⟨ti, c, hi, hc, hlt⟩ := hf.inv.engine.alerts i p hp
    exact ⟨ti, c, hkept i ti hi, hc, hlt⟩
  · exact fun k hk => (hf.inv.engine.task k hk).evolves hev fun a ha => ha

theorem kind_codes : Kind.event.code ≠ Kind.reply.code ∧ Kind.request.code ≠ Kind.reply.code ∧
    Kind.reply.code ≠ Kind.event.code ∧ Kind.pong.code ≠ Kind.event.code ∧
    Kind.pong.code ≠ Kind.reply.code := by decide

theorem isReplyTo_iff {id : UInt32} {f : Frame} :
    isReplyTo id f ↔ f.kind = Kind.reply.code ∧ (readReply f.payload).1 = id := by
  simp [isReplyTo]

theorem not_isReplyTo_event (id : UInt32) (name : QString) (args : Bytes) :
    ¬ isReplyTo id (eventFrame name args) := by
  rw [isReplyTo_iff]
  exact fun h => kind_codes.1 h.1

theorem not_isSnapshot_reply (id : UInt32) (blob : Bytes) : ¬ isSnapshot (replyFrame id blob) :=
  fun h => kind_codes.2.2.1 h.1

-- An event of the engine, while it serves no request.
theorem Flight.sendsEvent {s : State} {up down : List Frame} (h : Flight s up down) (e' : Engine)
    (htorrents : e'.torrents = s.engine.torrents) (hbuf : e'.buf = s.engine.buf)
    (htask : e'.task = none) (halerts : ∀ a ∈ e'.alerts, a ∈ s.engine.alerts) {name : QString}
    {args : Bytes} (hfits : (eventFrame name args).Fits)
    (hev : Evolves s.engine e' [eventFrame name args])
    (hsnapshot : isSnapshot (eventFrame name args) → Names e' (hashesIn (eventFrame name args))) :
    Good (({ s with engine := e' } : State).toUiFrame (some (eventFrame name args))) := by
  refine h.engineStep (some _) (hbuf ▸ h.toEngine) (fun f hf => Option.some.inj hf ▸ hfits) ?_
  refine h.inv.engineStep (h.inv.engine.frame htorrents halerts (by simp [htask])) hev (by simp)
    (fun f hf => hf) ?_ (by simp [htask]) ?_
  · intro f hf hs
    obtain rfl := List.mem_singleton.mp hf
    exact hsnapshot hs
  · intro id hash _ f hf hto
    obtain rfl := List.mem_singleton.mp hf
    exact absurd hto (not_isReplyTo_event id name args)

theorem isSnapshot_iff {name : QString} {args : Bytes} (h : (eventFrame name args).Fits) :
    isSnapshot (eventFrame name args) ↔ name = snapshotName := by
  unfold isSnapshot
  rw [readEvent_eventFrame h]
  exact and_iff_right rfl

theorem good_sendEvent {s : State} (h : Good s) (htask : s.engine.task = none) {name : QString}
    {args : Bytes} (hname : name ≠ snapshotName) (hfits : (eventFrame name args).Fits) :
    Good (s.toUiFrame (some (eventFrame name args))) := by
  obtain ⟨up, down, hf⟩ := h
  refine hf.sendsEvent s.engine rfl rfl htask (fun a ha => ha) hfits
    (evolves_of_torrents rfl (fun a ha => ha) _) ?_
  exact fun hs => absurd ((isSnapshot_iff hfits).mp hs) hname

theorem four_mul_length_le (l : List QString) : 4 * l.length ≤ (l.flatMap putString).length := by
  induction l with
  | nil => simp
  | cons s l ih =>
      have hs : 4 ≤ (putString s).length := by
        rw [putString]
        split_ifs
        · simp
        · simp
      rw [List.flatMap_cons, List.length_append, List.length_cons]
      omega

theorem length_putString_le_flatMap {s : QString} {l : List QString} (h : s ∈ l) :
    (putString s).length ≤ (l.flatMap putString).length := by
  induction l with
  | nil => simp at h
  | cons s' l ih =>
      rw [List.flatMap_cons, List.length_append]
      rcases List.mem_cons.mp h with rfl | h
      · omega
      · have := ih h
        omega

-- The hashes arrive as they were sent.
theorem hashesIn_snapshotFrame {hashes : List QString} {rest : Bytes}
    (h : (snapshotFrame hashes rest).Fits) : hashesIn (snapshotFrame hashes rest) = hashes := by
  have hfits := h
  simp only [snapshotFrame, Frame.Fits, eventFrame, List.length_append] at hfits
  have hargs := length_lt_of_putByteArray (b := putStringList hashes ++ rest) []
    (n := Protocol.kMaxFrameBytes) (by rw [List.append_nil]; omega)
  rw [putStringList, List.length_append, List.length_append, length_putBE] at hargs
  have hcount := four_mul_length_le hashes
  unfold Protocol.kMaxFrameBytes at hargs
  have hreads : Reads getStringList (putStringList hashes) hashes := by
    refine reads_putStringList (by omega) fun s hs => ?_
    have hle := length_putString_le_flatMap hs
    refine two_mul_lt_of_putString [] (n := kNull) ?_
    rw [List.append_nil]
    unfold kNull
    omega
  rw [hashesIn, snapshotFrame, readEvent_eventFrame h, read_of_reads hreads]

theorem names_hashes (e : Engine) : Names e e.hashes := by
  intro i h hi
  rw [Engine.hashes, List.getElem?_map] at hi
  obtain ⟨t, ht, rfl⟩ := Option.map_eq_some_iff.mp hi
  exact ⟨t, ht, rfl⟩

theorem good_pushSnapshot {s : State} (h : Good s) (htask : s.engine.task = none) {rest : Bytes}
    (hfits : (snapshotFrame s.engine.hashes rest).Fits) :
    Good (s.toUiFrame (some (snapshotFrame s.engine.hashes rest))) := by
  obtain ⟨up, down, hf⟩ := h
  refine hf.sendsEvent s.engine rfl rfl htask (fun a ha => ha) hfits
    (evolves_of_torrents rfl (fun a ha => ha) _) ?_
  intro _
  show Names s.engine (hashesIn (snapshotFrame s.engine.hashes rest))
  rw [hashesIn_snapshotFrame hfits]
  exact names_hashes s.engine

theorem good_popAlert {s s' : State} (h : Good s) (htask : s.engine.task = none)
    (hn : s.popAlert = some s') : Good s' := by
  obtain ⟨up, down, hf⟩ := h
  unfold State.popAlert at hn
  cases halerts : s.engine.alerts with
  | nil => simp [halerts] at hn
  | cons a rest =>
      obtain ⟨row, piece⟩ := a
      simp only [halerts] at hn
      obtain rfl := Option.some.inj hn
      have hold : ∀ a ∈ rest, a ∈ s.engine.alerts := fun a ha =>
        halerts ▸ List.mem_cons_of_mem _ ha
      obtain ⟨t, c, ht, -, -⟩ := hf.inv.engine.alerts row piece (halerts ▸ List.mem_cons_self)
      -- What is no longer among the alerts is in the frame that is sent.
      have hpopped : ∀ sent, (∀ h, t.streamed = some h → pieceFrame h piece ∈ sent) →
          Evolves s.engine { s.engine with alerts := rest } sent := by
        intro sent hsent
        constructor
        · intro row' t' ht'
          exact ⟨t', ht', rfl, fun _ hh => hh, fun c hc => ⟨c, hc, rfl, fun _ hp => .inl hp⟩⟩
        · intro row' p hp
          rw [halerts] at hp
          rcases List.mem_cons.mp hp with heq | hp
          · obtain ⟨rfl, rfl⟩ := Prod.ext_iff.mp heq
            right
            intro t' h ht' hh
            obtain rfl := Option.some.inj (ht.symm.trans ht')
            exact hsent h hh
          · exact .inl hp
      cases hstreamed : t.streamed with
      | none =>
          simp only [ht, Option.bind_some, hstreamed, Option.map_none]
          refine hf.quiet rfl ?_ (hpopped [] (by simp [hstreamed])) fun k hk => by simp [htask] at hk
          exact hf.inv.engine.frame rfl hold (by simp [htask])
      | some hash =>
          simp only [ht, Option.bind_some, hstreamed, Option.map_some]
          have hhash := (hf.inv.engine.streamed t (mem_of_row ht) hash hstreamed).1
          have hfits : (pieceFrame hash piece).Fits :=
            fits_pieceFinished (hhash ▸ t.hash_short) piece
          refine hf.sendsEvent { s.engine with alerts := rest } rfl rfl htask hold hfits (hpopped _ ?_) ?_
          · intro h hh
            obtain rfl := Option.some.inj (hstreamed.symm.trans hh)
            exact List.mem_singleton_self _
          · exact fun hs => absurd ((isSnapshot_iff hfits).mp hs) (by decide)

theorem good_engineReads {s : State} (h : Good s) (n : Nat) : Good (s.engineReads n) := by
  obtain ⟨up, down, hf⟩ := h
  have hev := evolves_buf s.engine (s.engine.buf ++ s.toEngine.take n) []
  have hsound : ({ s.engine with buf := s.engine.buf ++ s.toEngine.take n } : Engine).Sound :=
    hf.inv.engine.frame rfl (fun a ha => ha) fun k hk =>
      (hf.inv.engine.task k hk).evolves hev fun a ha => ha
  refine ⟨up, down, hf.toEngine.read n, hf.toUi, ?_⟩
  have hinv := hf.inv.engineStep hsound hev (by simp) (fun f hf => hf) (by simp)
    (fun id hash w k hk hid => hev.hasRow (w.served k hk hid)) (by simp)
  rwa [List.append_nil] at hinv

theorem isRequestOf_iff {id : UInt32} {f : Frame} :
    isRequestOf id f ↔ f.kind = Kind.request.code ∧ (readRequest f.payload).1 = id := by
  simp [isRequestOf]

theorem find_some {e : Engine} {row file : Int} {t : Torrent} {c : Content} {f : Nat × Nat}
    (h : e.find row file = some (t, c, f)) :
    e.torrents[row.toNat]? = some t ∧ t.content = some c ∧ f ∈ c.info.files := by
  unfold Engine.find at h
  split_ifs at h
  obtain ⟨t', ht, h⟩ := Option.bind_eq_some_iff.mp h
  obtain ⟨c', hc, h⟩ := Option.bind_eq_some_iff.mp h
  obtain ⟨f', hf, h⟩ := Option.map_eq_some_iff.mp h
  simp only [Prod.mk.injEq] at h
  obtain ⟨rfl, rfl, rfl⟩ := h
  exact ⟨ht, hc, List.mem_of_getElem? hf⟩

-- Registered before its pieces are read.
theorem evolves_stream {e e' : Engine} {row : Nat} {t : Torrent} (ht : e.torrents[row]? = some t)
    (hset : e'.torrents = e.torrents.set row t.stream) (halerts : e'.alerts = e.alerts) :
    Evolves e e' [] := by
  refine evolves_setTorrent ht hset rfl ?_ ?_ (fun a ha => halerts ▸ ha)
  · intro hash hh
    rw [Torrent.stream, hh]
    rfl
  · exact fun c hc => ⟨c, hc, rfl, fun p hp => .inl hp⟩

theorem sound_streamGeometry {e : Engine} (h : e.Sound) {row : Nat} {t : Torrent} {c : Content}
    {f : Nat × Nat} (ht : e.torrents[row]? = some t) (hc : t.content = some c)
    (hf : f ∈ c.info.files) (id : UInt32) :
    ({ e.setTorrent row t.stream with task := some ⟨id, row, c, f, []⟩ } : Engine).Sound := by
  have hstreamed : t.stream.streamed = some t.hash := by
    cases hs : t.streamed with
    | none => simp [Torrent.stream, hs]
    | some hash => simp [Torrent.stream, hs, (h.streamed t (mem_of_row ht) hash hs).1]
  have hev : Evolves e { e.setTorrent row t.stream with task := some ⟨id, row, c, f, []⟩ } [] :=
    evolves_stream ht rfl rfl
  refine sound_setTorrent h ht rfl rfl ?_ hev (fun a ha => .inl ha) ?_
  · intro hash hh
    exact ⟨Option.some.inj (hh.symm.trans hstreamed), c, hc⟩
  · intro k hk
    obtain rfl := Option.some.inj hk
    refine ⟨hf, t.stream, c, ?_, hstreamed, hc, rfl, Nat.zero_le _, ?_⟩
    · rw [getElem?_setTorrent ht rfl, if_pos rfl]
    · intro p hp
      simp at hp

theorem good_serve {s s' : State} (h : Good s) (htask : s.engine.task = none) {result : Bytes}
    (hfits : (replyFrame 0 result).Fits) (hn : s.serve result = some s') : Good s' := by
  obtain ⟨up, down, hf⟩ := h
  rcases hf.toEngine.take with hwait | ⟨f, up', rest, rfl, hframe, hrest⟩
  · simp [State.serve, hwait] at hn
  simp only [State.serve, hframe] at hn
  obtain rfl := Option.some.inj hn
  have hsub : ∀ f' ∈ up', f' ∈ f :: up' := fun f' hf' => List.mem_cons_of_mem f hf'
  have hbase : ({ s.engine with buf := rest } : Engine).Sound :=
    hf.inv.engine.frame rfl (fun a ha => ha) (by simp [htask])
  -- A frame that answers no call for a map.
  have hanswer : ∀ sent : Frame, sent.Fits → ¬ isSnapshot sent →
      (∀ id hash, Waiting s.engine s.ui.replies (f :: up') down id hash → isReplyTo id sent →
        ∀ g, geometryOf (readReply sent.payload).2 = some g →
          Covered { s.engine with buf := rest } hash g.have_ []) →
      Good (({ s with engine := { s.engine with buf := rest } } : State).toUiFrame (some sent)) := by
    intro sent hsent hno hreply
    refine hf.engineStep (some sent) hrest (fun f' hf' => Option.some.inj hf' ▸ hsent) ?_
    refine hf.inv.engineStep hbase (evolves_buf s.engine rest _) (by simp) hsub ?_ (by simp [htask]) ?_
    · intro f' hf' hs
      obtain rfl := List.mem_singleton.mp hf'
      exact absurd hs hno
    · intro id hash w f' hf' hto
      obtain rfl := List.mem_singleton.mp hf'
      exact hreply id hash w hto
  unfold Engine.dispatch
  by_cases hping : f.kind = Kind.ping.code
  · simp only [if_pos hping]
    refine hanswer ⟨Kind.pong.code, []⟩ (by decide) (fun hs => kind_codes.2.2.2.1 hs.1) ?_
    intro id hash _ hto
    exact absurd (isReplyTo_iff.mp hto).1 kind_codes.2.2.2.2
  by_cases hrequest : f.kind = Kind.request.code
  · simp only [if_neg hping, if_pos hrequest]
    by_cases hmethod : (readRequest f.payload).2.1 = streamGeometryName
    · simp only [if_pos hmethod]
      unfold Engine.streamGeometry
      cases hfind : ({ s.engine with buf := rest } : Engine).find
          (readRow (readRequest f.payload).2.2).1 (readRow (readRequest f.payload).2.2).2 with
      | none =>
          simp only
          refine hanswer _ (fits_empty _) (not_isSnapshot_reply _ _) ?_
          intro id hash _ _ g hg
          rw [readReply_replyFrame (fits_empty _), geometryOf_empty] at hg
          simp at hg
      | some found =>
          obtain ⟨t, c, file⟩ := found
          obtain ⟨ht, hc, hfile⟩ := find_some hfind
          simp only
          have hsound := sound_streamGeometry hbase ht hc hfile (readRequest f.payload).1
          have hev : Evolves s.engine
              { ({ s.engine with buf := rest } : Engine).setTorrent
                  (readRow (readRequest f.payload).2.2).1.toNat t.stream with
                task := some ⟨(readRequest f.payload).1,
                  (readRow (readRequest f.payload).2.2).1.toNat, c, file, []⟩ } [] :=
            evolves_stream ht rfl rfl
          refine hf.engineStep none hrest (fun f' hf' => nomatch hf') ?_
          refine hf.inv.engineStep hsound hev (by simp) hsub (by simp) ?_ (by simp)
          intro id hash w k hk hid
          obtain rfl := Option.some.inj hk
          have hreq : isRequestOf id f := isRequestOf_iff.mpr ⟨hrequest, hid⟩
          exact hev.hasRow (w.asked f List.mem_cons_self hreq).2
    · simp only [if_neg hmethod]
      have hfits' : (replyFrame (readRequest f.payload).1 result).Fits := fits_replyFrame hfits
      refine hanswer _ hfits' (not_isSnapshot_reply _ _) ?_
      intro id hash w hto
      have hid : (readRequest f.payload).1 = id := by
        have := (isReplyTo_iff.mp hto).2
        rwa [readReply_replyFrame hfits'] at this
      have hreq : isRequestOf id f := isRequestOf_iff.mpr ⟨hrequest, hid⟩
      exact absurd (w.asked f List.mem_cons_self hreq).1 hmethod
  · simp only [if_neg hping, if_neg hrequest]
    refine hf.engineStep none hrest (fun f' hf' => nomatch hf') ?_
    exact hf.inv.engineStep hbase (evolves_buf s.engine rest _) (by simp) hsub (by simp)
      (by simp [htask]) (by simp)

theorem Task.Sound.sized {e : Engine} {k : Task} (h : k.Sound e) : k.geometry.Sized := by
  obtain ⟨t, c, -, -, -, hinfo, hlen, -⟩ := h.covered
  have hsize := k.content.info.pieceLength_lt
  have hfile := k.content.info.files_lt k.file h.file
  have hpieces := k.content.info.numPieces_lt
  rw [hinfo] at hlen
  unfold Task.geometry
  constructor <;> simp only <;> omega

-- The map is complete once every piece was read.
theorem Task.Sound.covers {e : Engine} {k : Task} (h : k.Sound e) {t : Torrent} {c : Content}
    (ht : e.torrents[k.row]? = some t) (hc : t.content = some c)
    (hdone : c.have_[k.bits.length]? = none) : Covered e t.hash k.bits [] := by
  obtain ⟨t', c', ht', hstreamed, hc', hinfo, hlen, hall⟩ := h.covered
  obtain rfl := Option.some.inj (ht.symm.trans ht')
  obtain rfl := Option.some.inj (hc.symm.trans hc')
  have hlen' : k.bits.length = c.info.numPieces := by
    have := List.getElem?_eq_none_iff.mp hdone
    rw [c.length_have] at this
    omega
  refine ⟨k.row, t, c, ht, rfl, hstreamed, hc, hlen', ?_⟩
  intro p hp
  have hlt := (List.getElem?_eq_some_iff.mp hp).1
  rw [c.length_have, ← hlen'] at hlt
  exact (hall p hlt hp).imp_right .inl

theorem good_readPiece {s : State} (h : Good s) {k : Task} (htask : s.engine.task = some k) :
    Good (s.readPiece k) := by
  obtain ⟨up, down, hf⟩ := h
  have hk := hf.inv.engine.task k htask
  obtain ⟨t, c, ht, hstreamed, hc, hinfo, hlen, hall⟩ := hk.covered
  unfold State.readPiece
  rw [ht, Option.bind_some, hc]
  cases hnext : c.have_[k.bits.length]? with
  | some b =>
      simp only [hnext]
      have hev : Evolves s.engine { s.engine with task := some { k with bits := k.bits ++ [b] } } [] :=
        evolves_task s.engine _ []
      refine hf.quiet rfl ?_ hev ?_
      · refine hf.inv.engine.frame rfl (fun a ha => ha) ?_
        intro k' hk'
        obtain rfl := Option.some.inj hk'
        refine ⟨hk.file, t, c, ht, hstreamed, hc, hinfo, ?_, ?_⟩
        · have hlt := (List.getElem?_eq_some_iff.mp hnext).1
          rw [List.length_append, List.length_singleton]
          rw [c.length_have] at hlt
          omega
        · intro p hp hset
          rw [List.length_append, List.length_singleton] at hp
          by_cases hlast : p = k.bits.length
          · left
            subst hlast
            rw [List.getElem?_concat_length, ← hnext, hset]
          · rw [List.getElem?_append_left (by omega)]
            exact hall p (by omega) hset
      · intro k' hk'
        obtain rfl := Option.some.inj hk'
        exact ⟨k, htask, rfl, rfl⟩
  | none =>
      simp only [hnext]
      have hbits : k.bits.length < 2 ^ 28 := Nat.lt_of_le_of_lt hlen c.info.numPieces_lt
      have hfits := fits_geometry (g := k.geometry) hbits k.id
      have hev : ∀ sent, Evolves s.engine { s.engine with task := none } sent :=
        evolves_task s.engine none
      refine hf.engineStep (some _) hf.toEngine (fun f hf => Option.some.inj hf ▸ hfits) ?_
      refine hf.inv.engineStep ?_ (hev _) (by simp) (fun f hf => hf) ?_ (fun _ _ _ k' hk' => nomatch hk') ?_
      · exact hf.inv.engine.frame rfl (fun a ha => ha) (fun k' hk' => nomatch hk')
      · intro f hf hs
        obtain rfl := List.mem_singleton.mp hf
        exact absurd hs (not_isSnapshot_reply _ _)
      · intro id hash w f hf hto g hg
        obtain rfl := List.mem_singleton.mp hf
        rw [isReplyTo_iff, readReply_replyFrame hfits] at hto
        rw [readReply_replyFrame hfits, geometryOf_putVariantMap hk.sized] at hg
        obtain rfl := Option.some.inj hg
        obtain ⟨t', ht', rfl⟩ := w.served k htask hto.2
        obtain rfl := Option.some.inj (ht.symm.trans ht')
        have hcov := (hk.covers ht hc hnext).evolves (hev [])
        rwa [List.append_nil] at hcov

end Invariant

end BATorrent.StreamMap
