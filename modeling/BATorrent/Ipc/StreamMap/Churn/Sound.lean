import BATorrent.Ipc.StreamMap.Churn
import BATorrent.Ipc.StreamMap.Complete

namespace BATorrent.StreamChurn

open Lib
open Lib.DataStream
open Protocol (Frame Kind takeFrame writeFrame drainFrames)
open StreamMap (Content StreamGeo Ui Activation colon geoKey geometryOf readEvent readReply
  readRequest readRow pieceFrame isReplyTo isRequestOf isPieceFinished Carries
  streamGeometryName torrentRemovedName)

variable {s s' : State} {e e' : Engine} {x y : Entry} {hash : QString} {file : Int} {g : StreamGeo}
  {p : Nat} {up up' down sent later : List Frame}

section Right

-- The map is of this file of a torrent with that content.
def Describes (c : Content) (file : Int) (g : StreamGeo) : Prop :=
  0 ≤ file ∧ g.pieceSize = c.info.pieceLength ∧
    ∃ f, c.info.files[file.toNat]? = some f ∧ g.fileOffset = f.1 ∧ g.fileSize = f.2

-- The map is of this file of the torrent with that hash, and the engine has each piece in it.
def Right (e : Engine) (hash : QString) (file : Int) (g : StreamGeo) : Prop :=
  ∃ x ∈ e.torrents, x.hash = hash ∧ ∃ c, x.torrent.content = some c ∧ Describes c file g ∧
    ∀ p : Nat, g.have_[p]? = some true → c.have_[p]? = some true

def Entry.Has (x : Entry) (p : Nat) : Prop :=
  ∃ c, x.torrent.content = some c ∧ c.have_[p]? = some true

def Has (e : Engine) (hash : QString) (p : Nat) : Prop := ∃ x ∈ e.torrents, x.hash = hash ∧ x.Has p

def isRemoved (f : Frame) : Prop :=
  f.kind = Kind.event.code ∧ (readEvent f.payload).1 = torrentRemovedName

-- The maps are thrown away by a frame of these.
def Cleared (later : List Frame) : Prop := ∃ f ∈ later, isRemoved f

theorem Cleared.append (h : Cleared later) (sent : List Frame) : Cleared (later ++ sent) := by
  obtain ⟨f, hf, hremoved⟩ := h
  exact ⟨f, List.mem_append_left sent hf, hremoved⟩

theorem Cleared.after (h : Cleared sent) (later : List Frame) : Cleared (later ++ sent) := by
  obtain ⟨f, hf, hremoved⟩ := h
  exact ⟨f, List.mem_append_right later hf, hremoved⟩

end Right

section Guards

-- What already speaks of a piece of the torrent.
inductive Mentions (s : State) (x : Entry) (p : Nat) : Prop
  | kept {file : Int} {g : StreamGeo} (hkept : s.ui.streamGeo (geoKey x.hash file) = some g)
      (hbit : g.have_[p]? = some true)
  | replied {id : UInt32} {file : Int} {blob : Bytes} {g : StreamGeo}
      (hwaits : .wait id (some (x.hash, file)) ∈ s.ui.stack)
      (hreply : s.ui.replies.lookup id = some blob) (hmap : geometryOf blob = some g)
      (hbit : g.have_[p]? = some true)
  | onTheWay {id : UInt32} {file : Int} {f : Frame} {g : StreamGeo}
      (hwaits : .wait id (some (x.hash, file)) ∈ s.ui.stack)
      (hframe : f ∈ drainFrames (s.ui.buf ++ s.toUi)) (hreply : isReplyTo id f)
      (hmap : geometryOf (readReply f.payload).2 = some g) (hbit : g.have_[p]? = some true)
  | building {k : Task} (htask : s.engine.task = some k) (hhandle : k.handle = x.handle)
      (hbit : k.bits[p]? = some true)
  | announced (hframe : pieceFrame x.hash p ∈ drainFrames (s.ui.buf ++ s.toUi))
  | alerted (halert : (x.handle, p) ∈ s.engine.alerts)

-- A recheck takes away no piece that something already speaks of.
def KeepsMentioned (s : State) : Event → Prop
  | .recheck handle bits => ∀ x c, s.engine.entry handle = some x → x.torrent.content = some c →
      ∀ p : Nat, c.have_[p]? = some true → bits[p]? ≠ some true → ¬ Mentions s x p
  | _ => True

-- The file whose map a call waits for under this number.
def askedBy (id : UInt32) : Activation → Option (QString × Int)
  | .wait i asked => if i = id then asked else none
  | _ => none

-- The row that a call asks for is still the torrent it asks for when it is served.
def ServesAsked (s : State) : Event → Prop
  | .serve _ =>
      match takeFrame s.engine.buf with
      | .frame f _ =>
          let r := readRequest f.payload
          f.kind = Kind.request.code → r.2.1 = streamGeometryName →
            ∀ a ∈ s.ui.stack, ∀ asked ∈ askedBy r.1 a,
              ∀ found ∈ s.engine.find (readRow r.2.2).1 (readRow r.2.2).2, found.1.hash = asked.1
      | _ => True
  | _ => True

-- The maps that calls are still to be given are right of this engine.
def RepliesRight (u : Ui) (e : Engine) : Prop :=
  ∀ id hash file, .wait id (some (hash, file)) ∈ u.stack → ∀ blob g,
    u.replies.lookup id = some blob → geometryOf blob = some g → Right e hash file g

-- When the maps are thrown away, no call is still to be given one that is out of date.
def DropsReplies (s : State) : Event → Prop
  | .drain =>
      match takeFrame s.ui.buf with
      | .frame f _ => isRemoved f → RepliesRight s.ui s.engine
      | _ => True
  | _ => True

-- A new engine finds the UI with nothing that it would not say itself.
def AgreesWithUi (s : State) : Event → Prop
  | .respawn torrents nextHandle =>
      s.ui.buf = [] ∧ RepliesRight s.ui ⟨torrents, nextHandle, [], [], none⟩ ∧
        ∀ hash file g, s.ui.streamGeo (geoKey hash file) = some g →
          Right ⟨torrents, nextHandle, [], [], none⟩ hash file g
  | _ => True

-- What is written is no longer than a frame may be.
def FitsFrame (s : State) : Event → Prop
  | .sendEvent name args => (StreamMap.eventFrame name args).Fits
  | .pushSnapshot rest => (StreamMap.snapshotFrame s.engine.hashes rest).Fits
  | .serve result => (StreamMap.replyFrame 0 result).Fits
  | .request method args => (StreamMap.requestFrame 0 method args).Fits
  | _ => True

-- The two processes as far as the numbers of requests go.
def State.link (s : State) : StreamMap.State where
  engine :=
    { torrents := []
      alerts := []
      buf := s.engine.buf
      task := s.engine.task.map fun k => ⟨k.id, k.handle, k.content, k.file, k.bits⟩ }
  ui := s.ui
  toUi := s.toUi
  toEngine := s.toEngine

def FreshId (s : State) : Event → Prop
  | .request _ _ => StreamMap.inUse s.link s.ui.nextId = false
  | .streamGeo row file =>
      StreamMap.asks s.link row file → StreamMap.inUse s.link s.ui.nextId = false
  | _ => True

end Guards

section Engine

-- A piece that an alert is to announce, unless its torrent was removed.
def Pending (e : Engine) (handle p : Nat) : Prop :=
  handle < e.nextHandle ∧
    ((∃ x ∈ e.torrents, x.handle = handle ∧ x.Has p) ∨ ∀ x ∈ e.torrents, x.handle ≠ handle)

structure Task.Sound (e : Engine) (k : Task) : Prop where
  file : k.file ∈ k.content.info.files
  covered : ∃ x ∈ e.torrents, x.handle = k.handle ∧ ∃ c, x.torrent.content = some c ∧
    c.info = k.content.info ∧ k.bits.length ≤ c.info.numPieces ∧
      ∀ p : Nat, k.bits[p]? = some true → c.have_[p]? = some true

structure Engine.Sound (e : Engine) : Prop where
  hashes : e.hashes.Nodup
  handles : (e.torrents.map Entry.handle).Nodup
  next : ∀ x ∈ e.torrents, x.handle < e.nextHandle
  streamed : ∀ x ∈ e.torrents, ∀ h, x.torrent.streamed = some h → h = x.hash
  alerts : ∀ handle p, (handle, p) ∈ e.alerts → Pending e handle p
  task : ∀ k, e.task = some k → k.Sound e

theorem Engine.Sound.eq_of_hash (h : e.Sound) (hx : x ∈ e.torrents) (hy : y ∈ e.torrents)
    (heq : x.hash = y.hash) : x = y := List.inj_on_of_nodup_map h.hashes hx hy heq

theorem Engine.Sound.eq_of_handle (h : e.Sound) (hx : x ∈ e.torrents) (hy : y ∈ e.torrents)
    (heq : x.handle = y.handle) : x = y := List.inj_on_of_nodup_map h.handles hx hy heq

theorem of_entry {handle : Nat} (h : e.entry handle = some x) :
    x ∈ e.torrents ∧ x.handle = handle := by
  refine ⟨List.mem_of_find?_eq_some h, ?_⟩
  simpa using List.find?_some h

theorem Engine.Sound.entry_eq (h : e.Sound) (hx : x ∈ e.torrents) : e.entry x.handle = some x := by
  cases hentry : e.entry x.handle with
  | none =>
      have := List.find?_eq_none.mp hentry x hx
      simp at this
  | some y =>
      obtain ⟨hy, heq⟩ := of_entry hentry
      rw [h.eq_of_handle hy hx heq]

-- What the UI may hold of the first engine is right of the second.
structure Keeps (e e' : Engine) : Prop where
  right : ∀ hash file g, Right e hash file g → Right e' hash file g
  has : ∀ hash p, Has e hash p → Has e' hash p

-- No torrent goes and none loses a piece.
structure Grows (e e' : Engine) : Prop where
  torrent : ∀ x ∈ e.torrents, ∃ x' ∈ e'.torrents, x'.handle = x.handle ∧ x'.hash = x.hash ∧
    ∀ c, x.torrent.content = some c → ∃ c', x'.torrent.content = some c' ∧ c'.info = c.info ∧
      ∀ p : Nat, c.have_[p]? = some true → c'.have_[p]? = some true
  handles : ∀ x' ∈ e'.torrents, (∃ x ∈ e.torrents, x.handle = x'.handle) ∨ e.nextHandle ≤ x'.handle
  next : e.nextHandle ≤ e'.nextHandle

theorem Describes.congr {c c' : Content} (h : Describes c file g) (hinfo : c'.info = c.info) :
    Describes c' file g := by
  unfold Describes
  rw [hinfo]
  exact h

theorem Grows.keeps (h : Grows e e') : Keeps e e' where
  right := by
    rintro hash file g ⟨x, hx, rfl, c, hc, hdesc, hall⟩
    obtain ⟨x', hx', -, hhash, hcontent⟩ := h.torrent x hx
    obtain ⟨c', hc', hinfo, hmore⟩ := hcontent c hc
    exact ⟨x', hx', hhash, c', hc', hdesc.congr hinfo, fun p hp => hmore p (hall p hp)⟩
  has := by
    rintro hash p ⟨x, hx, rfl, c, hc, hp⟩
    obtain ⟨x', hx', -, hhash, hcontent⟩ := h.torrent x hx
    obtain ⟨c', hc', -, hmore⟩ := hcontent c hc
    exact ⟨x', hx', hhash, c', hc', hmore p hp⟩

theorem Pending.grows {handle : Nat} (h : Pending e handle p) (hg : Grows e e') :
    Pending e' handle p := by
  obtain ⟨hlt, hthere⟩ := h
  refine ⟨Nat.lt_of_lt_of_le hlt hg.next, hthere.imp ?_ ?_⟩
  · rintro ⟨x, hx, rfl, c, hc, hp⟩
    obtain ⟨x', hx', hhandle, -, hcontent⟩ := hg.torrent x hx
    obtain ⟨c', hc', -, hmore⟩ := hcontent c hc
    exact ⟨x', hx', hhandle, c', hc', hmore p hp⟩
  · intro hgone x' hx' heq
    rcases hg.handles x' hx' with ⟨x, hx, hhandle⟩ | hnew
    · exact hgone x hx (hhandle.trans heq)
    · omega

theorem Task.Sound.grows {k : Task} (h : k.Sound e) (hg : Grows e e') : k.Sound e' where
  file := h.file
  covered := by
    obtain ⟨x, hx, hhandle, c, hc, hinfo, hlen, hall⟩ := h.covered
    obtain ⟨x', hx', hhandle', -, hcontent⟩ := hg.torrent x hx
    obtain ⟨c', hc', hinfo', hmore⟩ := hcontent c hc
    exact ⟨x', hx', hhandle'.trans hhandle, c', hc', hinfo'.trans hinfo, hinfo' ▸ hlen,
      fun p hp => hmore p (hall p hp)⟩

theorem grows_of_torrents (h : e'.torrents = e.torrents) (hnext : e'.nextHandle = e.nextHandle) :
    Grows e e' where
  torrent x hx := ⟨x, h ▸ hx, rfl, rfl, fun c hc => ⟨c, hc, rfl, fun _ hp => hp⟩⟩
  handles x' hx' := .inl ⟨x', h ▸ hx', rfl⟩
  next := hnext.ge

-- Only the buffer, the alerts and the task differ.
theorem Engine.Sound.frame (h : e.Sound) (htorrents : e'.torrents = e.torrents)
    (hnext : e'.nextHandle = e.nextHandle) (halerts : ∀ a ∈ e'.alerts, a ∈ e.alerts)
    (htask : ∀ k, e'.task = some k → k.Sound e') : e'.Sound where
  hashes := by
    unfold Engine.hashes
    rw [htorrents]
    exact h.hashes
  handles := htorrents ▸ h.handles
  next := by
    rw [htorrents, hnext]
    exact h.next
  streamed := htorrents ▸ h.streamed
  alerts handle p hp := (h.alerts handle p (halerts _ hp)).grows (grows_of_torrents htorrents hnext)
  task := htask

section Modify

variable {f : Entry → Entry} {handle : Nat}

theorem mem_modify : y ∈ (e.modify handle f).torrents ↔
    ∃ x ∈ e.torrents, (if x.handle = handle then f x else x) = y := List.mem_map

theorem map_modify {α : Type} (k : Entry → α) (hk : ∀ x, k (f x) = k x) :
    (e.modify handle f).torrents.map k = e.torrents.map k := by
  rw [Engine.modify, List.map_map]
  refine List.map_congr_left fun x _ => ?_
  rw [Function.comp_apply]
  split_ifs
  · exact hk x
  · rfl

theorem grows_modify (htorrents : e'.torrents = (e.modify handle f).torrents)
    (hnext : e'.nextHandle = e.nextHandle) (hhandle : ∀ x, (f x).handle = x.handle)
    (hhash : ∀ x, (f x).hash = x.hash)
    (hcontent : ∀ x ∈ e.torrents, x.handle = handle → ∀ c, x.torrent.content = some c →
      ∃ c', (f x).torrent.content = some c' ∧ c'.info = c.info ∧
        ∀ p : Nat, c.have_[p]? = some true → c'.have_[p]? = some true) : Grows e e' where
  torrent x hx := by
    refine ⟨if x.handle = handle then f x else x, htorrents ▸ mem_modify.mpr ⟨x, hx, rfl⟩, ?_⟩
    split_ifs with heq
    · exact ⟨hhandle x, hhash x, hcontent x hx heq⟩
    · exact ⟨rfl, rfl, fun c hc => ⟨c, hc, rfl, fun _ hp => hp⟩⟩
  handles x' hx' := by
    obtain ⟨x, hx, rfl⟩ := mem_modify.mp (htorrents ▸ hx')
    refine .inl ⟨x, hx, ?_⟩
    split_ifs
    · exact (hhandle x).symm
    · rfl
  next := hnext.ge

theorem sound_modify (h : e.Sound) (htorrents : e'.torrents = (e.modify handle f).torrents)
    (hnext : e'.nextHandle = e.nextHandle) (hhandle : ∀ x, (f x).handle = x.handle)
    (hhash : ∀ x, (f x).hash = x.hash)
    (hstreamed : ∀ x ∈ e.torrents, ∀ h, (f x).torrent.streamed = some h → h = x.hash)
    (halerts : ∀ handle p, (handle, p) ∈ e'.alerts → Pending e' handle p)
    (htask : ∀ k, e'.task = some k → k.Sound e') : e'.Sound where
  hashes := by
    have hsame : (e.modify handle f).torrents.map Entry.hash = e.torrents.map Entry.hash :=
      map_modify Entry.hash hhash
    unfold Engine.hashes
    rw [htorrents, hsame]
    exact h.hashes
  handles := by
    rw [htorrents, map_modify Entry.handle hhandle]
    exact h.handles
  next x' hx' := by
    obtain ⟨x, hx, rfl⟩ := mem_modify.mp (htorrents ▸ hx')
    rw [hnext]
    split_ifs
    · exact (hhandle x).symm ▸ h.next x hx
    · exact h.next x hx
  streamed x' hx' hash hs := by
    obtain ⟨x, hx, rfl⟩ := mem_modify.mp (htorrents ▸ hx')
    split_ifs at hs ⊢
    · exact (hstreamed x hx hash hs).trans (hhash x).symm
    · exact h.streamed x hx hash hs
  alerts := halerts
  task := htask

end Modify

end Engine

section Invariant

-- A frame that announces a piece tells of one that the engine has.
def Announces (e : Engine) (f : Frame) (later : List Frame) : Prop :=
  ∃ hash p, f = pieceFrame hash p ∧ p < 2 ^ 28 ∧ colon ∉ hash ∧ (Has e hash p ∨ Cleared later)

-- The map that the task builds is of this file of the torrent with that hash.
def Serves (e : Engine) (k : Task) (hash : QString) (file : Int) : Prop :=
  (∃ x ∈ e.torrents, x.handle = k.handle ∧ x.hash = hash) ∧ 0 ≤ file ∧
    k.content.info.files[file.toNat]? = some k.file

-- What is known of a call that waits for the map of this file of `hash`.
structure Waiting (e : Engine) (u : Ui) (up down : List Frame) (id : UInt32) (hash : QString)
    (file : Int) : Prop where
  asked : ∀ f ∈ up, isRequestOf id f →
    (readRequest f.payload).2.1 = streamGeometryName ∧ (readRow (readRequest f.payload).2.2).2 = file
  served : ∀ k, e.task = some k → k.id = id → Serves e k hash file
  onTheWay : ∀ pre f post, down = pre ++ f :: post → isReplyTo id f →
    ∀ g, geometryOf (readReply f.payload).2 = some g → Right e hash file g ∨ Cleared post
  replied : ∀ blob g, u.replies.lookup id = some blob → geometryOf blob = some g →
    Right e hash file g ∨ Cleared down

structure Inv (e : Engine) (u : Ui) (up down : List Frame) : Prop where
  engine : e.Sound
  kept : ∀ hash file g, u.streamGeo (geoKey hash file) = some g → Right e hash file g ∨ Cleared down
  pieces : ∀ pre f post, down = pre ++ f :: post → isPieceFinished f → Announces e f post
  waits : ∀ id hash file, .wait id (some (hash, file)) ∈ u.stack →
    Waiting e u up down id hash file

-- The engine keeps what the UI has, or has it thrown away.
def Carried (e e' : Engine) (sent : List Frame) : Prop := Keeps e e' ∨ Cleared sent

theorem Carried.right (h : Carried e e' sent) (hr : Right e hash file g ∨ Cleared later) :
    Right e' hash file g ∨ Cleared (later ++ sent) := by
  rcases h with hkeeps | hcleared
  · exact hr.imp (hkeeps.right hash file g) (·.append sent)
  · exact .inr (hcleared.after later)

theorem Carried.announces (h : Carried e e' sent) {f : Frame} (ha : Announces e f later) :
    Announces e' f (later ++ sent) := by
  obtain ⟨hash, p, hf, hp, hplain, hhas⟩ := ha
  refine ⟨hash, p, hf, hp, hplain, ?_⟩
  rcases h with hkeeps | hcleared
  · exact hhas.imp (hkeeps.has hash p) (·.append sent)
  · exact .inr (hcleared.after later)

-- A step of the engine: it may take a request and sends one frame at most.
theorem Inv.engineStep {u : Ui} (h : Inv e u up down) (hsound : e'.Sound) (hc : Carried e e' sent)
    (hlen : sent.length ≤ 1) (hup : ∀ f ∈ up', f ∈ up)
    (hpieces : ∀ f ∈ sent, isPieceFinished f → Announces e' f [])
    (hserved : ∀ id hash file, .wait id (some (hash, file)) ∈ u.stack →
      Waiting e u up down id hash file → ∀ k, e'.task = some k → k.id = id → Serves e' k hash file)
    (hreply : ∀ id hash file, Waiting e u up down id hash file → ∀ f ∈ sent, isReplyTo id f →
      ∀ g, geometryOf (readReply f.payload).2 = some g → Right e' hash file g) :
    Inv e' u up' (down ++ sent) where
  engine := hsound
  kept hash file g hg := hc.right (h.kept hash file g hg)
  pieces := by
    intro pre f post heq hpiece
    rcases StreamMap.split_sent hlen heq with ⟨m, rfl, rfl⟩ | ⟨hmem, rfl⟩
    · exact hc.announces (h.pieces pre f m rfl hpiece)
    · exact hpieces f hmem hpiece
  waits := by
    intro id hash file hw
    have w := h.waits id hash file hw
    refine ⟨fun f hf => w.asked f (hup f hf), hserved id hash file hw w, ?_, ?_⟩
    · intro pre f post heq hto g hg
      rcases StreamMap.split_sent hlen heq with ⟨m, rfl, rfl⟩ | ⟨hmem, rfl⟩
      · exact hc.right (w.onTheWay pre f m rfl hto g hg)
      · exact .inl (hreply id hash file w f hmem hto g hg)
    · exact fun blob g hl hg => hc.right (w.replied blob g hl hg)

structure Flight (s : State) (up down : List Frame) : Prop where
  toEngine : Carries (s.engine.buf ++ s.toEngine) up
  toUi : Carries (s.ui.buf ++ s.toUi) down
  inv : Inv s.engine s.ui up down

def Good (s : State) : Prop := ∃ up down, Flight s up down

theorem Flight.engineStep (h : Flight s up down) {e' : Engine} (sent : Option Frame)
    (hup : Carries (e'.buf ++ s.toEngine) up') (hfits : ∀ f, sent = some f → f.Fits)
    (hinv : Inv e' s.ui up' (down ++ sent.toList)) :
    Good (({ s with engine := e' } : State).toUiFrame sent) := by
  cases sent with
  | none =>
      rw [Option.toList_none, List.append_nil] at hinv
      exact ⟨up', down, hup, h.toUi, hinv⟩
  | some f =>
      refine ⟨up', down ++ [f], hup, ?_, hinv⟩
      have := h.toUi.write (hfits f rfl)
      rwa [List.append_assoc] at this

theorem Serves.grows {k k' : Task} (h : Serves e k hash file) (hg : Grows e e')
    (hhandle : k'.handle = k.handle) (hcontent : k'.content = k.content) (hfile : k'.file = k.file) :
    Serves e' k' hash file := by
  obtain ⟨⟨x, hx, hxk, rfl⟩, hpos, hk⟩ := h
  obtain ⟨x', hx', hhandle', hhash, -⟩ := hg.torrent x hx
  refine ⟨⟨x', hx', (hhandle'.trans hxk).trans hhandle.symm, hhash⟩, hpos, ?_⟩
  rw [hcontent, hfile]
  exact hk

-- The engine changed, nothing was taken and nothing was sent.
theorem Flight.quiet (h : Flight s up down) {e' : Engine} (hbuf : e'.buf = s.engine.buf)
    (hsound : e'.Sound) (hg : Grows s.engine e')
    (hserved : ∀ k', e'.task = some k' → ∃ k, s.engine.task = some k ∧ k'.id = k.id ∧
      k'.handle = k.handle ∧ k'.content = k.content ∧ k'.file = k.file) :
    Good { s with engine := e' } := by
  refine h.engineStep none (hbuf ▸ h.toEngine) (fun f hf => nomatch hf) ?_
  refine h.inv.engineStep hsound (.inl hg.keeps) (by simp) (fun f hf => hf) (by simp) ?_ (by simp)
  intro id hash file _ w k' hk' hid
  obtain ⟨k, hk, hid', hhandle, hcontent, hfile⟩ := hserved k' hk'
  exact (w.served k hk (hid'.symm.trans hid)).grows hg hhandle hcontent hfile

end Invariant

end BATorrent.StreamChurn
