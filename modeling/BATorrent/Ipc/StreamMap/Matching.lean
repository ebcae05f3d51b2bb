import BATorrent.Ipc.StreamMap.Complete

namespace BATorrent.StreamMap

open Lib
open Lib.DataStream
open Protocol (Frame Kind takeFrame writeFrame drainFrames)

section Log

-- What is seen of the calls: a request is sent, the engine sends its reply, the reply comes in, and
-- the call returns.
inductive Said where
  | asked (id : UInt32)
  | answered (id : UInt32) (result : Bytes)
  | arrived (id : UInt32)
  | returned (id : UInt32) (blob : Bytes)
deriving DecidableEq

def answeredBy (f : Frame) : List Said :=
  if f.kind = Kind.reply.code then [.answered (readReply f.payload).1 (readReply f.payload).2]
  else []

-- The frames that a step of the engine adds to the channel.
def sentFrames (s s' : State) : List Frame := drainFrames (s'.toUi.drop s.toUi.length)

def said (s s' : State) : Event → List Said
  | .request _ _ => [.asked s.ui.nextId]
  | .streamGeo row file =>
      if s.ui.torrentHashAt row = [] ∨
        (s.ui.streamGeo (geoKey (s.ui.torrentHashAt row) file)).isSome then []
      else [.asked s.ui.nextId]
  | .drain =>
      match takeFrame s.ui.buf with
      | .frame f _ => if f.kind = Kind.reply.code then [.arrived (readReply f.payload).1] else []
      | _ => []
  | .returns =>
      match s.ui.stack with
      | .wait id _ :: _ => [.returned id ((s.ui.replies.lookup id).getD [])]
      | _ => []
  | _ => (sentFrames s s').flatMap answeredBy

-- The same machine, watched.
def calls : Machine State Event Said where
  init := init
  next s e := (step s e).map fun s' => (s', said s s' e)

-- What was seen since the number was last given out. The log has the newest first.
def since (log : List Said) (id : UInt32) : List Said := log.takeWhile (· ≠ .asked id)

def Said.answerTo (id : UInt32) : Said → Option Bytes
  | .answered i result => if i = id then some result else none
  | _ => none

def answersTo (log : List Said) (id : UInt32) : List Bytes :=
  (since log id).filterMap (Said.answerTo id)

-- A call returns the one reply that the engine gave to it if that came in, and nothing if not.
def Matches (log : List Said) (id : UInt32) (blob : Bytes) : Prop :=
  if .arrived id ∈ since log id then answersTo log id = [blob] else blob = []

def Matched (log : List Said) : Prop :=
  ∀ later earlier id blob, log = later ++ .returned id blob :: earlier → Matches earlier id blob

end Log

section Guards

-- A call that clears the replies leaves the calls below it theirs.
def KeepsWaited (s : State) : Event → Prop
  | .request _ _ => s.ui.replies.length ≤ 64 ∨
      ∀ a ∈ s.ui.stack, ∀ r ∈ s.ui.replies, a.waitsFor r.1 = false
  | .streamGeo row file => asks s row file → s.ui.replies.length ≤ 64 ∨
      ∀ a ∈ s.ui.stack, ∀ r ∈ s.ui.replies, a.waitsFor r.1 = false
  | _ => True

def Undisturbed (s : State) (e : Event) : Prop := FitsFrame s e ∧ FreshId s e ∧ KeepsWaited s e

end Guards

section Since

variable {log : List Said} {id i : UInt32} {result blob : Bytes}

theorem matched_nil : Matched [] := by
  intro later earlier id blob h
  simp at h

theorem matched_cons {x : Said} (h : Matched log)
    (hx : ∀ id blob, x = .returned id blob → Matches log id blob) : Matched (x :: log) := by
  intro later earlier id blob heq
  cases later with
  | nil =>
      obtain ⟨rfl, rfl⟩ := List.cons.inj heq
      exact hx id blob rfl
  | cons y later =>
      obtain ⟨rfl, rfl⟩ := List.cons.inj heq
      exact h later earlier id blob rfl

-- Where a call stands, by what is to be seen of its number.
inductive Stage (pending : Nat) (down : List Frame) (kept : Option Bytes) (answers : List Bytes)
    (arrived : Prop) : Prop where
  | waiting : pending ≤ 1 → down = [] → kept = none → answers = [] → ¬ arrived →
      Stage pending down kept answers arrived
  | onTheWay (f : Frame) : pending = 0 → down = [f] → kept = none →
      answers = [(readReply f.payload).2] → ¬ arrived → Stage pending down kept answers arrived
  | there (blob : Bytes) : pending = 0 → down = [] → kept = some blob → answers = [blob] →
      arrived → Stage pending down kept answers arrived

theorem Stage.lt {pending pending' : Nat} {down : List Frame} {kept : Option Bytes}
    {answers : List Bytes} {arrived : Prop} (h : Stage pending down kept answers arrived)
    (hle : pending' ≤ pending) : Stage pending' down kept answers arrived := by
  cases h with
  | waiting hpending hdown hkept hanswers harrived =>
      exact .waiting (hle.trans hpending) hdown hkept hanswers harrived
  | onTheWay f hpending hdown hkept hanswers harrived =>
      exact .onTheWay f (by omega) hdown hkept hanswers harrived
  | there blob hpending hdown hkept hanswers harrived =>
      exact .there blob (by omega) hdown hkept hanswers harrived

-- What the call takes from the replies is what the log says of it.
theorem Stage.matches {pending : Nat} {down : List Frame} {replies : List (UInt32 × Bytes)}
    (h : Stage pending down (replies.lookup id) (answersTo log id) (.arrived id ∈ since log id)) :
    Matches log id ((replies.lookup id).getD []) := by
  unfold Matches
  cases h with
  | waiting _ _ hkept _ harrived =>
      rw [if_neg harrived, hkept]
      rfl
  | onTheWay f _ _ hkept _ harrived =>
      rw [if_neg harrived, hkept]
      rfl
  | there blob _ _ hkept hanswers harrived =>
      rw [if_pos harrived, hkept, hanswers]
      rfl

theorem since_cons_of_ne {x : Said} (h : x ≠ .asked id) : since (x :: log) id = x :: since log id :=
  List.takeWhile_cons_of_pos (decide_eq_true h)

theorem since_asked : since (.asked id :: log) id = [] :=
  List.takeWhile_cons_of_neg (by simp)

-- A step that says nothing of this number.
def Said.Silent (id : UInt32) : Said → Prop
  | .asked i => i ≠ id
  | .answered i _ => i ≠ id
  | .arrived i => i ≠ id
  | .returned _ _ => True

theorem Said.Silent.ne_asked {x : Said} (h : x.Silent id) : x ≠ .asked id := by
  rintro rfl
  exact h rfl

theorem answersTo_silent {x : Said} (h : x.Silent id) :
    answersTo (x :: log) id = answersTo log id := by
  rw [answersTo, since_cons_of_ne h.ne_asked]
  cases x with
  | answered i result =>
      have hnone : Said.answerTo id (.answered i result) = none := if_neg h
      rw [List.filterMap_cons_none hnone, answersTo]
  | asked i => rfl
  | arrived i => rfl
  | returned i blob => rfl

theorem arrived_silent {x : Said} (h : x.Silent id) :
    .arrived id ∈ since (x :: log) id ↔ .arrived id ∈ since log id := by
  rw [since_cons_of_ne h.ne_asked, List.mem_cons, or_iff_right]
  rintro rfl
  exact h rfl

theorem answersTo_answered :
    answersTo (.answered id result :: log) id = result :: answersTo log id := by
  have hne : Said.answered id result ≠ .asked id := by simp
  have hsome : Said.answerTo id (.answered id result) = some result := if_pos rfl
  rw [answersTo, since_cons_of_ne hne, List.filterMap_cons_some hsome, answersTo]

theorem arrived_answered :
    .arrived id ∈ since (.answered i result :: log) id ↔ .arrived id ∈ since log id := by
  have hne : Said.answered i result ≠ .asked id := by simp
  rw [since_cons_of_ne hne]
  simp

theorem answersTo_arrived : answersTo (.arrived i :: log) id = answersTo log id := by
  have hne : Said.arrived i ≠ .asked id := by simp
  rw [answersTo, since_cons_of_ne hne]
  rfl

theorem arrived_arrived : .arrived id ∈ since (.arrived id :: log) id := by
  have hne : Said.arrived id ≠ .asked id := by simp
  rw [since_cons_of_ne hne]
  exact List.mem_cons_self

end Since

section Flow

-- The requests of this number that the engine has not answered.
def pending (e : Engine) (up : List Frame) (id : UInt32) : Nat :=
  up.countP (isRequestOf id) + if e.task.any (·.id = id) then 1 else 0

def StageOf (e : Engine) (u : Ui) (up down : List Frame) (log : List Said) (id : UInt32) : Prop :=
  Stage (pending e up id) (down.filter (isReplyTo id)) (u.replies.lookup id) (answersTo log id)
    (.arrived id ∈ since log id)

def Activation.waitId : Activation → Option UInt32
  | .wait id _ => some id
  | _ => none

def waitIds (stack : List Activation) : List UInt32 := stack.filterMap Activation.waitId

-- Hashes and bit arrays stay so short that what the engine sends of itself fits.
structure Engine.Short (e : Engine) : Prop where
  streamed : ∀ t ∈ e.torrents, ∀ h ∈ t.streamed, h.length ≤ 64
  bits : ∀ k ∈ e.task, k.bits.length < 2 ^ 28

structure Flow (s : State) (up down : List Frame) (log : List Said) : Prop where
  toEngine : Carries (s.engine.buf ++ s.toEngine) up
  toUi : Carries (s.ui.buf ++ s.toUi) down
  short : s.engine.Short
  distinct : (waitIds s.ui.stack).Nodup
  stages : ∀ id ∈ waitIds s.ui.stack, StageOf s.engine s.ui up down log id
  matched : Matched log

def Flowing (s : State) (log : List Said) : Prop := ∃ up down, Flow s up down log

section Steps

variable {s s' : State} {log : List Said} {up down : List Frame}

theorem StageOf.silent {e : Engine} {u : Ui} {x : Said} {id : UInt32}
    (h : StageOf e u up down log id) (hx : x.Silent id) :
    StageOf e u up down (x :: log) id := by
  unfold StageOf
  rwa [answersTo_silent hx, arrived_silent hx]

theorem isRequestOf_requestFrame {i id : UInt32} {method : QString} {args : Bytes}
    (hfits : (requestFrame i method args).Fits) :
    isRequestOf id (requestFrame i method args) = decide (i = id) := by
  have hkind : (requestFrame i method args).kind = Kind.request.code := rfl
  simp [isRequestOf, readRequest_requestFrame hfits, hkind]

theorem pending_append (e : Engine) (up : List Frame) (f : Frame) (id : UInt32) :
    pending e (up ++ [f]) id = pending e up id + if isRequestOf id f then 1 else 0 := by
  unfold pending
  rw [List.countP_append, List.countP_singleton]
  omega

theorem Unused.pending {e : Engine} {u : Ui} {id : UInt32} (h : Unused e u up down id) :
    pending e up id = 0 := by
  have hup : up.countP (isRequestOf id) = 0 := List.countP_eq_zero.mpr h.up
  have htask : e.task.any (·.id = id) = false := by
    cases hk : e.task with
    | none => rfl
    | some k => simpa using h.task k hk
  simp [StreamMap.pending, hup, htask]

theorem mem_waitIds {stack : List Activation} {id : UInt32} :
    id ∈ waitIds stack ↔ ∃ file, .wait id file ∈ stack := by
  unfold waitIds
  rw [List.mem_filterMap]
  constructor
  · rintro ⟨a, ha, hid⟩
    cases a with
    | wait i file =>
        obtain rfl := Option.some.inj hid
        exact ⟨file, ha⟩
    | drain => cases hid
    | handler => cases hid
  · rintro ⟨file, hw⟩
    exact ⟨_, hw, rfl⟩

-- A call that clears the replies has none of them to clear from the calls below.
theorem lookup_request {u : Ui} {file : Option (QString × Int)} {id : UInt32}
    (hkeeps : u.replies.length ≤ 64 ∨
      ∀ a ∈ u.stack, ∀ r ∈ u.replies, a.waitsFor r.1 = false) (hid : id ∈ waitIds u.stack) :
    (u.request file).replies.lookup id = u.replies.lookup id := by
  unfold Ui.request
  dsimp only
  split_ifs with hmany
  · obtain ⟨file', hw⟩ := mem_waitIds.mp hid
    rcases hkeeps with hfew | hkeeps
    · omega
    · symm
      refine List.lookup_eq_none_iff.mpr fun r hr => bne_iff_ne.mpr ?_
      rintro rfl
      have hno := hkeeps _ hw r hr
      simp [Activation.waitsFor] at hno
  · rfl

theorem flow_ask (h : Flow s up down log) {method : QString} {args : Bytes}
    {file : Option (QString × Int)} (hfresh : inUse s s.ui.nextId = false)
    (hfits : (requestFrame s.ui.nextId method args).Fits)
    (hkeeps : s.ui.replies.length ≤ 64 ∨
      ∀ a ∈ s.ui.stack, ∀ r ∈ s.ui.replies, a.waitsFor r.1 = false) :
    Flowing (s.ask method args file) (.asked s.ui.nextId :: log) := by
  have hnew := unused_of_fresh h.toEngine h.toUi hfresh
  have hout : s.ui.nextId ∉ waitIds s.ui.stack := by
    intro hin
    obtain ⟨file', hw⟩ := mem_waitIds.mp hin
    exact hnew.waits file' hw
  refine ⟨up ++ [requestFrame s.ui.nextId method args], down, ?_, h.toUi, h.short, ?_, ?_, ?_⟩
  · have hcarries := h.toEngine.write hfits
    rwa [List.append_assoc] at hcarries
  · exact List.nodup_cons.mpr ⟨hout, h.distinct⟩
  · intro id hid
    have hrequest : isRequestOf id (requestFrame s.ui.nextId method args) =
        decide (s.ui.nextId = id) := isRequestOf_requestFrame hfits
    rcases List.mem_cons.mp hid with rfl | hid
    · refine .waiting ?_ ?_ ?_ ?_ ?_
      · show pending s.engine (up ++ [requestFrame s.ui.nextId method args]) s.ui.nextId ≤ 1
        rw [pending_append, hnew.pending]
        split_ifs <;> omega
      · exact List.filter_eq_nil_iff.mpr hnew.down
      · have hnone := hnew.replies
        unfold State.ask Ui.request
        dsimp only
        split_ifs
        · rfl
        · exact hnone
      · rw [answersTo, since_asked]
        rfl
      · rw [since_asked]
        exact List.not_mem_nil
    · have hne : s.ui.nextId ≠ id := fun heq => hout (heq ▸ hid)
      have hstage := (h.stages id hid).silent (x := .asked s.ui.nextId) hne
      unfold StageOf at hstage ⊢
      have hlookup : (s.ask method args file).ui.replies.lookup id = s.ui.replies.lookup id :=
        lookup_request hkeeps hid
      rw [hlookup]
      refine hstage.lt ?_
      show pending s.engine (up ++ [requestFrame s.ui.nextId method args]) id ≤ _
      rw [pending_append, hrequest, decide_eq_false hne]
      simp
  · exact matched_cons h.matched fun id blob => Said.noConfusion

theorem isReplyTo_replyFrame {i id : UInt32} {blob : Bytes} (hfits : (replyFrame i blob).Fits) :
    isReplyTo id (replyFrame i blob) = decide (i = id) := by
  have hkind : (replyFrame i blob).kind = Kind.reply.code := rfl
  simp [isReplyTo, readReply_replyFrame hfits, hkind]

-- A frame that answers another number, or none, says nothing of this one.
theorem StageOf.answeredBy {e : Engine} {u : Ui} {f : Frame} {id : UInt32}
    (h : StageOf e u up down log id) (hf : isReplyTo id f = false) :
    StageOf e u up down (answeredBy f ++ log) id := by
  unfold StreamMap.answeredBy
  split_ifs with hkind
  · refine h.silent ?_
    intro hid
    rw [isReplyTo, hkind] at hf
    simp [hid] at hf
  · exact h

-- The engine takes a request or goes on with one, and sends one frame at most. What it answers was
-- pending.
theorem flow_engine (h : Flow s up down log) {e' : Engine} {up' : List Frame} (sent : Option Frame)
    (hup : Carries (e'.buf ++ s.toEngine) up') (hshort : e'.Short) (hfits : ∀ f ∈ sent, f.Fits)
    (hpending : ∀ id, pending e' up' id + (if sent.any (isReplyTo id) then 1 else 0) ≤
      pending s.engine up id) :
    Flowing (({ s with engine := e' } : State).toUiFrame sent)
      (sent.toList.flatMap answeredBy ++ log) := by
  cases sent with
  | none =>
      refine ⟨up', down, hup, h.toUi, hshort, h.distinct, ?_, h.matched⟩
      intro id hid
      have hle := hpending id
      show StageOf e' s.ui up' down log id
      exact (h.stages id hid).lt (by simpa using hle)
  | some f =>
      have hcarries := h.toUi.write (hfits f rfl)
      rw [List.append_assoc] at hcarries
      rw [Option.toList_some, List.flatMap_singleton]
      refine ⟨up', down ++ [f], hup, hcarries, hshort, h.distinct, ?_, ?_⟩
      · intro id hid
        have hle := hpending id
        have hstage := h.stages id hid
        rw [Option.any_some] at hle
        show StageOf e' s.ui up' (down ++ [f]) (answeredBy f ++ log) id
        unfold StageOf
        rw [List.filter_append]
        cases hto : isReplyTo id f with
        | false =>
            rw [hto, if_neg Bool.false_ne_true, Nat.add_zero] at hle
            have hsame : [f].filter (isReplyTo id) = [] := by simp [hto]
            rw [hsame, List.append_nil]
            exact (hstage.answeredBy hto).lt hle
        | true =>
            rw [hto, if_pos rfl] at hle
            obtain ⟨hkind, hof⟩ := isReplyTo_iff.mp hto
            have hone : [f].filter (isReplyTo id) = [f] := by simp [hto]
            have hsaid : answeredBy f = [.answered id (readReply f.payload).2] := by
              rw [answeredBy, if_pos hkind, hof]
            rw [hone, hsaid, List.singleton_append, answersTo_answered, arrived_answered]
            unfold StageOf at hstage
            cases hstage with
            | waiting hone' hdown hkept hanswers harrived =>
                rw [hdown, hanswers]
                exact .onTheWay f (by omega) rfl hkept rfl harrived
            | onTheWay _ hzero => omega
            | there _ hzero => omega
      · unfold answeredBy
        split_ifs
        · exact matched_cons h.matched fun id blob heq => nomatch heq
        · exact h.matched

theorem sentFrames_toUiFrame (s : State) (e' : Engine) {sent : Option Frame}
    (hfits : ∀ f ∈ sent, f.Fits) :
    sentFrames s (({ s with engine := e' } : State).toUiFrame sent) = sent.toList := by
  cases sent with
  | none =>
      show drainFrames (s.toUi.drop s.toUi.length) = []
      rw [List.drop_length]
      rfl
  | some f =>
      show drainFrames ((s.toUi ++ writeFrame f).drop s.toUi.length) = [f]
      have hframes : drainFrames ([f].flatMap writeFrame) = [f] :=
        Protocol.drainFrames_flatMap (by simpa using hfits)
      rw [List.flatMap_singleton] at hframes
      rw [List.drop_left, hframes]

theorem Engine.Short.setTorrent {e e' : Engine} (h : e.Short) {row : Nat} {t' : Torrent}
    (hset : e'.torrents = e.torrents.set row t') (ht' : ∀ hash ∈ t'.streamed, hash.length ≤ 64)
    (htask : ∀ k ∈ e'.task, k.bits.length < 2 ^ 28) : e'.Short where
  streamed t ht hash hhash := by
    rw [hset] at ht
    rcases List.mem_or_eq_of_mem_set ht with ht | rfl
    · exact h.streamed t ht hash hhash
    · exact ht' hash hhash
  bits := htask

theorem pending_le {e e' : Engine} (htask : e'.task = e.task) (up : List Frame) (id : UInt32) :
    pending e' up id ≤ pending e up id := by
  unfold pending
  rw [htask]

-- Nothing was taken, nothing was sent, and the task is the same.
theorem flow_quiet (h : Flow s up down log) {e' : Engine} (hbuf : e'.buf = s.engine.buf)
    (htask : e'.task = s.engine.task) (hshort : e'.Short) :
    Flowing { s with engine := e' } log := by
  refine flow_engine h none (hbuf ▸ h.toEngine) hshort (fun f hf => nomatch hf) ?_
  intro id
  have hle := pending_le htask up id
  simpa using hle

-- An event of the engine, which is no reply.
theorem flow_sends (h : Flow s up down log) (e' : Engine) (hbuf : e'.buf = s.engine.buf)
    (htask : e'.task = s.engine.task) (hshort : e'.Short) {name : QString} {args : Bytes}
    (hfits : (eventFrame name args).Fits) :
    Flowing (({ s with engine := e' } : State).toUiFrame (some (eventFrame name args)))
      ((Option.some (eventFrame name args)).toList.flatMap answeredBy ++ log) := by
  refine flow_engine h (some _) (hbuf ▸ h.toEngine) hshort ?_ ?_
  · intro f hf
    obtain rfl := Option.some.inj hf
    exact hfits
  · intro id
    have hno : isReplyTo id (eventFrame name args) = false :=
      Bool.eq_false_iff.mpr (not_isReplyTo_event id name args)
    have hle := pending_le htask up id
    simpa [hno] using hle

theorem short_torrent {e : Engine} (h : e.Short) {row : Nat} {t : Torrent}
    (ht : e.torrents[row]? = some t) : ∀ hash ∈ t.streamed, hash.length ≤ 64 :=
  h.streamed t (mem_of_row ht)

theorem flow_pieceFinishes (h : Flow s up down log) {row piece : Nat}
    (hn : s.pieceFinishes row piece = some s') : ∃ e', s' = { s with engine := e' } ∧
      Flowing s' log := by
  obtain ⟨t, ht, hrest⟩ := Option.bind_eq_some_iff.mp hn
  obtain ⟨c, hc, hrest⟩ := Option.bind_eq_some_iff.mp hrest
  split_ifs at hrest
  obtain rfl := Option.some.inj hrest
  exact ⟨_, rfl, flow_quiet h rfl rfl
    (h.short.setTorrent rfl (fun hash hh => short_torrent h.short ht hash hh) h.short.bits)⟩

theorem flow_metadataArrives (h : Flow s up down log) {row : Nat} {c : Content}
    (hn : s.metadataArrives row c = some s') : ∃ e', s' = { s with engine := e' } ∧
      Flowing s' log := by
  obtain ⟨t, ht, hrest⟩ := Option.bind_eq_some_iff.mp hn
  split_ifs at hrest
  obtain rfl := Option.some.inj hrest
  exact ⟨_, rfl, flow_quiet h rfl rfl
    (h.short.setTorrent rfl (fun hash hh => short_torrent h.short ht hash hh) h.short.bits)⟩

theorem flow_addTorrent (h : Flow s up down log) {t : Torrent} (hn : s.addTorrent t = some s') :
    ∃ e', s' = { s with engine := e' } ∧ Flowing s' log := by
  unfold State.addTorrent at hn
  split_ifs at hn with hnew
  obtain rfl := Option.some.inj hn
  refine ⟨_, rfl, flow_quiet h rfl rfl ⟨?_, h.short.bits⟩⟩
  intro t' ht' hash hhash
  rcases List.mem_append.mp ht' with ht' | ht'
  · exact h.short.streamed t' ht' hash hhash
  · rw [List.mem_singleton.mp ht', hnew.1] at hhash
    cases hhash

-- A step that only sends, or sends nothing, says what it sends.
theorem flowing_sent {e' : Engine} {sent : Option Frame} (hfits : ∀ f ∈ sent, f.Fits)
    (hflow : Flowing (({ s with engine := e' } : State).toUiFrame sent)
      (sent.toList.flatMap answeredBy ++ log)) :
    Flowing (({ s with engine := e' } : State).toUiFrame sent)
      ((sentFrames s (({ s with engine := e' } : State).toUiFrame sent)).flatMap answeredBy ++
        log) := by
  rwa [sentFrames_toUiFrame s e' hfits]

theorem flowing_unsent {e' : Engine} (hflow : Flowing { s with engine := e' } log) :
    Flowing { s with engine := e' }
      ((sentFrames s { s with engine := e' }).flatMap answeredBy ++ log) := by
  have hnone : sentFrames s { s with engine := e' } = [] :=
    by
    show drainFrames (s.toUi.drop s.toUi.length) = []
    rw [List.drop_length]
    rfl
  rwa [hnone]

-- The engine takes a request, or goes on with one, and sends nothing.
theorem flow_takes (h : Flow s up down log) {e' : Engine} {up' : List Frame}
    (hup : Carries (e'.buf ++ s.toEngine) up') (hshort : e'.Short)
    (hpending : ∀ id, pending e' up' id ≤ pending s.engine up id) :
    Flowing { s with engine := e' }
      ((sentFrames s { s with engine := e' }).flatMap answeredBy ++ log) := by
  refine flowing_unsent (flow_engine h none hup hshort (fun f hf => nomatch hf) ?_)
  intro id
  simpa using hpending id

theorem flow_popAlert (h : Flow s up down log) (hn : s.popAlert = some s') :
    Flowing s' ((sentFrames s s').flatMap answeredBy ++ log) := by
  unfold State.popAlert at hn
  cases halerts : s.engine.alerts with
  | nil => simp [halerts] at hn
  | cons a rest =>
      obtain ⟨row, piece⟩ := a
      simp only [halerts] at hn
      obtain rfl := Option.some.inj hn
      have hshort : ({ s.engine with alerts := rest } : Engine).Short := ⟨h.short.streamed, h.short.bits⟩
      cases hstreamed : s.engine.torrents[row]?.bind Torrent.streamed with
      | none => exact flowing_unsent (flow_quiet h rfl rfl hshort)
      | some hash =>
          obtain ⟨t, ht, hhash⟩ := Option.bind_eq_some_iff.mp hstreamed
          have hfits : (pieceFrame hash piece).Fits :=
            fits_pieceFinished (short_torrent h.short ht hash hhash) piece
          have hsends : Flowing
              (({ s with engine := { s.engine with alerts := rest } } : State).toUiFrame
                (some (pieceFrame hash piece)))
              ((Option.some (pieceFrame hash piece)).toList.flatMap answeredBy ++ log) :=
            flow_sends h { s.engine with alerts := rest } rfl rfl hshort hfits
          refine flowing_sent ?_ hsends
          intro f hf
          obtain rfl := Option.some.inj hf
          exact hfits

theorem flow_event (h : Flow s up down log) {name : QString} {args : Bytes}
    (hfits : (eventFrame name args).Fits) :
    Flowing (s.toUiFrame (some (eventFrame name args)))
      ((sentFrames s (s.toUiFrame (some (eventFrame name args)))).flatMap answeredBy ++ log) := by
  refine flowing_sent ?_ (flow_sends h s.engine rfl rfl h.short hfits)
  intro f hf
  obtain rfl := Option.some.inj hf
  exact hfits

theorem flow_engineReads (h : Flow s up down log) (n : Nat) :
    Flowing (s.engineReads n) log := by
  refine ⟨up, down, h.toEngine.read n, h.toUi, ⟨h.short.streamed, h.short.bits⟩, h.distinct, ?_,
    h.matched⟩
  exact fun id hid => (h.stages id hid).lt (pending_le rfl up id)

theorem pending_cons (e : Engine) (f : Frame) (up : List Frame) (id : UInt32) :
    pending e (f :: up) id = pending e up id + if isRequestOf id f then 1 else 0 := by
  unfold pending
  rw [List.countP_cons]
  omega

theorem pending_task {e : Engine} {k : Task} (htask : e.task = none) (up : List Frame)
    (id : UInt32) (e' : Engine) (he' : e'.task = some k) :
    pending e' up id = pending e up id + if k.id = id then 1 else 0 := by
  simp [pending, htask, he']

theorem Engine.Short.stream {e : Engine} (h : e.Short) {row : Nat} {t : Torrent}
    (ht : e.torrents[row]? = some t) (t_short : t.hash.length ≤ 64) :
    ∀ hash ∈ t.stream.streamed, hash.length ≤ 64 := by
  intro hash hhash
  unfold Torrent.stream at hhash
  cases hs : t.streamed with
  | none =>
      simp only [hs, Option.getD_none, Option.mem_def, Option.some.injEq] at hhash
      exact hhash ▸ t_short
  | some old =>
      simp only [hs, Option.getD_some, Option.mem_def, Option.some.injEq] at hhash
      exact hhash ▸ short_torrent h ht old hs

theorem flow_serve (h : Flow s up down log) (htask : s.engine.task = none) {result : Bytes}
    (hfits : (replyFrame 0 result).Fits) (hn : s.serve result = some s') :
    Flowing s' ((sentFrames s s').flatMap answeredBy ++ log) := by
  rcases h.toEngine.take with hwait | ⟨f, up', rest, rfl, hframe, hrest⟩
  · simp [State.serve, hwait] at hn
  simp only [State.serve, hframe] at hn
  obtain rfl := Option.some.inj hn
  have hbase : ({ s.engine with buf := rest } : Engine).Short := ⟨h.short.streamed, h.short.bits⟩
  have hrequests : ∀ id, pending s.engine (f :: up') id =
      pending s.engine up' id + if isRequestOf id f then 1 else 0 := pending_cons s.engine f up'
  -- The answer of this request, at once.
  have hanswer : ∀ blob, (replyFrame (readRequest f.payload).1 blob).Fits →
      f.kind = Kind.request.code →
      Flowing
        (({ s with engine := { s.engine with buf := rest } } : State).toUiFrame
          (some (replyFrame (readRequest f.payload).1 blob)))
        ((sentFrames s (({ s with engine := { s.engine with buf := rest } } : State).toUiFrame
          (some (replyFrame (readRequest f.payload).1 blob)))).flatMap answeredBy ++ log) := by
    intro blob hblob hkind
    have hsome : ∀ f' ∈ some (replyFrame (readRequest f.payload).1 blob), f'.Fits := by
      intro f' hf'
      obtain rfl := Option.some.inj hf'
      exact hblob
    refine flowing_sent hsome (flow_engine h _ hrest hbase hsome ?_)
    intro id
    rw [hrequests, Option.any_some, isReplyTo_replyFrame hblob]
    have hof : isRequestOf id f = decide ((readRequest f.payload).1 = id) := by
      simp [isRequestOf, hkind]
    rw [hof]
    exact Nat.add_le_add_right (pending_le rfl up' id) _
  unfold Engine.dispatch
  by_cases hping : f.kind = Kind.ping.code
  · simp only [if_pos hping]
    have hsome : ∀ f' ∈ some (⟨Kind.pong.code, []⟩ : Frame), f'.Fits := by
      intro f' hf'
      obtain rfl := Option.some.inj hf'
      decide
    refine flowing_sent hsome (flow_engine h _ hrest hbase hsome ?_)
    intro id
    have hno : isReplyTo id ⟨Kind.pong.code, []⟩ = false := by
      refine Bool.eq_false_iff.mpr fun hto => ?_
      exact kind_codes.2.2.2.2 (isReplyTo_iff.mp hto).1
    rw [hrequests, Option.any_some, hno]
    exact (pending_le rfl up' id).trans (Nat.le_add_right _ _)
  by_cases hrequest : f.kind = Kind.request.code
  · simp only [if_neg hping, if_pos hrequest]
    by_cases hmethod : (readRequest f.payload).2.1 = streamGeometryName
    · simp only [if_pos hmethod]
      unfold Engine.streamGeometry
      cases hfind : ({ s.engine with buf := rest } : Engine).find
          (readRow (readRequest f.payload).2.2).1 (readRow (readRequest f.payload).2.2).2 with
      | none => exact hanswer _ (fits_empty _) hrequest
      | some found =>
          obtain ⟨t, c, file⟩ := found
          obtain ⟨ht, -, -⟩ := find_some hfind
          refine flow_takes h hrest ?_ ?_
          · refine h.short.setTorrent rfl (h.short.stream ht t.hash_short) ?_
            intro k hk
            obtain rfl := Option.some.inj hk
            exact Nat.two_pow_pos 28
          · intro id
            have hof : isRequestOf id f = decide ((readRequest f.payload).1 = id) := by
              simp [isRequestOf, hrequest]
            rw [hrequests, hof, pending_task htask up' id _ rfl]
            simp
    · simp only [if_neg hmethod]
      exact hanswer result (fits_replyFrame hfits) hrequest
  · simp only [if_neg hping, if_neg hrequest]
    refine flow_takes h hrest hbase ?_
    intro id
    rw [hrequests]
    exact (pending_le rfl up' id).trans (Nat.le_add_right _ _)

theorem flow_readPiece (h : Flow s up down log) {k : Task} (htask : s.engine.task = some k) :
    Flowing (s.readPiece k) ((sentFrames s (s.readPiece k)).flatMap answeredBy ++ log) := by
  have hnone : ∀ id, pending { s.engine with task := none } up id + (if k.id = id then 1 else 0) =
      pending s.engine up id := by
    intro id
    simp [pending, htask]
  unfold State.readPiece
  cases hrow : s.engine.torrents[k.row]?.bind Torrent.content with
  | none =>
      refine flow_takes h h.toEngine ⟨h.short.streamed, fun k hk => nomatch hk⟩ ?_
      intro id
      rw [← hnone id]
      exact Nat.le_add_right _ _
  | some c =>
      cases hnext : c.have_[k.bits.length]? with
      | some b =>
          simp only [hnext]
          refine flow_takes h h.toEngine ⟨h.short.streamed, ?_⟩ ?_
          · intro k' hk'
            obtain rfl := Option.some.inj hk'
            have hlt := (List.getElem?_eq_some_iff.mp hnext).1
            rw [c.length_have] at hlt
            have hpieces := c.info.numPieces_lt
            rw [List.length_append, List.length_singleton]
            omega
          · intro id
            simp [pending, htask]
      | none =>
          simp only [hnext]
          have hfits := fits_geometry (g := k.geometry) (h.short.bits k htask) k.id
          have hsome : ∀ f ∈ some (replyFrame k.id (putVariantMap k.geometry.toMap)), f.Fits := by
            intro f hf
            obtain rfl := Option.some.inj hf
            exact hfits
          refine flowing_sent hsome ?_
          refine flow_engine h _ h.toEngine ⟨h.short.streamed, fun k hk => nomatch hk⟩ hsome ?_
          intro id
          rw [← hnone id, Option.any_some, isReplyTo_replyFrame hfits]
          simp

theorem flow_pump (h : Flow s up down log) (n : Nat) : Flowing (s.pump n) log := by
  refine ⟨up, down, h.toEngine, h.toUi.read n, h.short, h.distinct, ?_, h.matched⟩
  exact fun id hid => h.stages id hid

theorem flow_handled (h : Flow s up down log) {below : List Activation}
    (hs : s.ui.stack = .handler :: below) :
    Flowing { s with ui := { s.ui with stack := below } } log := by
  have hids : waitIds s.ui.stack = waitIds below := by
    rw [hs]
    rfl
  refine ⟨up, down, h.toEngine, h.toUi, h.short, hids ▸ h.distinct, ?_, h.matched⟩
  exact fun id hid => h.stages id (hids.symm ▸ hid)

theorem dispatchEvent_frame (u : Ui) (name : QString) (args : Bytes) :
    waitIds (u.dispatchEvent name args).stack = waitIds u.stack ∧
      (u.dispatchEvent name args).replies = u.replies := by
  unfold Ui.dispatchEvent
  split_ifs <;> exact ⟨rfl, rfl⟩

-- Only a reply touches the replies, and no frame ends a call.
theorem handleFrame_frame (u : Ui) (f : Frame) :
    waitIds (u.handleFrame f).stack = waitIds u.stack ∧
      ∀ id, (u.handleFrame f).replies.lookup id =
        if isReplyTo id f then some (readReply f.payload).2 else u.replies.lookup id := by
  unfold Ui.handleFrame
  by_cases hreply : f.kind = Kind.reply.code
  · have hhello : f.kind ≠ Kind.hello.code := by
      rw [hreply]
      decide
    have hevent : f.kind ≠ Kind.event.code := by
      rw [hreply]
      decide
    rw [if_neg hhello, if_neg hevent, if_pos hreply]
    refine ⟨rfl, fun id => ?_⟩
    rw [lookup_reply]
    simp [isReplyTo, hreply]
  · have hno : ∀ id, isReplyTo id f = false := fun id =>
      Bool.eq_false_iff.mpr fun hto => hreply (isReplyTo_iff.mp hto).1
    simp only [hno, if_neg hreply, Bool.false_eq_true, if_false]
    split_ifs
    · exact ⟨rfl, fun _ => rfl⟩
    · obtain ⟨hstack, hreplies⟩ := dispatchEvent_frame u (readEvent f.payload).1
        (readEvent f.payload).2
      exact ⟨hstack, fun id => by rw [hreplies]⟩
    · exact ⟨rfl, fun _ => rfl⟩

-- The oldest frame comes in: a reply moves its call on.
theorem flow_arrives {f : Frame} {rest : Bytes} (h : Flow s up (f :: down) log)
    (hrest : Carries (rest ++ s.toUi) down) :
    Flowing { s with ui := ({ s.ui with buf := rest } : Ui).handleFrame f }
      ((if f.kind = Kind.reply.code then [Said.arrived (readReply f.payload).1] else []) ++ log) := by
  obtain ⟨hids, hlookup⟩ := handleFrame_frame { s.ui with buf := rest } f
  refine ⟨up, down, h.toEngine, ?_, h.short, ?_, ?_, ?_⟩
  · show Carries ((({ s.ui with buf := rest } : Ui).handleFrame f).buf ++ s.toUi) down
    rwa [handleFrame_buf]
  · exact hids ▸ h.distinct
  · intro id hid
    have hin : id ∈ waitIds s.ui.stack := hids ▸ hid
    have hstage := h.stages id hin
    unfold StageOf at hstage ⊢
    rw [hlookup]
    cases hto : isReplyTo id f with
    | false =>
        rw [List.filter_cons_of_neg (by simp [hto])] at hstage
        rw [if_neg Bool.false_ne_true]
        split_ifs with hkind
        · have hsilent : (Said.arrived (readReply f.payload).1).Silent id := by
            intro hid'
            rw [isReplyTo, hkind] at hto
            simp [hid'] at hto
          rw [List.singleton_append, answersTo_silent hsilent, arrived_silent hsilent]
          exact hstage
        · exact hstage
    | true =>
        obtain ⟨hkind, hof⟩ := isReplyTo_iff.mp hto
        rw [List.filter_cons_of_pos hto] at hstage
        rw [if_pos rfl, if_pos hkind, List.singleton_append, answersTo_arrived, hof]
        cases hstage with
        | waiting _ hdown => cases hdown
        | onTheWay f' hpending hdown _ hanswers _ =>
            obtain ⟨rfl, hnone⟩ := List.cons.inj hdown
            exact .there _ hpending hnone rfl hanswers arrived_arrived
        | there _ _ hdown => cases hdown
  · split_ifs
    · exact matched_cons h.matched fun id blob => Said.noConfusion
    · exact h.matched

theorem flow_drain (h : Flow s up down log) {below : List Activation}
    (hs : s.ui.stack = .drain :: below) :
    Flowing (s.drain below) (said s (s.drain below) .drain ++ log) := by
  unfold State.drain said
  rcases h.toUi.take with hwait | ⟨f, down', rest, rfl, hframe, hrest⟩
  · simp only [hwait]
    have hids : waitIds s.ui.stack = waitIds below := by
      rw [hs]
      rfl
    refine ⟨up, down, h.toEngine, h.toUi, h.short, hids ▸ h.distinct, ?_, h.matched⟩
    exact fun id hid => h.stages id (hids.symm ▸ hid)
  · simp only [hframe]
    exact flow_arrives h hrest

theorem flow_returns (h : Flow s up down log) {id : UInt32} {file : Option (QString × Int)}
    {below : List Activation} (hs : s.ui.stack = .wait id file :: below) :
    Flowing (s.returns id file below)
      (.returned id ((s.ui.replies.lookup id).getD []) :: log) := by
  have hids : waitIds s.ui.stack = id :: waitIds below := by
    rw [hs]
    rfl
  have hdistinct := h.distinct
  rw [hids] at hdistinct
  obtain ⟨hout, hdistinct⟩ := List.nodup_cons.mp hdistinct
  have hui : ∃ u : Ui, s.returns id file below = { s with ui := u } ∧ u.stack = below ∧
      u.buf = s.ui.buf ∧ u.replies = s.ui.replies.filter (fun kept => kept.1 ≠ id) := by
    refine ⟨_, rfl, ?_⟩
    unfold Ui.returned
    split
    · exact ⟨rfl, rfl, rfl⟩
    · split <;> exact ⟨rfl, rfl, rfl⟩
  obtain ⟨u, hreturns, hstack, hbuf, hreplies⟩ := hui
  rw [hreturns]
  refine ⟨up, down, h.toEngine, hbuf ▸ h.toUi, h.short, hstack ▸ hdistinct, ?_, ?_⟩
  · intro id' hid'
    have hbelow : id' ∈ waitIds below := hstack ▸ hid'
    have hne : id' ≠ id := by
      rintro rfl
      exact hout hbelow
    have hin : id' ∈ waitIds s.ui.stack := hids ▸ List.mem_cons_of_mem _ hbelow
    have hstage := (h.stages id' hin).silent
      (x := .returned id ((s.ui.replies.lookup id).getD [])) trivial
    unfold StageOf at hstage ⊢
    have hlookup : u.replies.lookup id' = s.ui.replies.lookup id' := by
      rw [hreplies]
      exact lookup_filter fun _ => decide_eq_true hne
    show Stage _ _ (u.replies.lookup id') _ _
    rw [hlookup]
    exact hstage
  · refine matched_cons h.matched fun id' blob heq => ?_
    obtain ⟨rfl, rfl⟩ := Said.returned.inj heq
    exact (h.stages id (hids ▸ List.mem_cons_self)).matches

end Steps

section Run

variable {s s' : State} {log : List Said}

theorem flowing_step {e : Event} (h : Flowing s log) (hguard : Undisturbed s e)
    (hstep : step s e = some s') : Flowing s' (said s s' e ++ log) := by
  obtain ⟨up, down, hflow⟩ := h
  obtain ⟨hfits, hfresh, hkeeps⟩ := hguard
  cases e with
  | pieceFinishes row piece =>
      obtain ⟨e', rfl, hnext⟩ := flow_pieceFinishes hflow hstep
      exact flowing_unsent hnext
  | addTorrent t =>
      obtain ⟨e', rfl, hnext⟩ := flow_addTorrent hflow hstep
      exact flowing_unsent hnext
  | metadataArrives row c =>
      obtain ⟨e', rfl, hnext⟩ := flow_metadataArrives hflow hstep
      exact flowing_unsent hnext
  | popAlert =>
      dsimp only [step] at hstep
      split_ifs at hstep
      exact flow_popAlert hflow hstep
  | sendEvent name args =>
      dsimp only [step] at hstep
      split_ifs at hstep
      obtain rfl := Option.some.inj hstep
      exact flow_event hflow hfits
  | pushSnapshot rest =>
      dsimp only [step] at hstep
      split_ifs at hstep
      obtain rfl := Option.some.inj hstep
      exact flow_event hflow hfits
  | engineReads n =>
      obtain rfl := Option.some.inj hstep
      have hnone : sentFrames s (s.engineReads n) = [] := by
        show drainFrames (s.toUi.drop s.toUi.length) = []
        rw [List.drop_length]
        rfl
      show Flowing _ ((sentFrames s (s.engineReads n)).flatMap answeredBy ++ log)
      rw [hnone]
      exact flow_engineReads hflow n
  | serve result =>
      dsimp only [step] at hstep
      split_ifs at hstep with htask
      exact flow_serve hflow (Option.isNone_iff_eq_none.mp htask) hfits hstep
  | readPiece =>
      obtain ⟨k, htask, rfl⟩ := Option.map_eq_some_iff.mp hstep
      exact flow_readPiece hflow htask
  | request method args =>
      dsimp only [step] at hstep
      split_ifs at hstep
      obtain rfl := Option.some.inj hstep
      exact flow_ask hflow hfresh (fits_requestFrame hfits) hkeeps
  | streamGeo row file =>
      dsimp only [step] at hstep
      split_ifs at hstep
      obtain rfl := Option.some.inj hstep
      unfold State.streamGeo said
      by_cases hasks : asks s row file
      · have hnot : ¬ (s.ui.torrentHashAt row = [] ∨
            (s.ui.streamGeo (geoKey (s.ui.torrentHashAt row) file)).isSome) := hasks
        simp only [if_neg hnot]
        exact flow_ask hflow (hfresh hasks) (fits_streamGeometry _ _ _) (hkeeps hasks)
      · have hknown := not_not.mp hasks
        simp only [if_pos hknown]
        exact ⟨up, down, hflow⟩
  | pump n =>
      dsimp only [step] at hstep
      split_ifs at hstep
      obtain rfl := Option.some.inj hstep
      have hnone : sentFrames s (s.pump n) = [] := by
        show drainFrames ((s.toUi.drop n).drop s.toUi.length) = []
        rw [List.drop_eq_nil_of_le (by simp)]
        rfl
      show Flowing _ ((sentFrames s (s.pump n)).flatMap answeredBy ++ log)
      rw [hnone]
      exact flow_pump hflow n
  | drain =>
      dsimp only [step] at hstep
      split at hstep
      · rename_i below hs
        obtain rfl := Option.some.inj hstep
        exact flow_drain hflow hs
      · cases hstep
  | handled =>
      dsimp only [step] at hstep
      split at hstep
      · rename_i below hs
        obtain rfl := Option.some.inj hstep
        have hnone : sentFrames s { s with ui := { s.ui with stack := below } } = [] := by
          show drainFrames (s.toUi.drop s.toUi.length) = []
          rw [List.drop_length]
          rfl
        show Flowing _
          ((sentFrames s { s with ui := { s.ui with stack := below } }).flatMap answeredBy ++ log)
        rw [hnone]
        exact flow_handled hflow hs
      · cases hstep
  | returns =>
      dsimp only [step] at hstep
      split at hstep
      · rename_i id file below hs
        obtain rfl := Option.some.inj hstep
        unfold said
        simp only [hs]
        exact flow_returns hflow hs
      · cases hstep

theorem flowing_init : Flowing init [] := by
  refine ⟨[], [], carries_nil, carries_nil, ⟨?_, ?_⟩, List.nodup_nil, ?_, matched_nil⟩
  · exact fun t ht => nomatch ht
  · exact fun k hk => nomatch hk
  · exact fun id hid => nomatch hid

theorem run_flowing {past : List (Reaction State Event Said)}
    (hrun : calls.Run Undisturbed past s) : Flowing s (Machine.log past) := by
  refine Machine.Run.invariant_past (fun past s => Flowing s (Machine.log past)) flowing_init ?_
    hrun
  intro past s e s' out hflow hguard hnext
  obtain ⟨s'', hstep, hs⟩ := Option.map_eq_some_iff.mp hnext
  obtain ⟨rfl, rfl⟩ := Prod.mk.inj hs
  exact flowing_step hflow hguard hstep

theorem run_matched {past : List (Reaction State Event Said)}
    (hrun : calls.Run Undisturbed past s) : Matched (Machine.log past) := by
  obtain ⟨up, down, hflow⟩ := run_flowing hrun
  exact hflow.matched

instance (s : State) : DecidablePred (KeepsWaited s)
  | .request .. => inferInstanceAs (Decidable (_ ∨ _))
  | .streamGeo .. => inferInstanceAs (Decidable (_ → _))
  | .pieceFinishes .. | .addTorrent .. | .metadataArrives .. | .popAlert | .sendEvent .. | .pushSnapshot ..
  | .engineReads .. | .serve .. | .readPiece | .pump .. | .drain | .handled | .returns => isTrue trivial

instance (s : State) (e : Event) : Decidable (Undisturbed s e) :=
  inferInstanceAs (Decidable (_ ∧ _))

-- The log ends with the return of this call.
def Returned (id : UInt32) (blob : Bytes) (r : State × List Said) : Prop :=
  r.2.head? = some (.returned id blob) ∧ .arrived id ∈ since (r.2.drop 1) id ∧
    answersTo (r.2.drop 1) id = [[7]]

instance (id : UInt32) (blob : Bytes) : DecidablePred (Returned id blob) := fun _ =>
  inferInstanceAs (Decidable (_ ∧ _))

-- A call is made in the slot of an event, and both replies come in while it waits.
theorem run_matched_nested : ∃ past s, calls.Run Undisturbed past s ∧
    Returned 1 [7] (s, Machine.log past) ∧ Matched (Machine.log past) := by
  have hreached : ∃ past s, calls.Run Undisturbed past s ∧
      Returned 1 [7] (s, Machine.log past) :=
    Machine.exists_run_log [.request [] [], .sendEvent [] [], .pump 100, .drain, .request [] [],
      .engineReads 100, .serve [7], .serve [8], .pump 100, .drain, .drain, .drain, .returns,
      .handled, .drain, .returns] (by decide +kernel)
  obtain ⟨past, s, hrun, hreturned⟩ := hreached
  exact ⟨past, s, hrun, hreturned, run_matched hrun⟩

-- Calls that time out, and whose replies come in later. The last of them comes while another call
-- waits, and behind that call's own reply there is an event whose slot calls once more.
def lateReplies : List Event :=
  (List.replicate 64 [.request [] [], .returns, .engineReads 17, .serve [7], .pump 14, .drain,
    .drain]).flatten ++
    [.request [] [], .returns, .request [] [], .engineReads 34, .serve [7], .serve [7],
      .sendEvent [] [], .pump 100, .drain, .drain, .drain, .request [] [], .returns, .handled,
      .drain, .returns]

theorem run_not_matched : ∃ past s,
    calls.Run (fun s e => FitsFrame s e ∧ FreshId s e) past s ∧ ¬ Matched (Machine.log past) := by
  have hreached : ∃ past s, calls.Run (fun s e => FitsFrame s e ∧ FreshId s e) past s ∧
      Returned 66 [] (s, Machine.log past) :=
    Machine.exists_run_log lateReplies (by decide +kernel)
  obtain ⟨past, s, hrun, hhead, harrived, hanswers⟩ := hreached
  refine ⟨past, s, hrun, fun hmatched => ?_⟩
  obtain ⟨rest, hlog⟩ := List.head?_eq_some_iff.mp hhead
  have hmatches := hmatched [] rest 66 [] hlog
  have hdrop : (Machine.log past).drop 1 = rest := by
    rw [show Machine.log past = .returned 66 [] :: rest from hlog]
    rfl
  rw [hdrop] at harrived hanswers
  rw [Matches, if_pos harrived, hanswers] at hmatches
  cases hmatches

end Run

end Flow

end BATorrent.StreamMap
