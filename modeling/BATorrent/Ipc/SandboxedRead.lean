import BATorrent.Ipc.MediaFeed.Content
import BATorrent.Ipc.RemoteSource

namespace BATorrent.SandboxedRead

open Lib
open MediaFeed (Bytes)

-- The feed in the UI, the device in the child, and a channel each way.
structure State where
  feed : MediaFeed.State
  device : Option RemoteSource.State
  toChild : List MediaFeed.Out
  toFeed : List RemoteSource.Pending

inductive Event where
  | feed (e : MediaFeed.Event)
  | device (e : RemoteSource.Event)
  | takeRequest
  | takeMessage

inductive Out where
  | feed (o : MediaFeed.Out)
  | device (o : RemoteSource.Out)

def fromFeed : Out → Option MediaFeed.Out
  | .feed o => some o
  | .device _ => none

def requests (out : List RemoteSource.Out) : List RemoteSource.Pending :=
  out.filterMap fun
    | .requested p => some p
    | .returned _ _ => none

def afterFeed (s : State) (step : Option (MediaFeed.State × List MediaFeed.Out)) :
    Option (State × List Out) :=
  step.map fun r => ({ s with feed := r.1, toChild := s.toChild ++ r.2 }, r.2.map .feed)

-- What the child does with a message.
def receive (device : Option RemoteSource.State) : MediaFeed.Out → Option RemoteSource.State
  | .ready size => if size = 0 then none else some (RemoteSource.create size)
  | .data id offset bytes => device.map fun d => RemoteSource.deliver d id offset bytes
  | .refused id => device.map fun d => RemoteSource.fail d id

-- A request reaches the feed through the channel only.
def next (s : State) : Event → Option (State × List Out)
  | .feed (.request _ _ _) => none
  | .feed e => afterFeed s (MediaFeed.next s.feed e)
  | .device e =>
      match s.device with
      | none => none
      | some d =>
          (RemoteSource.next d e).map fun r =>
            ({ s with device := some r.1, toFeed := s.toFeed ++ requests r.2 }, r.2.map .device)
  | .takeRequest =>
      match s.toFeed with
      | [] => none
      | p :: rest =>
          afterFeed { s with toFeed := rest }
            (MediaFeed.next s.feed (.request p.id p.offset p.length))
  | .takeMessage =>
      match s.toChild with
      | [] => none
      | m :: rest => some ({ s with device := receive s.device m, toChild := rest }, [])

def machine : Machine State Event Out where
  init := { feed := .initial, device := none, toChild := [], toFeed := [] }
  next := next

section Device

variable (src : Bytes)

-- Every chunk is a stretch of the source.
def CacheSound (d : RemoteSource.State) : Prop :=
  ∀ c ∈ d.cache, c.bytes <+: src.drop c.offset

-- What a read has filled its buffer with.
def ReadSound : Out → Prop
  | .device (.returned pos (some bytes)) => bytes <+: src.drop pos
  | _ => True

variable {src}

theorem copyCached_sound {cache : List RemoteSource.Chunk} {pos : Nat} {maxSize : Int}
    {bytes : Bytes} (h : ∀ c ∈ cache, c.bytes <+: src.drop c.offset)
    (hcopy : RemoteSource.copyCached cache pos maxSize = some bytes) :
    bytes <+: src.drop pos := by
  unfold RemoteSource.copyCached at hcopy
  cases hfind : cache.find? (fun c => c.holds pos) with
  | none => simp [hfind] at hcopy
  | some c =>
      simp only [hfind, Option.some.injEq] at hcopy
      have hholds := List.find?_some hfind
      simp only [RemoteSource.Chunk.holds, decide_eq_true_eq] at hholds
      have hpre := MediaFeed.prefix_drop_drop (h c (List.mem_of_find?_eq_some hfind))
        (pos - c.offset)
      rw [show c.offset + (pos - c.offset) = pos by omega] at hpre
      exact hcopy ▸ (List.take_prefix _ _).trans hpre

theorem mem_evict {cache : List RemoteSource.Chunk} {cacheBytes : Nat} {c : RemoteSource.Chunk}
    (h : c ∈ (RemoteSource.evict cache cacheBytes).1) : c ∈ cache := by
  induction cache, cacheBytes using RemoteSource.evict.induct with
  | case1 c' d rest cacheBytes hbig ih =>
      rw [RemoteSource.evict, if_pos hbig] at h
      exact List.mem_cons_of_mem c' (ih h)
  | case2 c' d rest cacheBytes hsmall =>
      rwa [RemoteSource.evict, if_neg hsmall] at h
  | case3 cache cacheBytes hshort =>
      rwa [RemoteSource.evict] at h
      exact hshort

theorem cacheSound_deliver {d : RemoteSource.State} (h : CacheSound src d) (id : UInt32)
    {offset : Nat} {bytes : Bytes} (hbytes : bytes <+: src.drop offset) :
    CacheSound src (RemoteSource.deliver d id offset bytes) := by
  unfold RemoteSource.deliver
  cases d.pending.find? (fun p => p.id = id) with
  | none => exact h
  | some p =>
      simp only
      split_ifs
      · exact h
      · intro c hc
        rcases List.mem_append.mp (mem_evict hc) with hc | hc
        · exact h c hc
        · obtain rfl := List.mem_singleton.mp hc
          exact hbytes

theorem cacheSound_fail {d : RemoteSource.State} (h : CacheSound src d) (id : UInt32) :
    CacheSound src (RemoteSource.fail d id) := by
  unfold RemoteSource.fail
  cases d.pending.find? (fun p => p.id = id) with
  | none => exact h
  | some p => exact h

theorem cacheSound_next {d d' : RemoteSource.State} {e : RemoteSource.Event}
    {out : List RemoteSource.Out} (h : CacheSound src d)
    (hn : RemoteSource.next d e = some (d', out)) :
    CacheSound src d' ∧ ∀ o ∈ out, ReadSound src (.device o) := by
  have hret : ∀ bytes : Option Bytes, (∀ b, bytes = some b → b <+: src.drop d.pos) →
      CacheSound src (d.ret bytes).1 ∧ ∀ o ∈ (d.ret bytes).2, ReadSound src (.device o) := by
    intro bytes hbytes
    refine ⟨h, ?_⟩
    intro o ho
    obtain rfl := List.mem_singleton.mp ho
    cases bytes with
    | none => trivial
    | some b => exact hbytes b rfl
  cases e with
  | readData maxSize =>
      simp only [RemoteSource.next] at hn
      split at hn
      · simp at hn
      · split_ifs at hn
        · obtain ⟨rfl, rfl⟩ := Prod.ext_iff.mp (Option.some.inj hn)
          exact hret (some []) (by simp)
        · obtain ⟨rfl, rfl⟩ := Prod.ext_iff.mp (Option.some.inj hn)
          exact ⟨h, by simp⟩
  | look =>
      have hlook : ∀ c, RemoteSource.look d c = (d', out) →
          CacheSound src d' ∧ ∀ o ∈ out, ReadSound src (.device o) := by
        intro c hc
        rw [← show (RemoteSource.look d c).1 = d' by rw [hc],
          ← show (RemoteSource.look d c).2 = out by rw [hc], RemoteSource.look]
        by_cases hend : d.aborted || d.failed
        · rw [if_pos hend]
          exact hret none (by simp)
        · rw [if_neg hend]
          cases hcopy : RemoteSource.copyCached d.cache d.pos (min c.maxSize (d.size - d.pos)) with
          | some bytes =>
              exact hret (some bytes) fun b hb => Option.some.inj hb ▸ copyCached_sound h hcopy
          | none =>
              simp only
              split_ifs
              · exact ⟨h, by simp⟩
              · exact ⟨h, by simp⟩
      simp only [RemoteSource.next] at hn
      split at hn
      · simp at hn
      · exact hlook _ (Option.some.inj hn)
      · simp at hn
  | readRequested =>
      simp only [RemoteSource.next] at hn
      split at hn
      · obtain ⟨rfl, rfl⟩ := Prod.ext_iff.mp (Option.some.inj hn)
        exact ⟨h, by simp [ReadSound]⟩
      · simp at hn
  | deadline =>
      simp only [RemoteSource.next] at hn
      split at hn
      · obtain ⟨rfl, rfl⟩ := Prod.ext_iff.mp (Option.some.inj hn)
        exact hret none (by simp)
      · simp at hn
  | seek pos =>
      simp only [RemoteSource.next] at hn
      split_ifs at hn
      obtain ⟨rfl, rfl⟩ := Prod.ext_iff.mp (Option.some.inj hn)
      exact ⟨h, by simp⟩
  | abort =>
      obtain ⟨rfl, rfl⟩ := Prod.ext_iff.mp (Option.some.inj hn)
      exact ⟨h, by simp⟩

end Device

section Run

variable (src : Bytes)

def Honest (s : State) : Event → Prop
  | .feed e => MediaFeed.Honest src s.feed e
  | _ => True

def MessageSound : MediaFeed.Out → Prop
  | .data _ offset bytes => bytes <+: src.drop offset
  | _ => True

-- The buffer of the feed, what is in flight to the child and what the child keeps.
structure Sound (s : State) : Prop where
  feed : MediaFeed.Content src s.feed
  inFlight : ∀ o ∈ s.toChild, MessageSound src o
  device : ∀ d, s.device = some d → CacheSound src d

variable {src}

theorem sound_receive {device d : Option RemoteSource.State} {o : MediaFeed.Out}
    (h : ∀ d, device = some d → CacheSound src d) (ho : MessageSound src o)
    (hd : receive device o = d) : ∀ d', d = some d' → CacheSound src d' := by
  rintro d' rfl
  cases o with
  | ready size =>
      simp only [receive] at hd
      split_ifs at hd
      obtain rfl := Option.some.inj hd
      intro c hc
      simp [RemoteSource.create] at hc
  | data id offset bytes =>
      obtain ⟨d, hdevice, rfl⟩ := Option.map_eq_some_iff.mp hd
      exact cacheSound_deliver (h d hdevice) id ho
  | refused id =>
      obtain ⟨d, hdevice, rfl⟩ := Option.map_eq_some_iff.mp hd
      exact cacheSound_fail (h d hdevice) id

theorem afterFeed_some {s s' : State} {step : Option (MediaFeed.State × List MediaFeed.Out)}
    {out : List Out} (hn : afterFeed s step = some (s', out)) :
    ∃ f feedOut, step = some (f, feedOut) ∧
      s' = { s with feed := f, toChild := s.toChild ++ feedOut } ∧ out = feedOut.map .feed := by
  obtain ⟨⟨f, feedOut⟩, hstep, heq⟩ := Option.map_eq_some_iff.mp hn
  obtain ⟨rfl, rfl⟩ := Prod.ext_iff.mp heq
  exact ⟨f, feedOut, hstep, rfl, rfl⟩

theorem sound_afterFeed {s s' : State} {e : MediaFeed.Event} {out : List Out}
    (h : Sound src s) (hhonest : MediaFeed.Honest src s.feed e)
    (hn : afterFeed s (MediaFeed.next s.feed e) = some (s', out)) :
    Sound src s' ∧ ∀ o ∈ out, ReadSound src o := by
  obtain ⟨f, feedOut, hstep, rfl, rfl⟩ := afterFeed_some hn
  refine ⟨⟨MediaFeed.content_next h.feed hhonest hstep, ?_, h.device⟩, ?_⟩
  · intro o ho
    rcases List.mem_append.mp ho with ho | ho
    · exact h.inFlight o ho
    · cases o with
      | ready size => trivial
      | refused id => trivial
      | data id offset bytes => exact MediaFeed.data_sound h.feed hstep ho
  · intro o ho
    obtain ⟨o', -, rfl⟩ := List.mem_map.mp ho
    trivial

theorem next_feed {s s' : State} {e : MediaFeed.Event} {out : List Out}
    (hn : next s (.feed e) = some (s', out)) :
    afterFeed s (MediaFeed.next s.feed e) = some (s', out) := by
  cases e with
  | request id offset length => simp [next] at hn
  | _ => exact hn

theorem sound_next {s s' : State} {e : Event} {out : List Out} (h : Sound src s)
    (hhonest : Honest src s e) (hn : next s e = some (s', out)) :
    Sound src s' ∧ ∀ o ∈ out, ReadSound src o := by
  cases e with
  | feed e =>
      have hfeed : MediaFeed.Honest src s.feed e := hhonest
      exact sound_afterFeed h hfeed (next_feed hn)
  | device e =>
      simp only [next] at hn
      split at hn
      · simp at hn
      · rename_i d hd
        obtain ⟨⟨d', deviceOut⟩, hstep, heq⟩ := Option.map_eq_some_iff.mp hn
        obtain ⟨rfl, rfl⟩ := Prod.ext_iff.mp heq
        obtain ⟨hcache, hout⟩ := cacheSound_next (h.device d hd) hstep
        refine ⟨⟨h.feed, h.inFlight, ?_⟩, ?_⟩
        · rintro _ ⟨⟩
          exact hcache
        · intro o ho
          obtain ⟨o', ho', rfl⟩ := List.mem_map.mp ho
          exact hout o' ho'
  | takeRequest =>
      simp only [next] at hn
      split at hn
      · simp at hn
      · rename_i p rest hp
        have hkept : Sound src { s with toFeed := rest } := ⟨h.feed, h.inFlight, h.device⟩
        exact sound_afterFeed hkept (e := .request p.id p.offset p.length) trivial hn
  | takeMessage =>
      simp only [next] at hn
      split at hn
      · simp at hn
      · rename_i m rest hm
        obtain ⟨rfl, rfl⟩ := Prod.ext_iff.mp (Option.some.inj hn)
        have hall : ∀ o ∈ m :: rest, MessageSound src o := hm ▸ h.inFlight
        refine ⟨⟨h.feed, fun o ho => hall o (List.mem_cons_of_mem m ho), ?_⟩, by simp⟩
        exact sound_receive h.device (hall m List.mem_cons_self) rfl

theorem sound_run {past : List (Reaction State Event Out)} {s : State}
    (hrun : machine.Run (Honest src) past s) : Sound src s := by
  refine hrun.invariant (Sound src) ?_ fun _ _ _ _ h hhonest hn => (sound_next h hhonest hn).1
  exact ⟨MediaFeed.content_initial, by simp [machine], by simp [machine]⟩

end Run

section Feed

variable {src : Bytes}

-- The reaction of the feed that a step shows.
def seen (r : Reaction State Event Out) :
    Option (Reaction MediaFeed.State MediaFeed.Event MediaFeed.Out) :=
  match r.event with
  | .feed e => some ⟨r.before.feed, e, r.out.filterMap fromFeed⟩
  | .takeRequest =>
      match r.before.toFeed with
      | [] => none
      | p :: _ =>
          some ⟨r.before.feed, .request p.id p.offset p.length, r.out.filterMap fromFeed⟩
  | _ => none

theorem filterMap_fromFeed (out : List MediaFeed.Out) :
    (out.map Out.feed).filterMap fromFeed = out := by
  rw [List.filterMap_map]
  exact List.filterMap_some

theorem afterFeed_seen {s s' : State} {e : MediaFeed.Event} {out : List Out}
    (hn : afterFeed s (MediaFeed.next s.feed e) = some (s', out)) :
    MediaFeed.machine.next s.feed e = some (s'.feed, out.filterMap fromFeed) := by
  obtain ⟨f, feedOut, hstep, rfl, rfl⟩ := afterFeed_some hn
  rw [filterMap_fromFeed]
  exact hstep

-- What the feed goes through is a run of the feed alone.
theorem feedRun {past : List (Reaction State Event Out)} {s : State}
    (hrun : machine.Run (Honest src) past s) :
    MediaFeed.machine.Run (MediaFeed.Honest src) (past.filterMap seen) s.feed := by
  refine hrun.project State.feed seen rfl ?_
  intro s e s' out hhonest hn
  cases e with
  | feed e => exact ⟨rfl, hhonest, afterFeed_seen (next_feed hn)⟩
  | device e =>
      simp only [machine, next] at hn
      split at hn
      · simp at hn
      · obtain ⟨r, -, heq⟩ := Option.map_eq_some_iff.mp hn
        obtain ⟨rfl, -⟩ := Prod.ext_iff.mp heq
        rfl
  | takeRequest =>
      simp only [machine, next] at hn
      simp only [seen]
      split at hn
      · simp at hn
      · rename_i p rest hp
        exact ⟨rfl, trivial, afterFeed_seen (s := { s with toFeed := rest }) hn⟩
  | takeMessage =>
      simp only [machine, next] at hn
      split at hn
      · simp at hn
      · obtain ⟨rfl, -⟩ := Prod.ext_iff.mp (Option.some.inj hn)
        rfl

theorem accepted_request {t : Reaction MediaFeed.State MediaFeed.Event MediaFeed.Out}
    {p : MediaFeed.Pending} (hp : p ∈ MediaFeed.accepted t) :
    ∃ length : Int, t.event = .request p.id p.offset length ∧ p.length ≤ length := by
  unfold MediaFeed.accepted at hp
  split at hp
  · rename_i id offset length he
    by_cases ht : MediaFeed.takes t.before offset length
    case neg => simp [if_neg ht] at hp
    rw [if_pos ht] at hp
    obtain rfl := List.mem_singleton.mp hp
    simp only [MediaFeed.takes, not_or, not_le] at ht
    refine ⟨length, ?_, ?_⟩
    · rw [he, MediaFeed.asPending, Int.toNat_of_nonneg (by omega)]
    · simp only [MediaFeed.asPending]
      omega
  · simp at hp

-- Data is the source's bytes, and no more of them than a request asked for.
theorem data_requested {past : List (Reaction MediaFeed.State MediaFeed.Event MediaFeed.Out)}
    {s : MediaFeed.State} (hrun : MediaFeed.machine.Run (MediaFeed.Honest src) past s)
    {t : Reaction MediaFeed.State MediaFeed.Event MediaFeed.Out} (ht : t ∈ past) {id : UInt32}
    {offset : Nat} {bytes : Bytes} (hdata : .data id offset bytes ∈ t.out) :
    0 < bytes.length ∧ bytes = (src.drop offset).take bytes.length ∧
      ∃ asked ∈ past, ∃ length : Int,
        asked.event = .request id offset length ∧ bytes.length ≤ length := by
  obtain ⟨-, s', -, -, hn⟩ := hrun.before ht
  have hanswer : .data id offset bytes ∈ past.flatMap MediaFeed.answers :=
    List.mem_flatMap.mpr ⟨t, ht, MediaFeed.data_mem_answers hn hdata⟩
  obtain ⟨done, hperm, hall⟩ := MediaFeed.run_answered hrun
  obtain ⟨p, hp, hto⟩ := MediaFeed.mem_of_forall₂ hall hanswer
  have htaken := hperm.mem_iff.mpr (List.mem_append_left s.pending hp)
  obtain ⟨asked, hasked, hpa⟩ := List.mem_flatMap.mp htaken
  obtain ⟨length, hevent, hle⟩ := accepted_request hpa
  cases hto with
  | data _ hpos hlen heq => exact ⟨hpos, heq, asked, hasked, length, hevent, by omega⟩

theorem mem_seen {r : Reaction State Event Out} {o : MediaFeed.Out} {s' : State}
    (hn : next r.before r.event = some (s', r.out)) (ho : .feed o ∈ r.out) :
    ∃ t, seen r = some t ∧ o ∈ t.out := by
  have hmem : o ∈ r.out.filterMap fromFeed := List.mem_filterMap.mpr ⟨.feed o, ho, rfl⟩
  obtain ⟨s, e, out⟩ := r
  cases e with
  | feed e => exact ⟨_, rfl, hmem⟩
  | takeRequest =>
      simp only [next] at hn
      split at hn
      · simp at hn
      · rename_i p rest hp
        simp only [seen, hp]
        exact ⟨_, rfl, hmem⟩
  | device e =>
      simp only [next] at hn
      split at hn
      · simp at hn
      · obtain ⟨r, -, heq⟩ := Option.map_eq_some_iff.mp hn
        obtain ⟨-, rfl⟩ := Prod.ext_iff.mp heq
        simp at ho
  | takeMessage =>
      simp only [next] at hn
      split at hn
      · simp at hn
      · obtain ⟨-, rfl⟩ := Prod.ext_iff.mp (Option.some.inj hn)
        simp at ho

end Feed

section Reads

variable {src : Bytes}

-- What each data message says, that each request taken has one answer at most, and what each
-- read has filled its buffer with.
def ReadsSource (src : Bytes) (past : List (Reaction State Event Out)) (s : State) : Prop :=
  (∀ r ∈ past, ∀ id offset bytes, .feed (.data id offset bytes) ∈ r.out →
    0 < bytes.length ∧ bytes = (src.drop offset).take bytes.length ∧
      ∃ asked ∈ past.filterMap seen, ∃ length : Int,
        asked.event = .request id offset length ∧ bytes.length ≤ length) ∧
  (∃ done, ((past.filterMap seen).flatMap MediaFeed.accepted).Perm (done ++ s.feed.pending) ∧
    List.Forall₂ (MediaFeed.AnswerTo src) done
      ((past.filterMap seen).flatMap MediaFeed.answers)) ∧
  (∀ r ∈ past, ∀ pos bytes, .device (.returned pos (some bytes)) ∈ r.out →
    bytes = (src.drop pos).take bytes.length)

theorem run_readsSource {past : List (Reaction State Event Out)} {s : State}
    (hrun : machine.Run (Honest src) past s) : ReadsSource src past s := by
  have hfeed := feedRun hrun
  refine ⟨?_, MediaFeed.run_answered hfeed, ?_⟩
  · intro r hr id offset bytes hdata
    obtain ⟨-, s', -, -, hn⟩ := hrun.before hr
    obtain ⟨t, hseen, ht⟩ := mem_seen hn hdata
    exact data_requested hfeed (List.mem_filterMap.mpr ⟨r, hr, hseen⟩) ht
  · intro r hr pos bytes hread
    obtain ⟨earlier, s', hearlier, hhonest, hn⟩ := hrun.before hr
    obtain ⟨-, hout⟩ := sound_next (sound_run hearlier) hhonest hn
    exact List.prefix_iff_eq_take.mp (hout _ hread)

-- One byte read from a file.
theorem run_readsSource_oneByte : ∃ past s, machine.Run (Honest [7]) past s ∧
    (∃ r ∈ past, .device (.returned 0 (some [7])) ∈ r.out) ∧ ReadsSource [7] past s := by
  have hstart : machine.Run (Honest [7]) [] machine.init := .init
  have hopened := hstart.extend (.feed (.openFile [7])) rfl rfl
  have hready := hopened.extend .takeMessage trivial rfl
  have hcalled := hready.extend (.device (.readData 5)) trivial rfl
  have hlooked := hcalled.extend (.device .look) trivial rfl
  have hasked := hlooked.extend (.device .readRequested) trivial rfl
  have hanswered := hasked.extend .takeRequest trivial rfl
  have hdelivered := hanswered.extend .takeMessage trivial rfl
  have hread := hdelivered.extend (.device .look) trivial rfl
  exact ⟨_, _, hread, ⟨_, List.mem_cons_self, List.mem_singleton_self _⟩, run_readsSource hread⟩

end Reads

end BATorrent.SandboxedRead
