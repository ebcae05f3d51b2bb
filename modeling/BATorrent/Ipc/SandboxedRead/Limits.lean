import BATorrent.Ipc.MediaFeed.Refusal
import BATorrent.Ipc.SandboxedRead

namespace BATorrent.SandboxedRead

open Lib
open MediaFeed (kMaxRequest kMaxPending)

section Device

open RemoteSource (Pending Call kReadAhead)

-- A request the feed takes, as far as its place and its length go.
structure Asked (size : Nat) (p : Pending) : Prop where
  offset : p.offset < size
  pos : 0 < p.length
  length : p.length ≤ kMaxRequest

-- The reader is about to send a request: what it wants is neither here nor asked for.
def Asks (d : RemoteSource.State) (c : Call) : Prop :=
  (d.aborted || d.failed) = false ∧
    RemoteSource.copyCached d.cache d.pos (min c.maxSize (d.size - d.pos)) = none ∧
    RemoteSource.pendingCovers d.pending d.pos = false

def wanted (d : RemoteSource.State) (c : Call) : Int := min (max c.maxSize kReadAhead) (d.size - d.pos)

-- What it wants fits one request, and fewer than the feed holds are on the way.
def Fits (d : RemoteSource.State) : RemoteSource.Event → Prop
  | .look => ∀ c, d.call = some c → Asks d c →
      d.pending.length < kMaxPending ∧ 1 ≤ wanted d c % 2 ^ 32 ∧ wanted d c % 2 ^ 32 ≤ kMaxRequest
  | _ => True

theorem toInt32_of_fits {n : Int} (h : n % 2 ^ 32 ≤ kMaxRequest) :
    RemoteSource.toInt32 n = n % 2 ^ 32 := by
  unfold RemoteSource.toInt32
  have hmax : (kMaxRequest : Int) = 4194304 := rfl
  have hpow : ((2 ^ 32 : Nat) : Int) = 4294967296 := rfl
  rw [Int.bmod_def, hpow, if_pos]
  · rfl
  · omega

def asking (d : RemoteSource.State) : Nat :=
  match d.call with
  | some ⟨_, .asking _⟩ => 1
  | _ => 0

-- A device, with at most `inFlight` requests it sent on the way to an answer.
structure Device (d : RemoteSource.State) (inFlight : Nat) : Prop where
  reading : ∀ c, d.call = some c → d.pos < d.size
  asks : ∀ maxSize p, d.call = some ⟨maxSize, .asking p⟩ → Asked d.size p
  few : d.pending.length ≤ kMaxPending
  counted : inFlight + asking d ≤ d.pending.length

theorem device_ret {d : RemoteSource.State} {inFlight : Nat} (h : Device d inFlight)
    (bytes : Option MediaFeed.Bytes) : Device (d.ret bytes).1 inFlight :=
  ⟨fun c hc => (by cases hc), fun _ p hc => (by cases hc), h.few, Nat.le_of_add_right_le h.counted⟩

-- A reader that looks again asks no more than the feed takes.
theorem device_look {d d' : RemoteSource.State} {c : Call} {out : List RemoteSource.Out} {inFlight : Nat}
    (h : Device d inFlight) (hcall : d.call = some c) (hquiet : asking d = 0) (hfits : Fits d .look)
    (hlook : RemoteSource.look d c = (d', out)) :
    Device d' inFlight ∧ d'.size = d.size ∧ requests out = [] := by
  have hpos := h.reading c hcall
  have hcounted := h.counted
  unfold RemoteSource.look at hlook
  by_cases hstopped : d.aborted || d.failed
  · rw [if_pos hstopped] at hlook
    obtain ⟨rfl, rfl⟩ := Prod.mk.inj hlook
    exact ⟨device_ret h none, rfl, rfl⟩
  · rw [if_neg hstopped] at hlook
    cases hcopy : RemoteSource.copyCached d.cache d.pos (min c.maxSize (d.size - d.pos)) with
    | some bytes =>
        rw [hcopy] at hlook
        obtain ⟨rfl, rfl⟩ := Prod.mk.inj hlook
        exact ⟨device_ret h (some bytes), rfl, rfl⟩
    | none =>
        rw [hcopy] at hlook
        dsimp only at hlook
        split_ifs at hlook with hcovered
        · obtain ⟨rfl, rfl⟩ := Prod.mk.inj hlook
          refine ⟨⟨fun _ _ => hpos, fun _ p hp => (by cases hp), h.few, ?_⟩, rfl, rfl⟩
          exact Nat.le_of_add_right_le hcounted
        · obtain ⟨rfl, rfl⟩ := Prod.mk.inj hlook
          obtain ⟨hroom, hlow, hhigh⟩ := hfits c hcall
            ⟨by simpa using hstopped, hcopy, by simpa using hcovered⟩
          have hlength : (RemoteSource.missing d c.maxSize).length = wanted d c % 2 ^ 32 :=
            toInt32_of_fits hhigh
          refine ⟨⟨fun _ _ => hpos, ?_, ?_, ?_⟩, rfl, rfl⟩
          · rintro _ p hp
            cases hp
            exact ⟨hpos, by omega, by omega⟩
          · simp only [List.length_append, List.length_singleton]
            omega
          · simp only [asking, List.length_append, List.length_singleton]
            omega

theorem device_next {d d' : RemoteSource.State} {e : RemoteSource.Event} {out : List RemoteSource.Out}
    {inFlight : Nat} (h : Device d inFlight) (hfits : Fits d e)
    (hn : RemoteSource.next d e = some (d', out)) :
    Device d' (inFlight + (requests out).length) ∧ d'.size = d.size ∧
      ∀ p ∈ requests out, Asked d.size p := by
  have hquiet : ∀ {d' : RemoteSource.State} {out}, Device d' inFlight ∧ d'.size = d.size ∧ requests out = [] →
      Device d' (inFlight + (requests out).length) ∧ d'.size = d.size ∧
        ∀ p ∈ requests out, Asked d.size p := by
    rintro d' out ⟨hd, hsize, hnone⟩
    rw [hnone]
    exact ⟨hd, hsize, by simp⟩
  cases e with
  | readData maxSize =>
      cases hcall : d.call with
      | some c => simp [RemoteSource.next, hcall] at hn
      | none =>
          simp only [RemoteSource.next, hcall] at hn
          split_ifs at hn with hend
          · obtain ⟨rfl, rfl⟩ := Prod.mk.inj (Option.some.inj hn)
            exact hquiet ⟨device_ret h _, rfl, rfl⟩
          · obtain ⟨rfl, rfl⟩ := Prod.mk.inj (Option.some.inj hn)
            refine hquiet ⟨⟨fun _ _ => ?_, fun _ p hp => (by cases hp), h.few, ?_⟩, rfl, rfl⟩
            · dsimp only
              omega
            · exact Nat.le_of_add_right_le h.counted
  | look =>
      cases hcall : d.call with
      | none => simp [RemoteSource.next, hcall] at hn
      | some c =>
          obtain ⟨maxSize, phase⟩ := c
          cases phase with
          | asking p => simp [RemoteSource.next, hcall] at hn
          | checking =>
              simp only [RemoteSource.next, hcall] at hn
              exact hquiet (device_look h hcall (by simp [asking, hcall]) hfits (Option.some.inj hn))
          | waiting =>
              simp only [RemoteSource.next, hcall] at hn
              exact hquiet (device_look h hcall (by simp [asking, hcall]) hfits (Option.some.inj hn))
  | readRequested =>
      cases hcall : d.call with
      | none => simp [RemoteSource.next, hcall] at hn
      | some c =>
          obtain ⟨maxSize, phase⟩ := c
          cases phase with
          | checking => simp [RemoteSource.next, hcall] at hn
          | waiting => simp [RemoteSource.next, hcall] at hn
          | asking p =>
              simp only [RemoteSource.next, hcall] at hn
              obtain ⟨rfl, rfl⟩ := Prod.mk.inj (Option.some.inj hn)
              have hasked := h.asks maxSize p hcall
              have hcounted := h.counted
              simp only [asking, hcall] at hcounted
              refine ⟨⟨fun _ _ => h.reading _ hcall, fun _ p hp => (by cases hp), h.few, ?_⟩, rfl, ?_⟩
              · simp only [asking, requests, List.filterMap_cons, List.filterMap_nil, List.length_singleton]
                omega
              · intro q hq
                obtain rfl : q = p := by simpa [requests] using hq
                exact hasked
  | deadline =>
      cases hcall : d.call with
      | none => simp [RemoteSource.next, hcall] at hn
      | some c =>
          obtain ⟨maxSize, phase⟩ := c
          cases phase with
          | checking => simp [RemoteSource.next, hcall] at hn
          | asking p => simp [RemoteSource.next, hcall] at hn
          | waiting =>
              simp only [RemoteSource.next, hcall] at hn
              obtain ⟨rfl, rfl⟩ := Prod.mk.inj (Option.some.inj hn)
              exact hquiet ⟨device_ret h none, rfl, rfl⟩
  | seek pos =>
      cases hcall : d.call with
      | some c => simp [RemoteSource.next, hcall] at hn
      | none =>
          simp only [RemoteSource.next, hcall, Option.isNone_none, if_true] at hn
          obtain ⟨rfl, rfl⟩ := Prod.mk.inj (Option.some.inj hn)
          refine hquiet ⟨⟨fun c hc => (by cases hc), fun _ p hc => (by cases hc), h.few, ?_⟩, rfl, rfl⟩
          exact Nat.le_of_add_right_le h.counted
  | abort =>
      obtain ⟨rfl, rfl⟩ := Prod.mk.inj (Option.some.inj hn)
      exact hquiet ⟨⟨h.reading, h.asks, h.few, h.counted⟩, rfl, rfl⟩

theorem length_le_eraseP (pending : List Pending) (id : UInt32) :
    pending.length ≤ (pending.eraseP fun p => p.id = id).length + 1 := by
  rw [List.length_eraseP]
  split_ifs
  · omega
  · omega

-- An answer strikes out one request at most.
theorem device_deliver {d : RemoteSource.State} {inFlight : Nat} (h : Device d (inFlight + 1))
    (id : UInt32) (offset : Nat) (bytes : MediaFeed.Bytes) :
    Device (RemoteSource.deliver d id offset bytes) inFlight ∧
      (RemoteSource.deliver d id offset bytes).size = d.size := by
  have hcounted := h.counted
  have hunanswered : Device d inFlight := ⟨h.reading, h.asks, h.few, by omega⟩
  unfold RemoteSource.deliver
  cases d.pending.find? fun p => p.id = id with
  | none => exact ⟨hunanswered, rfl⟩
  | some p =>
      dsimp only
      split_ifs
      · exact ⟨⟨h.reading, h.asks, h.few, by omega⟩, rfl⟩
      · have hless := List.length_eraseP_le (p := fun p : Pending => p.id = id) (l := d.pending)
        have hone : d.pending.length ≤ (d.pending.eraseP fun p => p.id = id).length + 1 := by
          rw [List.length_eraseP]
          split_ifs
          · omega
          · omega
        refine ⟨⟨h.reading, h.asks, ?_, ?_⟩, rfl⟩
        · exact List.length_eraseP_le.trans h.few
        · simp only [asking] at hcounted ⊢
          omega

theorem device_fail {d : RemoteSource.State} {inFlight : Nat} (h : Device d (inFlight + 1)) (id : UInt32) :
    Device (RemoteSource.fail d id) inFlight ∧ (RemoteSource.fail d id).size = d.size := by
  have hcounted := h.counted
  have hunanswered : Device d inFlight := ⟨h.reading, h.asks, h.few, by omega⟩
  unfold RemoteSource.fail
  cases d.pending.find? fun p => p.id = id with
  | none => exact ⟨hunanswered, rfl⟩
  | some p =>
      have hone := length_le_eraseP d.pending id
      refine ⟨⟨h.reading, h.asks, ?_, ?_⟩, rfl⟩
      · exact List.length_eraseP_le.trans h.few
      · simp only [asking] at hcounted ⊢
        omega

end Device

section Feed

open MediaFeed (takes servePending)

def NoReady (out : List MediaFeed.Out) : Prop := ∀ n, .ready n ∉ out

-- What the feed answers it no longer holds.
def Settles (waiting : Nat) (after : MediaFeed.State × List MediaFeed.Out) : Prop :=
  after.2.length + after.1.pending.length ≤ waiting ∧ NoReady after.2

theorem settles_servePending (s : MediaFeed.State) : Settles s.pending.length (servePending s) := by
  obtain ⟨done, hperm, hall⟩ := MediaFeed.servePending_answers s
  refine ⟨?_, fun n hn => ?_⟩
  · have hlength := hperm.length_eq
    rw [List.length_append] at hlength
    have hdone := hall.length_eq
    omega
  · obtain ⟨p, -, hp⟩ := MediaFeed.mem_of_forall₂ hall hn
    cases hp

theorem settles_onHttpData (s : MediaFeed.State) : Settles s.pending.length (MediaFeed.onHttpData s) := by
  cases hr : s.reply with
  | none =>
      rw [MediaFeed.onHttpData_none hr]
      exact ⟨by simp, by simp [NoReady]⟩
  | some r =>
      by_cases hok : MediaFeed.replyStartsAtBuffer s r
      · rw [MediaFeed.onHttpData_ok hr hok]
        exact settles_servePending _
      · rw [MediaFeed.onHttpData_refused hr hok]
        exact ⟨by simp [MediaFeed.refuseAll], by simp [MediaFeed.refuseAll, NoReady]⟩

theorem settles_request (s : MediaFeed.State) (id : UInt32) (offset length : Int) :
    Settles (s.pending.length + 1) (MediaFeed.request s id offset length) ∧
      (MediaFeed.request s id offset length).1.size = s.size := by
  by_cases ht : takes s offset length
  · cases hf : s.file with
    | some content =>
        rw [MediaFeed.request_file ht hf]
        refine ⟨⟨by simp [Nat.add_comm], ?_⟩, rfl⟩
        dsimp only
        split_ifs
        · simp [NoReady]
        · simp [NoReady]
    | none =>
        rw [MediaFeed.request_http ht hf]
        dsimp only
        split_ifs
        · have hsettles := settles_servePending (s.await (MediaFeed.asPending s id offset length))
          simp only [MediaFeed.State.await, List.length_append, List.length_singleton] at hsettles ⊢
          exact ⟨hsettles, (MediaFeed.servePending_source _).1⟩
        · exact ⟨⟨by simp [MediaFeed.State.await, MediaFeed.State.streamFrom], by simp [NoReady]⟩, rfl⟩
  · rw [MediaFeed.request_rejected ht]
    exact ⟨⟨by simp [Nat.add_comm], by simp [NoReady]⟩, rfl⟩

-- A step of the feed that is no request opens it, or answers what it held.
theorem feed_next {f f' : MediaFeed.State} {e : MediaFeed.Event} {out : List MediaFeed.Out}
    (he : ∀ id offset length, e ≠ .request id offset length) (hn : MediaFeed.next f e = some (f', out)) :
    (f.size = -1 ∧ ∃ n : Nat, f'.size = n ∧ f'.pending = f.pending ∧ out = [.ready n]) ∨
      f'.size = f.size ∧ Settles f.pending.length (f', out) := by
  have hreply : ∀ {canStep step}, MediaFeed.onReply f canStep step = some (f', out) →
      f'.size = f.size ∧ Settles f.pending.length (f', out) := by
    intro canStep step h
    obtain ⟨r, -, -, rfl, rfl⟩ := MediaFeed.onReply_some h
    exact ⟨rfl, by simp, by simp [NoReady]⟩
  cases e with
  | openFile content =>
      simp only [MediaFeed.next] at hn
      split_ifs at hn with hopen
      obtain ⟨rfl, rfl⟩ := Prod.mk.inj (Option.some.inj hn)
      exact .inl ⟨hopen.1, content.length, rfl, rfl, rfl⟩
  | headAnswered len =>
      simp only [MediaFeed.next] at hn
      split_ifs at hn with hopen
      obtain ⟨rfl, rfl⟩ := Prod.mk.inj (Option.some.inj hn)
      exact .inl ⟨hopen.1, len, rfl, rfl, rfl⟩
  | request id offset length => exact absurd rfl (he id offset length)
  | headersArrive h => exact .inr (hreply hn)
  | bodyArrives chunk => exact .inr (hreply hn)
  | replyEnds => exact .inr (hreply hn)
  | httpData caller =>
      obtain ⟨-, queued, heq⟩ := MediaFeed.next_httpData hn
      have hsettles := settles_onHttpData { f with queued := queued }
      have hsource := MediaFeed.onHttpData_source { f with queued := queued }
      rw [heq] at hsettles hsource
      exact .inr ⟨hsource.1, hsettles⟩
  | replyDeleted =>
      simp only [MediaFeed.next] at hn
      split_ifs at hn
      obtain ⟨rfl, rfl⟩ := Prod.mk.inj (Option.some.inj hn)
      exact .inr ⟨rfl, by simp, by simp [NoReady]⟩

end Feed

section Run

def Bounded (s : State) : Event → Prop
  | .device e => ∀ d, s.device = some d → Fits d e
  | _ => True

-- What the device sends and what it has outstanding are within the feed's limits, and the feed takes
-- each request that reaches it.
structure WithinLimits (r : Reaction State Event Out) (s' : State) : Prop where
  requested : ∀ p : RemoteSource.Pending, .device (.requested p) ∈ r.out →
    ∃ d, r.before.device = some d ∧ p.offset < d.size ∧ 0 < p.length ∧ p.length ≤ kMaxRequest
  outstanding : ∀ d, s'.device = some d → d.pending.length ≤ kMaxPending
  taken : ∀ (p : RemoteSource.Pending) rest, r.event = .takeRequest → r.before.toFeed = p :: rest →
    MediaFeed.takes r.before.feed p.offset p.length

-- Each request on the way, to the feed, with it or as an answer back, is one the device has not struck
-- out yet.
structure Limits (s : State) : Prop where
  device : ∀ d, s.device = some d → (d.size : Int) = s.feed.size ∧ NoReady s.toChild ∧
    Device d (s.feed.pending.length + s.toFeed.length + s.toChild.length) ∧ ∀ p ∈ s.toFeed, Asked d.size p
  before : s.device = none → s.feed.pending = [] ∧ s.toFeed = [] ∧
    (s.toChild = [] ∨ ∃ n : Nat, s.toChild = [.ready n] ∧ s.feed.size = n)

theorem Limits.outstanding {s : State} (h : Limits s) :
    ∀ d, s.device = some d → d.pending.length ≤ kMaxPending :=
  fun d hd => (h.device d hd).2.2.1.few

theorem Device.less {d : RemoteSource.State} {inFlight inFlight' : Nat} (h : Device d inFlight)
    (hle : inFlight' ≤ inFlight) : Device d inFlight' :=
  ⟨h.reading, h.asks, h.few, (Nat.add_le_add_right hle _).trans h.counted⟩

theorem limits_feed {s : State} {e : MediaFeed.Event} {f : MediaFeed.State}
    {feedOut : List MediaFeed.Out} (h : Limits s) (he : ∀ id offset length, e ≠ .request id offset length)
    (hn : MediaFeed.next s.feed e = some (f, feedOut)) :
    Limits { s with feed := f, toChild := s.toChild ++ feedOut } := by
  rcases feed_next he hn with ⟨hclosed, n, hsize, hpending, rfl⟩ | ⟨hsize, hcount, hready⟩
  · refine ⟨fun d hd => ?_, fun hnone => ?_⟩
    · have hopen := (h.device d hd).1
      omega
    · obtain ⟨hheld, hsent, hchild⟩ := h.before hnone
      refine ⟨hpending.trans hheld, hsent, .inr ⟨n, ?_, hsize⟩⟩
      rcases hchild with hchild | ⟨m, -, hm⟩
      · rw [hchild]
        rfl
      · omega
  · dsimp only at hcount hready
    refine ⟨fun d hd => ?_, fun hnone => ?_⟩
    · obtain ⟨hopen, hquiet, hdevice, hasked⟩ := h.device d hd
      refine ⟨hopen.trans hsize.symm, ?_, hdevice.less ?_, hasked⟩
      · intro n hn
        exact (List.mem_append.mp hn).elim (hquiet n) (hready n)
      · simp only [List.length_append]
        omega
    · obtain ⟨hheld, hsent, hchild⟩ := h.before hnone
      rw [hheld, List.length_nil] at hcount
      have hout : feedOut = [] := List.length_eq_zero_iff.mp (by omega)
      have hempty : f.pending = [] := List.length_eq_zero_iff.mp (by omega)
      refine ⟨hempty, hsent, ?_⟩
      dsimp only
      rw [hout, List.append_nil, hsize]
      exact hchild

theorem limits_next {s s' : State} {e : Event} {out : List Out} (h : Limits s) (hbounded : Bounded s e)
    (hn : next s e = some (s', out)) : Limits s' ∧ WithinLimits ⟨s, e, out⟩ s' := by
  have hsilent : ∀ {s' : State} {feedOut : List MediaFeed.Out}, Limits s' → e ≠ .takeRequest →
      Limits s' ∧ WithinLimits ⟨s, e, feedOut.map .feed⟩ s' :=
    fun hlimits hne => ⟨hlimits, ⟨by simp, hlimits.outstanding, fun _ _ heq => absurd heq hne⟩⟩
  cases e with
  | feed e =>
      obtain ⟨f, feedOut, hstep, rfl, rfl⟩ := afterFeed_some (next_feed hn)
      refine hsilent (limits_feed h ?_ hstep) (by simp)
      rintro id offset length rfl
      simp [next] at hn
  | device e =>
      cases hdevice : s.device with
      | none => simp [next, hdevice] at hn
      | some d =>
          simp only [next, hdevice] at hn
          obtain ⟨⟨d', deviceOut⟩, hstep, heq⟩ := Option.map_eq_some_iff.mp hn
          obtain ⟨rfl, rfl⟩ := Prod.mk.inj heq
          obtain ⟨hopen, hquiet, hsound, hasked⟩ := h.device d hdevice
          obtain ⟨hsound', hsize, hrequests⟩ := device_next hsound (hbounded d hdevice) hstep
          have hlimits : Limits { s with device := some d', toFeed := s.toFeed ++ requests deviceOut } := by
            refine ⟨fun d'' hd'' => ?_, fun hnone => by cases hnone⟩
            obtain rfl := Option.some.inj hd''
            refine ⟨hsize ▸ hopen, hquiet, hsound'.less ?_, fun p hp => ?_⟩
            · simp only [List.length_append]
              omega
            · rw [hsize]
              exact (List.mem_append.mp hp).elim (hasked p) (hrequests p)
          refine ⟨hlimits, ⟨fun p hp => ?_, hlimits.outstanding, fun _ _ heq => by cases heq⟩⟩
          have hin : p ∈ requests deviceOut := List.mem_filterMap.mpr ⟨.requested p, by simpa using hp, rfl⟩
          obtain ⟨hoffset, hpos, hlength⟩ := hrequests p hin
          exact ⟨d, hdevice, hoffset, hpos, hlength⟩
  | takeRequest =>
      cases hsent : s.toFeed with
      | nil => simp [next, hsent] at hn
      | cons p rest =>
          simp only [next, hsent] at hn
          obtain ⟨f, feedOut, hstep, rfl, rfl⟩ := afterFeed_some hn
          obtain ⟨⟨hcount, hready⟩, hsize⟩ := settles_request s.feed p.id p.offset p.length
          rw [show MediaFeed.request s.feed p.id p.offset p.length = (f, feedOut) from
            Option.some.inj hstep] at hcount hready hsize
          dsimp only at hcount hready hsize
          have hlimits : Limits { s with toFeed := rest, feed := f, toChild := s.toChild ++ feedOut } := by
            refine ⟨fun d hd => ?_, fun hnone => ?_⟩
            · obtain ⟨hopen, hquiet, hsound, hasked⟩ := h.device d hd
              rw [hsent] at hsound hasked
              refine ⟨hopen.trans hsize.symm, ?_, hsound.less ?_, fun q hq => hasked q (List.mem_cons_of_mem p hq)⟩
              · intro n hn
                exact (List.mem_append.mp hn).elim (hquiet n) (hready n)
              · simp only [List.length_append, List.length_cons]
                omega
            · obtain ⟨-, hnone, -⟩ := h.before hnone
              rw [hsent] at hnone
              cases hnone
          refine ⟨hlimits, ⟨by simp, hlimits.outstanding, ?_⟩⟩
          rintro q rest' - heq
          obtain ⟨rfl, rfl⟩ := List.cons.inj (hsent.symm.trans heq)
          cases hdevice : s.device with
          | none =>
              obtain ⟨-, hnone, -⟩ := h.before hdevice
              rw [hsent] at hnone
              cases hnone
          | some d =>
              obtain ⟨hopen, -, hsound, hasked⟩ := h.device d hdevice
              obtain ⟨hoffset, hpos, hlength⟩ := hasked p (hsent ▸ List.mem_cons_self)
              have hcounted := hsound.counted
              have hfew := hsound.few
              rw [hsent, List.length_cons] at hcounted
              unfold MediaFeed.takes
              dsimp only
              omega
  | takeMessage =>
      cases hchild : s.toChild with
      | nil => simp [next, hchild] at hn
      | cons m rest =>
          simp only [next, hchild] at hn
          obtain ⟨rfl, rfl⟩ := Prod.mk.inj (Option.some.inj hn)
          refine @hsilent _ [] ?_ (by simp)
          cases hdevice : s.device with
          | none =>
              obtain ⟨hheld, hsent, hready⟩ := h.before hdevice
              rw [hchild] at hready
              rcases hready with hready | ⟨n, hready, hsize⟩
              · cases hready
              · obtain ⟨rfl, rfl⟩ := List.cons.inj hready
                refine ⟨fun d hd => ?_, fun _ => ⟨hheld, hsent, .inl rfl⟩⟩
                dsimp only [receive] at hd
                split_ifs at hd with hzero
                obtain rfl := Option.some.inj hd
                refine ⟨?_, by simp [NoReady], ⟨?_, ?_, ?_, ?_⟩, ?_⟩
                · rw [hsize]
                  simp [RemoteSource.create]
                · intro c hc
                  cases hc
                · intro _ p hp
                  cases hp
                · exact Nat.zero_le _
                · simp [hheld, hsent, asking, RemoteSource.create]
                · simp [hsent]
          | some d =>
              obtain ⟨hopen, hquiet, hsound, hasked⟩ := h.device d hdevice
              rw [hchild] at hsound hquiet
              have hrest : NoReady rest := fun n hn => hquiet n (List.mem_cons_of_mem m hn)
              have hone : Device d (s.feed.pending.length + s.toFeed.length + rest.length + 1) :=
                hsound.less (by simp only [List.length_cons]; omega)
              cases m with
              | ready n => exact absurd List.mem_cons_self (hquiet n)
              | data id offset bytes =>
                  obtain ⟨hdelivered, hsize⟩ := device_deliver hone id offset bytes
                  refine ⟨fun d' hd' => ?_, fun hnone => by cases hnone⟩
                  obtain rfl := Option.some.inj hd'
                  exact ⟨hsize ▸ hopen, hrest, hdelivered, hsize ▸ hasked⟩
              | refused id =>
                  obtain ⟨hfailed, hsize⟩ := device_fail hone id
                  refine ⟨fun d' hd' => ?_, fun hnone => by cases hnone⟩
                  obtain rfl := Option.some.inj hd'
                  exact ⟨hsize ▸ hopen, hrest, hfailed, hsize ▸ hasked⟩

end Run

end BATorrent.SandboxedRead
