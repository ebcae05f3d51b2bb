import BATorrent.Ipc.MediaFeed.Content

namespace BATorrent.MediaFeed

open Lib

-- The reply holds bytes the full window has no room for, and the pass that could make room
-- answers nothing and trims nothing.
structure Stuck (s : State) : Prop where
  waiting : s.pending ≠ []
  reply : ∃ r, s.reply = some r ∧ r.connected ∧ r.avail ≠ []
  full : kWindow ≤ s.buf.length
  unanswered : (servePending s).2 = []
  untrimmed : s.trimBuffer.buf = s.buf

section Condition

-- Where a request has been answered enough, at the least.
def Pending.answerEnd (p : Pending) : Nat := p.offset + min p.length kMinAnswer

-- The window that starts here can hold the first bytes of the request.
def Direct (start : Nat) (p : Pending) : Prop :=
  start ≤ p.offset ∧ p.answerEnd ≤ start + kWindow

-- Answering `q` is enough for a trim, and the trimmed window can hold the first bytes of `p`.
def Brings (start : Nat) (q p : Pending) : Prop :=
  start + kWindow / 4 + kKeepBehind ≤ q.answerEnd ∧
    p.answerEnd + kKeepBehind ≤ q.answerEnd + kWindow

-- Each waiting request can be held, or some can and answering any of those brings it in.
-- Or the window reaches the end of the source.
def Reaches (size : Int) (start : Nat) (ps : List Pending) : Prop :=
  (∀ p ∈ ps, start ≤ p.offset ∧
    (Direct start p ∨
      (∃ q ∈ ps, Direct start q) ∧ ∀ q ∈ ps, Direct start q → Brings start q p)) ∨
  size ≤ start + kWindow

-- A reply that has ended is asked for again at one request, with the others behind it.
def RetryReaches (size : Int) (lo hi : Nat) (retriedAt : Option Nat) (ps : List Pending) : Prop :=
  ∀ p rest, retryPoint lo hi retriedAt ps = some (p, rest) → Reaches size p.offset (p :: rest)

-- Wherever a step lets the window start, the requests that wait then are in its reach.
def KeepsReach (s : State) : Event → Prop
  | .request id offset length =>
      takes s offset length → s.file = none →
        let p := asPending s id offset length
        let t := s.await p
        if inBuffer t p ∨ comingSoon t p then
          if s.drained then RetryReaches s.size s.bufStart s.bufEnd s.retriedAt t.pending
          else if served t p then
            Reaches s.size (noteAnswer s p).trimBuffer.bufStart s.pending
          else Reaches s.size t.trimBuffer.bufStart t.pending
        else Reaches s.size p.offset t.pending
  | .httpData _ =>
      ∀ r, s.reply = some r → replyStartsAtBuffer s r → r.finished →
        r.avail.length ≤ kWindow - s.buf.length →
          RetryReaches s.size s.bufStart (s.bufEnd + r.avail.length) s.retriedAt s.pending
  | _ => True

end Condition

section Trim

theorem foldl_min_le (ps : List Pending) (k : Int) :
    ps.foldl (fun keep p => min keep (p.offset : Int)) k ≤ k ∧
      ∀ p ∈ ps, ps.foldl (fun keep p => min keep (p.offset : Int)) k ≤ p.offset := by
  induction ps generalizing k with
  | nil => simp
  | cons p ps ih =>
      obtain ⟨hk, hall⟩ := ih (min k p.offset)
      rw [List.foldl_cons]
      refine ⟨Int.le_trans hk (Int.min_le_left _ _), ?_⟩
      intro q hq
      rcases List.mem_cons.mp hq with rfl | hq
      · exact Int.le_trans hk (Int.min_le_right _ _)
      · exact hall q hq

theorem foldl_min_eq (ps : List Pending) (k : Int) :
    ps.foldl (fun keep p => min keep (p.offset : Int)) k = k ∨
      ∃ p ∈ ps, ps.foldl (fun keep p => min keep (p.offset : Int)) k = p.offset := by
  induction ps generalizing k with
  | nil => exact .inl rfl
  | cons p ps ih =>
      rw [List.foldl_cons]
      rcases ih (min k p.offset) with h | ⟨q, hq, h⟩
      · by_cases hle : k ≤ p.offset
        · exact .inl (h.trans (Int.min_eq_left hle))
        · exact .inr ⟨p, List.mem_cons_self, h.trans (Int.min_eq_right (by omega))⟩
      · exact .inr ⟨q, List.mem_cons_of_mem p hq, h⟩

theorem keepFrom_le_reader (s : State) : s.keepFrom ≤ (s.readerAt : Int) - kKeepBehind :=
  (foldl_min_le s.pending _).1

theorem keepFrom_le_offset {s : State} {p : Pending} (hp : p ∈ s.pending) :
    s.keepFrom ≤ p.offset := (foldl_min_le s.pending _).2 p hp

-- Trimming stops at the first waiting request.
theorem trim_le_offset {s : State} {p : Pending} (hp : p ∈ s.pending)
    (hlo : s.bufStart ≤ p.offset) : s.trimBuffer.bufStart ≤ p.offset := by
  have hkeep := keepFrom_le_offset hp
  rw [trimBuffer_bufStart]
  unfold State.dropCount
  simp only
  split_ifs <;> omega

-- While the reader has not passed the buffer, a trim is all or nothing.
theorem trim_cases {s : State} (hreader : s.readerAt ≤ s.bufEnd) :
    (s.dropCount = 0 ∧ s.keepFrom < s.bufStart + (kWindow / 4 : Nat)) ∨
      (s.bufStart + (kWindow / 4 : Nat) ≤ s.keepFrom ∧ (s.trimBuffer.bufStart : Int) = s.keepFrom) := by
  have hkeep := keepFrom_le_reader s
  rw [trimBuffer_bufStart]
  have hquarter : kWindow / 4 = 4194304 := by decide
  have hbehind : kKeepBehind = 2097152 := by decide
  unfold State.bufEnd at hreader
  unfold State.dropCount
  simp only [hquarter, hbehind] at hkeep ⊢
  split_ifs with hsmall
  · left
    refine ⟨rfl, ?_⟩
    omega
  · right
    omega

end Trim

section Rest

-- What holds between two steps of every run: nothing the buffer could answer waits, and the
-- buffer is as small as trimming makes it.
structure Rest (s : State) : Prop where
  settled : ∀ p ∈ s.pending, served s p = false
  unchecked : s.replyChecked = false → s.buf = []
  window : s.buf.length ≤ kWindow
  reader : s.readerAt ≤ s.bufEnd
  trimmed : s.keepFrom < s.bufStart + (kWindow / 4 : Nat)

theorem rest_initial : Rest .initial where
  settled := by simp [State.initial]
  unchecked _ := rfl
  window := Nat.zero_le _
  reader := le_refl _
  trimmed := by decide

theorem served_trimBuffer {s : State} {p : Pending} (h : served s p = false) :
    served s.trimBuffer p = false := by
  have hend : s.trimBuffer.bufEnd = s.bufEnd := by
    have := dropCount_le s
    simp only [State.bufEnd, trimBuffer_buf, trimBuffer_bufStart, List.length_drop]
    omega
  have hbuffered : buffered s.trimBuffer p = buffered s p := by simp only [buffered, hend]
  have henough : enough s.trimBuffer p = enough s p := by
    simp only [enough, hbuffered]
    rfl
  cases hin : inBuffer s.trimBuffer p with
  | false => simp [served, hin]
  | true =>
      have hin' : inBuffer s p = true := by
        simp only [inBuffer, decide_eq_true_eq, hend, trimBuffer_bufStart] at hin ⊢
        omega
      simp only [served, hin', Bool.true_and] at h
      simp only [served, hin, Bool.true_and, henough, h]

-- What settling needs, and what a pass leaves it.
structure Unsettled (s : State) : Prop where
  unchecked : s.replyChecked = false → s.buf = []
  window : s.buf.length ≤ kWindow
  reader : s.readerAt ≤ s.bufEnd

theorem Unsettled.noted {s t : State} (h : Unsettled s) (ht : Noted s t) (pending : List Pending) :
    Unsettled (t.leave pending) := by
  rcases ht with rfl | ⟨q, hq, rfl⟩
  · exact ⟨h.unchecked, h.window, h.reader⟩
  · refine ⟨h.unchecked, h.window, ?_⟩
    simp only [inBuffer, decide_eq_true_eq] at hq
    show q.offset + buffered s q ≤ s.bufEnd
    simp only [buffered]
    omega

theorem rest_settle {s : State} (h : Unsettled s)
    (hsettled : ∀ p ∈ s.pending, served s p = false) : Rest (settle s) := by
  have hle := dropCount_le s
  have hreader := h.reader
  suffices hrest : Rest s.trimBuffer from
    ⟨hrest.settled, hrest.unchecked, hrest.window, hrest.reader, hrest.trimmed⟩
  refine ⟨fun p hp => served_trimBuffer (hsettled p hp), ?_, ?_, ?_, ?_⟩
  · intro hc
    simp [h.unchecked hc]
  · have hwindow := h.window
    simp only [trimBuffer_buf, List.length_drop]
    omega
  · show s.readerAt ≤ _
    simp only [State.bufEnd, trimBuffer_buf, trimBuffer_bufStart, List.length_drop] at hreader ⊢
    omega
  · show s.keepFrom < _
    rcases trim_cases hreader with ⟨hdrop, hkeep⟩ | ⟨hkeep, hstart⟩
    · rw [trimBuffer_bufStart, hdrop]
      exact hkeep
    · rw [hstart]
      have hquarter : kWindow / 4 = 4194304 := by decide
      omega

theorem rest_streamFrom (s : State) (offset : Nat) : Rest (s.streamFrom offset) := by
  refine ⟨?_, fun _ => rfl, Nat.zero_le _, le_refl _, ?_⟩
  · intro p _
    have hin : inBuffer (s.streamFrom offset) p = false := by
      have hno : ¬ (offset ≤ p.offset ∧ p.offset < offset + 0) := by omega
      exact decide_eq_false hno
    simp [served, hin]
  · have hkeep := keepFrom_le_reader (s.streamFrom offset)
    have hreader : (s.streamFrom offset).readerAt = offset := rfl
    have hstart : (s.streamFrom offset).bufStart = offset := rfl
    have hbehind : kKeepBehind = 2097152 := by decide
    have hquarter : kWindow / 4 = 4194304 := by decide
    omega

theorem inBuffer_of_served {s : State} {p : Pending} (h : served s p = true) :
    inBuffer s p = true := by
  simp only [served, Bool.and_eq_true] at h
  exact h.1

theorem rest_servePending {s : State} (h : Unsettled s) : Rest (servePending s).1 := by
  cases hd : s.drained with
  | false =>
      rcases servePending_undrained s hd with ⟨hnone, hs⟩ | ⟨q, -, hq, -, hs⟩
      · rw [hs]
        exact rest_settle h hnone
      · rw [hs]
        refine rest_settle (h.noted (.inr ⟨q, inBuffer_of_served hq, rfl⟩) _) ?_
        intro p hp
        have hkept := (List.mem_filter.mp hp).2
        exact (Bool.not_eq_true' _).mp hkept
  | true =>
      have hs := servePending_drained s hd
      split at hs
      · obtain ⟨t, ht, hs⟩ := hs
        rw [hs]
        exact rest_settle (h.noted ht []) fun p hp => absurd hp List.not_mem_nil
      · rw [hs]
        exact rest_streamFrom _ _

theorem Rest.readReply {s : State} (h : Rest s) (r : Reply) :
    Unsettled (readReply s.markChecked r) := by
  have hwindow := h.window
  have hreader := h.reader
  simp only [State.bufEnd] at hreader
  refine ⟨?_, ?_, ?_⟩
  · intro hc
    exact Bool.noConfusion hc
  · simp only [MediaFeed.readReply, State.markChecked, List.length_append, List.length_take]
    omega
  · simp only [MediaFeed.readReply, State.markChecked, State.bufEnd, List.length_append, List.length_take]
    omega

theorem rest_onHttpData {s : State} (h : Rest s) : Rest (onHttpData s).1 := by
  cases hr : s.reply with
  | none =>
      rw [onHttpData_none hr]
      exact h
  | some r =>
      by_cases hok : replyStartsAtBuffer s r
      · rw [onHttpData_ok hr hok]
        exact rest_servePending (h.readReply r)
      · rw [onHttpData_refused hr hok]
        -- an unchecked reply has an empty buffer, so the reader is at its start
        have hc : s.replyChecked = false := by
          simp only [replyStartsAtBuffer, Bool.or_eq_true, not_or, Bool.not_eq_true] at hok
          exact hok.1
        refine ⟨by simp [refuseAll], h.unchecked, h.window, h.reader, ?_⟩
        have hkeep := keepFrom_le_reader (refuseAll s r).1
        have hreader : (refuseAll s r).1.readerAt ≤ s.bufStart := by
          have hend := h.reader
          simp only [State.bufEnd, h.unchecked hc, List.length_nil] at hend
          exact hend
        have hstart : (refuseAll s r).1.bufStart = s.bufStart := rfl
        have hbehind : kKeepBehind = 2097152 := by decide
        have hquarter : kWindow / 4 = 4194304 := by decide
        omega

theorem rest_request {s : State} (h : Rest s) (id : UInt32) (offset length : Int) :
    Rest (request s id offset length).1 := by
  by_cases ht : takes s offset length
  · cases hf : s.file with
    | some content =>
        rw [request_file ht hf]
        exact h
    | none =>
        rw [request_http ht hf]
        simp only
        split_ifs
        · exact rest_servePending ⟨h.unchecked, h.window, h.reader⟩
        · exact rest_streamFrom _ _
  · rw [request_rejected ht]
    exact h

theorem rest_next {src : Bytes} {s s' : State} {e : Event} {out : List Out} (hc : Content src s)
    (h : Rest s) (hn : next s e = some (s', out)) : Rest s' := by
  -- before the size is known nothing waits
  have hsize : s.size = -1 → ∀ size file, Rest { s with size := size, file := file } := by
    intro hnew size file
    refine ⟨?_, h.unchecked, h.window, h.reader, h.trimmed⟩
    intro p hp
    obtain ⟨hpos, hle⟩ := hc.pending p hp
    omega
  have hreply : ∀ reply, Rest { s with reply := reply } := fun _ =>
    ⟨h.settled, h.unchecked, h.window, h.reader, h.trimmed⟩
  cases e with
  | openFile content =>
      simp only [next] at hn
      split_ifs at hn with hcond
      obtain ⟨rfl, -⟩ : _ = s' ∧ _ := by simpa using hn
      exact hsize hcond.1 _ _
  | headAnswered len =>
      simp only [next] at hn
      split_ifs at hn with hcond
      obtain ⟨rfl, -⟩ : _ = s' ∧ _ := by simpa using hn
      exact hsize hcond.1 _ _
  | request id offset length =>
      obtain ⟨rfl, -⟩ : _ = s' ∧ _ := by simpa [next, Prod.ext_iff] using hn
      exact rest_request h id offset length
  | headersArrive hd =>
      obtain ⟨r, -, -, rfl, -⟩ := onReply_some hn
      exact hreply _
  | bodyArrives chunk =>
      obtain ⟨r, -, -, rfl, -⟩ := onReply_some hn
      exact hreply _
  | replyEnds =>
      obtain ⟨r, -, -, rfl, -⟩ := onReply_some hn
      exact hreply _
  | httpData caller =>
      obtain ⟨-, queued, hs⟩ := next_httpData hn
      have hkept : Rest { s with queued := queued } :=
        ⟨h.settled, h.unchecked, h.window, h.reader, h.trimmed⟩
      have hdone := rest_onHttpData hkept
      rwa [hs] at hdone
  | replyDeleted =>
      simp only [next] at hn
      split_ifs at hn
      obtain ⟨rfl, -⟩ : _ = s' ∧ _ := by simpa using hn
      exact hreply none

theorem rest_run {src : Bytes} {past : List (Reaction State Event Out)} {s : State}
    (hrun : machine.Run (Honest src) past s) : Content src s ∧ Rest s :=
  hrun.invariant (fun s => Content src s ∧ Rest s) ⟨content_initial, rest_initial⟩
    (fun _ _ _ _ h hhonest hn => ⟨content_next h.1 hhonest hn, rest_next h.1 h.2 hn⟩)

end Rest

section Reach

def InReach (s : State) : Prop :=
  ∀ r, s.reply = some r → r.connected → r.drained = false →
    Reaches s.size s.bufStart s.pending

theorem answerEnd_le (p : Pending) : p.answerEnd ≤ p.offset + kMinAnswer := by
  have := Nat.min_le_right p.length kMinAnswer
  simp only [Pending.answerEnd]
  omega

-- An answer covers what the request needs at the least, and lies in the buffer.
theorem answerEnd_le_of_served {s : State} {q : Pending} (hq : served s q = true)
    (hvalid : q.Valid s.size) :
    q.answerEnd ≤ q.offset + buffered s q ∧ q.offset + buffered s q ≤ s.bufEnd := by
  obtain ⟨hpos, hle⟩ := hvalid
  simp only [served, enough, inBuffer, Bool.and_eq_true, decide_eq_true_eq] at hq
  obtain ⟨hin, henough⟩ := hq
  have hbuf : q.offset + buffered s q ≤ s.bufEnd := by
    simp only [buffered]
    omega
  refine ⟨?_, hbuf⟩
  have := Nat.min_le_left q.length kMinAnswer
  simp only [Pending.answerEnd]
  rcases henough with h | h
  · omega
  · omega

theorem reaches_nil (size : Int) (start : Nat) : Reaches size start [] := .inl (by simp)

-- The step that carries the invariant: when `q` is answered, either the trim brings every
-- other request in, or one that could be held keeps the window where it is.
theorem reaches_answered {s : State} {q : Pending} (h : Unsettled s)
    (hvalid : ∀ p ∈ s.pending, p.Valid s.size) (hreach : Reaches s.size s.bufStart s.pending)
    (hq : q ∈ s.pending) (hserved : served s q = true) {kept : List Pending}
    (hkept : ∀ p ∈ kept, p ∈ s.pending) :
    Reaches s.size ((noteAnswer s q).leave kept).trimBuffer.bufStart kept := by
  have hW : kWindow = 16777216 := by decide
  have hK : kKeepBehind = 2097152 := by decide
  have hM : kMinAnswer = 65536 := by decide
  have hnoted : Noted s (noteAnswer s q) := .inr ⟨q, inBuffer_of_served hserved, rfl⟩
  have hreader := (h.noted hnoted kept).reader
  -- where the window wants to start: behind the reader, or at a waiting request
  have hkeep : ((noteAnswer s q).leave kept).keepFrom =
        ((q.offset + buffered s q : Nat) : Int) - kKeepBehind ∨
      ∃ x ∈ kept, ((noteAnswer s q).leave kept).keepFrom = x.offset := foldl_min_eq kept _
  have hpending : ((noteAnswer s q).leave kept).pending = kept := rfl
  have hstart : ((noteAnswer s q).leave kept).bufStart = s.bufStart := rfl
  generalize (noteAnswer s q).leave kept = t at hreader hkeep hpending hstart ⊢
  have hgrow : s.bufStart ≤ t.trimBuffer.bufStart := hstart ▸ Nat.le_add_right _ _
  rcases hreach with hall | hend
  swap
  · right
    omega
  obtain ⟨hanswer, hbuffer⟩ := answerEnd_le_of_served hserved (hvalid q hq)
  have hlength : s.bufEnd ≤ s.bufStart + kWindow := Nat.add_le_add_left h.window _
  have hoff : ∀ p ∈ kept, t.trimBuffer.bufStart ≤ p.offset := fun p hp =>
    trim_le_offset (hpending ▸ hp) (hstart ▸ (hall p (hkept p hp)).1)
  have hqdirect : Direct s.bufStart q := ⟨(hall q hq).1, by omega⟩
  by_cases hdirect : ∀ p ∈ kept, Direct s.bufStart p
  · left
    intro p hp
    have hhi := (hdirect p hp).2
    exact ⟨hoff p hp, .inl ⟨hoff p hp, by omega⟩⟩
  · push Not at hdirect
    obtain ⟨u, hu, hudirect⟩ := hdirect
    have hbring : ∀ p ∈ s.pending, Direct s.bufStart p → Brings s.bufStart p u :=
      (((hall u (hkept u hu)).2).resolve_left hudirect).2
    have hfar := (hbring q hq hqdirect).1
    left
    rcases trim_cases hreader with ⟨hdrop, hlow⟩ | ⟨hhigh, hat⟩
    · rw [trimBuffer_bufStart, hdrop, Nat.add_zero, hstart]
      rw [hstart] at hlow
      rcases hkeep with hk | ⟨x, hx, hk⟩
      · omega
      · have hxend := answerEnd_le x
        have hxdirect : Direct s.bufStart x := ⟨(hall x (hkept x hx)).1, by omega⟩
        intro p hp
        refine ⟨(hall p (hkept p hp)).1, ?_⟩
        refine (hall p (hkept p hp)).2.imp_right fun hp => ⟨⟨x, hx, hxdirect⟩, ?_⟩
        exact fun y hy => hp.2 y (hkept y hy)
    · intro p hp
      refine ⟨hoff p hp, .inl ⟨hoff p hp, ?_⟩⟩
      by_cases hpdirect : Direct s.bufStart p
      · have := hpdirect.2
        omega
      · have hpbring := (((hall p (hkept p hp)).2).resolve_left hpdirect).2
        have hpq := (hpbring q hq hqdirect).2
        rcases hkeep with hk | ⟨x, hx, hk⟩
        · omega
        · have hxend := answerEnd_le x
          by_cases hxdirect : Direct s.bufStart x
          · have hpx := (hpbring x (hkept x hx) hxdirect).2
            omega
          · have hxlo := (hall x (hkept x hx)).1
            have hxfar : s.bufStart + kWindow < x.answerEnd := by
              by_contra hle
              exact hxdirect ⟨hxlo, by omega⟩
            have hqhi := hqdirect.2
            omega

-- A pass over a window that is already trimmed.
theorem reaches_servePending {s : State} (h : Unsettled s) (hd : s.drained = false)
    (hvalid : ∀ p ∈ s.pending, p.Valid s.size) (hreach : Reaches s.size s.bufStart s.pending)
    (htrimmed : s.keepFrom < s.bufStart + (kWindow / 4 : Nat)) :
    Reaches s.size (servePending s).1.bufStart (servePending s).1.pending := by
  rcases servePending_undrained s hd with ⟨-, hs⟩ | ⟨q, hq, hserved, -, hs⟩
  · rw [hs]
    show Reaches s.size s.trimBuffer.bufStart s.pending
    rcases trim_cases h.reader with ⟨hdrop, -⟩ | ⟨hhigh, -⟩
    · rw [trimBuffer_bufStart, hdrop, Nat.add_zero]
      exact hreach
    · omega
  · rw [hs]
    exact reaches_answered h hvalid hreach hq hserved fun p hp => (List.mem_filter.mp hp).1

theorem inReach_streamFrom {s : State} {offset : Nat}
    (h : Reaches s.size offset s.pending) : InReach (s.streamFrom offset) :=
  fun _ _ _ _ => h

theorem inReach_drained {s : State} (hd : s.drained = true)
    (h : RetryReaches s.size s.bufStart s.bufEnd s.retriedAt s.pending) :
    InReach (servePending s).1 := by
  have hs := servePending_drained s hd
  split at hs
  · obtain ⟨t, -, hs⟩ := hs
    rw [hs]
    exact fun _ _ _ _ => reaches_nil _ _
  · rename_i p rest hp
    rw [hs]
    exact inReach_streamFrom (h p rest hp)

-- A pass does not change the reply unless it connects again.
theorem inReach_undrained {s : State} (hd : s.drained = false)
    (h : ∀ r, s.reply = some r → r.connected →
      Reaches s.size (servePending s).1.bufStart (servePending s).1.pending) :
    InReach (servePending s).1 := by
  rcases servePending_undrained s hd with ⟨-, hs⟩ | ⟨q, -, -, -, hs⟩
  · rw [hs] at h ⊢
    exact fun r hr hcon _ => h r hr hcon
  · rw [hs] at h ⊢
    exact fun r hr hcon _ => h r hr hcon

theorem inReach_onHttpData {src : Bytes} {s : State} (hc : Content src s) (h : Rest s)
    (hreach : InReach s) (caller : Caller) (hkeep : KeepsReach s (.httpData caller)) :
    InReach (onHttpData s).1 := by
  cases hr : s.reply with
  | none =>
      rw [onHttpData_none hr]
      exact hreach
  | some r =>
      by_cases hok : replyStartsAtBuffer s r
      · rw [onHttpData_ok hr hok]
        have hunsettled := h.readReply r
        have hreply : (readReply s.markChecked r).drained =
            (r.finished && (r.avail.drop (kWindow - s.buf.length)).isEmpty) := rfl
        cases hd : (readReply s.markChecked r).drained with
        | true =>
            rw [hreply, Bool.and_eq_true, List.isEmpty_iff, List.drop_eq_nil_iff] at hd
            refine inReach_drained (hreply ▸ by simpa using hd) ?_
            have hend : (readReply s.markChecked r).bufEnd =
                s.bufEnd + r.avail.length := by
              simp only [readReply, State.markChecked, State.bufEnd, List.length_append, List.length_take]
              omega
            rw [hend]
            exact hkeep r hr hok hd.1 hd.2
        | false =>
            refine inReach_undrained hd fun r' hr' hcon => ?_
            obtain rfl : { r with avail := r.avail.drop (kWindow - s.buf.length) } = r' := by
              simpa [readReply, State.markChecked] using hr'
            refine reaches_servePending hunsettled hd hc.pending ?_ h.trimmed
            refine hreach r hr hcon ?_
            -- what is drained stays drained when it is read
            cases hdr : r.drained with
            | false => rfl
            | true =>
                simp only [Reply.drained, Bool.and_eq_true, List.isEmpty_iff] at hdr
                simp [hreply, hdr.1, hdr.2] at hd
      · rw [onHttpData_refused hr hok]
        intro r' hr' hcon
        obtain rfl : r.abort = r' := by simpa [refuseAll] using hr'
        exact absurd hcon Bool.false_ne_true

theorem inReach_request {s : State} (h : Rest s) {id : UInt32} {offset length : Int}
    (hreach : InReach s) (hkeep : KeepsReach s (.request id offset length)) :
    InReach (request s id offset length).1 := by
  by_cases ht : takes s offset length
  · cases hf : s.file with
    | some content =>
        rw [request_file ht hf]
        exact hreach
    | none =>
        have hkeep := hkeep ht hf
        rw [request_http ht hf]
        simp only at hkeep ⊢
        generalize asPending s id offset length = p at hkeep ⊢
        by_cases hstay : inBuffer (s.await p) p = true ∨ comingSoon (s.await p) p = true
        · rw [if_pos hstay] at hkeep ⊢
          cases hd : s.drained with
          | true =>
              rw [if_pos hd] at hkeep
              exact inReach_drained hd hkeep
          | false =>
              rw [if_neg (by simp [hd])] at hkeep
              refine inReach_undrained hd fun r hr hcon => ?_
              rcases servePending_undrained (s.await p) hd with ⟨hnone, hs⟩ | ⟨q, hq, hserved, -, hs⟩
              · have hp := hnone p (List.mem_append_right _ (List.mem_singleton_self p))
                rw [hs]
                rw [if_neg (by simp [hp])] at hkeep
                exact hkeep
              · -- only the new request can be answered
                have hold : ∀ x ∈ s.pending, served (s.await p) x = false := h.settled
                obtain rfl : q = p := by
                  rcases List.mem_append.mp hq with hq | hq
                  · exact absurd (hold q hq) (by simp [hserved])
                  · exact List.mem_singleton.mp hq
                have hleft : (s.await q).pending.filter (fun x => !served (s.await q) x) =
                    s.pending := by
                  show (s.pending ++ [q]).filter _ = _
                  rw [List.filter_append, List.filter_eq_self.mpr, List.filter_eq_nil_iff.mpr]
                  · exact List.append_nil _
                  · intro x hx
                    simp [List.mem_singleton.mp hx, hserved]
                  · intro x hx
                    simp [hold x hx]
                rw [hs, hleft]
                rw [if_pos hserved] at hkeep
                exact hkeep
        · rw [if_neg hstay] at hkeep ⊢
          exact inReach_streamFrom hkeep
  · rw [request_rejected ht]
    exact hreach

theorem inReach_next {src : Bytes} {s s' : State} {e : Event} {out : List Out}
    (hc : Content src s) (h : Rest s) (hreach : InReach s) (hkeep : KeepsReach s e)
    (hn : next s e = some (s', out)) : InReach s' := by
  -- no reply is there before the size is known
  have hsize : s.size = -1 → s.reply = none := by
    intro hnew
    cases hr : s.reply with
    | none => rfl
    | some r =>
        have := (hc.reply r hr).size.1
        omega
  cases e with
  | openFile content =>
      simp only [next] at hn
      split_ifs at hn with hcond
      obtain ⟨rfl, -⟩ : _ = s' ∧ _ := by simpa using hn
      intro r hr
      simp [hsize hcond.1] at hr
  | headAnswered len =>
      simp only [next] at hn
      split_ifs at hn with hcond
      obtain ⟨rfl, -⟩ : _ = s' ∧ _ := by simpa using hn
      intro r hr
      simp [hsize hcond.1] at hr
  | request id offset length =>
      obtain ⟨rfl, -⟩ : _ = s' ∧ _ := by simpa [next, Prod.ext_iff] using hn
      exact inReach_request h hreach hkeep
  | headersArrive hd =>
      obtain ⟨r, hr, -, rfl, -⟩ := onReply_some hn
      rintro _ ⟨⟩ hcon hdr
      exact hreach r hr hcon hdr
  | bodyArrives chunk =>
      obtain ⟨r, hr, hcan, rfl, -⟩ := onReply_some hn
      rintro _ ⟨⟩ hcon -
      refine hreach r hr hcon ?_
      simp only [Bool.and_eq_true, Bool.not_eq_true'] at hcan
      simp [Reply.drained, hcan.1]
  | replyEnds =>
      obtain ⟨r, hr, hcan, rfl, -⟩ := onReply_some hn
      rintro _ ⟨⟩ hcon -
      refine hreach r hr hcon ?_
      simp only [Bool.not_eq_true'] at hcan
      simp [Reply.drained, hcan]
  | httpData caller =>
      obtain ⟨-, queued, hs⟩ := next_httpData hn
      have hcontent := content_frame hc s.retriedAt s.pull s.readerAt s.pending queued hc.pending
      have hrest : Rest { s with queued := queued } :=
        ⟨h.settled, h.unchecked, h.window, h.reader, h.trimmed⟩
      have hdone := inReach_onHttpData hcontent hrest hreach caller hkeep
      rwa [hs] at hdone
  | replyDeleted =>
      simp only [next] at hn
      split_ifs at hn
      obtain ⟨rfl, -⟩ : _ = s' ∧ _ := by simpa using hn
      intro r hr
      simp at hr

end Reach

section Stuck

-- What a full window cannot answer lies out of its reach.
theorem served_of_direct {s : State} {p : Pending} (hvalid : p.Valid s.size)
    (hfull : kWindow ≤ s.buf.length) (hp : Direct s.bufStart p) : served s p = true := by
  obtain ⟨hpos, -⟩ := hvalid
  obtain ⟨hlo, hhi⟩ := hp
  have hM : kMinAnswer = 65536 := by decide
  simp only [Pending.answerEnd] at hhi
  rw [served, Bool.and_eq_true]
  refine ⟨decide_eq_true ⟨hlo, ?_⟩, decide_eq_true (.inl ?_)⟩
  · simp only [State.bufEnd]
    omega
  · simp only [buffered, State.bufEnd]
    omega

theorem not_stuck {src : Bytes} {s : State} (hc : Content src s) (h : Rest s)
    (hreach : InReach s) : ¬ Stuck s := by
  intro hstuck
  obtain ⟨r, hr, hcon, havail⟩ := hstuck.reply
  have hundrained : r.drained = false := by simp [Reply.drained, havail]
  have hnonempty : 0 < r.avail.length := List.length_pos_iff.mpr havail
  have hW : kWindow = 16777216 := by decide
  have hfull := hstuck.full
  rcases hreach r hr hcon hundrained with hall | hend
  · -- some request can be held, and a full window answers it
    have hdirect : ∃ p ∈ s.pending, Direct s.bufStart p := by
      obtain ⟨p, hp⟩ := List.exists_mem_of_ne_nil _ hstuck.waiting
      rcases (hall p hp).2 with hd | ⟨hq, -⟩
      · exact ⟨p, hp, hd⟩
      · exact hq
    obtain ⟨p, hp, hpd⟩ := hdirect
    have hserved := served_of_direct (hc.pending p hp) hfull hpd
    have hd : s.drained = false := by simp [State.drained, hr, hundrained]
    rcases servePending_undrained s hd with ⟨hnone, -⟩ | ⟨q, -, -, hout, -⟩
    · simp [hnone p hp] at hserved
    · exact hout hstuck.unanswered
  · -- the window holds the rest of the source, so nothing is left to arrive
    have hcont := hc.reply r hr
    have hchecked : s.replyChecked = true := by
      by_contra hno
      have hempty := h.unchecked (by simpa using hno)
      simp only [hempty, List.length_nil] at hfull
      omega
    obtain ⟨hd, start, -, -, hpre, -⟩ := hcont.read hchecked
    have hle := hpre.length_le
    simp only [List.length_append, List.length_drop] at hle
    have hsize := hcont.size.1
    omega

variable {src : Bytes} {past : List (Reaction State Event Out)} {s : State}

theorem run_inReach (hrun : machine.Run (fun s e => Honest src s e ∧ KeepsReach s e) past s) :
    InReach s := by
  have hall := hrun.invariant (fun s => (Content src s ∧ Rest s) ∧ InReach s)
    ⟨⟨content_initial, rest_initial⟩, fun r hr => by simp [machine, State.initial] at hr⟩
    (fun s e s' out h hguard hn =>
      ⟨⟨content_next h.1.1 hguard.1 hn, rest_next h.1.1 h.1.2 hn⟩,
        inReach_next h.1.1 h.1.2 h.2 hguard.2 hn⟩)
  exact hall.2

end Stuck

section Runs

-- The reader took 1 MB of a full 16 MB window, then asked for what lies at 17 MB.
def wedged (window more : Bytes) : State where
  size := 33554432
  file := none
  reply := some
    { serial := 0
      requested := 0
      headers := some ⟨200, []⟩
      arrived := window.length + more.length
      avail := more
      finished := false
      connected := true }
  replyChecked := true
  retriedAt := none
  pull := true
  buf := window
  bufStart := 0
  readerAt := 1048576
  pending := [⟨2, 17825792, 65536⟩]
  queued := 0
  made := 1

theorem stuck_wedged {window more : Bytes} (hwindow : window.length = 16777216)
    (hmore : more ≠ []) : Stuck (wedged window more) := by
  have hdrained : (wedged window more).drained = false := by
    simp [State.drained, Reply.drained, wedged]
  have hserved : served (wedged window more) ⟨2, 17825792, 65536⟩ = false := by
    simp [served, inBuffer, wedged, State.bufEnd, hwindow]
  refine ⟨by simp [wedged], ⟨_, rfl, rfl, hmore⟩, ?_, ?_, ?_⟩
  · exact hwindow.ge
  · rcases servePending_undrained _ hdrained with ⟨-, hs⟩ | ⟨q, hq, hq', -, -⟩
    · rw [hs]
    · obtain rfl : q = ⟨2, 17825792, 65536⟩ := List.mem_singleton.mp hq
      simp [hserved] at hq'
  · have hdrop : (wedged window more).dropCount = 0 := by
      have hkeep : (wedged window more).keepFrom = -1048576 := rfl
      have hstart : (wedged window more).bufStart = 0 := rfl
      have hbuf : (wedged window more).buf.length = 16777216 := hwindow
      rw [State.dropCount, hkeep, hstart, hbuf]
      decide
    simp [hdrop]

-- Its first request, while the reply comes in.
def streaming (headers : Option Headers) (window : Bytes) : State :=
  { wedged [] [] with
    reply := some
      { serial := 0
        requested := 0
        headers := headers
        arrived := window.length
        avail := window
        finished := false
        connected := true }
    replyChecked := false
    pull := false
    readerAt := 0
    pending := [⟨1, 0, 1048576⟩] }

-- The reader after its first megabyte, with the window full.
def filled (window more : Bytes) : State :=
  { wedged window more with pull := false, pending := [] }

theorem next_streaming (headers : Headers) (window : Bytes) :
    next (streaming (some headers) []) (.bodyArrives window) =
      some (streaming (some headers) window, []) := by
  simp [next, onReply, streaming]

theorem onHttpData_streaming {window : Bytes} (hwindow : window.length = 16777216) :
    onHttpData (streaming (some ⟨200, []⟩) window) =
      (filled window [], [.data 1 0 (window.take 1048576)]) := by
  have hW : kWindow = 16777216 := by decide
  have hread : onHttpData (streaming (some ⟨200, []⟩) window) =
      servePending { filled window [] with readerAt := 0, pending := [⟨1, 0, 1048576⟩] } := by
    rw [onHttpData_ok rfl rfl]
    have htake : window.take 16777216 = window := List.take_of_length_le (by omega)
    have hdrop : window.drop 16777216 = [] := List.drop_eq_nil_of_le (by omega)
    simp [readReply, State.markChecked, streaming, filled, wedged, hW, htake, hdrop]
  have hkeep : max (0 : Int) (min (-1048576) 16777216) = 0 := by decide
  rw [hread]
  simp [servePending, serveLoop, Served.after, inBuffer, enough, answer, buffered, State.bufEnd,
    State.drained, Reply.drained, settle, State.trimBuffer, State.dropCount, State.keepFrom,
    filled, wedged, hwindow, hW, kMinAnswer, kKeepBehind, hkeep]

theorem request_filled {window : Bytes} (hwindow : window.length = 16777216) (more : Bytes) :
    request (filled window more) 2 17825792 65536 = (wedged window more, []) := by
  have hW : kWindow = 16777216 := by decide
  have htakes : takes (filled window more) 17825792 65536 := by
    simp [takes, filled, wedged, kMaxRequest, kMaxPending]
  have hkeep : max (0 : Int) (min (-1048576) (min 17825792 16777216)) = 0 := by decide
  have hcut : (min (65536 : Int) 15728640).toNat = 65536 := by decide
  rw [request_http htakes rfl]
  simp [asPending, inBuffer, comingSoon, State.await, servePending, serveLoop, State.bufEnd,
    State.drained, Reply.drained, settle, State.trimBuffer, State.dropCount, State.keepFrom,
    filled, wedged, hwindow, hW, kNearAhead, kKeepBehind, hkeep, hcut]

theorem take_one_ne_nil {rest : Bytes} (hrest : rest.length = 16777216) : rest.take 1 ≠ [] := by
  intro hnil
  rcases List.take_eq_nil_iff.mp hnil with h | rfl
  · omega
  · simp at hrest

theorem wedged_run {window rest : Bytes} (hwindow : window.length = 16777216)
    (hrest : rest.length = 16777216) :
    ∃ past, machine.Run (Honest (window ++ rest)) past (wedged window (rest.take 1)) := by
  have hcarries : ∀ start, Headers.Carries ⟨200, []⟩ start → start = 0 := by
    rintro start ⟨⟩
    rfl
  have hsized : machine.Run (Honest (window ++ rest)) _
      { State.initial with size := 33554432 } :=
    Machine.Run.init.extend (Event.headAnswered 33554432) (by simp [Honest, hwindow, hrest]) rfl
  have hasked : machine.Run (Honest (window ++ rest)) _ (streaming none []) :=
    hsized.extend (.request 1 0 1048576) trivial rfl
  have hanswered : machine.Run (Honest (window ++ rest)) _ (streaming (some ⟨200, []⟩) []) :=
    hasked.extend (.headersArrive ⟨200, []⟩) (by simp [Honest]) rfl
  have hchunk : Honest (window ++ rest) (streaming (some ⟨200, []⟩) []) (.bodyArrives window) := by
    rintro r h start ⟨⟩ ⟨⟩ hcar
    obtain rfl := hcarries start hcar
    exact List.prefix_append _ _
  have harrived := hanswered.extend (.bodyArrives window) hchunk (next_streaming _ window)
  have hread := harrived.extend (.httpData .readyRead) trivial
    (congrArg some (onHttpData_streaming hwindow))
  have hnext : Honest (window ++ rest) (filled window []) (.bodyArrives (rest.take 1)) := by
    rintro r h start ⟨⟩ ⟨⟩ hcar
    obtain rfl := hcarries start hcar
    simp [List.take_prefix]
  have harrives : next (filled window []) (.bodyArrives (rest.take 1)) =
      some (filled window (rest.take 1), []) := by
    simp [next, onReply, filled, wedged]
  have hmore := hread.extend (.bodyArrives (rest.take 1)) hnext harrives
  have hrequest := request_filled hwindow (rest.take 1)
  exact ⟨_, hmore.extend (.request 2 17825792 65536) trivial (congrArg some hrequest)⟩

def wedgeSource : Bytes := List.replicate 16777216 0 ++ List.replicate 16777216 0

end Runs

end BATorrent.MediaFeed
