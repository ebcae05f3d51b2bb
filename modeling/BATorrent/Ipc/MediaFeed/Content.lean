import BATorrent.Ipc.MediaFeed.Serve

namespace BATorrent.MediaFeed

open Lib

section Server

-- A partial reply says where it starts.
def contentRangeText (start : Nat) (tail : List Char) : List Char :=
  rangeUnit ++ Nat.toDigits 10 start ++ '-' :: tail

-- Where the body of a reply with these headers starts in the source.
inductive Headers.Carries : Headers → Nat → Prop where
  | whole (range : List Char) : Carries ⟨200, range⟩ 0
  | part (start : Nat) (tail : List Char) : Carries ⟨206, contentRangeText start tail⟩ start

-- A server of `src`: it may cut its replies short and ignore the range, but the bytes it
-- sends are the ones its headers announce.
def Honest (src : Bytes) (s : State) : Event → Prop
  | .openFile content => content = src
  | .headAnswered len => len = src.length
  | .headersArrive h => h.status = 206 → ∃ start, h.Carries start ∧ start < src.length
  | .bodyArrives chunk =>
      ∀ r h start, s.reply = some r → r.headers = some h → h.Carries start →
        chunk <+: src.drop (start + r.arrived)
  | _ => True

theorem idxOf?_contentRangeText (start : Nat) (tail : List Char) :
    (contentRangeText start tail).idxOf? '-' = some (6 + (Nat.toDigits 10 start).length) := by
  have hno : '-' ∉ rangeUnit ++ Nat.toDigits 10 start := by
    intro h
    rcases List.mem_append.mp h with h | h
    · revert h
      decide
    · have := Nat.isDigit_of_mem_toDigits (by decide) (by decide) h
      revert this
      decide
  rw [contentRangeText, Text.idxOf?_append_cons hno, List.length_append]
  rfl

theorem rangeStart_contentRangeText {start : Nat} (h : start < 2 ^ 63) (tail : List Char) :
    rangeStart (contentRangeText start tail) = some (start : Int) := by
  have hpos : 0 < (Nat.toDigits 10 start).length := Nat.length_toDigits_pos
  have hstarts : rangeUnit.isPrefixOf (contentRangeText start tail) = true := by
    rw [List.isPrefixOf_iff_prefix, contentRangeText, List.append_assoc]
    exact List.prefix_append _ _
  have hmid : ((contentRangeText start tail).drop 6).take
      (6 + (Nat.toDigits 10 start).length - 6) = Nat.toDigits 10 start := by
    rw [contentRangeText, List.append_assoc, List.drop_left' (by decide)]
    exact List.take_left' (by omega)
  rw [rangeStart, idxOf?_contentRangeText]
  simp only
  rw [if_pos ⟨hstarts, by omega⟩, hmid, Text.toLongLong_toDigits h]

theorem contentRangeText_start {a b : Nat} {s t : List Char}
    (h : contentRangeText a s = contentRangeText b t) : a = b := by
  have hdash := congrArg (fun range => range.idxOf? '-') h
  simp only [idxOf?_contentRangeText, Option.some.injEq] at hdash
  simp only [contentRangeText, List.append_assoc] at h
  have hdigits := List.append_inj_left (List.append_cancel_left h) (by omega)
  have ha : Nat.ofDigitChars 10 (Nat.toDigits 10 a) 0 = a :=
    Nat.ofDigitChars_toDigits (by decide) (by decide)
  rw [← ha, hdigits, Nat.ofDigitChars_toDigits (by decide) (by decide)]

-- Headers announce one start.
theorem Headers.Carries.unique {h : Headers} {a b : Nat} (ha : h.Carries a) (hb : h.Carries b) :
    a = b := by
  cases ha with
  | whole range =>
      cases hb
      rfl
  | part a s =>
      generalize hh : (⟨206, contentRangeText a s⟩ : Headers) = h at hb
      cases hb with
      | whole range => simp at hh
      | part b t => exact contentRangeText_start (Headers.mk.inj hh).2

-- The check on the headers is right about where the body starts.
theorem Headers.Carries.eq_of_startAt {h : Headers} {start bufStart : Nat}
    (hc : h.Carries start) (hlt : start < 2 ^ 63) (hok : h.startAt bufStart) :
    start = bufStart := by
  cases hc with
  | whole range =>
      simp only [Headers.startAt] at hok
      exact (by simpa using hok : bufStart = 0).symm
  | part start tail =>
      simp only [Headers.startAt, if_true, rangeStart_contentRangeText hlt,
        Option.some.injEq, decide_eq_true_eq] at hok
      exact Int.ofNat.inj hok

end Server

section Invariant

variable (src : Bytes)

-- What is known of a reply: before the check the buffer is empty and nothing was read,
-- after it the buffer and the unread bytes are one stretch of the source.
structure ReplyContent (s : State) (r : Reply) : Prop where
  size : s.size = src.length ∧ src.length < 2 ^ 63
  headers : ∀ h, r.headers = some h → h.status = 206 → ∃ start, h.Carries start ∧ start < src.length
  early : r.headers = none → r.avail = [] ∧ r.arrived = 0
  unread : s.replyChecked = false → s.buf = [] ∧
    ∀ h start, r.headers = some h → h.Carries start →
      r.avail <+: src.drop start ∧ r.arrived = r.avail.length
  read : s.replyChecked = true → ∃ h start, r.headers = some h ∧ h.Carries start ∧
    s.buf ++ r.avail <+: src.drop s.bufStart ∧ s.bufEnd + r.avail.length = start + r.arrived

def Pending.Valid (size : Int) (p : Pending) : Prop :=
  0 < p.length ∧ (p.offset + p.length : Int) ≤ size

structure Content (s : State) : Prop where
  size : s.size = -1 ∨ s.size = src.length ∧ src.length < 2 ^ 63
  file : ∀ content, s.file = some content → content = src
  pending : ∀ p ∈ s.pending, p.Valid s.size
  buf : s.buf <+: src.drop s.bufStart
  reply : ∀ r, s.reply = some r → ReplyContent src s r

variable {src}

theorem content_initial : Content src .initial where
  size := .inl rfl
  file := by simp [State.initial]
  pending := by simp [State.initial]
  buf := by simp [State.initial]
  reply := by simp [State.initial]

theorem prefix_drop_append {a b l : Bytes} {i : Nat} (ha : a <+: l.drop i)
    (hb : b <+: l.drop (i + a.length)) : a ++ b <+: l.drop i := by
  obtain ⟨t, ht⟩ := ha
  obtain ⟨u, hu⟩ := hb
  refine ⟨u, ?_⟩
  have hdrop : l.drop (i + a.length) = t := by
    rw [← List.drop_drop, ← ht, List.drop_left]
  rw [List.append_assoc, hu, hdrop, ht]

theorem prefix_drop_drop {a l : Bytes} {i : Nat} (ha : a <+: l.drop i) (d : Nat) :
    a.drop d <+: l.drop (i + d) := by
  rw [← List.drop_drop]
  exact ha.drop d

-- The bookkeeping fields are free.
theorem content_frame {s : State} (h : Content src s) (retriedAt : Option Nat) (pull : Bool)
    (readerAt : Nat) (pending : List Pending) (queued : Nat)
    (hp : ∀ p ∈ pending, p.Valid s.size) :
    Content src { s with
      retriedAt := retriedAt
      pull := pull
      readerAt := readerAt
      pending := pending
      queued := queued } :=
  ⟨h.size, h.file, hp, h.buf, fun r hr =>
    let c := h.reply r hr
    ⟨c.size, c.headers, c.early, c.unread, c.read⟩⟩

theorem content_streamFrom {s : State} (h : Content src s)
    (hsize : s.size = src.length ∧ src.length < 2 ^ 63) (offset : Nat) :
    Content src (s.streamFrom offset) where
  size := h.size
  file := h.file
  pending := h.pending
  buf := List.nil_prefix
  reply := by
    rintro r hr
    obtain rfl : Reply.get s.made offset = r := by simpa [State.streamFrom] using hr
    refine ⟨hsize, ?_, fun _ => ⟨rfl, rfl⟩, fun _ => ⟨rfl, ?_⟩, ?_⟩
    · simp [Reply.get]
    · simp [Reply.get]
    · simp [State.streamFrom]

theorem content_passed {s s' : State} (h : Content src s) (hp : Passed s s')
    (hsub : ∀ p ∈ s'.pending, p ∈ s.pending) : Content src s' := by
  cases hp with
  | settled d hd pending retriedAt readerAt pull queued =>
      refine ⟨h.size, h.file, fun p hp => h.pending p (hsub p hp), prefix_drop_drop h.buf d, ?_⟩
      intro r hr
      have hcont := h.reply r hr
      refine ⟨hcont.size, hcont.headers, hcont.early, ?_, ?_⟩
      · intro hc
        obtain ⟨hbuf, hrest⟩ := hcont.unread hc
        exact ⟨by simp [hbuf], hrest⟩
      · intro hc
        obtain ⟨hd', start, hh, hcar, hpre, hend⟩ := hcont.read hc
        refine ⟨hd', start, hh, hcar, ?_, ?_⟩
        · have := prefix_drop_drop hpre d
          rwa [List.drop_append_of_le_length hd] at this
        · simp only [State.bufEnd, List.length_drop] at hend ⊢
          omega
  | retried p hp pending =>
      have hsize : s.size = src.length ∧ src.length < 2 ^ 63 := by
        obtain ⟨hpos, hle⟩ := h.pending p hp
        refine h.size.resolve_left fun hno => ?_
        omega
      have hkept : Content src { s with retriedAt := some p.offset, pending := pending } :=
        content_frame h _ _ _ _ _ fun q hq => h.pending q (hsub q hq)
      exact content_streamFrom hkept hsize p.offset

theorem content_servePending {s : State} (h : Content src s) :
    Content src (servePending s).1 := by
  obtain ⟨done, hperm, -⟩ := servePending_answers s
  refine content_passed h (servePending_passed s) fun p hp => ?_
  exact hperm.mem_iff.mpr (List.mem_append_right done hp)

theorem startAt_iff_carries {h : Headers} {bufStart : Nat} (hlt : src.length < 2 ^ 63)
    (hhonest : h.status = 206 → ∃ start, h.Carries start ∧ start < src.length)
    (hok : h.startAt bufStart) : h.Carries bufStart := by
  by_cases hs : h.status = 206
  · obtain ⟨start, hc, hstart⟩ := hhonest hs
    rwa [← hc.eq_of_startAt (by omega) hok]
  · simp only [Headers.startAt, hs, if_false, decide_eq_true_eq] at hok
    obtain ⟨hstatus, rfl⟩ := hok
    cases h with
    | mk status range =>
        obtain rfl : status = 200 := hstatus
        exact .whole range

-- Whether checked before or now, what is unread continues the buffer.
theorem content_checked {s : State} {r : Reply} (hcont : ReplyContent src s r)
    (hok : replyStartsAtBuffer s r) :
    ∃ h start, r.headers = some h ∧ h.Carries start ∧ s.buf ++ r.avail <+: src.drop s.bufStart ∧
      s.bufEnd + r.avail.length = start + r.arrived := by
  cases hc : s.replyChecked with
  | true => exact hcont.read hc
  | false =>
      obtain ⟨hbuf, hun⟩ := hcont.unread hc
      cases hh : r.headers with
      | none => simp [replyStartsAtBuffer, hc, hh] at hok
      | some h =>
          have hstart : h.startAt s.bufStart := by
            simpa [replyStartsAtBuffer, hc, hh] using hok
          have hcar := startAt_iff_carries hcont.size.2 (hcont.headers h hh) hstart
          obtain ⟨hpre, harr⟩ := hun h _ hh hcar
          refine ⟨h, s.bufStart, rfl, hcar, by simpa [hbuf] using hpre, ?_⟩
          simp [State.bufEnd, hbuf, harr]

theorem content_readReply {s : State} (h : Content src s) {r : Reply} (hr : s.reply = some r)
    (hok : replyStartsAtBuffer s r) :
    Content src (readReply s.markChecked r) := by
  have hcont := h.reply r hr
  obtain ⟨hd, start, hh, hcar, hpre, hend⟩ := content_checked hcont hok
  refine ⟨h.size, h.file, h.pending, ?_, ?_⟩
  · refine List.IsPrefix.trans ?_ hpre
    exact (List.prefix_append_right_inj s.buf).mpr (List.take_prefix _ _)
  · rintro r' hr'
    obtain rfl : { r with avail := r.avail.drop (kWindow - s.buf.length) } = r' := by
      simpa [readReply, State.markChecked] using hr'
    refine ⟨hcont.size, hcont.headers, ?_, ?_, ?_⟩
    · intro hnone
      simp [hh] at hnone
    · intro hc
      simp [readReply, State.markChecked] at hc
    · intro _
      refine ⟨hd, start, hh, hcar, ?_, ?_⟩
      · simpa [readReply, State.markChecked, List.append_assoc] using hpre
      · simp only [readReply, State.markChecked, State.bufEnd, List.length_append,
          List.length_take, List.length_drop] at hend ⊢
        omega

theorem content_refuseAll {s : State} (h : Content src s) {r : Reply} (hr : s.reply = some r) :
    Content src (refuseAll s r).1 := by
  have hcont := h.reply r hr
  refine ⟨h.size, h.file, by simp [refuseAll], h.buf, ?_⟩
  rintro r' hr'
  obtain rfl : r.abort = r' := by simpa [refuseAll] using hr'
  exact ⟨hcont.size, hcont.headers, hcont.early, hcont.unread, hcont.read⟩

theorem content_onHttpData {s : State} (h : Content src s) : Content src (onHttpData s).1 := by
  cases hr : s.reply with
  | none =>
      rw [onHttpData_none hr]
      exact h
  | some r =>
      by_cases hok : replyStartsAtBuffer s r
      · rw [onHttpData_ok hr hok]
        exact content_servePending (content_readReply h hr hok)
      · rw [onHttpData_refused hr hok]
        exact content_refuseAll h hr

theorem asPending_valid {s : State} {offset length : Int} (id : UInt32)
    (h : takes s offset length) : (asPending s id offset length).Valid s.size := by
  simp only [takes, not_or, not_le] at h
  simp only [Pending.Valid, asPending]
  omega

theorem content_await {s : State} (h : Content src s) {p : Pending} (hp : p.Valid s.size) :
    Content src (s.await p) := by
  refine content_frame h s.retriedAt s.pull s.readerAt _ s.queued ?_
  intro q hq
  rcases List.mem_append.mp hq with hq | hq
  · exact h.pending q hq
  · rwa [List.mem_singleton.mp hq]

theorem content_request {s : State} (h : Content src s) (id : UInt32) (offset length : Int) :
    Content src (request s id offset length).1 := by
  by_cases ht : takes s offset length
  · have hvalid := asPending_valid id ht
    cases hf : s.file with
    | some content =>
        rw [request_file ht hf]
        exact h
    | none =>
        have hkept := content_await h hvalid
        rw [request_http ht hf]
        simp only
        split_ifs
        · exact content_servePending hkept
        · refine content_streamFrom hkept ?_ _
          refine h.size.resolve_left fun hno => ?_
          obtain ⟨hpos, hle⟩ := hvalid
          omega
  · rw [request_rejected ht]
    exact h

-- A step of the network changes what is known of the reply only.
theorem content_reply {s : State} (h : Content src s) {r : Reply} (hr : ReplyContent src s r) :
    Content src { s with reply := some r } := by
  refine ⟨h.size, h.file, h.pending, h.buf, ?_⟩
  rintro r' hr'
  obtain rfl : r = r' := by simpa using hr'
  exact ⟨hr.size, hr.headers, hr.early, hr.unread, hr.read⟩

theorem content_sized {s : State} (h : Content src s) (hnew : s.size = -1)
    (hlt : src.length < 2 ^ 63) {file : Option Bytes} (hfile : ∀ content, file = some content → content = src) :
    Content src { s with size := src.length, file := file } := by
  refine ⟨.inr ⟨rfl, hlt⟩, hfile, ?_, h.buf, ?_⟩
  · intro p hp
    obtain ⟨hpos, hle⟩ := h.pending p hp
    omega
  · intro r hr
    have := (h.reply r hr).size.1
    omega

theorem content_next {s s' : State} {e : Event} {out : List Out} (h : Content src s)
    (hhonest : Honest src s e) (hn : next s e = some (s', out)) : Content src s' := by
  cases e with
  | openFile content =>
      obtain rfl : content = src := hhonest
      simp only [next] at hn
      split_ifs at hn with hc
      obtain ⟨rfl, -⟩ : _ = s' ∧ _ := by simpa using hn
      refine content_sized h hc.1 hc.2 ?_
      rintro _ ⟨⟩
      rfl
  | headAnswered len =>
      obtain rfl : len = src.length := hhonest
      simp only [next] at hn
      split_ifs at hn with hc
      obtain ⟨rfl, -⟩ : _ = s' ∧ _ := by simpa using hn
      exact content_sized h hc.1 hc.2.2 h.file
  | request id offset length =>
      obtain ⟨rfl, -⟩ : _ = s' ∧ _ := by simpa [next, Prod.ext_iff] using hn
      exact content_request h id offset length
  | headersArrive hd =>
      obtain ⟨r, hr, hcan, rfl, -⟩ := onReply_some hn
      have hnone : r.headers = none := by
        simp only [Bool.and_eq_true, Option.isNone_iff_eq_none] at hcan
        exact hcan.2
      have c := h.reply r hr
      obtain ⟨havail, harrived⟩ := c.early hnone
      refine content_reply h ⟨c.size, ?_, ?_, ?_, ?_⟩
      · rintro hd' ⟨⟩
        exact hhonest
      · intro hno
        simp at hno
      · intro hc
        exact ⟨(c.unread hc).1, fun hd' start _ _ => by simp [havail, harrived]⟩
      · intro hc
        obtain ⟨hd', start, hh, -⟩ := c.read hc
        simp [hnone] at hh
  | bodyArrives chunk =>
      obtain ⟨r, hr, hcan, rfl, -⟩ := onReply_some hn
      have c := h.reply r hr
      refine content_reply h ⟨c.size, c.headers, ?_, ?_, ?_⟩
      · intro hno
        have hno' : r.headers = none := hno
        simp [hno'] at hcan
      · intro hc
        refine ⟨(c.unread hc).1, fun hd start hh hcar => ?_⟩
        obtain ⟨hpre, harr⟩ := (c.unread hc).2 hd start hh hcar
        have hchunk := hhonest r hd start hr hh hcar
        rw [harr] at hchunk
        exact ⟨prefix_drop_append hpre hchunk, by simp [harr]⟩
      · intro hc
        obtain ⟨hd, start, hh, hcar, hpre, hend⟩ := c.read hc
        have hchunk := hhonest r hd start hr hh hcar
        refine ⟨hd, start, hh, hcar, ?_, ?_⟩
        · rw [← List.append_assoc]
          refine prefix_drop_append hpre ?_
          have hat : s.bufStart + (s.buf ++ r.avail).length = start + r.arrived := by
            simp only [State.bufEnd, List.length_append] at hend ⊢
            omega
          rwa [hat]
        · simp only [State.bufEnd, List.length_append] at hend ⊢
          omega
  | replyEnds =>
      obtain ⟨r, hr, -, rfl, -⟩ := onReply_some hn
      have c := h.reply r hr
      exact content_reply h ⟨c.size, c.headers, c.early, c.unread, c.read⟩
  | httpData caller =>
      obtain ⟨-, queued, hs⟩ := next_httpData hn
      have hkept := content_frame h s.retriedAt s.pull s.readerAt s.pending queued h.pending
      have hdone := content_onHttpData hkept
      rwa [hs] at hdone
  | replyDeleted =>
      simp only [next] at hn
      split_ifs at hn
      obtain ⟨rfl, -⟩ : _ = s' ∧ _ := by simpa using hn
      exact ⟨h.size, h.file, h.pending, h.buf, by simp⟩

theorem content_run {past : List (Reaction State Event Out)} {s : State}
    (hrun : machine.Run (Honest src) past s) : Content src s :=
  hrun.invariant (Content src) content_initial
    (fun _ _ _ _ h hhonest hn => content_next h hhonest hn)

end Invariant

section Answers

variable (src : Bytes)

-- What a taken request may be told: bytes of the source from its offset, or no.
inductive AnswerTo (p : Pending) : Out → Prop where
  | data (bytes : Bytes) : 0 < bytes.length → bytes.length ≤ p.length →
      bytes = (src.drop p.offset).take bytes.length → AnswerTo p (.data p.id p.offset bytes)
  | refused : AnswerTo p (.refused p.id)

-- The request a reaction took, and what it answered to requests that were taken.
def accepted (r : Reaction State Event Out) : List Pending :=
  match r.event with
  | .request id offset length =>
      if takes r.before offset length then [asPending r.before id offset length] else []
  | _ => []

def answers (r : Reaction State Event Out) : List Out :=
  match r.event with
  | .request _ offset length => if takes r.before offset length then r.out else []
  | .openFile _ => []
  | .headAnswered _ => []
  | _ => r.out

-- Some requests get one answer each and the others go on waiting.
def Answered (waiting : List Pending) (after : State × List Out) : Prop :=
  ∃ done, waiting.Perm (done ++ after.1.pending) ∧ List.Forall₂ (AnswerTo src) done after.2

variable {src}

theorem answerTo_of_prefix {p : Pending} {bytes : Bytes} {n : Nat} (hpre : bytes <+: src.drop p.offset)
    (hpos : 0 < n) (hle : n ≤ p.length) (hlen : n ≤ bytes.length) :
    AnswerTo src p (.data p.id p.offset (bytes.take n)) := by
  have htake : (bytes.take n).length = n := List.length_take_of_le hlen
  refine .data _ (by omega) (by omega) ?_
  rw [htake]
  obtain ⟨t, ht⟩ := hpre
  rw [← ht, List.take_append_of_le_length hlen]

theorem Answers.answerTo {s : State} {p : Pending} {o : Out} (h : Answers s p o)
    (hbuf : s.buf <+: src.drop s.bufStart) (hp : 0 < p.length) : AnswerTo src p o := by
  cases h with
  | refused => exact .refused
  | data hin =>
      obtain ⟨hlo, hhi⟩ : s.bufStart ≤ p.offset ∧ p.offset < s.bufEnd := by
        simpa [inBuffer] using hin
      have hpre := prefix_drop_drop hbuf (p.offset - s.bufStart)
      rw [show s.bufStart + (p.offset - s.bufStart) = p.offset by omega] at hpre
      refine answerTo_of_prefix hpre ?_ (Nat.min_le_left _ _) ?_
      · simp only [buffered]
        omega
      · simp only [buffered, State.bufEnd, List.length_drop] at hhi ⊢
        omega

theorem servePending_answered {s : State} (h : Content src s) :
    Answered src s.pending (servePending s) := by
  obtain ⟨done, hperm, hall⟩ := servePending_answers s
  refine ⟨done, hperm, ?_⟩
  have hvalid : ∀ p ∈ done, 0 < p.length := fun p hp =>
    (h.pending p (hperm.mem_iff.mpr (List.mem_append_left _ hp))).1
  have hboth := (List.forall₂_and_left _ _).mpr ⟨hvalid, hall⟩
  exact hboth.imp fun p o ⟨hp, ho⟩ => ho.answerTo h.buf hp

theorem refuseAll_answered (s : State) (r : Reply) :
    Answered src s.pending (refuseAll s r) := by
  refine ⟨s.pending, by simp [refuseAll], ?_⟩
  simp only [refuseAll]
  rw [List.forall₂_map_right_iff, List.forall₂_same]
  exact fun p _ => .refused

theorem onHttpData_answered {s : State} (h : Content src s) :
    Answered src s.pending (onHttpData s) := by
  cases hr : s.reply with
  | none =>
      rw [onHttpData_none hr]
      exact ⟨[], by simp, .nil⟩
  | some r =>
      by_cases hok : replyStartsAtBuffer s r
      · rw [onHttpData_ok hr hok]
        exact servePending_answered (content_readReply h hr hok)
      · rw [onHttpData_refused hr hok]
        exact refuseAll_answered s r

theorem request_answered {s : State} (h : Content src s) (id : UInt32) {offset length : Int}
    (ht : takes s offset length) :
    Answered src (s.pending ++ [asPending s id offset length])
      (request s id offset length) := by
  have hvalid := asPending_valid id ht
  cases hf : s.file with
  | some content =>
      obtain rfl := h.file content hf
      rw [request_file ht hf]
      refine ⟨[asPending s id offset length], List.perm_append_comm, .cons ?_ .nil⟩
      split_ifs with hempty
      · exact .refused
      · have hpos := List.length_pos_iff.mpr (mt List.isEmpty_iff.mpr hempty)
        refine .data _ hpos (List.length_take_le _ _) ?_
        rw [List.length_take, ← List.take_take, List.take_length]
  | none =>
      rw [request_http ht hf]
      simp only
      split_ifs
      · refine servePending_answered (content_await h hvalid)
      · exact ⟨[], by simp [State.streamFrom, State.await], .nil⟩

-- One reaction: what waited and what was just taken is answered once or waits on.
theorem next_answered {s s' : State} {e : Event} {out : List Out} (h : Content src s)
    (hn : next s e = some (s', out)) :
    Answered src (accepted ⟨s, e, out⟩ ++ s.pending) (s', answers ⟨s, e, out⟩) := by
  have hquiet : ∀ t : State, t.pending = s.pending → Answered src s.pending (t, []) :=
    fun t ht => ⟨[], by simp [ht], .nil⟩
  cases e with
  | openFile content =>
      simp only [next] at hn
      split_ifs at hn
      obtain ⟨rfl, -⟩ : _ = s' ∧ _ := by simpa using hn
      exact hquiet _ rfl
  | headAnswered len =>
      simp only [next] at hn
      split_ifs at hn
      obtain ⟨rfl, -⟩ : _ = s' ∧ _ := by simpa using hn
      exact hquiet _ rfl
  | request id offset length =>
      have hreq : request s id offset length = (s', out) := by simpa [next] using hn
      by_cases ht : takes s offset length
      · obtain ⟨done, hperm, hall⟩ := request_answered h id ht
        rw [hreq] at hperm hall
        refine ⟨done, ?_, by simpa [answers, ht] using hall⟩
        simp only [accepted, if_pos ht]
        exact List.perm_append_comm.trans hperm
      · rw [request_rejected ht] at hreq
        obtain ⟨rfl, rfl⟩ : s = s' ∧ _ = out := by simpa using hreq
        simp only [accepted, answers, if_neg ht]
        exact hquiet _ rfl
  | headersArrive hd =>
      obtain ⟨r, -, -, rfl, rfl⟩ := onReply_some hn
      exact hquiet _ rfl
  | bodyArrives chunk =>
      obtain ⟨r, -, -, rfl, rfl⟩ := onReply_some hn
      exact hquiet _ rfl
  | replyEnds =>
      obtain ⟨r, -, -, rfl, rfl⟩ := onReply_some hn
      exact hquiet _ rfl
  | httpData caller =>
      obtain ⟨-, queued, hs⟩ := next_httpData hn
      have hdone := onHttpData_answered
        (content_frame h s.retriedAt s.pull s.readerAt s.pending queued h.pending)
      rwa [hs] at hdone
  | replyDeleted =>
      simp only [next] at hn
      split_ifs at hn
      obtain ⟨rfl, rfl⟩ : _ = s' ∧ [] = out := by simpa using hn
      exact hquiet _ rfl

-- Data is sent to a request that was taken.
theorem data_mem_answers {s s' : State} {e : Event} {out : List Out}
    (hn : next s e = some (s', out)) {id : UInt32} {offset : Nat} {bytes : Bytes}
    (h : .data id offset bytes ∈ out) : .data id offset bytes ∈ answers ⟨s, e, out⟩ := by
  cases e with
  | openFile content =>
      simp only [next] at hn
      split_ifs at hn
      obtain ⟨-, rfl⟩ : _ = s' ∧ _ = out := by simpa using hn
      simp at h
  | headAnswered len =>
      simp only [next] at hn
      split_ifs at hn
      obtain ⟨-, rfl⟩ : _ = s' ∧ _ = out := by simpa using hn
      simp at h
  | request asked offset length =>
      by_cases ht : takes s offset length
      · simpa only [answers, if_pos ht] using h
      · have hreq : request s asked offset length = (s', out) := by simpa [next] using hn
        rw [request_rejected ht] at hreq
        obtain ⟨-, rfl⟩ : s = s' ∧ _ = out := by simpa using hreq
        simp at h
  | headersArrive hd => exact h
  | bodyArrives chunk => exact h
  | replyEnds => exact h
  | httpData caller => exact h
  | replyDeleted => exact h

theorem mem_of_forall₂ {α β : Type*} {R : α → β → Prop} {as : List α} {bs : List β} {b : β}
    (h : List.Forall₂ R as bs) (hb : b ∈ bs) : ∃ a ∈ as, R a b := by
  induction h with
  | nil => simp at hb
  | @cons a b' as bs hab _ ih =>
      rcases List.mem_cons.mp hb with rfl | hb
      · exact ⟨a, List.mem_cons_self, hab⟩
      · obtain ⟨a', ha', hr⟩ := ih hb
        exact ⟨a', List.mem_cons_of_mem a ha', hr⟩

theorem data_sound {s s' : State} {e : Event} {out : List Out} (hc : Content src s)
    (hn : next s e = some (s', out)) {id : UInt32} {offset : Nat} {bytes : Bytes}
    (h : .data id offset bytes ∈ out) : bytes <+: src.drop offset := by
  obtain ⟨done, -, hall⟩ := next_answered hc hn
  obtain ⟨p, -, hp⟩ := mem_of_forall₂ hall (data_mem_answers hn h)
  cases hp with
  | data _ _ _ heq => exact heq ▸ List.take_prefix _ _

-- Over a run every taken request has one answer or is still waiting, and the bytes of an
-- answer are the source's.
theorem run_answered {past : List (Reaction State Event Out)} {s : State}
    (hrun : machine.Run (Honest src) past s) :
    ∃ done, (past.flatMap accepted).Perm (done ++ s.pending) ∧
      List.Forall₂ (AnswerTo src) done (past.flatMap answers) := by
  induction hrun with
  | init => exact ⟨[], by simp [machine, State.initial], .nil⟩
  | @step past s s' e out hrun hhonest hn ih =>
      obtain ⟨done, hperm, hall⟩ := ih
      obtain ⟨new, hnew, hout⟩ := next_answered (content_run hrun) hn
      refine ⟨new ++ done, ?_, List.rel_append hout hall⟩
      rw [List.flatMap_cons]
      have hold := hperm.append_left (accepted ⟨s, e, out⟩)
      have hswap : List.Perm (accepted ⟨s, e, out⟩ ++ (done ++ s.pending))
          (done ++ (accepted ⟨s, e, out⟩ ++ s.pending)) := List.perm_append_comm_assoc _ _ _
      have hback : List.Perm (done ++ (new ++ s'.pending)) (new ++ done ++ s'.pending) := by
        rw [List.append_assoc]
        exact List.perm_append_comm_assoc _ _ _
      exact ((hold.trans hswap).trans (hnew.append_left done)).trans hback

end Answers

end BATorrent.MediaFeed
