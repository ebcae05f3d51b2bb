import BATorrent.Ipc.MediaFeed.Content

namespace BATorrent.MediaFeed

open Lib

section Condition

-- onHttpData does not run on a reply without headers while a request waits, unless the reply
-- has ended like that and is the retry the request had.
def HeadersFirst (s : State) : Event → Prop
  | .httpData _ =>
      ∀ r, s.reply = some r → r.headers = none →
        ∀ p ∈ s.pending, r.finished ∧ s.retriedAt = some p.offset
  | _ => True

-- The reply has ended, and neither the buffer nor what is unread holds the offset.
def EndedShort (s : State) (r : Reply) (offset : Nat) : Prop :=
  s.reply = some r ∧ r.finished ∧
    ¬ (s.bufStart ≤ offset ∧ offset < s.bufEnd + r.avail.length)

def Out.isData : Out → Bool
  | .data _ _ _ => true
  | _ => false

-- An earlier reply ended short of the offset, and no request was answered since.
def ShortBefore (past : List (Reaction State Event Out)) (s : State) (offset : Nat) : Prop :=
  ∃ since t earlier r, past = since ++ t :: earlier ∧ EndedShort t.before r offset ∧
    r.serial < s.made ∧ (∀ r', s.reply = some r' → r.serial < r'.serial) ∧
    ∀ u ∈ since, ∀ o ∈ u.out, o.isData = false

-- What a request may be refused for: headers that start elsewhere, or two replies in a row
-- that ended short of it.
def Excused (past : List (Reaction State Event Out)) (s : State) (p : Pending) : Prop :=
  (∃ r h, s.reply = some r ∧ r.headers = some h ∧ h.startAt s.bufStart = false) ∨
    ∃ r, EndedShort s r p.offset ∧ ShortBefore past s p.offset

end Condition

section Loop

-- Only a request that was retried already is refused, and only by a reply that has ended.
theorem serveLoop_refused {kept todo : List Pending} {s : State} {id : UInt32}
    (h : .refused id ∈ (serveLoop kept todo s).out) :
    s.drained ∧ ∃ p ∈ todo, p.id = id ∧ inBuffer s p = false ∧ s.retriedAt = some p.offset := by
  induction todo generalizing kept s with
  | nil => simp [serveLoop_nil] at h
  | cons p todo ih =>
      have hlater : ∀ {t : State} {kept}, .refused id ∈ (serveLoop kept todo t).out →
          t.drained ∧ ∃ q ∈ p :: todo, q.id = id ∧ inBuffer t q = false ∧
            t.retriedAt = some q.offset := by
        intro t kept ht
        obtain ⟨hd, q, hq, hrest⟩ := ih ht
        exact ⟨hd, q, List.mem_cons_of_mem p hq, hrest⟩
      rw [serveLoop] at h
      split_ifs at h with hin hen hd hretry
      · -- an answer forgets the retry
        have htail : .refused id ∈ (serveLoop kept todo (noteAnswer s p)).out := by
          rcases List.mem_cons.mp h with h | h
          · simp [answer] at h
          · exact h
        obtain ⟨-, q, -, -, -, hnone⟩ := ih htail
        simp [noteAnswer] at hnone
      · exact hlater h
      · simp at h
      · simp only [Served.after, List.mem_cons, Out.refused.injEq] at h
        rcases h with rfl | h
        · refine ⟨hd, p, List.mem_cons_self, rfl, by simpa using hin, ?_⟩
          by_contra hne
          exact hretry hne
        · exact hlater h
      · exact hlater h

-- A retry noted before is still noted only when the pass gave no answer.
theorem serveLoop_retriedAt {kept todo : List Pending} {s : State} {offset : Nat}
    (hr : (serveLoop kept todo s).retried = false)
    (h : (serveLoop kept todo s).state.retriedAt = some offset) :
    s.retriedAt = some offset ∧ ∀ o ∈ (serveLoop kept todo s).out, o.isData = false := by
  induction todo generalizing kept s with
  | nil => exact ⟨h, by simp [serveLoop_nil]⟩
  | cons p todo ih =>
      rw [serveLoop] at hr h ⊢
      split_ifs at hr h ⊢ with hin hen hd hretry
      · have hnone := (ih (s := noteAnswer s p) hr h).1
        simp [noteAnswer] at hnone
      · exact ih hr h
      · obtain ⟨hs, hout⟩ := ih hr h
        refine ⟨hs, ?_⟩
        intro o ho
        rcases List.mem_cons.mp ho with rfl | ho
        · rfl
        · exact hout o ho
      · exact ih hr h

end Loop

section Sound

-- The invariant of the state alone: nothing was read of a reply that is gone or cut off, and
-- one that was cut off fails its check again.
structure Sound (s : State) : Prop where
  unchecked : s.replyChecked = false → s.buf = []
  aborted : ∀ r, s.reply = some r → r.connected = false →
    r.finished ∧ replyStartsAtBuffer s r = false
  gone : s.reply = none → s.replyChecked = false
  serial : ∀ r, s.reply = some r → r.serial < s.made
  early : ∀ r, s.reply = some r → r.headers = none → r.avail = []
  file : ∀ content, s.file = some content → s.size = content.length

theorem sound_initial : Sound .initial where
  unchecked _ := rfl
  aborted := by simp [State.initial]
  gone _ := rfl
  serial := by simp [State.initial]
  early := by simp [State.initial]
  file := by simp [State.initial]

theorem unchecked_of_not_starts {s : State} {r : Reply} (h : replyStartsAtBuffer s r = false) :
    s.replyChecked = false := by
  simp only [replyStartsAtBuffer, Bool.or_eq_false_iff] at h
  exact h.1

theorem sound_streamFrom {s : State} (h : Sound s) (offset : Nat) : Sound (s.streamFrom offset) where
  unchecked _ := rfl
  aborted := by
    rintro r ⟨⟩ hcon
    exact Bool.noConfusion hcon
  gone hnone := by simp [State.streamFrom] at hnone
  serial := by
    rintro r ⟨⟩
    exact Nat.lt_succ_self _
  early := by
    rintro r ⟨⟩ -
    rfl
  file := h.file

theorem sound_passed {s s' : State} (h : Sound s) (hp : Passed s s') : Sound s' := by
  cases hp with
  | settled d hd pending retriedAt readerAt pull queued =>
      refine ⟨?_, ?_, h.gone, h.serial, h.early, h.file⟩
      · intro hc
        simp [h.unchecked hc]
      · intro r hr hcon
        obtain ⟨hfin, hno⟩ := h.aborted r hr hcon
        have hempty := h.unchecked (unchecked_of_not_starts hno)
        obtain rfl : d = 0 := by
          rw [hempty] at hd
          exact Nat.le_zero.mp hd
        exact ⟨hfin, hno⟩
  | retried p hp pending =>
      have hkept : Sound { s with retriedAt := some p.offset, pending := pending } :=
        ⟨h.unchecked, h.aborted, h.gone, h.serial, h.early, h.file⟩
      exact sound_streamFrom hkept p.offset

theorem sound_servePending {s : State} (h : Sound s) : Sound (servePending s).1 :=
  sound_passed h (servePending_passed s)

theorem sound_readReply {s : State} (h : Sound s) {r : Reply} (hr : s.reply = some r)
    (hok : replyStartsAtBuffer s r) : Sound (readReply s.markChecked r) := by
  refine ⟨?_, ?_, ?_, ?_, ?_, h.file⟩
  · intro hc
    exact Bool.noConfusion hc
  · rintro r' ⟨⟩ hcon
    have hno := (h.aborted r hr hcon).2
    exact absurd (hno.symm.trans hok) Bool.false_ne_true
  · intro hnone
    simp [readReply] at hnone
  · rintro r' ⟨⟩
    exact h.serial r hr
  · rintro r' ⟨⟩ hnone
    simp [h.early r hr hnone]

theorem sound_onHttpData {s : State} (h : Sound s) : Sound (onHttpData s).1 := by
  cases hr : s.reply with
  | none =>
      rw [onHttpData_none hr]
      exact h
  | some r =>
      by_cases hok : replyStartsAtBuffer s r
      · rw [onHttpData_ok hr hok]
        exact sound_servePending (sound_readReply h hr hok)
      · rw [onHttpData_refused hr hok]
        have hno : replyStartsAtBuffer s r = false := by simpa using hok
        refine ⟨h.unchecked, ?_, ?_, ?_, ?_, h.file⟩
        · rintro r' ⟨⟩ -
          exact ⟨rfl, hno⟩
        · intro hnone
          simp [refuseAll] at hnone
        · rintro r' ⟨⟩
          exact h.serial r hr
        · rintro r' ⟨⟩ hnone
          exact h.early r hr hnone

theorem sound_request {s : State} (h : Sound s) (id : UInt32) (offset length : Int) :
    Sound (request s id offset length).1 := by
  by_cases ht : takes s offset length
  · cases hf : s.file with
    | some content =>
        rw [request_file ht hf]
        exact h
    | none =>
        have hkept : Sound (s.await (asPending s id offset length)) :=
          ⟨h.unchecked, h.aborted, h.gone, h.serial, h.early, h.file⟩
        rw [request_http ht hf]
        simp only
        split_ifs
        · exact sound_servePending hkept
        · exact sound_streamFrom hkept _
  · rw [request_rejected ht]
    exact h

-- What arrives, arrives on a reply that was not cut off.
theorem sound_reply {s : State} (h : Sound s) {r r' : Reply} (hr : s.reply = some r)
    (hrunning : r.finished = false) (hserial : r'.serial = r.serial)
    (hcon : r'.connected = r.connected) (hearly : r'.headers = none → r'.avail = []) :
    Sound { s with reply := some r' } := by
  refine ⟨h.unchecked, ?_, ?_, ?_, ?_, h.file⟩
  · rintro _ ⟨⟩ hcut
    have hfin := (h.aborted r hr (hcon ▸ hcut)).1
    exact absurd (hrunning.symm.trans hfin) Bool.false_ne_true
  · intro hnone
    simp at hnone
  · rintro _ ⟨⟩
    exact hserial ▸ h.serial r hr
  · rintro _ ⟨⟩
    exact hearly

theorem sound_next {s s' : State} {e : Event} {out : List Out} (h : Sound s)
    (hn : next s e = some (s', out)) : Sound s' := by
  cases e with
  | openFile content =>
      simp only [next] at hn
      split_ifs at hn
      obtain ⟨rfl, -⟩ : _ = s' ∧ _ := by simpa using hn
      refine ⟨h.unchecked, h.aborted, h.gone, h.serial, h.early, ?_⟩
      rintro _ ⟨⟩
      rfl
  | headAnswered len =>
      simp only [next] at hn
      split_ifs at hn with hcond
      obtain ⟨rfl, -⟩ : _ = s' ∧ _ := by simpa using hn
      refine ⟨h.unchecked, h.aborted, h.gone, h.serial, h.early, ?_⟩
      intro content hf
      have := h.file content hf
      omega
  | request id offset length =>
      obtain ⟨rfl, -⟩ : _ = s' ∧ _ := by simpa [next, Prod.ext_iff] using hn
      exact sound_request h id offset length
  | headersArrive hd =>
      obtain ⟨r, hr, hcan, rfl, -⟩ := onReply_some hn
      simp only [Bool.and_eq_true, Bool.not_eq_true'] at hcan
      exact sound_reply h hr hcan.1 rfl rfl (by simp)
  | bodyArrives chunk =>
      obtain ⟨r, hr, hcan, rfl, -⟩ := onReply_some hn
      simp only [Bool.and_eq_true, Bool.not_eq_true'] at hcan
      refine sound_reply h hr hcan.1 rfl rfl fun hnone => ?_
      have hnone' : r.headers = none := hnone
      simp [hnone'] at hcan
  | replyEnds =>
      obtain ⟨r, hr, hcan, rfl, -⟩ := onReply_some hn
      simp only [Bool.not_eq_true'] at hcan
      exact sound_reply h hr hcan rfl rfl (h.early r hr)
  | httpData caller =>
      obtain ⟨-, queued, hs⟩ := next_httpData hn
      have hkept : Sound { s with queued := queued } :=
        ⟨h.unchecked, h.aborted, h.gone, h.serial, h.early, h.file⟩
      have hdone := sound_onHttpData hkept
      rwa [hs] at hdone
  | replyDeleted =>
      simp only [next] at hn
      split_ifs at hn with hcut
      obtain ⟨rfl, -⟩ : _ = s' ∧ _ := by simpa using hn
      simp only [Option.any_eq_true, Bool.not_eq_true'] at hcut
      obtain ⟨r, hr, hcon⟩ := hcut
      have hno := unchecked_of_not_starts (h.aborted r hr hcon).2
      exact ⟨h.unchecked, by simp, fun _ => hno, by simp, by simp, h.file⟩

theorem passed_source {s s' : State} (hp : Passed s s') : s'.size = s.size ∧ s'.file = s.file := by
  cases hp with
  | settled => exact ⟨rfl, rfl⟩
  | retried => exact ⟨rfl, rfl⟩

theorem servePending_source (s : State) :
    (servePending s).1.size = s.size ∧ (servePending s).1.file = s.file :=
  passed_source (servePending_passed s)

theorem onHttpData_source (s : State) :
    (onHttpData s).1.size = s.size ∧ (onHttpData s).1.file = s.file := by
  cases hr : s.reply with
  | none =>
      rw [onHttpData_none hr]
      exact ⟨rfl, rfl⟩
  | some r =>
      by_cases hok : replyStartsAtBuffer s r
      · rw [onHttpData_ok hr hok]
        exact servePending_source _
      · rw [onHttpData_refused hr hok]
        exact ⟨rfl, rfl⟩

-- A source without HTTP, or not opened yet.
def Offline (s : State) : Prop := s.size = -1 ∨ s.file ≠ none

-- No reply is ever made for it.
def Idle (s : State) : Prop := Offline s → s.reply = none ∧ s.retriedAt = none

theorem idle_of_source {s s' : State} (hsource : s'.size = s.size ∧ s'.file = s.file)
    (hon : ¬ Offline s) : Idle s' := by
  intro hoff
  rw [Offline, hsource.1, hsource.2] at hoff
  exact absurd hoff hon

theorem idle_request {s : State} (h : Idle s) (id : UInt32) (offset length : Int) :
    Idle (request s id offset length).1 := by
  by_cases ht : takes s offset length
  · cases hf : s.file with
    | some content =>
        rw [request_file ht hf]
        exact h
    | none =>
        have hon : ¬ Offline s := by
          simp only [takes, not_or] at ht
          simp only [Offline, hf, not_or, ne_eq, not_true_eq_false, not_false_eq_true, and_true]
          omega
        rw [request_http ht hf]
        simp only
        split_ifs
        · exact idle_of_source (servePending_source (s.await _)) hon
        · exact idle_of_source (s := s) ⟨rfl, rfl⟩ hon
  · rw [request_rejected ht]
    exact h

theorem idle_onHttpData {s : State} (h : Idle s) : Idle (onHttpData s).1 := by
  cases hr : s.reply with
  | none =>
      rw [onHttpData_none hr]
      exact h
  | some r =>
      refine idle_of_source (onHttpData_source s) fun hoff => ?_
      simp [(h hoff).1] at hr

theorem idle_next {s s' : State} {e : Event} {out : List Out} (h : Idle s)
    (hn : next s e = some (s', out)) : Idle s' := by
  have hon : ∀ r, s.reply = some r → ¬ Offline s := by
    intro r hr hoff
    simp [(h hoff).1] at hr
  cases e with
  | openFile content =>
      simp only [next] at hn
      split_ifs at hn with hcond
      obtain ⟨rfl, -⟩ : _ = s' ∧ _ := by simpa using hn
      exact fun _ => h (.inl hcond.1)
  | headAnswered len =>
      simp only [next] at hn
      split_ifs at hn with hcond
      obtain ⟨rfl, -⟩ : _ = s' ∧ _ := by simpa using hn
      exact fun _ => h (.inl hcond.1)
  | request id offset length =>
      obtain ⟨rfl, -⟩ : _ = s' ∧ _ := by simpa [next, Prod.ext_iff] using hn
      exact idle_request h id offset length
  | headersArrive hd =>
      obtain ⟨r, hr, -, rfl, -⟩ := onReply_some hn
      exact idle_of_source (s := s) ⟨rfl, rfl⟩ (hon r hr)
  | bodyArrives chunk =>
      obtain ⟨r, hr, -, rfl, -⟩ := onReply_some hn
      exact idle_of_source (s := s) ⟨rfl, rfl⟩ (hon r hr)
  | replyEnds =>
      obtain ⟨r, hr, -, rfl, -⟩ := onReply_some hn
      exact idle_of_source (s := s) ⟨rfl, rfl⟩ (hon r hr)
  | httpData caller =>
      obtain ⟨-, queued, hs⟩ := next_httpData hn
      have hkept : Idle { s with queued := queued } := h
      have hdone := idle_onHttpData hkept
      rwa [hs] at hdone
  | replyDeleted =>
      simp only [next] at hn
      split_ifs at hn with hcut
      obtain ⟨rfl, -⟩ : _ = s' ∧ _ := by simpa using hn
      exact fun hoff => ⟨rfl, (h hoff).2⟩

end Sound

section History

-- What a step leaves noted: a retry for a reply that ended short of the offset in this very
-- step, or the retry noted before, when the step gave no answer.
def NotesRetry (s : State) (after : State × List Out) : Prop :=
  ∀ offset, after.1.retriedAt = some offset →
    (∃ r, EndedShort s r offset ∧ s.made < after.1.made ∧
      ∀ r', after.1.reply = some r' → s.made ≤ r'.serial) ∨
    (s.retriedAt = some offset ∧ s.made ≤ after.1.made ∧
      (∀ r', after.1.reply = some r' → (∃ r, s.reply = some r ∧ r.serial = r'.serial) ∨
        s.made ≤ r'.serial) ∧
      ∀ o ∈ after.2, o.isData = false)

theorem notesRetry_same {s s' : State} {out : List Out} (hretried : s'.retriedAt = s.retriedAt)
    (hmade : s'.made = s.made) (hreply : ∀ r', s'.reply = some r' →
      ∃ r, s.reply = some r ∧ r.serial = r'.serial) (hout : ∀ o ∈ out, o.isData = false) :
    NotesRetry s (s', out) := by
  intro offset hoffset
  exact .inr ⟨hretried ▸ hoffset, hmade.ge, fun r' hr' => .inl (hreply r' hr'), hout⟩

theorem notesRetry_streamFrom (s : State) (offset : Nat) :
    NotesRetry s (s.streamFrom offset, []) := by
  intro X hX
  refine .inr ⟨hX, Nat.le_succ _, ?_, by simp⟩
  rintro r' ⟨⟩
  exact .inr (le_refl _)

theorem noted_fields {s t : State} (ht : Noted s t) :
    t.made = s.made ∧ t.reply = s.reply := by
  rcases ht with rfl | ⟨q, -, rfl⟩
  · exact ⟨rfl, rfl⟩
  · exact ⟨rfl, rfl⟩

theorem notesRetry_servePending {s : State} {r : Reply} (hr : s.reply = some r) :
    NotesRetry s (servePending s) := by
  cases hd : s.drained with
  | false =>
      rcases servePending_undrained s hd with ⟨-, hs⟩ | ⟨q, -, -, -, hs⟩
      · rw [hs]
        exact notesRetry_same rfl rfl (fun r' hr' => ⟨r', hr', rfl⟩) (by simp)
      · intro offset hnoted
        rw [hs] at hnoted
        have hnone : (none : Option Nat) = some offset := hnoted
        simp at hnone
  | true =>
      intro offset hnoted
      have h := serveLoop_drained [] s.pending s hd
      split at h
      · obtain ⟨hstay, t, ht, hs⟩ := h
        obtain ⟨hmade, hreply⟩ := noted_fields ht
        have hserve : servePending s = (settle (t.leave []), (serveLoop [] s.pending s).out) := by
          simp only [servePending, hstay, hs, Bool.false_eq_true, if_false]
        rw [hserve] at hnoted ⊢
        obtain ⟨hbefore, hout⟩ := serveLoop_retriedAt hstay (by rw [hs]; exact hnoted)
        exact .inr ⟨hbefore, hmade.ge, fun r' hr' => .inl ⟨r', hreply ▸ hr', rfl⟩, hout⟩
      · rename_i p rest hp
        obtain ⟨hretry, hs⟩ := h
        have hserve : (servePending s).1 = ({ s with
            retriedAt := some p.offset, pending := p :: rest } : State).streamFrom p.offset := by
          simp only [servePending, hretry, hs, if_true, List.nil_append]
        rw [hserve] at hnoted ⊢
        obtain rfl : p.offset = offset := Option.some.inj hnoted
        have hdrained : r.drained = true := by simpa [State.drained, hr] using hd
        simp only [Reply.drained, Bool.and_eq_true, List.isEmpty_iff] at hdrained
        refine .inl ⟨r, ⟨hr, hdrained.1, ?_⟩, Nat.lt_succ_self _, ?_⟩
        · rw [hdrained.2]
          exact retryPoint_outside hp
        · rintro r' ⟨⟩
          exact le_refl _

-- Reading moves bytes from the reply to the buffer: what has ended short stays so.
theorem endedShort_of_readReply {s : State} {r : Reply} (hr : s.reply = some r) {r' : Reply}
    {offset : Nat} (h : EndedShort (readReply s.markChecked r) r' offset) :
    EndedShort s r offset := by
  obtain ⟨hr', hfin, hout⟩ := h
  obtain rfl : { r with avail := r.avail.drop (kWindow - s.buf.length) } = r' := by
    simpa [readReply, State.markChecked] using hr'
  refine ⟨hr, hfin, ?_⟩
  simp only [readReply, State.markChecked, State.bufEnd, List.length_append, List.length_take,
    List.length_drop] at hout ⊢
  omega

theorem notesRetry_onHttpData (s : State) : NotesRetry s (onHttpData s) := by
  cases hr : s.reply with
  | none =>
      rw [onHttpData_none hr]
      exact notesRetry_same rfl rfl (fun r' hr' => ⟨r', hr', rfl⟩) (by simp)
  | some r =>
      by_cases hok : replyStartsAtBuffer s r
      · rw [onHttpData_ok hr hok]
        intro offset hnoted
        rcases notesRetry_servePending (s := readReply s.markChecked r) rfl offset hnoted with
          ⟨r', hended, hmade, hserial⟩ | ⟨hretried, hmade, hserial, hout⟩
        · exact .inl ⟨r, endedShort_of_readReply hr hended, hmade, hserial⟩
        · refine .inr ⟨hretried, hmade, ?_, hout⟩
          intro r' hr'
          refine (hserial r' hr').imp_left ?_
          rintro ⟨_, ⟨⟩, hsame⟩
          exact ⟨r, hr, hsame⟩
      · rw [onHttpData_refused hr hok]
        refine notesRetry_same rfl rfl ?_ ?_
        · rintro r' ⟨⟩
          exact ⟨r, hr, rfl⟩
        · intro o ho
          obtain ⟨p, -, rfl⟩ := List.mem_map.mp ho
          rfl

-- A pass is made on a reply.
theorem reply_of_served {s : State} (h : Sound s) {p : Pending}
    (hstay : inBuffer (s.await p) p = true ∨ comingSoon (s.await p) p = true) :
    ∃ r, s.reply = some r := by
  cases hr : s.reply with
  | some r => exact ⟨r, rfl⟩
  | none =>
      have hempty := h.unchecked (h.gone hr)
      rcases hstay with hin | hsoon
      · simp only [inBuffer, decide_eq_true_eq] at hin
        simp only [State.await, State.bufEnd, hempty, List.length_nil] at hin
        omega
      · simp [comingSoon, State.await, hr] at hsoon

theorem notesRetry_request {s : State} (h : Sound s) (hidle : Idle s) (id : UInt32) (offset length : Int) :
    NotesRetry s (request s id offset length) := by
  by_cases ht : takes s offset length
  · cases hf : s.file with
    | some content =>
        have hnone := (hidle (.inr (by simp [hf]))).2
        rw [request_file ht hf]
        intro X hX
        simp [hnone] at hX
    | none =>
        rw [request_http ht hf]
        simp only
        split_ifs with hstay
        · obtain ⟨r, hr⟩ := reply_of_served h hstay
          exact notesRetry_servePending (s := s.await _) hr
        · exact notesRetry_streamFrom (s.await _) _
  · rw [request_rejected ht]
    exact notesRetry_same rfl rfl (fun r' hr' => ⟨r', hr', rfl⟩) (by simp [Out.isData])

theorem notesRetry_next {s s' : State} {e : Event} {out : List Out} (h : Sound s)
    (hidle : Idle s) (hn : next s e = some (s', out)) : NotesRetry s (s', out) := by
  have hreply : ∀ r r' : Reply, s.reply = some r → r'.serial = r.serial →
      NotesRetry s ({ s with reply := some r' }, []) := by
    intro r r' hr hserial
    refine notesRetry_same rfl rfl ?_ (by simp)
    rintro _ ⟨⟩
    exact ⟨r, hr, hserial.symm⟩
  cases e with
  | openFile content =>
      simp only [next] at hn
      split_ifs at hn
      obtain ⟨rfl, rfl⟩ : _ = s' ∧ _ = out := by simpa using hn
      exact notesRetry_same rfl rfl (fun r' hr' => ⟨r', hr', rfl⟩) (by simp [Out.isData])
  | headAnswered len =>
      simp only [next] at hn
      split_ifs at hn
      obtain ⟨rfl, rfl⟩ : _ = s' ∧ _ = out := by simpa using hn
      exact notesRetry_same rfl rfl (fun r' hr' => ⟨r', hr', rfl⟩) (by simp [Out.isData])
  | request id offset length =>
      have hreq : request s id offset length = (s', out) := by simpa [next] using hn
      exact hreq ▸ notesRetry_request h hidle id offset length
  | headersArrive hd =>
      obtain ⟨r, hr, -, rfl, rfl⟩ := onReply_some hn
      exact hreply r _ hr rfl
  | bodyArrives chunk =>
      obtain ⟨r, hr, -, rfl, rfl⟩ := onReply_some hn
      exact hreply r _ hr rfl
  | replyEnds =>
      obtain ⟨r, hr, -, rfl, rfl⟩ := onReply_some hn
      exact hreply r _ hr rfl
  | httpData caller =>
      obtain ⟨-, queued, hs⟩ := next_httpData hn
      exact hs ▸ notesRetry_onHttpData { s with queued := queued }
  | replyDeleted =>
      simp only [next] at hn
      split_ifs at hn
      obtain ⟨rfl, rfl⟩ : _ = s' ∧ [] = out := by simpa using hn
      exact notesRetry_same rfl rfl (by simp) (by simp)

-- The retry that is noted was for a reply of the past that ended short.
def History (past : List (Reaction State Event Out)) (s : State) : Prop :=
  ∀ offset, s.retriedAt = some offset → ShortBefore past s offset

theorem history_step {past : List (Reaction State Event Out)} {s s' : State} {e : Event}
    {out : List Out} (hsound : Sound s) (h : History past s) (hnotes : NotesRetry s (s', out)) :
    History (⟨s, e, out⟩ :: past) s' := by
  intro offset hoffset
  rcases hnotes offset hoffset with ⟨r, hended, hmade, hserial⟩ | ⟨hretried, hmade, hserial, hout⟩
  · have hlt := hsound.serial r hended.1
    refine ⟨[], ⟨s, e, out⟩, past, r, rfl, hended, by simp only at hmade; omega, ?_, by simp⟩
    intro r' hr'
    exact Nat.lt_of_lt_of_le hlt (hserial r' hr')
  · obtain ⟨since, t, earlier, r, rfl, hended, hlt, hnow, hquiet⟩ := h offset hretried
    refine ⟨⟨s, e, out⟩ :: since, t, earlier, r, rfl, hended, by simp only at hmade; omega, ?_, ?_⟩
    · intro r' hr'
      rcases hserial r' hr' with ⟨q, hq, hsame⟩ | hge
      · exact hsame ▸ hnow q hq
      · exact Nat.lt_of_lt_of_le hlt hge
    · intro u hu
      rcases List.mem_cons.mp hu with rfl | hu
      · exact hout
      · exact hquiet u hu

theorem run_history {guard : State → Event → Prop} {past : List (Reaction State Event Out)}
    {s : State} (hrun : machine.Run guard past s) : (Sound s ∧ Idle s) ∧ History past s :=
  hrun.invariant_past (fun past s => (Sound s ∧ Idle s) ∧ History past s)
    ⟨⟨sound_initial, fun _ => ⟨rfl, rfl⟩⟩, fun offset hoffset => by
      simp [machine, State.initial] at hoffset⟩
    (fun _ _ _ _ _ h _ hn =>
      ⟨⟨sound_next h.1.1 hn, idle_next h.1.2 hn⟩,
        history_step h.1.1 h.2 (notesRetry_next h.1.1 h.1.2 hn)⟩)

end History

section Refusals

variable {past : List (Reaction State Event Out)} {s s' : State} {e : Event} {out : List Out}
  {id : UInt32}

-- A pass refuses only after two short replies in a row.
theorem servePending_refused {r : Reply} (hr : s.reply = some r)
    (hout : .refused id ∈ (servePending s).2) :
    ∃ p ∈ s.pending, p.id = id ∧ EndedShort s r p.offset ∧ s.retriedAt = some p.offset := by
  obtain ⟨hd, p, hp, hid, hin, hretried⟩ := serveLoop_refused hout
  refine ⟨p, hp, hid, ?_, hretried⟩
  have hdrained : r.drained = true := by simpa [State.drained, hr] using hd
  simp only [Reply.drained, Bool.and_eq_true, List.isEmpty_iff] at hdrained
  refine ⟨hr, hdrained.1, ?_⟩
  simpa [inBuffer, hdrained.2] using hin

theorem onHttpData_refusal (hsound : Sound s) (h : History past s) (hguard : HeadersFirst s (.httpData .queued))
    (hout : .refused id ∈ (onHttpData s).2) :
    ∃ p ∈ s.pending, p.id = id ∧ Excused past s p := by
  cases hr : s.reply with
  | none => simp [onHttpData_none hr] at hout
  | some r =>
      by_cases hok : replyStartsAtBuffer s r
      · rw [onHttpData_ok hr hok] at hout
        obtain ⟨p, hp, hid, hended, hretried⟩ := servePending_refused rfl hout
        exact ⟨p, hp, hid, .inr ⟨r, endedShort_of_readReply hr hended, h p.offset hretried⟩⟩
      · rw [onHttpData_refused hr hok] at hout
        obtain ⟨p, hp, hid⟩ := List.mem_map.mp hout
        simp only [Out.refused.injEq] at hid
        refine ⟨p, hp, hid, ?_⟩
        simp only [replyStartsAtBuffer, Bool.or_eq_true, not_or, Bool.not_eq_true] at hok
        cases hh : r.headers with
        | some hd => exact .inl ⟨r, hd, hr, hh, by simpa [hh] using hok.2⟩
        | none =>
            obtain ⟨hfin, hretried⟩ := hguard r hr hh p hp
            refine .inr ⟨r, ⟨hr, hfin, ?_⟩, h p.offset hretried⟩
            rw [State.bufEnd, hsound.unchecked hok.1, hsound.early r hr hh]
            simp only [List.length_nil]
            omega

theorem request_refusal (hsound : Sound s) (h : History past s) {asked : UInt32}
    {offset length : Int} (ht : takes s offset length)
    (hout : .refused id ∈ (request s asked offset length).2) :
    ∃ p ∈ s.pending ++ [asPending s asked offset length], p.id = id ∧ Excused past s p := by
  cases hf : s.file with
  | some content =>
      -- a file has bytes at every offset below its size
      have hsize := hsound.file content hf
      have hlen := asPending_valid asked ht
      rw [request_file ht hf] at hout
      simp only [Pending.Valid] at hlen
      have hne : (content.drop (asPending s asked offset length).offset).take
          (asPending s asked offset length).length ≠ [] := by
        intro hnil
        have := congrArg List.length hnil
        simp only [List.length_take, List.length_drop, List.length_nil] at this
        omega
      simp [hne] at hout
  | none =>
      rw [request_http ht hf] at hout
      simp only at hout
      split_ifs at hout with hstay
      · obtain ⟨r, hr⟩ := reply_of_served hsound hstay
        obtain ⟨p, hp, hid, hended, hretried⟩ := servePending_refused (s := s.await _) hr hout
        exact ⟨p, hp, hid, .inr ⟨r, hended, h p.offset hretried⟩⟩
      · simp at hout

theorem refused_excused (hrun : machine.Run HeadersFirst past s) (hguard : HeadersFirst s e)
    (hn : machine.next s e = some (s', out)) (hout : .refused id ∈ out)
    (hgood : ∀ offset length, e = .request id offset length → takes s offset length) :
    ∃ p ∈ accepted ⟨s, e, out⟩ ++ s.pending, p.id = id ∧ Excused past s p := by
  obtain ⟨⟨hsound, -⟩, hhistory⟩ := run_history hrun
  cases e with
  | openFile content =>
      simp only [machine, next] at hn
      split_ifs at hn
      obtain ⟨-, rfl⟩ : _ = s' ∧ _ = out := by simpa using hn
      simp at hout
  | headAnswered len =>
      simp only [machine, next] at hn
      split_ifs at hn
      obtain ⟨-, rfl⟩ : _ = s' ∧ _ = out := by simpa using hn
      simp at hout
  | request asked offset length =>
      have hreq : request s asked offset length = (s', out) := by simpa [machine, next] using hn
      by_cases ht : takes s offset length
      · rw [← show (request s asked offset length).2 = out by rw [hreq]] at hout
        obtain ⟨p, hp, hrest⟩ := request_refusal hsound hhistory ht hout
        refine ⟨p, ?_, hrest⟩
        simp only [accepted, if_pos ht]
        exact List.perm_append_comm.mem_iff.mp hp
      · rw [request_rejected ht] at hreq
        obtain ⟨-, rfl⟩ : s = s' ∧ _ = out := by simpa using hreq
        obtain rfl : id = asked := by simpa using hout
        exact absurd (hgood offset length rfl) ht
  | headersArrive hd =>
      obtain ⟨r, -, -, -, rfl⟩ := onReply_some hn
      simp at hout
  | bodyArrives chunk =>
      obtain ⟨r, -, -, -, rfl⟩ := onReply_some hn
      simp at hout
  | replyEnds =>
      obtain ⟨r, -, -, -, rfl⟩ := onReply_some hn
      simp at hout
  | httpData caller =>
      obtain ⟨-, queued, hs⟩ := next_httpData hn
      rw [← show (onHttpData { s with queued := queued }).2 = out by rw [hs]] at hout
      have hkept : Sound { s with queued := queued } :=
        ⟨hsound.unchecked, hsound.aborted, hsound.gone, hsound.serial, hsound.early, hsound.file⟩
      have hpast : History past { s with queued := queued } := hhistory
      have hdone := onHttpData_refusal hkept hpast hguard hout
      exact hdone
  | replyDeleted =>
      simp only [machine, next] at hn
      split_ifs at hn
      obtain ⟨-, rfl⟩ : _ = s' ∧ [] = out := by simpa using hn
      simp at hout

end Refusals

section Runs

-- A source of twenty bytes, of which those from 10 were asked for.
def asked (headers : Option Headers) : State :=
  { State.initial with
    size := 20
    reply := some { Reply.get 0 10 with headers := headers }
    bufStart := 10
    readerAt := 10
    pending := [⟨1, 10, 5⟩]
    made := 1 }

-- A server without the file: its headers have arrived and the request may be refused.
theorem refused_excused_notFound : ∃ past, machine.Run HeadersFirst past (asked (some ⟨404, []⟩)) ∧
    ∃ p ∈ (asked (some ⟨404, []⟩)).pending, p.id = 1 ∧
      Excused past (asked (some ⟨404, []⟩)) p := by
  have hsized : machine.Run HeadersFirst _ { State.initial with size := 20 } :=
    Machine.Run.init.extend (Event.headAnswered 20) trivial rfl
  have hasked : machine.Run HeadersFirst _ (asked none) :=
    hsized.extend (.request 1 10 5) trivial rfl
  have hanswered : machine.Run HeadersFirst _ (asked (some ⟨404, []⟩)) :=
    hasked.extend (.headersArrive ⟨404, []⟩) trivial rfl
  have hguard : HeadersFirst (asked (some ⟨404, []⟩)) (.httpData .readyRead) := by
    rintro r ⟨⟩ hnone
    simp at hnone
  have hnext : machine.next (asked (some ⟨404, []⟩)) (.httpData .readyRead) =
      some ((refuseAll (asked (some ⟨404, []⟩)) _).1, [.refused 1]) := rfl
  refine ⟨_, hanswered, ?_⟩
  exact refused_excused hanswered hguard hnext List.mem_cons_self (fun _ _ h => Event.noConfusion h)

-- The first reply gave one byte, so the request waits and the timer polls.
def polling : State :=
  { asked none with
    reply := some
      { Reply.get 0 10 with headers := some ⟨206, contentRangeText 10 []⟩, arrived := 1 }
    replyChecked := true
    pull := true
    buf := [0] }

-- A seek has made a second reply, which has no headers yet.
def seeking : State :=
  { polling with
    reply := some (.get 1 0)
    replyChecked := false
    buf := []
    bufStart := 0
    readerAt := 0
    pending := [⟨1, 10, 5⟩, ⟨2, 0, 5⟩]
    made := 2 }

def twenty : Bytes := List.replicate 20 0

-- The timer that still runs ticks before the second reply has headers.
theorem refused_before_headers : ∃ past s', machine.Run (Honest twenty) past seeking ∧
    machine.next seeking (.httpData .pull) = some (s', [.refused 1, .refused 2]) ∧
      ∀ p ∈ seeking.pending, ¬ Excused past seeking p := by
  have hsized : machine.Run (Honest twenty) _ { State.initial with size := 20 } :=
    Machine.Run.init.extend (Event.headAnswered 20) rfl rfl
  have hasked : machine.Run (Honest twenty) _ (asked none) :=
    hsized.extend (.request 1 10 5) trivial rfl
  have hanswered : machine.Run (Honest twenty) _ (asked (some ⟨206, contentRangeText 10 []⟩)) :=
    hasked.extend (.headersArrive ⟨206, contentRangeText 10 []⟩)
      (fun _ => ⟨10, .part 10 [], by decide⟩) rfl
  have hchunk : Honest twenty (asked (some ⟨206, contentRangeText 10 []⟩)) (.bodyArrives [0]) := by
    rintro r h start ⟨⟩ ⟨⟩ hcar
    obtain rfl := hcar.unique (.part 10 [])
    decide
  have harrived := hanswered.extend (.bodyArrives [0]) hchunk rfl
  have hpolling : machine.Run (Honest twenty) _ polling :=
    harrived.extend (.httpData .readyRead) trivial rfl
  have hseeking : machine.Run (Honest twenty) _ seeking :=
    hpolling.extend (.request 2 0 5) trivial rfl
  refine ⟨_, _, hseeking, rfl, ?_⟩
  rintro p - (⟨r, h, ⟨⟩, hh, -⟩ | ⟨r, ⟨⟨⟩, hfin, -⟩, -⟩)
  · simp [Reply.get] at hh
  · simp [Reply.get] at hfin

end Runs

end BATorrent.MediaFeed
