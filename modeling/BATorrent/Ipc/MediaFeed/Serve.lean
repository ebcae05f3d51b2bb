import BATorrent.Ipc.MediaFeed

namespace BATorrent.MediaFeed

-- A request the buffer can answer while the reply goes on.
def served (s : State) (p : Pending) : Bool := inBuffer s p && enough s p

def noteAnswer (s : State) (p : Pending) : State :=
  { s with retriedAt := none, readerAt := p.offset + buffered s p }

def State.leave (s : State) (pending : List Pending) : State := { s with pending := pending }

section NoteAnswer

variable (s : State) (p q : Pending)

@[simp] theorem inBuffer_noteAnswer : inBuffer (noteAnswer s q) p = inBuffer s p := rfl
@[simp] theorem enough_noteAnswer : enough (noteAnswer s q) p = enough s p := rfl
@[simp] theorem buffered_noteAnswer : buffered (noteAnswer s q) p = buffered s p := rfl
@[simp] theorem answer_noteAnswer : answer (noteAnswer s q) p = answer s p := rfl
@[simp] theorem drained_noteAnswer : (noteAnswer s q).drained = s.drained := rfl
@[simp] theorem served_noteAnswer : served (noteAnswer s q) p = served s p := rfl

end NoteAnswer

section Loop

theorem serveLoop_nil (kept : List Pending) (s : State) :
    serveLoop kept [] s = { state := { s with pending := kept }, out := [], retried := false } := rfl

-- While the reply goes on, exactly the requests the buffer can answer are answered.
theorem serveLoop_undrained (kept todo : List Pending) (s : State) (hd : s.drained = false) :
    serveLoop kept todo s =
      { state :=
          { (todo.filter (served s)).foldl noteAnswer s with
            pending := kept ++ todo.filter (fun p => !served s p) }
        out := (todo.filter (served s)).map (answer s)
        retried := false } := by
  induction todo generalizing kept s with
  | nil => simp [serveLoop_nil]
  | cons p todo ih =>
      have hserved : served (noteAnswer s p) = served s := rfl
      have hanswer : answer (noteAnswer s p) = answer s := rfl
      rw [serveLoop]
      by_cases hin : inBuffer s p
      · by_cases hen : enough s p
        · have hp : served s p = true := by simp [served, hin, hen]
          rw [if_pos hin, if_pos (.inl hen)]
          show (serveLoop kept todo (noteAnswer s p)).after _ = _
          rw [ih kept (noteAnswer s p) hd, hserved, hanswer]
          simp [hp, Served.after]
        · have hp : served s p = false := by simp [served, hen]
          rw [if_pos hin, if_neg (by simp [hen, hd]), ih (kept ++ [p]) s hd]
          simp [hp]
      · have hp : served s p = false := by simp [served, hin]
        rw [if_neg hin, if_neg (by simp [hd]), ih (kept ++ [p]) s hd]
        simp [hp]

-- Once the reply has ended, the first request the buffer [lo, hi) does not hold is asked
-- for again, unless that was done already. With it come the requests behind it.
def retryPoint (lo hi : Nat) : Option Nat → List Pending → Option (Pending × List Pending)
  | _, [] => none
  | retriedAt, p :: todo =>
      if lo ≤ p.offset ∧ p.offset < hi then retryPoint lo hi none todo
      else if retriedAt ≠ some p.offset then some (p, todo)
      else retryPoint lo hi retriedAt todo

theorem retryPoint_mem {lo hi : Nat} {retriedAt : Option Nat} {todo : List Pending} {p : Pending}
    {rest : List Pending} (h : retryPoint lo hi retriedAt todo = some (p, rest)) :
    (p :: rest) <:+ todo := by
  induction todo generalizing retriedAt with
  | nil => simp [retryPoint] at h
  | cons q todo ih =>
      rw [retryPoint] at h
      split_ifs at h
      · exact (ih h).trans (List.suffix_cons q todo)
      · obtain ⟨rfl, rfl⟩ : q = p ∧ todo = rest := by simpa using h
        exact List.suffix_rfl
      · exact (ih h).trans (List.suffix_cons q todo)

theorem retryPoint_outside {lo hi : Nat} {retriedAt : Option Nat} {todo : List Pending}
    {p : Pending} {rest : List Pending} (h : retryPoint lo hi retriedAt todo = some (p, rest)) :
    ¬ (lo ≤ p.offset ∧ p.offset < hi) := by
  induction todo generalizing retriedAt with
  | nil => simp [retryPoint] at h
  | cons q todo ih =>
      rw [retryPoint] at h
      split_ifs at h with hin
      · exact ih h
      · obtain ⟨rfl, rfl⟩ : q = p ∧ todo = rest := by simpa using h
        exact hin
      · exact ih h

-- The state after the answers of a pass: the last one counts.
def Noted (s t : State) : Prop := t = s ∨ ∃ q, inBuffer s q ∧ t = noteAnswer s q

theorem serveLoop_drained (kept todo : List Pending) (s : State) (hd : s.drained = true) :
    match retryPoint s.bufStart s.bufEnd s.retriedAt todo with
    | none =>
        (serveLoop kept todo s).retried = false ∧
        ∃ t, Noted s t ∧ (serveLoop kept todo s).state = t.leave kept
    | some (p, rest) =>
        (serveLoop kept todo s).retried = true ∧
        (serveLoop kept todo s).state =
          ({ s with
              retriedAt := some p.offset, pending := kept ++ p :: rest }).streamFrom p.offset := by
  induction todo generalizing s with
  | nil => exact ⟨rfl, s, .inl rfl, rfl⟩
  | cons p todo ih =>
      rw [retryPoint, serveLoop]
      by_cases hin : inBuffer s p
      · have hbounds : s.bufStart ≤ p.offset ∧ p.offset < s.bufEnd := by
          simpa [inBuffer] using hin
        rw [if_pos hbounds, if_pos hin, if_pos (.inr hd)]
        have hi := ih (noteAnswer s p) hd
        change match retryPoint s.bufStart s.bufEnd none todo with
          | none => _
          | some (p, rest) => _ at hi
        split at hi
        · obtain ⟨hr, t, ht, hs⟩ := hi
          refine ⟨hr, t, ?_, hs⟩
          rcases ht with rfl | ⟨q, hq, rfl⟩
          · exact .inr ⟨p, hin, rfl⟩
          · exact .inr ⟨q, hq, rfl⟩
        · exact hi
      · have hbounds : ¬ (s.bufStart ≤ p.offset ∧ p.offset < s.bufEnd) := by
          simpa [inBuffer] using hin
        rw [if_neg hbounds, if_neg hin, if_pos hd]
        split_ifs with hretry
        · exact ⟨rfl, rfl⟩
        · have hi := ih s hd
          split at hi
          · obtain ⟨hr, t, ht, hs⟩ := hi
            exact ⟨hr, t, ht, hs⟩
          · exact hi

-- An answer is a slice of the buffer for a request in it, or a refusal.
inductive Answers (s : State) (p : Pending) : Out → Prop where
  | data : inBuffer s p → Answers s p (answer s p)
  | refused : Answers s p (.refused p.id)

-- Every request of the loop is left waiting or answered, and answered once.
theorem serveLoop_answers (kept todo : List Pending) (s : State) :
    ∃ done, (kept ++ todo).Perm (done ++ (serveLoop kept todo s).state.pending) ∧
      List.Forall₂ (Answers s) done (serveLoop kept todo s).out := by
  induction todo generalizing kept s with
  | nil => exact ⟨[], by simp [serveLoop_nil], .nil⟩
  | cons p todo ih =>
      rw [serveLoop]
      by_cases hin : inBuffer s p
      · rw [if_pos hin]
        by_cases hen : enough s p ∨ s.drained
        · obtain ⟨done, hperm, hall⟩ := ih kept (noteAnswer s p)
          rw [if_pos hen]
          refine ⟨p :: done, ?_, .cons (.data hin) ?_⟩
          · exact List.perm_middle.trans (hperm.cons p)
          · refine List.Forall₂.imp ?_ hall
            intro q o h
            cases h with
            | data h => exact .data h
            | refused => exact .refused
        · obtain ⟨done, hperm, hall⟩ := ih (kept ++ [p]) s
          rw [if_neg hen]
          exact ⟨done, by simpa using hperm, hall⟩
      · rw [if_neg hin]
        split_ifs with hd hretry
        · exact ⟨[], List.Perm.refl _, .nil⟩
        · obtain ⟨done, hperm, hall⟩ := ih kept s
          refine ⟨p :: done, ?_, .cons .refused hall⟩
          exact List.perm_middle.trans (hperm.cons p)
        · obtain ⟨done, hperm, hall⟩ := ih (kept ++ [p]) s
          exact ⟨done, by simpa using hperm, hall⟩

end Loop

section Settle

variable (s : State)

@[simp] theorem trimBuffer_pending : s.trimBuffer.pending = s.pending := rfl
@[simp] theorem trimBuffer_reply : s.trimBuffer.reply = s.reply := rfl
@[simp] theorem trimBuffer_buf : s.trimBuffer.buf = s.buf.drop s.dropCount := rfl
@[simp] theorem trimBuffer_bufStart : s.trimBuffer.bufStart = s.bufStart + s.dropCount := rfl

theorem dropCount_le : s.dropCount ≤ s.buf.length := by
  unfold State.dropCount
  simp only
  split_ifs <;> omega

end Settle

section ServePending

-- What one pass can do to the state: trim the buffer, or connect again.
inductive Passed (s : State) : State → Prop where
  | settled (d : Nat) (hd : d ≤ s.buf.length) (pending : List Pending) (retriedAt : Option Nat)
      (readerAt : Nat) (pull : Bool) (queued : Nat) :
      Passed s { s with
        buf := s.buf.drop d
        bufStart := s.bufStart + d
        pending := pending
        retriedAt := retriedAt
        readerAt := readerAt
        pull := pull
        queued := queued }
  | retried (p : Pending) (hp : p ∈ s.pending) (pending : List Pending) :
      Passed s (({ s with
        retriedAt := some p.offset
        pending := pending } : State).streamFrom p.offset)

theorem settle_passed {s t : State} (ht : Noted s t) (pending : List Pending) :
    Passed s (settle (t.leave pending)) := by
  have hd : (t.leave pending).dropCount ≤ s.buf.length := by
    rcases ht with rfl | ⟨q, -, rfl⟩
    · exact dropCount_le _
    · exact dropCount_le _
  rcases ht with rfl | ⟨q, -, rfl⟩
  · exact .settled _ hd pending _ _ _ _
  · exact .settled _ hd pending _ _ _ _

theorem foldl_noteAnswer (ps : List Pending) (s : State) :
    ps = [] ∨ ∃ q ∈ ps, ps.foldl noteAnswer s = noteAnswer s q := by
  induction ps generalizing s with
  | nil => exact .inl rfl
  | cons p ps ih =>
      right
      rcases ih (noteAnswer s p) with rfl | ⟨q, hq, h⟩
      · exact ⟨p, List.mem_cons_self, rfl⟩
      · exact ⟨q, List.mem_cons_of_mem p hq, h⟩

-- While the reply goes on, a pass with nothing to answer only settles.
theorem servePending_undrained (s : State) (hd : s.drained = false) :
    ((∀ p ∈ s.pending, served s p = false) ∧ servePending s = (settle s, [])) ∨
    ∃ q ∈ s.pending, served s q ∧ (servePending s).2 ≠ [] ∧
      (servePending s).1 =
        settle ((noteAnswer s q).leave (s.pending.filter (fun p => !served s p))) := by
  unfold servePending
  rw [serveLoop_undrained [] s.pending s hd]
  rcases foldl_noteAnswer (s.pending.filter (served s)) s with hnone | ⟨q, hq, hfold⟩
  · left
    have hall : ∀ p ∈ s.pending, served s p = false := by
      simpa [List.filter_eq_nil_iff] using hnone
    refine ⟨hall, ?_⟩
    have hkept : s.pending.filter (fun p => !served s p) = s.pending := by
      rw [List.filter_eq_self]
      intro p hp
      simp [hall p hp]
    simp [hnone, hkept]
  · right
    obtain ⟨hmem, hserved⟩ := List.mem_filter.mp hq
    refine ⟨q, hmem, hserved, ?_, by rw [hfold]; rfl⟩
    simp only [ne_eq, List.map_eq_nil_iff]
    exact List.ne_nil_of_mem hq

-- Once the reply has ended, no request waits on it: the pass ends with none or reconnects.
theorem servePending_drained (s : State) (hd : s.drained = true) :
    match retryPoint s.bufStart s.bufEnd s.retriedAt s.pending with
    | none => ∃ t, Noted s t ∧ (servePending s).1 = settle (t.leave [])
    | some (p, rest) =>
        (servePending s).1 =
          ({ s with retriedAt := some p.offset, pending := p :: rest }).streamFrom p.offset := by
  have h := serveLoop_drained [] s.pending s hd
  unfold servePending
  split at h
  · obtain ⟨hr, t, ht, hs⟩ := h
    refine ⟨t, ht, ?_⟩
    simp only [hr, hs, Bool.false_eq_true, if_false]
  · obtain ⟨hr, hs⟩ := h
    simp only [hr, hs, if_true, List.nil_append]

theorem servePending_passed (s : State) : Passed s (servePending s).1 := by
  cases hd : s.drained with
  | false =>
      rcases servePending_undrained s hd with ⟨-, h⟩ | ⟨q, -, hq, -, h⟩
      · rw [h]
        exact settle_passed (.inl rfl) s.pending
      · rw [h]
        exact settle_passed (.inr ⟨q, (Bool.and_eq_true _ _ ▸ hq).1, rfl⟩) _
  | true =>
      have h := servePending_drained s hd
      split at h
      · obtain ⟨t, ht, hs⟩ := h
        rw [hs]
        exact settle_passed ht []
      · rename_i p rest hp
        rw [h]
        exact .retried p ((retryPoint_mem hp).subset List.mem_cons_self) _

theorem servePending_answers (s : State) :
    ∃ done, s.pending.Perm (done ++ (servePending s).1.pending) ∧
      List.Forall₂ (Answers s) done (servePending s).2 := by
  obtain ⟨done, hperm, hall⟩ := serveLoop_answers [] s.pending s
  refine ⟨done, ?_, hall⟩
  have hsame : (servePending s).1.pending = (serveLoop [] s.pending s).state.pending := by
    unfold servePending
    simp only
    split
    · rfl
    · rfl
  rw [hsame]
  exact hperm

end ServePending

section OnHttpData

theorem onHttpData_none {s : State} (hr : s.reply = none) : onHttpData s = (s, []) := by
  simp only [onHttpData, hr]

theorem onHttpData_ok {s : State} {r : Reply} (hr : s.reply = some r)
    (hok : replyStartsAtBuffer s r) : onHttpData s = servePending (readReply s.markChecked r) := by
  simp only [onHttpData, hr, if_pos hok]

theorem onHttpData_refused {s : State} {r : Reply} (hr : s.reply = some r)
    (hok : ¬ replyStartsAtBuffer s r) : onHttpData s = refuseAll s r := by
  simp only [onHttpData, hr, if_neg hok]

end OnHttpData

section Request

-- What becomes of a request that is taken.
theorem request_file {s : State} {id : UInt32} {offset length : Int} {content : Bytes}
    (ht : takes s offset length) (hf : s.file = some content) :
    request s id offset length =
      let p := asPending s id offset length
      let bytes := (content.drop p.offset).take p.length
      (s, [if bytes.isEmpty then .refused id else .data id p.offset bytes]) := by
  simp only [request, if_pos ht, hf]

theorem request_http {s : State} {id : UInt32} {offset length : Int}
    (ht : takes s offset length) (hf : s.file = none) :
    request s id offset length =
      let p := asPending s id offset length
      if inBuffer (s.await p) p ∨ comingSoon (s.await p) p then servePending (s.await p)
      else ((s.await p).streamFrom p.offset, []) := by
  simp only [request, if_pos ht, hf]

theorem request_rejected {s : State} {id : UInt32} {offset length : Int}
    (ht : ¬ takes s offset length) : request s id offset length = (s, [.refused id]) := by
  simp only [request, if_neg ht]

end Request

section Next

theorem onReply_some {s s' : State} {out : List Out} {canStep : Reply → Bool}
    {f : Reply → Reply} (hn : onReply s canStep f = some (s', out)) :
    ∃ r, s.reply = some r ∧ canStep r ∧ s' = { s with reply := some (f r) } ∧ out = [] := by
  unfold onReply at hn
  cases hr : s.reply with
  | none => simp [hr] at hn
  | some r =>
      simp only [hr] at hn
      split_ifs at hn with hcan
      obtain ⟨rfl, rfl⟩ : _ = s' ∧ [] = out := by simpa using hn
      exact ⟨r, rfl, hcan, rfl, rfl⟩

theorem next_httpData {s s' : State} {out : List Out} {caller : Caller}
    (hn : next s (.httpData caller) = some (s', out)) :
    calls s caller ∧ ∃ queued, onHttpData { s with queued := queued } = (s', out) := by
  simp only [next] at hn
  by_cases hc : calls s caller
  · rw [if_pos hc] at hn
    exact ⟨hc, _, Option.some.inj hn⟩
  · rw [if_neg hc] at hn
    exact absurd hn (by simp)

end Next

end BATorrent.MediaFeed
