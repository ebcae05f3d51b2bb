import BATorrent.Webui.StreamConnection.Served

namespace BATorrent.StreamConnection

open Lib Machine Lib.ByteText
open Lib.DataStream (Bytes)

-- Something will pump a connection that is served.
def Awake (c : Conn) : Prop :=
  c.serving = true → c.connected = true → c.retry = true ∨ 0 < c.queued ∨ 0 < c.backlog

section Pump

variable {content : Bytes} {c : Conn} {a : Answers}

theorem awake_waitOrGiveUp (c : Conn) (now : Int) : Awake (c.waitOrGiveUp now) := by
  intro _ hconnected
  unfold Conn.waitOrGiveUp at hconnected ⊢
  split_ifs at hconnected ⊢
  · cases hconnected
  · exact .inl rfl

theorem backlog_goOn (c : Conn) : c.goOn.backlog = c.backlog := by
  unfold Conn.goOn
  split_ifs <;> rfl

theorem backlog_refresh (c : Conn) (now : Int) : (c.refresh now).1.backlog = c.backlog := by
  unfold Conn.refresh
  split_ifs <;> rfl

theorem awake_write {buf : Bytes} (hbuf : buf ≠ []) (now : Int) : Awake (c.write buf now).1 := by
  intro _ _
  refine .inr (.inr ?_)
  unfold Conn.write
  dsimp only
  rw [backlog_goOn, backlog_refresh]
  have hpos := List.length_pos_of_ne_nil hbuf
  change 0 < c.backlog + buf.length
  omega

theorem awake_serve (content : Bytes) (c : Conn) (a : Answers) : Awake (c.serve content a).1 := by
  unfold Conn.serve
  rcases ({ c with retry := false } : Conn).ensureOpen a with ⟨c', ok⟩
  cases ok with
  | false => exact awake_waitOrGiveUp c' a.now
  | true =>
      dsimp only
      split_ifs with hbuf
      · exact fun _ _ => .inl rfl
      · exact awake_write hbuf a.now

-- Whichever way a pump goes, it sees to the next one.
theorem awake_pump (content : Bytes) (c : Conn) (a : Answers) : Awake (c.pump content a).1 := by
  unfold Conn.pump
  split_ifs with hclosed hdone hbacklog hgone havail
  · intro _ hconnected
    rw [hconnected] at hclosed
    cases hclosed
  · exact fun _ hconnected => absurd hconnected Bool.false_ne_true
  · exact fun _ _ => .inr (.inr (by dsimp only; omega))
  · exact fun _ hconnected => absurd hconnected Bool.false_ne_true
  · exact awake_waitOrGiveUp { c with waiting := true, lastWindow := a.now } a.now
  · cases c.gateOf a with
    | block => exact fun _ hconnected => absurd hconnected Bool.false_ne_true
    | wait => exact awake_waitOrGiveUp c a.now
    | allow => exact awake_serve content _ a

-- A file that is open, or that there is, and a position that there is in it.
def Opens (c : Conn) (a : Answers) : Prop := a.seeks = true ∧ (c.open_ = true ∨ a.path ≠ [] ∧ a.opens = true)

-- There is nothing for the reader, or it is sent all that is left.
def NothingMore (content : Bytes) (c : Conn) (a : Answers) : Prop :=
  c.last < c.pos ∨ a.torrentIndex < 0 ∨ a.avail ≤ 0 ∨ c.gateOf a ≠ .allow ∨ ¬ Opens c a ∨
    c.last - c.pos < (c.read content a).length

theorem ensureOpen_snd : (c.ensureOpen a).2 = true ↔ Opens c a := by
  unfold Conn.ensureOpen Opens
  by_cases hopen : c.open_ = true
  · rw [if_pos hopen]
    simp [hopen]
  · rw [if_neg hopen]
    by_cases hpath : a.path = []
    · simp [hopen, hpath]
    · cases hopens : a.opens with
      | true => simp [hpath]
      | false => simp [hopen]

theorem ensureOpen_same :
    (c.ensureOpen a).1.pos = c.pos ∧ (c.ensureOpen a).1.last = c.last ∧
      (c.ensureOpen a).1.noProgress = c.noProgress ∧ (c.ensureOpen a).1.connected = c.connected := by
  unfold Conn.ensureOpen
  split_ifs <;> exact ⟨rfl, rfl, rfl, rfl⟩

theorem connected_waitOrGiveUp (h : kGiveUpMs < a.now - c.noProgress) : (c.waitOrGiveUp a.now).connected = false := by
  unfold Conn.waitOrGiveUp
  rw [if_pos h]
  rfl

theorem connected_write {buf : Bytes} {now : Int} (hconnected : c.connected = true) :
    (c.write buf now).1.connected = false ↔ c.last - c.pos < buf.length := by
  have hrefresh : ∀ d : Conn, (d.refresh now).1.connected = d.connected ∧ (d.refresh now).1.last = d.last ∧
      (d.refresh now).1.pos = d.pos := by
    intro d
    unfold Conn.refresh
    split_ifs <;> exact ⟨rfl, rfl, rfl⟩
  unfold Conn.write Conn.goOn
  dsimp only
  generalize hsent : ({ c with
      body := c.body ++ buf
      backlog := c.backlog + buf.length
      waiting := false
      pos := c.pos + buf.length
      noProgress := now } : Conn) = sent
  obtain ⟨hstill, hlast, hpos⟩ := hrefresh sent
  have hstill' : (sent.refresh now).1.connected = true := by
    rw [hstill, ← hsent]
    exact hconnected
  have hreach : (sent.refresh now).1.last < (sent.refresh now).1.pos ↔ c.last - c.pos < buf.length := by
    rw [hlast, hpos, ← hsent]
    dsimp only
    omega
  rw [← hreach]
  split_ifs with hdone hlow
  · exact iff_of_true rfl hdone
  · exact iff_of_false (by dsimp only; rw [hstill']; exact Bool.noConfusion) hdone
  · exact iff_of_false (by rw [hstill']; exact Bool.noConfusion) hdone

-- A pump of a connection that has waited too long closes it exactly where there is nothing more to wait
-- for than what the pump gives.
theorem connected_pump (hconnected : c.connected = true) (hdrained : c.backlog = 0)
    (hquiet : kGiveUpMs < a.now - c.noProgress) :
    (c.pump content a).1.connected = false ↔ NothingMore content c a := by
  unfold Conn.pump NothingMore
  rw [if_neg (by simp [hconnected])]
  by_cases hdone : c.last < c.pos
  · rw [if_pos hdone]
    exact iff_of_true rfl (.inl hdone)
  rw [if_neg hdone, or_iff_right hdone, if_neg (by rw [hdrained]; exact Nat.not_lt_zero _)]
  by_cases hgone : a.torrentIndex < 0
  · rw [if_pos hgone]
    exact iff_of_true rfl (.inl hgone)
  rw [if_neg hgone, or_iff_right hgone]
  by_cases havail : a.avail ≤ 0
  · rw [if_pos havail]
    exact iff_of_true (connected_waitOrGiveUp hquiet) (.inl havail)
  rw [if_neg havail, or_iff_right havail]
  cases hgate : c.gateOf a with
  | block => exact iff_of_true rfl (.inl nofun)
  | wait => exact iff_of_true (connected_waitOrGiveUp hquiet) (.inl nofun)
  | allow =>
      rw [or_iff_right (not_not.mpr rfl)]
      dsimp only
      unfold Conn.serve
      have hsnd := ensureOpen_snd (c := { c with admitted := c.admitted || a.gate.isSome, retry := false }) (a := a)
      obtain ⟨hpos, hlast, hprogress, hstill⟩ := ensureOpen_same
        (c := { c with admitted := c.admitted || a.gate.isSome, retry := false }) (a := a)
      rcases hopen : ({ c with admitted := c.admitted || a.gate.isSome, retry := false } : Conn).ensureOpen a
        with ⟨c', ok⟩
      rw [hopen] at hsnd hpos hlast hprogress hstill
      dsimp only at hsnd hpos hlast hprogress hstill
      have hopens : ok = true ↔ Opens c a := hsnd
      have hread : c'.read content a = c.read content a := by
        unfold Conn.read
        rw [hpos, hlast]
      cases ok with
      | false =>
          have hnot : ¬ Opens c a := fun h => Bool.false_ne_true (hopens.mpr h)
          rw [← hprogress] at hquiet
          exact iff_of_true (connected_waitOrGiveUp hquiet) (.inl hnot)
      | true =>
          rw [or_iff_right (not_not.mpr (hopens.mp rfl))]
          dsimp only
          rw [hread]
          by_cases hempty : c.read content a = []
          · rw [if_pos hempty, hempty]
            refine iff_of_false (fun h => ?_) (by rw [List.length_nil]; omega)
            rw [show _ = c'.connected from rfl, hstill, hconnected] at h
            cases h
          · rw [if_neg hempty, connected_write (hstill.trans hconnected), hpos, hlast]

end Pump

section Run

variable {content : Bytes} {c c' : Conn} {e : Event} {outs : List Out}

-- The connection as a pump finds it, with what that pump is answered.
def pumped (c : Conn) : Event → Option (Conn × Answers)
  | .readyRead _ _ _ => none
  | .timeout a => if c.retry then some (c, a) else none
  | .zeroDelay a => if 0 < c.queued then some ({ c with queued := c.queued - 1 }, a) else none
  | .bytesWritten n a => if 0 < n ∧ n ≤ c.backlog then some ({ c with backlog := c.backlog - n }, a) else none
  | .pieceFinished hash a => if c.waiting ∧ hash.map toLower = c.hash.map toLower then some (c, a) else none
  | .disconnected => none

-- A pump of a connection that was sent nothing for too long, with a socket that has nothing to send.
def Late (c : Conn) (a : Answers) : Prop :=
  c.serving = true ∧ c.connected = true ∧ c.backlog = 0 ∧ kGiveUpMs < a.now - c.noProgress

def GivesUp (r : Reaction Conn Event Out) (c' : Conn) : Prop :=
  ∀ c a, pumped r.before r.event = some (c, a) → Late c a → c'.connected = false

def LeavesNothing (content : Bytes) (c : Conn) (e : Event) : Prop :=
  ∀ c' a, pumped c e = some (c', a) → Late c' a → NothingMore content c' a

theorem next_pumped {d : Conn} {a : Answers} (hnext : c.next content e = some (c', outs))
    (hpumped : pumped c e = some (d, a)) : c' = (d.pump content a).1 := by
  cases e with
  | readyRead bytes look a => cases hpumped
  | disconnected => cases hpumped
  | timeout a =>
      dsimp only [pumped] at hpumped
      dsimp only [Conn.next] at hnext
      split_ifs at hpumped hnext
      cases hpumped
      exact (congrArg Prod.fst (Option.some.inj hnext)).symm
  | zeroDelay a =>
      dsimp only [pumped] at hpumped
      dsimp only [Conn.next] at hnext
      split_ifs at hpumped hnext
      cases hpumped
      exact (congrArg Prod.fst (Option.some.inj hnext)).symm
  | bytesWritten n a =>
      dsimp only [pumped] at hpumped
      dsimp only [Conn.next] at hnext
      split_ifs at hpumped hnext
      cases hpumped
      exact (congrArg Prod.fst (Option.some.inj hnext)).symm
  | pieceFinished hash a =>
      dsimp only [pumped] at hpumped
      dsimp only [Conn.next] at hnext
      split_ifs at hpumped hnext
      cases hpumped
      exact (congrArg Prod.fst (Option.some.inj hnext)).symm

theorem awake_begin (content headers : Bytes) (c : Conn) (look : Lookup) (a : Answers) (h : c.serving = false) :
    Awake (c.begin content headers look a).1 := by
  have hfail : ∀ code, Awake ({ c with started := true }.fail code).1 := fun code hserving =>
    absurd (h.symm.trans hserving) Bool.false_ne_true
  unfold Conn.begin
  dsimp only
  cases targetOf headers with
  | error code => exact hfail code
  | ok t =>
      dsimp only
      split_ifs
      · exact hfail 404
      · exact hfail 403
      · exact hfail 416
      · exact fun _ hconnected => absurd hconnected Bool.false_ne_true
      · exact awake_pump content _ a

theorem awake_next (hawake : Awake c) (hfresh : c.started = false → c.serving = false)
    (hnext : c.next content e = some (c', outs)) : Awake c' := by
  cases hpumped : pumped c e with
  | some d =>
      rw [next_pumped hnext hpumped]
      exact awake_pump content d.1 d.2
  | none =>
      cases e with
      | readyRead bytes look a =>
          have hread := Option.some.inj hnext
          unfold Conn.onReadyRead at hread
          by_cases hstarted : c.started = true
          · rw [if_pos hstarted] at hread
            obtain ⟨rfl, -⟩ := Prod.mk.inj hread
            exact hawake
          · have hserving := hfresh (Bool.eq_false_iff.mpr hstarted)
            rw [if_neg hstarted] at hread
            dsimp only at hread
            cases hstop : ByteText.indexOf (ByteText.ascii "\r\n\r\n") (c.req ++ bytes) with
            | none =>
                rw [hstop] at hread
                obtain ⟨rfl, -⟩ := Prod.mk.inj hread
                split_ifs <;> exact fun h => absurd (hserving.symm.trans h) Bool.false_ne_true
            | some stop =>
                rw [hstop] at hread
                have hbegan := awake_begin content ((c.req ++ bytes).take stop) { c with req := c.req ++ bytes } look a
                  hserving
                dsimp only at hread
                rw [hread] at hbegan
                exact hbegan
      | timeout a =>
          dsimp only [pumped] at hpumped
          dsimp only [Conn.next] at hnext
          split_ifs at hpumped hnext
      | zeroDelay a =>
          dsimp only [pumped] at hpumped
          dsimp only [Conn.next] at hnext
          split_ifs at hpumped hnext
      | bytesWritten n a =>
          dsimp only [pumped] at hpumped
          dsimp only [Conn.next] at hnext
          split_ifs at hpumped hnext
      | pieceFinished hash a =>
          dsimp only [pumped] at hpumped
          dsimp only [Conn.next] at hnext
          split_ifs at hpumped hnext
          obtain ⟨rfl, -⟩ := Prod.mk.inj (Option.some.inj hnext)
          exact hawake
      | disconnected =>
          obtain ⟨rfl, -⟩ := Prod.mk.inj (Option.some.inj hnext)
          exact fun _ hconnected => absurd hconnected Bool.false_ne_true

theorem awake_run (content : Bytes) (opened : Int) {past : List (Reaction Conn Event Out)} {c : Conn}
    (hrun : (machine content opened).Run (fun _ _ => True) past c) : Awake c := by
  induction hrun with
  | init => exact fun hserving => absurd hserving Bool.false_ne_true
  | step hrun _ hnext ih => exact awake_next ih (inv_run content opened hrun).fresh hnext

-- In every run something wakes each connection that is served, and one that was sent nothing for too
-- long is closed by the next pump exactly where that pump leaves nothing to wait for.
theorem run_awake (content : Bytes) (opened : Int) {past : List (Reaction Conn Event Out)} {c : Conn}
    (hrun : (machine content opened).Run (fun _ _ => True) past c) :
    ((∀ d ∈ visited past c, Awake d) ∧ eachStep (fun _ => GivesUp) past c) ↔
      ∀ r ∈ past, LeavesNothing content r.before r.event := by
  have hawake : ∀ d ∈ visited past c, Awake d := by
    intro d hd
    rcases List.mem_cons.mp hd with rfl | hd
    · exact awake_run content opened hrun
    · obtain ⟨r, hr, rfl⟩ := List.mem_map.mp hd
      obtain ⟨earlier, s', hearlier, -⟩ := hrun.before hr
      exact awake_run content opened hearlier
  rw [and_iff_right hawake, ← eachStep_forall (s := c)]
  refine hrun.eachStep_iff fun past c e c' outs _ _ hnext _ => ?_
  unfold GivesUp LeavesNothing
  refine forall_congr' fun d => forall_congr' fun a => forall_congr' fun hpumped => forall_congr' fun hlate => ?_
  obtain ⟨_, hconnected, hdrained, hquiet⟩ := hlate
  rw [next_pumped hnext hpumped]
  exact connected_pump hconnected hdrained hquiet

def filmBytes : Bytes := ByteText.ascii "GET /stream/ab/0 HTTP/1.1\r\nRange: bytes=2-4\r\n\r\n"

-- Nothing of the film is there yet.
def waits (now : Int) : Answers := ⟨now, 0, 0, none, ['f'], true, true, 0⟩

-- All of it is said to be there, and a read gives nothing.
def readsNothing (now : Int) : Answers := ⟨now, 0, 8, none, ['f'], true, true, 0⟩

-- The film was asked for.
def asked : Conn where
  req := filmBytes
  started := true
  serving := true
  connected := true
  hash := [97, 98]
  fileIdx := 0
  admitted := false
  first := 2
  pos := 2
  last := 4
  body := []
  open_ := false
  retry := true
  queued := 0
  backlog := 153
  waiting := true
  noProgress := 0
  lastWindow := 0

theorem onReadyRead_film : ((machine [] 0).init.onReadyRead [] filmBytes film (waits 0)).1 = asked := by
  decide +kernel

theorem next_film :
    ∃ outs, (machine [] 0).next (machine [] 0).init (.readyRead filmBytes film (waits 0)) = some (asked, outs) := by
  have hasked := onReadyRead_film
  cases hreply : (machine [] 0).init.onReadyRead [] filmBytes film (waits 0) with
  | mk c outs =>
      rw [hreply] at hasked
      exact ⟨outs, congrArg some (hreply.trans (Prod.ext hasked rfl))⟩

-- A minute and a half later the headers are sent and nothing has come.
theorem run_drained : ∃ outs, (machine [] 0).Run (fun _ _ => True)
    [⟨asked, .bytesWritten 153 (waits 10), [.deadlineWindow 2]⟩,
      ⟨(machine [] 0).init, .readyRead filmBytes film (waits 0), outs⟩]
    { asked with backlog := 0, lastWindow := 10 } := by
  obtain ⟨outs, hasked⟩ := next_film
  exact ⟨outs, (Run.init.extend _ trivial hasked).extend (.bytesWritten 153 (waits 10)) trivial (by decide +kernel)⟩

theorem run_awake_film :
    ∃ past c, (machine [] 0).Run (fun _ _ => True) past c ∧ past.length = 3 ∧
      (∀ d ∈ visited past c, Awake d) ∧ eachStep (fun _ => GivesUp) past c := by
  obtain ⟨outs, hdrained⟩ := run_drained
  have hrun := hdrained.extend (.timeout (waits 90001)) trivial rfl
  refine ⟨_, _, hrun, rfl, (run_awake [] 0 hrun).mpr ?_⟩
  rw [List.forall_mem_cons, List.forall_mem_cons, List.forall_mem_singleton]
  refine ⟨fun d a hpumped _ => ?_, fun d a hpumped _ => ?_, fun d a hpumped => ?_⟩
  · cases hpumped
    exact .inr (.inr (.inl (by decide)))
  · cases hpumped
    exact .inr (.inr (.inl (by decide)))
  · cases hpumped

-- The film opens, and nothing is read of it.
theorem not_gives_up :
    ¬ ∀ past c, (machine [] 0).Run (fun _ _ => True) past c → eachStep (fun _ => GivesUp) past c := by
  intro h
  obtain ⟨outs, hdrained⟩ := run_drained
  have hrun := hdrained.extend (.timeout (readsNothing 90001)) trivial rfl
  have hstep := (h _ _ hrun).1
  exact absurd (hstep _ _ rfl ⟨rfl, rfl, rfl, by decide⟩) Bool.noConfusion

end Run

end BATorrent.StreamConnection
