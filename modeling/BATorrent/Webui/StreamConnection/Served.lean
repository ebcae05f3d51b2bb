import BATorrent.Webui.StreamConnection.Ranges

namespace BATorrent.StreamConnection

open Lib Lib.ByteText Machine
open Lib.DataStream (Bytes)

def Out.bodyBytes : Out → Bytes
  | .body bytes => bytes
  | _ => []

-- What was written of the body, in the order in which it was.
def sent (outs : List Out) : Bytes := outs.flatMap Out.bodyBytes

def sentBy (past : List (Reaction Conn Event Out)) : Bytes := sent (past.reverse.flatMap Reaction.out)

theorem sentBy_cons (r : Reaction Conn Event Out) (past : List (Reaction Conn Event Out)) :
    sentBy (r :: past) = sentBy past ++ sent r.out := by
  unfold sentBy sent
  rw [List.reverse_cons, List.flatMap_append, List.flatMap_append, List.flatMap_singleton]

-- The reader has been sent its interval up to where it is.
structure Reads (content : Bytes) (c : Conn) : Prop where
  first : 0 ≤ c.first
  pos : c.first ≤ c.pos
  last : c.pos ≤ c.last + 1
  body : c.body = (content.drop c.first.toNat).take (c.pos - c.first).toNat
  length : (c.body.length : Int) = c.pos - c.first

-- What a pump leaves alone, and what it adds to the body.
structure Pumped (content : Bytes) (c c' : Conn) (outs : List Out) : Prop where
  req : c'.req = c.req
  started : c'.started = c.started
  serving : c'.serving = c.serving
  first : c'.first = c.first
  last : c'.last = c.last
  body : c'.body = c.body ++ sent outs
  reads : Reads content c → Reads content c'

section Pump

variable {content : Bytes} {c c' : Conn} {a : Answers}

theorem pumped_refl (content : Bytes) (c : Conn) : Pumped content c c [] :=
  ⟨rfl, rfl, rfl, rfl, rfl, (List.append_nil _).symm, id⟩

-- What the reader and its body are not part of.
theorem pumped_of_eq {outs : List Out} (hreq : c'.req = c.req) (hstarted : c'.started = c.started)
    (hserving : c'.serving = c.serving) (hfirst : c'.first = c.first) (hpos : c'.pos = c.pos)
    (hlast : c'.last = c.last) (hbody : c'.body = c.body) (houts : sent outs = []) : Pumped content c c' outs := by
  refine ⟨hreq, hstarted, hserving, hfirst, hlast, by rw [houts, List.append_nil, hbody], fun h => ?_⟩
  exact ⟨hfirst ▸ h.first, by rw [hfirst, hpos]; exact h.pos, by rw [hpos, hlast]; exact h.last,
    by rw [hbody, hfirst, hpos]; exact h.body, by rw [hbody, hfirst, hpos]; exact h.length⟩

theorem Pumped.trans {c'' : Conn} {outs outs' : List Out} (h : Pumped content c c' outs)
    (h' : Pumped content c' c'' outs') : Pumped content c c'' (outs ++ outs') where
  req := h'.req.trans h.req
  started := h'.started.trans h.started
  serving := h'.serving.trans h.serving
  first := h'.first.trans h.first
  last := h'.last.trans h.last
  body := by rw [h'.body, h.body, sent, sent, sent, List.flatMap_append, List.append_assoc]
  reads hreads := h'.reads (h.reads hreads)

theorem pumped_waitOrGiveUp (content : Bytes) (c : Conn) (now : Int) (outs : List Out) (houts : sent outs = []) :
    Pumped content c (c.waitOrGiveUp now) outs := by
  unfold Conn.waitOrGiveUp
  split_ifs <;> exact pumped_of_eq rfl rfl rfl rfl rfl rfl rfl houts

theorem pumped_ensureOpen (content : Bytes) (c : Conn) (a : Answers) : Pumped content c (c.ensureOpen a).1 [] := by
  unfold Conn.ensureOpen
  split_ifs <;> exact pumped_of_eq rfl rfl rfl rfl rfl rfl rfl rfl

theorem pumped_goOn (c : Conn) : Pumped content c c.goOn [] := by
  unfold Conn.goOn
  split_ifs <;> exact pumped_of_eq rfl rfl rfl rfl rfl rfl rfl rfl

theorem pumped_refresh (c : Conn) (now : Int) : Pumped content c (c.refresh now).1 (c.refresh now).2 := by
  unfold Conn.refresh
  split_ifs
  · exact pumped_of_eq rfl rfl rfl rfl rfl rfl rfl rfl
  · exact pumped_refl content c

-- A read of the open file continues the body, within the interval.
theorem pumped_write (hpos : c.pos ≤ c.last) (now : Int) :
    Pumped content c (c.write (c.read content a) now).1 (c.write (c.read content a) now).2 := by
  set buf := c.read content a with hbuf
  have hsent : Pumped content c { c with
      body := c.body ++ buf
      backlog := c.backlog + buf.length
      waiting := false
      pos := c.pos + buf.length
      noProgress := now } [.body buf] := by
    refine ⟨rfl, rfl, rfl, rfl, rfl, ?_, fun h => ?_⟩
    · rw [sent, List.flatMap_singleton]
      rfl
    · have hle : (buf.length : Int) ≤ c.last - c.pos + 1 := by
        have hlength : buf.length ≤ (min a.avail (c.last - c.pos + 1)).toNat := by
          rw [hbuf, Conn.read, List.length_take, List.length_take]
          omega
        omega
      have hfirst := h.first
      have hread := h.pos
      refine ⟨h.first, ?_, ?_, ?_, ?_⟩
      · dsimp only
        omega
      · dsimp only
        omega
      · have htake : buf = (content.drop c.pos.toNat).take buf.length :=
          List.prefix_iff_eq_take.mp ((List.take_prefix _ _).trans (List.take_prefix _ _))
        have hsplit : (c.pos + buf.length - c.first).toNat = (c.pos - c.first).toNat + buf.length := by omega
        have hdrop : c.pos.toNat = c.first.toNat + (c.pos - c.first).toNat := by omega
        dsimp only
        rw [hsplit, List.take_add, List.drop_drop, ← hdrop, ← htake, h.body]
      · have hlength := h.length
        dsimp only
        rw [List.length_append]
        omega
  have hrest := hsent.trans ((pumped_refresh _ now).trans (pumped_goOn _))
  rw [List.append_nil] at hrest
  exact hrest

theorem pumped_serve (hpos : c.pos ≤ c.last) : Pumped content c (c.serve content a).1 (c.serve content a).2 := by
  have hopen := pumped_ensureOpen content { c with retry := false } a
  have hstart : Pumped content c { c with retry := false } [] := pumped_of_eq rfl rfl rfl rfl rfl rfl rfl rfl
  have hplace : ({ c with retry := false }.ensureOpen a).1.pos = c.pos := by
    unfold Conn.ensureOpen
    split_ifs <;> rfl
  unfold Conn.serve
  rcases hensure : ({ c with retry := false } : Conn).ensureOpen a with ⟨c', ok⟩
  rw [hensure] at hopen hplace
  cases ok with
  | false => exact hstart.trans (hopen.trans (pumped_waitOrGiveUp content c' a.now [] rfl))
  | true =>
      dsimp only at hopen hplace ⊢
      split_ifs
      · exact hstart.trans (hopen.trans (pumped_of_eq rfl rfl rfl rfl rfl rfl rfl rfl))
      · refine hstart.trans (hopen.trans (pumped_write ?_ a.now))
        rw [hplace, hopen.last]
        exact hpos

theorem pumped_pump (content : Bytes) (c : Conn) (a : Answers) :
    Pumped content c (c.pump content a).1 (c.pump content a).2 := by
  unfold Conn.pump
  by_cases hconnected : c.connected = true
  · rw [if_neg (by simp [hconnected])]
    by_cases hdone : c.last < c.pos
    · rw [if_pos hdone]
      exact pumped_of_eq rfl rfl rfl rfl rfl rfl rfl rfl
    · rw [if_neg hdone]
      split_ifs
      · exact pumped_refl content c
      · exact pumped_of_eq rfl rfl rfl rfl rfl rfl rfl rfl
      · have hwait := pumped_waitOrGiveUp content
          { c with waiting := true, lastWindow := a.now } a.now [.deadlineWindow c.pos] rfl
        have hmark : Pumped content c { c with waiting := true, lastWindow := a.now } [] :=
          pumped_of_eq rfl rfl rfl rfl rfl rfl rfl rfl
        exact hmark.trans hwait
      · cases c.gateOf a with
        | block => exact pumped_of_eq rfl rfl rfl rfl rfl rfl rfl rfl
        | wait => exact pumped_waitOrGiveUp content c a.now _ rfl
        | allow =>
            have hadmit : Pumped content c { c with admitted := c.admitted || a.gate.isSome } [] :=
              pumped_of_eq rfl rfl rfl rfl rfl rfl rfl rfl
            have hserve : c.pos ≤ c.last := not_lt.mp hdone
            exact hadmit.trans (pumped_serve (c := { c with admitted := c.admitted || a.gate.isSome }) hserve)
  · rw [if_pos (by simpa using hconnected)]
    exact pumped_refl content c

end Pump

-- The interval that is chosen for a header block.
def chosen (headers : Bytes) (size : Int) : Range := (rangeOf headers size).clamp size

-- A reader at the start of its interval.
theorem reads_start {content : Bytes} {c : Conn} (hpos : c.pos = c.first) (hfirst : 0 ≤ c.first) (hlast : c.first ≤ c.last)
    (hbody : c.body = []) : Reads content c where
  first := hfirst
  pos := hpos.ge
  last := by rw [hpos]; omega
  body := by rw [hbody, hpos, Int.sub_self, Int.toNat_zero, List.take_zero]
  length := by rw [hbody, hpos, Int.sub_self]; rfl

section Begin

variable {content headers : Bytes} {c : Conn} {look : Lookup} {a : Answers}

-- What becomes of a request once its headers are there.
structure Began (content headers : Bytes) (look : Lookup) (c c' : Conn) (outs : List Out) : Prop where
  req : c'.req = c.req
  started : c'.started = true
  body : c'.body = c.body ++ sent outs
  refused : c'.serving = c.serving → sent outs = []
  served : c'.serving ≠ c.serving → Reads content c' ∧ c'.first = (chosen headers look.size).start ∧
    c'.last = (chosen headers look.size).last

theorem began_fail (code : Nat) : Began content headers look c ({ c with started := true }.fail code).1
    ({ c with started := true }.fail code).2 :=
  ⟨rfl, rfl, (List.append_nil _).symm, fun _ => rfl, fun h => absurd rfl h⟩

-- A request for a file that is there and not quarantined.
structure Found (headers : Bytes) (look : Lookup) (t : Target) : Prop where
  target : targetOf headers = .ok t
  torrent : 0 ≤ look.torrentIndex
  size : 0 < look.size
  path : look.path ≠ []
  quarantined : look.quarantined = false

theorem begin_found {t : Target} (h : Found headers look t) :
    c.begin content headers look a =
      if (chosen headers look.size).last < (chosen headers look.size).start then
        { c with started := true }.fail 416
      else
        let reply := Out.reply (headerBlock (chosen headers look.size) look.size look.path)
        let c := { c with started := true }.answered t look (chosen headers look.size)
        if t.head then (c.disconnectFromHost, [reply])
        else
          let (c, outs) := { c with serving := true, lastWindow := a.now }.pump content a
          (c, reply :: .deadlineWindow (chosen headers look.size).start :: outs) := by
  have hthere : ¬ (look.torrentIndex < 0 ∨ look.size ≤ 0 ∨ look.path = []) := by
    rintro (hneg | hneg | hnil)
    · exact absurd h.torrent (not_le.mpr hneg)
    · exact absurd h.size (not_lt.mpr hneg)
    · exact h.path hnil
  unfold Conn.begin
  dsimp only
  rw [h.target]
  dsimp only
  rw [if_neg hthere, if_neg (by rw [h.quarantined]; exact Bool.false_ne_true)]
  rfl

theorem began_begin (content headers : Bytes) (look : Lookup) (a : Answers) (hserving : c.serving = false)
    (hbody : c.body = []) :
    Began content headers look c (c.begin content headers look a).1 (c.begin content headers look a).2 := by
  by_cases hfound : ∃ t, Found headers look t
  · obtain ⟨t, hfound⟩ := hfound
    rw [begin_found hfound]
    by_cases hempty : (chosen headers look.size).last < (chosen headers look.size).start
    · rw [if_pos hempty]
      exact began_fail 416
    · rw [if_neg hempty]
      dsimp only
      by_cases hhead : t.head = true
      · rw [if_pos hhead]
        exact ⟨rfl, rfl, (List.append_nil _).symm, fun _ => rfl, fun h => absurd rfl h⟩
      · rw [if_neg hhead]
        have hpump := pumped_pump content
          { ({ c with started := true }.answered t look (chosen headers look.size)) with
            serving := true, lastWindow := a.now } a
        have hreads := hpump.reads (reads_start rfl (le_max_right _ _) (not_lt.mp hempty) hbody)
        exact
          { req := hpump.req
            started := hpump.started
            body := hpump.body
            refused := fun h => by
              rw [show _ = true from hpump.serving, hserving] at h
              cases h
            served := fun _ => ⟨hreads, hpump.first, hpump.last⟩ }
  · unfold Conn.begin
    dsimp only
    cases htarget : targetOf headers with
    | error code => exact began_fail code
    | ok t =>
        dsimp only
        by_cases hthere : look.torrentIndex < 0 ∨ look.size ≤ 0 ∨ look.path = []
        · rw [if_pos hthere]
          exact began_fail 404
        · rw [if_neg hthere]
          by_cases hquarantined : look.quarantined = true
          · rw [if_pos hquarantined]
            exact began_fail 403
          · refine absurd ⟨t, htarget, ?_, ?_, ?_, Bool.eq_false_iff.mpr hquarantined⟩ hfound
            · by_contra hneg
              exact hthere (.inl (not_le.mp hneg))
            · by_contra hneg
              exact hthere (.inr (.inl (not_lt.mp hneg)))
            · exact fun hnil => hthere (.inr (.inr hnil))

end Begin

section Run

variable {content : Bytes} {c c' : Conn} {e : Event} {outs : List Out}

-- Nothing wakes a connection that serves nothing, or it is closed.
def Asleep (c : Conn) : Prop :=
  c.connected = false ∨ c.retry = false ∧ c.queued = 0 ∧ c.backlog = 0 ∧ c.waiting = false

-- The reader of a connection has what was sent to it, and of one that is served that is its interval
-- up to where the reader is.
structure Inv (content : Bytes) (past : List (Reaction Conn Event Out)) (c : Conn) : Prop where
  body : c.body = sentBy past
  fresh : c.started = false → c.serving = false
  refused : c.serving = false → c.body = [] ∧ Asleep c
  served : c.serving = true → Reads content c ∧ ∃ stop look, indexOf (ascii "\r\n\r\n") c.req = some stop ∧
    c.first = (chosen (c.req.take stop) look).start ∧ c.last = (chosen (c.req.take stop) look).last

theorem pump_closed (h : c.connected = false) (a : Answers) : c.pump content a = (c, []) := by
  unfold Conn.pump
  rw [if_pos (by rw [h]; rfl)]

theorem asleep_begin (content headers : Bytes) (c : Conn) (look : Lookup) (a : Answers)
    (hserving : (c.begin content headers look a).1.serving = false) :
    (c.begin content headers look a).1.connected = false := by
  unfold Conn.begin at hserving ⊢
  dsimp only at hserving ⊢
  cases htarget : targetOf headers with
  | error code => rfl
  | ok t =>
      rw [htarget] at hserving
      dsimp only at hserving ⊢
      by_cases hthere : look.torrentIndex < 0 ∨ look.size ≤ 0 ∨ look.path = []
      · rw [if_pos hthere]
        rfl
      rw [if_neg hthere] at hserving ⊢
      by_cases hquarantined : look.quarantined = true
      · rw [if_pos hquarantined]
        rfl
      rw [if_neg hquarantined] at hserving ⊢
      by_cases hempty : ((rangeOf headers look.size).clamp look.size).last < ((rangeOf headers look.size).clamp look.size).start
      · rw [if_pos hempty]
        rfl
      rw [if_neg hempty] at hserving ⊢
      by_cases hhead : t.head = true
      · rw [if_pos hhead]
        rfl
      rw [if_neg hhead] at hserving
      have hpump := (pumped_pump content
        { ({ c with started := true }.answered t look ((rangeOf headers look.size).clamp look.size)) with
          serving := true, lastWindow := a.now } a).serving
      exact Bool.noConfusion (show true = false from hpump.symm.trans hserving)

theorem Inv.pumped {past : List (Reaction Conn Event Out)} (h : Inv content past c) (e : Event)
    (hserving : c.serving = true) (hpumped : Pumped content c c' outs) : Inv content (⟨c, e, outs⟩ :: past) c' where
  body := by rw [sentBy_cons, hpumped.body, h.body]
  fresh hstarted := by
    rw [hpumped.serving]
    exact h.fresh (hpumped.started ▸ hstarted)
  refused hrefused := by
    rw [hpumped.serving, hserving] at hrefused
    cases hrefused
  served _ := by
    obtain ⟨hreads, stop, look, hstop, hfirst, hlast⟩ := h.served hserving
    rw [hpumped.req]
    exact ⟨hpumped.reads hreads, stop, look, hstop, hpumped.first.trans hfirst, hpumped.last.trans hlast⟩

-- A connection that serves nothing stays as it is.
theorem Inv.still {past : List (Reaction Conn Event Out)} (h : Inv content past c) (e : Event)
    (hserving : c.serving = false) (hserving' : c'.serving = false)
    (hbody : c'.body = c.body) (hasleep : Asleep c') : Inv content (⟨c, e, []⟩ :: past) c' where
  body := by rw [sentBy_cons, hbody, h.body, sent, List.flatMap_nil, List.append_nil]
  fresh _ := hserving'
  refused _ := ⟨hbody.trans (h.refused hserving).1, hasleep⟩
  served h := by
    rw [hserving'] at h
    cases h

-- Whatever wakes a connection, it goes on where it was.
theorem Inv.woken {past : List (Reaction Conn Event Out)} (h : Inv content past c) (e : Event) (a : Answers)
    (hwoken : Pumped content c c' []) (hconnected : c'.connected = c.connected)
    (hawake : c.serving = false → c.connected = false) :
    Inv content (⟨c, e, (c'.pump content a).2⟩ :: past) (c'.pump content a).1 := by
  cases hserving : c.serving with
  | true => exact h.pumped e hserving (hwoken.trans (pumped_pump content c' a))
  | false =>
      have hclosed := hconnected.trans (hawake hserving)
      rw [pump_closed hclosed]
      exact h.still e hserving (hwoken.serving.trans hserving)
        (hwoken.body.trans (List.append_nil _)) (.inl hclosed)

theorem Inv.next {past : List (Reaction Conn Event Out)} (h : Inv content past c)
    (hnext : c.next content e = some (c', outs)) : Inv content (⟨c, e, outs⟩ :: past) c' := by
  have hasleep : c.serving = false → ¬ (c.retry = false ∧ c.queued = 0 ∧ c.backlog = 0 ∧ c.waiting = false) →
      c.connected = false := fun hserving hawake => ((h.refused hserving).2).resolve_right hawake
  cases e with
  | readyRead bytes look a =>
      have hread := Option.some.inj hnext
      unfold Conn.onReadyRead at hread
      by_cases hstarted : c.started = true
      · rw [if_pos hstarted] at hread
        obtain ⟨rfl, rfl⟩ := Prod.mk.inj hread
        cases hserving : c.serving with
        | true => exact h.pumped _ hserving (pumped_refl content c)
        | false => exact h.still _ hserving hserving rfl (h.refused hserving).2
      rw [if_neg hstarted] at hread
      have hserving := h.fresh (Bool.eq_false_iff.mpr hstarted)
      obtain ⟨hbody, hstill⟩ := h.refused hserving
      dsimp only at hread
      cases hstop : indexOf (ascii "\r\n\r\n") (c.req ++ bytes) with
      | none =>
          rw [hstop] at hread
          dsimp only at hread
          obtain ⟨rfl, rfl⟩ := Prod.mk.inj hread
          split_ifs
          · exact h.still _ hserving hserving rfl (.inl rfl)
          · exact h.still _ hserving hserving rfl hstill
      | some stop =>
          rw [hstop] at hread
          dsimp only at hread
          have hbegan := began_begin (c := { c with req := c.req ++ bytes }) content ((c.req ++ bytes).take stop)
            look a hserving hbody
          have hclosed := asleep_begin content ((c.req ++ bytes).take stop) { c with req := c.req ++ bytes } look a
          rw [hread] at hbegan hclosed
          exact
            { body := by rw [sentBy_cons, hbegan.body, ← h.body]
              fresh := fun hfresh => by
                rw [hbegan.started] at hfresh
                cases hfresh
              refused := fun hrefused => by
                refine ⟨?_, .inl (hclosed hrefused)⟩
                rw [hbegan.body, hbegan.refused (hrefused.trans hserving.symm), List.append_nil]
                exact hbody
              served := fun hserved => by
                obtain ⟨hreads, hfirst, hlast⟩ := hbegan.served fun heq => by
                  rw [hserved] at heq
                  exact Bool.noConfusion (heq.trans hserving)
                rw [hbegan.req]
                exact ⟨hreads, stop, look.size, hstop, hfirst, hlast⟩ }
  | timeout a =>
      change (if c.retry = true then some (c.pump content a) else none) = _ at hnext
      split_ifs at hnext with hretry
      obtain ⟨rfl, rfl⟩ := Prod.mk.inj (Option.some.inj hnext)
      exact h.woken _ a (pumped_refl content c) rfl fun hserving => hasleep hserving fun hstill => by
        rw [hstill.1] at hretry
        cases hretry
  | zeroDelay a =>
      change (if 0 < c.queued then some ({ c with queued := c.queued - 1 }.pump content a) else none) = _ at hnext
      split_ifs at hnext with hqueued
      obtain ⟨rfl, rfl⟩ := Prod.mk.inj (Option.some.inj hnext)
      exact h.woken _ a (pumped_of_eq rfl rfl rfl rfl rfl rfl rfl rfl) rfl
        fun hserving => hasleep hserving fun hstill => hqueued.ne' hstill.2.1
  | bytesWritten n a =>
      change (if 0 < n ∧ n ≤ c.backlog then some ({ c with backlog := c.backlog - n }.pump content a) else none) = _
        at hnext
      split_ifs at hnext with hwritten
      obtain ⟨rfl, rfl⟩ := Prod.mk.inj (Option.some.inj hnext)
      exact h.woken _ a (pumped_of_eq rfl rfl rfl rfl rfl rfl rfl rfl) rfl
        fun hserving => hasleep hserving fun hstill => by omega
  | pieceFinished hash a =>
      change (if c.waiting = true ∧ hash.map toLower = c.hash.map toLower then some (c.pump content a)
        else some (c, [])) = _ at hnext
      split_ifs at hnext with hwaiting
      · obtain ⟨rfl, rfl⟩ := Prod.mk.inj (Option.some.inj hnext)
        exact h.woken _ a (pumped_refl content c) rfl fun hserving => hasleep hserving fun hstill => by
          rw [hstill.2.2.2] at hwaiting
          exact absurd hwaiting.1 Bool.false_ne_true
      · obtain ⟨rfl, rfl⟩ := Prod.mk.inj (Option.some.inj hnext)
        cases hserving : c.serving with
        | true => exact h.pumped _ hserving (pumped_refl content c)
        | false => exact h.still _ hserving hserving rfl (h.refused hserving).2
  | disconnected =>
      obtain ⟨rfl, rfl⟩ := Prod.mk.inj (Option.some.inj hnext)
      cases hserving : c.serving with
      | true => exact h.pumped _ hserving (pumped_of_eq rfl rfl rfl rfl rfl rfl rfl rfl)
      | false => exact h.still _ hserving hserving rfl (.inl rfl)

theorem inv_run (content : Bytes) (opened : Int) {past : List (Reaction Conn Event Out)} {c : Conn}
    (hrun : (machine content opened).Run (fun _ _ => True) past c) : Inv content past c := by
  refine hrun.invariant_past (Inv content) ?_ ?_
  · exact ⟨rfl, fun _ => rfl, fun _ => ⟨rfl, .inr ⟨rfl, rfl, rfl, rfl⟩⟩, fun h => absurd h Bool.false_ne_true⟩
  · intro past c e c' outs h _ hnext
    exact h.next hnext

-- The answer to a request with a range: its interval as the standard has it, or that there is none.
def Chooses (content : Bytes) (q : RangeRequest) (look : Lookup) : Prop :=
  ∀ (c : Conn) (a : Answers),
    match q.range.interval look.size with
    | none => c.begin content q.headers look a = { c with started := true }.fail 416
    | some (first, last) =>
        (c.begin content q.headers look a).1.first = first ∧ (c.begin content q.headers look a).1.last = last ∧
          (c.begin content q.headers look a).2.head? =
            some (.reply (headerBlock ⟨true, first, last⟩ look.size look.path))

-- What was written to the socket of a connection is the part of its interval up to where the reader
-- is, and nothing while it has none.
def Sends (content : Bytes) (past : List (Reaction Conn Event Out)) (c : Conn) : Prop :=
  if c.serving then
    c.first ≤ c.pos ∧ c.pos ≤ c.last + 1 ∧
      sentBy past = (content.drop c.first.toNat).take (c.pos - c.first).toNat ∧
      ∃ stop size, indexOf (ascii "\r\n\r\n") c.req = some stop ∧
        c.first = (chosen (c.req.take stop) size).start ∧ c.last = (chosen (c.req.take stop) size).last
  else sentBy past = []

theorem sends_run (content : Bytes) (opened : Int) {past : List (Reaction Conn Event Out)} {c : Conn}
    (hrun : (machine content opened).Run (fun _ _ => True) past c) : Sends content past c := by
  have hinv := inv_run content opened hrun
  unfold Sends
  split_ifs with hserving
  · obtain ⟨hreads, hinterval⟩ := hinv.served hserving
    exact ⟨hreads.pos, hreads.last, hinv.body.symm.trans hreads.body, hinterval⟩
  · exact hinv.body.symm.trans (hinv.refused (Bool.eq_false_iff.mpr hserving)).1

theorem begin_interval (content : Bytes) {headers : Bytes} {look : Lookup} {t : Target} (h : Found headers look t) (c : Conn) (a : Answers)
    (hne : ¬ (chosen headers look.size).last < (chosen headers look.size).start) :
    (c.begin content headers look a).1.first = (chosen headers look.size).start ∧
      (c.begin content headers look a).1.last = (chosen headers look.size).last ∧
      (c.begin content headers look a).2.head? =
        some (.reply (headerBlock (chosen headers look.size) look.size look.path)) := by
  rw [begin_found h, if_neg hne]
  dsimp only
  split_ifs
  · exact ⟨rfl, rfl, rfl⟩
  · have hpump := pumped_pump content
      { ({ c with started := true }.answered t look (chosen headers look.size)) with
        serving := true, lastWindow := a.now } a
    exact ⟨hpump.first, hpump.last, rfl⟩

theorem interval_nonneg {r : ByteRange} {size first last : Int} (h : r.interval size = some (first, last)) : 0 ≤ first := by
  cases r with
  | fromTo f l ordered =>
      unfold ByteRange.interval at h
      dsimp only at h
      split_ifs at h
      obtain ⟨rfl, -⟩ := Prod.mk.inj (Option.some.inj h)
      exact Int.natCast_nonneg _
  | startingAt f =>
      unfold ByteRange.interval at h
      dsimp only at h
      split_ifs at h
      obtain ⟨rfl, -⟩ := Prod.mk.inj (Option.some.inj h)
      exact Int.natCast_nonneg _
  | suffix length =>
      unfold ByteRange.interval at h
      dsimp only at h
      split_ifs at h
      obtain ⟨rfl, -⟩ := Prod.mk.inj (Option.some.inj h)
      exact le_max_left _ _

-- A connection that has had no request yet, with a reader that is at no byte.
def nowhere : Conn := { (machine [] 0).init with first := -1 }

def never : Answers := ⟨0, -1, 0, none, [], false, false, 0⟩

theorem chooses_iff {content : Bytes} {q : RangeRequest} {look : Lookup} {t : Target}
    (h : Found q.headers look t) : Chooses content q look ↔ q.range.Taken look.size := by
  rw [← clamp_eq_interval_iff q h.size look.size_lt]
  change _ ↔ match q.range.interval look.size with
    | none => (chosen q.headers look.size).last < (chosen q.headers look.size).start
    | some (first, last) => chosen q.headers look.size = ⟨true, first, last⟩ ∧ first ≤ last
  unfold Chooses
  cases hinterval : q.range.interval look.size with
  | none =>
      dsimp only
      constructor
      · intro hfail
        by_contra hne
        have hfirst := (begin_interval content h nowhere never hne).1
        rw [hfail nowhere never] at hfirst
        have hstart : 0 ≤ (chosen q.headers look.size).start := le_max_right _ _
        change (-1 : Int) = _ at hfirst
        omega
      · intro hempty c a
        rw [begin_found h, if_pos hempty]
  | some interval =>
      obtain ⟨first, last⟩ := interval
      have hnonneg := interval_nonneg hinterval
      dsimp only
      constructor
      · intro hchooses
        obtain ⟨hfirst, hlast, -⟩ := hchooses nowhere never
        by_cases hempty : (chosen q.headers look.size).last < (chosen q.headers look.size).start
        · rw [begin_found h, if_pos hempty] at hfirst
          change (-1 : Int) = first at hfirst
          omega
        · obtain ⟨hstart, hstop, -⟩ := begin_interval content h nowhere never hempty
          have hranged : (chosen q.headers look.size).ranged = true := by
            unfold chosen
            rw [rangeOf_request]
            rfl
          rw [hstart] at hfirst
          rw [hstop] at hlast
          refine ⟨?_, by omega⟩
          rw [← hfirst, ← hlast, ← hranged]
      · rintro ⟨hchosen, hle⟩ c a
        have hne : ¬ (chosen q.headers look.size).last < (chosen q.headers look.size).start := by
          rw [hchosen]
          exact not_lt.mpr hle
        have hbegin := begin_interval content h c a hne
        rw [hchosen] at hbegin
        exact hbegin

-- A request for a part of a short film.
def filmRequest (range : ByteRange) (headers : Bytes) (lines : headers.splitOn 10 =
    [ascii "GET /stream/ab/0 HTTP/1.1\r"] ++
      (ascii "Range" ++ 58 :: [32] ++ ascii "bytes=" ++ range.text.1 ++ 45 :: range.text.2 ++ []) :: []) : RangeRequest where
  headers := headers
  range := range
  before := [ascii "GET /stream/ab/0 HTTP/1.1\r"]
  name := ascii "Range"
  gap := [32]
  rest := []
  after := []
  before_not := by
    intro line hline
    rw [List.mem_singleton.mp hline]
    rfl
  name_eq := rfl
  gap_spaces := by
    intro b hb
    rw [List.mem_singleton.mp hb]
    rfl
  rest_spaces := nofun
  lines := lines

def two : Digits := ⟨[50], List.cons_ne_nil _ _, List.forall_mem_singleton.mpr rfl⟩

def four : Digits := ⟨[52], List.cons_ne_nil _ _, List.forall_mem_singleton.mpr rfl⟩

def film : Lookup := ⟨0, 10, ['f', '.', 'm', 'k', 'v'], false, by decide⟩

def middle : RangeRequest :=
  filmRequest (.fromTo two four (by decide)) (ascii "GET /stream/ab/0 HTTP/1.1\r\nRange: bytes=2-4") (by decide +kernel)

def lastTwo : RangeRequest :=
  filmRequest (.suffix two) (ascii "GET /stream/ab/0 HTTP/1.1\r\nRange: bytes=-2") (by decide +kernel)

theorem found_film (q : RangeRequest) (htarget : targetOf q.headers = .ok ⟨false, [97, 98], 0⟩) :
    Found q.headers film ⟨false, [97, 98], 0⟩ :=
  ⟨htarget, by decide, by decide, List.cons_ne_nil _ _, rfl⟩

end Run

end BATorrent.StreamConnection
