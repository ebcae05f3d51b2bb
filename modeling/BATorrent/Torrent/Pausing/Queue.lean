import BATorrent.Torrent.Pausing

namespace BATorrent.Pausing

open Lib

variable {s s' : State} {now : Int} {h g : Handle} {st : Status} {p q : State.Pass}

namespace State

section Verdict

-- What the pass makes of a torrent.
inductive Verdict where
  | unseen
  | exempt
  | resume
  | active
  | stalled
  | queued
  | other
deriving DecidableEq

def verdict (s : State) (now : Int) (h : Handle) : Verdict :=
  if ¬ s.valid h then .unseen
  else
    match s.cachedStatus h with
    | none => .unseen
    | some st =>
        if s.exempt st then if st.paused then .resume else .exempt
        else if st.downloads ∧ ¬ st.paused then
          if (s.stamp now h st).isStalled now h then .stalled else .active
        else if st.downloads ∧ st.paused ∧ h ∈ s.queuePaused then .queued
        else .other

def stampOf (s : State) (now : Int) (h : Handle) : State :=
  match s.cachedStatus h with
  | none => s
  | some st => s.stamp now h st

-- What it leaves of the session.
def seenBy (s : State) (now : Int) (h : Handle) : State :=
  match s.verdict now h with
  | .unseen => s
  | .resume => (s.warm h).resume h
  | .active => (s.warm h).stampOf now h
  | .stalled => (s.warm h).stampOf now h
  | _ => s.warm h

theorem of_verdict_active (hv : s.verdict now h = .active) :
    s.valid h = true ∧ ∃ st, s.cachedStatus h = some st ∧ st.downloads = true ∧ st.paused = false ∧
      (s.stamp now h st).isStalled now h = false := by
  unfold verdict at hv
  cases hst : s.cachedStatus h with
  | none => simp [hst] at hv
  | some st =>
      simp only [hst] at hv
      split_ifs at hv
      simp_all

theorem of_verdict_queued (hv : s.verdict now h = .queued) :
    s.valid h = true ∧ h ∈ s.queuePaused ∧
      ∃ st, s.cachedStatus h = some st ∧ st.downloads = true ∧ st.paused = true := by
  unfold verdict at hv
  cases hst : s.cachedStatus h with
  | none => simp [hst] at hv
  | some st =>
      simp only [hst] at hv
      split_ifs at hv
      simp_all

theorem of_verdict_resume (hv : s.verdict now h = .resume) :
    s.valid h = true ∧ ∃ st, s.cachedStatus h = some st ∧ s.exempt st = true ∧ st.paused = true := by
  unfold verdict at hv
  cases hst : s.cachedStatus h with
  | none => simp [hst] at hv
  | some st =>
      simp only [hst] at hv
      split_ifs at hv
      simp_all

theorem cachedStatus_warm (s : State) (h : Handle) : (s.warm h).cachedStatus h = s.cachedStatus h := by
  unfold warm cachedStatus
  simp only [Function.update_self]
  cases s.statusCache h <;> cases s.live h <;> rfl

theorem stamp_warm (s : State) (now : Int) (h g : Handle) (st : Status) :
    ((s.warm h).stamp now g st).isStalled now g = (s.stamp now g st).isStalled now g := by
  unfold stamp isStalled warm
  dsimp only
  split_ifs <;> rfl

theorem scanOne_spec (now : Int) (p : Pass) (h : Handle) :
    scanOne now p h =
      { p with
        s := p.s.seenBy now h
        active := p.active ++ if p.s.verdict now h = .active then [h] else []
        queued := p.queued ++ if p.s.verdict now h = .queued then [h] else []
        resumed := p.resumed ++ if p.s.verdict now h = .resume then [h] else [] } := by
  by_cases hvalid : p.s.valid h = true
  · cases hst : p.s.cachedStatus h with
    | none =>
        have hv : p.s.verdict now h = .unseen := by simp [verdict, hst]
        simp [scanOne, seenBy, hv, hst]
    | some st =>
        have hexempt : (p.s.warm h).exempt st = p.s.exempt st := rfl
        have hqueued : (p.s.warm h).queuePaused = p.s.queuePaused := rfl
        have hstamp : (p.s.warm h).stampOf now h = (p.s.warm h).stamp now h st := by
          rw [stampOf, cachedStatus_warm, hst]
        unfold scanOne seenBy
        simp only [hvalid, hst, hexempt, hqueued, hstamp, stamp_warm, verdict]
        by_cases hex : p.s.exempt st = true
        · cases st.paused <;> simp [hex]
        · cases st.downloads with
          | false => simp [hex]
          | true =>
              cases st.paused with
              | false =>
                  by_cases hstalled : (p.s.stamp now h st).isStalled now h = true <;>
                    simp [hex, hstalled]
              | true =>
                  by_cases hwaits : h ∈ p.s.queuePaused <;> simp [hex, hwaits]
  · have hv : p.s.verdict now h = .unseen := by simp [verdict, hvalid]
    simp [scanOne, seenBy, hv, hvalid]

end Verdict

section Entry

-- What the session keeps about one torrent, as far as the pass can change it.
structure Entry where
  live : Option Status
  pausedBy : Option Pause
  statusCache : Option Status
  lastFastAt : Option Int

def entry (s : State) (h : Handle) : Entry :=
  ⟨s.live h, s.pausedBy h, s.statusCache h, s.lastFastAt h⟩

-- All that the pass leaves alone, the queue's own set aside.
structure Frame (s s' : State) : Prop where
  torrents : s'.torrents = s.torrents
  forceStartHashes : s'.forceStartHashes = s.forceStartHashes
  magnetHashes : s'.magnetHashes = s.magnetHashes
  maxActiveDownloads : s'.maxActiveDownloads = s.maxActiveDownloads
  net : s'.net = s.net
  killSwitchEnabled : s'.killSwitchEnabled = s.killSwitchEnabled
  killSwitchActive : s'.killSwitchActive = s.killSwitchActive
  killSwitchPaused : s'.killSwitchPaused = s.killSwitchPaused
  autoResume : s'.autoResume = s.autoResume

theorem Frame.refl (s : State) : Frame s s := ⟨rfl, rfl, rfl, rfl, rfl, rfl, rfl, rfl, rfl⟩

theorem Frame.trans {s'' : State} (h : Frame s s') (h' : Frame s' s'') : Frame s s'' where
  torrents := h'.torrents.trans h.torrents
  forceStartHashes := h'.forceStartHashes.trans h.forceStartHashes
  magnetHashes := h'.magnetHashes.trans h.magnetHashes
  maxActiveDownloads := h'.maxActiveDownloads.trans h.maxActiveDownloads
  net := h'.net.trans h.net
  killSwitchEnabled := h'.killSwitchEnabled.trans h.killSwitchEnabled
  killSwitchActive := h'.killSwitchActive.trans h.killSwitchActive
  killSwitchPaused := h'.killSwitchPaused.trans h.killSwitchPaused
  autoResume := h'.autoResume.trans h.autoResume

theorem frame_stampOf (s : State) (now : Int) (h : Handle) : Frame s (s.stampOf now h) := by
  unfold stampOf
  cases s.cachedStatus h with
  | none => exact .refl s
  | some st =>
      unfold stamp
      dsimp only
      split_ifs
      · exact ⟨rfl, rfl, rfl, rfl, rfl, rfl, rfl, rfl, rfl⟩
      · exact .refl s

theorem frame_seenBy (s : State) (now : Int) (h : Handle) : Frame s (s.seenBy now h) := by
  have hwarm : Frame s (s.warm h) := ⟨rfl, rfl, rfl, rfl, rfl, rfl, rfl, rfl, rfl⟩
  unfold seenBy
  cases s.verdict now h with
  | unseen => exact .refl s
  | exempt => exact hwarm
  | resume => exact ⟨rfl, rfl, rfl, rfl, rfl, rfl, rfl, rfl, rfl⟩
  | active => exact hwarm.trans (frame_stampOf _ now h)
  | stalled => exact hwarm.trans (frame_stampOf _ now h)
  | queued => exact hwarm
  | other => exact hwarm

theorem stampOf_queuePaused (s : State) (now : Int) (h : Handle) :
    (s.stampOf now h).queuePaused = s.queuePaused := by
  unfold stampOf
  cases s.cachedStatus h with
  | none => rfl
  | some st =>
      unfold stamp
      dsimp only
      split_ifs <;> rfl

theorem seenBy_queuePaused (s : State) (now : Int) (h : Handle) :
    (s.seenBy now h).queuePaused = s.queuePaused := by
  unfold seenBy
  cases s.verdict now h with
  | active => exact stampOf_queuePaused _ now h
  | stalled => exact stampOf_queuePaused _ now h
  | _ => rfl

theorem entry_stampOf_of_ne (hne : g ≠ h) : (s.stampOf now h).entry g = s.entry g := by
  unfold stampOf
  cases s.cachedStatus h with
  | none => rfl
  | some st =>
      unfold stamp
      dsimp only
      split_ifs
      · simp [entry, hne]
      · rfl

-- A torrent is looked at by itself.
theorem entry_seenBy_of_ne (hne : g ≠ h) : (s.seenBy now h).entry g = s.entry g := by
  have hwarm : (s.warm h).entry g = s.entry g := by simp [entry, warm, hne]
  unfold seenBy
  cases s.verdict now h with
  | unseen => rfl
  | resume => exact Eq.trans (by simp [entry, resume, setPaused, hne]) hwarm
  | active => exact (entry_stampOf_of_ne hne).trans hwarm
  | stalled => exact (entry_stampOf_of_ne hne).trans hwarm
  | exempt => exact hwarm
  | queued => exact hwarm
  | other => exact hwarm

-- What the pass decides is decided by what it reads.
structure Reads (s s' : State) (h : Handle) : Prop where
  entry : s'.entry h = s.entry h
  queuePaused : s'.queuePaused = s.queuePaused
  forceStartHashes : s'.forceStartHashes = s.forceStartHashes

theorem Reads.valid (hr : Reads s s' h) : s'.valid h = s.valid h :=
  congrArg (fun e : Entry => e.live.isSome) hr.entry

theorem Reads.cachedStatus (hr : Reads s s' h) : s'.cachedStatus h = s.cachedStatus h :=
  congrArg (fun e : Entry => e.statusCache.or e.live) hr.entry

theorem Reads.lastFastAt (hr : Reads s s' h) : s'.lastFastAt h = s.lastFastAt h :=
  congrArg Entry.lastFastAt hr.entry

theorem Reads.exempt (hr : Reads s s' h) (st : Status) : s'.exempt st = s.exempt st := by
  unfold State.exempt
  rw [hr.forceStartHashes]

theorem stamp_lastFastAt (s : State) (now : Int) (h : Handle) (st : Status) :
    (s.stamp now h st).lastFastAt h =
      if s.lastFastAt h = none ∨ kSlowTorrentThresholdBps ≤ st.downloadRate then some now
      else s.lastFastAt h := by
  unfold stamp
  split_ifs with hstamp
  · exact Function.update_self ..
  · rfl

theorem Reads.isStalled (hr : Reads s s' h) (now : Int) (st : Status) :
    (s'.stamp now h st).isStalled now h = (s.stamp now h st).isStalled now h := by
  unfold State.isStalled
  rw [stamp_lastFastAt, stamp_lastFastAt, hr.lastFastAt]

theorem Reads.verdict (hr : Reads s s' h) (now : Int) : s'.verdict now h = s.verdict now h := by
  unfold State.verdict
  simp only [hr.valid, hr.cachedStatus, hr.exempt, hr.isStalled, hr.queuePaused]

theorem entry_stampOf_congr (hr : Reads s s' h) :
    (s'.stampOf now h).entry h = (s.stampOf now h).entry h := by
  unfold stampOf
  rw [hr.cachedStatus]
  cases s.cachedStatus h with
  | none => exact hr.entry
  | some st =>
      unfold stamp
      dsimp only
      rw [hr.lastFastAt]
      have hentry := hr.entry
      simp only [entry, Entry.mk.injEq] at hentry
      split_ifs <;> simp [entry, hentry]

theorem reads_warm (hr : Reads s s' h) : Reads (s.warm h) (s'.warm h) h := by
  refine ⟨?_, hr.queuePaused, hr.forceStartHashes⟩
  have hcached := hr.cachedStatus
  have hentry := hr.entry
  simp only [entry, Entry.mk.injEq] at hentry
  simp [entry, warm, hcached, hentry]

theorem entry_seenBy_congr (hr : Reads s s' h) :
    (s'.seenBy now h).entry h = (s.seenBy now h).entry h := by
  have hwarm := reads_warm hr
  unfold seenBy
  rw [hr.verdict]
  cases s.verdict now h with
  | unseen => exact hr.entry
  | resume =>
      have hentry := hwarm.entry
      simp only [entry, Entry.mk.injEq] at hentry
      simp [entry, resume, setPaused, hentry]
  | active => exact entry_stampOf_congr hwarm
  | stalled => exact entry_stampOf_congr hwarm
  | exempt => exact hwarm.entry
  | queued => exact hwarm.entry
  | other => exact hwarm.entry

theorem reads_seenBy_of_ne (hne : g ≠ h) : Reads s (s.seenBy now h) g :=
  ⟨entry_seenBy_of_ne hne, seenBy_queuePaused s now h, (frame_seenBy s now h).forceStartHashes⟩

end Entry

section Scan

-- The three lists are what the torrents were at the start of the pass.
structure Scanned (now : Int) (l : List Handle) (p q : Pass) : Prop where
  active : q.active = p.active ++ l.filter (p.s.verdict now · = .active)
  queued : q.queued = p.queued ++ l.filter (p.s.verdict now · = .queued)
  resumed : q.resumed = p.resumed ++ l.filter (p.s.verdict now · = .resume)
  paused : q.paused = p.paused
  queuePaused : q.s.queuePaused = p.s.queuePaused
  frame : Frame p.s q.s
  entry : ∀ h, q.s.entry h = if h ∈ l then (p.s.seenBy now h).entry h else p.s.entry h

theorem filter_cons_eq (f : Handle → Bool) (h : Handle) (l : List Handle) :
    (h :: l).filter f = (if f h then [h] else []) ++ l.filter f := by
  rw [List.filter_cons]
  split_ifs <;> rfl

theorem scanned (now : Int) (l : List Handle) (hl : l.Nodup) :
    ∀ p : Pass, Scanned now l p (l.foldl (scanOne now) p) := by
  induction l with
  | nil =>
      intro p
      constructor
      · simp
      · simp
      · simp
      · rfl
      · rfl
      · exact .refl _
      · simp
  | cons h l ih =>
      intro p
      obtain ⟨hh, hl⟩ := List.nodup_cons.mp hl
      have hrest := ih hl (scanOne now p h)
      rw [scanOne_spec] at hrest
      -- The head changes nothing of what the pass reads about the others.
      have hreads (g : Handle) (hg : g ∈ l) : Reads p.s (p.s.seenBy now h) g :=
        reads_seenBy_of_ne fun heq => hh (heq ▸ hg)
      have hsame (v : Verdict) : l.filter ((p.s.seenBy now h).verdict now · = v) =
          l.filter (p.s.verdict now · = v) := by
        refine List.filter_congr fun g hg => ?_
        rw [(hreads g hg).verdict]
      rw [List.foldl_cons, scanOne_spec]
      constructor
      · rw [hrest.active, hsame, filter_cons_eq, ← List.append_assoc]
        simp
      · rw [hrest.queued, hsame, filter_cons_eq, ← List.append_assoc]
        simp
      · rw [hrest.resumed, hsame, filter_cons_eq, ← List.append_assoc]
        simp
      · exact hrest.paused
      · exact hrest.queuePaused.trans (seenBy_queuePaused p.s now h)
      · exact (frame_seenBy p.s now h).trans hrest.frame
      · intro g
        rw [hrest.entry]
        by_cases hg : g ∈ l
        · rw [if_pos hg, if_pos (List.mem_cons_of_mem h hg), entry_seenBy_congr (hreads g hg)]
        · by_cases heq : g = h
          · subst heq
            rw [if_neg hg, if_pos List.mem_cons_self]
          · have hmem : g ∉ h :: l := by simp [heq, hg]
            rw [if_neg hg, if_neg hmem, entry_seenBy_of_ne heq]

end Scan

section Balance

def pausedNow (s : State) (h : Handle) : Bool := (s.live h).any (·.paused)

structure Demoted (l : List Handle) (p q : Pass) : Prop where
  active : q.active = p.active
  queued : q.queued = p.queued
  resumed : q.resumed = p.resumed
  paused : ∀ g, g ∈ q.paused ↔ g ∈ p.paused ∨ g ∈ l
  queuePaused : ∀ g, g ∈ q.s.queuePaused ↔ g ∈ p.s.queuePaused ∨ g ∈ l
  frame : Frame p.s q.s
  lastFastAt : q.s.lastFastAt = p.s.lastFastAt
  kept : ∀ g, g ∉ l → q.s.entry g = p.s.entry g
  valid : ∀ g, q.s.valid g = p.s.valid g
  changed : ∀ g, g ∈ l → (q.s.valid g = true → q.s.pausedNow g = true) ∧
    ∃ b, q.s.pausedBy g = some ⟨.queue, b⟩

structure Promoted (l : List Handle) (p q : Pass) : Prop where
  active : q.active = p.active
  queued : q.queued = p.queued
  paused : q.paused = p.paused
  resumed : ∀ g, g ∈ q.resumed ↔ g ∈ p.resumed ∨ g ∈ l
  queuePaused : ∀ g, g ∈ q.s.queuePaused ↔ g ∈ p.s.queuePaused ∧ g ∉ l
  frame : Frame p.s q.s
  lastFastAt : q.s.lastFastAt = p.s.lastFastAt
  kept : ∀ g, g ∉ l → q.s.entry g = p.s.entry g
  changed : ∀ g, g ∈ l → q.s.pausedNow g = false ∧ q.s.pausedBy g = none

theorem setPaused_pausedNow (s : State) (h : Handle) (paused : Bool) :
    (s.setPaused h paused).pausedNow h = (s.valid h && paused) := by
  unfold pausedNow setPaused valid
  simp only [Function.update_self]
  cases s.live h <;> simp

theorem setPaused_valid (s : State) (h : Handle) (paused : Bool) (g : Handle) :
    (s.setPaused h paused).valid g = s.valid g := by
  unfold setPaused valid
  by_cases heq : g = h
  · simp [heq]
  · simp [heq]

theorem entry_pause_of_ne (hne : g ≠ h) (cause : Cause) : (s.pause cause h).entry g = s.entry g := by
  simp [entry, pause, setPaused, hne]

theorem entry_resume_of_ne (hne : g ≠ h) : (s.resume h).entry g = s.entry g := by
  simp [entry, resume, setPaused, hne]

theorem demoted_one (p : Pass) (h : Handle) : Demoted [h] p (demote p h) := by
  constructor
  · rfl
  · rfl
  · rfl
  · intro g
    simp [demote]
  · intro g
    simp [demote, or_comm]
  · exact ⟨rfl, rfl, rfl, rfl, rfl, rfl, rfl, rfl, rfl⟩
  · rfl
  · intro g hg
    exact entry_pause_of_ne (by simpa using hg) .queue
  · exact setPaused_valid p.s h true
  · intro g hg
    obtain rfl := List.mem_singleton.mp hg
    constructor
    · intro hvalid
      have hlive : p.s.valid g = true := (setPaused_valid p.s g true g).symm.trans hvalid
      refine (setPaused_pausedNow p.s g true).trans ?_
      simp [hlive]
    · exact ⟨_, Function.update_self ..⟩

theorem promoted_one (p : Pass) (h : Handle) : Promoted [h] p (promote p h) := by
  constructor
  · rfl
  · rfl
  · rfl
  · intro g
    simp [promote]
  · intro g
    simp [promote]
  · exact ⟨rfl, rfl, rfl, rfl, rfl, rfl, rfl, rfl, rfl⟩
  · rfl
  · intro g hg
    exact entry_resume_of_ne (by simpa using hg)
  · intro g hg
    obtain rfl := List.mem_singleton.mp hg
    constructor
    · refine (setPaused_pausedNow p.s g false).trans ?_
      simp
    · exact Function.update_self ..

theorem Demoted.trans {l l' : List Handle} {r : Pass} (h : Demoted l p q) (h' : Demoted l' q r) : Demoted (l ++ l') p r := by
  constructor
  · exact h'.active.trans h.active
  · exact h'.queued.trans h.queued
  · exact h'.resumed.trans h.resumed
  · intro g
    rw [h'.paused, h.paused, List.mem_append, or_assoc]
  · intro g
    rw [h'.queuePaused, h.queuePaused, List.mem_append, or_assoc]
  · exact h.frame.trans h'.frame
  · exact h'.lastFastAt.trans h.lastFastAt
  · intro g hg
    rw [List.mem_append, not_or] at hg
    exact (h'.kept g hg.2).trans (h.kept g hg.1)
  · exact fun g => (h'.valid g).trans (h.valid g)
  · intro g hg
    by_cases hlater : g ∈ l'
    · exact h'.changed g hlater
    · have hfirst := h.changed g ((List.mem_append.mp hg).resolve_right hlater)
      have hkept := h'.kept g hlater
      simp only [entry, Entry.mk.injEq] at hkept
      simpa [State.valid, pausedNow, hkept] using hfirst

theorem Promoted.trans {l l' : List Handle} {r : Pass} (h : Promoted l p q)
    (h' : Promoted l' q r) : Promoted (l ++ l') p r := by
  constructor
  · exact h'.active.trans h.active
  · exact h'.queued.trans h.queued
  · exact h'.paused.trans h.paused
  · intro g
    rw [h'.resumed, h.resumed, List.mem_append, or_assoc]
  · intro g
    rw [h'.queuePaused, h.queuePaused, List.mem_append, not_or, and_assoc]
  · exact h.frame.trans h'.frame
  · exact h'.lastFastAt.trans h.lastFastAt
  · intro g hg
    rw [List.mem_append, not_or] at hg
    exact (h'.kept g hg.2).trans (h.kept g hg.1)
  · intro g hg
    by_cases hlater : g ∈ l'
    · exact h'.changed g hlater
    · have hfirst := h.changed g ((List.mem_append.mp hg).resolve_right hlater)
      have hkept := h'.kept g hlater
      simp only [entry, Entry.mk.injEq] at hkept
      simpa [pausedNow, hkept] using hfirst

theorem demoted_foldl (l : List Handle) : ∀ p, Demoted l p (l.foldl demote p) := by
  induction l with
  | nil =>
      intro p
      constructor <;> simp [Frame.refl]
  | cons h l ih => exact fun p => (demoted_one p h).trans (ih _)

theorem promoted_foldl (l : List Handle) : ∀ p, Promoted l p (l.foldl promote p) := by
  induction l with
  | nil =>
      intro p
      constructor <;> simp [Frame.refl]
  | cons h l ih => exact fun p => (promoted_one p h).trans (ih _)

-- One of the two lists is empty.
theorem balance_eq (limit : Nat) (p : Pass) :
    balance limit p =
      (p.queued.take (limit - p.active.length)).foldl promote
        ((p.active.drop limit).reverse.foldl demote p) := by
  unfold balance
  split_ifs with hover
  · have hnone : limit - p.active.length = 0 := by omega
    rw [hnone]
    rfl
  · have hnone : p.active.drop limit = [] := List.drop_eq_nil_iff.mpr (by omega)
    rw [hnone]
    rfl

end Balance

section Pass

-- The downloads that count against the limit, and those that wait for their turn.
def active (s : State) (now : Int) : List Handle := s.torrents.filter (s.verdict now · = .active)

def queued (s : State) (now : Int) : List Handle := s.torrents.filter (s.verdict now · = .queued)

def limit (s : State) : Nat := s.maxActiveDownloads.toNat

def demotes (s : State) (now : Int) : List Handle := (s.active now).drop s.limit

def promotes (s : State) (now : Int) : List Handle :=
  (s.queued now).take (s.limit - (s.active now).length)

-- What a pass under a limit does.
structure Passed (s : State) (now : Int) (q : Pass) : Prop where
  paused : ∀ g, g ∈ q.paused ↔ g ∈ s.demotes now
  resumed : ∀ g, g ∈ q.resumed ↔
    g ∈ s.torrents ∧ s.verdict now g = .resume ∨ g ∈ s.promotes now
  queuePaused : ∀ g, g ∈ q.s.queuePaused ↔
    (g ∈ s.queuePaused ∨ g ∈ s.demotes now) ∧ g ∉ s.promotes now
  frame : Frame s q.s
  lastFastAt : ∀ g, q.s.lastFastAt g =
    if g ∈ s.torrents then (s.seenBy now g).lastFastAt g else s.lastFastAt g
  resumes : ∀ g, g ∈ q.resumed → q.s.pausedNow g = false ∧ q.s.pausedBy g = none
  pauses : ∀ g, g ∈ s.demotes now → ∃ b, q.s.pausedBy g = some ⟨.queue, b⟩
  keeps : ∀ g, g ∉ q.resumed → s.pausedNow g = true → q.s.pausedNow g = true
  leaves : ∀ g, g ∉ q.resumed → g ∉ s.demotes now → q.s.pausedBy g = s.pausedBy g

theorem verdict_of_mem_active (hg : g ∈ s.active now) : s.verdict now g = .active :=
  of_decide_eq_true (List.mem_filter.mp hg).2

theorem verdict_of_mem_queued (hg : g ∈ s.queued now) : s.verdict now g = .queued :=
  of_decide_eq_true (List.mem_filter.mp hg).2

theorem verdict_of_mem_demotes (hg : g ∈ s.demotes now) : s.verdict now g = .active :=
  verdict_of_mem_active (List.mem_of_mem_drop hg)

theorem verdict_of_mem_promotes (hg : g ∈ s.promotes now) : s.verdict now g = .queued :=
  verdict_of_mem_queued (List.mem_of_mem_take hg)

theorem notMem_promotes (hg : g ∈ s.demotes now) : g ∉ s.promotes now := by
  intro hg'
  have hactive := verdict_of_mem_demotes hg
  rw [verdict_of_mem_promotes hg'] at hactive
  exact absurd hactive (by decide)

theorem stampOf_flags (s : State) (now : Int) (h : Handle) :
    (s.stampOf now h).live = s.live ∧ (s.stampOf now h).pausedBy = s.pausedBy := by
  unfold stampOf
  cases s.cachedStatus h with
  | none => exact ⟨rfl, rfl⟩
  | some st =>
      unfold stamp
      dsimp only
      split_ifs <;> exact ⟨rfl, rfl⟩

theorem seenBy_resume (hv : s.verdict now h = .resume) :
    (s.seenBy now h).pausedNow h = false ∧ (s.seenBy now h).pausedBy h = none := by
  unfold seenBy
  rw [hv]
  constructor
  · refine (setPaused_pausedNow (s.warm h) h false).trans ?_
    simp
  · exact Function.update_self ..

-- Looking at a torrent resumes it or leaves it as it is.
theorem seenBy_kept (hv : s.verdict now h ≠ .resume) :
    (s.seenBy now h).live = s.live ∧ (s.seenBy now h).pausedBy = s.pausedBy := by
  unfold seenBy
  cases hverdict : s.verdict now h with
  | resume => exact absurd hverdict hv
  | active => exact stampOf_flags (s.warm h) now h
  | stalled => exact stampOf_flags (s.warm h) now h
  | unseen => exact ⟨rfl, rfl⟩
  | exempt => exact ⟨rfl, rfl⟩
  | queued => exact ⟨rfl, rfl⟩
  | other => exact ⟨rfl, rfl⟩

theorem passed_queuePass (hlimit : 0 < s.maxActiveDownloads) (now : Int) :
    Passed s now (queuePass now s) := by
  obtain ⟨p, hp⟩ : ∃ p, p = scan now s := ⟨_, rfl⟩
  have hscan : Scanned now s.torrents ⟨s, [], [], [], []⟩ p :=
    hp ▸ scanned now s.torrents s.distinct _
  have hactive : p.active = s.active now := hscan.active
  have hqueued : p.queued = s.queued now := hscan.queued
  have hpass : queuePass now s =
      (s.promotes now).foldl promote ((s.demotes now).reverse.foldl demote p) := by
    rw [queuePass, if_neg (by omega), balance_eq, ← hp, hactive, hqueued]
    rfl
  rw [hpass]
  have hdown := demoted_foldl (s.demotes now).reverse p
  generalize (s.demotes now).reverse.foldl demote p = m at hdown ⊢
  have hup := promoted_foldl (s.promotes now) m
  generalize (s.promotes now).foldl promote m = q at hup ⊢
  have hresumed (g : Handle) : g ∈ q.resumed ↔
      g ∈ s.torrents ∧ s.verdict now g = .resume ∨ g ∈ s.promotes now := by
    rw [hup.resumed, hdown.resumed, hscan.resumed]
    simp
  -- What the later parts leave of a torrent that neither of them names.
  have hmiddle (g : Handle) (hdemote : g ∉ s.demotes now) (hpromote : g ∉ s.promotes now) :
      q.s.entry g = p.s.entry g :=
    (hup.kept g hpromote).trans (hdown.kept g (by simpa using hdemote))
  constructor
  · intro g
    rw [hup.paused, hdown.paused, hscan.paused]
    simp
  · exact hresumed
  · intro g
    rw [hup.queuePaused, hdown.queuePaused, hscan.queuePaused, List.mem_reverse]
  · exact (hscan.frame.trans hdown.frame).trans hup.frame
  · intro g
    have hclock : q.s.lastFastAt g = p.s.lastFastAt g := by rw [hup.lastFastAt, hdown.lastFastAt]
    have hentry := congrArg Entry.lastFastAt (hscan.entry g)
    rw [hclock, show p.s.lastFastAt g = _ from hentry]
    split_ifs <;> rfl
  · intro g hg
    by_cases hpromote : g ∈ s.promotes now
    · exact hup.changed g hpromote
    · obtain ⟨htorrent, hv⟩ := ((hresumed g).mp hg).resolve_right hpromote
      have hdemote : g ∉ s.demotes now := by
        intro hg'
        rw [verdict_of_mem_demotes hg'] at hv
        exact absurd hv (by decide)
      have hentry := (hmiddle g hdemote hpromote).trans (hscan.entry g)
      rw [if_pos htorrent] at hentry
      simp only [entry, Entry.mk.injEq] at hentry
      simpa [pausedNow, hentry] using seenBy_resume hv
  · intro g hg
    have hkept := hup.kept g (notMem_promotes hg)
    simp only [entry, Entry.mk.injEq] at hkept
    rw [hkept.2.1]
    exact (hdown.changed g (by simpa using hg)).2
  · intro g hg hpaused
    have hpromote : g ∉ s.promotes now := fun hg' => hg ((hresumed g).mpr (.inr hg'))
    have hscanned : p.s.pausedNow g = true := by
      have hentry := hscan.entry g
      split_ifs at hentry with htorrent
      · have hv : s.verdict now g ≠ .resume := fun hv => hg ((hresumed g).mpr (.inl ⟨htorrent, hv⟩))
        simp only [entry, Entry.mk.injEq] at hentry
        simpa [pausedNow, hentry, (seenBy_kept hv).1] using hpaused
      · simp only [entry, Entry.mk.injEq] at hentry
        simpa [pausedNow, hentry] using hpaused
    have hlater := hup.kept g hpromote
    simp only [entry, Entry.mk.injEq] at hlater
    have hsame : q.s.pausedNow g = m.s.pausedNow g := by simp [pausedNow, hlater]
    rw [hsame]
    by_cases hdemote : g ∈ (s.demotes now).reverse
    · refine (hdown.changed g hdemote).1 ?_
      rw [hdown.valid]
      exact Option.isSome_of_any hscanned
    · have hkept := hdown.kept g hdemote
      simp only [entry, Entry.mk.injEq] at hkept
      simpa [pausedNow, hkept] using hscanned
  · intro g hg hdemote
    have hpromote : g ∉ s.promotes now := fun hg' => hg ((hresumed g).mpr (.inr hg'))
    have hentry := (hmiddle g hdemote hpromote).trans (hscan.entry g)
    split_ifs at hentry with htorrent
    · have hv : s.verdict now g ≠ .resume := fun hv => hg ((hresumed g).mpr (.inl ⟨htorrent, hv⟩))
      simp only [entry, Entry.mk.injEq] at hentry
      rw [hentry.2.1, (seenBy_kept hv).2]
    · simp only [entry, Entry.mk.injEq] at hentry
      exact hentry.2.1

end Pass

end State

end BATorrent.Pausing
