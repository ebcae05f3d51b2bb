import BATorrent.Torrent.Pausing.Queue

namespace BATorrent.Pausing

open Lib

variable {s : State} {now : Int} {h : Handle} {st : Status} {q : State.Pass}

namespace State

section Capped

-- Whether a torrent is paused once the calls of the pass are made.
def Pass.pausedAfter (q : Pass) (st : Status) (h : Handle) : Bool :=
  decide (h ∉ q.resumed) && (decide (h ∈ q.paused) || st.paused)

-- A running download that takes a slot.
def occupies (s : State) (now : Int) (q : Pass) (h : Handle) : Bool :=
  s.valid h && (s.cachedStatus h).any (fun st => st.downloads && !q.pausedAfter st h) &&
    !s.isForceStart h && !q.s.isStalled now h

def waits (s : State) (q : Pass) (h : Handle) : Bool :=
  s.valid h && decide (h ∈ q.s.queuePaused) &&
    (s.cachedStatus h).any fun st => st.downloads && q.pausedAfter st h

def Stranded (s : State) (h : Handle) : Prop :=
  h ∈ s.torrents ∧ s.valid h ∧ ∃ b, s.pausedBy h = some ⟨.queue, b⟩

structure Capped (s : State) (now : Int) : Prop where
  cap : 0 < s.maxActiveDownloads →
    (s.torrents.filter (s.occupies now (queuePass now s))).length ≤ s.limit
  full : 0 < s.maxActiveDownloads → (∃ h ∈ s.torrents, s.waits (queuePass now s) h) →
    (s.torrents.filter (s.occupies now (queuePass now s))).length = s.limit
  free : s.maxActiveDownloads ≤ 0 → ∀ h, ¬ (s.enforceDownloadQueue now).Stranded h

-- The slots go to the downloads in list order, the running ones first.
def slots (s : State) (now : Int) : List Handle := (s.active now ++ s.queued now).take s.limit

-- Where there are more downloads than slots, none of those that get one is exempt in the user's
-- eyes only, or carries an old stamp. Nothing waits when the limit is gone.
structure KeepsCap (s : State) (now : Int) : Prop where
  slots : 0 < s.maxActiveDownloads → s.limit < (s.active now).length + (s.queued now).length →
    ∀ h ∈ s.slots now, s.isForceStart h = false ∧
      (s.verdict now h = .queued → s.isStalled now h = false)
  free : s.maxActiveDownloads ≤ 0 → ∀ h, ¬ s.Stranded h

end Capped

section Verdicts

theorem verdict_of_runs (now : Int) (hvalid : s.valid h = true) (hst : s.cachedStatus h = some st)
    (hexempt : s.exempt st = false) (hdownloads : st.downloads = true) (hruns : st.paused = false) :
    s.verdict now h = if (s.stamp now h st).isStalled now h then .stalled else .active := by
  simp [verdict, hvalid, hst, hexempt, hdownloads, hruns]

theorem verdict_of_waits (now : Int) (hvalid : s.valid h = true) (hst : s.cachedStatus h = some st)
    (hexempt : s.exempt st = false) (hdownloads : st.downloads = true) (hpaused : st.paused = true)
    (hqueue : h ∈ s.queuePaused) : s.verdict now h = .queued := by
  simp [verdict, hvalid, hst, hexempt, hdownloads, hpaused, hqueue]

theorem verdict_of_exempt (now : Int) (hvalid : s.valid h = true) (hst : s.cachedStatus h = some st)
    (hexempt : s.exempt st = true) (hpaused : st.paused = true) : s.verdict now h = .resume := by
  simp [verdict, hvalid, hst, hexempt, hpaused]

theorem isForceStart_of_exempt (hvalid : s.valid h = true) (hst : s.cachedStatus h = some st)
    (hexempt : s.exempt st = true) : s.isForceStart h = true := by
  unfold exempt at hexempt
  rw [Bool.and_eq_true] at hexempt
  obtain ⟨hmeta, hforce⟩ := hexempt
  simpa [isForceStart, torrentHash, hvalid, hst, hmeta] using hforce

end Verdicts

section Clock

theorem seenBy_clock (hst : s.cachedStatus h = some st)
    (hv : s.verdict now h = .active ∨ s.verdict now h = .stalled) :
    (s.seenBy now h).lastFastAt h = (s.stamp now h st).lastFastAt h := by
  have hstamp : ((s.warm h).stampOf now h).lastFastAt h = (s.stamp now h st).lastFastAt h := by
    rw [stampOf, cachedStatus_warm, hst]
    dsimp only
    rw [stamp_lastFastAt, stamp_lastFastAt]
    rfl
  unfold seenBy
  rcases hv with hv | hv
  · rw [hv]
    exact hstamp
  · rw [hv]
    exact hstamp

theorem isStalled_congr {s s' : State} (hclock : s'.lastFastAt h = s.lastFastAt h) :
    s'.isStalled now h = s.isStalled now h := by
  unfold isStalled
  rw [hclock]

theorem Passed.isStalled_of_runs (hq : Passed s now q) (htorrent : h ∈ s.torrents)
    (hst : s.cachedStatus h = some st)
    (hv : s.verdict now h = .active ∨ s.verdict now h = .stalled) :
    q.s.isStalled now h = (s.stamp now h st).isStalled now h := by
  apply isStalled_congr
  rw [hq.lastFastAt, if_pos htorrent, seenBy_clock hst hv]

theorem Passed.isStalled_of_queued (hq : Passed s now q) (hv : s.verdict now h = .queued) :
    q.s.isStalled now h = s.isStalled now h := by
  apply isStalled_congr
  have hseen : (s.seenBy now h).lastFastAt h = s.lastFastAt h := by
    unfold seenBy
    rw [hv]
    rfl
  rw [hq.lastFastAt, hseen, ite_self]

end Clock

section Slots

theorem slots_eq (s : State) (now : Int) :
    s.slots now = (s.active now).take s.limit ++ s.promotes now := List.take_append ..

theorem nodup_active_queued (s : State) (now : Int) : (s.active now ++ s.queued now).Nodup := by
  refine List.Nodup.append (s.distinct.filter _) (s.distinct.filter _) fun h ha hq => ?_
  have hv := verdict_of_mem_active ha
  rw [verdict_of_mem_queued hq] at hv
  exact absurd hv (by decide)

theorem nodup_slots (s : State) (now : Int) : (s.slots now).Nodup :=
  (nodup_active_queued s now).sublist (List.take_sublist _ _)

theorem mem_torrents_of_mem_slots (hs : h ∈ s.slots now) : h ∈ s.torrents := by
  rcases List.mem_append.mp (List.mem_of_mem_take hs) with ha | hq
  · exact (List.mem_filter.mp ha).1
  · exact (List.mem_filter.mp hq).1

theorem notMem_demotes_of_mem_take (ht : h ∈ (s.active now).take s.limit) : h ∉ s.demotes now := by
  have hnodup : (s.active now).Nodup := s.distinct.filter _
  exact fun hd => List.disjoint_take_drop hnodup le_rfl ht hd

theorem Passed.not_pausedAfter (hq : Passed s now q) :
    q.pausedAfter st h = false ↔ h ∈ q.resumed ∨ h ∉ s.demotes now ∧ st.paused = false := by
  unfold Pass.pausedAfter
  simp only [hq.paused]
  by_cases hr : h ∈ q.resumed <;> simp [hr]

-- What runs after the pass is what got a slot, the exempt and the stalled aside.
theorem Passed.occupies_iff (hq : Passed s now q) (htorrent : h ∈ s.torrents) :
    s.occupies now q h = true ↔
      h ∈ s.slots now ∧ s.isForceStart h = false ∧ q.s.isStalled now h = false := by
  unfold occupies
  simp only [Bool.and_eq_true, Bool.not_eq_true', slots_eq, List.mem_append]
  constructor
  · rintro ⟨⟨⟨hvalid, hst⟩, hforce⟩, hstalled⟩
    refine ⟨?_, hforce, hstalled⟩
    obtain ⟨st, hst, hdown⟩ := (Option.any_eq_true _ _).mp hst
    rw [Bool.and_eq_true, Bool.not_eq_true'] at hdown
    obtain ⟨hdownloads, hafter⟩ := hdown
    rcases hq.not_pausedAfter.mp hafter with hresumed | ⟨hkept, hruns⟩
    · rcases (hq.resumed h).mp hresumed with ⟨-, hv⟩ | hpromote
      · obtain ⟨-, st', hst', hexempt, -⟩ := of_verdict_resume hv
        rw [isForceStart_of_exempt hvalid hst' hexempt] at hforce
        exact absurd hforce (by decide)
      · exact .inr hpromote
    · have hexempt : s.exempt st = false := by
        by_contra hexempt
        rw [isForceStart_of_exempt hvalid hst (by simpa using hexempt)] at hforce
        exact absurd hforce (by decide)
      have hv := verdict_of_runs now hvalid hst hexempt hdownloads hruns
      cases hclock : (s.stamp now h st).isStalled now h with
      | true =>
          rw [hclock, if_pos rfl] at hv
          rw [hq.isStalled_of_runs htorrent hst (.inr hv), hclock] at hstalled
          exact absurd hstalled (by decide)
      | false =>
          rw [hclock, if_neg Bool.false_ne_true] at hv
          have hactive : h ∈ s.active now := List.mem_filter.mpr ⟨htorrent, decide_eq_true hv⟩
          rw [← List.take_append_drop s.limit (s.active now)] at hactive
          exact .inl ((List.mem_append.mp hactive).resolve_right hkept)
  · rintro ⟨hslot, hforce, hstalled⟩
    refine ⟨⟨?_, hforce⟩, hstalled⟩
    rcases hslot with htake | hpromote
    · have hv := verdict_of_mem_active (List.mem_of_mem_take htake)
      obtain ⟨hvalid, st, hst, hdownloads, hruns, -⟩ := of_verdict_active hv
      have hafter := hq.not_pausedAfter.mpr (.inr ⟨notMem_demotes_of_mem_take htake, hruns⟩)
      exact ⟨hvalid, by simp [hst, hdownloads, hafter]⟩
    · obtain ⟨hvalid, -, st, hst, hdownloads, -⟩ :=
        of_verdict_queued (verdict_of_mem_promotes hpromote)
      have hafter : q.pausedAfter st h = false :=
        hq.not_pausedAfter.mpr (.inl ((hq.resumed h).mpr (.inr hpromote)))
      exact ⟨hvalid, by simp [hst, hdownloads, hafter]⟩

theorem Passed.waits_of (hq : Passed s now q) (hvalid : s.valid h = true)
    (hst : s.cachedStatus h = some st) (hdownloads : st.downloads = true)
    (hqueue : h ∈ s.queuePaused ∨ h ∈ s.demotes now) (hpromote : h ∉ s.promotes now)
    (hv : s.verdict now h ≠ .resume) (hpaused : st.paused = true ∨ h ∈ s.demotes now) :
    s.waits q h = true := by
  have hqueue' : h ∈ q.s.queuePaused := (hq.queuePaused h).mpr ⟨hqueue, hpromote⟩
  have hresumed : h ∉ q.resumed := by
    rw [hq.resumed]
    exact fun hr => hr.elim (fun hr => hv hr.2) hpromote
  have hafter : q.pausedAfter st h = true := by
    rw [← Bool.not_eq_false, hq.not_pausedAfter, not_or, not_and]
    refine ⟨hresumed, fun hkept => ?_⟩
    simpa using hpaused.resolve_right hkept
  simp [waits, hvalid, hqueue', hst, hdownloads, hafter]

-- Something waits just where there are more downloads than slots.
theorem Passed.waits_iff (hq : Passed s now q) :
    (∃ h ∈ s.torrents, s.waits q h = true) ↔
      s.limit < (s.active now).length + (s.queued now).length := by
  constructor
  · rintro ⟨h, htorrent, hwaits⟩
    unfold waits at hwaits
    simp only [Bool.and_eq_true, decide_eq_true_eq] at hwaits
    obtain ⟨⟨hvalid, hqueue⟩, hst⟩ := hwaits
    obtain ⟨st, hst, hdown⟩ := (Option.any_eq_true _ _).mp hst
    rw [Bool.and_eq_true] at hdown
    obtain ⟨hdownloads, hafter⟩ := hdown
    have hafter' : ¬ (h ∈ q.resumed ∨ h ∉ s.demotes now ∧ st.paused = false) := by
      rw [← hq.not_pausedAfter, hafter]
      decide
    rw [not_or, not_and] at hafter'
    by_cases hdemote : h ∈ s.demotes now
    · have hlong := List.length_pos_of_mem hdemote
      rw [demotes, List.length_drop] at hlong
      omega
    · have hpaused : st.paused = true := by simpa using hafter'.2 hdemote
      have hexempt : s.exempt st = false := by
        by_contra hexempt
        have hv := verdict_of_exempt now hvalid hst (by simpa using hexempt) hpaused
        exact hafter'.1 ((hq.resumed h).mpr (.inl ⟨htorrent, hv⟩))
      have hqueue' := (((hq.queuePaused h).mp hqueue).1).resolve_right hdemote
      have hv := verdict_of_waits now hvalid hst hexempt hdownloads hpaused hqueue'
      have hqueued : h ∈ s.queued now := List.mem_filter.mpr ⟨htorrent, decide_eq_true hv⟩
      have hpromote : h ∉ s.promotes now := fun hp => hafter'.1 ((hq.resumed h).mpr (.inr hp))
      rw [← List.take_append_drop (s.limit - (s.active now).length) (s.queued now)] at hqueued
      have hlong := List.length_pos_of_mem ((List.mem_append.mp hqueued).resolve_left hpromote)
      rw [List.length_drop] at hlong
      omega
  · intro hmore
    by_cases hover : s.limit < (s.active now).length
    · have hsome : s.demotes now ≠ [] := by
        intro hnone
        have hlong := List.drop_eq_nil_iff.mp hnone
        omega
      obtain ⟨h, hdemote⟩ := List.exists_mem_of_ne_nil _ hsome
      have hv := verdict_of_mem_demotes hdemote
      obtain ⟨hvalid, st, hst, hdownloads, -, -⟩ := of_verdict_active hv
      refine ⟨h, (List.mem_filter.mp (List.mem_of_mem_drop hdemote)).1, ?_⟩
      exact hq.waits_of hvalid hst hdownloads (.inr hdemote) (notMem_promotes hdemote)
        (by rw [hv]; decide) (.inr hdemote)
    · have hsome : (s.queued now).drop (s.limit - (s.active now).length) ≠ [] := by
        intro hnone
        have hlong := List.drop_eq_nil_iff.mp hnone
        omega
      obtain ⟨h, hdrop⟩ := List.exists_mem_of_ne_nil _ hsome
      have hqueued := List.mem_of_mem_drop hdrop
      have hv := verdict_of_mem_queued hqueued
      have hnodup : (s.queued now).Nodup := s.distinct.filter _
      have hpromote : h ∉ s.promotes now :=
        fun hp => List.disjoint_take_drop hnodup le_rfl hp hdrop
      obtain ⟨hvalid, hqueue, st, hst, hdownloads, hpaused⟩ := of_verdict_queued hv
      refine ⟨h, (List.mem_filter.mp hqueued).1, ?_⟩
      exact hq.waits_of hvalid hst hdownloads (.inl hqueue) hpromote (by rw [hv]; decide)
        (.inl hpaused)

def holdsSlot (s : State) (now : Int) (q : Pass) (h : Handle) : Bool :=
  !s.isForceStart h && !q.s.isStalled now h

theorem Passed.length_occupies (hq : Passed s now q) :
    (s.torrents.filter (s.occupies now q)).length =
      ((s.slots now).filter (s.holdsSlot now q)).length := by
  apply List.Perm.length_eq
  rw [List.perm_ext_iff_of_nodup (s.distinct.filter _) ((nodup_slots s now).filter _)]
  intro h
  rw [List.mem_filter, List.mem_filter]
  constructor
  · rintro ⟨htorrent, hocc⟩
    obtain ⟨hslot, hforce, hstalled⟩ := (hq.occupies_iff htorrent).mp hocc
    exact ⟨hslot, by simp [holdsSlot, hforce, hstalled]⟩
  · rintro ⟨hslot, hholds⟩
    have htorrent := mem_torrents_of_mem_slots hslot
    refine ⟨htorrent, (hq.occupies_iff htorrent).mpr ⟨hslot, ?_⟩⟩
    simpa [holdsSlot] using hholds

theorem Passed.holdsSlot_iff (hq : Passed s now q) (hslot : h ∈ s.slots now) :
    s.holdsSlot now q h = true ↔ s.isForceStart h = false ∧
      (s.verdict now h = .queued → s.isStalled now h = false) := by
  unfold holdsSlot
  rw [Bool.and_eq_true, Bool.not_eq_true', Bool.not_eq_true']
  refine and_congr_right fun _ => ?_
  rw [slots_eq] at hslot
  rcases List.mem_append.mp hslot with htake | hpromote
  · have hactive := List.mem_of_mem_take htake
    have hv := verdict_of_mem_active hactive
    obtain ⟨-, st, hst, -, -, hclock⟩ := of_verdict_active hv
    rw [hq.isStalled_of_runs (List.mem_filter.mp hactive).1 hst (.inl hv), hclock]
    simp [hv]
  · have hv := verdict_of_mem_promotes hpromote
    rw [hq.isStalled_of_queued hv]
    simp [hv]

end Slots

section Cap

theorem length_slots (s : State) (now : Int) :
    (s.slots now).length = min s.limit ((s.active now).length + (s.queued now).length) := by
  rw [slots, List.length_take, List.length_append]

-- The pass keeps the cap and strands nothing just where the state it starts from allows it.
theorem capped_iff (s : State) (now : Int) : s.Capped now ↔ s.KeepsCap now := by
  by_cases hlimit : 0 < s.maxActiveDownloads
  · have hq := passed_queuePass hlimit now
    have hlen := hq.length_occupies
    have hslots := length_slots s now
    have hsome : ((s.slots now).filter (s.holdsSlot now (queuePass now s))).length ≤
        (s.slots now).length := List.length_filter_le ..
    have hall : ((s.slots now).filter (s.holdsSlot now (queuePass now s))).length =
        (s.slots now).length ↔ ∀ h ∈ s.slots now, s.isForceStart h = false ∧
          (s.verdict now h = .queued → s.isStalled now h = false) := by
      rw [List.length_filter_eq_length_iff]
      exact forall₂_congr fun h hslot => hq.holdsSlot_iff hslot
    constructor
    · intro hc
      refine ⟨fun _ hmore => hall.mp ?_, fun hnone => absurd hlimit (by omega)⟩
      have hfull := hc.full hlimit (hq.waits_iff.mpr hmore)
      omega
    · intro hk
      refine ⟨fun _ => by omega, fun _ hwaits => ?_, fun hnone => absurd hlimit (by omega)⟩
      have hmore := hq.waits_iff.mp hwaits
      have hfilled := hall.mpr (hk.slots hlimit hmore)
      omega
  · have hnone : s.maxActiveDownloads ≤ 0 := by omega
    have hsame : s.enforceDownloadQueue now = s := by
      rw [enforceDownloadQueue, queuePass, if_pos hnone]
    constructor
    · exact fun hc => ⟨fun hpos => absurd hpos hlimit, fun _ => hsame ▸ hc.free hnone⟩
    · intro hk
      refine ⟨fun hpos => absurd hpos hlimit, fun hpos => absurd hpos hlimit, fun _ => ?_⟩
      rw [hsame]
      exact hk.free hnone

end Cap

end State

-- Over a run, the passes of the queue keep the cap just where each finds a state that allows it.
theorem run_capped_iff {c : Config} {past : List (Reaction State Event Out)} {s : State}
    (hrun : (machine c).Run (fun _ _ => True) past s) :
    Machine.eachStep (fun _ r _ => ∀ w, r.event = .tick w → (r.before.beforeQueue w).Capped w.now)
        past s ↔
      Machine.eachStep (fun _ r _ => ∀ w, r.event = .tick w → (r.before.beforeQueue w).KeepsCap w.now)
        past s := by
  refine hrun.eachStep_iff fun past s e s' out _ _ _ _ => ?_
  exact forall₂_congr fun w _ => State.capped_iff (s.beforeQueue w) w.now

-- The pass that pauses one of two downloads leaves one running.
theorem run_capped_once : ((start twoDownloads).beforeQueue (calm 100 [tun])).Capped 100 := by
  have hstart : (machine twoDownloads).Run (fun _ _ => True) [] _ := .init
  have hticked := hstart.extend (.tick (calm 100 [tun])) trivial rfl
  refine ((run_capped_iff hticked).mpr ⟨?_, trivial⟩).1 _ rfl
  intro w hw
  obtain rfl := Event.tick.inj hw
  exact ⟨fun _ _ => by decide, fun hnone => absurd hnone (by decide)⟩

-- The limit is lifted while a download waits, and no pass looks at it again.
theorem run_not_capped : ∃ past s, (machine twoDownloads).Run (fun _ _ => True) past s ∧
    ¬ Machine.eachStep
      (fun _ r _ => ∀ w, r.event = .tick w → (r.before.beforeQueue w).Capped w.now) past s := by
  have hstart : (machine twoDownloads).Run (fun _ _ => True) [] _ := .init
  have hticked := hstart.extend (.tick (calm 100 [tun])) trivial rfl
  have hlifted := hticked.extend (.setMaxActiveDownloads 0) trivial rfl
  have hafter := hlifted.extend (.tick (calm 101 [tun])) trivial rfl
  refine ⟨_, _, hafter, fun h => ?_⟩
  exact (h.1 _ rfl).free (by decide) 1 ⟨by decide, by decide, false, rfl⟩

end BATorrent.Pausing
