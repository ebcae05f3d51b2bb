import BATorrent.Bridges.RunningGames
import Mathlib.Data.Int.Order.Basic
import Mathlib.Algebra.Ring.Int.Defs

namespace BATorrent.RunningGames

open Lib Machine PlayLog

def Apart (x y : Session) : Prop := x.endMs ≤ y.startMs ∨ y.endMs ≤ x.startMs

namespace Played

variable (r : Played)

-- Seen alive by a save long enough after its start, in the log's seconds.
def Sighted : Prop := kMinSessionSecs < (r.savedMs - r.startMs) / 1000

-- What holds of a run that is over: a sighted one is credited once, from its start, with the time up to the
-- last saved sighting at least and the time until its end was noticed at most.
structure Settled : Prop where
  once : r.credited.length ≤ 1
  credited : r.Sighted → ∃ secs noticedMs, r.credited = [⟨r.startMs, secs⟩] ∧ r.noticed = some noticedMs ∧
    (r.savedMs - r.startMs) / 1000 ≤ secs ∧ secs ≤ (noticedMs - r.startMs) / 1000

end Played

-- A game that the program or its settings still know to be running.
def State.Remembers (s : State) (hash : InfoHash) : Prop := hash ∈ s.running ∨ hash ∈ s.settings

structure Credited (s : State) : Prop where
  apart : ∀ hash, (s.calls hash).Pairwise Apart
  total : ∀ hash, (s.playLog hash).summary.totalSecs =
    (((s.history hash).flatMap Played.credited).map Session.secs).sum
  earlier : ∀ hash, ∀ r ∈ (s.history hash).tail, r.Settled
  remembered : ∀ hash, s.Remembers hash → ∀ r ∈ (s.history hash).head?, r.credited = []
  finished : ∀ hash, ¬ s.Remembers hash → ∀ r ∈ (s.history hash).head?, r.Settled

-- A poll leaves no game remembered but one that it finds alive or handed over.
def Noticed (r : Reaction State Event Unit) (s : State) : Prop :=
  match r.event with
  | .launchGame _ => True
  | .pollRunningGames p => ∀ hash, s.Remembers hash → p.alive hash = true ∨ p.next hash ≠ 0
  | .restarted => True

-- The launch of a game that is not running, which is then followed.
def Launch.Follows (l : Launch) (s : State) : Prop :=
  (l.exe ≠ [] ∧ l.there ∧ l.started) ∧ !l.isInstaller ∧ 0 < l.pid ∧ l.hash ∉ s.running

-- What the settings remember of another run of the game is too short to be credited.
def Spares (s : State) : Event → Prop
  | .launchGame l => l.Follows s →
      ∀ e ∈ s.settings.lookup l.hash, (e.lastAliveMs - e.startMs) / 1000 ≤ kMinSessionSecs
  | .pollRunningGames _ => True
  | .restarted => True

instance (l : Launch) (s : State) : Decidable (l.Follows s) := inferInstanceAs (Decidable (_ ∧ _))

instance (s : State) : (e : Event) → Decidable (Spares s e)
  | .launchGame l => inferInstanceAs (Decidable (l.Follows s → ∀ _ ∈ _, _))
  | .pollRunningGames _ => inferInstanceAs (Decidable True)
  | .restarted => inferInstanceAs (Decidable True)

section Views

-- What there is of one game.
structure View where
  memory : Option Running
  entry : Option Entry
  log : Game
  calls : List Session
  history : List Played

def State.view (s : State) (hash : InfoHash) : View where
  memory := s.running.lookup hash
  entry := s.settings.lookup hash
  log := s.playLog hash
  calls := s.calls hash
  history := s.history hash

variable (s : State) {hash other : InfoHash}

theorem view_erase (running : AList fun _ : InfoHash => Running) (clock : Int) :
    { s with settings := s.settings.erase hash, running := running, clock := clock }.view hash =
      { s.view hash with memory := running.lookup hash, entry := none } := by
  simp [State.view]

theorem view_recordLaunch (nowMs : Int) :
    (s.recordLaunch hash nowMs).view hash = { s.view hash with log := (s.playLog hash).recordLaunch nowMs } := by
  simp [State.view, State.recordLaunch]

theorem view_recordLaunch_of_ne (nowMs : Int) (h : other ≠ hash) :
    (s.recordLaunch hash nowMs).view other = s.view other := by
  simp [State.view, State.recordLaunch, h]

theorem view_recordSession (startMs secs nowMs : Int) :
    (s.recordSession hash startMs secs nowMs).view hash =
      { s.view hash with
        log := ((s.playLog hash).recordSession startMs secs).1
        calls := ⟨startMs, secs⟩ :: s.calls hash
        history := (s.history hash).modifyHead fun r =>
          r.ended startMs secs nowMs ((s.playLog hash).recordSession startMs secs).2 } := by
  simp [State.view, State.modifyLast, State.recordSession]

theorem view_recordSession_of_ne (startMs secs nowMs : Int) (h : other ≠ hash) :
    (s.recordSession hash startMs secs nowMs).view other = s.view other := by
  simp [State.view, State.modifyLast, State.recordSession, h]

theorem view_follow (g : Running) (nowMs : Int) :
    (s.follow hash g nowMs).view hash =
      { s.view hash with
        memory := some g
        entry := some ⟨g.pid, g.startMs, nowMs, g.exe⟩
        history := (s.history hash).modifyHead fun r => r.sighted nowMs } := by
  simp [State.view, State.modifyLast, State.follow, State.persistRunningGame]

theorem view_follow_of_ne (g : Running) (nowMs : Int) (h : other ≠ hash) :
    (s.follow hash g nowMs).view other = s.view other := by
  simp [State.view, State.modifyLast, State.follow, State.persistRunningGame, h]

theorem view_persist (g : Running) (nowMs : Int) :
    (s.persistRunningGame hash g nowMs).view hash =
      { s.view hash with
        entry := some ⟨g.pid, g.startMs, nowMs, g.exe⟩
        history := (s.history hash).modifyHead fun r => r.sighted nowMs } := by
  simp [State.view, State.modifyLast, State.persistRunningGame]

theorem view_persist_of_ne (g : Running) (nowMs : Int) (h : other ≠ hash) :
    (s.persistRunningGame hash g nowMs).view other = s.view other := by
  simp [State.view, State.modifyLast, State.persistRunningGame, h]

theorem view_followRunningGame (pid : Int) (exe : Text) (nowMs : Int) :
    (s.followRunningGame hash pid exe nowMs).view hash =
      { s.view hash with
        memory := some ⟨pid, nowMs, exe⟩
        entry := some ⟨pid, nowMs, nowMs, exe⟩
        history := ⟨nowMs, nowMs, none, []⟩ :: s.history hash } := by
  simp [State.view, State.modifyLast, State.followRunningGame, State.follow, State.persistRunningGame, Played.sighted]

theorem view_followRunningGame_of_ne (pid : Int) (exe : Text) (nowMs : Int) (h : other ≠ hash) :
    (s.followRunningGame hash pid exe nowMs).view other = s.view other := by
  simp [State.view, State.modifyLast, State.followRunningGame, State.follow, State.persistRunningGame, h]

end Views

section Kept

-- A run that is under way: nothing is credited for it, and what was credited before ended before it.
structure Pending (clock : Int) (v : View) (r : Played) : Prop where
  last : r ∈ v.history.head?
  credited : r.credited = []
  start : 0 < r.startMs
  saved : r.startMs ≤ r.savedMs ∧ r.savedMs ≤ clock
  before : ∀ x ∈ v.calls, x.endMs ≤ r.startMs

-- What holds of one game. `due` is that its entry is still to be restored: what is followed then was
-- launched since the start and is saved with its start alone.
structure Kept (due : Prop) (clock : Int) (v : View) : Prop where
  epoch : 0 < clock
  apart : v.calls.Pairwise Apart
  ended : ∀ x ∈ v.calls, x.endMs ≤ clock
  total : v.log.summary.totalSecs = ((v.history.flatMap Played.credited).map Session.secs).sum
  earlier : ∀ r ∈ v.history.tail, r.Settled
  finished : v.memory = none → v.entry = none → ∀ r ∈ v.history.head?, r.Settled
  memory : ∀ g ∈ v.memory, ∃ r, Pending clock v r ∧ g.startMs = r.startMs ∧ g.exe ≠ [] ∧
    (due ∨ v.entry = none → r.savedMs = r.startMs)
  entry : ∀ e ∈ v.entry, ∃ r, Pending clock v r ∧ e.startMs = r.startMs ∧ e.exe ≠ [] ∧ e.lastAliveMs = r.savedMs
  restored : v.entry ≠ none → v.memory = none → due

variable {due due' : Prop} {clock clock' nowMs : Int} {v : View} {r : Played}

theorem Pending.mono (h : Pending clock v r) (hclock : clock ≤ clock') : Pending clock' v r :=
  ⟨h.last, h.credited, h.start, ⟨h.saved.1, h.saved.2.trans hclock⟩, h.before⟩

theorem Kept.mono (h : Kept due clock v) (hclock : clock ≤ clock') : Kept due clock' v where
  epoch := h.epoch.trans_le hclock
  apart := h.apart
  ended x hx := (h.ended x hx).trans hclock
  total := h.total
  earlier := h.earlier
  finished := h.finished
  memory g hg := by
    obtain ⟨r, hr, hrest⟩ := h.memory g hg
    exact ⟨r, hr.mono hclock, hrest⟩
  entry e he := by
    obtain ⟨r, hr, hrest⟩ := h.entry e he
    exact ⟨r, hr.mono hclock, hrest⟩
  restored := h.restored

theorem Pending.unique {r' : Played} (h : Pending clock v r) (h' : Pending clock v r') : r' = r :=
  Option.some.inj (h'.last.symm.trans h.last)

theorem Pending.history (h : Pending clock v r) : ∃ earlier, v.history = r :: earlier := by
  obtain ⟨earlier, hearlier⟩ := List.head?_eq_some_iff.mp h.last
  exact ⟨earlier, hearlier⟩

-- A run that is not sighted may be forgotten.
theorem Pending.settled (h : Pending clock v r) (hshort : (r.savedMs - r.startMs) / 1000 ≤ kMinSessionSecs) : r.Settled :=
  ⟨by rw [h.credited]; exact Nat.zero_le 1, fun hsighted => absurd hsighted hshort.not_gt⟩

theorem not_sighted_of_eq (h : r.savedMs ≤ r.startMs) : (r.savedMs - r.startMs) / 1000 ≤ kMinSessionSecs := by
  unfold kMinSessionSecs
  omega

-- The last run is over once what is remembered of it is too short.
theorem Kept.settled_of_short (h : Kept due clock v) (hmemory : v.memory = none)
    (hshort : ∀ e ∈ v.entry, (e.lastAliveMs - e.startMs) / 1000 ≤ kMinSessionSecs) :
    ∀ r ∈ v.history.head?, r.Settled := by
  intro r hr
  cases hentry : v.entry with
  | none => exact h.finished hmemory hentry r hr
  | some e =>
      obtain ⟨r', hpending, hstart, -, halive⟩ := h.entry e hentry
      obtain rfl : r' = r := Option.some.inj (hpending.last.symm.trans hr)
      have hshort' := hshort e hentry
      rw [hstart, halive] at hshort'
      exact hpending.settled hshort'

theorem Kept.followRunningGame (h : Kept due clock v) (hmemory : v.memory = none)
    (hshort : ∀ e ∈ v.entry, (e.lastAliveMs - e.startMs) / 1000 ≤ kMinSessionSecs) (pid : Int) {exe : Text} (hexe : exe ≠ []) :
    Kept due' clock { v with
      memory := some ⟨pid, clock, exe⟩
      entry := some ⟨pid, clock, clock, exe⟩
      history := ⟨clock, clock, none, []⟩ :: v.history } := by
  have hpending : Pending clock { v with
      memory := some ⟨pid, clock, exe⟩
      entry := some ⟨pid, clock, clock, exe⟩
      history := ⟨clock, clock, none, []⟩ :: v.history } ⟨clock, clock, none, []⟩ :=
    ⟨rfl, rfl, h.epoch, ⟨le_rfl, le_rfl⟩, h.ended⟩
  refine ⟨h.epoch, h.apart, h.ended, h.total, fun r hr => ?_, nofun, ?_, ?_, nofun⟩
  · change r ∈ v.history at hr
    cases hhistory : v.history with
    | nil =>
        rw [hhistory] at hr
        exact absurd hr List.not_mem_nil
    | cons last earlier =>
        rw [hhistory] at hr
        rcases List.mem_cons.mp hr with rfl | hr
        · exact h.settled_of_short hmemory hshort r (by rw [hhistory]; rfl)
        · exact h.earlier r (by rw [hhistory]; exact hr)
  · rintro g ⟨⟩
    exact ⟨_, hpending, rfl, hexe, fun _ => rfl⟩
  · rintro e ⟨⟩
    exact ⟨_, hpending, rfl, hexe, rfl⟩

-- A run under way is seen again, under whichever process.
theorem Kept.follow (h : Kept due clock v) (hpending : Pending nowMs v r) (hclock : nowMs ≤ clock) {g : Running}
    (hstart : g.startMs = r.startMs) (hexe : g.exe ≠ []) :
    Kept False clock { v with
      memory := some g
      entry := some ⟨g.pid, g.startMs, nowMs, g.exe⟩
      history := v.history.modifyHead fun r => r.sighted nowMs } := by
  obtain ⟨earlier, hhistory⟩ := hpending.history
  have hseen : Pending clock { v with
      memory := some g
      entry := some ⟨g.pid, g.startMs, nowMs, g.exe⟩
      history := v.history.modifyHead fun r => r.sighted nowMs } (r.sighted nowMs) := by
    refine ⟨?_, hpending.credited, hpending.start, ⟨?_, hclock⟩, hpending.before⟩
    · change r.sighted nowMs ∈ (v.history.modifyHead fun r => r.sighted nowMs).head?
      rw [hhistory]
      rfl
    · exact hpending.saved.1.trans hpending.saved.2
  refine ⟨h.epoch, h.apart, h.ended, ?_, ?_, nofun, ?_, ?_, nofun⟩
  · have htotal := h.total
    rw [hhistory] at htotal
    change v.log.summary.totalSecs =
      (((v.history.modifyHead fun r => r.sighted nowMs).flatMap Played.credited).map Session.secs).sum
    rw [htotal, hhistory]
    rfl
  · have hearlier := h.earlier
    rw [hhistory] at hearlier
    change ∀ x ∈ (v.history.modifyHead fun r => r.sighted nowMs).tail, x.Settled
    rw [hhistory]
    exact hearlier
  · rintro g' ⟨⟩
    exact ⟨_, hseen, hstart, hexe, by rintro (hfalse | hnone) <;> contradiction⟩
  · rintro e ⟨⟩
    exact ⟨_, hseen, hstart, hexe, rfl⟩

-- A run under way is credited and forgotten.
theorem Kept.record (h : Kept due clock v) (hpending : Pending clock v r) {secs : Int}
    (hsaved : (r.savedMs - r.startMs) / 1000 ≤ secs) (hnoticed : secs ≤ (clock - r.startMs) / 1000) :
    Kept due' clock { v with
      memory := none
      entry := none
      log := (v.log.recordSession r.startMs secs).1
      calls := ⟨r.startMs, secs⟩ :: v.calls
      history := v.history.modifyHead fun x =>
        x.ended r.startMs secs clock (v.log.recordSession r.startMs secs).2 } := by
  obtain ⟨earlier, hhistory⟩ := hpending.history
  have hcredited : (r.ended r.startMs secs clock (v.log.recordSession r.startMs secs).2).credited =
      if Game.Counts r.startMs secs then [⟨r.startMs, secs⟩] else [] := by
    simp [Played.ended, Game.recordSession_snd, hpending.credited]
  have hend : r.startMs + 1000 * secs ≤ clock := by omega
  refine ⟨h.epoch, ?_, ?_, ?_, ?_, fun _ _ x hx => ?_, nofun, nofun, fun hne => absurd rfl hne⟩
  · exact List.pairwise_cons.mpr ⟨fun x hx => .inr (hpending.before x hx), h.apart⟩
  · rintro x hx
    rcases List.mem_cons.mp hx with rfl | hx
    · exact hend
    · exact h.ended x hx
  · have htotal := h.total
    rw [hhistory, List.flatMap_cons, hpending.credited] at htotal
    change (v.log.recordSession r.startMs secs).1.summary.totalSecs = _
    rw [Game.total_recordSession, htotal, hhistory, List.modifyHead_cons, List.flatMap_cons, hcredited]
    split_ifs <;> simp [Int.add_comm]
  · have hearlier := h.earlier
    rw [hhistory] at hearlier
    change ∀ x ∈ (v.history.modifyHead _).tail, x.Settled
    rw [hhistory]
    exact hearlier
  · change x ∈ (v.history.modifyHead _).head? at hx
    rw [hhistory, List.modifyHead_cons] at hx
    obtain rfl := Option.some.inj hx
    refine ⟨?_, fun hsighted => ?_⟩
    · rw [hcredited]
      split_ifs
      · exact le_rfl
      · exact Nat.zero_le 1
    · have hcounts : Game.Counts r.startMs secs := by
        have hstart := hpending.start
        have hlong : kMinSessionSecs < (r.savedMs - r.startMs) / 1000 := hsighted
        unfold Game.Counts
        omega
      exact ⟨secs, clock, by rw [hcredited, if_pos hcounts]; rfl, rfl, hsaved, hnoticed⟩

-- The entry of a run that was not seen alive since its start is dropped.
theorem Kept.drop (h : Kept due clock v) (hdue : due) {e : Entry} (hentry : v.entry = some e)
    (hshort : e.lastAliveMs ≤ e.startMs) : Kept False clock { v with entry := none } := by
  obtain ⟨r, hpending, hstart, -, halive⟩ := h.entry e hentry
  refine ⟨h.epoch, h.apart, h.ended, h.total, h.earlier, fun _ _ x hx => ?_, fun g hg => ?_, nofun,
    fun hne => absurd rfl hne⟩
  · obtain rfl : r = x := Option.some.inj (hpending.last.symm.trans hx)
    exact hpending.settled (not_sighted_of_eq (by rw [← halive, ← hstart]; exact hshort))
  · obtain ⟨r', hr', hstart', hexe, hunsaved⟩ := h.memory g hg
    exact ⟨r', ⟨hr'.last, hr'.credited, hr'.start, hr'.saved, hr'.before⟩, hstart', hexe, fun _ => hunsaved (.inl hdue)⟩

theorem Kept.restarted (h : Kept due clock v) : Kept (v.entry ≠ none) clock { v with memory := none } := by
  refine ⟨h.epoch, h.apart, h.ended, h.total, h.earlier, fun _ hentry r hr => ?_, nofun, fun e he => ?_, fun hne _ => hne⟩
  · cases hmemory : v.memory with
    | none => exact h.finished hmemory hentry r hr
    | some g =>
        obtain ⟨r', hpending, -, -, hunsaved⟩ := h.memory g hmemory
        obtain rfl : r' = r := Option.some.inj (hpending.last.symm.trans hr)
        exact hpending.settled (not_sighted_of_eq (hunsaved (.inr hentry)).le)
  · obtain ⟨r, hr, hrest⟩ := h.entry e he
    exact ⟨r, ⟨hr.last, hr.credited, hr.start, hr.saved, hr.before⟩, hrest⟩

theorem Kept.recordLaunch (h : Kept due clock v) (nowMs : Int) :
    Kept due clock { v with log := v.log.recordLaunch nowMs } where
  epoch := h.epoch
  apart := h.apart
  ended := h.ended
  total := h.total
  earlier := h.earlier
  finished := h.finished
  memory g hg := by
    obtain ⟨r, hr, hrest⟩ := h.memory g hg
    exact ⟨r, ⟨hr.last, hr.credited, hr.start, hr.saved, hr.before⟩, hrest⟩
  entry e he := by
    obtain ⟨r, hr, hrest⟩ := h.entry e he
    exact ⟨r, ⟨hr.last, hr.credited, hr.start, hr.saved, hr.before⟩, hrest⟩
  restored := h.restored

theorem Kept.congr_due (h : Kept due clock v) (hdue : due' ↔ due) : Kept due' clock v := by
  rw [propext hdue]
  exact h

theorem Kept.of_entry_eq_none (h : Kept due clock v) (hentry : v.entry = none) : Kept due' clock v where
  epoch := h.epoch
  apart := h.apart
  ended := h.ended
  total := h.total
  earlier := h.earlier
  finished := h.finished
  memory g hg := by
    obtain ⟨r, hr, hstart, hexe, hunsaved⟩ := h.memory g hg
    exact ⟨r, hr, hstart, hexe, fun _ => hunsaved (.inr hentry)⟩
  entry := h.entry
  restored hne := absurd hentry hne

end Kept

section Polls

variable (s : State) (p : Poll) {hash other : InfoHash} {nowMs : Int}

theorem restoreGame_clock : (s.restoreGame p nowMs hash).clock = s.clock := by
  unfold State.restoreGame
  cases s.settings.lookup hash with
  | none => rfl
  | some e =>
      dsimp only
      split_ifs <;> rfl

theorem restoreGame_restored : (s.restoreGame p nowMs hash).restored = s.restored := by
  unfold State.restoreGame
  cases s.settings.lookup hash with
  | none => rfl
  | some e =>
      dsimp only
      split_ifs <;> rfl

theorem view_restoreGame_of_ne (h : other ≠ hash) : (s.restoreGame p nowMs hash).view other = s.view other := by
  have herase : { s with settings := s.settings.erase hash }.view other = s.view other := by
    simp [State.view, h]
  unfold State.restoreGame
  cases s.settings.lookup hash with
  | none => rfl
  | some e =>
      dsimp only
      split_ifs
      · exact herase
      · rw [view_follow_of_ne _ _ _ h, herase]
      · rw [view_recordSession_of_ne _ _ _ _ h, herase]
      · exact herase

theorem kept_restoreGame (h : Kept True s.clock (s.view hash)) :
    Kept False s.clock ((s.restoreGame p s.clock hash).view hash) := by
  have herase : { s with settings := s.settings.erase hash }.view hash = { s.view hash with entry := none } :=
    view_erase s s.running s.clock
  unfold State.restoreGame
  cases hentry : s.settings.lookup hash with
  | none => exact h.of_entry_eq_none hentry
  | some e =>
      obtain ⟨r, hpending, hstart, hexe, halive⟩ := h.entry e hentry
      have hepoch : ¬ (e.startMs ≤ 0 ∨ e.exe = []) := by
        rintro (hle | hnil)
        · exact absurd (hstart ▸ hpending.start) hle.not_gt
        · exact hexe hnil
      dsimp only
      rw [if_neg hepoch]
      split_ifs with hunder hlong
      · rw [view_follow, herase]
        exact h.follow hpending le_rfl hstart hexe
      · rw [view_recordSession, herase, hstart, halive]
        have hmemory : (s.view hash).memory = none := by
          refine Option.eq_none_iff_forall_not_mem.mpr fun g hg => ?_
          obtain ⟨r', hr', -, -, hunsaved⟩ := h.memory g hg
          obtain rfl := hpending.unique hr'
          have := hunsaved (.inl trivial)
          omega
        have hnonneg : 0 ≤ r.savedMs - r.startMs := Int.sub_nonneg_of_le hpending.saved.1
        rw [Int.tdiv_eq_ediv_of_nonneg hnonneg]
        have hends := Int.ediv_le_ediv (c := 1000) (by decide) (Int.sub_le_sub_right hpending.saved.2 r.startMs)
        have hrecord : Kept False s.clock _ := h.record hpending le_rfl hends
        rw [← hmemory] at hrecord
        exact hrecord
      · rw [herase]
        exact h.drop trivial hentry (Int.not_lt.mp hlong)

theorem kept_restoreRunningGames {l : List InfoHash} (hnodup : l.Nodup) (hclock : s.clock = nowMs)
    (h : ∀ hash, Kept (hash ∈ l) nowMs (s.view hash)) :
    ∀ hash, Kept False nowMs ((l.foldl (fun s hash => s.restoreGame p nowMs hash) s).view hash) := by
  induction l generalizing s with
  | nil => exact fun hash => (h hash).congr_due (iff_of_false id List.not_mem_nil)
  | cons first l ih =>
      obtain ⟨hfirst, hnodup⟩ := List.nodup_cons.mp hnodup
      subst hclock
      refine ih (s.restoreGame p s.clock first) hnodup (restoreGame_clock s p) fun hash => ?_
      by_cases hsame : hash = first
      · subst hsame
        have hhere := (h hash).congr_due (iff_of_true trivial List.mem_cons_self)
        exact (kept_restoreGame s p hhere).congr_due (iff_of_false hfirst id)
      · rw [view_restoreGame_of_ne s p hsame]
        exact (h hash).congr_due (by rw [List.mem_cons, or_iff_right hsame])

theorem restoreRunningGames_clock (l : List InfoHash) :
    (l.foldl (fun s hash => s.restoreGame p nowMs hash) s).clock = s.clock := by
  induction l generalizing s with
  | nil => rfl
  | cons first l ih => exact (ih (s.restoreGame p nowMs first)).trans (restoreGame_clock s p)

theorem restoreRunningGames_restored (l : List InfoHash) :
    (l.foldl (fun s hash => s.restoreGame p nowMs hash) s).restored = s.restored := by
  induction l generalizing s with
  | nil => rfl
  | cons first l ih => exact (ih (s.restoreGame p nowMs first)).trans (restoreGame_restored s p)

theorem kept_noticeOutside (o : Outside) (h : ∀ hash, Kept False s.clock (s.view hash)) :
    ∀ hash, Kept False s.clock ((s.noticeOutside s.clock o).view hash) := by
  intro hash
  unfold State.noticeOutside
  split_ifs with hskip
  · exact h hash
  · obtain ⟨hpath, hrunning⟩ := not_or.mp hskip
    by_cases hsame : hash = o.hash
    · subst hsame
      have hmemory : (s.view o.hash).memory = none := AList.lookup_eq_none.mpr hrunning
      rw [view_followRunningGame, view_recordLaunch]
      refine ((h o.hash).recordLaunch s.clock).followRunningGame hmemory (fun e he => ?_) o.pid hpath
      refine absurd ((h o.hash).restored ?_ hmemory) id
      exact fun hnone => Option.some_ne_none e (he.symm.trans hnone)
    · rw [view_followRunningGame_of_ne _ _ _ _ hsame, view_recordLaunch_of_ne _ _ hsame]
      exact h hash

theorem noticeOutside_frame (nowMs : Int) (o : Outside) :
    (s.noticeOutside nowMs o).clock = s.clock ∧ (s.noticeOutside nowMs o).restored = s.restored := by
  unfold State.noticeOutside
  split_ifs <;> exact ⟨rfl, rfl⟩

theorem noticeOutsideLaunches_frame (outside : List Outside) (nowMs : Int) :
    (s.noticeOutsideLaunches outside nowMs).clock = s.clock ∧
      (s.noticeOutsideLaunches outside nowMs).restored = s.restored := by
  have hfold : ∀ t : State, (outside.foldl (fun s o => s.noticeOutside nowMs o) t).clock = t.clock ∧
      (outside.foldl (fun s o => s.noticeOutside nowMs o) t).restored = t.restored := by
    induction outside with
    | nil => exact fun t => ⟨rfl, rfl⟩
    | cons o outside ih =>
        intro t
        obtain ⟨hclock, hrestored⟩ := ih (t.noticeOutside nowMs o)
        obtain ⟨hclock', hrestored'⟩ := noticeOutside_frame t nowMs o
        exact ⟨hclock.trans hclock', hrestored.trans hrestored'⟩
  unfold State.noticeOutsideLaunches
  split_ifs
  · exact ⟨rfl, rfl⟩
  · exact hfold { s with outsideScanMs := nowMs }

theorem kept_noticeOutsideLaunches (outside : List Outside) (hclock : s.clock = nowMs)
    (h : ∀ hash, Kept False nowMs (s.view hash)) :
    ∀ hash, Kept False nowMs ((s.noticeOutsideLaunches outside nowMs).view hash) := by
  have hfold : ∀ t : State, t.clock = nowMs → (∀ hash, Kept False nowMs (t.view hash)) →
      ∀ hash, Kept False nowMs ((outside.foldl (fun s o => s.noticeOutside nowMs o) t).view hash) := by
    induction outside with
    | nil => exact fun t _ hkept => hkept
    | cons o outside ih =>
        intro t ht hkept
        subst ht
        exact ih (t.noticeOutside t.clock o) (noticeOutside_frame t t.clock o).1 (kept_noticeOutside t o hkept)
  unfold State.noticeOutsideLaunches
  split_ifs
  · exact h
  · exact hfold { s with outsideScanMs := nowMs } hclock h

theorem view_pollGame_of_ne (saveAlive : Bool) (h : other ≠ hash) :
    (s.pollGame p saveAlive nowMs hash).view other = s.view other := by
  unfold State.pollGame
  cases s.running.lookup hash with
  | none => rfl
  | some g =>
      dsimp only
      generalize (if g.exe = [] then 0 else p.next hash) = next
      split_ifs
      · exact view_persist_of_ne s g nowMs h
      · rfl
      · exact view_follow_of_ne s _ nowMs h
      · rw [view_recordSession_of_ne _ _ _ _ h]
        simp [State.view, h]

theorem pollGame_clock (saveAlive : Bool) (nowMs : Int) (hash : InfoHash) : s.clock ≤ (s.pollGame p saveAlive nowMs hash).clock := by
  unfold State.pollGame
  cases s.running.lookup hash with
  | none => exact le_rfl
  | some g =>
      dsimp only
      generalize (if g.exe = [] then 0 else p.next hash) = next
      split_ifs
      · exact le_rfl
      · exact le_rfl
      · exact le_rfl
      · exact Int.le_add_of_nonneg_right (Int.natCast_nonneg _)

theorem pollGame_restored (saveAlive : Bool) : (s.pollGame p saveAlive nowMs hash).restored = s.restored := by
  unfold State.pollGame
  cases s.running.lookup hash with
  | none => rfl
  | some g =>
      dsimp only
      generalize (if g.exe = [] then 0 else p.next hash) = next
      split_ifs <;> rfl

theorem polled_restored (saveAlive : Bool) (l : List InfoHash) :
    (l.foldl (fun s hash => s.pollGame p saveAlive nowMs hash) s).restored = s.restored := by
  induction l generalizing s with
  | nil => rfl
  | cons first l ih => exact (ih (s.pollGame p saveAlive nowMs first)).trans (pollGame_restored s p saveAlive)

theorem kept_pollGame (saveAlive : Bool) (h : Kept False nowMs (s.view hash)) (hclock : nowMs ≤ s.clock) :
    Kept False (s.pollGame p saveAlive nowMs hash).clock ((s.pollGame p saveAlive nowMs hash).view hash) := by
  unfold State.pollGame
  cases hlookup : s.running.lookup hash with
  | none => exact h.mono hclock
  | some g =>
      obtain ⟨r, hpending, hstart, hexe, -⟩ := h.memory g hlookup
      dsimp only
      rw [if_neg hexe]
      split_ifs with halive hsave hnext
      · have hfollow := (h.mono hclock).follow hpending hclock hstart hexe
        rw [view_persist]
        rw [← hlookup] at hfollow
        exact hfollow
      · exact h.mono hclock
      · rw [view_follow]
        exact (h.mono hclock).follow hpending hclock hstart hexe
      · have hread : s.clock ≤ s.clock + p.exitElapsed hash := Int.le_add_of_nonneg_right (Int.natCast_nonneg _)
        have hlate := hclock.trans hread
        have hsaved := hpending.saved
        have hnonneg : 0 ≤ s.clock + p.exitElapsed hash - r.startMs := by omega
        rw [view_recordSession, view_erase, hstart, Int.tdiv_eq_ediv_of_nonneg hnonneg, AList.lookup_erase]
        exact (h.mono hlate).record (hpending.mono hlate) (by omega) le_rfl

theorem kept_polled {l : List InfoHash} (saveAlive : Bool) (hnodup : l.Nodup) (hclock : nowMs ≤ s.clock)
    (hdue : ∀ hash ∈ l, Kept False nowMs (s.view hash)) (h : ∀ hash, Kept False s.clock (s.view hash)) :
    ∀ hash, Kept False (l.foldl (fun s hash => s.pollGame p saveAlive nowMs hash) s).clock
      ((l.foldl (fun s hash => s.pollGame p saveAlive nowMs hash) s).view hash) := by
  induction l generalizing s with
  | nil => exact h
  | cons first l ih =>
      obtain ⟨hfirst, hnodup⟩ := List.nodup_cons.mp hnodup
      have hlater := pollGame_clock s p saveAlive nowMs first
      refine ih (s.pollGame p saveAlive nowMs first) hnodup (hclock.trans hlater) (fun hash hhash => ?_) fun hash => ?_
      · rw [view_pollGame_of_ne s p saveAlive (ne_of_mem_of_not_mem hhash hfirst)]
        exact hdue hash (List.mem_cons_of_mem _ hhash)
      · by_cases hsame : hash = first
        · subst hsame
          exact kept_pollGame s p saveAlive (hdue hash List.mem_cons_self) hclock
        · rw [view_pollGame_of_ne s p saveAlive hsame]
          exact (h hash).mono hlater

-- A game that is still followed after its turn was found alive or handed over.
theorem running_pollGame (saveAlive : Bool) (h : other ∈ (s.pollGame p saveAlive nowMs hash).running) :
    other ∈ s.running ∧ (other = hash → p.alive hash = true ∨ p.next hash ≠ 0) := by
  unfold State.pollGame at h
  cases hlookup : s.running.lookup hash with
  | none =>
      rw [hlookup] at h
      refine ⟨h, fun hsame => absurd (AList.lookup_eq_none.mp hlookup) ?_⟩
      exact not_not.mpr (hsame ▸ h)
  | some g =>
      have hmem : hash ∈ s.running := AList.lookup_isSome.mp (by rw [hlookup]; rfl)
      rw [hlookup] at h
      dsimp only at h
      by_cases halive : p.alive hash = true
      · refine ⟨?_, fun _ => .inl halive⟩
        rw [if_pos halive] at h
        split_ifs at h <;> exact h
      · rw [if_neg halive] at h
        generalize hzero : (if g.exe = [] then 0 else p.next hash) = next at h
        by_cases hnext : next ≠ 0
        · rw [if_pos hnext] at h
          refine ⟨?_, fun _ => .inr fun hnone => hnext ?_⟩
          · rcases (AList.mem_insert _).mp h with rfl | h
            · exact hmem
            · exact h
          · rw [← hzero, hnone, ite_self]
        · rw [if_neg hnext] at h
          obtain ⟨hne, h⟩ := AList.mem_erase.mp h
          exact ⟨h, fun hsame => absurd hsame hne⟩

theorem running_polled (saveAlive : Bool) (l : List InfoHash) :
    ∀ hash ∈ (l.foldl (fun s hash => s.pollGame p saveAlive nowMs hash) s).running,
      hash ∈ s.running ∧ (hash ∈ l → p.alive hash = true ∨ p.next hash ≠ 0) := by
  induction l generalizing s with
  | nil => exact fun hash h => ⟨h, fun hnil => absurd hnil List.not_mem_nil⟩
  | cons first l ih =>
      intro hash h
      obtain ⟨hrunning, hturn⟩ := ih (s.pollGame p saveAlive nowMs first) hash h
      obtain ⟨hbefore, hfirst⟩ := running_pollGame s p saveAlive hrunning
      refine ⟨hbefore, fun hmem => ?_⟩
      rcases List.mem_cons.mp hmem with rfl | hmem
      · exact hfirst rfl
      · exact hturn hmem

end Polls

section Steps

variable {s : State}

def Good (s : State) : Prop := ∀ hash, Kept (s.restored = false ∧ hash ∈ s.settings) s.clock (s.view hash)

theorem Good.credited (h : Good s) : Credited s where
  apart hash := (h hash).apart
  total hash := (h hash).total
  earlier hash := (h hash).earlier
  remembered hash hrem r hr := by
    rcases hrem with hrunning | hsettings
    · obtain ⟨g, hg⟩ := Option.isSome_iff_exists.mp (AList.lookup_isSome.mpr hrunning)
      obtain ⟨r', hpending, -⟩ := (h hash).memory g hg
      obtain rfl : r' = r := Option.some.inj (hpending.last.symm.trans hr)
      exact hpending.credited
    · obtain ⟨e, he⟩ := Option.isSome_iff_exists.mp (AList.lookup_isSome.mpr hsettings)
      obtain ⟨r', hpending, -⟩ := (h hash).entry e he
      obtain rfl : r' = r := Option.some.inj (hpending.last.symm.trans hr)
      exact hpending.credited
  finished hash hover := by
    obtain ⟨hrunning, hsettings⟩ := not_or.mp hover
    exact (h hash).finished (AList.lookup_eq_none.mpr hrunning) (AList.lookup_eq_none.mpr hsettings)

theorem pickedUp_restored (p : Poll) : (s.pickedUp p).restored = true := by
  unfold State.pickedUp
  split_ifs with hrestored
  · exact hrestored
  · exact restoreRunningGames_restored { s with clock := s.clock + p.restoreElapsed, restored := true } p _

theorem pollRunningGames_restored (s : State) (p : Poll) : (s.pollRunningGames p).restored = true := by
  obtain ⟨-, hrestored⟩ := noticeOutsideLaunches_frame
    { s.pickedUp p with clock := (s.pickedUp p).clock + p.elapsed } p.outside
    ((s.pickedUp p).clock + p.elapsed)
  replace hrestored := hrestored.trans (pickedUp_restored p)
  unfold State.pollRunningGames
  dsimp only
  split_ifs
  · exact hrestored
  all_goals exact (polled_restored _ p _ _).trans hrestored

theorem good_of_restored (hrestored : s.restored = true) (h : ∀ hash, Kept False s.clock (s.view hash)) : Good s :=
  fun hash => (h hash).congr_due (iff_of_false (fun hdue => by simp [hrestored] at hdue) id)

theorem good_launchGame (h : Good s) (l : Launch) (hspares : Spares s (.launchGame l)) : Good (s.launchGame l) := by
  have hlater : s.clock ≤ s.clock + l.elapsed := Int.le_add_of_nonneg_right (Int.natCast_nonneg _)
  unfold State.launchGame
  dsimp only
  split_ifs with hstarts hfollows
  · intro hash
    by_cases hsame : hash = l.hash
    · subst hsame
      rw [view_followRunningGame, view_recordLaunch]
      exact (((h l.hash).mono hlater).recordLaunch _).followRunningGame (AList.lookup_eq_none.mpr hfollows.2.2)
        (hspares ⟨hstarts, hfollows⟩) l.pid hstarts.1
    · rw [view_followRunningGame_of_ne _ _ _ _ hsame, view_recordLaunch_of_ne _ _ hsame]
      refine ((h hash).mono hlater).congr_due (and_congr Iff.rfl ?_)
      change hash ∈ s.settings.insert l.hash _ ↔ _
      rw [AList.mem_insert, or_iff_right hsame]
  · intro hash
    by_cases hsame : hash = l.hash
    · subst hsame
      rw [view_recordLaunch]
      exact ((h l.hash).mono hlater).recordLaunch _
    · rw [view_recordLaunch_of_ne _ _ hsame]
      exact (h hash).mono hlater
  · exact h

theorem good_restarted (h : Good s) : Good s.restarted := by
  intro hash
  refine (h hash).restarted.congr_due ?_
  rw [← AList.lookup_isSome, Option.isSome_iff_ne_none]
  exact and_iff_right rfl

theorem kept_pickedUp (h : Good s) (p : Poll) : ∀ hash, Kept False (s.pickedUp p).clock ((s.pickedUp p).view hash) := by
  unfold State.pickedUp
  split_ifs with hrestored
  · exact fun hash => (h hash).congr_due (iff_of_false id (fun hdue => by simp [hrestored] at hdue))
  · have hlater : s.clock ≤ s.clock + p.restoreElapsed := Int.le_add_of_nonneg_right (Int.natCast_nonneg _)
    have hperm := p.order.perm s.settings.keys
    unfold State.restoreRunningGames
    rw [restoreRunningGames_clock]
    refine kept_restoreRunningGames _ p (hperm.nodup_iff.mpr s.settings.keys_nodup) rfl fun hash => ?_
    refine ((h hash).mono hlater).congr_due ?_
    rw [hperm.mem_iff, AList.mem_keys]
    exact (and_iff_right (Bool.eq_false_iff.mpr hrestored)).symm

theorem good_polled {u : State} (hrestored : u.restored = true) (h : ∀ hash, Kept False u.clock (u.view hash)) (p : Poll)
    (saveAlive : Bool) :
    Good ((p.order.keys u.running.keys).foldl (fun s hash => s.pollGame p saveAlive u.clock hash) u) := by
  have hnodup := (p.order.perm u.running.keys).nodup_iff.mpr u.running.keys_nodup
  refine good_of_restored ?_ (kept_polled u p saveAlive hnodup le_rfl (fun hash _ => h hash) h)
  exact (polled_restored u p saveAlive _).trans hrestored

theorem good_pollRunningGames (h : Good s) (p : Poll) : Good (s.pollRunningGames p) := by
  have hlater : (s.pickedUp p).clock ≤ (s.pickedUp p).clock + p.elapsed :=
    Int.le_add_of_nonneg_right (Int.natCast_nonneg _)
  have hkept := kept_noticeOutsideLaunches { s.pickedUp p with clock := (s.pickedUp p).clock + p.elapsed }
    p.outside rfl fun hash => (kept_pickedUp h p hash).mono hlater
  obtain ⟨hclock, hrestored⟩ := noticeOutsideLaunches_frame
    { s.pickedUp p with clock := (s.pickedUp p).clock + p.elapsed } p.outside
    ((s.pickedUp p).clock + p.elapsed)
  replace hrestored := hrestored.trans (pickedUp_restored p)
  unfold State.pollRunningGames
  dsimp only
  generalize { s.pickedUp p with clock := (s.pickedUp p).clock + p.elapsed }.noticeOutsideLaunches p.outside
    ((s.pickedUp p).clock + p.elapsed) = t at hkept hclock hrestored ⊢
  dsimp only at hclock hkept
  rw [← hclock] at hkept ⊢
  split_ifs with hempty hsave
  · exact good_of_restored hrestored hkept
  · exact good_polled (u := { t with savedMs := t.clock }) hrestored hkept p _
  · exact good_polled hrestored hkept p _

-- The games that a poll leaves running had their turn in it.
theorem running_pollRunningGames (s : State) (p : Poll) :
    ∀ hash ∈ (s.pollRunningGames p).running, p.alive hash = true ∨ p.next hash ≠ 0 := by
  intro hash h
  unfold State.pollRunningGames at h
  dsimp only at h
  generalize { s.pickedUp p with clock := (s.pickedUp p).clock + p.elapsed }.noticeOutsideLaunches p.outside
    ((s.pickedUp p).clock + p.elapsed) = t at h
  split_ifs at h with hempty hsave
  · have hkey := AList.mem_keys.mp h
    rw [hempty] at hkey
    exact absurd hkey List.not_mem_nil
  all_goals
    obtain ⟨hrunning, hturn⟩ := running_polled _ p _ _ hash h
    exact hturn ((p.order.perm _).mem_iff.mpr (AList.mem_keys.mp hrunning))

theorem noticed_pollRunningGames (h : Good s) (p : Poll) (hash : InfoHash)
    (hremembers : (s.pollRunningGames p).Remembers hash) : p.alive hash = true ∨ p.next hash ≠ 0 := by
  refine running_pollRunningGames s p hash ?_
  rcases hremembers with hrunning | hsettings
  · exact hrunning
  · by_contra hgone
    have hdue := (good_pollRunningGames h p hash).restored
      (Option.isSome_iff_ne_none.mp (AList.lookup_isSome.mpr hsettings)) (AList.lookup_eq_none.mpr hgone)
    exact Bool.false_ne_true (hdue.1.symm.trans (pollRunningGames_restored s p))

theorem good_next (h : Good s) {e : Event} {s' : State} {out : List Unit} (hspares : Spares s e)
    (hnext : s.next e = some (s', out)) : Good s' := by
  cases e with
  | launchGame l =>
      obtain ⟨rfl, -⟩ := Prod.mk.inj (Option.some.inj hnext)
      exact good_launchGame h l hspares
  | pollRunningGames p =>
      obtain ⟨rfl, -⟩ := Prod.mk.inj (Option.some.inj hnext)
      exact good_pollRunningGames h p
  | restarted =>
      obtain ⟨rfl, -⟩ := Prod.mk.inj (Option.some.inj hnext)
      exact good_restarted h

-- A launch that is not spared leaves a sighted run behind that nothing was credited for.
theorem spares_of_credited (h : Good s) {e : Event} {s' : State} {out : List Unit}
    (hnext : s.next e = some (s', out)) (hcredited : Credited s') : Spares s e := by
  cases e with
  | launchGame l =>
      intro hfollows entry hentry
      obtain ⟨rfl, -⟩ := Prod.mk.inj (Option.some.inj hnext)
      obtain ⟨r, hpending, hstart, -, halive⟩ := (h l.hash).entry entry hentry
      obtain ⟨earlier, hhistory⟩ := hpending.history
      have hview : ((s.launchGame l).view l.hash).history =
          ⟨s.clock + l.elapsed, s.clock + l.elapsed, none, []⟩ :: s.history l.hash := by
        unfold State.launchGame
        rw [if_pos hfollows.1]
        refine (congrArg (fun t : State => (t.view l.hash).history) (if_pos hfollows.2)).trans ?_
        rw [view_followRunningGame]
        rfl
      have htail : r ∈ ((s.launchGame l).history l.hash).tail := by
        change r ∈ ((s.launchGame l).view l.hash).history.tail
        rw [hview]
        exact List.mem_of_mem_head? hpending.last
      by_contra hlong
      rw [hstart, halive, not_le] at hlong
      obtain ⟨secs, noticedMs, hone, -⟩ := (hcredited.earlier l.hash r htail).credited hlong
      rw [hpending.credited] at hone
      exact List.cons_ne_nil _ _ hone.symm
  | pollRunningGames p => trivial
  | restarted => trivial

end Steps

section Runs

theorem good_init : Good machine.init := fun _ =>
  ⟨by decide, List.Pairwise.nil, nofun, rfl, nofun, nofun, nofun, nofun, fun hne => absurd rfl hne⟩

theorem good_run {past : List (Reaction State Event Unit)} {s : State} (hrun : machine.Run Spares past s) : Good s :=
  Run.invariant Good good_init (fun _ _ _ _ h hspares hnext => good_next h hspares hnext) hrun

theorem noticed_run {past : List (Reaction State Event Unit)} {s : State} (hrun : machine.Run Spares past s) :
    eachStep (fun _ r s' => Noticed r s') past s := by
  induction hrun with
  | init => trivial
  | @step past s s' e out hrun hspares hnext ih =>
      refine ⟨?_, ih⟩
      cases e with
      | launchGame l => trivial
      | pollRunningGames p =>
          obtain ⟨rfl, -⟩ := Prod.mk.inj (Option.some.inj hnext)
          exact noticed_pollRunningGames (good_run hrun) p
      | restarted => trivial

-- Over any run, each game that was played is credited as it should be just when no launch that came before
-- the first poll of a start met the settings of another run of the game that was long enough.
theorem run_credits {past : List (Reaction State Event Unit)} {s : State} (hrun : machine.Run (fun _ _ => True) past s) :
    (∀ t ∈ visited past s, Credited t) ∧ eachStep (fun _ r s' => Noticed r s') past s ↔
      ∀ r ∈ past, Spares r.before r.event := by
  have hvisited := Run.forall_visited_iff_of_past (P := Credited) (C := Spares)
    (show Credited machine.init ↔ True from iff_of_true good_init.credited trivial)
    (fun earlier t e t' out hearlier hspared _ hnext => by
      have hgood := good_run (hearlier.restrict hspared)
      exact ⟨spares_of_credited hgood hnext, fun hspares => (good_next hgood hspares hnext).credited⟩) hrun
  rw [true_and] at hvisited
  constructor
  · rintro ⟨hcredited, -⟩
    exact hvisited.mp hcredited
  · intro hspares
    exact ⟨hvisited.mpr hspares, noticed_run (hrun.restrict hspares)⟩

def tomb : InfoHash := "t".toList

def tombExe : Text := "/g/tomb".toList

def launchTomb : Launch := ⟨tomb, tombExe, true, false, true, 40, 100000⟩

def inOrder : KeyOrder := ⟨id, List.Perm.refl⟩

-- A poll a minute after the last one, at which the game is alive or is not.
def pollAfterMinute (alive : Bool) : Poll where
  order := inOrder
  restoreElapsed := 1000
  under _ := alive
  elapsed := 60000
  outside := []
  alive _ := alive
  next _ := 0
  exitElapsed _ := 0

-- A minute is played, the program restarts, and another minute is played.
def playAcrossRestart : List Event :=
  [.launchGame launchTomb, .pollRunningGames (pollAfterMinute true), .restarted,
    .pollRunningGames (pollAfterMinute true), .pollRunningGames (pollAfterMinute false)]

def CreditsThreeMinutes (s : State) : Prop := s.calls tomb = [⟨100001, 182⟩]

instance (s : State) : Decidable (CreditsThreeMinutes s) := inferInstanceAs (Decidable (_ = _))

theorem run_credits_tomb :
    ∃ past s, machine.Run (fun _ _ => True) past s ∧ CreditsThreeMinutes s ∧
      ((∀ t ∈ visited past s, Credited t) ∧ eachStep (fun _ r s' => Noticed r s') past s ↔
        ∀ r ∈ past, Spares r.before r.event) := by
  obtain ⟨past, s, hrun, hcredits⟩ : ∃ past s, machine.Run (fun _ _ => True) past s ∧ CreditsThreeMinutes s :=
    exists_run playAcrossRestart (by decide +kernel)
  exact ⟨past, s, hrun, hcredits, run_credits hrun⟩

-- The game ended while the program was closed, and is launched before the first poll of the next start.
def launchBeforePoll : List Event :=
  [.launchGame launchTomb, .pollRunningGames (pollAfterMinute true), .restarted, .launchGame launchTomb,
    .pollRunningGames (pollAfterMinute false)]

-- The first run was seen alive a minute after its start, and nothing is credited for it.
def LosesFirst (s : State) : Prop :=
  ((s.history tomb).tail.map fun r => (r.savedMs - r.startMs, r.credited)) = [(61000, [])]

instance (s : State) : Decidable (LosesFirst s) := inferInstanceAs (Decidable (_ = _))

theorem not_credits :
    ¬ ∀ past s, machine.Run (fun _ _ => True) past s →
      (∀ t ∈ visited past s, Credited t) ∧ eachStep (fun _ r s' => Noticed r s') past s := by
  intro h
  obtain ⟨past, s, hrun, hloses⟩ : ∃ past s, machine.Run (fun _ _ => True) past s ∧ LosesFirst s :=
    exists_run launchBeforePoll (by decide +kernel)
  have hcredited := (h past s hrun).1 s List.mem_cons_self
  obtain ⟨r, htail, hr⟩ := List.map_eq_singleton_iff.mp hloses
  obtain ⟨hsaved, hnone⟩ := Prod.mk.inj hr
  have hsighted : r.Sighted := by
    unfold Played.Sighted
    rw [hsaved]
    decide
  obtain ⟨secs, noticedMs, hone, -⟩ :=
    (hcredited.earlier tomb r (htail ▸ List.mem_singleton_self r)).credited hsighted
  rw [hnone] at hone
  exact List.cons_ne_nil _ _ hone.symm

end Runs

end BATorrent.RunningGames
