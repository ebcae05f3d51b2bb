import BATorrent.Torrent.MissingData

namespace BATorrent.MissingData

open Lib

abbrev Past := List (Reaction State Event Out)

section History

variable (sep : Separators) (r : Reaction State Event Out) (hash : Text)

def IsProbe : Prop := ∃ existing, r.event = .probed existing

instance : Decidable (IsProbe r) :=
  match h : r.event with
  | .probed existing => .isTrue ⟨existing, h⟩
  | .loaded _ | .added _ | .removed _ | .changed _ _ | .setPauseOnMissingData _ | .tick _ =>
      .isFalse fun ⟨_, heq⟩ => by
        rw [h] at heq
        cases heq

-- A probe that is done looked for the torrent, and found one of its candidate paths or did not.
def Looked (present : Bool) : Prop :=
  ∃ existing probes, r.event = .probed existing ∧ r.before.missingProbeRunning = some probes ∧
    ∃ p ∈ probes, p.hash = hash ∧ contentPresent sep p.candidates (existing hash) = present

-- The startup finds the torrent's data gone, and loads it paused.
def GoneAtStart : Prop :=
  ∃ l, r.event = .loaded l ∧ l.hash = hash ∧ l.gone = true ∧ r.before.pauseOnMissingData = true

def Pauses : Prop := .paused hash ∈ r.out ∨ GoneAtStart r hash

def TurnsOff : Prop := r.event = .setPauseOnMissingData false

-- The last probe before, or the startup where there was none, missed the torrent too.
def MissedBefore (past : Past) (hash : Text) : Prop :=
  match past.find? (IsProbe ·) with
  | some q => Looked sep q hash false
  | none => ∃ q ∈ past, GoneAtStart q hash

-- The torrent was paused, and since then no probe found its data and the option was not turned off.
def Unrelieved (past : Past) (hash : Text) : Prop :=
  ∃ newer q older, past = newer ++ q :: older ∧ Pauses q hash ∧
    ∀ m ∈ newer, ¬ Looked sep m hash true ∧ ¬ TurnsOff m

structure Careful (past : Past) (r : Reaction State Event Out) : Prop where
  confirmed : ∀ hash, .paused hash ∈ r.out → Looked sep r hash false ∧ MissedBefore sep past hash
  oneShot : ∀ hash, .paused hash ∈ r.out → ¬ Unrelieved sep past hash

variable {sep r hash} {past : Past}

theorem unrelieved_cons : Unrelieved sep (r :: past) hash ↔
    Pauses r hash ∨ Unrelieved sep past hash ∧ ¬ Looked sep r hash true ∧ ¬ TurnsOff r := by
  constructor
  · rintro ⟨newer, q, older, heq, hpauses, hsince⟩
    cases newer with
    | nil =>
        obtain ⟨rfl, rfl⟩ := List.cons.inj heq
        exact .inl hpauses
    | cons m newer =>
        obtain ⟨rfl, rfl⟩ := List.cons.inj heq
        obtain ⟨hm, hsince⟩ := List.forall_mem_cons.mp hsince
        exact .inr ⟨⟨newer, q, older, rfl, hpauses, hsince⟩, hm⟩
  · rintro (hpauses | ⟨⟨newer, q, older, rfl, hpauses, hsince⟩, hr⟩)
    · exact ⟨[], r, past, rfl, hpauses, by simp⟩
    · exact ⟨r :: newer, q, older, rfl, hpauses, List.forall_mem_cons.mpr ⟨hr, hsince⟩⟩

-- A step that is no probe leaves what the last probe missed.
theorem missedBefore_cons (hr : ¬ IsProbe r) (h : MissedBefore sep past hash) :
    MissedBefore sep (r :: past) hash := by
  unfold MissedBefore at h ⊢
  rw [List.find?_cons_of_neg (by simpa using hr)]
  cases hlast : past.find? (IsProbe ·) with
  | some q =>
      rw [hlast] at h
      exact h
  | none =>
      rw [hlast] at h
      obtain ⟨q, hq, hgone⟩ := h
      exact ⟨q, List.mem_cons_of_mem _ hq, hgone⟩

theorem missedBefore_probe (hr : IsProbe r) : MissedBefore sep (r :: past) hash ↔
    Looked sep r hash false := by
  unfold MissedBefore
  rw [List.find?_cons_of_pos (by simpa using hr)]

end History

section Pausing

variable (s : State) (confirmed : Finset Text)

theorem foldl_pauseOne (torrents : List Torrent) (acc : Finset Text × List Torrent) :
    ∃ newly, (torrents.foldl (State.pauseOne confirmed) acc).2 = acc.2 ++ newly ∧
      (∀ x, x ∈ (torrents.foldl (State.pauseOne confirmed) acc).1 ↔
        x ∈ acc.1 ∨ ∃ t ∈ newly, t.hash = x) ∧
      ∀ t ∈ newly, t.hash ∈ confirmed ∧ t.hash ∉ acc.1 := by
  induction torrents generalizing acc with
  | nil => exact ⟨[], by simp⟩
  | cons t torrents ih =>
      rw [List.foldl_cons]
      by_cases hskip : State.pauseOne confirmed acc t = acc
      · rw [hskip]
        exact ih acc
      · have hin : t.hash ∈ confirmed ∧ t.hash ∉ acc.1 := by
          by_contra hout
          apply hskip
          unfold State.pauseOne
          split_ifs with hidle hknown
          · rfl
          · rfl
          · tauto
        have hpause : State.pauseOne confirmed acc t = (insert t.hash acc.1, acc.2 ++ [t]) := by
          unfold State.pauseOne at hskip ⊢
          split_ifs at hskip ⊢ with hidle hknown
          · exact absurd rfl hskip
          · exact absurd rfl hskip
          · rfl
        obtain ⟨newly, hlist, hmem, hnew⟩ := ih (State.pauseOne confirmed acc t)
        rw [hpause] at hlist hmem hnew ⊢
        refine ⟨t :: newly, ?_, fun x => ?_, fun u hu => ?_⟩
        · simpa using hlist
        · rw [hmem, Finset.mem_insert, List.exists_mem_cons_iff, eq_comm]
          tauto
        · rcases List.mem_cons.mp hu with rfl | hu
          · exact hin
          · have hu := hnew u hu
            exact ⟨hu.1, fun hmem => hu.2 (Finset.mem_insert_of_mem hmem)⟩

-- What is paused is confirmed and was not remembered, and it is remembered from now on.
theorem pauseMissing_spec : ∃ paused, (s.pauseMissing confirmed).1 = { s with missingPaused := paused } ∧
    (∀ x, x ∈ paused ↔ x ∈ s.missingPaused ∨ .paused x ∈ (s.pauseMissing confirmed).2) ∧
    ∀ x, .paused x ∈ (s.pauseMissing confirmed).2 → x ∈ confirmed ∧ x ∉ s.missingPaused := by
  unfold State.pauseMissing
  split_ifs with hidle
  · exact ⟨s.missingPaused, rfl, by simp, by simp⟩
  · obtain ⟨newly, hlist, hmem, hnew⟩ := foldl_pauseOne confirmed s.torrents (s.missingPaused, [])
    generalize s.torrents.foldl (State.pauseOne confirmed) (s.missingPaused, []) = res
      at hlist hmem hnew ⊢
    obtain ⟨paused, list⟩ := res
    rw [List.nil_append] at hlist
    subst hlist
    have hout : ∀ x, .paused x ∈ ((list.map fun t => Out.paused t.hash) ++
        list.getLast?.toList.map fun t => .torrentError list.length t.name) ↔
          ∃ t ∈ list, t.hash = x := by simp
    refine ⟨paused, rfl, fun x => ?_, fun x hx => ?_⟩
    · rw [hout, hmem]
    · obtain ⟨t, ht, rfl⟩ := (hout x).mp hx
      exact hnew t ht

end Pausing

section Runs

variable {sep : Separators} {missingProbeMs : Int} {past : Past} {s s' : State} {a : Event}
  {out : List Out}

theorem mem_missing {probes : List Probe} {existing : Text → Text → Bool} {x : Text} :
    x ∈ State.missing sep probes existing ↔
      ∃ p ∈ probes, p.hash = x ∧ contentPresent sep p.candidates (existing x) = false := by
  simp only [State.missing, List.mem_toFinset, List.mem_map, List.mem_filter, Bool.not_eq_true',
    and_assoc]
  constructor
  · rintro ⟨p, hp, hgone, rfl⟩
    exact ⟨p, hp, rfl, hgone⟩
  · rintro ⟨p, hp, rfl, hgone⟩
    exact ⟨p, hp, hgone, rfl⟩

-- What a finished probe leaves, and what it pauses.
theorem finishProbe_spec (sep : Separators) (s : State) (probes : List Probe)
    (existing : Text → Text → Bool) :
    ∃ missing paused, missing = State.missing sep probes existing ∧
      (s.finishProbe sep probes existing).1 = { s with
        missingSeen := missing
        missingHashes := missing ∩ s.missingSeen
        missingPaused := paused
        missingProbeRunning := none } ∧
      (∀ x, x ∈ paused ↔ x ∈ s.missingPaused ∩ (missing ∩ s.missingSeen) ∨
        .paused x ∈ (s.finishProbe sep probes existing).2) ∧
      ∀ x, .paused x ∈ (s.finishProbe sep probes existing).2 →
        x ∈ missing ∩ s.missingSeen ∧ x ∉ s.missingPaused := by
  let missing := State.missing sep probes existing
  let confirmed := missing ∩ s.missingSeen
  obtain ⟨paused, hstate, hmem, hnew⟩ := pauseMissing_spec { s with
    missingSeen := missing
    missingHashes := confirmed
    missingPaused := s.missingPaused ∩ confirmed } confirmed
  refine ⟨missing, paused, rfl, ?_, hmem, fun x hx => ?_⟩
  · dsimp only [State.finishProbe]
    rw [hstate]
  · obtain ⟨hconfirmed, hnot⟩ := hnew x hx
    exact ⟨hconfirmed, fun hpaused => hnot (Finset.mem_inter.mpr ⟨hpaused, hconfirmed⟩)⟩

-- What a tick does: nothing, or forget the last probe, or start one.
theorem checkMissingFiles_cases (sep : Separators) (missingProbeMs : Int) (s : State) (now : Int) :
    (s.checkMissingFiles sep missingProbeMs now = s) ∨
    (s.Due missingProbeMs now ∧ s.probes sep = [] ∧ s.checkMissingFiles sep missingProbeMs now =
      { s with lastMissingProbe := now, missingHashes := ∅, missingSeen := ∅ }) ∨
    (s.Due missingProbeMs now ∧ s.checkMissingFiles sep missingProbeMs now =
      { s with lastMissingProbe := now, missingProbeRunning := some (s.probes sep) }) := by
  unfold State.checkMissingFiles
  by_cases hdue : s.Due missingProbeMs now
  · right
    rw [if_pos hdue]
    dsimp only
    split_ifs with hempty
    · exact .inl ⟨hdue, List.isEmpty_iff.mp hempty, rfl⟩
    · exact .inr ⟨hdue, rfl⟩
  · exact .inl (if_neg hdue)

-- In every run: a torrent that the last probe is held to have missed was missed by it.
structure Recorded (sep : Separators) (past : Past) (s : State) : Prop where
  fresh : s.started = false → s.missingProbeRunning = none ∧ ∀ q ∈ past, ¬ IsProbe q
  seen : ∀ x ∈ s.missingSeen, MissedBefore sep past x

theorem recorded_next (h : Recorded sep past s)
    (hnext : s.next sep missingProbeMs a = some (s', out)) : Recorded sep (⟨s, a, out⟩ :: past) s' := by
  cases a with
  | loaded l =>
      rw [State.next] at hnext
      split_ifs at hnext with hstarted
      obtain ⟨rfl, rfl⟩ := Prod.mk.inj (Option.some.inj hnext)
      obtain ⟨hrunning, hnone⟩ := h.fresh (by simpa using hstarted)
      have hnot : ¬ IsProbe (⟨s, .loaded l, ([] : List Out)⟩ : Reaction State Event Out) := by
        simp [IsProbe]
      have hfresh : ∀ q ∈ (⟨s, .loaded l, []⟩ :: past : Past), ¬ IsProbe q :=
        List.forall_mem_cons.mpr ⟨hnot, hnone⟩
      unfold State.load
      split_ifs with hgone
      · refine ⟨fun _ => ⟨hrunning, hfresh⟩, fun x hx => ?_⟩
        rcases Finset.mem_insert.mp hx with rfl | hx
        · have hlast : (⟨s, .loaded l, []⟩ :: past : Past).find? (IsProbe ·) = none :=
            List.find?_eq_none.mpr fun q hq => by simpa using hfresh q hq
          rw [Bool.and_eq_true] at hgone
          rw [MissedBefore, hlast]
          exact ⟨_, List.mem_cons_self, l, rfl, rfl, hgone.2, hgone.1⟩
        · exact missedBefore_cons hnot (h.seen x hx)
      · exact ⟨fun _ => ⟨hrunning, hfresh⟩, fun x hx => missedBefore_cons hnot (h.seen x hx)⟩
  | added t =>
      obtain ⟨rfl, rfl⟩ := Prod.mk.inj (Option.some.inj hnext)
      refine ⟨by simp, fun x hx => missedBefore_cons (by simp [IsProbe]) (h.seen x hx)⟩
  | removed i =>
      rw [State.next] at hnext
      split_ifs at hnext
      obtain ⟨rfl, rfl⟩ := Prod.mk.inj (Option.some.inj hnext)
      refine ⟨by simp, fun x hx => missedBefore_cons (by simp [IsProbe]) (h.seen x hx)⟩
  | changed i t =>
      rw [State.next] at hnext
      split_ifs at hnext
      obtain ⟨rfl, rfl⟩ := Prod.mk.inj (Option.some.inj hnext)
      refine ⟨by simp, fun x hx => missedBefore_cons (by simp [IsProbe]) (h.seen x hx)⟩
  | setPauseOnMissingData enabled =>
      obtain ⟨rfl, rfl⟩ := Prod.mk.inj (Option.some.inj hnext)
      refine ⟨by simp, fun x hx => missedBefore_cons (by simp [IsProbe]) (h.seen x hx)⟩
  | tick now =>
      obtain ⟨rfl, rfl⟩ := Prod.mk.inj (Option.some.inj hnext)
      refine ⟨by simp, fun x hx => missedBefore_cons (by simp [IsProbe]) (h.seen x ?_)⟩
      rcases checkMissingFiles_cases sep missingProbeMs s now with hsame | ⟨-, -, hnew⟩ | ⟨-, hnew⟩
      · rwa [hsame] at hx
      · rw [hnew] at hx
        cases hx
      · rwa [hnew] at hx
  | probed existing =>
      obtain ⟨probes, hrunning, heq⟩ := Option.map_eq_some_iff.mp hnext
      obtain ⟨missing, paused, rfl, hstate, -⟩ :=
        finishProbe_spec sep { s with started := true } probes existing
      have hs' : s' = _ := (congrArg Prod.fst heq).symm.trans hstate
      subst hs'
      refine ⟨by simp, fun x hx => (missedBefore_probe ⟨existing, rfl⟩).mpr ?_⟩
      exact ⟨existing, probes, rfl, hrunning, mem_missing.mp hx⟩

-- Each tick that is due looks for every torrent that was paused before and not relieved.
def LooksForPaused (sep : Separators) (missingProbeMs : Int) (s : State) : Event → Prop
  | .tick now => s.Due missingProbeMs now →
      ∀ x ∈ s.missingPaused, ∃ t ∈ s.torrents, t.hash = x ∧ (State.probeOf sep t).isSome
  | _ => True

-- In such runs: a torrent that was paused and not relieved is remembered.
structure Remembered (sep : Separators) (past : Past) (s : State) : Prop where
  seen : s.missingPaused ⊆ s.missingSeen
  looked : ∀ probes, s.missingProbeRunning = some probes →
    ∀ x ∈ s.missingPaused, ∃ p ∈ probes, p.hash = x
  remembered : ∀ x, Unrelieved sep past x → x ∈ s.missingPaused

-- A step that neither pauses nor forgets.
theorem Remembered.keep {r : Reaction State Event Out} (h : Remembered sep past s)
    (hpaused : s'.missingPaused = s.missingPaused) (hseen : s'.missingSeen = s.missingSeen)
    (hrunning : s'.missingProbeRunning = s.missingProbeRunning) (hr : ∀ x, ¬ Pauses r x) :
    Remembered sep (r :: past) s' := by
  refine ⟨?_, ?_, fun x hx => ?_⟩
  · rw [hpaused, hseen]
    exact h.seen
  · rw [hrunning, hpaused]
    exact h.looked
  · rw [hpaused]
    rcases unrelieved_cons.mp hx with hnew | ⟨hold, -⟩
    · exact absurd hnew (hr x)
    · exact h.remembered x hold

theorem mem_probes {t : Torrent} (ht : t ∈ s.torrents) (hprobe : (State.probeOf sep t).isSome) :
    ∃ p ∈ s.probes sep, p.hash = t.hash := by
  obtain ⟨p, hp⟩ := Option.isSome_iff_exists.mp hprobe
  refine ⟨p, List.mem_filterMap.mpr ⟨t, ht, hp⟩, ?_⟩
  unfold State.probeOf at hp
  dsimp only at hp
  split_ifs at hp
  obtain rfl := Option.some.inj hp
  rfl

theorem remembered_next (h : Remembered sep past s) (hfresh : Recorded sep past s)
    (hguard : LooksForPaused sep missingProbeMs s a)
    (hnext : s.next sep missingProbeMs a = some (s', out)) :
    Remembered sep (⟨s, a, out⟩ :: past) s' := by
  cases a with
  | loaded l =>
      rw [State.next] at hnext
      split_ifs at hnext with hstarted
      obtain ⟨rfl, rfl⟩ := Prod.mk.inj (Option.some.inj hnext)
      have hrunning := (hfresh.fresh (by simpa using hstarted)).1
      unfold State.load
      split_ifs with hgone
      · refine ⟨Finset.insert_subset_insert _ h.seen, fun probes hprobes => ?_, fun x hx => ?_⟩
        · cases hrunning.symm.trans hprobes
        · rcases unrelieved_cons.mp hx with (hpaused | ⟨l', hl', rfl, -⟩) | ⟨hold, -⟩
          · cases hpaused
          · cases hl'
            exact Finset.mem_insert_self _ _
          · exact Finset.mem_insert_of_mem (h.remembered x hold)
      · refine h.keep rfl rfl rfl fun x => ?_
        rintro (hpaused | ⟨l', hl', -, hlost, hon⟩)
        · cases hpaused
        · cases hl'
          exact hgone (by rw [hlost, hon]; rfl)
  | added t =>
      obtain ⟨rfl, rfl⟩ := Prod.mk.inj (Option.some.inj hnext)
      exact h.keep rfl rfl rfl (by simp [Pauses, GoneAtStart])
  | removed i =>
      rw [State.next] at hnext
      split_ifs at hnext
      obtain ⟨rfl, rfl⟩ := Prod.mk.inj (Option.some.inj hnext)
      exact h.keep rfl rfl rfl (by simp [Pauses, GoneAtStart])
  | changed i t =>
      rw [State.next] at hnext
      split_ifs at hnext
      obtain ⟨rfl, rfl⟩ := Prod.mk.inj (Option.some.inj hnext)
      exact h.keep rfl rfl rfl (by simp [Pauses, GoneAtStart])
  | setPauseOnMissingData enabled =>
      obtain ⟨rfl, rfl⟩ := Prod.mk.inj (Option.some.inj hnext)
      cases enabled with
      | true => exact h.keep rfl rfl rfl (by simp [Pauses, GoneAtStart])
      | false =>
          refine ⟨Finset.empty_subset _, fun _ _ x hx => absurd hx (Finset.notMem_empty x),
            fun x hx => ?_⟩
          rcases unrelieved_cons.mp hx with hnew | ⟨-, -, hon⟩
          · simp [Pauses, GoneAtStart] at hnew
          · exact absurd rfl hon
  | tick now =>
      obtain ⟨rfl, rfl⟩ := Prod.mk.inj (Option.some.inj hnext)
      have hnot : ∀ x, ¬ Pauses (⟨s, .tick now, []⟩ : Reaction State Event Out) x := by
        simp [Pauses, GoneAtStart]
      rcases checkMissingFiles_cases sep missingProbeMs s now with
        hsame | ⟨hdue, hnone, hnew⟩ | ⟨hdue, hnew⟩
      · rw [hsame]
        exact h.keep rfl rfl rfl hnot
      · rw [hnew]
        -- A tick that looks for nothing has nothing to remember.
        have hempty : s.missingPaused = ∅ := by
          refine Finset.eq_empty_of_forall_notMem fun x hx => ?_
          obtain ⟨t, ht, -, hprobe⟩ := hguard hdue x hx
          obtain ⟨p, hp, -⟩ := mem_probes ht hprobe
          rw [hnone] at hp
          cases hp
        have hkept : Remembered sep (⟨s, .tick now, []⟩ :: past) s := h.keep rfl rfl rfl hnot
        exact ⟨hempty.le, hkept.looked, hkept.remembered⟩
      · rw [hnew]
        have hkept : Remembered sep (⟨s, .tick now, []⟩ :: past) s := h.keep rfl rfl rfl hnot
        refine ⟨hkept.seen, fun probes hprobes x hx => ?_, hkept.remembered⟩
        obtain rfl := Option.some.inj hprobes
        obtain ⟨t, ht, rfl, hprobe⟩ := hguard hdue x hx
        exact mem_probes ht hprobe
  | probed existing =>
      obtain ⟨probes, hrunning, heq⟩ := Option.map_eq_some_iff.mp hnext
      obtain ⟨missing, paused, rfl, hstate, hmem, hnew⟩ :=
        finishProbe_spec sep { s with started := true } probes existing
      have hs' : s' = _ := (congrArg Prod.fst heq).symm.trans hstate
      have hout := congrArg Prod.snd heq
      dsimp only at hout
      rw [hout] at hmem hnew
      subst hs'
      refine ⟨fun x hx => ?_, fun probes hprobes => (Option.some_ne_none _ hprobes.symm).elim,
        fun x hx => ?_⟩
      · rcases (hmem x).mp hx with hkept | hpaused
        · exact (Finset.mem_inter.mp (Finset.mem_inter.mp hkept).2).1
        · exact (Finset.mem_inter.mp (hnew x hpaused).1).1
      · refine (hmem x).mpr ?_
        rcases unrelieved_cons.mp hx with (hpaused | ⟨l, hl, -⟩) | ⟨hold, hlooked, -⟩
        · exact .inr hpaused
        · cases hl
        · left
          -- It was looked for, and not found.
          have hold := h.remembered x hold
          obtain ⟨p, hp, hhash⟩ := h.looked probes hrunning x hold
          have hmissing : x ∈ State.missing sep probes existing := by
            refine mem_missing.mpr ⟨p, hp, hhash, ?_⟩
            by_contra hpresent
            exact hlooked ⟨existing, probes, rfl, hrunning, p, hp, hhash, by simpa using hpresent⟩
          exact Finset.mem_inter.mpr ⟨hold, Finset.mem_inter.mpr ⟨hmissing, h.seen hold⟩⟩

-- Only a probe pauses, and what it pauses is missing again and was not remembered.
theorem paused_next (hnext : s.next sep missingProbeMs a = some (s', out)) {x : Text}
    (hx : .paused x ∈ out) :
    Looked sep ⟨s, a, out⟩ x false ∧ x ∈ s.missingSeen ∧ x ∉ s.missingPaused := by
  cases a with
  | loaded l =>
      rw [State.next] at hnext
      split_ifs at hnext
      obtain ⟨-, rfl⟩ := Prod.mk.inj (Option.some.inj hnext)
      cases hx
  | added t =>
      obtain ⟨-, rfl⟩ := Prod.mk.inj (Option.some.inj hnext)
      cases hx
  | removed i =>
      rw [State.next] at hnext
      split_ifs at hnext
      obtain ⟨-, rfl⟩ := Prod.mk.inj (Option.some.inj hnext)
      cases hx
  | changed i t =>
      rw [State.next] at hnext
      split_ifs at hnext
      obtain ⟨-, rfl⟩ := Prod.mk.inj (Option.some.inj hnext)
      cases hx
  | setPauseOnMissingData enabled =>
      obtain ⟨-, rfl⟩ := Prod.mk.inj (Option.some.inj hnext)
      cases hx
  | tick now =>
      obtain ⟨-, rfl⟩ := Prod.mk.inj (Option.some.inj hnext)
      cases hx
  | probed existing =>
      obtain ⟨probes, hrunning, heq⟩ := Option.map_eq_some_iff.mp hnext
      obtain ⟨missing, paused, rfl, -, -, hnew⟩ :=
        finishProbe_spec sep { s with started := true } probes existing
      have hout := congrArg Prod.snd heq
      dsimp only at hout
      rw [hout] at hnew
      obtain ⟨hconfirmed, hnot⟩ := hnew x hx
      obtain ⟨hmissing, hseen⟩ := Finset.mem_inter.mp hconfirmed
      exact ⟨⟨existing, probes, rfl, hrunning, mem_missing.mp hmissing⟩, hseen, hnot⟩

theorem careful_next (hrecorded : Recorded sep past s) (hremembered : Remembered sep past s)
    (hnext : s.next sep missingProbeMs a = some (s', out)) : Careful sep past ⟨s, a, out⟩ := by
  refine ⟨fun x hx => ?_, fun x hx hold => ?_⟩
  · obtain ⟨hlooked, hseen, -⟩ := paused_next hnext hx
    exact ⟨hlooked, hrecorded.seen x hseen⟩
  · exact (paused_next hnext hx).2.2 (hremembered.remembered x hold)

variable {pauseOn : Bool}

theorem run_careful
    (hrun : (machine sep missingProbeMs pauseOn).Run (LooksForPaused sep missingProbeMs) past s) :
    Machine.eachStep (fun past r _ => Careful sep past r) past s := by
  have hall : Recorded sep past s ∧ Remembered sep past s ∧
      Machine.eachStep (fun past r _ => Careful sep past r) past s := by
    refine Machine.Run.invariant_past (fun past s => Recorded sep past s ∧ Remembered sep past s ∧
      Machine.eachStep (fun past r _ => Careful sep past r) past s) ?_ ?_ hrun
    · refine ⟨⟨fun _ => ⟨rfl, by simp⟩, fun x hx => ?_⟩, ⟨subset_rfl, fun probes hprobes => ?_,
        fun x hx => ?_⟩, trivial⟩
      · cases hx
      · cases hprobes
      · obtain ⟨newer, q, older, heq, -⟩ := hx
        simp at heq
    · rintro past s a s' out ⟨hrecorded, hremembered, hcareful⟩ hguard hnext
      exact ⟨recorded_next hrecorded hnext, remembered_next hremembered hrecorded hguard hnext,
        careful_next hrecorded hremembered hnext, hcareful⟩
  exact hall.2.2

end Runs

section Sample

instance (sep : Separators) (missingProbeMs : Int) (s : State) :
    ∀ a, Decidable (LooksForPaused sep missingProbeMs s a)
  | .tick now => inferInstanceAs (Decidable (s.Due missingProbeMs now → _))
  | .loaded _ | .added _ | .removed _ | .changed _ _ | .setPauseOnMissingData _ | .probed _ =>
      .isTrue trivial

def plain : Separators := ⟨id, id⟩

def film : Torrent := ⟨true, ['x'], true, false, 1, ['/', 'd'], ['n'], [['n']]⟩

def nothingThere : Event := .probed fun _ _ => false

-- Two probes that find nothing.
def missedTwice (first second : Int) : List Event :=
  [.tick first, nothingThere, .tick second, nothingThere]

def PausedFilm (r : State × List Out) : Prop := .paused ['x'] ∈ r.2

instance : DecidablePred PausedFilm := fun r => inferInstanceAs (Decidable (.paused ['x'] ∈ r.2))

-- It is resumed after the pause, and let alone.
theorem run_careful_film : ∃ past s,
    (machine plain 10000 true).Run (LooksForPaused plain 10000) past s ∧ PausedFilm (s, Machine.log past) ∧
      Machine.eachStep (fun past r _ => Careful plain past r) past s := by
  obtain ⟨past, s, hrun, hlog⟩ : ∃ past s,
      (machine plain 10000 true).Run (LooksForPaused plain 10000) past s ∧
        PausedFilm (s, Machine.log past) :=
    Machine.exists_run_log (.added film :: missedTwice 10000 20000 ++
      [.changed 0 { film with paused := true }, .changed 0 film] ++ missedTwice 30000 40000)
      (by decide +kernel)
  exact ⟨past, s, hrun, hlog, run_careful hrun⟩

-- No probe finds anything, and the option stays on.
def Blind (s : State) : Event → Prop
  | .probed existing => ∀ probes ∈ s.missingProbeRunning, ∀ p ∈ probes,
      contentPresent plain p.candidates (existing p.hash) = false
  | .setPauseOnMissingData enabled => enabled = true
  | _ => True

instance (s : State) : ∀ a, Decidable (Blind s a)
  | .probed existing => inferInstanceAs (Decidable (∀ probes ∈ s.missingProbeRunning, ∀ p ∈ probes,
      contentPresent plain p.candidates (existing p.hash) = false))
  | .setPauseOnMissingData enabled => inferInstanceAs (Decidable (enabled = true))
  | .loaded _ | .added _ | .removed _ | .changed _ _ | .tick _ => .isTrue trivial

theorem unrelieved_of_blind {past : Past} {s : State} {x : Text}
    (hrun : (machine plain 10000 true).Run Blind past s) (hlog : .paused x ∈ Machine.log past) :
    Unrelieved plain past x := by
  induction hrun with
  | init => cases hlog
  | @step past s s' a out hrun hblind hnext ih =>
      rw [unrelieved_cons]
      rcases List.mem_append.mp hlog with hout | hlog
      · exact .inl (.inl hout)
      · refine .inr ⟨ih hlog, ?_, ?_⟩
        · rintro ⟨existing, probes, rfl, hrunning, p, hp, rfl, hpresent⟩
          rw [hblind probes hrunning p hp] at hpresent
          cases hpresent
        · rintro rfl
          cases hblind

def PausesAgain (r : State × List Out) : Prop :=
  PausedFilm r ∧ (r.1.next plain 10000 nothingThere).any fun res => .paused ['x'] ∈ res.2

instance : DecidablePred PausesAgain := fun _ => inferInstanceAs (Decidable (_ ∧ _))

-- No file of the resumed film is wanted at the third tick, so the probe passes it by; it is wanted
-- again at the fourth.
def deselected : List Event :=
  .added film :: missedTwice 10000 20000 ++
    [.changed 0 { film with paused := true }, .changed 0 { film with totalWantedDone := 0 },
      .tick 30000, .changed 0 film, .tick 40000, nothingThere, .tick 50000]

theorem run_not_careful : ∃ past s, (machine plain 10000 true).Run (fun _ _ => True) past s ∧
    ¬ Machine.eachStep (fun past r _ => Careful plain past r) past s := by
  obtain ⟨past, s, hrun, hlog, hnext⟩ : ∃ past s, (machine plain 10000 true).Run Blind past s ∧
      PausesAgain (s, Machine.log past) :=
    Machine.exists_run_log deselected (by decide +kernel)
  cases hres : s.next plain 10000 nothingThere with
  | none =>
      rw [hres] at hnext
      cases hnext
  | some res =>
      obtain ⟨s', out⟩ := res
      rw [hres, Option.any_some, decide_eq_true_eq] at hnext
      have hextended := (hrun.mono fun _ _ _ => trivial).extend nothingThere trivial hres
      refine ⟨_, s', hextended, fun hcareful => ?_⟩
      exact hcareful.1.oneShot ['x'] hnext (unrelieved_of_blind hrun hlog)

end Sample

end BATorrent.MissingData
