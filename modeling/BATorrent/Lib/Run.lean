import Mathlib.Data.List.Forall2
import Mathlib.Data.List.Infix

namespace Lib

universe u v w

-- A program that reacts to events. `next` is none where the event cannot happen.
structure Machine (σ : Type u) (α : Type v) (ω : Type w) where
  init : σ
  next : σ → α → Option (σ × List ω)

-- One reaction, with the state it started from.
structure Reaction (σ : Type u) (α : Type v) (ω : Type w) where
  before : σ
  event : α
  out : List ω

namespace Machine

variable {σ : Type u} {α : Type v} {ω : Type w} (M : Machine σ α ω)

-- The runs whose every step meets the guard, each with its reactions, newest first.
inductive Run (guard : σ → α → Prop) : List (Reaction σ α ω) → σ → Prop where
  | init : Run guard [] M.init
  | step {past : List (Reaction σ α ω)} {s s' : σ} {a : α} {out : List ω} :
      Run guard past s → guard s a → M.next s a = some (s', out) →
        Run guard (⟨s, a, out⟩ :: past) s'

variable {M} {guard : σ → α → Prop}

theorem Run.extend {past : List (Reaction σ α ω)} {s s' : σ} {out : List ω}
    (hrun : M.Run guard past s) (a : α) (hguard : guard s a) (hnext : M.next s a = some (s', out)) :
    M.Run guard (⟨s, a, out⟩ :: past) s' := hrun.step hguard hnext

-- An invariant may also speak of the past it was reached by.
theorem Run.invariant_past (I : List (Reaction σ α ω) → σ → Prop) (hinit : I [] M.init)
    (hstep : ∀ past s a s' out, I past s → guard s a → M.next s a = some (s', out) →
      I (⟨s, a, out⟩ :: past) s') :
    ∀ {past s}, M.Run guard past s → I past s := by
  intro past s hrun
  induction hrun with
  | init => exact hinit
  | step _ hguard hnext ih => exact hstep _ _ _ _ _ ih hguard hnext

theorem Run.invariant (I : σ → Prop) (hinit : I M.init)
    (hstep : ∀ s a s' out, I s → guard s a → M.next s a = some (s', out) → I s') :
    ∀ {past s}, M.Run guard past s → I s :=
  Run.invariant_past (fun _ s => I s) hinit (fun _ s a s' out => hstep s a s' out)

theorem Run.mono {guard' : σ → α → Prop} (h : ∀ s a, guard s a → guard' s a)
    {past : List (Reaction σ α ω)} {s : σ} (hrun : M.Run guard past s) : M.Run guard' past s := by
  induction hrun with
  | init => exact .init
  | step _ hguard hnext ih => exact ih.step (h _ _ hguard) hnext

-- Every reaction of a run starts from a state a run reaches.
theorem Run.before {past : List (Reaction σ α ω)} {s : σ} (hrun : M.Run guard past s)
    {r : Reaction σ α ω} (hr : r ∈ past) :
    ∃ earlier s', M.Run guard earlier r.before ∧ guard r.before r.event ∧
      M.next r.before r.event = some (s', r.out) := by
  induction hrun with
  | init => simp at hr
  | step hrun hguard hnext ih =>
      rcases List.mem_cons.mp hr with rfl | hr
      · exact ⟨_, _, hrun, hguard, hnext⟩
      · exact ih hr

-- The states of a run, the last one first.
def visited (past : List (Reaction σ α ω)) (s : σ) : List σ := s :: past.map Reaction.before

-- A run whose steps meet another condition is a run guarded by that one.
theorem Run.restrict {guard' : σ → α → Prop} {past : List (Reaction σ α ω)} {s : σ}
    (hrun : M.Run guard past s) (hpast : ∀ r ∈ past, guard' r.before r.event) :
    M.Run guard' past s := by
  induction hrun with
  | init => exact .init
  | step _ _ hnext ih =>
      obtain ⟨hlast, hpast⟩ := List.forall_mem_cons.mp hpast
      exact (ih hpast).step hlast hnext

-- Where a step from a state with P, reached by steps that C allows, leads to one with P just when C
-- allows it too, the states of a run have P just when C allowed all its steps.
theorem Run.forall_visited_iff_of_past {P : σ → Prop} {C₀ : Prop} {C : σ → α → Prop}
    (hinit : P M.init ↔ C₀)
    (hstep : ∀ past s a s' out, M.Run guard past s → (∀ r ∈ past, C r.before r.event) → P s →
      M.next s a = some (s', out) → (P s' ↔ C s a)) :
    ∀ {past s}, M.Run guard past s →
      ((∀ t ∈ visited past s, P t) ↔ C₀ ∧ ∀ r ∈ past, C r.before r.event) := by
  intro past s hrun
  induction hrun with
  | init => simp [visited, hinit]
  | @step past s s' a out hrun _ hnext ih =>
      simp only [visited, List.map_cons, List.forall_mem_cons] at ih ⊢
      constructor
      · rintro ⟨hs', hs, hpast⟩
        obtain ⟨hc₀, hc⟩ := ih.mp ⟨hs, hpast⟩
        exact ⟨hc₀, (hstep past s a s' out hrun hc hs hnext).mp hs', hc⟩
      · rintro ⟨hc₀, ha, hc⟩
        obtain ⟨hs, hpast⟩ := ih.mpr ⟨hc₀, hc⟩
        exact ⟨(hstep past s a s' out hrun hc hs hnext).mpr ha, hs, hpast⟩

theorem Run.forall_visited_iff {P : σ → Prop} {C₀ : Prop} {C : σ → α → Prop}
    (hinit : P M.init ↔ C₀)
    (hstep : ∀ past s a s' out, M.Run guard past s → P s → M.next s a = some (s', out) →
      (P s' ↔ C s a)) :
    ∀ {past s}, M.Run guard past s →
      ((∀ t ∈ visited past s, P t) ↔ C₀ ∧ ∀ r ∈ past, C r.before r.event) :=
  Run.forall_visited_iff_of_past hinit
    fun past s a s' out hrun _ hs hnext => hstep past s a s' out hrun hs hnext

-- Each reaction of a run, with the run before it and the state it led to.
def eachStep (P : List (Reaction σ α ω) → Reaction σ α ω → σ → Prop) :
    List (Reaction σ α ω) → σ → Prop
  | [], _ => True
  | r :: past, s => P past r s ∧ eachStep P past r.before

theorem eachStep_forall {P : Reaction σ α ω → Prop} {past : List (Reaction σ α ω)} {s : σ} :
    eachStep (fun _ r _ => P r) past s ↔ ∀ r ∈ past, P r := by
  induction past generalizing s with
  | nil => simp [eachStep]
  | cons r past ih => rw [eachStep, ih, List.forall_mem_cons]

-- Where it decides P at a step that P held at each step before, Q decides P over the run.
theorem Run.eachStep_iff {P Q : List (Reaction σ α ω) → Reaction σ α ω → σ → Prop}
    (h : ∀ past s a s' out, M.Run guard past s → guard s a → M.next s a = some (s', out) →
      eachStep P past s → (P past ⟨s, a, out⟩ s' ↔ Q past ⟨s, a, out⟩ s')) :
    ∀ {past s}, M.Run guard past s → (eachStep P past s ↔ eachStep Q past s) := by
  intro past s hrun
  induction hrun with
  | init => exact Iff.rfl
  | step hrun hguard hnext ih =>
      constructor
      · rintro ⟨hp, hearlier⟩
        exact ⟨(h _ _ _ _ _ hrun hguard hnext hearlier).mp hp, ih.mp hearlier⟩
      · rintro ⟨hq, hearlier⟩
        have hp := ih.mpr hearlier
        exact ⟨(h _ _ _ _ _ hrun hguard hnext hp).mpr hq, hp⟩

section Replay

variable (M guard) [∀ s a, Decidable (guard s a)]

-- The state that these events lead to, if each can happen and meets the guard.
def replay : σ → List α → Option σ
  | s, [] => some s
  | s, a :: rest => if guard s a then (M.next s a).bind fun r => replay r.1 rest else none

variable {M guard}

theorem Run.replay {events : List α} : ∀ {past : List (Reaction σ α ω)} {s s' : σ},
    M.Run guard past s → M.replay guard s events = some s' → ∃ past', M.Run guard past' s' := by
  induction events with
  | nil =>
      intro past s s' hrun h
      exact ⟨past, Option.some.inj h ▸ hrun⟩
  | cons a rest ih =>
      intro past s s' hrun h
      rw [Machine.replay] at h
      split_ifs at h with hguard
      obtain ⟨r, hnext, h⟩ := Option.bind_eq_some_iff.mp h
      exact ih (hrun.extend a hguard hnext) h

theorem exists_run {P : σ → Prop} [DecidablePred P] (events : List α)
    (h : (M.replay guard M.init events).any (P ·)) : ∃ past s, M.Run guard past s ∧ P s := by
  cases hs : M.replay guard M.init events with
  | none => simp [hs] at h
  | some s =>
      obtain ⟨past, hrun⟩ := Run.init.replay hs
      rw [hs, Option.any_some] at h
      exact ⟨past, s, hrun, of_decide_eq_true h⟩

-- What a run put out, newest first.
def log (past : List (Reaction σ α ω)) : List ω := past.flatMap Reaction.out

variable (M guard) in
-- The same, with what the events put out on top of what was there.
def replayLog : σ → List ω → List α → Option (σ × List ω)
  | s, outs, [] => some (s, outs)
  | s, outs, a :: rest =>
      if guard s a then (M.next s a).bind fun r => replayLog r.1 (r.2 ++ outs) rest else none

theorem Run.replayLog {events : List α} : ∀ {past : List (Reaction σ α ω)} {s s' : σ}
    {outs : List ω}, M.Run guard past s → M.replayLog guard s (log past) events = some (s', outs) →
      ∃ past', M.Run guard past' s' ∧ log past' = outs := by
  induction events with
  | nil =>
      intro past s s' outs hrun h
      obtain ⟨rfl, rfl⟩ := Prod.mk.inj (Option.some.inj h)
      exact ⟨past, hrun, rfl⟩
  | cons a rest ih =>
      intro past s s' outs hrun h
      rw [Machine.replayLog] at h
      split_ifs at h with hguard
      obtain ⟨r, hnext, h⟩ := Option.bind_eq_some_iff.mp h
      exact ih (hrun.extend a hguard hnext) h

theorem exists_run_log {P : σ × List ω → Prop} [DecidablePred P] (events : List α)
    (h : (M.replayLog guard M.init [] events).any (P ·)) :
    ∃ past s, M.Run guard past s ∧ P (s, log past) := by
  cases hs : M.replayLog guard M.init [] events with
  | none => simp [hs] at h
  | some r =>
      obtain ⟨past, hrun, hlog⟩ := Run.init.replayLog hs
      rw [hs, Option.any_some] at h
      exact ⟨past, r.1, hrun, hlog ▸ of_decide_eq_true h⟩

end Replay

-- A run of a machine seen through a map of its states is a run of the machine seen: each step
-- shows one reaction of it, or none and no change.
theorem Run.project {σ' : Type u} {α' : Type v} {ω' : Type w} {N : Machine σ' α' ω'}
    {guard' : σ' → α' → Prop} (view : σ → σ') (seen : Reaction σ α ω → Option (Reaction σ' α' ω'))
    (hinit : view M.init = N.init)
    (hstep : ∀ s a s' out, guard s a → M.next s a = some (s', out) →
      match seen ⟨s, a, out⟩ with
      | none => view s' = view s
      | some r => r.before = view s ∧ guard' r.before r.event ∧
          N.next r.before r.event = some (view s', r.out)) :
    ∀ {past s}, M.Run guard past s → N.Run guard' (past.filterMap seen) (view s) := by
  intro past s hrun
  induction hrun with
  | init => exact hinit ▸ .init
  | @step past s s' a out _ hguard hnext ih =>
      have h := hstep s a s' out hguard hnext
      cases hseen : seen ⟨s, a, out⟩ with
      | none =>
          rw [hseen] at h
          rw [List.filterMap_cons_none hseen, h]
          exact ih
      | some r =>
          rw [hseen] at h
          obtain ⟨hbefore, hguard', hnext'⟩ := h
          rw [List.filterMap_cons_some hseen]
          rw [hbefore] at hguard' hnext'
          have hextended := ih.extend r.event hguard' hnext'
          rw [← hbefore] at hextended
          exact hextended

end Machine

end Lib
