import BATorrent.Services.Logger

namespace BATorrent.Logger

open Lib

section Rotation

variable {maxBytes : Nat} {past : List (Reaction State Event Line)} {s s' : State} {d : Disk}

-- A call that gives no name away.
def Quiet : Call → Prop
  | .remove _ | .rename _ | .rotateIfNeeded => False
  | _ => True

-- How far a rotation is: the name a file is to get is free by then.
inductive Stage (named : Nat → Option Nat) : List Call → Prop where
  | quiet {calls : List Call} : (∀ c ∈ calls, Quiet c) → Stage named calls
  | ask {rest : List Call} : (∀ c ∈ rest, Quiet c) → Stage named (.rotateIfNeeded :: rest)
  | rotate {rest : List Call} : (∀ c ∈ rest, Quiet c) → Stage named (rotation ++ rest)
  | remove3 {rest : List Call} : (∀ c ∈ rest, Quiet c) →
      Stage named (.remove 3 :: .rename 2 :: .remove 2 :: .rename 1 :: .rename 0 :: rest)
  | rename2 {rest : List Call} : (∀ c ∈ rest, Quiet c) → named 3 = none →
      Stage named (.rename 2 :: .remove 2 :: .rename 1 :: .rename 0 :: rest)
  | remove2 {rest : List Call} : (∀ c ∈ rest, Quiet c) → named 2 = none →
      Stage named (.remove 2 :: .rename 1 :: .rename 0 :: rest)
  | rename1 {rest : List Call} : (∀ c ∈ rest, Quiet c) → Stage named (.rename 1 :: .rename 0 :: rest)
  | rename0 {rest : List Call} : (∀ c ∈ rest, Quiet c) → Stage named (.rename 0 :: rest)

-- The files with a name are the newest ones, with no gap between them.
structure Whole (d : Disk) : Prop where
  names : ∀ i f, d.named i = some f → i ≤ keepRotations
  newer : ∀ i f g, d.named i = some f → f ≤ g → g < d.next → ∃ j, d.named j = some g

theorem create_path (d : Disk) : d.create.named 0 = some d.next := by
  dsimp only [Disk.create]
  rw [Function.update_self]

theorem Whole.create (h : Whole d) (hfree : d.named 0 = none) : Whole d.create := by
  have hold {i f : Nat} (hf : d.named i = some f) : d.create.named i = some f := by
    have hne : i ≠ 0 := by
      rintro rfl
      rw [hfree] at hf
      cases hf
    exact (Function.update_of_ne hne ..).trans hf
  refine ⟨fun i f hf => ?_, fun i f g hf hfg hg => ?_⟩
  · rcases named_create hf with ⟨rfl, -⟩ | ⟨-, hf⟩
    · exact Nat.zero_le _
    · exact h.names i f hf
  · have hg : g < d.next + 1 := hg
    rcases Nat.lt_succ_iff_lt_or_eq.mp hg with hlt | rfl
    · rcases named_create hf with ⟨-, rfl⟩ | ⟨-, hf⟩
      · omega
      · obtain ⟨j, hj⟩ := h.newer i f g hf hfg hlt
        exact ⟨j, hold hj⟩
    · exact ⟨0, create_path d⟩

-- Only the oldest may lose its name.
theorem Whole.remove (h : Whole d) (hordered : Ordered d) {i : Nat}
    (holdest : d.named i = none ∨ ∀ j, i < j → d.named j = none) : Whole (d.remove i) := by
  refine ⟨fun j f hf => h.names j f (named_remove hf).2, fun j f g hf hfg hg => ?_⟩
  obtain ⟨hji, hj⟩ := named_remove hf
  obtain ⟨k, hk⟩ := h.newer j f g hj hfg hg
  have hki : k ≠ i := by
    rintro rfl
    rcases holdest with hnone | hnone
    · rw [hnone] at hk
      cases hk
    · rcases Nat.lt_or_gt_of_ne hji with hlt | hgt
      · have hlt := hordered.order j k f g hlt hj hk
        omega
      · rw [hnone j hgt] at hj
        cases hj
  exact ⟨k, (Function.update_of_ne hki ..).trans hk⟩

theorem Whole.rename (h : Whole d) {i : Nat} (hi : i < keepRotations) : Whole (d.rename i) := by
  have hmoved {k g : Nat} (hk : d.named k = some g) : ∃ j, (d.rename i).named j = some g := by
    rw [Disk.rename]
    split
    next hfree =>
      dsimp only
      by_cases hki : k = i
      · refine ⟨i + 1, ?_⟩
        rw [Function.update_of_ne (by omega), Function.update_self, ← hki, hk]
      · have hne : k ≠ i + 1 := by
          rintro rfl
          rw [hfree] at hk
          cases hk
        exact ⟨k, by rw [Function.update_of_ne hki, Function.update_of_ne hne, hk]⟩
    next => exact ⟨k, hk⟩
  refine ⟨fun j f hf => ?_, fun j f g hf hfg hg => ?_⟩
  · rcases named_rename hf with ⟨hf, -⟩ | ⟨rfl, -⟩
    · exact h.names j f hf
    · exact hi
  · rw [(rename_kept d i).1] at hg
    rcases named_rename hf with ⟨hf, -⟩ | ⟨-, hf, -⟩
    · obtain ⟨k, hk⟩ := h.newer j f g hf hfg hg
      exact hmoved hk
    · obtain ⟨k, hk⟩ := h.newer i f g hf hfg hg
      exact hmoved hk

theorem Stage.congr {named named' : Nat → Option Nat} {calls : List Call} (h : ∀ i ≠ 0, named' i = named i)
    (hstage : Stage named calls) : Stage named' calls := by
  cases hstage with
  | quiet hquiet => exact .quiet hquiet
  | ask hrest => exact .ask hrest
  | rotate hrest => exact .rotate hrest
  | remove3 hrest => exact .remove3 hrest
  | rename2 hrest hfree => exact .rename2 hrest ((h 3 (by decide)).trans hfree)
  | remove2 hrest hfree => exact .remove2 hrest ((h 2 (by decide)).trans hfree)
  | rename1 hrest => exact .rename1 hrest
  | rename0 hrest => exact .rename0 hrest

structure Kept (s : State) : Prop where
  whole : Whole s.disk
  stage : Stage s.disk.named (s.processes app).pending
  children : ∀ p ≠ app, ∀ c ∈ (s.processes p).pending, Quiet c

theorem Kept.app (h : Kept s) {process : Process} (hwhole : Whole d) (hstage : Stage d.named process.pending) :
    Kept ({ s with disk := d }.set app process) := by
  refine ⟨hwhole, ?_, fun p hp c hc => ?_⟩
  · dsimp only [State.set]
    rwa [Function.update_self]
  · dsimp only [State.set] at hc
    rw [Function.update_of_ne hp] at hc
    exact h.children p hp c hc

theorem Kept.child (h : Kept s) {p : Nat} (hp : p ≠ Logger.app) {process : Process} (hwhole : Whole d)
    (hnamed : ∀ i ≠ 0, d.named i = s.disk.named i) (hquiet : ∀ c ∈ process.pending, Quiet c) :
    Kept ({ s with disk := d }.set p process) := by
  refine ⟨hwhole, ?_, fun q hq c hc => ?_⟩
  · dsimp only [State.set]
    rw [Function.update_of_ne hp.symm]
    exact h.stage.congr hnamed
  · dsimp only [State.set] at hc
    by_cases hqp : q = p
    · rw [hqp, Function.update_self] at hc
      exact hquiet c hc
    · rw [Function.update_of_ne hqp] at hc
      exact h.children q hq c hc

-- Calls that give no name away, the app's or a child's.
theorem perform_quiet (hwhole : Whole s.disk) (p : Nat) {call : Call} {rest : List Call} (hcall : Quiet call)
    (hrest : ∀ c ∈ rest, Quiet c) : ∃ d process, (perform maxBytes s p call rest).1 = { s with disk := d }.set p process ∧
      Whole d ∧ (∀ i ≠ 0, d.named i = s.disk.named i) ∧ ∀ c ∈ process.pending, Quiet c := by
  cases call with
  | close => exact ⟨_, _, rfl, hwhole, fun _ _ => rfl, hrest⟩
  | openLog =>
      cases hpath : s.disk.named 0 with
      | none =>
          simp only [perform, hpath]
          exact ⟨_, _, rfl, hwhole.create hpath, fun i hi => Function.update_of_ne hi .., hrest⟩
      | some f =>
          simp only [perform, hpath]
          exact ⟨_, _, rfl, hwhole, fun _ _ => rfl, hrest⟩
  | rotateIfNeeded => exact absurd hcall id
  | lookForRotation =>
      refine ⟨_, _, rfl, hwhole, fun _ _ => rfl, fun c hc => ?_⟩
      dsimp only at hc
      split at hc
      · rcases List.mem_cons.mp hc with rfl | hc
        · trivial
        · exact hrest c hc
      · exact hrest c hc
  | remove i => exact absurd hcall id
  | rename i => exact absurd hcall id
  | writeLine text =>
      cases hfile : (s.processes p).file with
      | none =>
          simp only [perform, hfile]
          exact ⟨_, _, rfl, hwhole, fun _ _ => rfl, hrest⟩
      | some f =>
          simp only [perform, hfile]
          exact ⟨_, _, rfl, ⟨hwhole.names, hwhole.newer⟩, fun _ _ => rfl, hrest⟩

theorem Kept.quiet (h : Kept s) (p : Nat) {call : Call} {rest : List Call} (hcall : Quiet call)
    (hrest : ∀ c ∈ rest, Quiet c) : Kept (perform maxBytes s p call rest).1 := by
  obtain ⟨d, process, heq, hwhole, hnamed, hquiet⟩ := perform_quiet h.whole p hcall hrest
  rw [heq]
  by_cases hp : p = Logger.app
  · subst hp
    exact h.app hwhole (.quiet hquiet)
  · exact h.child hp hwhole hnamed hquiet

theorem rotation_eq (rest : List Call) : rotation ++ rest =
    [.close, .remove 3, .rename 2, .remove 2, .rename 1, .rename 0, .openLog] ++ rest := rfl

-- A rotation goes on to its next stage.
theorem Kept.perform_app (h : Kept s) (hordered : Ordered s.disk) {call : Call} {rest : List Call}
    (hpending : (s.processes Logger.app).pending = call :: rest) : Kept (perform maxBytes s Logger.app call rest).1 := by
  have hstage := h.stage
  generalize hcalls : (s.processes Logger.app).pending = calls at hstage
  rw [hpending] at hcalls
  cases hstage with
  | quiet hquiet =>
      subst hcalls
      exact h.quiet _ (hquiet call List.mem_cons_self) fun c hc => hquiet c (List.mem_cons_of_mem _ hc)
  | ask hrest =>
      obtain ⟨rfl, rfl⟩ := List.cons.inj hcalls
      cases hfile : (s.processes Logger.app).file with
      | none =>
          simp only [perform, hfile]
          exact h.app h.whole (.quiet hrest)
      | some f =>
          simp only [perform, hfile]
          refine h.app h.whole ?_
          dsimp only
          split
          · exact .quiet hrest
          · exact .rotate hrest
  | rotate hrest =>
      rw [rotation_eq] at hcalls
      obtain ⟨rfl, rfl⟩ := List.cons.inj hcalls
      exact h.app h.whole (.remove3 (List.forall_mem_cons.mpr ⟨trivial, hrest⟩))
  | remove3 hrest =>
      obtain ⟨rfl, rfl⟩ := List.cons.inj hcalls
      have holdest : ∀ j, 3 < j → s.disk.named j = none := by
        intro j hj
        by_contra hne
        obtain ⟨f, hf⟩ := Option.ne_none_iff_exists'.mp hne
        exact absurd (h.whole.names j f hf) (Nat.not_le.mpr hj)
      have hfree : (s.disk.remove 3).named 3 = none := by
        dsimp only [Disk.remove]
        rw [Function.update_self]
      exact h.app (h.whole.remove hordered (.inr holdest)) (.rename2 hrest hfree)
  | rename2 hrest hfree =>
      obtain ⟨rfl, rfl⟩ := List.cons.inj hcalls
      have hmoved : (s.disk.rename 2).named 2 = none := by
        rw [Disk.rename, if_pos hfree]
        dsimp only
        rw [Function.update_self]
      exact h.app (h.whole.rename (by decide)) (.remove2 hrest hmoved)
  | remove2 hrest hfree =>
      obtain ⟨rfl, rfl⟩ := List.cons.inj hcalls
      exact h.app (h.whole.remove hordered (.inl hfree)) (.rename1 hrest)
  | rename1 hrest =>
      obtain ⟨rfl, rfl⟩ := List.cons.inj hcalls
      exact h.app (h.whole.rename (by decide)) (.rename0 hrest)
  | rename0 hrest =>
      obtain ⟨rfl, rfl⟩ := List.cons.inj hcalls
      exact h.app (h.whole.rename (by decide)) (.quiet hrest)

-- The log is not cleared.
def lasting : Event → Bool
  | .clear _ => false
  | _ => true

theorem kept_init : Kept (machine maxBytes).init where
  whole := ⟨by simp [machine], by simp [machine]⟩
  stage := .quiet (by simp [machine])
  children := by simp [machine]

theorem Kept.ask (h : Kept s) {p : Nat} {calls : List Call} {out : List Line}
    (hask : ask s p calls = some (s', out)) (happ : p = Logger.app → Stage s.disk.named calls)
    (hchild : p ≠ Logger.app → ∀ c ∈ calls, Quiet c) : Kept s' := by
  rw [Logger.ask] at hask
  split at hask
  · obtain ⟨rfl, -⟩ := Prod.mk.inj (Option.some.inj hask)
    by_cases hp : p = Logger.app
    · subst hp
      exact h.app h.whole (happ rfl)
    · exact h.child hp h.whole (fun _ _ => rfl) (hchild hp)
  · cases hask

theorem Kept.set_quiet (h : Kept s) (p : Nat) {process : Process} (hquiet : ∀ c ∈ process.pending, Quiet c) :
    Kept (s.set p process) := by
  by_cases hp : p = Logger.app
  · subst hp
    exact h.app h.whole (.quiet hquiet)
  · exact h.child hp h.whole (fun _ _ => rfl) hquiet

theorem Kept.next (h : Kept s) (hordered : Ordered s.disk) {e : Event} {out : List Line} (he : lasting e)
    (hnext : next maxBytes s e = some (s', out)) : Kept s' := by
  cases e with
  | init p markers =>
      rw [Logger.next] at hnext
      split at hnext
      · cases hnext
      · obtain ⟨rfl, -⟩ := Prod.mk.inj (Option.some.inj hnext)
        refine h.set_quiet p (List.forall_mem_cons.mpr ⟨trivial, fun c hc => ?_⟩)
        split at hc
        · obtain ⟨text, -, rfl⟩ := List.mem_map.mp hc
          trivial
        · cases hc
  | log p due text =>
      have hline : ∀ c ∈ [Call.writeLine text], Quiet c := by simp [Quiet]
      apply h.ask hnext
      · rintro rfl
        exact .ask hline
      · intro hp c hc
        rw [logCalls, if_neg hp] at hc
        split at hc
        · simp only [List.cons_append, List.nil_append, List.mem_cons, List.not_mem_nil, or_false] at hc
          rcases hc with rfl | rfl <;> trivial
        · exact hline c hc
  | clear text => cases he
  | close text =>
      have hline : ∀ c ∈ [Call.writeLine text], Quiet c := by simp [Quiet]
      exact h.ask hnext (fun _ => .quiet hline) fun _ => hline
  | killed p =>
      obtain ⟨rfl, -⟩ := Prod.mk.inj (Option.some.inj hnext)
      exact h.set_quiet p (fun c hc => by cases hc)
  | call p =>
      rw [Logger.next] at hnext
      cases hpending : (s.processes p).pending with
      | nil => simp [hpending] at hnext
      | cons call rest =>
          rw [hpending] at hnext
          obtain ⟨rfl, -⟩ := Prod.mk.inj (Option.some.inj hnext)
          by_cases hp : p = Logger.app
          · subst hp
            exact h.perform_app hordered hpending
          · have hquiet := h.children p hp
            rw [hpending, List.forall_mem_cons] at hquiet
            exact h.quiet p hquiet.1 hquiet.2

theorem kept_run (hrun : (machine maxBytes).Run (fun _ e => lasting e) past s) : Inv past s ∧ Kept s :=
  hrun.invariant_past (fun past s => Inv past s ∧ Kept s) ⟨inv_init, kept_init⟩
    fun _ _ _ _ _ h he hnext => ⟨h.1.next hnext, h.2.next h.1.ordered he hnext⟩

end Rotation

section Looking

variable {maxBytes : Nat} {past : List (Reaction State Event Line)} {s s' : State} {d : Disk} {process : Process}

-- Every file but the one at the path has been full, and the app is at the path or at none.
structure Filled (maxBytes : Nat) (d : Disk) (process : Process) : Prop where
  path : ∀ f, process.file = some f → d.named 0 = some f
  full : ∀ f < d.next, d.named 0 ≠ some f → maxBytes ≤ d.size f
  turning : .rename 0 ∈ process.pending → (∃ g, d.named 0 = some g ∧ maxBytes ≤ d.size g) ∧
    (process.file = none ∨ ∃ rest, process.pending = .close :: rest)

theorem size_append_le (d : Disk) (f : Nat) (line : Line) (g : Nat) : d.size g ≤ (d.append f line).size g := by
  unfold Disk.size Disk.append
  dsimp only
  by_cases hg : g = f
  · subst hg
    rw [Function.update_self, List.map_append, List.sum_append]
    exact Nat.le_add_right ..
  · rw [Function.update_of_ne hg]

theorem Filled.append (h : Filled maxBytes d process) (f : Nat) (line : Line) : Filled maxBytes (d.append f line) process := by
  refine ⟨h.path, fun g hg hne => (h.full g hg hne).trans (size_append_le d f line g), fun hturn => ?_⟩
  obtain ⟨⟨g, hg, hfull⟩, hfile⟩ := h.turning hturn
  exact ⟨⟨g, hg, hfull.trans (size_append_le d f line g)⟩, hfile⟩

-- There is no new file while the app has the path or is about to give it away.
theorem Filled.create (h : Filled maxBytes d process) (hfree : d.named 0 = none) : Filled maxBytes d.create process := by
  refine ⟨fun f hf => ?_, fun f hf hne => ?_, fun hturn => ?_⟩
  · have hpath := h.path f hf
    rw [hfree] at hpath
    cases hpath
  · have hlt : f < d.next := by
      have hlt : f < d.next + 1 := hf
      have hne : f ≠ d.next := fun heq => hne (heq ▸ create_path d)
      omega
    have hsize : d.create.size f = d.size f := by
      unfold Disk.size Disk.create
      dsimp only
      rw [Function.update_of_ne hlt.ne]
    rw [hsize]
    exact h.full f hlt (by rw [hfree]; simp)
  · obtain ⟨⟨g, hg, -⟩, -⟩ := h.turning hturn
    rw [hfree] at hg
    cases hg

-- Any other name may go.
theorem Filled.names (h : Filled maxBytes d process) {d' : Disk} (hpath : d'.named 0 = d.named 0) (hnext : d'.next = d.next)
    (hcontent : d'.content = d.content) : Filled maxBytes d' process := by
  have hsize (f : Nat) : d'.size f = d.size f := by
    unfold Disk.size
    rw [hcontent]
  refine ⟨fun f hf => hpath.trans (h.path f hf), fun f hf hne => ?_, fun hturn => ?_⟩
  · rw [hsize]
    exact h.full f (hnext ▸ hf) (hpath ▸ hne)
  · rw [hpath]
    simp only [hsize]
    exact h.turning hturn

-- The app goes on, at the path or at none, with a rotation or without.
theorem Filled.goes_on (h : Filled maxBytes d process) {process' : Process}
    (hfile : ∀ f, process'.file = some f → d.named 0 = some f)
    (hturn : .rename 0 ∈ process'.pending → .rename 0 ∈ process.pending ∧ process'.file = none) :
    Filled maxBytes d process' :=
  ⟨hfile, h.full, fun hin => ⟨(h.turning (hturn hin).1).1, .inl (hturn hin).2⟩⟩

theorem not_turning {calls : List Call} (hquiet : ∀ c ∈ calls, Quiet c) : .rename 0 ∉ calls :=
  fun hin => hquiet _ hin

theorem processes_perform {p q : Nat} (hq : q ≠ p) (call : Call) (rest : List Call) :
    (perform maxBytes s p call rest).1.processes q = s.processes q := by
  cases call with
  | openLog =>
      unfold perform
      cases s.disk.named 0 with
      | none => exact Function.update_of_ne hq ..
      | some f => exact Function.update_of_ne hq ..
  | rotateIfNeeded =>
      cases hfile : (s.processes p).file with
      | none =>
          simp only [perform, hfile]
          exact Function.update_of_ne hq ..
      | some f =>
          simp only [perform, hfile]
          exact Function.update_of_ne hq ..
  | writeLine text =>
      cases hfile : (s.processes p).file with
      | none =>
          simp only [perform, hfile]
          exact Function.update_of_ne hq ..
      | some f =>
          simp only [perform, hfile]
          exact Function.update_of_ne hq ..
  | _ => exact Function.update_of_ne hq ..

-- What a quiet call does to the files, and to the process that makes it.
theorem filled_quiet (h : Filled maxBytes s.disk process) (p : Nat) {call : Call} {rest : List Call} (hcall : Quiet call)
    (hrest : ∀ c ∈ rest, Quiet c) : Filled maxBytes (perform maxBytes s p call rest).1.disk process ∧
      (∀ f, ((perform maxBytes s p call rest).1.processes p).file = some f →
        (s.processes p).file = some f ∨ (perform maxBytes s p call rest).1.disk.named 0 = some f) ∧
      ∀ c ∈ ((perform maxBytes s p call rest).1.processes p).pending, Quiet c := by
  cases call with
  | close => simpa [perform, State.set] using ⟨h, hrest⟩
  | openLog =>
      cases hpath : s.disk.named 0 with
      | none =>
          have hcreate := h.create hpath
          simpa [perform, hpath, State.set, create_path] using ⟨hcreate, hrest⟩
      | some f => simpa [perform, hpath, State.set] using ⟨h, hrest⟩
  | rotateIfNeeded => exact absurd hcall id
  | lookForRotation =>
      have hpending : ∀ c ∈ if moved s.disk (s.processes p).file then .openLog :: rest else rest, Quiet c := by
        split
        · exact List.forall_mem_cons.mpr ⟨trivial, hrest⟩
        · exact hrest
      simp only [perform, State.set, Function.update_self]
      exact ⟨h, fun f hf => .inl hf, hpending⟩
  | remove i => exact absurd hcall id
  | rename i => exact absurd hcall id
  | writeLine text =>
      cases hfile : (s.processes p).file with
      | none => simpa [perform, hfile, State.set] using ⟨h, hrest⟩
      | some f =>
          simp only [perform, hfile, State.set, Function.update_self]
          exact ⟨h.append f _, fun g hg => .inl hg, hrest⟩

theorem Filled.quiet (h : Filled maxBytes s.disk (s.processes app)) (p : Nat) {call : Call} {rest : List Call}
    (hcall : Quiet call) (hrest : ∀ c ∈ rest, Quiet c) :
    Filled maxBytes (perform maxBytes s p call rest).1.disk ((perform maxBytes s p call rest).1.processes app) := by
  obtain ⟨hfilled, hfile, hpending⟩ := filled_quiet h p hcall hrest
  by_cases hp : p = app
  · subst hp
    refine hfilled.goes_on (fun f hf => ?_) fun hin => absurd hin (not_turning hpending)
    exact (hfile f hf).elim (hfilled.path f) id
  · rwa [processes_perform (Ne.symm hp)]

theorem remove_path (d : Disk) {i : Nat} (hi : i ≠ 0) : (d.remove i).named 0 = d.named 0 :=
  Function.update_of_ne (Ne.symm hi) ..

theorem rename_path (d : Disk) {i : Nat} (hi : i ≠ 0) : (d.rename i).named 0 = d.named 0 := by
  rw [Disk.rename]
  split
  · dsimp only
    rw [Function.update_of_ne (Ne.symm hi), Function.update_of_ne (by omega)]
  · rfl

-- The app has closed its file by then.
theorem Filled.closed (h : Filled maxBytes d process) {call : Call} {rest : List Call}
    (hpending : process.pending = call :: rest) (hcall : call ≠ .close) (hturn : .rename 0 ∈ process.pending) :
    process.file = none := by
  rcases (h.turning hturn).2 with hfile | ⟨calls, hcalls⟩
  · exact hfile
  · rw [hpending] at hcalls
    exact absurd (List.cons.inj hcalls).1 hcall

-- Halfway through a rotation, which another name makes no difference to.
theorem Filled.midway (h : Filled maxBytes d process) {call : Call} {rest : List Call}
    (hpending : process.pending = call :: rest) (hcall : call ≠ .close) (hin : .rename 0 ∈ rest) {d' : Disk}
    (hpath : d'.named 0 = d.named 0) (hkept : d'.next = d.next ∧ d'.content = d.content) :
    Filled maxBytes d' { process with pending := rest } := by
  have hturn : .rename 0 ∈ process.pending := hpending ▸ List.mem_cons_of_mem _ hin
  have hfile := h.closed hpending hcall hturn
  exact (h.names hpath hkept.1 hkept.2).goes_on (fun f hf => by rw [hfile] at hf; cases hf) fun _ => ⟨hturn, hfile⟩

-- The path is given away by a full file.
theorem Filled.given_away (h : Filled maxBytes d process) {rest : List Call} (hpending : process.pending = .rename 0 :: rest)
    (hrest : ∀ c ∈ rest, Quiet c) : Filled maxBytes (d.rename 0) { process with pending := rest } := by
  have hturn : .rename 0 ∈ process.pending := hpending ▸ List.mem_cons_self
  obtain ⟨⟨g, hg, hfull⟩, -⟩ := h.turning hturn
  have hnone := h.closed hpending (by simp) hturn
  have hsize (f : Nat) : (d.rename 0).size f = d.size f := by
    unfold Disk.size
    rw [(rename_kept d 0).2]
  refine ⟨fun f hf => ?_, fun f hf hne => ?_, fun hin => absurd hin (not_turning hrest)⟩
  · dsimp only at hf
    rw [hnone] at hf
    cases hf
  · rw [hsize]
    rw [(rename_kept d 0).1] at hf
    by_cases hfg : g = f
    · exact hfg ▸ hfull
    · exact h.full f hf fun heq => hfg (Option.some.inj (hg.symm.trans heq))

theorem Filled.perform_app (h : Filled maxBytes s.disk (s.processes app)) (hstage : Stage s.disk.named (s.processes app).pending)
    {call : Call} {rest : List Call} (hpending : (s.processes app).pending = call :: rest) :
    Filled maxBytes (perform maxBytes s app call rest).1.disk ((perform maxBytes s app call rest).1.processes app) := by
  generalize hcalls : (s.processes Logger.app).pending = calls at hstage
  rw [hpending] at hcalls
  cases hstage with
  | quiet hquiet =>
      subst hcalls
      exact h.quiet _ (hquiet call List.mem_cons_self) fun c hc => hquiet c (List.mem_cons_of_mem _ hc)
  | ask hrest =>
      obtain ⟨rfl, rfl⟩ := List.cons.inj hcalls
      cases hfile : (s.processes Logger.app).file with
      | none =>
          simp only [perform, hfile, State.set, Function.update_self]
          exact h.goes_on (fun f hf => by cases hf) fun hin => absurd hin (not_turning hrest)
      | some f =>
          simp only [perform, hfile, State.set, Function.update_self]
          refine ⟨fun g hg => h.path g (hfile.trans hg), h.full, fun hin => ?_⟩
          by_cases hsize : s.disk.size f < maxBytes
          · rw [if_pos hsize] at hin
            exact absurd hin (not_turning hrest)
          · rw [if_neg hsize]
            exact ⟨⟨f, h.path f hfile, Nat.not_lt.mp hsize⟩, .inr ⟨_, rfl⟩⟩
  | rotate hrest =>
      rw [rotation_eq] at hcalls
      obtain ⟨rfl, rfl⟩ := List.cons.inj hcalls
      simp only [perform, State.set, Function.update_self]
      exact h.goes_on (fun f hf => by cases hf) fun _ => ⟨by rw [hpending]; simp, rfl⟩
  | remove3 hrest =>
      obtain ⟨rfl, rfl⟩ := List.cons.inj hcalls
      simp only [perform, State.set, Function.update_self]
      exact h.midway hpending (by simp) (by simp) (remove_path s.disk (by decide)) ⟨rfl, rfl⟩
  | rename2 hrest hfree =>
      obtain ⟨rfl, rfl⟩ := List.cons.inj hcalls
      simp only [perform, State.set, Function.update_self]
      exact h.midway hpending (by simp) (by simp) (rename_path s.disk (by decide)) (rename_kept s.disk 2)
  | remove2 hrest hfree =>
      obtain ⟨rfl, rfl⟩ := List.cons.inj hcalls
      simp only [perform, State.set, Function.update_self]
      exact h.midway hpending (by simp) (by simp) (remove_path s.disk (by decide)) ⟨rfl, rfl⟩
  | rename1 hrest =>
      obtain ⟨rfl, rfl⟩ := List.cons.inj hcalls
      simp only [perform, State.set, Function.update_self]
      exact h.midway hpending (by simp) (by simp) (rename_path s.disk (by decide)) (rename_kept s.disk 1)
  | rename0 hrest =>
      obtain ⟨rfl, rfl⟩ := List.cons.inj hcalls
      simp only [perform, State.set, Function.update_self]
      exact h.given_away hpending hrest

theorem filled_init : Filled maxBytes (machine maxBytes).init.disk ((machine maxBytes).init.processes app) :=
  ⟨by simp [machine], by simp [machine], by simp [machine]⟩

theorem Filled.ask (h : Filled maxBytes s.disk (s.processes app)) {p : Nat} {calls : List Call} {out : List Line}
    (hask : ask s p calls = some (s', out)) (hturn : .rename 0 ∉ calls) : Filled maxBytes s'.disk (s'.processes app) := by
  rw [Logger.ask] at hask
  split at hask
  · obtain ⟨rfl, -⟩ := Prod.mk.inj (Option.some.inj hask)
    by_cases hp : p = app
    · subst hp
      simp only [State.set, Function.update_self]
      exact h.goes_on h.path fun hin => absurd hin hturn
    · simp only [State.set, Function.update_of_ne (Ne.symm hp)]
      exact h
  · cases hask

theorem Filled.set_none (h : Filled maxBytes s.disk (s.processes app)) (p : Nat) {process : Process} (hfile : process.file = none)
    (hturn : .rename 0 ∉ process.pending) : Filled maxBytes (s.set p process).disk ((s.set p process).processes app) := by
  by_cases hp : p = app
  · subst hp
    simp only [State.set, Function.update_self]
    exact h.goes_on (fun f hf => by rw [hfile] at hf; cases hf) fun hin => absurd hin hturn
  · simp only [State.set, Function.update_of_ne (Ne.symm hp)]
    exact h

theorem Filled.next (h : Filled maxBytes s.disk (s.processes app)) (hkept : Kept s) {e : Event} {out : List Line}
    (he : lasting e) (hnext : next maxBytes s e = some (s', out)) : Filled maxBytes s'.disk (s'.processes app) := by
  cases e with
  | init p markers =>
      rw [Logger.next] at hnext
      split at hnext
      · cases hnext
      · obtain ⟨rfl, -⟩ := Prod.mk.inj (Option.some.inj hnext)
        refine h.set_none p rfl fun hin => ?_
        dsimp only at hin
        split at hin <;> simp at hin
  | log p due text =>
      refine h.ask hnext fun hin => ?_
      rw [logCalls] at hin
      split at hin
      · simp at hin
      · split at hin <;> simp at hin
  | clear text => cases he
  | close text => exact h.ask hnext (by simp)
  | killed p =>
      obtain ⟨rfl, -⟩ := Prod.mk.inj (Option.some.inj hnext)
      exact h.set_none p rfl (by simp)
  | call p =>
      rw [Logger.next] at hnext
      cases hpending : (s.processes p).pending with
      | nil => simp [hpending] at hnext
      | cons call rest =>
          rw [hpending] at hnext
          obtain ⟨rfl, -⟩ := Prod.mk.inj (Option.some.inj hnext)
          by_cases hp : p = Logger.app
          · subst hp
            exact h.perform_app hkept.stage hpending
          · have hquiet := hkept.children p hp
            rw [hpending, List.forall_mem_cons] at hquiet
            exact h.quiet p hquiet.1 hquiet.2

theorem filled_run (hrun : (machine maxBytes).Run (fun _ e => lasting e) past s) :
    (Inv past s ∧ Kept s) ∧ Filled maxBytes s.disk (s.processes app) :=
  hrun.invariant_past (fun past s => (Inv past s ∧ Kept s) ∧ Filled maxBytes s.disk (s.processes app))
    ⟨⟨inv_init, kept_init⟩, filled_init⟩ fun _ _ _ _ _ h he hnext =>
      ⟨⟨h.1.1.next hnext, h.1.2.next h.1.1.ordered he hnext⟩, h.2.next h.1.2 he hnext⟩

-- A process whose file has lost the path finds that out the first time it looks, where the file at
-- the path is not full itself.
theorem looks_out (hrun : (machine maxBytes).Run (fun _ e => lasting e) past s) {p f : Nat}
    (hfile : (s.processes p).file = some f) (hlost : s.disk.named 0 ≠ some f)
    (hpath : ∀ g, s.disk.named 0 = some g → s.disk.size g < maxBytes) (rest : List Call) :
    ((perform maxBytes s p .lookForRotation rest).1.processes p).pending = .openLog :: rest := by
  obtain ⟨⟨hinv, -⟩, hfilled⟩ := filled_run hrun
  have hfull := hfilled.full f (hinv.file p f hfile) hlost
  have hmoved : moved s.disk (s.processes p).file = true := by
    rw [hfile]
    unfold moved
    cases hnamed : s.disk.named 0 with
    | none => rfl
    | some g => exact decide_eq_true ((hpath g hnamed).trans_le hfull)
  simp only [perform, State.set, Function.update_self, hmoved, if_true]

def rotatedUnder : List Event :=
  [.init app [[1]], .call app, .call app, .init 1 [], .call 1, .log app false [2]] ++ List.replicate 8 (.call app)

theorem looks_out_child : ∃ past s, (machine 1).Run (fun _ e => lasting e) past s ∧
    ((perform 1 s 1 .lookForRotation [.writeLine [3]]).1.processes 1).pending = [.openLog, .writeLine [3]] := by
  have hreach : ∃ past s, (machine 1).Run (fun _ e => lasting e) past s ∧
      ((s.processes 1).file = some 0 ∧ s.disk.named 0 = some 1 ∧ s.disk.size 1 = 0) :=
    Machine.exists_run_log (P := fun r : State × List Line =>
      (r.1.processes 1).file = some 0 ∧ r.1.disk.named 0 = some 1 ∧ r.1.disk.size 1 = 0) rotatedUnder (by decide)
  obtain ⟨past, s, hrun, hfile, hnamed, hsize⟩ := hreach
  have hpath : ∀ g, s.disk.named 0 = some g → s.disk.size g < 1 := by
    intro g hg
    obtain rfl := Option.some.inj (hnamed.symm.trans hg)
    rw [hsize]
    exact Nat.one_pos
  exact ⟨past, s, hrun, looks_out hrun hfile (by rw [hnamed]; decide) hpath _⟩

end Looking

end BATorrent.Logger
