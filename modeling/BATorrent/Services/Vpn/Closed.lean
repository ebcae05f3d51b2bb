import BATorrent.Services.Vpn.Standing

namespace BATorrent.Vpn

open Lib
open NetworkSettings (Text create)

variable {env : Env} {v w : App} {e : Event} {c : Standing}

section Asked

abbrev Past := List (Reaction App Event Out)

-- The step begins a new attempt to connect.
def Begins (env : Env) (r : Reaction App Event Out) : Prop :=
  r.before.state ≠ .connecting ∧ ∃ v, step env r.before r.event = some v ∧ v.state = .connecting

-- The user asked for the end, and no attempt has begun since.
def Asked (env : Env) : Past → Prop
  | [] => False
  | r :: past => Asks r.before r.event ∨ ¬ Begins env r ∧ Asked env past

def CameUp (past : Past) (v : App) : Prop := ∃ t ∈ Machine.visited past v, t.state = .connected

-- Once the tunnel has come up, the proxy is only lifted as the user asked.
def Closed (env : Env) : Past → App → Prop :=
  Machine.eachStep fun past r v => CameUp past r.before → r.before.engine.vpnProxyPort ≠ 0 →
    v.engine.vpnProxyPort = 0 → Asked env (r :: past)

end Asked

-- A signal that the tunnel was taken down is not taken for the user's while a later connection
-- is up. An engine that holds the traffic starts, or is told again, with the hold remembered.
structure KeepsClosed (v : App) (e : Event) : Prop where
  drops : Drops v e → v.userDown = true → v.state = .connected → v.activeId = []
  told : e = .restart ∨ e = .resync → v.vpnHold = false → v.engine.vpnProxyPort ≠ 0 →
    v.activeId = []

section Inv

-- A mark of the user's that an old disconnect left is harmless while nothing goes through a proxy.
structure Inv (c : Standing) : Prop where
  running : c.state = .connected → c.vpnHold = true ∧ c.port ≠ 0
  idle : c.userDown = true → c.state = .disconnected ∨ c.state = .failed →
    c.port = 0 ∧ c.vpnHold = false
  waiting : c.userDown = true → c.state = .connecting → c.activeId ≠ [] →
    c.port = 0 ∧ c.vpnHold = false

theorem inv_dropped (c : Standing) : Inv c.dropped := by
  unfold Standing.dropped
  split_ifs <;> constructor <;> simp

theorem inv_failed (c : Standing) : Inv c.failed := by
  constructor <;> simp [Standing.failed]

theorem inv_asked (h : Inv c) (hstate : c.state ≠ .disconnected) : Inv c.asked := by
  unfold Standing.asked
  split_ifs with hfailed
  · constructor <;> simp
  · constructor
    · exact h.running
    · intro _ hidle
      exact hidle.elim (absurd · hstate) (absurd · hfailed)
    · intro _ _ hactive
      exact absurd rfl hactive

theorem state_of_asks (h : Asks v e) : v.state ≠ .disconnected := by
  cases e with
  | disconnectVpn => exact h
  | removeProfile id => exact h.2.2
  | _ => exact h.elim

theorem inv_turn (h : Inv v.standing) (hturn : Turn v e c) : Inv c := by
  cases hturn with
  | quiet _ hc => exact hc ▸ h
  | refused _ hidle hc =>
      subst hc
      constructor
      · intro hstate
        exact absurd hstate (by simp)
      · intro huser _
        exact h.idle huser hidle
      · intro _ hstate
        exact absurd hstate (by simp)
  | begun _ hidle id _ hc =>
      subst hc
      constructor
      · intro hstate
        exact absurd hstate (by simp)
      · intro _ hstate
        exact absurd hstate (by simp)
      · intro huser _ _
        exact h.idle huser hidle
  | cameUp _ _ port hport hc =>
      subst hc
      constructor
      · exact fun _ => ⟨rfl, hport⟩
      · intro _ hstate
        exact absurd hstate (by simp)
      · intro _ hstate
        exact absurd hstate (by simp)
  | asked hasks hc => exact hc ▸ inv_asked h (state_of_asks hasks)
  | dropped _ _ hc => exact hc ▸ inv_dropped _
  | failed _ hc => exact hc ▸ inv_failed _
  | told _ _ hc =>
      subst hc
      constructor
      · intro hstate
        have hhold : v.vpnHold = true := (h.running hstate).1
        simp [App.standing, hhold]
      · intro huser hidle
        have hhold : v.vpnHold = false := (h.idle huser hidle).2
        simp [App.standing, hhold]
      · intro huser hstate hactive
        have hhold : v.vpnHold = false := (h.waiting huser hstate hactive).2
        simp [App.standing, hhold]
  | passedOn _ hstate port hport hc =>
      subst hc
      constructor
      · exact fun hup => ⟨(h.running hup).1, hport⟩
      · intro _ hidle
        have hup : v.standing.state = .connected := hstate
        simp [hup] at hidle
      · intro _ hwaiting
        have hup : v.standing.state = .connected := hstate
        simp [hup] at hwaiting

end Inv

section Owner

-- While there is something to end, no profile is active just where the user asked last.
def Owned (env : Env) (past : Past) (v : App) : Prop :=
  v.state = .connecting ∨ CameUp past v → (v.activeId = [] ↔ Asked env past)

theorem cameUp_cons {r : Reaction App Event Out} {past : Past} :
    CameUp (r :: past) w ↔ w.state = .connected ∨ CameUp past r.before := by
  unfold CameUp Machine.visited
  rw [List.map_cons, List.exists_mem_cons_iff]

theorem begins_iff {out : List Out} (hstep : step env v e = some w) :
    Begins env ⟨v, e, out⟩ ↔ v.state ≠ .connecting ∧ w.state = .connecting := by
  unfold Begins
  rw [hstep]
  simp

theorem asked_cons_of_not {r : Reaction App Event Out} {past : Past}
    (hasks : ¬ Asks r.before r.event) (hbegins : ¬ Begins env r) :
    Asked env (r :: past) ↔ Asked env past := by
  rw [Asked, or_iff_right hasks, and_iff_right hbegins]

-- A step that neither asks nor begins leaves the question as it was.
theorem owned_kept {past : Past} {out : List Out} (h : Owned env past v)
    (hstep : step env v e = some w) (hasks : ¬ Asks v e) (hactive : w.activeId = v.activeId)
    (hwaiting : w.state = .connecting → v.state = .connecting)
    (hup : w.state = .connected → v.state = .connected ∨ v.state = .connecting) :
    Owned env (⟨v, e, out⟩ :: past) w := by
  have hbegins : ¬ Begins env ⟨v, e, out⟩ := by
    rw [begins_iff hstep]
    exact fun hbegun => hbegun.1 (hwaiting hbegun.2)
  intro hsome
  rw [asked_cons_of_not hasks hbegins, hactive]
  apply h
  rcases hsome with hstate | hcame
  · exact .inl (hwaiting hstate)
  · rcases cameUp_cons.mp hcame with hstate | hcame
    · rcases hup hstate with hstate | hstate
      · exact .inr ⟨v, List.mem_cons_self, hstate⟩
      · exact .inl hstate
    · exact .inr hcame

theorem owned_step {past : Past} {out : List Out} (h : Owned env past v)
    (hstep : step env v e = some w) (hturn : Turn v e w.standing) :
    Owned env (⟨v, e, out⟩ :: past) w := by
  cases hturn with
  | quiet hasks hc =>
      have hstate : w.state = v.state := congrArg Standing.state hc
      refine owned_kept h hstep hasks (congrArg Standing.activeId hc) ?_ ?_
      · exact fun hw => hstate ▸ hw
      · exact fun hw => .inl (hstate ▸ hw)
  | refused hasks _ hc =>
      have hstate : w.state = .failed := congrArg Standing.state hc
      refine owned_kept h hstep hasks (congrArg Standing.activeId hc) ?_ ?_
      · exact fun hw => absurd (hstate.symm.trans hw) (by decide)
      · exact fun hw => absurd (hstate.symm.trans hw) (by decide)
  | begun hasks hidle id hid hc =>
      have hstate : w.state = .connecting := congrArg Standing.state hc
      have hactive : w.activeId = id := congrArg Standing.activeId hc
      have hbegins : Begins env ⟨v, e, out⟩ := by
        refine (begins_iff hstep).mpr ⟨fun hbusy => ?_, hstate⟩
        rcases hidle with hidle | hidle
        · exact absurd (hidle.symm.trans hbusy) (by decide)
        · exact absurd (hidle.symm.trans hbusy) (by decide)
      intro _
      rw [hactive]
      refine iff_of_false hid fun hasked => ?_
      exact hasked.elim hasks fun hlater => hlater.1 hbegins
  | cameUp hasks hwaiting _ _ hc =>
      have hstate : w.state = .connected := congrArg Standing.state hc
      refine owned_kept h hstep hasks (congrArg Standing.activeId hc) ?_ ?_
      · exact fun _ => hwaiting
      · exact fun _ => .inr hwaiting
  | asked hasks hc =>
      have hactive : w.activeId = [] := by
        refine (congrArg Standing.activeId hc).trans ?_
        unfold Standing.asked
        split_ifs <;> rfl
      exact fun _ => iff_of_true hactive (.inl hasks)
  | dropped hasks _ hc =>
      have hstate : w.state = .disconnected := by
        refine (congrArg Standing.state hc).trans ?_
        unfold Standing.dropped
        split_ifs <;> rfl
      have hactive : w.activeId = v.activeId := by
        refine (congrArg Standing.activeId hc).trans ?_
        unfold Standing.dropped
        split_ifs <;> rfl
      refine owned_kept h hstep hasks hactive ?_ ?_
      · exact fun hw => absurd (hstate.symm.trans hw) (by decide)
      · exact fun hw => absurd (hstate.symm.trans hw) (by decide)
  | failed hasks hc =>
      have hstate : w.state = .failed := congrArg Standing.state hc
      refine owned_kept h hstep hasks (congrArg Standing.activeId hc) ?_ ?_
      · exact fun hw => absurd (hstate.symm.trans hw) (by decide)
      · exact fun hw => absurd (hstate.symm.trans hw) (by decide)
  | told hasks _ hc =>
      have hstate : w.state = v.state := congrArg Standing.state hc
      refine owned_kept h hstep hasks (congrArg Standing.activeId hc) ?_ ?_
      · exact fun hw => hstate ▸ hw
      · exact fun hw => .inl (hstate ▸ hw)
  | passedOn hasks _ _ _ hc =>
      have hstate : w.state = v.state := congrArg Standing.state hc
      refine owned_kept h hstep hasks (congrArg Standing.activeId hc) ?_ ?_
      · exact fun hw => hstate ▸ hw
      · exact fun hw => .inl (hstate ▸ hw)

end Owner

section Lift

theorem not_asks_of_drops (h : Drops v e) : ¬ Asks v e := by
  cases e with
  | disconnectVpn => exact h.elim
  | removeProfile id => exact h.elim
  | _ => exact not_false

theorem not_asks_of_told (h : e = .restart ∨ e = .resync) : ¬ Asks v e := by
  rcases h with rfl | rfl <;> exact not_false

theorem standing_of_drops (hks : env.saved.killSwitchEnabled = true) (h : Drops v e)
    (hstep : step env v e = some w) : w.standing = v.standing.dropped := by
  cases e with
  | deliver i =>
      obtain ⟨signal, hsignal, rfl⟩ := Option.map_eq_some_iff.mp hstep
      obtain rfl := Option.some.inj (hsignal.symm.trans h)
      exact standing_disconnected hks
  | failedToStart =>
      obtain ⟨-, hstep⟩ := Option.ite_none_right_eq_some.mp hstep
      obtain rfl := Option.some.inj hstep
      exact (standing_finish hks _).trans (if_pos h)
  | finished =>
      obtain ⟨-, hstep⟩ := Option.ite_none_right_eq_some.mp hstep
      obtain rfl := Option.some.inj hstep
      exact (standing_finish hks _).trans (if_pos h)
  | _ => exact h.elim

theorem resync_of_not_connected (h : v.state ≠ .connected) : v.resync env = v.holdOrLift env := by
  unfold App.resync
  cases v.tunnel.socks with
  | none => rfl
  | some socks => exact if_neg fun hup => h hup.1

theorem standing_of_told (hks : env.saved.killSwitchEnabled = true) (h : e = .restart ∨ e = .resync)
    (hstate : v.state ≠ .connected) (hstep : step env v e = some w) :
    w.standing = { v.standing with port := if v.vpnHold then 1 else 0 } := by
  rcases h with rfl | rfl
  · obtain rfl := Option.some.inj hstep
    exact standing_restart hks
  · obtain rfl := Option.some.inj hstep
    rw [resync_of_not_connected hstate]
    exact standing_holdOrLift hks

variable {past : Past} {out : List Out}

theorem not_begins_of_state (hstep : step env v e = some w)
    (h : w.state = .connecting → v.state = .connecting) : ¬ Begins env ⟨v, e, out⟩ := by
  rw [begins_iff hstep]
  exact fun hbegun => hbegun.1 (h hbegun.2)

theorem dropped_state (c : Standing) : c.dropped.state = .disconnected := by
  unfold Standing.dropped
  split_ifs <;> rfl

theorem dropped_port (c : Standing) : c.dropped.port = 0 ↔ c.userDown = true := by
  unfold Standing.dropped
  split_ifs with h
  · exact iff_of_true rfl h
  · exact iff_of_false (by simp) h

-- The mark of the user's is believed, and a connection that was begun since is lifted with it.
theorem drops_of_lift (hks : env.saved.killSwitchEnabled = true) (hinv : Inv v.standing)
    (howned : Owned env past v) (hstep : step env v e = some w) (hcame : CameUp past v)
    (h : v.engine.vpnProxyPort ≠ 0 → w.engine.vpnProxyPort = 0 → Asked env (⟨v, e, out⟩ :: past))
    (hdrops : Drops v e) (huser : v.userDown = true) (hstate : v.state = .connected) :
    v.activeId = [] := by
  have hw := standing_of_drops hks hdrops hstep
  have hbefore : v.engine.vpnProxyPort ≠ 0 := (hinv.running hstate).2
  have hafter : w.engine.vpnProxyPort = 0 :=
    (congrArg Standing.port hw).trans ((dropped_port v.standing).mpr huser)
  have hdown : w.state = .disconnected := (congrArg Standing.state hw).trans (dropped_state _)
  have hbegins : ¬ Begins env ⟨v, e, out⟩ :=
    not_begins_of_state hstep fun hwaiting => absurd (hdown.symm.trans hwaiting) (by decide)
  have hasked := h hbefore hafter
  rw [asked_cons_of_not (not_asks_of_drops hdrops) hbegins] at hasked
  exact (howned (.inr hcame)).mpr hasked

theorem told_of_lift (hks : env.saved.killSwitchEnabled = true) (hinv : Inv v.standing)
    (howned : Owned env past v) (hstep : step env v e = some w) (hcame : CameUp past v)
    (h : v.engine.vpnProxyPort ≠ 0 → w.engine.vpnProxyPort = 0 → Asked env (⟨v, e, out⟩ :: past))
    (htold : e = .restart ∨ e = .resync) (hhold : v.vpnHold = false)
    (hport : v.engine.vpnProxyPort ≠ 0) : v.activeId = [] := by
  have hstate : v.state ≠ .connected := by
    intro hup
    have hheld : v.vpnHold = true := (hinv.running hup).1
    exact absurd (hhold.symm.trans hheld) (by decide)
  have hw := standing_of_told hks htold hstate hstep
  have hsame : w.state = v.state := congrArg Standing.state hw
  have hafter : w.engine.vpnProxyPort = 0 := by
    refine (congrArg Standing.port hw).trans ?_
    rw [hhold]
    rfl
  have hbegins : ¬ Begins env ⟨v, e, out⟩ :=
    not_begins_of_state hstep fun hwaiting => hsame.symm.trans hwaiting
  have hasked := h hport hafter
  rw [asked_cons_of_not (not_asks_of_told htold) hbegins] at hasked
  exact (howned (.inr hcame)).mpr hasked

theorem asked_of_keeps (hinv : Inv v.standing) (howned : Owned env past v)
    (hstep : step env v e = some w) (hturn : Turn v e w.standing) (hcame : CameUp past v)
    (hkeeps : KeepsClosed v e) (hbefore : v.engine.vpnProxyPort ≠ 0)
    (hafter : w.engine.vpnProxyPort = 0) : Asked env (⟨v, e, out⟩ :: past) := by
  have hsame (hc : w.standing.port = v.standing.port) : False := hbefore (hc.symm.trans hafter)
  have hlater (hasks : ¬ Asks v e) (hstate : w.state = .connecting → v.state = .connecting)
      (hactive : v.activeId = []) : Asked env (⟨v, e, out⟩ :: past) := by
    rw [asked_cons_of_not hasks (not_begins_of_state hstep hstate)]
    exact (howned (.inr hcame)).mp hactive
  cases hturn with
  | quiet _ hc => exact (hsame (congrArg Standing.port hc)).elim
  | refused _ _ hc => exact (hsame (by rw [hc])).elim
  | begun _ _ _ _ hc => exact (hsame (by rw [hc])).elim
  | cameUp _ _ port hport hc => exact absurd ((congrArg Standing.port hc).symm.trans hafter) hport
  | asked hasks _ => exact .inl hasks
  | dropped hasks hdrops hc =>
      have huser : v.userDown = true :=
        (dropped_port v.standing).mp ((congrArg Standing.port hc).symm.trans hafter)
      have hdown : w.state = .disconnected := (congrArg Standing.state hc).trans (dropped_state _)
      apply hlater hasks
      · exact fun hwaiting => absurd (hdown.symm.trans hwaiting) (by decide)
      cases hstate : v.state with
      | disconnected => exact absurd (hinv.idle huser (.inl hstate)).1 hbefore
      | connecting =>
          by_contra hactive
          exact hbefore (hinv.waiting huser hstate hactive).1
      | connected => exact hkeeps.drops hdrops huser hstate
      | failed => exact absurd (hinv.idle huser (.inr hstate)).1 hbefore
  | failed _ hc => exact absurd ((congrArg Standing.port hc).symm.trans hafter) Nat.one_ne_zero
  | told hasks he hc =>
      have hport := (congrArg Standing.port hc).symm.trans hafter
      have hhold : v.vpnHold = false := by
        cases hhold : v.vpnHold with
        | false => rfl
        | true => simp [hhold] at hport
      have hstate : w.state = v.state := congrArg Standing.state hc
      exact hlater hasks (fun hwaiting => hstate.symm.trans hwaiting) (hkeeps.told he hhold hbefore)
  | passedOn _ _ port hport hc => exact absurd ((congrArg Standing.port hc).symm.trans hafter) hport

theorem lift_iff (hks : env.saved.killSwitchEnabled = true) (hinv : Inv v.standing)
    (howned : Owned env past v) (hstep : step env v e = some w) (hturn : Turn v e w.standing)
    (hcame : CameUp past v) :
    (v.engine.vpnProxyPort ≠ 0 → w.engine.vpnProxyPort = 0 → Asked env (⟨v, e, out⟩ :: past)) ↔
      KeepsClosed v e :=
  ⟨fun h => ⟨drops_of_lift hks hinv howned hstep hcame h,
      told_of_lift hks hinv howned hstep hcame h⟩,
    asked_of_keeps hinv howned hstep hturn hcame⟩

end Lift

theorem wireSocks_state (v : App) :
    (wireSocks env v).state = v.state ∧ (wireSocks env v).userDown = v.userDown := by
  unfold wireSocks
  dsimp only
  split_ifs <;> exact ⟨rfl, rfl⟩

theorem inv_owned (hks : env.saved.killSwitchEnabled = true) {past : Past} {v : App}
    (hrun : (machine env).Run (fun _ _ => True) past v) : Inv v.standing ∧ Owned env past v := by
  refine Machine.Run.invariant_past (fun past v => Inv v.standing ∧ Owned env past v) ?_ ?_ hrun
  · have hstate : (machine env).init.state = .disconnected := (wireSocks_state _).1
    have huser : (machine env).init.userDown = false := (wireSocks_state _).2
    refine ⟨⟨?_, ?_, ?_⟩, ?_⟩
    · exact fun hup => absurd (hstate.symm.trans hup) (by decide)
    · exact fun hmark => absurd (huser.symm.trans hmark) (by decide)
    · exact fun hmark => absurd (huser.symm.trans hmark) (by decide)
    · rintro (hwaiting | ⟨t, ht, hup⟩)
      · exact absurd (hstate.symm.trans hwaiting) (by decide)
      · obtain rfl := List.mem_singleton.mp ht
        exact absurd (hstate.symm.trans hup) (by decide)
  · rintro past v e w out ⟨hinv, howned⟩ - hnext
    obtain ⟨w, hstep, hpair⟩ := Option.map_eq_some_iff.mp hnext
    obtain ⟨rfl, -⟩ := Prod.mk.inj hpair
    have hturn := turn_of_step hks hstep
    exact ⟨inv_turn hinv hturn, owned_step howned hstep hturn⟩

-- With the kill switch on, what was protected stays so until the user ends it.
theorem run_closed_iff (hks : env.saved.killSwitchEnabled = true) {past : Past} {v : App}
    (hrun : (machine env).Run (fun _ _ => True) past v) :
    Closed env past v ↔
      Machine.eachStep (fun past r _ => CameUp past r.before → KeepsClosed r.before r.event)
        past v := by
  refine hrun.eachStep_iff fun past v e w out hrun _ hnext _ => ?_
  obtain ⟨w, hstep, hpair⟩ := Option.map_eq_some_iff.mp hnext
  obtain ⟨rfl, -⟩ := Prod.mk.inj hpair
  obtain ⟨hinv, howned⟩ := inv_owned hks hrun
  exact forall_congr' fun hcame => lift_iff hks hinv howned hstep (turn_of_step hks hstep) hcame

section Cases

-- The tunnel comes up, and goes down as the user asked.
theorem run_closed_hungUp : ∃ past v, (machine oneProfile).Run (fun _ _ => True) past v ∧
    CameUp past v ∧ v.engine.vpnProxyPort = 0 ∧ Closed oneProfile past v := by
  have hstart : (machine oneProfile).Run (fun _ _ => True) [] _ := .init
  have hbegun := hstart.extend (.connectProfile someId working) trivial rfl
  have hup := hbegun.extend (.line (.ready 1080 [] [] [])) trivial rfl
  have hasked := hup.extend .disconnectVpn trivial rfl
  have hdown := hasked.extend .finished trivial rfl
  refine ⟨_, _, hdown, ?_, rfl, (run_closed_iff rfl hdown).mpr ?_⟩
  · exact cameUp_cons.mpr (.inr (cameUp_cons.mpr (.inl rfl)))
  · refine ⟨fun _ => ⟨fun _ _ _ => rfl, ?_⟩, fun _ => ⟨?_, ?_⟩, fun _ => ⟨?_, ?_⟩, fun _ => ⟨?_, ?_⟩, trivial⟩
    all_goals simp [Drops]

-- The user hangs up, connects again in vain, and the engine that holds the traffic starts anew.
theorem run_not_closed : ∃ past v, (machine oneProfile).Run (fun _ _ => True) past v ∧
    ¬ Closed oneProfile past v := by
  have hstart : (machine oneProfile).Run (fun _ _ => True) [] _ := .init
  have hbegun := hstart.extend (.connectProfile someId working) trivial rfl
  have hup := hbegun.extend (.line (.ready 1080 [] [] [])) trivial rfl
  have hasked := hup.extend .disconnectVpn trivial rfl
  have hdown := hasked.extend .finished trivial rfl
  have hagain := hdown.extend (.connectProfile someId working) trivial rfl
  have hfailed := hagain.extend .finished trivial rfl
  have hlifted := hfailed.extend .restart trivial rfl
  refine ⟨_, _, hlifted, fun h => ?_⟩
  obtain ⟨hinv, howned⟩ := inv_owned rfl hfailed
  have hnone := fun hcame =>
    told_of_lift rfl hinv howned rfl hcame (h.1 hcame) (.inl rfl) rfl (by decide)
  refine absurd (hnone ?_) (by decide)
  exact cameUp_cons.mpr (.inr (cameUp_cons.mpr (.inr (cameUp_cons.mpr (.inr (cameUp_cons.mpr
    (.inl rfl)))))))

end Cases

end BATorrent.Vpn
