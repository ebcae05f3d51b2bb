import BATorrent.Services.Vpn

namespace BATorrent.Vpn

open Lib
open NetworkSettings (Text Adapter Session Saved Settings create)

-- What says where the traffic goes and who decided it.
structure Standing where
  state : State
  activeId : Text
  userDown : Bool
  vpnHold : Bool
  port : Nat

def App.standing (v : App) : Standing where
  state := v.state
  activeId := v.activeId
  userDown := v.userDown
  vpnHold := v.vpnHold
  port := v.engine.vpnProxyPort

variable {env : Env} {v w : App}

section Engine

variable (s : Session)

theorem setVpnProxy_vpnProxyPort (adapters : List Adapter) (port : Int) (user pass : Text)
    (live : Int) : (s.setVpnProxy adapters port user pass live).vpnProxyPort = port.toNat := by
  unfold Session.setVpnProxy
  dsimp only
  split_ifs
  · rw [NetworkSettings.setOutgoingInterface_vpnProxyPort, NetworkSettings.applyProxy_vpnProxyPort]
    rfl
  · rw [NetworkSettings.applyProxy_vpnProxyPort]
    rfl

theorem setVpnAnnouncePort_vpnProxyPort (port : Int) :
    (s.setVpnAnnouncePort port).vpnProxyPort = s.vpnProxyPort := by
  unfold Session.setVpnAnnouncePort
  dsimp only
  split_ifs <;> rfl

end Engine

section Effects

@[simp] theorem standing_sendProxy (port : Int) (user pass : Text) :
    (v.sendProxy env port user pass).standing = { v.standing with port := port.toNat } := by
  simp only [App.sendProxy, App.standing, setVpnProxy_vpnProxyPort]

@[simp] theorem standing_announce (port : Int) : (v.announce port).standing = v.standing := by
  simp only [App.announce, App.standing, setVpnAnnouncePort_vpnProxyPort]

theorem standing_interfaceDown_true :
    (v.interfaceDown env true).standing = { v.standing with vpnHold := false, port := 0 } := by
  have hlift : (v.sendProxy env 0 [] []).standing = { v.standing with port := 0 } :=
    standing_sendProxy 0 [] []
  exact congrArg (fun c : Standing => { c with vpnHold := false }) hlift

theorem standing_interfaceDown (hks : env.saved.killSwitchEnabled = true) (deliberate : Bool) :
    (v.interfaceDown env deliberate).standing =
      if deliberate then { v.standing with vpnHold := false, port := 0 }
      else { v.standing with port := 1 } := by
  cases deliberate with
  | true => exact standing_interfaceDown_true
  | false =>
      rw [App.interfaceDown, if_pos ⟨Bool.false_ne_true, hks⟩, standing_sendProxy]
      rfl

theorem standing_interfaceUp (hready : v.tunnel.ready = true) (hport : 0 < v.tunnel.port) :
    (v.interfaceUp env).standing =
      { v.standing with vpnHold := true, port := v.tunnel.port.toNat } := by
  have hsocks : v.tunnel.socks = some ⟨v.tunnel.port, v.tunnel.user, v.tunnel.pass⟩ := by
    rw [Tunnel.socks, if_pos hready]
  unfold App.interfaceUp
  rw [hsocks]
  dsimp only
  rw [if_neg (by omega)]
  have hsent : (v.sendProxy env v.tunnel.port v.tunnel.user v.tunnel.pass).standing =
      { v.standing with port := v.tunnel.port.toNat } := standing_sendProxy _ _ _
  split_ifs
  · have htold := (standing_announce (v := v.sendProxy env v.tunnel.port v.tunnel.user v.tunnel.pass)
      v.fwdPort).trans hsent
    exact congrArg (fun c : Standing => { c with vpnHold := true }) htold
  · exact congrArg (fun c : Standing => { c with vpnHold := true }) hsent

@[simp] theorem standing_forwardedPort (port : Int) : (v.forwardedPort port).standing = v.standing := by
  unfold App.forwardedPort App.forwardedPortChanged
  dsimp only
  split_ifs
  · rfl
  · exact standing_announce _
  · rfl

theorem standing_holdOrLift (hks : env.saved.killSwitchEnabled = true) :
    (v.holdOrLift env).standing = { v.standing with port := if v.vpnHold then 1 else 0 } := by
  rw [App.holdOrLift, standing_sendProxy]
  cases v.vpnHold <;> simp [hks]

theorem standing_restart (hks : env.saved.killSwitchEnabled = true) :
    (v.restart env).standing = { v.standing with port := if v.vpnHold then 1 else 0 } := by
  simp only [App.restart, App.standing, NetworkSettings.create_vpnProxyPort, hks, and_true]

end Effects

section Signals

def Standing.dropped (c : Standing) : Standing :=
  if c.userDown then
    { c with state := .disconnected, userDown := false, vpnHold := false, port := 0 }
  else { c with state := .disconnected, userDown := false, port := 1 }

def Standing.failed (c : Standing) : Standing :=
  { c with state := .failed, userDown := false, port := 1 }

theorem standing_disconnected (hks : env.saved.killSwitchEnabled = true) :
    (v.disconnected env).standing = v.standing.dropped := by
  rw [App.disconnected, standing_interfaceDown hks]
  rfl

theorem standing_failed (hks : env.saved.killSwitchEnabled = true) (why : Text) :
    (v.failed env why).standing = v.standing.failed := by
  rw [App.failed, standing_interfaceDown hks, if_neg Bool.false_ne_true]
  dsimp only
  split_ifs <;> rfl

theorem standing_finish (hks : env.saved.killSwitchEnabled = true) (error : Text) :
    (v.finish env error).standing =
      if v.tunnel.stopping then v.standing.dropped else v.standing.failed := by
  unfold App.finish
  dsimp only
  split_ifs
  · rw [standing_disconnected hks, standing_forwardedPort]
    rfl
  · rw [standing_disconnected hks]
    rfl
  · rw [standing_failed hks, standing_forwardedPort]
    rfl
  · rw [standing_failed hks]
    rfl

theorem standing_down : v.down.standing = v.standing := by
  unfold App.down
  split_ifs <;> rfl

theorem standing_up (disk : Disk) : (v.up disk).standing = v.standing := by
  unfold App.up
  split_ifs <;> rfl

end Signals

section Turns

-- The user asks for the end of the connection. Where there is none the call returns at once.
def Asks (v : App) : Event → Prop
  | .disconnectVpn => v.state ≠ .disconnected
  | .removeProfile id => v.knows id ∧ v.activeId = id ∧ v.state ≠ .disconnected
  | _ => False

-- The step hands the app a signal that the tunnel was taken down.
def Drops (v : App) : Event → Prop
  | .deliver i => v.deferred[i]? = some .disconnected
  | .failedToStart => v.tunnel.stopping = true
  | .finished => v.tunnel.stopping = true
  | _ => False

def App.Idle (v : App) : Prop := v.state = .disconnected ∨ v.state = .failed

def Standing.asked (c : Standing) : Standing :=
  if c.state = .failed then
    { state := .disconnected, activeId := [], userDown := true, vpnHold := false, port := 0 }
  else { c with activeId := [], userDown := true }

-- All that a step can do to where the app stands.
inductive Turn (v : App) (e : Event) (c : Standing) : Prop where
  | quiet (hasks : ¬ Asks v e) (h : c = v.standing)
  | refused (hasks : ¬ Asks v e) (hidle : v.Idle) (h : c = { v.standing with state := .failed })
  | begun (hasks : ¬ Asks v e) (hidle : v.Idle) (id : Text) (hid : id ≠ [])
      (h : c = { v.standing with state := .connecting, activeId := id })
  | cameUp (hasks : ¬ Asks v e) (hstate : v.state = .connecting) (port : Nat) (hport : port ≠ 0)
      (h : c = { v.standing with state := .connected, vpnHold := true, port := port })
  | asked (hasks : Asks v e) (h : c = v.standing.asked)
  | dropped (hasks : ¬ Asks v e) (hdrops : Drops v e) (h : c = v.standing.dropped)
  | failed (hasks : ¬ Asks v e) (h : c = v.standing.failed)
  | told (hasks : ¬ Asks v e) (he : e = .restart ∨ e = .resync)
      (h : c = { v.standing with port := if v.vpnHold then 1 else 0 })
  | passedOn (hasks : ¬ Asks v e) (hstate : v.state = .connected) (port : Nat) (hport : port ≠ 0)
      (h : c = { v.standing with port := port })

theorem idle_of_not_busy (h : ¬ (v.state = .connecting ∨ v.state = .connected)) : v.Idle := by
  rw [not_or] at h
  cases hstate : v.state with
  | disconnected => exact .inl hstate
  | connecting => exact absurd hstate h.1
  | connected => exact absurd hstate h.2
  | failed => exact .inr hstate

theorem ne_nil_of_knows {id : Text} (h : v.knows id) : id ≠ [] := by
  obtain ⟨p, -, hp⟩ := List.any_eq_true.mp h
  exact of_decide_eq_true hp ▸ p.named

-- The connect starts from where v stands, its timers aside.
theorem turn_connectProfile {e : Event} (hasks : ¬ Asks v e) (hstanding : w.standing = v.standing)
    (id : Text) (disk : Disk) :
    Turn v e (w.connectProfile id disk).standing := by
  have hstate : w.state = v.state := congrArg Standing.state hstanding
  unfold App.connectProfile
  dsimp only
  split_ifs with hbusy hid
  · exact .quiet hasks hstanding
  · have hidle : v.Idle := idle_of_not_busy (hstate ▸ hbusy)
    cases disk.conf with
    | missing => exact .refused hasks hidle (by rw [← hstanding]; rfl)
    | invalid why => exact .refused hasks hidle (by rw [← hstanding]; rfl)
    | valid =>
        refine .begun hasks hidle id (ne_nil_of_knows hid) ?_
        rw [← hstanding, standing_up]
        rfl
  · have hidle : v.Idle := idle_of_not_busy (hstate ▸ hbusy)
    exact .refused hasks hidle (by rw [← hstanding]; rfl)

theorem turn_connectLastUsed {e : Event} (hasks : ¬ Asks v e) (hstanding : w.standing = v.standing)
    (disk : Disk) :
    Turn v e (w.connectLastUsed disk).standing := by
  unfold App.connectLastUsed
  split_ifs
  · exact .quiet hasks hstanding
  · exact turn_connectProfile (w := { w with keepUp := true }) hasks hstanding _ disk

theorem turn_retry {e : Event} (hasks : ¬ Asks v e) (disk : Disk) :
    Turn v e (v.retry disk).standing := by
  unfold App.retry
  dsimp only
  split_ifs
  · exact turn_connectProfile (w := { v with retryTimer := none }) hasks rfl _ disk
  · exact .quiet hasks rfl

-- A hold that is left over from a failure ends at once, a connection when the tunnel says so.
theorem standing_ended (hks : env.saved.killSwitchEnabled = true)
    (h : w.standing = { v.standing with activeId := [], userDown := true }) :
    (if w.state = .failed then
      { w with iface := [], state := .disconnected }.interfaceDown env true
    else w).standing = v.standing.asked := by
  have hstate : w.state = v.standing.state := congrArg Standing.state h
  unfold Standing.asked
  by_cases hfailed : v.standing.state = .failed
  · rw [if_pos (hstate.trans hfailed), if_pos hfailed, standing_interfaceDown hks]
    have hactive : w.activeId = [] := congrArg Standing.activeId h
    have huser : w.userDown = true := congrArg Standing.userDown h
    simp [App.standing, hactive, huser]
  · rw [if_neg (hstate ▸ hfailed), if_neg hfailed, h]

theorem standing_disconnectVpn (hks : env.saved.killSwitchEnabled = true)
    (h : v.state ≠ .disconnected) : (v.disconnectVpn env).standing = v.standing.asked := by
  unfold App.disconnectVpn
  dsimp only
  rw [if_neg]
  · exact standing_ended hks (standing_down.trans rfl)
  · exact h

theorem standing_disconnectVpn_of_disconnected (h : v.state = .disconnected) :
    (v.disconnectVpn env).standing = v.standing := by
  unfold App.disconnectVpn
  dsimp only
  rw [if_pos]
  · rfl
  · exact h

theorem turn_connected {e : Event} (hasks : ¬ Asks v e) (hstanding : w.standing = v.standing)
    (hready : w.tunnel.ready = true) (hport : 0 < w.tunnel.port) (iface : Text) :
    Turn v e (w.connected env iface).standing := by
  unfold App.connected
  dsimp only
  split_ifs with hstate
  · exact .quiet hasks (standing_down.trans hstanding)
  · have hwaiting : v.state = .connecting :=
      (congrArg Standing.state hstanding).symm.trans (not_not.mp hstate)
    refine .cameUp hasks hwaiting w.tunnel.port.toNat (by omega) ?_
    rw [← hstanding]
    exact standing_interfaceUp hready hport

theorem turn_readEvent {e : Event} (hasks : ¬ Asks v e) (line : Line) :
    Turn v e (v.readEvent env line).standing := by
  cases line with
  | ready port user pass ip =>
      unfold App.readEvent
      dsimp only
      split_ifs with hready
      · refine turn_connected (v := v) hasks ?_ hready.1 (of_decide_eq_true hready.1) _
        rfl
      · exact .quiet hasks rfl
  | fwd port =>
      unfold App.readEvent
      dsimp only
      split_ifs
      · exact .quiet hasks (standing_forwardedPort port)
      · exact .quiet hasks rfl
  | error code detail => exact .quiet hasks rfl
  | stale => exact .quiet hasks rfl

theorem turn_finish (hks : env.saved.killSwitchEnabled = true) {e : Event} (hasks : ¬ Asks v e)
    (hdrops : v.tunnel.stopping = true → Drops v e) (error : Text) :
    Turn v e (v.finish env error).standing := by
  rw [standing_finish hks]
  split_ifs with hstopping
  · exact .dropped hasks (hdrops hstopping) rfl
  · exact .failed hasks rfl

theorem turn_resync (hks : env.saved.killSwitchEnabled = true) :
    Turn v .resync (v.resync env).standing := by
  have htold : Turn v .resync (v.holdOrLift env).standing :=
    .told not_false (.inr rfl) (standing_holdOrLift hks)
  unfold App.resync
  cases v.tunnel.socks with
  | none => exact htold
  | some socks =>
      dsimp only
      split_ifs with hup hfwd
      · refine .passedOn not_false hup.1 socks.port.toNat (by omega) ?_
        rw [standing_announce, standing_sendProxy]
      · exact .passedOn not_false hup.1 socks.port.toNat (by omega) (standing_sendProxy _ _ _)
      · exact htold

theorem turn_of_step (hks : env.saved.killSwitchEnabled = true) {e : Event}
    (h : step env v e = some w) : Turn v e w.standing := by
  cases e with
  | connectProfile id disk =>
      obtain rfl := Option.some.inj h
      exact turn_connectProfile (e := .connectProfile id disk) not_false rfl id disk
  | connectLastUsed disk =>
      obtain rfl := Option.some.inj h
      exact turn_connectLastUsed (e := .connectLastUsed disk) not_false rfl disk
  | disconnectVpn =>
      obtain rfl := Option.some.inj h
      by_cases hstate : v.state = .disconnected
      · exact .quiet (fun hasks => hasks hstate) (standing_disconnectVpn_of_disconnected hstate)
      · exact .asked hstate (standing_disconnectVpn hks hstate)
  | removeProfile id =>
      obtain rfl := Option.some.inj h
      unfold App.removeProfile
      split_ifs with hknown hactive
      · by_cases hstate : v.state = .disconnected
        · refine .quiet (fun hasks => hasks.2.2 hstate) ?_
          exact standing_disconnectVpn_of_disconnected hstate
        · exact .asked ⟨hknown, hactive, hstate⟩ (standing_disconnectVpn hks hstate)
      · exact .quiet (fun hasks => hactive hasks.2.1) rfl
      · exact .quiet (fun hasks => hknown hasks.1) rfl
  | line line =>
      obtain ⟨-, h⟩ := Option.ite_none_right_eq_some.mp h
      obtain rfl := Option.some.inj h
      exact turn_readEvent (e := .line line) not_false line
  | tooLong =>
      obtain ⟨-, h⟩ := Option.ite_none_right_eq_some.mp h
      obtain rfl := Option.some.inj h
      exact .quiet not_false rfl
  | failedToStart =>
      obtain ⟨-, h⟩ := Option.ite_none_right_eq_some.mp h
      obtain rfl := Option.some.inj h
      exact turn_finish (e := .failedToStart) hks not_false id _
  | finished =>
      obtain ⟨-, h⟩ := Option.ite_none_right_eq_some.mp h
      obtain rfl := Option.some.inj h
      exact turn_finish (e := .finished) hks not_false id _
  | deliver i =>
      obtain ⟨signal, hsignal, rfl⟩ := Option.map_eq_some_iff.mp h
      cases signal with
      | failed why => exact .failed not_false (standing_failed hks why)
      | disconnected => exact .dropped not_false hsignal (standing_disconnected hks)
  | retry disk =>
      obtain ⟨-, h⟩ := Option.ite_none_right_eq_some.mp h
      obtain rfl := Option.some.inj h
      exact turn_retry (e := .retry disk) not_false disk
  | startTimer disk =>
      obtain ⟨-, h⟩ := Option.ite_none_right_eq_some.mp h
      obtain rfl := Option.some.inj h
      exact turn_connectLastUsed (v := v) (w := { v with startTimer := false }) (e := .startTimer disk)
        not_false rfl disk
  | restart =>
      obtain rfl := Option.some.inj h
      exact .told not_false (.inl rfl) (standing_restart hks)
  | resync =>
      obtain rfl := Option.some.inj h
      exact turn_resync hks

end Turns

end BATorrent.Vpn
