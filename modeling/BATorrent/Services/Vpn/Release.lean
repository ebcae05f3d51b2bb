import BATorrent.Services.Vpn.Standing

namespace BATorrent.Vpn

open Lib
open NetworkSettings (Text)

variable {env : Env} {v w : App}

-- Where the user's disconnect leads with the signal it brings about, and no other step.
inductive Leads (env : Env) (v : App) : App → Prop where
  | atOnce (hstate : v.state = .disconnected) : Leads env v (v.disconnectVpn env)
  | delivered {w : App} (hstate : v.state ≠ .disconnected) (hproc : v.tunnel.proc = false)
      (hstep : step env (v.disconnectVpn env) (.deliver v.deferred.length) = some w) : Leads env v w
  | exited {w : App} (hstate : v.state ≠ .disconnected) (hproc : v.tunnel.proc = true)
      (lines : List Line)
      (hstep : step env (lines.foldl (App.readEvent env) (v.disconnectVpn env)) .finished = some w) :
      Leads env v w
  | notStarted {w : App} (hstate : v.state ≠ .disconnected) (hproc : v.tunnel.proc = true)
      (hstep : step env (v.disconnectVpn env) .failedToStart = some w) : Leads env v w

def Lifted (v : App) : Prop := v.engine.vpnProxyPort = 0 ∧ v.vpnHold = false

def Released (env : Env) (v : App) : Prop :=
  (∃ w, Leads env v w) ∧ ∀ w, Leads env v w → Lifted w

section Ending

-- The user hung up and the helper has not gone yet.
structure Ending (v : App) : Prop where
  userDown : v.userDown = true
  proc : v.tunnel.proc = true
  stopping : v.tunnel.stopping = true

theorem lifted_interfaceDown : Lifted (v.interfaceDown env true) := by
  have h : (v.interfaceDown env true).standing = { v.standing with vpnHold := false, port := 0 } :=
    standing_interfaceDown_true
  exact ⟨congrArg Standing.port h, congrArg Standing.vpnHold h⟩

theorem lifted_disconnected (h : v.userDown = true) : Lifted (v.disconnected env) := by
  rw [App.disconnected, h]
  exact lifted_interfaceDown

theorem forwardedPort_userDown (port : Int) : (v.forwardedPort port).userDown = v.userDown :=
  congrArg Standing.userDown (standing_forwardedPort port)

theorem forwardedPort_tunnel (port : Int) : (v.forwardedPort port).tunnel = v.tunnel := by
  unfold App.forwardedPort App.forwardedPortChanged
  dsimp only
  split_ifs <;> rfl

theorem Ending.readEvent (h : Ending v) (line : Line) : Ending (v.readEvent env line) := by
  obtain ⟨huser, hproc, hstopping⟩ := h
  cases line with
  | ready port user pass ip =>
      rw [App.readEvent]
      dsimp only
      rw [if_neg fun hready => hready.2 hstopping]
      exact ⟨huser, hproc, hstopping⟩
  | fwd port =>
      rw [App.readEvent]
      dsimp only
      split_ifs
      · constructor
        · rw [forwardedPort_userDown]
          exact huser
        · rw [forwardedPort_tunnel]
          exact hproc
        · rw [forwardedPort_tunnel]
          exact hstopping
      · exact ⟨huser, hproc, hstopping⟩
  | error code detail => exact ⟨huser, hproc, hstopping⟩
  | stale => exact ⟨huser, hproc, hstopping⟩

theorem Ending.readEvents (env : Env) (lines : List Line) :
    ∀ {v}, Ending v → Ending (lines.foldl (App.readEvent env) v) := by
  induction lines with
  | nil => exact id
  | cons line lines ih => exact fun h => ih (h.readEvent line)

theorem Ending.lifted_finish (h : Ending v) (error : Text) : Lifted (v.finish env error) := by
  unfold App.finish
  dsimp only
  rw [if_pos h.stopping]
  apply lifted_disconnected
  split_ifs
  · rw [forwardedPort_userDown]
    exact h.userDown
  · exact h.userDown

end Ending

section Disconnect

theorem interfaceDown_kept (deliberate : Bool) :
    (v.interfaceDown env deliberate).userDown = v.userDown ∧
      (v.interfaceDown env deliberate).tunnel = v.tunnel ∧
        (v.interfaceDown env deliberate).deferred = v.deferred := by
  unfold App.interfaceDown
  split_ifs <;> exact ⟨rfl, rfl, rfl⟩

-- The disconnect before it looks whether the attempt had failed.
def hungUp (v : App) : App :=
  { { v with keepUp := false, retries := 0 }.stopRetry with activeId := [], userDown := true }.down

theorem disconnectVpn_kept (env : Env) (h : v.state ≠ .disconnected) :
    (v.disconnectVpn env).userDown = (hungUp v).userDown ∧
      (v.disconnectVpn env).tunnel = (hungUp v).tunnel ∧
        (v.disconnectVpn env).deferred = (hungUp v).deferred := by
  have heq : v.disconnectVpn env =
      if (hungUp v).state = .failed then
        { hungUp v with iface := [], state := .disconnected }.interfaceDown env true
      else hungUp v := by
    unfold App.disconnectVpn
    dsimp only
    rw [if_neg]
    · rfl
    · exact h
  rw [heq]
  split_ifs
  · exact interfaceDown_kept true
  · exact ⟨rfl, rfl, rfl⟩

theorem ending_disconnectVpn (env : Env) (h : v.state ≠ .disconnected) (hproc : v.tunnel.proc = true) :
    Ending (v.disconnectVpn env) := by
  have hdown : hungUp v = { { { v with keepUp := false, retries := 0 }.stopRetry with
      activeId := [], userDown := true } with tunnel := { v.tunnel with stopping := true } } := by
    unfold hungUp App.down
    rw [if_pos]
    · rfl
    · exact hproc
  obtain ⟨huser, htunnel, -⟩ := disconnectVpn_kept env h
  constructor
  · rw [huser, hdown]
  · rw [htunnel, hdown]
    exact hproc
  · rw [htunnel, hdown]

theorem deferred_disconnectVpn (env : Env) (h : v.state ≠ .disconnected) (hproc : v.tunnel.proc = false) :
    (v.disconnectVpn env).userDown = true ∧
      (v.disconnectVpn env).deferred = v.deferred ++ [.disconnected] := by
  have hdown : hungUp v = { { { v with keepUp := false, retries := 0 }.stopRetry with
      activeId := [], userDown := true } with deferred := v.deferred ++ [.disconnected] } := by
    unfold hungUp App.down
    rw [if_neg]
    · rfl
    · exact ne_true_of_eq_false hproc
  obtain ⟨huser, -, hdeferred⟩ := disconnectVpn_kept env h
  constructor
  · rw [huser, hdown]
  · rw [hdeferred, hdown]

theorem lifted_of_leads (hstate : v.state ≠ .disconnected) (h : Leads env v w) : Lifted w := by
  cases h with
  | atOnce hidle => exact absurd hidle hstate
  | delivered _ hproc hstep =>
      obtain ⟨huser, hdeferred⟩ := deferred_disconnectVpn env hstate hproc
      obtain ⟨signal, hsignal, rfl⟩ := Option.map_eq_some_iff.mp hstep
      rw [hdeferred, List.getElem?_concat_length] at hsignal
      obtain rfl := Option.some.inj hsignal
      exact lifted_disconnected huser
  | exited _ hproc lines hstep =>
      have hending := (ending_disconnectVpn env hstate hproc).readEvents env lines
      obtain ⟨-, hstep⟩ := Option.ite_none_right_eq_some.mp hstep
      obtain rfl := Option.some.inj hstep
      exact hending.lifted_finish _
  | notStarted _ hproc hstep =>
      obtain ⟨-, hstep⟩ := Option.ite_none_right_eq_some.mp hstep
      obtain rfl := Option.some.inj hstep
      exact (ending_disconnectVpn env hstate hproc).lifted_finish _

theorem exists_leads : ∃ w, Leads env v w := by
  by_cases hstate : v.state = .disconnected
  · exact ⟨_, .atOnce hstate⟩
  cases hproc : v.tunnel.proc with
  | false =>
      have hdeferred := (deferred_disconnectVpn env hstate hproc).2
      refine ⟨deliver env { v.disconnectVpn env with
        deferred := (v.disconnectVpn env).deferred.eraseIdx v.deferred.length } .disconnected,
        .delivered hstate hproc ?_⟩
      simp [step, hdeferred]
  | true =>
      have hending := ending_disconnectVpn env hstate hproc
      exact ⟨_, .exited hstate hproc [] (if_pos hending.proc)⟩

end Disconnect

-- A hold is released just where the app does not think itself disconnected already.
theorem released_iff (hhold : v.engine.vpnProxyPort = 1) :
    Released env v ↔ v.state ≠ .disconnected := by
  constructor
  · intro h hstate
    have hlifted := h.2 _ (.atOnce hstate)
    have hkept : (v.disconnectVpn env).standing = v.standing :=
      standing_disconnectVpn_of_disconnected hstate
    have hport : (v.disconnectVpn env).engine.vpnProxyPort = 1 :=
      (congrArg Standing.port hkept).trans hhold
    rw [hlifted.1] at hport
    exact absurd hport (by decide)
  · exact fun hstate => ⟨exists_leads, fun w => lifted_of_leads hstate⟩

section Cases

open NetworkSettings (unset)

-- The first connect fails and the traffic is held.
theorem run_released_failed : ∃ past v, (machine oneProfile).Run (fun _ _ => True) past v ∧
    v.engine.vpnProxyPort = 1 ∧ Released oneProfile v := by
  have hstart : (machine oneProfile).Run (fun _ _ => True) [] _ := .init
  have hbegun := hstart.extend (.connectProfile someId working) trivial rfl
  have hfailed := hbegun.extend .finished trivial rfl
  exact ⟨_, _, hfailed, rfl, (released_iff rfl).mpr (by decide)⟩

-- The app starts with the hold of its last run, and has not yet tried to connect.
theorem run_not_released : ∃ past v,
    (machine { oneProfile with
      saved := { unset with vpnHold := true }, vpnLastProfileId := someId }).Run
      (fun _ _ => True) past v ∧ v.engine.vpnProxyPort = 1 ∧
        ¬ Released { oneProfile with
          saved := { unset with vpnHold := true }, vpnLastProfileId := someId } v := by
  refine ⟨[], _, .init, rfl, fun h => ?_⟩
  have hlifted := h.2 _ (.atOnce rfl)
  exact absurd hlifted.1 (by decide)

end Cases

end BATorrent.Vpn
