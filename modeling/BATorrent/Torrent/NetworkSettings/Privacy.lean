import BATorrent.Torrent.NetworkSettings

namespace BATorrent.NetworkSettings

open Lib

variable {adapters : List Adapter} {s : Session}

section Tunnel

-- Everything goes through the VPN's proxy, and nothing announces the real address around it.
structure Tunnelled (a : Settings) (port : Nat) : Prop where
  upnp : a.enableUpnp = false
  natpmp : a.enableNatpmp = false
  lsd : a.enableLsd = false
  anonymous : a.anonymousMode = true
  socks : a.proxyType = .socks5 ∨ a.proxyType = .socks5Pw
  host : a.proxyHostname = localhost
  port : a.proxyPort = port
  peers : a.proxyPeerConnections = true
  trackers : a.proxyTrackerConnections = true
  hostnames : a.proxyHostnames = true
  anyInterface : a.outgoingInterfaces = []

def VpnTunnelled (s : Session) : Prop := 0 < s.vpnProxyPort → Tunnelled s.applied s.vpnProxyPort

-- While the VPN is on, no setter lifts a part of what its proxy has set.
def KeepsTunnel (s : Session) : Event → Prop
  | .setAnonymousMode enabled => 0 < s.vpnProxyPort → enabled = true
  | .setPtMode enabled => 0 < s.vpnProxyPort → enabled = true
  | .retryPortMapping => 0 < s.vpnProxyPort → s.proxy.type ≠ 0
  | _ => True

theorem tunnelled_applyProxy (h : 0 < s.vpnProxyPort) :
    Tunnelled s.applyProxy.applied s.vpnProxyPort := by
  rw [Session.applyProxy, if_neg (by omega)]
  by_cases huser : s.vpnProxyUser = []
  · constructor <;> simp [buildProxySettings, Settings.set, proxyTypeOf, huser]
  · constructor <;> simp [buildProxySettings, Settings.set, proxyTypeOf, huser]

theorem vpnTunnelled_applyProxy (s : Session) : VpnTunnelled s.applyProxy := by
  intro h
  rw [applyProxy_vpnProxyPort] at h ⊢
  exact tunnelled_applyProxy h

theorem vpnTunnelled_setAnonymousMode (h : VpnTunnelled s) (enabled : Bool) :
    VpnTunnelled (s.setAnonymousMode enabled) ↔ (0 < s.vpnProxyPort → enabled = true) := by
  constructor
  · exact fun h' hon => (h' hon).anonymous
  · intro hanon hon
    exact { h hon with anonymous := hanon hon }

theorem vpnTunnelled_setPtMode (h : VpnTunnelled s) (enabled : Bool) :
    VpnTunnelled (s.setPtMode enabled) ↔ (0 < s.vpnProxyPort → enabled = true) := by
  constructor
  · intro h' hon
    have hlsd : (!enabled) = false := (h' hon).lsd
    simpa using hlsd
  · intro hkeep hon
    obtain rfl := hkeep hon
    exact { h hon with lsd := rfl, anonymous := rfl }

theorem vpnTunnelled_retryPortMapping (h : VpnTunnelled s) :
    VpnTunnelled s.retryPortMapping ↔ (0 < s.vpnProxyPort → s.proxy.type ≠ 0) := by
  unfold Session.retryPortMapping
  split_ifs with htype
  · exact iff_of_true h fun _ => htype
  · constructor
    · intro h' hon
      have hupnp : true = false := (h' hon).upnp
      cases hupnp
    · exact fun hkeep hon => absurd (hkeep hon) htype

theorem vpnTunnelled_setOutgoingInterface (h : VpnTunnelled s) (name : Text) (live : Int) :
    VpnTunnelled (s.setOutgoingInterface adapters name live) := by
  intro hon
  rw [setOutgoingInterface_vpnProxyPort] at hon ⊢
  rw [Session.setOutgoingInterface, if_pos hon]
  exact h hon

theorem vpnTunnelled_setVpnProxy (s : Session) (port : Int) (user pass : Text) (live : Int) :
    VpnTunnelled (s.setVpnProxy adapters port user pass live) := by
  unfold Session.setVpnProxy
  dsimp only
  split_ifs
  all_goals first
    | exact vpnTunnelled_setOutgoingInterface (vpnTunnelled_applyProxy _) _ _
    | exact vpnTunnelled_applyProxy _

theorem vpnTunnelled_step_iff (h : VpnTunnelled s) (e : Event) :
    VpnTunnelled (step adapters s e) ↔ KeepsTunnel s e := by
  cases e with
  | setProxySettings type host port user pass => exact iff_of_true (vpnTunnelled_applyProxy _) trivial
  | setProxyLeakProof enabled => exact iff_of_true (vpnTunnelled_applyProxy _) trivial
  | setAnonymousMode enabled => exact vpnTunnelled_setAnonymousMode h enabled
  | setPtMode enabled => exact vpnTunnelled_setPtMode h enabled
  | setDhtEnabled enabled => exact iff_of_true (fun hon => { h hon with }) trivial
  | setOutgoingInterface name live =>
      exact iff_of_true (vpnTunnelled_setOutgoingInterface h name live) trivial
  | setListenPort port => exact iff_of_true (fun hon => { h hon with }) trivial
  | setForceIpv4 enabled live => exact iff_of_true (fun hon => { h hon with }) trivial
  | retryPortMapping => exact vpnTunnelled_retryPortMapping h
  | setVpnAnnouncePort port =>
      refine iff_of_true ?_ trivial
      unfold step Session.setVpnAnnouncePort
      dsimp only
      split_ifs
      · exact h
      · exact h
      · exact fun hon => { h hon with }
  | setVpnProxy port user pass live =>
      exact iff_of_true (vpnTunnelled_setVpnProxy s port user pass live) trivial

theorem vpnTunnelled_replayProxy (s : Session) (saved : Saved) : VpnTunnelled (s.replayProxy saved) := by
  unfold Session.replayProxy
  dsimp only
  split_ifs with hproxy
  · exact vpnTunnelled_applyProxy _
  · exact fun hon => absurd (Or.inr hon) hproxy

-- The VPN's proxy stays as it was applied just when no step lifts a part of it.
theorem run_vpnTunnelled_iff {defaults : Settings} {saved : Saved} {rolled live : Int}
    {past : List (Reaction Session Event Out)} {s : Session}
    (hrun : (machine adapters defaults saved rolled live).Run (fun _ _ => True) past s) :
    (∀ t ∈ Machine.visited past s, VpnTunnelled t) ↔ ∀ r ∈ past, KeepsTunnel r.before r.event := by
  have hinit : VpnTunnelled (machine adapters defaults saved rolled live).init ↔ True :=
    iff_of_true (vpnTunnelled_replayProxy _ saved) trivial
  have hiff := hrun.forall_visited_iff hinit fun _ s e s' out _ h hn => by
    obtain ⟨rfl, -⟩ := Prod.mk.inj (Option.some.inj hn)
    exact vpnTunnelled_step_iff h e
  rwa [true_and] at hiff

-- The tunnel comes up, then another setting is changed.
theorem run_vpnTunnelled_forceIpv4 : ∃ past s,
    (machine [] plain unset 50000 0).Run (fun _ _ => True) past s ∧ s.vpnProxyPort = 40123 ∧
      ∀ t ∈ Machine.visited past s, VpnTunnelled t := by
  have hstart : (machine [] plain unset 50000 0).Run (fun _ _ => True) [] _ := .init
  have hup := hstart.extend (.setVpnProxy 40123 ['u'] ['p'] 50000) trivial rfl
  have hforced := hup.extend (.setForceIpv4 true 50000) trivial rfl
  refine ⟨_, _, hforced, rfl, (run_vpnTunnelled_iff hforced).mpr ?_⟩
  simp only [List.forall_mem_cons]
  exact ⟨trivial, trivial, fun r hr => nomatch hr⟩

-- The user has no proxy, so the port mappings are tried again.
theorem run_not_vpnTunnelled : ∃ past s,
    (machine [] plain unset 50000 0).Run (fun _ _ => True) past s ∧
      ∃ t ∈ Machine.visited past s, ¬ VpnTunnelled t := by
  have hstart : (machine [] plain unset 50000 0).Run (fun _ _ => True) [] _ := .init
  have hup := hstart.extend (.setVpnProxy 40123 ['u'] ['p'] 50000) trivial rfl
  have hretried := hup.extend .retryPortMapping trivial rfl
  refine ⟨_, _, hretried, _, List.mem_cons_self, fun h => ?_⟩
  have hupnp : true = false := (h (by decide)).upnp
  cases hupnp

end Tunnel

section PrivateMode

-- What private trackers require.
structure Private (a : Settings) : Prop where
  dht : a.enableDht = false
  lsd : a.enableLsd = false
  anonymous : a.anonymousMode = true
  trackers : a.announceToAllTrackers = true

def PtPrivate (s : Session) : Prop := s.ptMode = true → Private s.applied

-- In private-tracker mode, no setter brings back what the mode turned off.
def KeepsPrivate (s : Session) : Event → Prop
  | .setDhtEnabled enabled => s.ptMode = true → enabled = false
  | .setAnonymousMode enabled => s.ptMode = true → enabled = true
  | .setProxySettings type _ _ _ _ => s.ptMode = true → type ≠ 0 ∨ 0 < s.vpnProxyPort
  | .setProxyLeakProof _ => s.ptMode = true → s.proxy.type ≠ 0 ∨ 0 < s.vpnProxyPort
  | .setVpnProxy port _ _ _ => s.ptMode = true → s.proxy.type ≠ 0 ∨ 0 < port
  | _ => True

-- A start in private-tracker mode must not find the DHT switched on in the settings.
def StartsPrivate (saved : Saved) : Prop := saved.ptMode = true → saved.dhtEnabled ≠ some true

section Set

variable {a : Settings}

theorem Private.announcePort (h : Private a) (port : Int) : Private (a.set (.announcePort port)) :=
  { h with }

theorem Private.outgoingInterfaces (h : Private a) (names : Text) :
    Private (a.set (.outgoingInterfaces names)) := { h with }

end Set

theorem private_buildProxySettings {a : Settings} (h : Private a) {type : Int} (htype : type ≠ 0)
    (host : Text) (port : Int) (user pass : Text) (leakProof anonymousMode : Bool) :
    Private (a.apply (buildProxySettings type host port user pass leakProof anonymousMode)) := by
  obtain ⟨hdht, hlsd, hanon, htrackers⟩ := h
  rw [buildProxySettings, if_neg htype]
  by_cases huser : user = []
  · cases leakProof with
    | false => constructor <;> simpa [Settings.set, huser]
    | true => constructor <;> simp [Settings.set, huser, hdht, htrackers]
  · cases leakProof with
    | false => constructor <;> simpa [Settings.set, huser]
    | true => constructor <;> simp [Settings.set, huser, hdht, htrackers]

-- Without a proxy, local discovery is switched on.
theorem ptPrivate_applyProxy (h : PtPrivate s) :
    PtPrivate s.applyProxy ↔ (s.ptMode = true → s.proxy.type ≠ 0 ∨ 0 < s.vpnProxyPort) := by
  unfold PtPrivate
  rw [applyProxy_ptMode]
  refine forall_congr' fun hpt => ?_
  unfold Session.applyProxy
  split_ifs with hport
  · rw [apply_applied, settings_apply_append]
    constructor
    · intro hprivate
      by_cases htype : s.proxy.type = 0
      · have hlsd := hprivate.lsd
        simp [ProxyController.settings, buildProxySettings, htype, Settings.set] at hlsd
      · exact .inl htype
    · rintro (htype | hon)
      · exact (private_buildProxySettings (h hpt) htype _ _ _ _ _ _).announcePort 0
      · omega
  · refine iff_of_true ?_ (.inr (by omega))
    rw [apply_applied, settings_apply_append]
    have hproxy := private_buildProxySettings (h hpt) (by decide : (1 : Int) ≠ 0) localhost
      s.vpnProxyPort s.vpnProxyUser s.vpnProxyPass true s.anonymousMode
    exact (hproxy.outgoingInterfaces []).announcePort s.vpnAnnouncePort

theorem ptPrivate_setPtMode (s : Session) (enabled : Bool) : PtPrivate (s.setPtMode enabled) := by
  intro hpt
  obtain rfl : enabled = true := hpt
  exact ⟨rfl, rfl, rfl, rfl⟩

theorem ptPrivate_setDhtEnabled (h : PtPrivate s) (enabled : Bool) :
    PtPrivate (s.setDhtEnabled enabled) ↔ (s.ptMode = true → enabled = false) := by
  constructor
  · exact fun h' hpt => (h' hpt).dht
  · intro hdht hpt
    exact { h hpt with dht := hdht hpt }

theorem ptPrivate_setAnonymousMode (h : PtPrivate s) (enabled : Bool) :
    PtPrivate (s.setAnonymousMode enabled) ↔ (s.ptMode = true → enabled = true) := by
  constructor
  · exact fun h' hpt => (h' hpt).anonymous
  · intro hanon hpt
    exact { h hpt with anonymous := hanon hpt }

theorem ptPrivate_setOutgoingInterface_iff (name : Text) (live : Int) :
    PtPrivate (s.setOutgoingInterface adapters name live) ↔ PtPrivate s := by
  unfold Session.setOutgoingInterface
  dsimp only
  split_ifs
  · exact Iff.rfl
  · exact ⟨fun h hpt => { h hpt with }, fun h hpt => { h hpt with }⟩
  · exact ⟨fun h hpt => { h hpt with }, fun h hpt => { h hpt with }⟩

theorem ptPrivate_setListenPort (h : PtPrivate s) (port : Int) :
    PtPrivate (s.setListenPort adapters port) := fun hpt => { h hpt with }

theorem ptPrivate_setVpnProxy (h : PtPrivate s) (port : Int) (user pass : Text) (live : Int) :
    PtPrivate (s.setVpnProxy adapters port user pass live) ↔
      (s.ptMode = true → s.proxy.type ≠ 0 ∨ 0 < port) := by
  have hproxy : PtPrivate (s.withVpnProxy port user pass).applyProxy ↔
      (s.ptMode = true → s.proxy.type ≠ 0 ∨ 0 < port.toNat) :=
    ptPrivate_applyProxy fun hpt => h hpt
  rw [Int.lt_toNat] at hproxy
  unfold Session.setVpnProxy
  dsimp only
  split_ifs
  · rw [ptPrivate_setOutgoingInterface_iff]
    exact hproxy
  · exact hproxy

theorem ptPrivate_step_iff (h : PtPrivate s) (e : Event) :
    PtPrivate (step adapters s e) ↔ KeepsPrivate s e := by
  cases e with
  | setProxySettings type host port user pass => exact ptPrivate_applyProxy (fun hpt => h hpt)
  | setProxyLeakProof enabled => exact ptPrivate_applyProxy (fun hpt => h hpt)
  | setAnonymousMode enabled => exact ptPrivate_setAnonymousMode h enabled
  | setPtMode enabled => exact iff_of_true (ptPrivate_setPtMode s enabled) trivial
  | setDhtEnabled enabled => exact ptPrivate_setDhtEnabled h enabled
  | setOutgoingInterface name live =>
      exact iff_of_true ((ptPrivate_setOutgoingInterface_iff name live).mpr h) trivial
  | setListenPort port => exact iff_of_true (ptPrivate_setListenPort h port) trivial
  | setForceIpv4 enabled live => exact iff_of_true (fun hpt => { h hpt with }) trivial
  | retryPortMapping =>
      refine iff_of_true ?_ trivial
      unfold step Session.retryPortMapping
      dsimp only
      split_ifs
      · exact h
      · exact fun hpt => { h hpt with }
  | setVpnAnnouncePort port =>
      refine iff_of_true ?_ trivial
      unfold step Session.setVpnAnnouncePort
      dsimp only
      split_ifs
      · exact h
      · exact h
      · exact fun hpt => { h hpt with }
  | setVpnProxy port user pass live => exact ptPrivate_setVpnProxy h port user pass live

section Start

variable {saved : Saved}

@[simp] theorem setOutgoingInterface_enableDht (s : Session) (name : Text) (live : Int) :
    (s.setOutgoingInterface adapters name live).applied.enableDht = s.applied.enableDht := by
  unfold Session.setOutgoingInterface
  dsimp only
  split_ifs <;> rfl

@[simp] theorem setOutgoingInterface_ptMode (s : Session) (name : Text) (live : Int) :
    (s.setOutgoingInterface adapters name live).ptMode = s.ptMode := by
  unfold Session.setOutgoingInterface
  dsimp only
  split_ifs <;> rfl

theorem buildProxySettings_enableDht (a : Settings) (type : Int) (host : Text) (port : Int)
    (user pass : Text) (leakProof anonymousMode : Bool) :
    (a.apply (buildProxySettings type host port user pass leakProof anonymousMode)).enableDht =
      a.enableDht := by
  unfold buildProxySettings
  split_ifs <;> simp [Settings.set]

theorem set_announcePort_enableDht (a : Settings) (port : Int) :
    (a.set (.announcePort port)).enableDht = a.enableDht := rfl

theorem set_outgoingInterfaces_enableDht (a : Settings) (names : Text) :
    (a.set (.outgoingInterfaces names)).enableDht = a.enableDht := rfl

theorem applyProxy_enableDht (s : Session) :
    s.applyProxy.applied.enableDht = s.applied.enableDht := by
  unfold Session.applyProxy ProxyController.settings
  split_ifs
  · simp only [apply_applied, settings_apply_append, settings_apply_cons, settings_apply_nil,
      set_announcePort_enableDht, buildProxySettings_enableDht]
  · simp only [apply_applied, settings_apply_append, settings_apply_cons, settings_apply_nil,
      set_announcePort_enableDht, set_outgoingInterfaces_enableDht, buildProxySettings_enableDht]

theorem replayBinding_enableDht (s : Session) (rolled live : Int) :
    (s.replayBinding adapters saved rolled live).applied.enableDht = s.applied.enableDht := by
  unfold Session.replayBinding
  dsimp only
  split_ifs
  · exact setOutgoingInterface_enableDht s _ live
  · exact setOutgoingInterface_enableDht s _ live
  · rfl
  · rfl

theorem replayBinding_ptMode (s : Session) (rolled live : Int) :
    (s.replayBinding adapters saved rolled live).ptMode = s.ptMode := by
  unfold Session.replayBinding
  dsimp only
  split_ifs
  · exact setOutgoingInterface_ptMode s _ live
  · exact setOutgoingInterface_ptMode s _ live
  · rfl
  · rfl

theorem replayProxy_enableDht (s : Session) :
    (s.replayProxy saved).applied.enableDht = s.applied.enableDht := by
  unfold Session.replayProxy
  dsimp only
  split_ifs
  · exact applyProxy_enableDht _
  · rfl

theorem replayProxy_ptMode (s : Session) : (s.replayProxy saved).ptMode = s.ptMode := by
  unfold Session.replayProxy
  dsimp only
  split_ifs
  · exact applyProxy_ptMode _
  · rfl

theorem replayDht_ptMode (s : Session) : (s.replayDht saved).ptMode = s.ptMode := by
  unfold Session.replayDht
  cases saved.dhtEnabled <;> rfl

theorem ptPrivate_replayBinding (h : PtPrivate s) (rolled live : Int) :
    PtPrivate (s.replayBinding adapters saved rolled live) := by
  unfold Session.replayBinding
  apply ptPrivate_setListenPort
  split_ifs
  · exact (ptPrivate_setOutgoingInterface_iff _ _).mpr h
  · exact h

theorem ptPrivate_replayProxy (h : PtPrivate s) : PtPrivate (s.replayProxy saved) := by
  have hload : PtPrivate (s.loadProxy saved) := fun hpt => h hpt
  unfold Session.replayProxy
  dsimp only
  split_ifs with hproxy
  · exact (ptPrivate_applyProxy hload).mpr fun _ => hproxy
  · exact hload

theorem replayModes_ptMode (s : Session) (live : Int) : (s.replayModes live).ptMode = s.ptMode := by
  unfold Session.replayModes
  dsimp only
  split_ifs with hanon hforce hpt hpt hforce hpt hpt
  · exact hpt.symm
  · rfl
  · exact hpt.symm
  · rfl
  · exact hpt.symm
  · rfl
  · exact hpt.symm
  · rfl

theorem ptPrivate_replayModes (s : Session) (live : Int) : PtPrivate (s.replayModes live) := by
  unfold Session.replayModes
  dsimp only
  split_ifs with hanon hforce hpt hpt hforce hpt hpt
  all_goals first
    | exact ptPrivate_setPtMode _ true
    | exact fun h => absurd h hpt

theorem ptPrivate_replayDht (saved : Saved) (h : PtPrivate s) :
    PtPrivate (s.replayDht saved) ↔ (s.ptMode = true → saved.dhtEnabled ≠ some true) := by
  unfold Session.replayDht
  cases hdht : saved.dhtEnabled with
  | none => exact iff_of_true h fun _ => by simp
  | some enabled => simpa using ptPrivate_setDhtEnabled h enabled

-- The mode is replayed before the switch of the DHT, which nothing later turns off again.
theorem ptPrivate_create (defaults : Settings) (rolled live : Int) :
    PtPrivate (create adapters defaults saved rolled live) ↔ StartsPrivate saved := by
  have hmodes := ptPrivate_replayModes (start defaults saved) live
  have hpt : ((start defaults saved).replayModes live).ptMode = saved.ptMode :=
    replayModes_ptMode _ live
  have hdht := ptPrivate_replayDht saved hmodes
  rw [hpt] at hdht
  constructor
  · intro h hmode hon
    have hkept : (create adapters defaults saved rolled live).applied.enableDht =
        (((start defaults saved).replayModes live).replayDht saved).applied.enableDht := by
      rw [create, replayProxy_enableDht, replayBinding_enableDht]
    have hpt' : (create adapters defaults saved rolled live).ptMode = true := by
      rw [create, replayProxy_ptMode, replayBinding_ptMode, replayDht_ptMode, hpt, hmode]
    have hoff := (h hpt').dht
    rw [hkept, Session.replayDht, hon] at hoff
    cases hoff
  · exact fun h => ptPrivate_replayProxy (ptPrivate_replayBinding (hdht.mpr h) rolled live)

end Start

-- The mode holds just when it does at the start and no setter brings back what it turned off.
theorem run_ptPrivate_iff {defaults : Settings} {saved : Saved} {rolled live : Int}
    {past : List (Reaction Session Event Out)} {s : Session}
    (hrun : (machine adapters defaults saved rolled live).Run (fun _ _ => True) past s) :
    (∀ t ∈ Machine.visited past s, PtPrivate t) ↔
      StartsPrivate saved ∧ ∀ r ∈ past, KeepsPrivate r.before r.event := by
  refine hrun.forall_visited_iff (ptPrivate_create defaults rolled live)
    fun _ s e s' out _ h hn => ?_
  obtain ⟨rfl, -⟩ := Prod.mk.inj (Option.some.inj hn)
  exact ptPrivate_step_iff h e

-- The mode is switched on, then the proxy's leak-proofing with the VPN on.
theorem run_ptPrivate_leakProof : ∃ past s,
    (machine [] plain unset 50000 0).Run (fun _ _ => True) past s ∧ s.ptMode = true ∧
      ∀ t ∈ Machine.visited past s, PtPrivate t := by
  have hstart : (machine [] plain unset 50000 0).Run (fun _ _ => True) [] _ := .init
  have hmode := hstart.extend (.setPtMode true) trivial rfl
  have hup := hmode.extend (.setVpnProxy 40123 ['u'] ['p'] 50000) trivial rfl
  have hproof := hup.extend (.setProxyLeakProof false) trivial rfl
  refine ⟨_, _, hproof, rfl, (run_ptPrivate_iff hproof).mpr ⟨(fun h => nomatch h), ?_⟩⟩
  simp only [List.forall_mem_cons]
  exact ⟨fun _ => .inr (by decide), fun _ => .inr (by decide), trivial, fun r hr => nomatch hr⟩

-- The switch of the DHT does not look at the mode.
theorem run_not_ptPrivate : ∃ past s,
    (machine [] plain unset 50000 0).Run (fun _ _ => True) past s ∧
      ∃ t ∈ Machine.visited past s, ¬ PtPrivate t := by
  have hstart : (machine [] plain unset 50000 0).Run (fun _ _ => True) [] _ := .init
  have hmode := hstart.extend (.setPtMode true) trivial rfl
  have hdht := hmode.extend (.setDhtEnabled true) trivial rfl
  refine ⟨_, _, hdht, _, List.mem_cons_self, fun h => ?_⟩
  have hoff : true = false := (h rfl).dht
  cases hoff

end PrivateMode

end BATorrent.NetworkSettings
