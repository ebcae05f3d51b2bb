import BATorrent.Torrent.NetworkSettings

namespace BATorrent.NetworkSettings

open Lib
open SessionConfig (anyAddress anyAddress6 endpoint listenInterfaces)

variable {adapters : List Adapter} {s : Session}

section Text

-- The text of an IPv4 address, the unspecified one included.
def Plain (address : Text) : Prop := ∀ c ∈ address, c.isDigit ∨ c = '.'

theorem plain_of_all {address : Text} (h : address.all fun c => c.isDigit || c == '.') :
    Plain address := by
  intro c hc
  have hone := List.all_eq_true.mp h c hc
  simpa using hone

theorem plain_anyAddress : Plain anyAddress := plain_of_all (by decide)

theorem plain_listenAddr (a : Option Adapter) : Plain (Adapter.listenAddr a) := by
  unfold Adapter.listenAddr
  cases a.bind fun a => a.addresses.head? with
  | none => exact plain_anyAddress
  | some ip => exact ip.plain

theorem Plain.notMem {address : Text} (h : Plain address) {c : Char} (hdigit : ¬ c.isDigit)
    (hdot : c ≠ '.') : c ∉ address := by
  intro hc
  exact (h c hc).elim hdigit hdot

theorem Plain.notMem_endpoint {address : Text} (h : Plain address) {c : Char} (hdigit : ¬ c.isDigit)
    (hdot : c ≠ '.') (hcolon : c ≠ ':') (hminus : c ≠ '-') (port : Int) :
    c ∉ endpoint address port := by
  intro hc
  rcases List.mem_append.mp hc with hc | hc
  · exact h.notMem hdigit hdot hc
  · rcases List.mem_cons.mp hc with hc | hc
    · exact hcolon hc
    · exact (Text.mem_number hc).elim hminus hdigit

theorem endpoint_inj {a b : Text} (ha : Plain a) (hb : Plain b) {p q : Int}
    (h : endpoint a p = endpoint b q) : a = b ∧ p = q := by
  have hcut := Text.append_cons_inj (ha.notMem (by decide) (by decide))
    (hb.notMem (by decide) (by decide)) h
  exact ⟨hcut.1, Text.number_injective hcut.2⟩

-- The IPv6 entry is there or it is not.
theorem endpoint_ne_dual {a b : Text} (ha : Plain a) (p q : Int) (rest : Text) :
    endpoint a p ≠ endpoint b q ++ ',' :: rest := by
  intro h
  refine ha.notMem_endpoint (c := ',') (by decide) (by decide) (by decide) (by decide) p ?_
  rw [h]
  exact List.mem_append_right _ List.mem_cons_self

theorem endpoint_eq_listenInterfaces_iff {a b : Text} (ha : Plain a) (hb : Plain b) {p q : Int}
    {force : Bool} :
    endpoint a p = listenInterfaces b q force ↔ a = b ∧ p = q ∧ (b ≠ anyAddress ∨ force = true) := by
  unfold listenInterfaces
  split_ifs with hsingle
  · constructor
    · intro h
      obtain ⟨hab, hpq⟩ := endpoint_inj ha hb h
      exact ⟨hab, hpq, hsingle⟩
    · rintro ⟨rfl, rfl, -⟩
      rfl
  · exact iff_of_false (endpoint_ne_dual ha p q _) fun h => hsingle h.2.2

theorem listenInterfaces_inj {a b : Text} (ha : Plain a) (hb : Plain b) {p q : Int} {force : Bool}
    (h : listenInterfaces a p force = listenInterfaces b q force) : a = b ∧ p = q := by
  by_cases hsingle : a ≠ anyAddress ∨ force = true
  · rw [listenInterfaces, if_pos hsingle, endpoint_eq_listenInterfaces_iff ha hb] at h
    exact ⟨h.1, h.2.1⟩
  by_cases hsingle' : b ≠ anyAddress ∨ force = true
  · rw [eq_comm, listenInterfaces, if_pos hsingle', endpoint_eq_listenInterfaces_iff hb ha] at h
    exact ⟨h.1.symm, h.2.1.symm⟩
  · rw [listenInterfaces, if_neg hsingle, listenInterfaces, if_neg hsingle'] at h
    have hcomma : ∀ port, ',' ∉ endpoint anyAddress port :=
      plain_anyAddress.notMem_endpoint (by decide) (by decide) (by decide) (by decide)
    have hcut := Text.append_cons_inj (hcomma p) (hcomma q) h
    obtain ⟨-, hpq⟩ := endpoint_inj plain_anyAddress plain_anyAddress hcut.1
    rw [not_or, not_not] at hsingle hsingle'
    exact ⟨hsingle.1.trans hsingle'.1.symm, hpq⟩

end Text

section Binding

-- The address the user bound the session to, if any.
def addressOf (adapters : List Adapter) (name : Text) : Text :=
  if name = [] then anyAddress else Adapter.listenAddr (resolve adapters name)

-- The address a look-up by the internal name alone finds.
def addressByName (adapters : List Adapter) (name : Text) : Text :=
  if name = [] then anyAddress else Adapter.listenAddr (interfaceFromName adapters name)

-- One of the comma-separated entries is for this address.
def Listens (ifaces address : Text) : Prop :=
  ∃ entry ∈ ifaces.splitOn ',', ∃ port, entry = address ++ ':' :: port

structure BoundTo (s : Session) (address : Text) : Prop where
  listens : s.applied.listenInterfaces = listenInterfaces address s.listenPort s.forceIpv4
  only : address ≠ anyAddress → ¬ Listens s.applied.listenInterfaces anyAddress ∧
    ¬ Listens s.applied.listenInterfaces anyAddress6

def Bound (adapters : List Adapter) (s : Session) : Prop :=
  s.vpnProxyPort = 0 → BoundTo s (addressOf adapters s.outgoingInterface)

-- Each setter's own way to the text must give the same one.
def KeepsBinding (adapters : List Adapter) (s : Session) : Event → Prop
  | .setOutgoingInterface name _ => s.vpnProxyPort = 0 →
      0 < s.listenPort ∧ (addressOf adapters name ≠ anyAddress ∨ s.forceIpv4 = true)
  | .setListenPort _ => s.vpnProxyPort = 0 →
      addressByName adapters s.outgoingInterface = addressOf adapters s.outgoingInterface
  | .setForceIpv4 _ _ => s.vpnProxyPort = 0 →
      0 < s.listenPort ∧ addressOf adapters s.outgoingInterface = anyAddress
  | .setVpnProxy port _ _ _ => 0 < s.vpnProxyPort → port ≤ 0 →
      0 < s.listenPort ∧
        (addressOf adapters s.outgoingInterface ≠ anyAddress ∨ s.forceIpv4 = true)
  | _ => True

def StartsBound (adapters : List Adapter) (saved : Saved) : Prop :=
  ¬ (saved.vpnHold = true ∧ saved.killSwitchEnabled = true) →
    addressByName adapters saved.outgoingInterface = addressOf adapters saved.outgoingInterface

theorem plain_addressOf (adapters : List Adapter) (name : Text) : Plain (addressOf adapters name) := by
  unfold addressOf
  split_ifs
  · exact plain_anyAddress
  · exact plain_listenAddr _

theorem plain_addressByName (adapters : List Adapter) (name : Text) :
    Plain (addressByName adapters name) := by
  unfold addressByName
  split_ifs
  · exact plain_anyAddress
  · exact plain_listenAddr _

theorem splitOn_endpoint {a : Text} (ha : Plain a) (port : Int) :
    (endpoint a port).splitOn ',' = [endpoint a port] := by
  apply List.splitOn_eq_singleton
  exact ha.notMem_endpoint (by decide) (by decide) (by decide) (by decide) port

-- The second half says what the first means for a chosen address.
theorem boundTo_iff {address : Text} (h : Plain address) :
    BoundTo s address ↔
      s.applied.listenInterfaces = listenInterfaces address s.listenPort s.forceIpv4 := by
  refine ⟨BoundTo.listens, fun heq => ⟨heq, fun hne => ?_⟩⟩
  have hsplit : s.applied.listenInterfaces.splitOn ',' = [endpoint address s.listenPort] := by
    rw [heq, listenInterfaces, if_pos (.inl hne), splitOn_endpoint h]
  unfold Listens
  simp only [hsplit, List.mem_singleton, exists_eq_left]
  constructor
  · rintro ⟨port, hentry⟩
    have hcut := Text.append_cons_inj (h.notMem (by decide) (by decide))
      (plain_anyAddress.notMem (by decide) (by decide)) hentry
    exact hne hcut.1
  · rintro ⟨port, hentry⟩
    refine h.notMem_endpoint (c := '[') (by decide) (by decide) (by decide) (by decide) s.listenPort ?_
    rw [hentry]
    exact List.mem_append_left _ List.mem_cons_self

theorem configuredPort_pos (s : Session) (live : Int) : 0 < s.configuredPort live := by
  unfold Session.configuredPort
  dsimp only
  split_ifs <;> omega

theorem configuredPort_eq_iff (s : Session) (live : Int) :
    s.configuredPort live = s.listenPort ↔ 0 < s.listenPort := by
  constructor
  · intro h
    have := configuredPort_pos s live
    omega
  · intro h
    simp only [Session.configuredPort, if_pos h]

theorem setOutgoingInterface_applied (h : s.vpnProxyPort = 0) (name : Text) (live : Int) :
    (s.setOutgoingInterface adapters name live).applied.listenInterfaces =
      endpoint (addressOf adapters name) (s.configuredPort live) := by
  unfold Session.setOutgoingInterface addressOf
  dsimp only
  rw [if_neg (by omega)]
  split_ifs <;> rfl

-- The binding is a matter of these fields only.
theorem bound_congr {s' : Session} (hport : s'.vpnProxyPort = s.vpnProxyPort)
    (hlisten : s'.applied.listenInterfaces = s.applied.listenInterfaces)
    (hiface : s'.outgoingInterface = s.outgoingInterface) (hsaved : s'.listenPort = s.listenPort)
    (hforce : s'.forceIpv4 = s.forceIpv4) : Bound adapters s' ↔ Bound adapters s := by
  unfold Bound
  rw [hport, hiface, boundTo_iff (plain_addressOf _ _), boundTo_iff (plain_addressOf _ _), hlisten,
    hsaved, hforce]

theorem Bound.congr (h : Bound adapters s) {s' : Session} (hport : s'.vpnProxyPort = s.vpnProxyPort)
    (hlisten : s'.applied.listenInterfaces = s.applied.listenInterfaces)
    (hiface : s'.outgoingInterface = s.outgoingInterface) (hsaved : s'.listenPort = s.listenPort)
    (hforce : s'.forceIpv4 = s.forceIpv4) : Bound adapters s' :=
  (bound_congr hport hlisten hiface hsaved hforce).mpr h

theorem buildProxySettings_listenInterfaces (a : Settings) (type : Int) (host : Text) (port : Int)
    (user pass : Text) (leakProof anonymousMode : Bool) :
    (a.apply (buildProxySettings type host port user pass leakProof anonymousMode)).listenInterfaces =
      a.listenInterfaces := by
  unfold buildProxySettings
  split_ifs <;> simp [Settings.set]

theorem set_announcePort_listenInterfaces (a : Settings) (port : Int) :
    (a.set (.announcePort port)).listenInterfaces = a.listenInterfaces := rfl

theorem set_outgoingInterfaces_listenInterfaces (a : Settings) (names : Text) :
    (a.set (.outgoingInterfaces names)).listenInterfaces = a.listenInterfaces := rfl

theorem applyProxy_listenInterfaces (s : Session) :
    s.applyProxy.applied.listenInterfaces = s.applied.listenInterfaces := by
  unfold Session.applyProxy ProxyController.settings
  split_ifs
  · simp only [apply_applied, settings_apply_append, settings_apply_cons, settings_apply_nil,
      set_announcePort_listenInterfaces, buildProxySettings_listenInterfaces]
  · simp only [apply_applied, settings_apply_append, settings_apply_cons, settings_apply_nil,
      set_announcePort_listenInterfaces, set_outgoingInterfaces_listenInterfaces,
      buildProxySettings_listenInterfaces]

theorem applyProxy_outgoingInterface (s : Session) :
    s.applyProxy.outgoingInterface = s.outgoingInterface := by
  unfold Session.applyProxy
  split_ifs <;> rfl

theorem applyProxy_listenPort (s : Session) : s.applyProxy.listenPort = s.listenPort := by
  unfold Session.applyProxy
  split_ifs <;> rfl

theorem applyProxy_forceIpv4 (s : Session) : s.applyProxy.forceIpv4 = s.forceIpv4 := by
  unfold Session.applyProxy
  split_ifs <;> rfl

theorem bound_applyProxy_iff : Bound adapters s.applyProxy ↔ Bound adapters s :=
  bound_congr (applyProxy_vpnProxyPort s) (applyProxy_listenInterfaces s)
    (applyProxy_outgoingInterface s) (applyProxy_listenPort s) (applyProxy_forceIpv4 s)

theorem bound_setOutgoingInterface_iff (name : Text) (live : Int) :
    Bound adapters (s.setOutgoingInterface adapters name live) ↔
      (s.vpnProxyPort = 0 →
        0 < s.listenPort ∧ (addressOf adapters name ≠ anyAddress ∨ s.forceIpv4 = true)) := by
  have hfields : (s.setOutgoingInterface adapters name live).listenPort = s.listenPort ∧
      (s.setOutgoingInterface adapters name live).forceIpv4 = s.forceIpv4 ∧
        (s.setOutgoingInterface adapters name live).outgoingInterface = name := by
    unfold Session.setOutgoingInterface
    dsimp only
    split_ifs <;> exact ⟨rfl, rfl, rfl⟩
  obtain ⟨hsaved, hforce, hname⟩ := hfields
  unfold Bound
  rw [setOutgoingInterface_vpnProxyPort, hname]
  refine forall_congr' fun hoff => ?_
  rw [boundTo_iff (plain_addressOf _ _), setOutgoingInterface_applied hoff, hsaved, hforce,
    endpoint_eq_listenInterfaces_iff (plain_addressOf _ _) (plain_addressOf _ _),
    configuredPort_eq_iff]
  exact and_iff_right rfl

theorem bound_setListenPort_iff (port : Int) :
    Bound adapters (s.setListenPort adapters port) ↔
      (s.vpnProxyPort = 0 →
        addressByName adapters s.outgoingInterface = addressOf adapters s.outgoingInterface) := by
  refine forall_congr' fun _ => ?_
  rw [boundTo_iff (plain_addressOf _ _)]
  show listenInterfaces (addressByName adapters s.outgoingInterface) port s.forceIpv4 =
    listenInterfaces (addressOf adapters s.outgoingInterface) port s.forceIpv4 ↔ _
  constructor
  · exact fun h => (listenInterfaces_inj (plain_addressByName _ _) (plain_addressOf _ _) h).1
  · exact fun h => by rw [h]

theorem bound_setForceIpv4_iff (enabled : Bool) (live : Int) :
    Bound adapters (s.setForceIpv4 enabled live) ↔
      (s.vpnProxyPort = 0 →
        0 < s.listenPort ∧ addressOf adapters s.outgoingInterface = anyAddress) := by
  refine forall_congr' fun _ => ?_
  rw [boundTo_iff (plain_addressOf _ _)]
  have happlied : (s.setForceIpv4 enabled live).applied.listenInterfaces =
      listenInterfaces anyAddress (s.configuredPort live) enabled := by
    cases enabled <;> rfl
  show (s.setForceIpv4 enabled live).applied.listenInterfaces =
    listenInterfaces (addressOf adapters s.outgoingInterface) s.listenPort enabled ↔ _
  rw [happlied]
  constructor
  · intro h
    obtain ⟨haddress, hport⟩ := listenInterfaces_inj plain_anyAddress (plain_addressOf _ _) h
    exact ⟨(configuredPort_eq_iff s live).mp hport, haddress.symm⟩
  · rintro ⟨hport, haddress⟩
    rw [haddress, (configuredPort_eq_iff s live).mpr hport]

theorem bound_setVpnProxy_iff (h : Bound adapters s) (port : Int) (user pass : Text) (live : Int) :
    Bound adapters (s.setVpnProxy adapters port user pass live) ↔
      (0 < s.vpnProxyPort → port ≤ 0 → 0 < s.listenPort ∧
        (addressOf adapters s.outgoingInterface ≠ anyAddress ∨ s.forceIpv4 = true)) := by
  have hport : (s.withVpnProxy port user pass).applyProxy.vpnProxyPort = port.toNat :=
    applyProxy_vpnProxyPort _
  unfold Session.setVpnProxy
  dsimp only
  rw [hport]
  split_ifs with hlifted
  · rw [bound_setOutgoingInterface_iff, hport, applyProxy_outgoingInterface, applyProxy_listenPort,
      applyProxy_forceIpv4]
    constructor
    · exact fun h' _ _ => h' hlifted.2
    · exact fun h' _ => h' hlifted.1 (Int.toNat_eq_zero.mp hlifted.2)
  · rw [bound_applyProxy_iff]
    refine iff_of_true ?_ fun hon hoff => absurd ⟨hon, Int.toNat_eq_zero.mpr hoff⟩ hlifted
    intro hoff
    have hwas : s.vpnProxyPort = 0 := by
      have hoff' : port.toNat = 0 := hoff
      omega
    exact (boundTo_iff (plain_addressOf _ _)).mpr (h hwas).listens

theorem bound_step_iff (h : Bound adapters s) (e : Event) :
    Bound adapters (step adapters s e) ↔ KeepsBinding adapters s e := by
  cases e with
  | setProxySettings type host port user pass => exact iff_of_true (bound_applyProxy_iff.mpr (h.congr rfl rfl rfl rfl rfl)) trivial
  | setProxyLeakProof enabled => exact iff_of_true (bound_applyProxy_iff.mpr (h.congr rfl rfl rfl rfl rfl)) trivial
  | setAnonymousMode enabled => exact iff_of_true (h.congr rfl rfl rfl rfl rfl) trivial
  | setPtMode enabled => exact iff_of_true (h.congr rfl rfl rfl rfl rfl) trivial
  | setDhtEnabled enabled => exact iff_of_true (h.congr rfl rfl rfl rfl rfl) trivial
  | setOutgoingInterface name live => exact bound_setOutgoingInterface_iff name live
  | setListenPort port => exact bound_setListenPort_iff port
  | setForceIpv4 enabled live => exact bound_setForceIpv4_iff enabled live
  | retryPortMapping =>
      refine iff_of_true ?_ trivial
      unfold step Session.retryPortMapping
      dsimp only
      split_ifs
      · exact h
      · exact h.congr rfl rfl rfl rfl rfl
  | setVpnAnnouncePort port =>
      refine iff_of_true ?_ trivial
      unfold step Session.setVpnAnnouncePort
      dsimp only
      split_ifs
      · exact h
      · exact h.congr rfl rfl rfl rfl rfl
      · exact h.congr rfl rfl rfl rfl rfl
  | setVpnProxy port user pass live => exact bound_setVpnProxy_iff h port user pass live

section Start

variable {saved : Saved}

theorem replayModes_unbound (s : Session) (live : Int) :
    (s.replayModes live).outgoingInterface = s.outgoingInterface ∧
      (s.replayModes live).vpnProxyPort = s.vpnProxyPort := by
  unfold Session.replayModes
  dsimp only
  split_ifs <;> exact ⟨rfl, rfl⟩

theorem replayDht_unbound (s : Session) (saved : Saved) :
    (s.replayDht saved).outgoingInterface = s.outgoingInterface ∧
      (s.replayDht saved).vpnProxyPort = s.vpnProxyPort := by
  unfold Session.replayDht
  cases saved.dhtEnabled <;> exact ⟨rfl, rfl⟩

theorem setOutgoingInterface_outgoingInterface (s : Session) (name : Text) (live : Int) :
    (s.setOutgoingInterface adapters name live).outgoingInterface = name := by
  unfold Session.setOutgoingInterface
  dsimp only
  split_ifs <;> rfl

-- The saved port is set last, over the saved adapter.
theorem bound_replayBinding_iff (saved : Saved) (hiface : s.outgoingInterface = [])
    (hoff : s.vpnProxyPort = 0) (rolled live : Int) :
    (s.replayBinding adapters saved rolled live).vpnProxyPort = 0 ∧
      (Bound adapters (s.replayBinding adapters saved rolled live) ↔
        addressByName adapters saved.outgoingInterface =
          addressOf adapters saved.outgoingInterface) := by
  unfold Session.replayBinding
  dsimp only
  generalize (if saved.listenPort ≤ 0 ∨ saved.randomPort = true then rolled
    else saved.listenPort) = port
  rw [bound_setListenPort_iff]
  by_cases hchosen : saved.outgoingInterface ≠ []
  · rw [if_pos hchosen, setOutgoingInterface_outgoingInterface]
    have hstill : (s.setOutgoingInterface adapters saved.outgoingInterface live).vpnProxyPort = 0 :=
      (setOutgoingInterface_vpnProxyPort s saved.outgoingInterface live).trans hoff
    exact ⟨hstill, ⟨fun h => h hstill, fun h _ => h⟩⟩
  · rw [if_neg hchosen, hiface, not_not.mp hchosen]
    exact ⟨hoff, ⟨fun h => h hoff, fun h _ => h⟩⟩

theorem bound_replayProxy_iff :
    Bound adapters (s.replayProxy saved) ↔
      (¬ (saved.vpnHold = true ∧ saved.killSwitchEnabled = true) → Bound adapters s) := by
  have hproxy : Bound adapters (s.replayProxy saved) ↔ Bound adapters (s.loadProxy saved) := by
    unfold Session.replayProxy
    dsimp only
    split_ifs
    · exact bound_applyProxy_iff
    · exact Iff.rfl
  rw [hproxy]
  by_cases hhold : saved.vpnHold = true ∧ saved.killSwitchEnabled = true
  · refine iff_of_true (fun hzero => ?_) fun h => absurd hhold h
    simp [Session.loadProxy, hhold] at hzero
  · have hsame : (s.loadProxy saved).vpnProxyPort = s.vpnProxyPort := by
      simp [Session.loadProxy, hhold]
    rw [bound_congr hsame rfl rfl rfl rfl]
    exact ⟨fun h _ => h, fun h => h hhold⟩

theorem bound_create_iff (defaults : Settings) (rolled live : Int) :
    Bound adapters (create adapters defaults saved rolled live) ↔ StartsBound adapters saved := by
  obtain ⟨hiface, hoff⟩ := replayModes_unbound (start defaults saved) live
  obtain ⟨hiface', hoff'⟩ :=
    replayDht_unbound ((start defaults saved).replayModes live) saved
  obtain ⟨hoff, hbound⟩ := bound_replayBinding_iff saved
    (hiface'.trans hiface) (hoff'.trans hoff) rolled live
  unfold create StartsBound
  rw [bound_replayProxy_iff, hbound]

end Start

-- The session listens where the settings say just when no setter's own view differs from them.
theorem run_bound_iff {defaults : Settings} {saved : Saved} {rolled live : Int}
    {past : List (Reaction Session Event Out)} {s : Session}
    (hrun : (machine adapters defaults saved rolled live).Run (fun _ _ => True) past s) :
    (∀ t ∈ Machine.visited past s, Bound adapters t) ↔
      StartsBound adapters saved ∧ ∀ r ∈ past, KeepsBinding adapters r.before r.event := by
  refine hrun.forall_visited_iff (bound_create_iff defaults rolled live)
    fun _ s e s' out _ h hn => ?_
  obtain ⟨rfl, -⟩ := Prod.mk.inj (Option.some.inj hn)
  exact bound_step_iff h e

def tunAddress : Ipv4 where
  text := ['1', '0', '.', '2', '.', '0', '.', '2']
  plain := plain_of_all (by decide)
  specified := by decide

-- A tunnel that is known by its friendly name.
def tun : Adapter where
  name := ['i', '7']
  humanReadableName := ['w', 'g']
  addresses := [tunAddress]

-- The tunnel is chosen by its internal name, then the port is changed.
theorem run_bound_byName : ∃ past s,
    (machine [tun] plain unset 50000 0).Run (fun _ _ => True) past s ∧
      s.applied.listenInterfaces = endpoint tunAddress.text 50001 ∧
        ∀ t ∈ Machine.visited past s, Bound [tun] t := by
  have hstart : (machine [tun] plain unset 50000 0).Run (fun _ _ => True) [] _ := .init
  have hchosen := hstart.extend (.setOutgoingInterface ['i', '7'] 50000) trivial rfl
  have hmoved := hchosen.extend (.setListenPort 50001) trivial rfl
  refine ⟨_, _, hmoved, by decide, (run_bound_iff hmoved).mpr ⟨fun _ => rfl, ?_⟩⟩
  simp only [List.forall_mem_cons]
  exact ⟨fun _ => rfl, fun _ => ⟨by decide, .inl (by decide)⟩, fun r hr => nomatch hr⟩

-- The tunnel is chosen by its friendly name, which the port's setter does not know.
theorem run_not_bound : ∃ past s,
    (machine [tun] plain unset 50000 0).Run (fun _ _ => True) past s ∧
      ∃ t ∈ Machine.visited past s, ¬ Bound [tun] t := by
  have hstart : (machine [tun] plain unset 50000 0).Run (fun _ _ => True) [] _ := .init
  have hchosen := hstart.extend (.setOutgoingInterface ['w', 'g'] 50000) trivial rfl
  have hmoved := hchosen.extend (.setListenPort 50001) trivial rfl
  refine ⟨_, _, hmoved, _, List.mem_cons_self, fun h => ?_⟩
  exact absurd (h rfl).listens (by decide)

end Binding

end BATorrent.NetworkSettings
