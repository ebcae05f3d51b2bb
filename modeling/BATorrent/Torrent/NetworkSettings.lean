import BATorrent.Lib.Run
import BATorrent.Torrent.SessionConfig

namespace BATorrent.NetworkSettings

open Lib
open SessionConfig (anyAddress anyAddress6 endpoint listenInterfaces)

abbrev Text := List Char

section Pack

inductive ProxyType where
  | none
  | socks5
  | socks5Pw
  | http
  | httpPw
deriving DecidableEq

-- The settings of the libtorrent session that the network setters write.
structure Settings where
  enableDht : Bool
  enableLsd : Bool
  enableUpnp : Bool
  enableNatpmp : Bool
  anonymousMode : Bool
  announceToAllTrackers : Bool
  announceToAllTiers : Bool
  proxyType : ProxyType
  proxyHostname : Text
  proxyPort : Int
  proxyUsername : Text
  proxyPassword : Text
  proxyPeerConnections : Bool
  proxyTrackerConnections : Bool
  proxyHostnames : Bool
  outgoingInterfaces : Text
  listenInterfaces : Text
  announcePort : Int

inductive Setting where
  | enableDht (on : Bool)
  | enableLsd (on : Bool)
  | enableUpnp (on : Bool)
  | enableNatpmp (on : Bool)
  | anonymousMode (on : Bool)
  | announceToAllTrackers (on : Bool)
  | announceToAllTiers (on : Bool)
  | proxyType (type : ProxyType)
  | proxyHostname (host : Text)
  | proxyPort (port : Int)
  | proxyUsername (user : Text)
  | proxyPassword (pass : Text)
  | proxyPeerConnections (on : Bool)
  | proxyTrackerConnections (on : Bool)
  | proxyHostnames (on : Bool)
  | outgoingInterfaces (names : Text)
  | listenInterfaces (ifaces : Text)
  | announcePort (port : Int)

def Settings.set (s : Settings) : Setting → Settings
  | .enableDht on => { s with enableDht := on }
  | .enableLsd on => { s with enableLsd := on }
  | .enableUpnp on => { s with enableUpnp := on }
  | .enableNatpmp on => { s with enableNatpmp := on }
  | .anonymousMode on => { s with anonymousMode := on }
  | .announceToAllTrackers on => { s with announceToAllTrackers := on }
  | .announceToAllTiers on => { s with announceToAllTiers := on }
  | .proxyType type => { s with proxyType := type }
  | .proxyHostname host => { s with proxyHostname := host }
  | .proxyPort port => { s with proxyPort := port }
  | .proxyUsername user => { s with proxyUsername := user }
  | .proxyPassword pass => { s with proxyPassword := pass }
  | .proxyPeerConnections on => { s with proxyPeerConnections := on }
  | .proxyTrackerConnections on => { s with proxyTrackerConnections := on }
  | .proxyHostnames on => { s with proxyHostnames := on }
  | .outgoingInterfaces names => { s with outgoingInterfaces := names }
  | .listenInterfaces ifaces => { s with listenInterfaces := ifaces }
  | .announcePort port => { s with announcePort := port }

abbrev Pack := List Setting

def Settings.apply (s : Settings) (pack : Pack) : Settings := pack.foldl Settings.set s

def startPack : Pack :=
  [.enableDht true, .enableLsd true, .enableUpnp true, .enableNatpmp true, .announceToAllTiers true]

end Pack

section Proxy

-- 0 is no proxy, 1 is SOCKS5, anything else HTTP.
def proxyTypeOf (type : Int) (user : Text) : ProxyType :=
  if user = [] then if type = 1 then .socks5 else .http
  else if type = 1 then .socks5Pw else .httpPw

def buildProxySettings (type : Int) (host : Text) (port : Int) (user pass : Text)
    (leakProof anonymousMode : Bool) : Pack :=
  if type = 0 then
    [.proxyType .none, .proxyPeerConnections false, .proxyTrackerConnections false,
      .proxyHostnames false, .enableUpnp true, .enableNatpmp true, .enableLsd true,
      .anonymousMode anonymousMode]
  else
    [.proxyType (proxyTypeOf type user), .proxyHostname host, .proxyPort port] ++
      (if user = [] then [] else [.proxyUsername user, .proxyPassword pass]) ++
      [.proxyPeerConnections true, .proxyTrackerConnections true, .proxyHostnames true] ++
      (if leakProof then
        [.enableUpnp false, .enableNatpmp false, .enableLsd false, .anonymousMode true]
      else [])

structure ProxyController where
  type : Int
  host : Text
  port : Int
  user : Text
  pass : Text
  leakProof : Bool

def ProxyController.settings (p : ProxyController) (anonymousMode : Bool) : Pack :=
  buildProxySettings p.type p.host p.port p.user p.pass p.leakProof anonymousMode

def localhost : Text := ['1', '2', '7', '.', '0', '.', '0', '.', '1']

end Proxy

section Adapters

-- The text of an address that an adapter has.
structure Ipv4 where
  text : Text
  plain : ∀ c ∈ text, c.isDigit ∨ c = '.'
  specified : text ≠ anyAddress

structure Adapter where
  name : Text
  humanReadableName : Text
  addresses : List Ipv4

def Adapter.listenAddr (a : Option Adapter) : Text :=
  match a.bind fun a => a.addresses.head? with
  | some ip => ip.text
  | none => anyAddress

def interfaceFromName (adapters : List Adapter) (name : Text) : Option Adapter :=
  adapters.find? (·.name = name)

-- A tunnel is known by its friendly name only.
def resolve (adapters : List Adapter) (name : Text) : Option Adapter :=
  (interfaceFromName adapters name).or (adapters.find? (·.humanReadableName = name))

end Adapters

section Session

-- `listenPort` is the saved port, zero or less if there is none.
structure Session where
  applied : Settings
  outgoingInterface : Text
  vpnProxyPort : Nat
  vpnProxyUser : Text
  vpnProxyPass : Text
  vpnAnnouncePort : Int
  proxy : ProxyController
  anonymousMode : Bool
  ptMode : Bool
  forceIpv4 : Bool
  dhtEnabled : Bool
  listenPort : Int

variable (adapters : List Adapter)

namespace Session

def apply (s : Session) (pack : Pack) : Session := { s with applied := s.applied.apply pack }

-- `live` is the port the session listens on at the moment.
def configuredPort (s : Session) (live : Int) : Int :=
  let port := if 0 < s.listenPort then s.listenPort else live
  if 0 < port then port else 6881

def setOutgoingInterface (s : Session) (name : Text) (live : Int) : Session :=
  let s := { s with outgoingInterface := name }
  if 0 < s.vpnProxyPort then s
  else if name = [] then
    s.apply [.outgoingInterfaces [], .listenInterfaces (endpoint anyAddress (s.configuredPort live))]
  else
    s.apply [.outgoingInterfaces name,
      .listenInterfaces (endpoint (Adapter.listenAddr (resolve adapters name)) (s.configuredPort live))]

def setListenPort (s : Session) (port : Int) : Session :=
  let listenAddr :=
    if s.outgoingInterface = [] then anyAddress
    else Adapter.listenAddr (interfaceFromName adapters s.outgoingInterface)
  { s.apply [.listenInterfaces (listenInterfaces listenAddr port s.forceIpv4)] with
    listenPort := port }

def setDhtEnabled (s : Session) (enabled : Bool) : Session :=
  { s with dhtEnabled := enabled }.apply [.enableDht enabled]

def setAnonymousMode (s : Session) (enabled : Bool) : Session :=
  { s with anonymousMode := enabled }.apply [.anonymousMode enabled]

def setForceIpv4 (s : Session) (enabled : Bool) (live : Int) : Session :=
  let port := s.configuredPort live
  { s with forceIpv4 := enabled }.apply
    [.listenInterfaces (if enabled then endpoint anyAddress port
      else endpoint anyAddress port ++ ',' :: endpoint anyAddress6 port)]

def setPtMode (s : Session) (enabled : Bool) : Session :=
  { s with ptMode := enabled }.apply
    [.enableDht (!enabled && s.dhtEnabled), .enableLsd (!enabled), .announceToAllTrackers enabled,
      .announceToAllTiers true, .anonymousMode (enabled || s.anonymousMode)]

-- A proxy keeps both off on purpose.
def retryPortMapping (s : Session) : Session :=
  if s.proxy.type ≠ 0 then s
  else
    (s.apply [.enableUpnp false, .enableNatpmp false]).apply [.enableUpnp true, .enableNatpmp true]

def applyProxy (s : Session) : Session :=
  if s.vpnProxyPort = 0 then s.apply (s.proxy.settings s.anonymousMode ++ [.announcePort 0])
  else
    s.apply (buildProxySettings 1 localhost s.vpnProxyPort s.vpnProxyUser s.vpnProxyPass true
      s.anonymousMode ++ [.outgoingInterfaces [], .announcePort s.vpnAnnouncePort])

def setProxySettings (s : Session) (type : Int) (host : Text) (port : Int) (user pass : Text) :
    Session :=
  { s with
    proxy :=
      { s.proxy with
        type := type
        host := host
        port := port
        user := user
        pass := pass } }.applyProxy

def setProxyLeakProof (s : Session) (enabled : Bool) : Session :=
  { s with proxy := { s.proxy with leakProof := enabled } }.applyProxy

def setVpnAnnouncePort (s : Session) (port : Int) : Session :=
  let port := max 0 (min port 65535)
  if port = s.vpnAnnouncePort then s
  else
    let s := { s with vpnAnnouncePort := port }
    if s.vpnProxyPort ≤ 1 then s else s.apply [.announcePort port]

-- Port 1 is a proxy that is not there. A forwarded port is gone with the tunnel that had it.
def withVpnProxy (s : Session) (port : Int) (user pass : Text) : Session :=
  { s with
    vpnProxyPort := port.toNat
    vpnAnnouncePort := if port.toNat ≤ 1 then 0 else s.vpnAnnouncePort
    vpnProxyUser := user
    vpnProxyPass := pass }

def setVpnProxy (s : Session) (port : Int) (user pass : Text) (live : Int) : Session :=
  let s' := (s.withVpnProxy port user pass).applyProxy
  if 0 < s.vpnProxyPort ∧ s'.vpnProxyPort = 0 then
    s'.setOutgoingInterface adapters s'.outgoingInterface live
  else s'

end Session

-- What the constructor reads.
structure Saved where
  anonymousMode : Bool
  forceIpv4 : Bool
  ptMode : Bool
  dhtEnabled : Option Bool
  outgoingInterface : Text
  listenPort : Int
  randomPort : Bool
  proxy : ProxyController
  vpnHold : Bool
  killSwitchEnabled : Bool

-- `defaults` are the settings of a new session.
def start (defaults : Settings) (saved : Saved) : Session where
  applied := defaults.apply startPack
  outgoingInterface := []
  vpnProxyPort := 0
  vpnProxyUser := []
  vpnProxyPass := []
  vpnAnnouncePort := 0
  proxy := ⟨0, [], 0, [], [], true⟩
  anonymousMode := saved.anonymousMode
  ptMode := saved.ptMode
  forceIpv4 := saved.forceIpv4
  dhtEnabled := true
  listenPort := saved.listenPort

def Session.replayModes (s : Session) (live : Int) : Session :=
  let s := if s.anonymousMode then s.setAnonymousMode true else s
  let s := if s.forceIpv4 then s.setForceIpv4 true live else s
  if s.ptMode then s.setPtMode true else s

def Session.replayDht (s : Session) (saved : Saved) : Session :=
  match saved.dhtEnabled with
  | some enabled => s.setDhtEnabled enabled
  | none => s

-- `rolled` is the port drawn on a first run.
def Session.replayBinding (s : Session) (saved : Saved) (rolled live : Int) : Session :=
  let s := if saved.outgoingInterface ≠ [] then
    s.setOutgoingInterface adapters saved.outgoingInterface live else s
  s.setListenPort adapters (if saved.listenPort ≤ 0 ∨ saved.randomPort then rolled else saved.listenPort)

-- The VPN was on when the app last closed: nothing goes out until it is back.
def Session.loadProxy (s : Session) (saved : Saved) : Session :=
  { s with
    proxy := saved.proxy
    vpnProxyPort := if saved.vpnHold ∧ saved.killSwitchEnabled then 1 else s.vpnProxyPort }

def Session.replayProxy (s : Session) (saved : Saved) : Session :=
  let s := s.loadProxy saved
  if s.proxy.type ≠ 0 ∨ 0 < s.vpnProxyPort then s.applyProxy else s

-- The constructor.
def create (defaults : Settings) (saved : Saved) (rolled live : Int) : Session :=
  let s := ((start defaults saved).replayModes live).replayDht saved
  (s.replayBinding adapters saved rolled live).replayProxy saved

inductive Event where
  | setProxySettings (type : Int) (host : Text) (port : Int) (user pass : Text)
  | setProxyLeakProof (enabled : Bool)
  | setAnonymousMode (enabled : Bool)
  | setPtMode (enabled : Bool)
  | setDhtEnabled (enabled : Bool)
  | setOutgoingInterface (name : Text) (live : Int)
  | setListenPort (port : Int)
  | setForceIpv4 (enabled : Bool) (live : Int)
  | retryPortMapping
  | setVpnAnnouncePort (port : Int)
  | setVpnProxy (port : Int) (user pass : Text) (live : Int)

def step (s : Session) : Event → Session
  | .setProxySettings type host port user pass => s.setProxySettings type host port user pass
  | .setProxyLeakProof enabled => s.setProxyLeakProof enabled
  | .setAnonymousMode enabled => s.setAnonymousMode enabled
  | .setPtMode enabled => s.setPtMode enabled
  | .setDhtEnabled enabled => s.setDhtEnabled enabled
  | .setOutgoingInterface name live => s.setOutgoingInterface adapters name live
  | .setListenPort port => s.setListenPort adapters port
  | .setForceIpv4 enabled live => s.setForceIpv4 enabled live
  | .retryPortMapping => s.retryPortMapping
  | .setVpnAnnouncePort port => s.setVpnAnnouncePort port
  | .setVpnProxy port user pass live => s.setVpnProxy adapters port user pass live

abbrev Out := Empty

-- The adapters are those of the machine the session runs on.
def machine (defaults : Settings) (saved : Saved) (rolled live : Int) :
    Machine Session Event Out where
  init := create adapters defaults saved rolled live
  next s e := some (step adapters s e, [])

end Session

section Apply

variable {adapters : List Adapter}

@[simp] theorem apply_vpnProxyPort (s : Session) (pack : Pack) :
    (s.apply pack).vpnProxyPort = s.vpnProxyPort := rfl

@[simp] theorem apply_ptMode (s : Session) (pack : Pack) : (s.apply pack).ptMode = s.ptMode := rfl

@[simp] theorem apply_applied (s : Session) (pack : Pack) :
    (s.apply pack).applied = s.applied.apply pack := rfl

@[simp] theorem settings_apply_nil (a : Settings) : a.apply [] = a := rfl

@[simp] theorem settings_apply_cons (a : Settings) (x : Setting) (pack : Pack) :
    a.apply (x :: pack) = (a.set x).apply pack := rfl

@[simp] theorem settings_apply_append (a : Settings) (p q : Pack) :
    a.apply (p ++ q) = (a.apply p).apply q := List.foldl_append

@[simp] theorem applyProxy_vpnProxyPort (s : Session) :
    s.applyProxy.vpnProxyPort = s.vpnProxyPort := by
  unfold Session.applyProxy
  split_ifs <;> rfl

@[simp] theorem applyProxy_ptMode (s : Session) : s.applyProxy.ptMode = s.ptMode := by
  unfold Session.applyProxy
  split_ifs <;> rfl

@[simp] theorem setOutgoingInterface_vpnProxyPort (s : Session) (name : Text) (live : Int) :
    (s.setOutgoingInterface adapters name live).vpnProxyPort = s.vpnProxyPort := by
  unfold Session.setOutgoingInterface
  dsimp only
  split_ifs <;> rfl

-- Only the hold is there before the tunnel is.
theorem create_vpnProxyPort (defaults : Settings) (saved : Saved) (rolled live : Int) :
    (create adapters defaults saved rolled live).vpnProxyPort =
      if saved.vpnHold ∧ saved.killSwitchEnabled then 1 else 0 := by
  have hmodes : ((start defaults saved).replayModes live).vpnProxyPort = 0 := by
    unfold Session.replayModes
    dsimp only
    split_ifs <;> rfl
  have hdht : (((start defaults saved).replayModes live).replayDht saved).vpnProxyPort = 0 := by
    unfold Session.replayDht
    cases saved.dhtEnabled with
    | none => exact hmodes
    | some enabled => exact hmodes
  have hbinding (s : Session) :
      (s.replayBinding adapters saved rolled live).vpnProxyPort = s.vpnProxyPort := by
    by_cases hiface : saved.outgoingInterface ≠ []
    · simp [Session.replayBinding, Session.setListenPort, hiface]
    · simp [Session.replayBinding, Session.setListenPort, hiface]
  have hproxy (s : Session) : (s.replayProxy saved).vpnProxyPort = (s.loadProxy saved).vpnProxyPort := by
    unfold Session.replayProxy
    dsimp only
    split_ifs
    · exact applyProxy_vpnProxyPort _
    · rfl
  rw [create, hproxy, Session.loadProxy, hbinding, hdht]

end Apply

section Fresh

-- What a session has before it is told anything.
def plain : Settings where
  enableDht := true
  enableLsd := true
  enableUpnp := true
  enableNatpmp := true
  anonymousMode := false
  announceToAllTrackers := false
  announceToAllTiers := false
  proxyType := .none
  proxyHostname := []
  proxyPort := 0
  proxyUsername := []
  proxyPassword := []
  proxyPeerConnections := true
  proxyTrackerConnections := true
  proxyHostnames := true
  outgoingInterfaces := []
  listenInterfaces := listenInterfaces anyAddress 6881 false
  announcePort := 0

-- The settings of a first run.
def unset : Saved where
  anonymousMode := false
  forceIpv4 := false
  ptMode := false
  dhtEnabled := none
  outgoingInterface := []
  listenPort := 0
  randomPort := false
  proxy := ⟨0, [], 0, [], [], true⟩
  vpnHold := false
  killSwitchEnabled := true

end Fresh

end BATorrent.NetworkSettings
