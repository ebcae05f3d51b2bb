import BATorrent.Torrent.NetworkSettings

namespace BATorrent.Vpn

open Lib
open NetworkSettings (Text Adapter Session Saved Settings create)

section State

inductive State where
  | disconnected
  | connecting
  | connected
  | failed
deriving DecidableEq

-- The tunnel is a child process that says on its output what happens.
structure Tunnel where
  proc : Bool
  ready : Bool
  stopping : Bool
  error : Text
  final : Bool
  fwd : Int
  port : Int
  user : Text
  pass : Text
  ip : Text

structure Socks where
  port : Int
  user : Text
  pass : Text

def Tunnel.socks (t : Tunnel) : Option Socks :=
  if t.ready then some ⟨t.port, t.user, t.pass⟩ else none

-- What the tunnel will signal on the next turns of the event loop.
inductive Deferred where
  | failed (why : Text)
  | disconnected
deriving DecidableEq

structure Profile where
  id : Text
  named : id ≠ []

-- The app with its engine. An empty activeId or retryId is none.
structure App where
  state : State
  activeId : Text
  iface : Text
  error : Text
  userDown : Bool
  keepUp : Bool
  retries : Nat
  retryTimer : Option Nat
  retryId : Text
  fwdPort : Int
  profiles : List Profile
  tunnel : Tunnel
  deferred : List Deferred
  startTimer : Bool
  vpnHold : Bool
  vpnLastProfileId : Text
  engine : Session

-- What the user has set. `index` lists the profiles, each with whether its file is there.
structure Env where
  adapters : List Adapter
  defaults : Settings
  saved : Saved
  rolled : Int
  live : Int
  index : List (Text × Bool)
  vpnLastProfileId : Text
  vpnAutoConnect : Bool
  helper : Bool

inductive Conf where
  | missing
  | invalid (why : Text)
  | valid

-- What a connect finds: the profile's file, then the helper and the file again.
structure Disk where
  conf : Conf
  helper : Bool
  readable : Bool

inductive Code where
  | conf
  | server
  | handshake
  | traffic
  | other
deriving DecidableEq

-- A line of the helper's output.
inductive Line where
  | ready (port : Int) (user pass ip : Text)
  | fwd (port : Int)
  | error (code : Code) (detail : Text)
  | stale

def describeError (code : Code) (detail : Text) : Text :=
  match code with
  | .conf => "The config file is not valid: ".toList ++ detail
  | .server => "Could not reach the VPN server: ".toList ++ detail
  | .handshake =>
      "The VPN server did not answer. The config may be expired or the server down.".toList
  | .traffic => "The VPN server answered, but nothing passes through it.".toList
  | .other => if detail ≠ [] then detail else "The VPN stopped.".toList

end State

namespace App

variable (env : Env)

section Wiring

def sendProxy (v : App) (port : Int) (user pass : Text) : App :=
  { v with engine := v.engine.setVpnProxy env.adapters port user pass env.live }

def announce (v : App) (port : Int) : App :=
  { v with engine := v.engine.setVpnAnnouncePort port }

def interfaceUp (v : App) : App :=
  match v.tunnel.socks with
  | none => v
  | some socks =>
      if socks.port ≤ 0 then v
      else
        let v := v.sendProxy env socks.port socks.user socks.pass
        let v := if 0 < v.fwdPort then v.announce v.fwdPort else v
        { v with vpnHold := true }

def forwardedPortChanged (v : App) : App :=
  if v.state = .connected then v.announce v.fwdPort else v

def interfaceDown (v : App) (deliberate : Bool) : App :=
  if ¬ deliberate ∧ env.saved.killSwitchEnabled then v.sendProxy env 1 [] []
  else { v.sendProxy env 0 [] [] with vpnHold := false }

def holdOrLift (v : App) : App :=
  v.sendProxy env (if v.vpnHold ∧ env.saved.killSwitchEnabled then 1 else 0) [] []

def resync (v : App) : App :=
  match v.tunnel.socks with
  | none => v.holdOrLift env
  | some socks =>
      if v.state = .connected ∧ 0 < socks.port then
        let v := v.sendProxy env socks.port socks.user socks.pass
        if 0 < v.fwdPort then v.announce v.fwdPort else v
      else v.holdOrLift env

-- What is sent while no engine runs is lost: the new one starts from the settings alone.
def restart (v : App) : App :=
  { v with
    engine :=
      create env.adapters env.defaults { env.saved with vpnHold := v.vpnHold } env.rolled env.live }

end Wiring

section Handlers

-- Seconds.
def retryDelay (retries : Nat) : Nat := [5, 10, 30, 60].getD retries 120

def scheduleRetry (v : App) : App :=
  { v with retries := v.retries + 1, retryTimer := some (retryDelay v.retries) }

def stopRetry (v : App) : App := { v with retryTimer := none }

def down (v : App) : App :=
  if v.tunnel.proc then { v with tunnel := { v.tunnel with stopping := true } }
  else { v with deferred := v.deferred ++ [.disconnected] }

-- A bring-up that nobody waits for any more is torn down.
def connected (v : App) (iface : Text) : App :=
  if v.state ≠ .connecting then v.down
  else
    let v := { v with iface := iface, keepUp := true, retries := 0 }.stopRetry
    { v with state := .connected }.interfaceUp env

def disconnected (v : App) : App :=
  { v with iface := [], state := .disconnected, userDown := false }.interfaceDown env v.userDown

def failed (v : App) (why : Text) : App :=
  let v := { v with error := why, iface := [] }
  let v := if v.keepUp ∧ ¬ v.tunnel.final then v.scheduleRetry else v
  { v with state := .failed, userDown := false }.interfaceDown env false

def forwardedPort (v : App) (port : Int) : App :=
  if v.fwdPort = port then v else { v with fwdPort := port }.forwardedPortChanged

end Handlers

section Tunnel

def up (v : App) (disk : Disk) : App :=
  if v.tunnel.proc then v
  else if ¬ disk.helper then
    { v with
      tunnel := { v.tunnel with final := true }
      deferred :=
        v.deferred ++ [.failed "The VPN component is missing from this install.".toList] }
  else if ¬ disk.readable then
    { v with
      tunnel := { v.tunnel with final := true }
      deferred := v.deferred ++ [.failed "config missing on disk".toList] }
  else
    { v with
      tunnel :=
        { v.tunnel with
          proc := true
          ready := false
          stopping := false
          error := []
          final := false } }

def readEvent (v : App) : Line → App
  | .ready port user pass ip =>
      let v :=
        { v with
          tunnel :=
            { v.tunnel with
              port := port
              user := user
              pass := pass
              ip := ip
              ready := decide (0 < port) } }
      if v.tunnel.ready ∧ ¬ v.tunnel.stopping then v.connected env ("WireGuard · ".toList ++ ip)
      else v
  | .fwd port =>
      let v := { v with tunnel := { v.tunnel with fwd := port } }
      if v.tunnel.ready then v.forwardedPort port else v
  | .error code detail =>
      { v with
        tunnel :=
          { v.tunnel with
            final := decide (code = .conf)
            error := describeError code detail } }
  | .stale =>
      { v with tunnel := { v.tunnel with error := "The VPN server stopped answering.".toList } }

def finish (v : App) (error : Text) : App :=
  let wasStopping := v.tunnel.stopping
  let lost := v.tunnel.fwd ≠ 0
  let v :=
    { v with
      tunnel :=
        { v.tunnel with
          proc := false
          ready := false
          stopping := false
          port := 0
          user := []
          pass := []
          fwd := 0 } }
  let v := if lost then v.forwardedPort 0 else v
  if wasStopping then v.disconnected env else v.failed env error

def finished (v : App) : App :=
  v.finish env
    (if v.tunnel.error = [] then
      if v.tunnel.ready then "The VPN stopped.".toList
      else "The VPN component quit before connecting.".toList
    else v.tunnel.error)

end Tunnel

section Manager

def knows (v : App) (id : Text) : Bool := v.profiles.any (·.id = id)

def connectProfile (v : App) (id : Text) (disk : Disk) : App :=
  if v.state = .connecting ∨ v.state = .connected then v
  else
    let v := { v.stopRetry with retryId := id }
    if ¬ v.knows id then { v with error := "unknown profile".toList, state := .failed }
    else
      match disk.conf with
      | .missing => { v with error := "config missing on disk".toList, state := .failed }
      | .invalid why => { v with error := why, state := .failed }
      | .valid =>
          { v with
            activeId := id
            error := []
            vpnLastProfileId := id
            state := .connecting }.up disk

def connectLastUsed (v : App) (disk : Disk) : App :=
  if v.vpnLastProfileId = [] ∨ ¬ v.knows v.vpnLastProfileId then v
  else { v with keepUp := true }.connectProfile v.vpnLastProfileId disk

def disconnectVpn (v : App) : App :=
  let v := { v with keepUp := false, retries := 0 }.stopRetry
  if v.state = .disconnected then v
  else
    let v := { v with activeId := [], userDown := true }.down
    if v.state = .failed then
      { v with iface := [], state := .disconnected }.interfaceDown env true
    else v

def removeProfile (v : App) (id : Text) : App :=
  if ¬ v.knows id then v
  else
    let v := if v.activeId = id then v.disconnectVpn env else v
    { v with profiles := v.profiles.eraseP (·.id = id) }

def retry (v : App) (disk : Disk) : App :=
  let v := { v with retryTimer := none }
  if v.keepUp ∧ (v.state = .failed ∨ v.state = .disconnected) ∧ v.knows v.retryId then
    v.connectProfile v.retryId disk
  else v

end Manager

end App

section Machine

-- Entries without an id or whose file vanished are dropped.
def load (index : List (Text × Bool)) : List Profile :=
  index.filterMap fun p => if h : p.1 ≠ [] ∧ p.2 = true then some ⟨p.1, h.1⟩ else none

variable (env : Env)

def launch : App where
  state := .disconnected
  activeId := []
  iface := []
  error := []
  userDown := false
  keepUp := false
  retries := 0
  retryTimer := none
  retryId := []
  fwdPort := 0
  profiles := load env.index
  tunnel := ⟨false, false, false, [], false, 0, 0, [], [], []⟩
  deferred := []
  startTimer := false
  vpnHold := env.saved.vpnHold
  vpnLastProfileId := env.vpnLastProfileId
  engine := create env.adapters env.defaults env.saved env.rolled env.live

-- Held for a VPN that can no longer come back, the torrents are let go.
def wireSocks (v : App) : App :=
  let known := v.knows v.vpnLastProfileId
  if v.vpnHold ∧ (¬ known ∨ ¬ env.helper) then { v.sendProxy env 0 [] [] with vpnHold := false }
  else { v with startTimer := known && env.helper && (v.vpnHold || env.vpnAutoConnect) }

inductive Event where
  | connectProfile (id : Text) (disk : Disk)
  | connectLastUsed (disk : Disk)
  | disconnectVpn
  | removeProfile (id : Text)
  | line (line : Line)
  | tooLong
  | failedToStart
  | finished
  | deliver (i : Nat)
  | retry (disk : Disk)
  | startTimer (disk : Disk)
  | restart
  | resync

def deliver (v : App) : Deferred → App
  | .failed why => v.failed env why
  | .disconnected => v.disconnected env

abbrev Out := Empty

def step (v : App) : Event → Option App
  | .connectProfile id disk => some (v.connectProfile id disk)
  | .connectLastUsed disk => some (v.connectLastUsed disk)
  | .disconnectVpn => some (v.disconnectVpn env)
  | .removeProfile id => some (v.removeProfile env id)
  | .line line => if v.tunnel.proc then some (v.readEvent env line) else none
  | .tooLong =>
      if v.tunnel.proc ∧ ¬ v.tunnel.ready ∧ ¬ v.tunnel.stopping then
        some { v with
          tunnel := { v.tunnel with error := "The VPN took too long to connect.".toList } }
      else none
  | .failedToStart =>
      if v.tunnel.proc then some (v.finish env "The VPN component could not start.".toList)
      else none
  | .finished => if v.tunnel.proc then some (v.finished env) else none
  | .deliver i =>
      v.deferred[i]?.map fun signal => deliver env { v with deferred := v.deferred.eraseIdx i } signal
  | .retry disk => if v.retryTimer.isSome then some (v.retry disk) else none
  | .startTimer disk =>
      if v.startTimer then some ({ v with startTimer := false }.connectLastUsed disk) else none
  | .restart => some (v.restart env)
  | .resync => some (v.resync env)

def machine : Machine App Event Out where
  init := wireSocks env (launch env)
  next v e := (step env v e).map fun v => (v, [])

end Machine

section Cases

open NetworkSettings (plain unset)

def someId : Text := ['a']

-- One profile, and nothing else set.
def oneProfile : Env where
  adapters := []
  defaults := plain
  saved := unset
  rolled := 50000
  live := 0
  index := [(someId, true)]
  vpnLastProfileId := []
  vpnAutoConnect := false
  helper := true

def working : Disk where
  conf := .valid
  helper := true
  readable := true

end Cases

end BATorrent.Vpn
