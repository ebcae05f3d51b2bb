import Mathlib.Data.List.ModifyLast
import BATorrent.Lib.Ini

namespace BATorrent.Wireguard

open Lib.Text Lib.Ini

@[ext]
structure WgPeer where
  publicKey : Text := []
  presharedKey : Text := []
  endpoint : Text := []
  allowedIps : List Text := []
  persistentKeepalive : Int := 0
deriving DecidableEq

@[ext]
structure WgConfig where
  privateKey : Text := []
  addresses : List Text := []
  dns : List Text := []
  mtu : Int := 0
  peers : List WgPeer := []
  valid : Bool := false
  error : Text := []
deriving DecidableEq

-- What the Unicode tables of Qt say of characters past ASCII.
structure QtTables where
  isLetterOrNumber : Char → Bool
  toLower : Char → Text

def isLetterOrNumber (qt : QtTables) (c : Char) : Bool :=
  if c.toNat < 0x80 then c.isAlphanum else c.toNat < 0x10000 && qt.isLetterOrNumber c

def toLower (qt : QtTables) (t : Text) : Text :=
  t.flatMap fun c => if c.toNat < 0x80 then [c.toLower] else qt.toLower c

def wgList (v : Text) : List Text :=
  (((v.splitOn ',').filter (· ≠ [])).map trimmed).filter (· ≠ [])

def looksLikeWgKey (qt : QtTables) (k : Text) : Bool :=
  (utf16 k).length = 44 && k.getLast? = some '=' &&
    k.all fun c => isLetterOrNumber qt c || c = '+' || c = '/' || c = '='

inductive Place where
  | none
  | interface
  | peer
deriving DecidableEq

structure Parsing where
  cfg : WgConfig := {}
  place : Place := .none
  sawInterface : Bool := false
deriving DecidableEq

def setInterface (cfg : WgConfig) (e : Entry) : WgConfig :=
  if e.1 = "privatekey".toList then { cfg with privateKey := e.2 }
  else if e.1 = "address".toList then { cfg with addresses := wgList e.2 }
  else if e.1 = "dns".toList then { cfg with dns := wgList e.2 }
  else if e.1 = "mtu".toList then { cfg with mtu := toInt e.2 }
  else cfg

def setPeer (p : WgPeer) (e : Entry) : WgPeer :=
  if e.1 = "publickey".toList then { p with publicKey := e.2 }
  else if e.1 = "presharedkey".toList then { p with presharedKey := e.2 }
  else if e.1 = "endpoint".toList then { p with endpoint := e.2 }
  else if e.1 = "allowedips".toList then { p with allowedIps := wgList e.2 }
  else if e.1 = "persistentkeepalive".toList then { p with persistentKeepalive := toInt e.2 }
  else p

def enter (s : Parsing) (name : Text) : Parsing :=
  if name = "interface".toList then { s with place := .interface, sawInterface := true }
  else if name = "peer".toList then
    { s with place := .peer, cfg := { s.cfg with peers := s.cfg.peers ++ [{}] } }
  else { s with place := .none }

def assign (s : Parsing) (e : Entry) : Parsing :=
  if e.1 = [] then s
  else
    match s.place with
    | .interface => { s with cfg := setInterface s.cfg e }
    | .peer => { s with cfg := { s.cfg with peers := s.cfg.peers.modifyLast (setPeer · e) } }
    | .none => s

-- Only '#' starts a comment.
def readLine (qt : QtTables) (raw : Text) : Line := line (· = '#') (toLower qt) raw

def step (s : Parsing) : Line → Parsing
  | .blank => s
  | .header name => enter s name
  | .keyless => s
  | .pair key val => assign s (key, val)

def fail (cfg : WgConfig) (why : String) : WgConfig := { cfg with valid := false, error := why.toList }

def checkPeer (qt : QtTables) (p : WgPeer) : Option String :=
  if !looksLikeWgKey qt p.publicKey then some "a Peer is missing a valid PublicKey"
  else if p.endpoint = [] ∨ ':' ∉ p.endpoint then some "a Peer is missing a host:port Endpoint"
  else if p.allowedIps = [] then some "a Peer is missing AllowedIPs"
  else if p.presharedKey ≠ [] ∧ !looksLikeWgKey qt p.presharedKey then some "a Peer's PresharedKey is invalid"
  else none

def validate (qt : QtTables) (s : Parsing) : WgConfig :=
  let cfg := s.cfg
  if !s.sawInterface then fail cfg "missing [Interface] section"
  else if cfg.privateKey = [] then fail cfg "missing PrivateKey"
  else if !looksLikeWgKey qt cfg.privateKey then fail cfg "PrivateKey is not a valid WireGuard key"
  else if cfg.addresses = [] then fail cfg "missing interface Address"
  else if cfg.peers = [] then fail cfg "missing [Peer] section"
  else
    match cfg.peers.findSome? (checkPeer qt) with
    | some why => fail cfg why
    | none => { cfg with valid := true }

def lines (qt : QtTables) (text : Text) : List Line := (text.splitOn '\n').map (readLine qt)

def parseWireguardConfig (qt : QtTables) (text : Text) : WgConfig :=
  validate qt ((lines qt text).foldl step {})

theorem reads : Reads enter assign step where
  blank _ := rfl
  keyless _ := rfl
  header _ _ := rfl
  pair _ _ _ := rfl

section Fill

variable {cfg : WgConfig} {saw : Bool} {entries : List Entry}

theorem foldl_assign_none : entries.foldl assign ⟨cfg, .none, saw⟩ = ⟨cfg, .none, saw⟩ := by
  induction entries with
  | nil => rfl
  | cons e rest ih =>
      have he : assign ⟨cfg, .none, saw⟩ e = ⟨cfg, .none, saw⟩ := by
        unfold assign
        split_ifs <;> rfl
      rw [List.foldl_cons, he, ih]

-- An empty key names no setting.
theorem setInterface_nil (cfg : WgConfig) {e : Entry} (h : e.1 = []) : setInterface cfg e = cfg := by
  unfold setInterface
  rw [h]
  rfl

theorem setPeer_nil (p : WgPeer) {e : Entry} (h : e.1 = []) : setPeer p e = p := by
  unfold setPeer
  rw [h]
  rfl

theorem foldl_assign_interface :
    entries.foldl assign ⟨cfg, .interface, saw⟩ = ⟨entries.foldl setInterface cfg, .interface, saw⟩ := by
  induction entries generalizing cfg with
  | nil => rfl
  | cons e rest ih =>
      have he : assign ⟨cfg, .interface, saw⟩ e = ⟨setInterface cfg e, .interface, saw⟩ := by
        unfold assign
        split_ifs with hkey
        · rw [setInterface_nil cfg hkey]
        · rfl
      rw [List.foldl_cons, he, ih, List.foldl_cons]

theorem foldl_assign_peer {earlier : List WgPeer} {p : WgPeer} :
    entries.foldl assign ⟨{ cfg with peers := earlier ++ [p] }, .peer, saw⟩ =
      ⟨{ cfg with peers := earlier ++ [entries.foldl setPeer p] }, .peer, saw⟩ := by
  induction entries generalizing p with
  | nil => rfl
  | cons e rest ih =>
      have he : assign ⟨{ cfg with peers := earlier ++ [p] }, .peer, saw⟩ e =
          ⟨{ cfg with peers := earlier ++ [setPeer p e] }, .peer, saw⟩ := by
        unfold assign
        split_ifs with hkey
        · rw [setPeer_nil p hkey]
        · dsimp only
          rw [List.modifyLast_concat]
      rw [List.foldl_cons, he, ih, List.foldl_cons]

theorem setInterface_with (cfg : WgConfig) (peers : List WgPeer) (e : Entry) :
    setInterface { cfg with peers := peers } e = { setInterface cfg e with peers := peers } := by
  unfold setInterface
  split_ifs <;> rfl

theorem setInterface_peers (e : Entry) : (setInterface cfg e).peers = cfg.peers := by
  unfold setInterface
  split_ifs <;> rfl

theorem foldl_setInterface_peers : (entries.foldl setInterface cfg).peers = cfg.peers := by
  induction entries generalizing cfg with
  | nil => rfl
  | cons e rest ih => rw [List.foldl_cons, ih, setInterface_peers]

theorem foldl_setInterface_with (peers : List WgPeer) :
    entries.foldl setInterface { cfg with peers := peers } =
      { entries.foldl setInterface cfg with peers := peers } := by
  induction entries generalizing cfg with
  | nil => rfl
  | cons e rest ih => rw [List.foldl_cons, setInterface_with, ih, List.foldl_cons]

end Fill

-- The settings of the interface alone.
def WgConfig.own (cfg : WgConfig) : WgConfig := { cfg with peers := [] }

def filled (sh : Sheet) : Parsing := sh.fill enter assign {}

-- The entries of all the [Interface] parts together.
def interface (sh : Sheet) : List Entry := (sh.named "interface".toList).flatten

section Filled

variable {s : Parsing} {entries : List Entry}

theorem foldl_enter_interface :
    entries.foldl assign (enter s "interface".toList) = ⟨entries.foldl setInterface s.cfg, .interface, true⟩ :=
  foldl_assign_interface

theorem foldl_enter_peer :
    entries.foldl assign (enter s "peer".toList) =
      ⟨{ s.cfg with peers := s.cfg.peers ++ [entries.foldl setPeer {}] }, .peer, s.sawInterface⟩ :=
  foldl_assign_peer

theorem foldl_enter_other {name : Text} (h : name ≠ "interface".toList) (hp : name ≠ "peer".toList) :
    entries.foldl assign (enter s name) = ⟨s.cfg, .none, s.sawInterface⟩ := by
  have henter : enter s name = ⟨s.cfg, .none, s.sawInterface⟩ := by
    unfold enter
    rw [if_neg h, if_neg hp]
  rw [henter, foldl_assign_none]

theorem filled_peers (sh : Sheet) :
    (filled sh).cfg.peers = (sh.named "peer".toList).map fun entries => entries.foldl setPeer {} := by
  have hfill : (filled sh).cfg.peers =
      (sh.named "peer".toList).foldl (fun peers entries => peers ++ [entries.foldl setPeer {}]) [] := by
    apply Sheet.get_fill (fun s : Parsing => s.cfg.peers) "peer".toList
    · rw [foldl_assign_none]
    · intro s entries
      rw [foldl_enter_peer]
    · intro s name entries hpeer
      by_cases h : name = "interface".toList
      · rw [h, foldl_enter_interface]
        exact foldl_setInterface_peers
      · rw [foldl_enter_other h hpeer]
  rw [hfill]
  rw [List.foldl_append_eq_append, List.nil_append, ← List.flatMap_def, List.map_eq_flatMap]

theorem filled_own (sh : Sheet) : (filled sh).cfg.own = (interface sh).foldl setInterface {} := by
  have hfill : (filled sh).cfg.own =
      (sh.named "interface".toList).foldl (fun cfg entries => entries.foldl setInterface cfg) {} := by
    apply Sheet.get_fill (fun s : Parsing => s.cfg.own) "interface".toList
    · rw [foldl_assign_none]
    · intro s entries
      rw [foldl_enter_interface]
      exact (foldl_setInterface_with []).symm
    · intro s name entries h
      by_cases hpeer : name = "peer".toList
      · rw [hpeer, foldl_enter_peer]
        rfl
      · rw [foldl_enter_other h hpeer]
  rw [hfill, interface, List.foldl_flatten]

end Filled

section Settings

variable (entries : List Entry)

theorem foldl_setPeer :
    entries.foldl setPeer {} =
      { publicKey := setting "publickey".toList id [] entries
        presharedKey := setting "presharedkey".toList id [] entries
        endpoint := setting "endpoint".toList id [] entries
        allowedIps := setting "allowedips".toList wgList [] entries
        persistentKeepalive := setting "persistentkeepalive".toList toInt 0 entries } := by
  apply WgPeer.ext
  all_goals
    apply foldl_replaced
    intro p e
    unfold setPeer
    split_ifs <;> simp_all

theorem foldl_setInterface :
    entries.foldl setInterface {} =
      { privateKey := setting "privatekey".toList id [] entries
        addresses := setting "address".toList wgList [] entries
        dns := setting "dns".toList wgList [] entries
        mtu := setting "mtu".toList toInt 0 entries } := by
  apply WgConfig.ext
  case privateKey | addresses | dns | mtu =>
    apply foldl_replaced
    intro cfg e
    unfold setInterface
    split_ifs <;> simp_all
  case peers => exact foldl_setInterface_peers
  all_goals
    induction entries using List.reverseRecOn with
    | nil => rfl
    | append_singleton rest e ih =>
        rw [List.foldl_append, List.foldl_cons, List.foldl_nil]
        unfold setInterface
        split_ifs <;> exact ih

end Settings

-- What the validation has found of a configuration it accepts.
structure Accepted (qt : QtTables) (cfg : WgConfig) : Prop where
  privateKey : looksLikeWgKey qt cfg.privateKey = true
  addresses : cfg.addresses ≠ []
  peers : cfg.peers ≠ []
  peer : ∀ p ∈ cfg.peers, checkPeer qt p = none

section Valid

variable {qt : QtTables}

theorem validate_valid {s : Parsing} (hunset : s.cfg.valid = false) (h : (validate qt s).valid = true) :
    validate qt s = { s.cfg with valid := true } ∧ Accepted qt s.cfg := by
  unfold validate at h ⊢
  dsimp only at h ⊢
  split_ifs at h ⊢ with hsaw hkey hlooks haddresses hpeers
  all_goals try exact absurd h Bool.false_ne_true
  cases hfind : s.cfg.peers.findSome? (checkPeer qt) with
  | some why =>
      rw [hfind] at h
      exact absurd h Bool.false_ne_true
  | none =>
      refine ⟨rfl, ?_, haddresses, hpeers, List.findSome?_eq_none_iff.mp hfind⟩
      simpa using hlooks

theorem filled_valid (sh : Sheet) : (filled sh).cfg.valid = false := by
  have h := congrArg WgConfig.valid (filled_own sh)
  rw [foldl_setInterface] at h
  exact h

theorem parseWireguardConfig_eq (text : Text) :
    parseWireguardConfig qt text = validate qt (filled (sheet (lines qt text))) := by
  rw [parseWireguardConfig, reads.foldl, filled]

end Valid

section Checked

variable {qt : QtTables} {p : WgPeer}

theorem checkPeer_none (h : checkPeer qt p = none) : p.endpoint ≠ [] ∧ p.allowedIps ≠ [] := by
  unfold checkPeer at h
  split_ifs at h with hkey hendpoint hallowed hpsk
  exact ⟨fun hnone => hendpoint (.inl hnone), hallowed⟩

end Checked

end BATorrent.Wireguard
