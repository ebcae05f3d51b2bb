import Mathlib.Data.List.ModifyLast
import BATorrent.Lib.DataStream
import BATorrent.Lib.Ini

namespace BATorrent.Conf

open Lib.Text Lib.Ini
open Lib.DataStream (Bytes)

@[ext]
structure PeerConf (Prefix : Type) where
  publicKey : Option Bytes := none
  presharedKey : Option Bytes := none
  endpoint : Text := []
  allowedIPs : List Prefix := []
  keepalive : Int := 0
deriving DecidableEq

@[ext]
structure WgConf (Addr Prefix : Type) where
  privateKey : Option Bytes := none
  addresses : List Addr := []
  dns : List Addr := []
  mtu : Int := 0
  peers : List (PeerConf Prefix) := []
deriving DecidableEq

-- What is used of Go's packages: unicode.ToLower past ASCII, strconv.Quote, and net/netip, whose errors are
-- given by their texts. `whole` is the prefix of an address alone.
structure GoLib (Addr Prefix : Type) where
  toLower : Char → Char
  quote : Text → Text
  parseAddr : Text → Except Text Addr
  parsePrefix : Text → Except Text Prefix
  addr : Prefix → Addr
  whole : Addr → Prefix
  masked : Prefix → Prefix

section Base64

def sextet (c : Char) : Option Nat :=
  if 'A' ≤ c ∧ c ≤ 'Z' then some (c.toNat - 'A'.toNat)
  else if 'a' ≤ c ∧ c ≤ 'z' then some (c.toNat - 'a'.toNat + 26)
  else if '0' ≤ c ∧ c ≤ '9' then some (c.toNat - '0'.toNat + 52)
  else if c = '+' then some 62
  else if c = '/' then some 63
  else none

-- The bits past the last whole byte are not looked at.
def decodeQuanta : Text → Option Bytes
  | [] => some []
  | a :: b :: c :: d :: rest => do
      let x ← sextet a
      let y ← sextet b
      let first := UInt8.ofNat (x * 4 + y / 16)
      if c = '=' ∧ d = '=' ∧ rest = [] then return [first]
      let z ← sextet c
      let second := UInt8.ofNat (y % 16 * 16 + z / 4)
      if d = '=' ∧ rest = [] then return [first, second]
      let w ← sextet d
      return first :: second :: UInt8.ofNat (z % 4 * 64 + w) :: (← decodeQuanta rest)
  | _ => none

def decodeString (s : Text) : Option Bytes := decodeQuanta (s.filter fun c => c ≠ '\r' ∧ c ≠ '\n')

end Base64

def decodeKey (s : Text) : Except Text Bytes :=
  match decodeString (trimmed s) with
  | some k => if k.length = 32 then .ok k else .error "not a WireGuard key".toList
  | none => .error "not a WireGuard key".toList

def splitList (v : Text) : List Text := ((v.splitOn ',').map trimmed).filter (· ≠ [])

variable {Addr Prefix : Type} (go : GoLib Addr Prefix)

def atoi (s : Text) : Except Text Int :=
  let fails (why : String) : Except Text Int :=
    .error ("strconv.Atoi: parsing ".toList ++ go.quote s ++ ": ".toList ++ why.toList)
  match signed? s with
  | some n => if -(2 ^ 63) ≤ n ∧ n < 2 ^ 63 then .ok n else fails "value out of range"
  | none => fails "invalid syntax"

def equalFoldOff (s : Text) : Bool := s.map Char.toLower = "off".toList

def toLower (t : Text) : Text := t.map fun c => if c.toNat < 0x80 then c.toLower else go.toLower c

-- An interface address, with its length or without.
def address (a : Text) : Except Text Addr :=
  match go.parsePrefix a with
  | .ok p => .ok (go.addr p)
  | .error _ => (go.parseAddr a).map fun ad => go.addr (go.whole ad)

-- An allowed prefix has to have its length.
def allowed (a : Text) : Except Text Prefix := (go.parsePrefix a).map go.masked

def setInterface (c : WgConf Addr Prefix) (e : Entry) : Except Text (WgConf Addr Prefix) :=
  if e.1 = "privatekey".toList then (decodeKey e.2).map fun k => { c with privateKey := some k }
  else if e.1 = "address".toList then
    ((splitList e.2).mapM (address go)).map fun ads => { c with addresses := c.addresses ++ ads }
  else if e.1 = "dns".toList then
    .ok { c with dns := c.dns ++ (splitList e.2).filterMap fun a => (go.parseAddr a).toOption }
  else if e.1 = "mtu".toList then
    (atoi go e.2).bind fun n =>
      if n < 576 ∨ n > 65535 then .error "out of range".toList else .ok { c with mtu := n }
  else .ok c

def setPeer (p : PeerConf Prefix) (e : Entry) : Except Text (PeerConf Prefix) :=
  if e.1 = "publickey".toList then (decodeKey e.2).map fun k => { p with publicKey := some k }
  else if e.1 = "presharedkey".toList then (decodeKey e.2).map fun k => { p with presharedKey := some k }
  else if e.1 = "endpoint".toList then .ok { p with endpoint := e.2 }
  else if e.1 = "allowedips".toList then
    ((splitList e.2).mapM (allowed go)).map fun ips => { p with allowedIPs := p.allowedIPs ++ ips }
  else if e.1 = "persistentkeepalive".toList then
    if equalFoldOff e.2 then .ok { p with keepalive := 0 }
    else (atoi go e.2).map fun n => { p with keepalive := n }
  else .ok p

structure Parsing (Addr Prefix : Type) where
  c : WgConf Addr Prefix := {}
  place : Text := []

def step (s : Parsing Addr Prefix) : Line → Except Text (Parsing Addr Prefix)
  | .blank => .ok s
  | .header name =>
      if name = "peer".toList then .ok ⟨{ s.c with peers := s.c.peers ++ [{}] }, name⟩
      else if name = "interface".toList then .ok ⟨s.c, name⟩
      else .error ("unknown section [".toList ++ name ++ "]".toList)
  | .keyless => .error "expected key = value".toList
  | .pair key val =>
      let named (why : Text) : Text := key ++ ": ".toList ++ why
      if s.place = "interface".toList then
        ((setInterface go s.c (key, val)).mapError named).map fun c => ⟨c, s.place⟩
      else if s.place = "peer".toList then
        ((setPeer go (s.c.peers.getLastD {}) (key, val)).mapError named).map fun p =>
          ⟨{ s.c with peers := s.c.peers.modifyLast fun _ => p }, s.place⟩
      else .error (key ++ " outside a section".toList)

-- Both '#' and ';' start a comment.
def readLine (raw : Text) : Line := line (fun c => c = '#' || c = ';') (toLower go) raw

def dropCR (raw : Text) : Text := if raw.getLast? = some '\r' then raw.dropLast else raw

def maxScanTokenSize : Nat := 65536

def byteLength (t : Text) : Nat := (t.map Char.utf8Size).sum

-- The scanner ends without a word at the first line that does not fit its buffer with its line break.
def scanned (text : Text) : List Text :=
  let raws := text.splitOn '\n'
  let raws := if raws.getLast? = some [] then raws.dropLast else raws
  (raws.takeWhile fun raw => byteLength raw < maxScanTokenSize).map dropCR

def lines (text : Text) : List Line := (scanned text).map (readLine go)

-- `count` lines were read before.
def scan (s : Parsing Addr Prefix) (count : Nat) : List Line → Except Text (Parsing Addr Prefix)
  | [] => .ok s
  | l :: rest =>
      match step go s l with
      | .error why => .error ("line ".toList ++ number (count + 1) ++ ": ".toList ++ why)
      | .ok t => scan t (count + 1) rest

def lacking (p : PeerConf Prefix) : Option String :=
  if p.publicKey = none then some "PublicKey"
  else if p.endpoint = [] then some "Endpoint"
  else if p.allowedIPs.isEmpty then some "AllowedIPs"
  else none

def finish (c : WgConf Addr Prefix) : Except Text (WgConf Addr Prefix) :=
  if c.privateKey = none then .error "no PrivateKey in [Interface]".toList
  else if c.addresses.isEmpty then .error "no Address in [Interface]".toList
  else if c.peers.isEmpty then .error "no [Peer]".toList
  else
    match c.peers.zipIdx.findSome? fun p => (lacking p.1).map fun what => (p.2, what) with
    | some (i, what) => .error ("peer ".toList ++ number (i + 1) ++ " has no ".toList ++ what.toList)
    | none => .ok c

def parseConf (text : Text) : Except Text (WgConf Addr Prefix) :=
  (scan go {} 0 (lines go text)).bind fun s => finish s.c

end BATorrent.Conf
