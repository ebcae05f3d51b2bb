import BATorrent.Lib.Run
import BATorrent.Services.PasswordHash
import Mathlib.Data.List.AList
import Mathlib.Logic.Function.Basic

namespace BATorrent.WebServer

open Lib Lib.ByteText PasswordHash
open Lib.DataStream (Bytes)

def kSessionMaxAgeSec : Int := 24 * 60 * 60

def kFailedAuthMax : Nat := 4096

section Headers

def crlf : Bytes := ascii "\r\n"

-- Where the value of a header starts. A name that the first line starts with counts too.
def headerStart (headersOnly name : Bytes) : Option Nat :=
  let search := crlf ++ name ++ ascii ":"
  match indexOf search headersOnly with
  | some 0 => some (name.length + 1)
  | some idx => some (idx + search.length)
  | none => if (name ++ ascii ":").isPrefixOf headersOnly then some (name.length + 1) else none

def lineFrom (headersOnly : Bytes) (start : Nat) : Bytes :=
  match (indexFrom [13] headersOnly start).or (indexFrom [10] headersOnly start) with
  | none => []
  | some stop => trimmed ((headersOnly.drop start).take (stop - start))

def headerValue (headersOnly name : Bytes) : Bytes :=
  match headerStart headersOnly name with
  | none => []
  | some start => lineFrom headersOnly start

-- The header block of a request, its blank line included.
def headersOf (requestData : Bytes) : Bytes :=
  match indexOf (crlf ++ crlf) requestData with
  | some headerEnd => requestData.take (headerEnd + 4)
  | none => requestData

def bodyOf (requestData : Bytes) : Bytes :=
  match indexOf (crlf ++ crlf) requestData with
  | some headerEnd => requestData.drop (headerEnd + 4)
  | none => []

structure RequestLine where
  method : Bytes
  path : Bytes
  query : Bytes

def requestLineOf (requestData : Bytes) : Option RequestLine :=
  (indexOf [10] requestData).bind fun firstNewline =>
    let requestLine := trimmed (requestData.take firstNewline)
    (indexOf [32] requestLine).bind fun sp1 =>
      (indexFrom [32] requestLine (sp1 + 1)).map fun sp2 =>
        let method := requestLine.take sp1
        let path := (requestLine.drop (sp1 + 1)).take (sp2 - sp1 - 1)
        match indexOf (ascii "?") path with
        | some qmark => ⟨method, path.take qmark, path.drop (qmark + 1)⟩
        | none => ⟨method, path, []⟩

-- The value of a cookie's BATSID, of the first one if there are several.
def cookieToken (headersOnly : Bytes) : Option Bytes :=
  let cookieLine := headerValue headersOnly (ascii "Cookie")
  if cookieLine = [] then none
  else
    (((cookieLine.splitOn 59).map trimmed).find? fun part => (ascii "BATSID=").isPrefixOf part).map
      fun part => part.drop 7

variable (qt : Qt)

def basicCredentials (headersOnly : Bytes) : Option (QString × QString) :=
  let authValue := headerValue headersOnly (ascii "Authorization")
  if (ascii "Basic ").isPrefixOf authValue then
    let decoded := fromBase64 (trimmed (authValue.drop 6))
    (indexOf (ascii ":") decoded).map fun colon =>
      (qt.fromUtf8 (decoded.take colon), qt.fromUtf8 (decoded.drop (colon + 1)))
  else none

-- None too where the user would be empty.
def pairCredentials (line : RequestLine) : Option (Bytes × QString) :=
  if line.method = ascii "GET" ∧ (indexOf (ascii "pair=") line.query).isSome then
    let pairVal :=
      (((line.query.splitOn 38).find? fun kv => (ascii "pair=").isPrefixOf kv).map
        fun kv => kv.drop 5).getD []
    let decoded := fromBase64 (fromPercentEncoding pairVal)
    (indexOf (ascii ":") decoded).bind fun colon =>
      if 0 < colon then some (decoded.take colon, qt.fromUtf8 (decoded.drop (colon + 1))) else none
  else none

def isLogin (line : RequestLine) : Bool :=
  line.method = ascii "POST" && line.path = ascii "/api/login"

end Headers

-- As QHostAddress writes it.
abbrev Address := QString

-- A point of time in milliseconds, and none where the lock was never set.
structure FailedAuthState where
  attempts : Nat
  lockedUntil : Option Int
deriving DecidableEq

structure PendingRequest where
  buffer : Bytes
  contentLength : Int32
  headerEnd : Nat
  headersParsed : Bool
  dispatched : Bool
deriving DecidableEq

def PendingRequest.init : PendingRequest := ⟨[], -1, 0, false, false⟩

-- The clock as it stands at each point of a request where it is read or a password is checked.
structure Clock where
  pairAt : Int
  sessionAt : Int
  evictAt : Int
  checkAt : Int
  failedAt : Int
  issuedAt : Int

structure Random where
  token : Vector UInt8 32
  salt : Vector UInt8 kSaltLen

-- An attempt to sign in, with the count that the penalty of a failure was computed from.
structure Attempt where
  address : Address
  verified : Bool
  ok : Bool
  startedAt : Int
  endedAt : Int
  penalised : Option Nat

-- What was issued since the credentials last changed and the attempts, the last ones first, are kept
-- beside what the server has, and so is the last reading of the clock.
structure State where
  user : QString
  passwordHash : QString
  sessionTokens : AList fun _ : Bytes => Int
  failedAuth : AList fun _ : Address => FailedAuthState
  pending : Nat → Option (Address × PendingRequest)
  issued : List (Bytes × Int)
  attempts : List Attempt
  now : Int

def init : State where
  user := []
  passwordHash := []
  sessionTokens := ∅
  failedAuth := ∅
  pending _ := none
  issued := []
  attempts := []
  now := 0

inductive Out where
  | responded (status : Nat)
  | issued (token : Bytes)
  | passwordHashUpgraded (newHash : QString)
  | routed (line : RequestLine) (body : Bytes)

section Throttle

def FailedAuthState.expired (e : FailedAuthState) (now : Int) : Bool := e.lockedUntil.any (· < now)

def FailedAuthState.locked (e : FailedAuthState) (now : Int) : Bool := e.lockedUntil.any (now < ·)

def dropExpired (table : AList fun _ : Address => FailedAuthState) (now : Int) :
    AList fun _ : Address => FailedAuthState :=
  ⟨table.entries.filter fun e => !e.2.expired now, table.nodupKeys.sublist List.filter_sublist⟩

def evictExpiredFailedAuth (table : AList fun _ : Address => FailedAuthState) (now : Int) :
    AList fun _ : Address => FailedAuthState :=
  let kept := dropExpired table now
  if kFailedAuthMax < kept.entries.length then ∅ else kept

def penaltySec (attempts : Nat) : Int :=
  let doubled : Int32 := 5 * ((1 : Int32) <<< Int32.ofNat (attempts - 5))
  if doubled < 300 then doubled.toInt else 300

def FailedAuthState.fail (e : FailedAuthState) (now : Int) : FailedAuthState :=
  let attempts := e.attempts + 1
  if 5 ≤ attempts then ⟨attempts, some (now + 1000 * penaltySec attempts)⟩
  else ⟨attempts, e.lockedUntil⟩

end Throttle

section Requests

variable (qt : Qt)

namespace State

def setCredentials (s : State) (user passwordHash : QString) : State :=
  { s with user := user, passwordHash := passwordHash, sessionTokens := ∅, issued := [] }

def upgradeLegacyHash (s : State) (password : QString) (r : Random) : State × List Out :=
  if isLegacy s.passwordHash then
    let newHash := hash qt password r.salt
    ({ s with passwordHash := newHash }, [.passwordHashUpgraded newHash])
  else (s, [])

def issueSessionCookie (s : State) (t : Clock) (r : Random) : State × List Out :=
  let token := toHex r.token.toList
  ({ s with
      sessionTokens := s.sessionTokens.insert token (t.issuedAt / 1000)
      issued := (token, t.issuedAt / 1000) :: s.issued }, [.issued token])

def attempt (s : State) (a : Attempt) : State := { s with attempts := a :: s.attempts }

-- The entry of an address, made where there was none.
def failedAuthOf (s : State) (address : Address) (t : Clock) : FailedAuthState :=
  ((evictExpiredFailedAuth s.failedAuth t.evictAt).lookup address).getD ⟨0, none⟩

def checkAuth (s : State) (headersOnly : Bytes) (clientIp : Address) (t : Clock) (r : Random) :
    Bool × State × List Out :=
  let state := s.failedAuthOf clientIp t
  let table := (evictExpiredFailedAuth s.failedAuth t.evictAt).insert clientIp state
  let s := { s with failedAuth := table }
  if state.locked t.checkAt then (false, s, [])
  else
    match basicCredentials qt headersOnly with
    | none => (false, s, [])
    | some (user, pass) =>
        let userOk := constantTimeEquals (qt.toUtf8 user) (qt.toUtf8 s.user)
        let passOk := verify qt pass s.passwordHash
        if userOk && passOk then
          let s := s.attempt ⟨clientIp, true, true, t.checkAt, t.failedAt, none⟩
          let s := { s with failedAuth := table.insert clientIp ⟨0, none⟩ }
          let upgraded := s.upgradeLegacyHash qt pass r
          (true, upgraded.1, upgraded.2)
        else
          let failed := state.fail t.failedAt
          let penalised := if 5 ≤ failed.attempts then some failed.attempts else none
          let s := s.attempt ⟨clientIp, true, false, t.checkAt, t.failedAt, penalised⟩
          (false, { s with failedAuth := table.insert clientIp failed }, [])

def checkSession (s : State) (headersOnly : Bytes) (t : Clock) : Bool × State :=
  match cookieToken headersOnly with
  | none => (false, s)
  | some token =>
      match s.sessionTokens.lookup token with
      | none => (false, s)
      | some issuedAt =>
          if t.sessionAt / 1000 - issuedAt > kSessionMaxAgeSec then
            (false, { s with sessionTokens := s.sessionTokens.erase token })
          else (true, s)

-- True where the device is signed in.
def pair (s : State) (line : RequestLine) (clientIp : Address) (t : Clock) (r : Random) :
    Bool × State × List Out :=
  match pairCredentials qt line with
  | none => (false, s, [])
  | some (user, pass) =>
      let userOk := constantTimeEquals user (qt.toUtf8 s.user)
      let ok := userOk && verify qt pass s.passwordHash
      let s := s.attempt ⟨clientIp, userOk, ok, t.pairAt, t.pairAt, none⟩
      if ok then
        let upgraded := s.upgradeLegacyHash qt pass r
        let issued := upgraded.1.issueSessionCookie t r
        (true, issued.1, issued.2 ++ upgraded.2)
      else (false, s, [])

-- True where the request has been answered.
def handleAuthGates (s : State) (line : RequestLine) (headers : Bytes) (clientIp : Address)
    (t : Clock) (r : Random) : Bool × State × List Out :=
  if s.user = [] then (false, s, [])
  else
    let (paired, s, outs) := s.pair qt line clientIp t r
    if paired then (true, s, .responded 302 :: outs)
    else if isLogin line then
      let (ok, s, outs) := s.checkAuth qt headers clientIp t r
      if ok then
        let issued := s.issueSessionCookie t r
        (true, issued.1, .responded 200 :: issued.2 ++ outs)
      else (true, s, [.responded 401])
    else
      let (live, s) := s.checkSession headers t
      if live then (false, s, [])
      else
        let (ok, s, outs) := s.checkAuth qt headers clientIp t r
        if ok then (false, s, outs) else (true, s, [.responded 401])

def dispatch (s : State) (clientIp : Address) (requestData : Bytes) (t : Clock) (r : Random) :
    State × List Out :=
  match requestLineOf requestData with
  | none => (s, [.responded 400])
  | some line =>
      let (answered, s, outs) := s.handleAuthGates qt line (headersOf requestData) clientIp t r
      if answered then (s, outs) else (s, .routed line (bodyOf requestData) :: outs)

end State

end Requests

section Sockets

-- What one read leaves of the pending request, with the error it is answered with or the request
-- it completes.
inductive Read where
  | wait (p : PendingRequest)
  | refused (p : PendingRequest) (status : Nat)
  | complete (p : PendingRequest) (requestData : Bytes)

def readBody (p : PendingRequest) : Read :=
  let needed := (Int32.ofNat p.headerEnd + p.contentLength).toInt
  if (p.buffer.length : Int) < needed then .wait p
  else .complete { p with dispatched := true } (p.buffer.take needed.toNat)

def readMore (p : PendingRequest) (bytes : Bytes) : Read :=
  if p.dispatched then .wait p
  else
    let p := { p with buffer := p.buffer ++ bytes }
    if p.headersParsed then readBody p
    else
      match indexOf (crlf ++ crlf) p.buffer with
      | none => if 32 * 1024 < p.buffer.length then .refused p 400 else .wait p
      | some stop =>
          let cl := headerValue (p.buffer.take (stop + 4)) (ascii "Content-Length")
          let p := { p with
            headerEnd := stop + 4
            headersParsed := true
            contentLength := if cl = [] then 0 else (toInt32 cl).getD 0 }
          if p.contentLength < 0 ∨ 200 * 1024 * 1024 < p.contentLength then .refused p 413
          else readBody p

end Sockets

inductive Event where
  | setCredentials (user passwordHash : QString)
  | connected (socket : Nat) (peer : Address)
  | received (socket : Nat) (bytes : Bytes) (t : Clock) (r : Random)
  | disconnected (socket : Nat)
  | stopped

namespace State

def setPending (s : State) (socket : Nat) (p : Option (Address × PendingRequest)) : State :=
  { s with pending := Function.update s.pending socket p }

def next (qt : Qt) (s : State) : Event → Option (State × List Out)
  | .setCredentials user passwordHash => some (s.setCredentials user passwordHash, [])
  | .connected socket peer =>
      if (s.pending socket).isNone then some (s.setPending socket (some (peer, .init)), []) else none
  | .received socket bytes t r =>
      (s.pending socket).map fun (peer, p) =>
        let s := { s with now := t.issuedAt }
        match readMore p bytes with
        | .wait p => (s.setPending socket (some (peer, p)), [])
        | .refused p status => (s.setPending socket (some (peer, p)), [.responded status])
        | .complete p requestData =>
            (s.setPending socket (some (peer, p))).dispatch qt peer requestData t r
  | .disconnected socket => some (s.setPending socket none, [])
  | .stopped => some ({ s with pending := fun _ => none }, [])

end State

def machine (qt : Qt) : Machine State Event Out where
  init := init
  next := State.next qt

end BATorrent.WebServer
