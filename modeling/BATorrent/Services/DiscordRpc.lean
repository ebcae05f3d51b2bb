import BATorrent.Lib.LittleEndian

namespace BATorrent.DiscordRpc

open Lib (LittleEndian.value)
open Lib.DataStream (Bytes QString)

def kOpHandshake : UInt32 := 0
def kOpFrame : UInt32 := 1
def kOpClose : UInt32 := 2
def kOpPing : UInt32 := 3

structure Activity where
  details : QString
  state : QString
  startEpoch : Int
  deriving DecidableEq

-- The payloads the class sends, by what they are made of.
inductive Message where
  | handshake (clientId : QString)
  | setActivity (activity : Activity)
  deriving DecidableEq

inductive Event where
  | treated (op : UInt32) (body : Bytes)
  | disconnected
  | sent (op : UInt32) (message : Message)
  deriving DecidableEq

-- What Qt does once disconnectFromServer was called: whether bytes that arrived can still be read,
-- whether later ones are still delivered, and whether disconnected() is emitted in the call.
structure Socket where
  keepsUnread : Bool
  keepsDelivering : Bool
  disconnectsAtOnce : Bool

-- The log holds what happens while the socket is connected.
structure Rpc where
  available : Bytes
  connected : Bool
  handshaken : Bool
  cachedActivity : Option Activity
  log : List Event
  deriving DecidableEq

def Rpc.note (r : Rpc) (event : Event) : Rpc :=
  if r.connected then { r with log := r.log ++ [event] } else r

def sendFrame (op : UInt32) (message : Message) (r : Rpc) : Rpc :=
  if r.connected then r.note (.sent op message) else r

def setActivity (activity : Activity) (r : Rpc) : Rpc :=
  let r := { r with cachedActivity := some activity }
  if r.handshaken then sendFrame kOpFrame (.setActivity activity) r else r

def onConnected (clientId : QString) (cachedActivity : Option Activity) : Rpc :=
  sendFrame kOpHandshake (.handshake clientId)
    { available := [], connected := true, handshaken := false, cachedActivity, log := [] }

def onDisconnected (r : Rpc) : Rpc := { r with handshaken := false }

def disconnectFromServer (s : Socket) (r : Rpc) : Rpc :=
  if r.connected then
    let r := r.note .disconnected
    let r := { r with connected := false, available := if s.keepsUnread then r.available else [] }
    if s.disconnectsAtOnce then onDisconnected r else r
  else r

-- The body of the loop after the two reads.
def treat (s : Socket) (op : UInt32) (body : Bytes) (r : Rpc) : Rpc :=
  let r := r.note (.treated op body)
  if op = kOpClose then
    disconnectFromServer s r
  else if r.handshaken then
    r
  else
    let r := { r with handshaken := true }
    match r.cachedActivity with
    | some activity => setActivity activity r
    | none => r

-- QLocalSocket::read hands out no more than there is.
def readFrame (s : Socket) (r : Rpc) : Rpc :=
  let header := r.available.take 8
  let rest := r.available.drop 8
  let op := UInt32.ofNat (LittleEndian.value (header.take 4))
  let len := LittleEndian.value (header.drop 4)
  treat s op (rest.take len) { r with available := rest.drop len }

def readFrames (s : Socket) : Nat → Rpc → Rpc
  | 0, r => r
  | fuel + 1, r => if 8 ≤ r.available.length then readFrames s fuel (readFrame s r) else r

-- Every pass takes the eight bytes of a header.
def onReadyRead (s : Socket) (r : Rpc) : Rpc := readFrames s r.available.length r

def deliver (s : Socket) (r : Rpc) (data : Bytes) : Rpc :=
  if r.connected ∨ s.keepsDelivering then
    onReadyRead s { r with available := r.available ++ data }
  else r

def session (s : Socket) (clientId : QString) (cachedActivity : Option Activity) (deliveries : List Bytes) :
    Rpc :=
  deliveries.foldl (deliver s) (onConnected clientId cachedActivity)

section Reads

variable {s : Socket}

theorem note_of_connected {r : Rpc} (h : r.connected = true) (event : Event) :
    r.note event = { r with log := r.log ++ [event] } := if_pos h

theorem note_of_closed {r : Rpc} (h : r.connected = false) (event : Event) : r.note event = r :=
  if_neg (by rw [h]; exact Bool.false_ne_true)

theorem treat_closed {r : Rpc} (h : r.connected = false) (op : UInt32) (body : Bytes) :
    (treat s op body r).connected = false ∧ (treat s op body r).log = r.log := by
  unfold treat
  rw [note_of_closed h]
  dsimp only
  split
  · rw [disconnectFromServer, if_neg (by rw [h]; exact Bool.false_ne_true)]
    exact ⟨h, rfl⟩
  · split
    · exact ⟨h, rfl⟩
    · split
      · simp [setActivity, sendFrame, h]
      · exact ⟨h, rfl⟩

theorem readFrame_closed {r : Rpc} (h : r.connected = false) :
    (readFrame s r).connected = false ∧ (readFrame s r).log = r.log := by
  unfold readFrame
  apply treat_closed
  exact h

theorem readFrames_closed {r : Rpc} (h : r.connected = false) (fuel : Nat) :
    (readFrames s fuel r).connected = false ∧ (readFrames s fuel r).log = r.log := by
  induction fuel generalizing r with
  | zero => exact ⟨h, rfl⟩
  | succ fuel ih =>
      rw [readFrames]
      split
      · obtain ⟨hclosed, hlog⟩ := readFrame_closed (s := s) h
        obtain ⟨hstill, hsame⟩ := ih hclosed
        exact ⟨hstill, hsame.trans hlog⟩
      · exact ⟨h, rfl⟩

theorem deliver_closed {r : Rpc} (h : r.connected = false) (data : Bytes) :
    (deliver s r data).connected = false ∧ (deliver s r data).log = r.log := by
  unfold deliver
  split
  · unfold onReadyRead
    apply readFrames_closed
    exact h
  · exact ⟨h, rfl⟩

theorem readFrames_short {r : Rpc} (h : r.available.length < 8) (fuel : Nat) : readFrames s fuel r = r := by
  cases fuel with
  | zero => rfl
  | succ fuel => rw [readFrames, if_neg (by omega)]

def replayed : Option Activity → List Event
  | some activity => [.sent kOpFrame (.setActivity activity)]
  | none => []

theorem disconnect_connected {r : Rpc} (h : r.connected = true) :
    (disconnectFromServer s r).connected = false ∧
      (disconnectFromServer s r).log = r.log ++ [.disconnected] := by
  rw [disconnectFromServer, if_pos h, note_of_connected h]
  dsimp only
  split
  · exact ⟨rfl, rfl⟩
  · exact ⟨rfl, rfl⟩

theorem treat_close {r : Rpc} (h : r.connected = true) (body : Bytes) :
    (treat s kOpClose body r).connected = false ∧
      (treat s kOpClose body r).log = r.log ++ [.treated kOpClose body, .disconnected] := by
  rw [treat, note_of_connected h, if_pos rfl]
  obtain ⟨hclosed, hlog⟩ :=
    disconnect_connected (s := s) (r := { r with log := r.log ++ [.treated kOpClose body] }) h
  exact ⟨hclosed, hlog.trans (List.append_assoc _ _ _)⟩

theorem treat_frame {r : Rpc} (h : r.connected = true) {op : UInt32} (hop : op ≠ kOpClose) (body : Bytes) :
    treat s op body r =
      { r with
        handshaken := true
        log := r.log ++ .treated op body :: if r.handshaken then [] else replayed r.cachedActivity } := by
  obtain ⟨available, connected, handshaken, cached, log⟩ := r
  dsimp only at h
  subst h
  unfold treat
  rw [note_of_connected rfl, if_neg hop]
  dsimp only
  cases handshaken with
  | true => rfl
  | false =>
      cases cached with
      | none => rfl
      | some activity => simp [setActivity, sendFrame, Rpc.note, replayed]

end Reads

end BATorrent.DiscordRpc
