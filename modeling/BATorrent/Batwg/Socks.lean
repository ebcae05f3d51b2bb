import BATorrent.Lib.Checked
import BATorrent.Lib.LittleEndian

namespace BATorrent.Socks

open Lib Lib.Checked
open Lib.DataStream (Bytes)

def socksVer : UInt8 := 5

def cmdConnect : UInt8 := 1

def cmdUDP : UInt8 := 3

def atypV4 : UInt8 := 1

def atypDomain : UInt8 := 3

def atypV6 : UInt8 := 4

def repCmdNotSup : UInt8 := 7

def repAtypNotSup : UInt8 := 8

section Addresses

-- An address of the net/netip package.
inductive Addr where
  | invalid
  | v4 (a : { b : Bytes // b.length = 4 })
  | v6 (a : { b : Bytes // b.length = 16 }) (zone : Bytes)
deriving DecidableEq

structure AddrPort where
  addr : Addr
  port : UInt16
deriving DecidableEq

namespace Addr

def addrFromSlice (b : Bytes) : Addr :=
  if h : b.length = 4 then .v4 ⟨b, h⟩
  else if h : b.length = 16 then .v6 ⟨b, h⟩ []
  else .invalid

def mapped : Bytes := List.replicate 10 0 ++ [0xff, 0xff]

def is4In6 : Addr → Bool
  | .v6 a _ => mapped.isPrefixOf a.val
  | _ => false

def unmap : Addr → Addr
  | .v6 a zone => if mapped.isPrefixOf a.val then addrFromSlice (a.val.drop 12) else .v6 a zone
  | a => a

def withoutZone : Addr → Addr
  | .v6 a _ => .v6 a []
  | a => a

def as16 : Addr → Bytes
  | .invalid => List.replicate 16 0
  | .v4 a => mapped ++ a.val
  | .v6 a _ => a.val

end Addr

-- The order of the network, the high byte first.
def uint16 (b : Bytes) : UInt16 := UInt16.ofNat (LittleEndian.value b.reverse)

def appendUint16 (b : Bytes) (n : UInt16) : Bytes := b ++ (LittleEndian.bytes 2 n.toNat).reverse

end Addresses

section Datagrams

def parseUDPHeader (b : Bytes) : Checked (Option (AddrPort × Bytes × Bytes)) :=
  if b.length < 4 then return none
  else do
    let frag ← index b 2
    if frag ≠ 0 then return none
    else
      let atyp ← index b 3
      if atyp = atypV4 then
        if b.length < 10 then return none
        else
          let a ← load b 4 4
          let p ← load b 8 2
          let data ← load b 10 (b.length - 10)
          return some (⟨.addrFromSlice a, uint16 p⟩, [], data)
      else if atyp = atypV6 then
        if b.length < 22 then return none
        else
          let a ← load b 4 16
          let p ← load b 20 2
          let data ← load b 22 (b.length - 22)
          return some (⟨(Addr.addrFromSlice a).unmap, uint16 p⟩, [], data)
      else if atyp = atypDomain then
        if b.length < 5 then return none
        else
          let l ← UInt8.toNat <$> index b 4
          if b.length < 5 + l + 2 then return none
          else
            let p ← load b (5 + l) 2
            let name ← load b 5 l
            let data ← load b (7 + l) (b.length - (7 + l))
            return some (⟨.invalid, uint16 p⟩, name, data)
      else return none

def udpHeader (src : AddrPort) : Bytes :=
  let h : Bytes := match src.addr with
    | .v4 a => [0, 0, 0] ++ [atypV4] ++ a.val
    | addr => [0, 0, 0] ++ [atypV6] ++ addr.as16
  appendUint16 h src.port

def room : Nat := 22

-- What `reader` sends to the client of a datagram that was read into `buf` behind the room for its header.
def relayed (src : AddrPort) (buf : Bytes) (n : Nat) : Checked Bytes := do
  let h := udpHeader ⟨src.addr.unmap, src.port⟩
  let start : Int := room - h.length
  let buf ← store buf start h
  load buf start (room + n - start)

end Datagrams

section Requests

-- All that the connection delivers, however it arrives.
def readFull (n : Nat) (c : Bytes) : Option (Bytes × Bytes) :=
  if n ≤ c.length then some (c.take n, c.drop n) else none

structure Request where
  host : Bytes
  port : UInt16
  atyp : UInt8

variable (string : Addr → Bytes)

def readPort (host : Bytes) (atyp : UInt8) (r : Bytes) : Option (Request × Bytes) :=
  match readFull 2 r with
  | none => none
  | some (p, r) => some (⟨host, uint16 p, atyp⟩, r)

def readAddr (r : Bytes) : Checked (Option (Request × Bytes)) :=
  match readFull 1 r with
  | none => return none
  | some (t, r) => do
      let atyp ← index t 0
      if atyp = atypV4 ∨ atyp = atypV6 then
        match readFull (if atyp = atypV6 then 16 else 4) r with
        | none => return none
        | some (b, r) => return readPort (string (.addrFromSlice b)) atyp r
      else if atyp = atypDomain then
        match readFull 1 r with
        | none => return none
        | some (l, r) =>
            let n ← index l 0
            match readFull n.toNat r with
            | none => return none
            | some (b, r) => return readPort b atyp r
      else return none

-- What is left to read where the client may go on, and what is written to it.
def greet (user pass : Bytes) (c : Bytes) : Checked (Option Bytes × List Bytes) :=
  match readFull 2 c with
  | none => return (none, [])
  | some (h, c) => do
      if (← index h 0) ≠ socksVer then return (none, [])
      else
        let n ← index h 1
        match readFull n.toNat c with
        | none => return (none, [])
        | some (methods, c) =>
            if !methods.contains 2 then return (none, [[socksVer, 0xff]])
            else
              match readFull 2 c with
              | none => return (none, [[socksVer, 2]])
              | some (v, c) =>
                  if (← index v 0) ≠ 1 then return (none, [[socksVer, 2]])
                  else
                    let ul ← index v 1
                    match readFull ul.toNat c with
                    | none => return (none, [[socksVer, 2]])
                    | some (u, c) =>
                        match readFull 1 c with
                        | none => return (none, [[socksVer, 2]])
                        | some (pl, c) =>
                            let n ← index pl 0
                            match readFull n.toNat c with
                            | none => return (none, [[socksVer, 2]])
                            | some (p, c) =>
                                if u = user ∧ p = pass then return (some c, [[socksVer, 2], [1, 0]])
                                else return (none, [[socksVer, 2], [1, 1]])

-- What a connection comes to.
inductive Outcome where
  | closed
  | refused (code : UInt8)
  | connect (request : Request) (rest : Bytes)
  | associate (rest : Bytes)

def handle (user pass : Bytes) (c : Bytes) : Checked (Outcome × List Bytes) := do
  match ← greet user pass c with
  | (none, written) => return (.closed, written)
  | (some c, written) =>
      match readFull 3 c with
      | none => return (.closed, written)
      | some (hdr, c) =>
          if (← index hdr 0) ≠ socksVer then return (.closed, written)
          else
            match ← readAddr string c with
            | none => return (.refused repAtypNotSup, written)
            | some (request, c) =>
                let cmd ← index hdr 1
                if cmd = cmdConnect then return (.connect request c, written)
                else if cmd = cmdUDP then return (.associate c, written)
                else return (.refused repCmdNotSup, written)

end Requests

end BATorrent.Socks
