import BATorrent.Batwg.Socks

namespace BATorrent.Socks

open Lib Lib.Checked
open Lib.DataStream (Bytes)

section Numbers

theorem length_be (n : UInt16) : (LittleEndian.bytes 2 n.toNat).reverse.length = 2 := by
  rw [List.length_reverse, LittleEndian.length_bytes]

theorem uint16_be (n : UInt16) : uint16 (LittleEndian.bytes 2 n.toNat).reverse = n := by
  rw [uint16, List.reverse_reverse, LittleEndian.value_bytes_of_lt n.toNat_lt, UInt16.ofNat_toNat]

theorem be_uint16 {p : Bytes} (h : p.length = 2) :
    (LittleEndian.bytes 2 (uint16 p).toNat).reverse = p := by
  have hlen : p.reverse.length = 2 := by rw [List.length_reverse, h]
  have hlt := LittleEndian.value_lt p.reverse
  rw [hlen] at hlt
  have hvalue : (uint16 p).toNat = LittleEndian.value p.reverse := UInt16.toNat_ofNat_of_lt' hlt
  have hround := LittleEndian.bytes_value p.reverse
  rw [hlen] at hround
  rw [hvalue, hround, List.reverse_reverse]

variable {x : Bytes} {n : Nat} (port : UInt16) (payload : Bytes)

theorem length_appendUint16 : (appendUint16 x port).length = x.length + 2 := by
  rw [appendUint16, List.length_append, length_be]

theorem take_appendUint16 (h : x.length = n) : (appendUint16 x port ++ payload).take n = x := by
  rw [appendUint16, List.append_assoc, List.take_left' h]

theorem port_appendUint16 (h : x.length = n) :
    uint16 (((appendUint16 x port ++ payload).drop n).take 2) = port := by
  rw [appendUint16, List.append_assoc, List.drop_left' h, List.take_left' (length_be port), uint16_be]

theorem drop_appendUint16 (h : x.length = n) : (appendUint16 x port ++ payload).drop (n + 2) = payload := by
  rw [List.drop_left' (by rw [length_appendUint16, h])]

theorem appendUint16_split {b : Bytes} (h : n + 2 ≤ b.length) :
    b = appendUint16 (b.take n) (uint16 ((b.drop n).take 2)) ++ b.drop (n + 2) := by
  have hlen : ((b.drop n).take 2).length = 2 := List.length_take_of_le (by rw [List.length_drop]; omega)
  rw [appendUint16, be_uint16 hlen, List.append_assoc, ← List.drop_drop, List.take_append_drop,
    List.take_append_drop]

end Numbers

section Addresses

theorem addrFromSlice_v4 (a : { b : Bytes // b.length = 4 }) : Addr.addrFromSlice a.val = .v4 a := by
  rw [Addr.addrFromSlice, dif_pos a.property]

theorem addrFromSlice_v6 (a : { b : Bytes // b.length = 16 }) : Addr.addrFromSlice a.val = .v6 a [] := by
  have hnot : ¬ a.val.length = 4 := by rw [a.property]; decide
  rw [Addr.addrFromSlice, dif_neg hnot, dif_pos a.property]

theorem unmap_of_not {a : Addr} (h : a.is4In6 = false) : a.unmap = a := by
  cases a with
  | invalid => rfl
  | v4 a => rfl
  | v6 a zone =>
      rw [Addr.is4In6] at h
      rw [Addr.unmap, h, if_neg Bool.false_ne_true]

end Addresses

section Grammar

-- What is no fragment and not cut short: the address it is for, the name it has instead of one, and the rest.
inductive Datagram : Bytes → AddrPort → Bytes → Bytes → Prop where
  | v4 (r₀ r₁ : UInt8) (a : { b : Bytes // b.length = 4 }) (port : UInt16) (payload : Bytes) :
      Datagram ([r₀, r₁, 0, atypV4] ++ (appendUint16 a.val port ++ payload)) ⟨.v4 a, port⟩ [] payload
  | v6 (r₀ r₁ : UInt8) (a : { b : Bytes // b.length = 16 }) (port : UInt16) (payload : Bytes) :
      Datagram ([r₀, r₁, 0, atypV6] ++ (appendUint16 a.val port ++ payload)) ⟨(Addr.v6 a []).unmap, port⟩ [] payload
  | domain (r₀ r₁ : UInt8) (name : Bytes) (hname : name.length < 256) (port : UInt16) (payload : Bytes) :
      Datagram ([r₀, r₁, 0, atypDomain] ++ (UInt8.ofNat name.length :: (appendUint16 name port ++ payload)))
        ⟨.invalid, port⟩ name payload

-- What follows the address type.
def addressed (atyp : UInt8) (rest : Bytes) : Option (AddrPort × Bytes × Bytes) :=
  if atyp = atypV4 then
    if rest.length < 6 then none
    else some (⟨.addrFromSlice (rest.take 4), uint16 ((rest.drop 4).take 2)⟩, [], rest.drop 6)
  else if atyp = atypV6 then
    if rest.length < 18 then none
    else some (⟨(Addr.addrFromSlice (rest.take 16)).unmap, uint16 ((rest.drop 16).take 2)⟩, [], rest.drop 18)
  else if atyp = atypDomain then
    match rest with
    | [] => none
    | l :: rest =>
        if rest.length < l.toNat + 2 then none
        else some (⟨.invalid, uint16 ((rest.drop l.toNat).take 2)⟩, rest.take l.toNat, rest.drop (l.toNat + 2))
  else none

-- No index is past the datagram.
theorem parseUDPHeader_cons {b : Bytes} {r₀ r₁ frag atyp : UInt8} {rest : Bytes}
    (hb : b = r₀ :: r₁ :: frag :: atyp :: rest) :
    parseUDPHeader b = .ok (if frag ≠ 0 then none else addressed atyp rest) := by
  have hlen : b.length = rest.length + 4 := by rw [hb]; rfl
  have hread : ∀ start len : Nat, start + len ≤ rest.length →
      load b (start + 4 : Nat) len = .ok ((rest.drop start).take len) := by
    intro start len hin
    rw [load_eq _ _ _ (by omega), hb]
    rfl
  have hlast : ∀ n : Nat, n ≤ rest.length →
      load b (n + 4 : Nat) (b.length - (n + 4 : Nat)) = .ok (rest.drop n) := by
    intro n hn
    have hleft : (b.length : Int) - (n + 4 : Nat) = (rest.length - n : Nat) := by omega
    rw [hleft, hread _ _ (by omega), List.take_of_length_le (by rw [List.length_drop])]
  have hfragment : index b 2 = .ok frag := by rw [hb]; rfl
  have htype : index b 3 = .ok atyp := by rw [hb]; rfl
  unfold parseUDPHeader
  rw [if_neg (by omega), hfragment]
  dsimp only [bind, Except.bind]
  by_cases hzero : frag ≠ 0
  · rw [if_pos hzero, if_pos hzero]
    rfl
  rw [if_neg hzero, if_neg hzero, htype]
  dsimp only
  unfold addressed
  by_cases hv4 : atyp = atypV4
  · rw [if_pos hv4, if_pos hv4]
    by_cases hshort : rest.length < 6
    · rw [if_pos (by omega), if_pos hshort]
      rfl
    · have ha : load b 4 4 = .ok (rest.take 4) := hread 0 4 (by omega)
      have hp : load b 8 2 = .ok ((rest.drop 4).take 2) := hread 4 2 (by omega)
      have hd : load b 10 (b.length - 10) = .ok (rest.drop 6) := hlast 6 (by omega)
      rw [if_neg (by omega), if_neg hshort, ha, hp, hd]
      rfl
  rw [if_neg hv4, if_neg hv4]
  by_cases hv6 : atyp = atypV6
  · rw [if_pos hv6, if_pos hv6]
    by_cases hshort : rest.length < 18
    · rw [if_pos (by omega), if_pos hshort]
      rfl
    · have ha : load b 4 16 = .ok (rest.take 16) := hread 0 16 (by omega)
      have hp : load b 20 2 = .ok ((rest.drop 16).take 2) := hread 16 2 (by omega)
      have hd : load b 22 (b.length - 22) = .ok (rest.drop 18) := hlast 18 (by omega)
      rw [if_neg (by omega), if_neg hshort, ha, hp, hd]
      rfl
  rw [if_neg hv6, if_neg hv6]
  by_cases hdomain : atyp = atypDomain
  · rw [if_pos hdomain, if_pos hdomain]
    cases rest with
    | nil =>
        rw [if_pos (by rw [hlen]; decide)]
        rfl
    | cons l rest =>
        have hlong : b.length = rest.length + 5 := hlen
        have hl : index b 4 = .ok l := by rw [hb]; rfl
        rw [if_neg (by omega), hl]
        dsimp only [Functor.map, Except.map]
        by_cases hshort : rest.length < l.toNat + 2
        · rw [if_pos (by omega), if_pos hshort]
          rfl
        · have hp : load b (5 + l.toNat) 2 = .ok ((rest.drop l.toNat).take 2) := by
            have h := hread (l.toNat + 1) 2 (by rw [List.length_cons]; omega)
            rwa [List.drop_succ_cons, show ((l.toNat + 1 + 4 : Nat) : Int) = 5 + l.toNat by omega] at h
          have hn : load b 5 l.toNat = .ok (rest.take l.toNat) := hread 1 l.toNat (by rw [List.length_cons]; omega)
          have hd : load b (7 + l.toNat) (b.length - (7 + l.toNat)) = .ok (rest.drop (l.toNat + 2)) := by
            have h := hlast (l.toNat + 3) (by rw [List.length_cons]; omega)
            rwa [List.drop_succ_cons, show ((l.toNat + 3 + 4 : Nat) : Int) = 7 + l.toNat by omega] at h
          rw [if_neg (by omega), if_neg hshort, hp, hn, hd]
          rfl
  · rw [if_neg hdomain, if_neg hdomain]
    rfl

theorem datagram_of_addressed {r₀ r₁ atyp : UInt8} {rest : Bytes} {dst : AddrPort} {name payload : Bytes}
    (h : addressed atyp rest = some (dst, name, payload)) :
    Datagram (r₀ :: r₁ :: 0 :: atyp :: rest) dst name payload := by
  unfold addressed at h
  split_ifs at h with hv4 hshort hv6 hshort hdomain
  · obtain ⟨rfl, rfl, rfl⟩ : _ ∧ _ ∧ _ := by simpa using h
    have hsplit := appendUint16_split (b := rest) (n := 4) (by omega)
    have ha := addrFromSlice_v4 ⟨rest.take 4, List.length_take_of_le (by omega)⟩
    have hgram := Datagram.v4 r₀ r₁ ⟨rest.take 4, List.length_take_of_le (by omega)⟩
      (uint16 ((rest.drop 4).take 2)) (rest.drop 6)
    rw [← ha] at hgram
    dsimp only at hgram
    rw [← hsplit] at hgram
    rw [hv4]
    exact hgram
  · obtain ⟨rfl, rfl, rfl⟩ : _ ∧ _ ∧ _ := by simpa using h
    have hsplit := appendUint16_split (b := rest) (n := 16) (by omega)
    have ha := addrFromSlice_v6 ⟨rest.take 16, List.length_take_of_le (by omega)⟩
    have hgram := Datagram.v6 r₀ r₁ ⟨rest.take 16, List.length_take_of_le (by omega)⟩
      (uint16 ((rest.drop 16).take 2)) (rest.drop 18)
    rw [← ha] at hgram
    dsimp only at hgram
    rw [← hsplit] at hgram
    rw [hv6]
    exact hgram
  · cases rest with
    | nil => contradiction
    | cons l rest =>
        dsimp only at h
        split_ifs at h with hshort
        obtain ⟨rfl, rfl, rfl⟩ : _ ∧ _ ∧ _ := by simpa using h
        have hlen : (rest.take l.toNat).length = l.toNat := List.length_take_of_le (by omega)
        have hsplit := appendUint16_split (b := rest) (n := l.toNat) (by omega)
        have hlt : l.toNat < 256 := l.toNat_lt
        have hgram := Datagram.domain r₀ r₁ (rest.take l.toNat) (by omega)
          (uint16 ((rest.drop l.toNat).take 2)) (rest.drop (l.toNat + 2))
        rw [← hsplit, hlen, UInt8.ofNat_toNat] at hgram
        rw [hdomain]
        exact hgram

theorem addressed_of_datagram {b : Bytes} {dst : AddrPort} {name payload : Bytes} (h : Datagram b dst name payload) :
    ∃ r₀ r₁ atyp rest, b = r₀ :: r₁ :: 0 :: atyp :: rest ∧ addressed atyp rest = some (dst, name, payload) := by
  cases h with
  | v4 r₀ r₁ a port =>
      have hlen := a.property
      refine ⟨r₀, r₁, atypV4, appendUint16 a.val port ++ payload, rfl, ?_⟩
      unfold addressed
      rw [if_pos rfl, if_neg (by rw [List.length_append, length_appendUint16]; omega),
        take_appendUint16 _ _ hlen, port_appendUint16 _ _ hlen, drop_appendUint16 _ _ hlen, addrFromSlice_v4]
  | v6 r₀ r₁ a port =>
      have hlen := a.property
      refine ⟨r₀, r₁, atypV6, appendUint16 a.val port ++ payload, rfl, ?_⟩
      unfold addressed
      rw [if_neg (by decide), if_pos rfl,
        if_neg (by rw [List.length_append, length_appendUint16]; omega), take_appendUint16 _ _ hlen,
        port_appendUint16 _ _ hlen, drop_appendUint16 _ _ hlen, addrFromSlice_v6]
  | domain r₀ r₁ _ hname port =>
      have hl : (UInt8.ofNat name.length).toNat = name.length := UInt8.toNat_ofNat_of_lt' hname
      refine ⟨r₀, r₁, atypDomain, UInt8.ofNat name.length :: (appendUint16 name port ++ payload), rfl, ?_⟩
      unfold addressed
      rw [if_neg (by decide), if_neg (by decide), if_pos rfl]
      dsimp only
      rw [hl, if_neg (by rw [List.length_append, length_appendUint16]; omega), take_appendUint16 _ _ rfl,
        port_appendUint16 _ _ rfl, drop_appendUint16 _ _ rfl]

-- What is accepted is exactly what is well formed, and nothing is read past its end.
theorem parseUDPHeader_iff (b : Bytes) : ∃ r, parseUDPHeader b = .ok r ∧
    ∀ dst name payload, r = some (dst, name, payload) ↔ Datagram b dst name payload := by
  by_cases hshort : b.length < 4
  · refine ⟨none, if_pos hshort, fun dst name payload => iff_of_false nofun fun h => ?_⟩
    obtain ⟨r₀, r₁, atyp, rest, rfl, -⟩ := addressed_of_datagram h
    rw [List.length_cons, List.length_cons, List.length_cons, List.length_cons] at hshort
    omega
  · match b, hshort with
    | [], hshort | [_], hshort | [_, _], hshort | [_, _, _], hshort => exact absurd (Nat.le_of_ble_eq_true rfl) hshort
    | r₀ :: r₁ :: frag :: atyp :: rest, _ =>
        refine ⟨_, parseUDPHeader_cons rfl, fun dst name payload => ?_⟩
        constructor
        · intro h
          split_ifs at h with hzero
          rw [not_not.mp hzero]
          exact datagram_of_addressed h
        · intro h
          obtain ⟨_, _, _, _, heq, hread⟩ := addressed_of_datagram h
          obtain ⟨rfl, rfl, rfl, rfl, rfl⟩ : _ ∧ _ ∧ _ ∧ _ ∧ _ := by simpa using heq
          rw [if_neg (not_not_intro rfl)]
          exact hread

end Grammar

section RoundTrip

theorem datagram_udpHeader {src : AddrPort} (hvalid : src.addr ≠ .invalid) (payload : Bytes) :
    Datagram (udpHeader src ++ payload) ⟨src.addr.withoutZone.unmap, src.port⟩ [] payload := by
  obtain ⟨addr, port⟩ := src
  have hmove : ∀ h x : Bytes, appendUint16 (h ++ x) port ++ payload = h ++ (appendUint16 x port ++ payload) := by
    intro h x
    rw [appendUint16, appendUint16, List.append_assoc, List.append_assoc, List.append_assoc]
  cases addr with
  | invalid => exact absurd rfl hvalid
  | v4 a =>
      unfold udpHeader
      dsimp only
      rw [hmove]
      exact .v4 0 0 a port payload
  | v6 a zone =>
      unfold udpHeader
      dsimp only
      rw [hmove]
      exact .v6 0 0 a port payload

theorem withoutZone_unmap {a : Addr} (h : a.is4In6 = false) : a.withoutZone.unmap = a.withoutZone := by
  cases a with
  | invalid => rfl
  | v4 a => rfl
  | v6 a zone => exact unmap_of_not (a := .v6 a []) h

theorem parse_udpHeader {src : AddrPort} (hvalid : src.addr ≠ .invalid) (hmapped : src.addr.is4In6 = false)
    (payload : Bytes) :
    parseUDPHeader (udpHeader src ++ payload) = .ok (some (⟨src.addr.withoutZone, src.port⟩, [], payload)) := by
  obtain ⟨r, hr, hiff⟩ := parseUDPHeader_iff (udpHeader src ++ payload)
  have hgram := datagram_udpHeader hvalid payload
  rw [withoutZone_unmap hmapped] at hgram
  rw [hr, (hiff _ _ _).mpr hgram]

theorem length_udpHeader (src : AddrPort) : (udpHeader src).length ≤ room := by
  unfold udpHeader room
  cases haddr : src.addr with
  | invalid =>
      dsimp only
      rw [length_appendUint16]
      decide
  | v4 a =>
      have hlen := a.property
      dsimp only
      rw [length_appendUint16, List.length_append, hlen]
      decide
  | v6 a zone =>
      have hlen := a.property
      dsimp only [Addr.as16]
      rw [length_appendUint16, List.length_append, hlen]
      decide

-- The header is put right before what was read, inside the buffer.
theorem relayed_eq (src : AddrPort) {buf : Bytes} {n : Nat} (h : room + n ≤ buf.length) :
    relayed src buf n = .ok (udpHeader ⟨src.addr.unmap, src.port⟩ ++ (buf.drop room).take n) := by
  unfold relayed
  generalize hheader : udpHeader ⟨src.addr.unmap, src.port⟩ = header
  have hroom : header.length ≤ room := by rw [← hheader]; exact length_udpHeader _
  have hstart : (room : Int) - header.length = (room - header.length : Nat) := by omega
  have hlen : (buf.take (room - header.length)).length = room - header.length := List.length_take_of_le (by omega)
  have hsum : room - header.length + header.length = room := by omega
  dsimp only
  rw [hstart, store, if_pos (by omega), Int.toNat_natCast, FileBytes.writeAt, List.takeD_eq_take _ (by omega), hsum,
    List.append_assoc]
  dsimp only [bind, Except.bind]
  have hcount : (room : Int) + n - (room - header.length : Nat) = (header.length + n : Nat) := by omega
  rw [hcount, load_eq _ _ _ (by rw [List.length_append, List.length_append, List.length_drop]; omega),
    List.drop_left' hlen, List.take_length_add_append]

end RoundTrip

section Streams

variable {n : Nat} {c x rest : Bytes}

theorem readFull_iff : readFull n c = some (x, rest) ↔ x.length = n ∧ c = x ++ rest := by
  unfold readFull
  constructor
  · intro h
    split_ifs at h with hin
    obtain ⟨rfl, rfl⟩ := Prod.mk.inj (Option.some_inj.mp h)
    exact ⟨List.length_take_of_le hin, (List.take_append_drop n c).symm⟩
  · rintro ⟨rfl, rfl⟩
    rw [if_pos (by rw [List.length_append]; omega), List.take_left, List.drop_left]

theorem index_returns_of_readFull {i : Nat} (h : readFull n c = some (x, rest)) (hi : i < n) :
    Returns (index x i) (x[i]? = some ·) :=
  index_returns (by rw [(readFull_iff.mp h).1]; exact hi)

theorem suffix_of_readFull (h : readFull n c = some (x, rest)) : rest <:+ c :=
  ⟨x, (readFull_iff.mp h).2.symm⟩

end Streams

section Grammar

variable (string : Addr → Bytes)

-- An address that is all there, and what is read of it.
inductive Address : Bytes → Request → Prop where
  | v4 (a : { b : Bytes // b.length = 4 }) (port : UInt16) :
      Address (atypV4 :: appendUint16 a.val port) ⟨string (.v4 a), port, atypV4⟩
  | v6 (a : { b : Bytes // b.length = 16 }) (port : UInt16) :
      Address (atypV6 :: appendUint16 a.val port) ⟨string (.v6 a []), port, atypV6⟩
  | domain (name : Bytes) (hname : name.length < 256) (port : UInt16) :
      Address (atypDomain :: UInt8.ofNat name.length :: appendUint16 name port) ⟨name, port, atypDomain⟩

variable {string}

theorem readPort_iff {host r rest : Bytes} {atyp : UInt8} {request : Request} :
    readPort host atyp r = some (request, rest) ↔
      r = (LittleEndian.bytes 2 request.port.toNat).reverse ++ rest ∧ request.host = host ∧ request.atyp = atyp := by
  unfold readPort
  cases hread : readFull 2 r with
  | none =>
      refine iff_of_false nofun ?_
      rintro ⟨rfl, -⟩
      rw [readFull_iff.mpr ⟨length_be request.port, rfl⟩] at hread
      contradiction
  | some pr =>
      obtain ⟨p, r'⟩ := pr
      obtain ⟨hlen, rfl⟩ := readFull_iff.mp hread
      dsimp only
      rw [Option.some_inj, Prod.mk.injEq]
      constructor
      · rintro ⟨rfl, rfl⟩
        exact ⟨by rw [be_uint16 hlen], rfl, rfl⟩
      · rintro ⟨heq, rfl, rfl⟩
        obtain ⟨rfl, rfl⟩ := List.append_inj heq (by rw [hlen, length_be])
        rw [uint16_be]
        exact ⟨rfl, rfl⟩

theorem readPort_be (host : Bytes) (port : UInt16) (atyp : UInt8) (rest : Bytes) :
    readPort host atyp ((LittleEndian.bytes 2 port.toNat).reverse ++ rest) = some (⟨host, port, atyp⟩, rest) :=
  readPort_iff.mpr ⟨rfl, rfl, rfl⟩

theorem address_ip {atyp : UInt8} {b : Bytes} (hip : atyp = atypV4 ∨ atyp = atypV6)
    (hlen : b.length = if atyp = atypV6 then 16 else 4) (port : UInt16) :
    Address string (atyp :: appendUint16 b port) ⟨string (.addrFromSlice b), port, atyp⟩ := by
  rcases hip with rfl | rfl
  · rw [if_neg (by decide)] at hlen
    rw [addrFromSlice_v4 ⟨b, hlen⟩]
    exact .v4 ⟨b, hlen⟩ port
  · rw [if_pos rfl] at hlen
    rw [addrFromSlice_v6 ⟨b, hlen⟩]
    exact .v6 ⟨b, hlen⟩ port

theorem address_domain {l : UInt8} {b : Bytes} (hlen : b.length = l.toNat) (port : UInt16) :
    Address string (atypDomain :: l :: appendUint16 b port) ⟨b, port, atypDomain⟩ := by
  have hlt : l.toNat < 256 := l.toNat_lt
  have hdomain : Address string (atypDomain :: UInt8.ofNat b.length :: appendUint16 b port) ⟨b, port, atypDomain⟩ :=
    .domain b (by omega) port
  rwa [hlen, UInt8.ofNat_toNat] at hdomain

theorem eq_singleton_of_readFull {c x rest : Bytes} {b : UInt8} (h : readFull 1 c = some (x, rest))
    (hb : x[0]? = some b) : x = [b] := by
  obtain ⟨b', rfl⟩ := List.length_eq_one_iff.mp (readFull_iff.mp h).1
  rw [Option.some_inj.mp hb]

-- No index is past what was read, and an address that is cut short is none.
theorem readAddr_returns (r : Bytes) : Returns (readAddr string r) fun res =>
    ∀ request rest, res = some (request, rest) → ∃ a, Address string a request ∧ r = a ++ rest := by
  unfold readAddr
  cases htype : readFull 1 r with
  | none => exact returns_ok nofun
  | some tr =>
      obtain ⟨t, r⟩ := tr
      dsimp only
      refine (index_returns_of_readFull htype (by decide)).bind fun atyp hatyp => ?_
      obtain rfl := eq_singleton_of_readFull htype hatyp
      obtain ⟨-, rfl⟩ := readFull_iff.mp htype
      by_cases hip : atyp = atypV4 ∨ atyp = atypV6
      · rw [if_pos hip]
        cases haddr : readFull (if atyp = atypV6 then 16 else 4) r with
        | none => exact returns_ok nofun
        | some br =>
            obtain ⟨b, r⟩ := br
            obtain ⟨hlen, rfl⟩ := readFull_iff.mp haddr
            refine returns_ok fun request rest h => ?_
            obtain ⟨rfl, hhost, hrequest⟩ := readPort_iff.mp h
            obtain ⟨host, port, atyp⟩ := request
            subst hhost hrequest
            refine ⟨_, address_ip hip hlen port, ?_⟩
            simp only [appendUint16, List.cons_append, List.nil_append, List.append_assoc]
      · rw [if_neg hip]
        by_cases hdomain : atyp = atypDomain
        · rw [if_pos hdomain]
          cases hlength : readFull 1 r with
          | none => exact returns_ok nofun
          | some lr =>
              obtain ⟨l, r⟩ := lr
              dsimp only
              refine (index_returns_of_readFull hlength (by decide)).bind fun n hn => ?_
              obtain rfl := eq_singleton_of_readFull hlength hn
              obtain ⟨-, rfl⟩ := readFull_iff.mp hlength
              cases hname : readFull n.toNat r with
              | none => exact returns_ok nofun
              | some br =>
                  obtain ⟨b, r⟩ := br
                  obtain ⟨hlen, rfl⟩ := readFull_iff.mp hname
                  refine returns_ok fun request rest h => ?_
                  obtain ⟨rfl, hhost, hrequest⟩ := readPort_iff.mp h
                  obtain ⟨host, port, atyp⟩ := request
                  subst hhost hrequest
                  dsimp only at hdomain
                  subst hdomain
                  refine ⟨_, address_domain hlen port, ?_⟩
                  simp only [appendUint16, List.cons_append, List.nil_append, List.append_assoc]
        · rw [if_neg hdomain]
          exact returns_ok nofun

theorem readFull_appendUint16 {n : Nat} {b : Bytes} (h : b.length = n) (port : UInt16) (rest : Bytes) :
    readFull n (appendUint16 b port ++ rest) = some (b, (LittleEndian.bytes 2 port.toNat).reverse ++ rest) :=
  readFull_iff.mpr ⟨h, by rw [appendUint16, List.append_assoc]⟩

theorem readAddr_ip {r b rest : Bytes} {atyp : UInt8} (hip : atyp = atypV4 ∨ atyp = atypV6)
    (h : readFull (if atyp = atypV6 then 16 else 4) r = some (b, rest)) :
    readAddr string (atyp :: r) = .ok (readPort (string (.addrFromSlice b)) atyp rest) := by
  have hread : readFull 1 (atyp :: r) = some ([atyp], r) := if_pos (by simp)
  have hkind : index [atyp] 0 = .ok atyp := rfl
  simp only [readAddr, hread, hkind, bind, Except.bind, if_pos hip, h]
  rfl

theorem readAddr_domain {l : UInt8} {r b rest : Bytes} (h : readFull l.toNat r = some (b, rest)) :
    readAddr string (atypDomain :: l :: r) = .ok (readPort b atypDomain rest) := by
  have hread (x : UInt8) (xs : Bytes) : readFull 1 (x :: xs) = some ([x], xs) := if_pos (by simp)
  have hkind (x : UInt8) : index [x] 0 = .ok x := rfl
  have hip : ¬ (atypDomain = atypV4 ∨ atypDomain = atypV6) := by decide
  simp only [readAddr, hread, hkind, bind, Except.bind, if_neg hip, if_pos, h]
  rfl

theorem readAddr_address {a : Bytes} {request : Request} (h : Address string a request) (rest : Bytes) :
    readAddr string (a ++ rest) = .ok (some (request, rest)) := by
  cases h with
  | v4 a port =>
      refine (readAddr_ip (.inl rfl) (readFull_appendUint16 a.property port rest)).trans ?_
      rw [addrFromSlice_v4, readPort_be]
  | v6 a port =>
      refine (readAddr_ip (.inr rfl) (readFull_appendUint16 a.property port rest)).trans ?_
      rw [addrFromSlice_v6, readPort_be]
  | domain name hname port =>
      have hl : (UInt8.ofNat name.length).toNat = name.length := UInt8.toNat_ofNat_of_lt' hname
      refine (readAddr_domain (readFull_appendUint16 hl.symm port rest)).trans ?_
      rw [readPort_be]

theorem readAddr_iff (r : Bytes) : ∃ res, readAddr string r = .ok res ∧
    ∀ request rest, res = some (request, rest) ↔ ∃ a, Address string a request ∧ r = a ++ rest := by
  obtain ⟨res, hres, hgram⟩ := @readAddr_returns string r
  refine ⟨res, hres, fun request rest => ⟨hgram request rest, ?_⟩⟩
  rintro ⟨a, ha, rfl⟩
  exact Except.ok.inj (hres.symm.trans (readAddr_address ha rest))

end Grammar

section Connections

variable (string : Addr → Bytes) (user pass : Bytes)

theorem greet_returns (c : Bytes) : Returns (greet user pass c) fun res => ∀ c', res.1 = some c' → c' <:+ c := by
  unfold greet
  cases hhead : readFull 2 c with
  | none => exact returns_ok nofun
  | some hc =>
      obtain ⟨h, c₁⟩ := hc
      refine (index_returns_of_readFull hhead (by decide)).bind fun ver _ => ?_
      split_ifs
      · exact returns_ok nofun
      refine (index_returns_of_readFull hhead (by decide)).bind fun n _ => ?_
      cases hmethods : readFull n.toNat c₁ with
      | none => exact returns_ok nofun
      | some mc =>
          obtain ⟨methods, c₂⟩ := mc
          dsimp only
          split_ifs
          · exact returns_ok nofun
          cases hauth : readFull 2 c₂ with
          | none => exact returns_ok nofun
          | some vc =>
              obtain ⟨v, c₃⟩ := vc
              refine (index_returns_of_readFull hauth (by decide)).bind fun sub _ => ?_
              split_ifs
              · exact returns_ok nofun
              refine (index_returns_of_readFull hauth (by decide)).bind fun ul _ => ?_
              cases huser : readFull ul.toNat c₃ with
              | none => exact returns_ok nofun
              | some uc =>
                  obtain ⟨u, c₄⟩ := uc
                  dsimp only
                  cases hlength : readFull 1 c₄ with
                  | none => exact returns_ok nofun
                  | some lc =>
                      obtain ⟨pl, c₅⟩ := lc
                      refine (index_returns_of_readFull hlength (by decide)).bind fun n _ => ?_
                      cases hpass : readFull n.toNat c₅ with
                      | none => exact returns_ok nofun
                      | some pc =>
                          obtain ⟨p, c₆⟩ := pc
                          dsimp only
                          split_ifs
                          · refine returns_ok fun c' hc' => ?_
                            obtain rfl := Option.some_inj.mp hc'
                            exact (suffix_of_readFull hpass).trans <| (suffix_of_readFull hlength).trans <|
                              (suffix_of_readFull huser).trans <| (suffix_of_readFull hauth).trans <|
                              (suffix_of_readFull hmethods).trans (suffix_of_readFull hhead)
                          · exact returns_ok nofun

-- What a connection that goes on has sent in full: the command and the address it is about.
def Asked (c : Bytes) (cmd : UInt8) (request : Request) (rest : Bytes) : Prop :=
  ∃ before rsv a, Address string a request ∧ c = before ++ ([socksVer, cmd, rsv] ++ (a ++ rest))

theorem handle_returns (c : Bytes) : Returns (handle string user pass c) fun res =>
    (∀ request rest, res.1 = .connect request rest → Asked string c cmdConnect request rest) ∧
    ∀ rest, res.1 = .associate rest → ∃ request, Asked string c cmdUDP request rest := by
  unfold handle
  refine (greet_returns user pass c).bind fun ⟨next, written⟩ hgreet => ?_
  cases next with
  | none => exact returns_ok ⟨nofun, nofun⟩
  | some c₁ =>
      obtain ⟨before, rfl⟩ := hgreet c₁ rfl
      dsimp only
      cases hhdr : readFull 3 c₁ with
      | none => exact returns_ok ⟨nofun, nofun⟩
      | some hc =>
          obtain ⟨hdr, c₂⟩ := hc
          refine (index_returns_of_readFull hhdr (by decide)).bind fun ver hver => ?_
          by_cases hother : ver ≠ socksVer
          · rw [if_pos hother]
            exact returns_ok ⟨nofun, nofun⟩
          rw [if_neg hother]
          refine (@readAddr_returns string c₂).bind fun res haddr => ?_
          cases res with
          | none => exact returns_ok ⟨nofun, nofun⟩
          | some rr =>
              obtain ⟨request, c₃⟩ := rr
              refine (index_returns_of_readFull hhdr (by decide)).bind fun cmd hcmd => ?_
              obtain ⟨hlen, rfl⟩ := readFull_iff.mp hhdr
              obtain ⟨a, ha, rfl⟩ := haddr request c₃ rfl
              have hasked : Asked string (before ++ (hdr ++ (a ++ c₃))) cmd request c₃ := by
                obtain ⟨x, y, z, rfl⟩ := List.length_eq_three.mp hlen
                obtain rfl := Option.some_inj.mp hver
                obtain rfl := Option.some_inj.mp hcmd
                rw [not_not.mp hother]
                exact ⟨before, z, a, ha, rfl⟩
              split_ifs with hconnect hudp
              · refine returns_ok ⟨?_, nofun⟩
                rintro _ _ ⟨⟩
                exact hconnect ▸ hasked
              · refine returns_ok ⟨nofun, ?_⟩
                rintro _ ⟨⟩
                exact ⟨request, hudp ▸ hasked⟩
              · exact returns_ok ⟨nofun, nofun⟩

end Connections

-- What is sent back to the client parses to its source, and what is read from outside is read within its end:
-- fragments and addresses that are cut short are refused.
theorem socks_headers (string : Addr → Bytes) (user pass : Bytes) (src : AddrPort) (hvalid : src.addr ≠ .invalid)
    (hmapped : src.addr.is4In6 = false) (payload b : Bytes) :
    parseUDPHeader (udpHeader src ++ payload) = .ok (some (⟨src.addr.withoutZone, src.port⟩, [], payload)) ∧
    (∀ buf, room + payload.length ≤ buf.length → payload <+: buf.drop room →
      relayed src buf payload.length = .ok (udpHeader src ++ payload)) ∧
    (∃ r, parseUDPHeader b = .ok r ∧ ∀ dst name data, r = some (dst, name, data) ↔ Datagram b dst name data) ∧
    (∃ r, readAddr string b = .ok r ∧
      ∀ request rest, r = some (request, rest) ↔ ∃ a, Address string a request ∧ b = a ++ rest) ∧
    ∃ r, handle string user pass b = .ok r ∧
      (∀ request rest, r.1 = .connect request rest → Asked string b cmdConnect request rest) ∧
      ∀ rest, r.1 = .associate rest → ∃ request, Asked string b cmdUDP request rest := by
  refine ⟨parse_udpHeader hvalid hmapped payload, fun buf hroom hpayload => ?_, parseUDPHeader_iff b,
    readAddr_iff b, handle_returns string user pass b⟩
  rw [relayed_eq src hroom, unmap_of_not hmapped, ← List.prefix_iff_eq_take.mp hpayload]

theorem socks_headers_tracker : parseUDPHeader (udpHeader ⟨.v4 ⟨[10, 9, 0, 1], rfl⟩, 7001⟩ ++ [100, 104, 116]) =
    .ok (some (⟨.v4 ⟨[10, 9, 0, 1], rfl⟩, 7001⟩, [], [100, 104, 116])) :=
  (socks_headers (fun _ => []) [] [] ⟨.v4 ⟨[10, 9, 0, 1], rfl⟩, 7001⟩ nofun rfl [100, 104, 116] []).1

def linkLocal (zone : Bytes) : AddrPort := ⟨.v6 ⟨0xfe :: 0x80 :: (List.replicate 13 0 ++ [1]), rfl⟩ zone, 7001⟩

-- The header has no room for the zone of a link-local address.
theorem not_returned_with_zone :
    parseUDPHeader (udpHeader (linkLocal [101]) ++ []) ≠ .ok (some (linkLocal [101], [], [])) := by
  rw [@parse_udpHeader (linkLocal [101]) nofun rfl []]
  intro h
  simp [Addr.withoutZone, linkLocal] at h

end BATorrent.Socks
