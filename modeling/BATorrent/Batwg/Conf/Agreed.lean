import Mathlib.Data.List.Forall2
import BATorrent.Batwg.Conf.Accepted
import BATorrent.Services.WireguardConfig

namespace BATorrent.Conf

open Lib.Text Lib.Ini Wireguard
open Lib.DataStream (Bytes)

variable {Addr Prefix : Type} (qt : QtTables) (go : GoLib Addr Prefix)

def key (v : Text) : Option Bytes := (decodeKey v).toOption

-- The peer of a configuration, as the tunnel has it.
structure SamePeer (p : WgPeer) (q : PeerConf Prefix) : Prop where
  publicKey : ∃ k, key p.publicKey = some k ∧ q.publicKey = some k
  presharedKey : if p.presharedKey = [] then q.presharedKey = none
    else ∃ k, key p.presharedKey = some k ∧ q.presharedKey = some k
  endpoint : p.endpoint = q.endpoint
  allowedIPs : p.allowedIps.map (fun a => (allowed go a).toOption) = q.allowedIPs.map some
  keepalive : p.persistentKeepalive = q.keepalive

-- The texts of a configuration stand for what the tunnel has. Of the DNS entries only servers count.
structure Same (cfg : WgConfig) (c : WgConf Addr Prefix) : Prop where
  privateKey : ∃ k, key cfg.privateKey = some k ∧ c.privateKey = some k
  addresses : cfg.addresses.map (fun a => (address go a).toOption) = c.addresses.map some
  dns : cfg.dns.filterMap (fun a => (go.parseAddr a).toOption) = c.dns
  peers : List.Forall₂ (SamePeer go) cfg.peers c.peers

-- The items that the lines of a key list, all together.
def items (name : Text) (entries : List Entry) : List Text := (values name entries).flatMap splitList

-- The lines of the [Interface] parts that decide, cut the app's way and batwg's.
structure InterfaceAlike (app batwg : List Entry) : Prop where
  privateKey : ∃ k, key (setting "privatekey".toList id [] app) = some k ∧
    setting "privatekey".toList key none batwg = some k
  addresses : (setting "address".toList splitList [] app).map (fun a => (address go a).toOption) =
    (items "address".toList batwg).map fun a => (address go a).toOption
  dns : (setting "dns".toList splitList [] app).filterMap (fun a => (go.parseAddr a).toOption) =
    (items "dns".toList batwg).filterMap fun a => (go.parseAddr a).toOption

-- The same of a [Peer] part.
structure PeerAlike (app batwg : List Entry) : Prop where
  publicKey : ∃ k, key (setting "publickey".toList id [] app) = some k ∧
    setting "publickey".toList key none batwg = some k
  presharedKey : if setting "presharedkey".toList id [] app = [] then last "presharedkey".toList batwg = none
    else ∃ k, key (setting "presharedkey".toList id [] app) = some k ∧
      setting "presharedkey".toList key none batwg = some k
  endpoint : setting "endpoint".toList id [] app = setting "endpoint".toList id [] batwg
  allowedIPs : (setting "allowedips".toList splitList [] app).map (fun a => (allowed go a).toOption) =
    (items "allowedips".toList batwg).map fun a => (allowed go a).toOption
  keepalive : setting "persistentkeepalive".toList toInt 0 app =
    setting "persistentkeepalive".toList (keepalive go) 0 batwg

-- Each line batwg gets to see is one it takes, and the lines that decide are alike.
structure Plain (text : Text) : Prop where
  keyed : .keyless ∉ lines go text
  taken : (sheet (lines go text)).Good Known (Taken go) []
  interface : InterfaceAlike go ((sheet (Wireguard.lines qt text)).named "interface".toList).flatten
    ((sheet (lines go text)).named "interface".toList).flatten
  peers : List.Forall₂ (PeerAlike go) ((sheet (Wireguard.lines qt text)).named "peer".toList)
    ((sheet (lines go text)).named "peer".toList)

section Settled

variable {go}

theorem wgList_eq (v : Text) : wgList v = splitList v := by
  unfold wgList splitList
  induction v.splitOn ',' with
  | nil => rfl
  | cons p rest ih =>
      by_cases hp : p = []
      · rw [List.filter_cons_of_neg (by simpa using hp), ih, hp]
        rfl
      · rw [List.filter_cons_of_pos (by simpa using hp), List.map_cons, List.map_cons, List.filter_cons,
          List.filter_cons, ih]

-- What is taken reads throughout, so leaving out what does not read leaves out nothing.
theorem map_some_filterMap {α β : Type*} {f : α → Option β} {l : List α} (h : ∀ a ∈ l, ∃ b, f a = some b) :
    (l.filterMap f).map some = l.map f := by
  induction l with
  | nil => rfl
  | cons a rest ih =>
      obtain ⟨⟨b, hb⟩, hrest⟩ := List.forall_mem_cons.mp h
      rw [List.filterMap_cons_some hb, List.map_cons, List.map_cons, ih hrest, hb]

theorem map_some_items {α : Type*} {f : Text → Option α} (name : Text) (entries : List Entry)
    (h : ∀ v ∈ values name entries, ∀ a ∈ splitList v, ∃ b, f a = some b) :
    ((values name entries).flatMap fun v => (splitList v).filterMap f).map some =
      (items name entries).map f := by
  rw [← List.filterMap_flatMap, items]
  apply map_some_filterMap
  intro a ha
  obtain ⟨v, hv, hav⟩ := List.mem_flatMap.mp ha
  exact h v hv a hav

theorem takenPeer_presharedKey {v : Text} : TakenPeer go ("presharedkey".toList, v) ↔ IsKey v := by
  simp [TakenPeer]

theorem takenPeer_allowedIPs {v : Text} :
    TakenPeer go ("allowedips".toList, v) ↔ ∀ a ∈ splitList v, ∃ p, allowed go a = .ok p := by
  simp [TakenPeer]

theorem takenInterface_address {v : Text} :
    TakenInterface go ("address".toList, v) ↔ ∀ a ∈ splitList v, ∃ ad, address go a = .ok ad := by
  simp [TakenInterface]

theorem toOption_of_ok {α : Type*} {x : Except Text α} (h : ∃ a, x = .ok a) : ∃ a, x.toOption = some a := by
  obtain ⟨a, rfl⟩ := h
  exact ⟨a, rfl⟩

theorem key_eq_none {entries : List Entry} (h : ∀ e ∈ entries, TakenPeer go e) :
    setting "presharedkey".toList key none entries = none ↔ last "presharedkey".toList entries = none := by
  unfold setting
  cases hlast : last "presharedkey".toList entries with
  | none => exact iff_of_true rfl rfl
  | some v =>
      obtain ⟨k, hk⟩ := takenPeer_presharedKey.mp (h _ (mem_of_last hlast))
      refine iff_of_false ?_ nofun
      change key v ≠ none
      rw [key, hk]
      exact nofun

theorem samePeer_iff {app batwg : List Entry} (h : ∀ e ∈ batwg, TakenPeer go e) :
    SamePeer go (app.foldl Wireguard.setPeer {}) (batwg.foldl (notePeer go) {}) ↔ PeerAlike go app batwg := by
  have hitems := map_some_items (f := fun a => (allowed go a).toOption) "allowedips".toList batwg
    fun v hv a ha => toOption_of_ok (takenPeer_allowedIPs.mp (h _ (mem_values.mp hv)) a ha)
  rw [foldl_setPeer, foldl_notePeer, funext wgList_eq]
  constructor
  · intro hsame
    refine ⟨hsame.publicKey, ?_, hsame.endpoint, hsame.allowedIPs.trans hitems, hsame.keepalive⟩
    have hshared := hsame.presharedKey
    split_ifs at hshared ⊢ with hnone
    · exact (key_eq_none h).mp hshared
    · exact hshared
  · intro halike
    refine ⟨halike.publicKey, ?_, halike.endpoint, halike.allowedIPs.trans hitems.symm, halike.keepalive⟩
    have hshared := halike.presharedKey
    split_ifs at hshared ⊢ with hnone
    · exact (key_eq_none h).mpr hshared
    · exact hshared

theorem forall₂_congr_right {α β : Type*} {R S : α → β → Prop} {l : List α} {r : List β}
    (h : ∀ b ∈ r, ∀ a, R a b ↔ S a b) : List.Forall₂ R l r ↔ List.Forall₂ S l r := by
  induction r generalizing l with
  | nil => rw [List.forall₂_nil_right_iff, List.forall₂_nil_right_iff]
  | cons b rest ih =>
      obtain ⟨hb, hrest⟩ := List.forall_mem_cons.mp h
      rw [List.forall₂_cons_right_iff, List.forall₂_cons_right_iff]
      simp only [hb, ih hrest]

variable {sh : Sheet} (hgood : sh.Good Known (Taken go) [])

include hgood in
theorem taken_interface : ∀ e ∈ (sh.named "interface".toList).flatten, TakenInterface go e := by
  intro e he
  obtain ⟨entries, hentries, hmem⟩ := List.mem_flatten.mp he
  obtain ⟨p, hp, rfl⟩ := List.mem_map.mp hentries
  obtain ⟨hpart, hname⟩ := List.mem_filter.mp hp
  have htaken := (hgood.parts p hpart).2 e hmem
  rw [of_decide_eq_true hname] at htaken
  exact htaken

include hgood in
theorem taken_peers : ∀ entries ∈ sh.named "peer".toList, ∀ e ∈ entries, TakenPeer go e := by
  intro entries hentries e hmem
  obtain ⟨p, hp, rfl⟩ := List.mem_map.mp hentries
  obtain ⟨hpart, hname⟩ := List.mem_filter.mp hp
  have htaken := (hgood.parts p hpart).2 e hmem
  rw [of_decide_eq_true hname] at htaken
  exact htaken

include hgood in
theorem same_iff (app : Sheet) :
    Same go { (Wireguard.filled app).cfg with valid := true } (filled go sh).c ↔
      InterfaceAlike go (app.named "interface".toList).flatten (sh.named "interface".toList).flatten ∧
        List.Forall₂ (PeerAlike go) (app.named "peer".toList) (sh.named "peer".toList) := by
  have hcfg := (Wireguard.filled_own app).trans (foldl_setInterface _)
  have hc : (filled go sh).c.own = _ := (filled_own sh).trans (foldl_noteInterface go _)
  have hitems := map_some_items (f := fun a => (address go a).toOption) "address".toList
    (sh.named "interface".toList).flatten fun v hv a ha =>
      toOption_of_ok (takenInterface_address.mp (taken_interface hgood _ (mem_values.mp hv)) a ha)
  have hpeers : List.Forall₂ (SamePeer go) (Wireguard.filled app).cfg.peers (filled go sh).c.peers ↔
      List.Forall₂ (PeerAlike go) (app.named "peer".toList) (sh.named "peer".toList) := by
    rw [Wireguard.filled_peers, filled_peers, List.forall₂_map_left_iff, List.forall₂_map_right_iff]
    exact forall₂_congr_right fun batwg hbatwg app => samePeer_iff (taken_peers hgood batwg hbatwg)
  rw [funext wgList_eq] at hcfg
  have hkey := congrArg WgConfig.privateKey hcfg
  have haddresses := congrArg WgConfig.addresses hcfg
  have hdns := congrArg WgConfig.dns hcfg
  have hkey' := congrArg WgConf.privateKey hc
  have haddresses' := congrArg WgConf.addresses hc
  have hdns' := congrArg WgConf.dns hc
  dsimp only [WgConfig.own, WgConf.own, Wireguard.interface] at hkey haddresses hdns hkey' haddresses' hdns'
  constructor
  · intro hsame
    refine ⟨⟨?_, ?_, ?_⟩, hpeers.mp hsame.peers⟩
    · rw [← hkey]
      exact hkey' ▸ hsame.privateKey
    · rw [← haddresses, ← hitems, ← haddresses']
      exact hsame.addresses
    · rw [← hdns, items, List.filterMap_flatMap, ← hdns']
      exact hsame.dns
  · rintro ⟨halike, hall⟩
    refine ⟨?_, ?_, ?_, hpeers.mpr hall⟩
    · dsimp only
      rw [hkey, hkey']
      exact halike.privateKey
    · dsimp only
      rw [haddresses, haddresses', hitems]
      exact halike.addresses
    · dsimp only
      rw [hdns, hdns', ← List.filterMap_flatMap]
      exact halike.dns

end Settled

section Finish

variable {go}

theorem finish_ok {c t : WgConf Addr Prefix} :
    finish c = .ok t ↔
      (c.privateKey ≠ none ∧ c.addresses ≠ [] ∧ c.peers ≠ [] ∧ ∀ p ∈ c.peers, lacking p = none) ∧ t = c := by
  unfold finish
  split_ifs with hkey haddresses hpeers
  · exact iff_of_false nofun fun h => h.1.1 hkey
  · exact iff_of_false nofun fun h => h.1.2.1 (List.isEmpty_iff.mp haddresses)
  · exact iff_of_false nofun fun h => h.1.2.2.1 (List.isEmpty_iff.mp hpeers)
  · rw [List.isEmpty_iff] at haddresses hpeers
    have hlacking : (c.peers.zipIdx.findSome? fun p => (lacking p.1).map fun what => (p.2, what)) = none ↔
        ∀ p ∈ c.peers, lacking p = none := by
      rw [List.findSome?_eq_none_iff]
      constructor
      · intro h p hp
        obtain ⟨i, hi⟩ := List.mem_iff_getElem?.mp hp
        exact Option.map_eq_none_iff.mp (h (p, i) (List.mk_mem_zipIdx_iff_getElem?.mpr hi))
      · rintro h ⟨p, i⟩ hp
        exact Option.map_eq_none_iff.mpr (h p (List.mem_of_getElem? (List.mk_mem_zipIdx_iff_getElem?.mp hp)))
    cases hfind : c.peers.zipIdx.findSome? fun p => (lacking p.1).map fun what => (p.2, what) with
    | some found =>
        refine iff_of_false nofun fun h => ?_
        rw [hlacking.mpr h.1.2.2.2] at hfind
        cases hfind
    | none =>
        constructor
        · intro h
          exact ⟨⟨hkey, haddresses, hpeers, hlacking.mp hfind⟩, (Except.ok.inj h).symm⟩
        · rintro ⟨-, rfl⟩
          rfl

theorem parseConf_ok {text : Text} {c : WgConf Addr Prefix} :
    parseConf go text = .ok c ↔
      (.keyless ∉ lines go text ∧ (sheet (lines go text)).Good Known (Taken go) []) ∧
        finish (filled go (sheet (lines go text))).c = .ok c := by
  unfold parseConf
  constructor
  · intro h
    cases hscan : scan go {} 0 (lines go text) with
    | error why =>
        rw [hscan] at h
        cases h
    | ok s =>
        rw [hscan] at h
        obtain ⟨hall, rfl⟩ := (checks.foldlM {} s _).mp ((scan_ok {} s 0 _).mp hscan)
        exact ⟨hall, h⟩
  · rintro ⟨hall, hfinish⟩
    have hscan := (scan_ok {} _ 0 (lines go text)).mpr ((checks.foldlM {} _ _).mpr ⟨hall, rfl⟩)
    rw [hscan]
    exact hfinish

theorem exists_left {α β : Type*} {R : α → β → Prop} {l : List α} {r : List β} (h : List.Forall₂ R l r) :
    ∀ b ∈ r, ∃ a ∈ l, R a b := by
  induction h with
  | nil => exact nofun
  | cons hab _ ih =>
      intro b hb
      cases hb with
      | head => exact ⟨_, List.mem_cons_self, hab⟩
      | tail _ hb =>
          obtain ⟨a, ha, hR⟩ := ih b hb
          exact ⟨a, List.mem_cons_of_mem _ ha, hR⟩

theorem SamePeer.lacking {p : WgPeer} {q : PeerConf Prefix} (h : SamePeer go p q)
    (hcheck : checkPeer qt p = none) : lacking q = none := by
  obtain ⟨hendpoint, hallowed⟩ := checkPeer_none hcheck
  obtain ⟨k, -, hk⟩ := h.publicKey
  have hips : q.allowedIPs ≠ [] := by
    intro hnone
    have hmap := h.allowedIPs
    rw [hnone] at hmap
    exact hallowed (List.map_eq_nil_iff.mp hmap)
  unfold Conf.lacking
  rw [hk, if_neg (Option.some_ne_none k), ← h.endpoint, if_neg hendpoint, if_neg (by simpa using hips)]

-- A configuration that the app accepts and the tunnel has the same of lacks nothing.
theorem Same.finish {cfg : WgConfig} {c : WgConf Addr Prefix} (h : Same go { cfg with valid := true } c)
    (haccepted : Accepted qt cfg) : finish c = .ok c := by
  apply finish_ok.mpr
  refine ⟨⟨?_, ?_, ?_, ?_⟩, rfl⟩
  · obtain ⟨k, -, hk⟩ := h.privateKey
    rw [hk]
    exact Option.some_ne_none k
  · intro hnone
    have hmap := h.addresses
    rw [hnone] at hmap
    exact haccepted.addresses (List.map_eq_nil_iff.mp hmap)
  · intro hnone
    have hpeers := h.peers
    rw [hnone, List.forall₂_nil_right_iff] at hpeers
    exact haccepted.peers hpeers
  · intro q hq
    obtain ⟨p, hp, hsame⟩ := exists_left h.peers q hq
    exact hsame.lacking qt (haccepted.peer p hp)

end Finish

variable {qt}

theorem parsers_agree_iff {text : Text} (h : (parseWireguardConfig qt text).valid = true) :
    (∃ c, parseConf go text = .ok c ∧ Same go (parseWireguardConfig qt text) c) ↔ Plain qt go text := by
  rw [parseWireguardConfig_eq] at h ⊢
  obtain ⟨heq, haccepted⟩ := validate_valid (filled_valid _) h
  rw [heq]
  constructor
  · rintro ⟨c, hc, hsame⟩
    obtain ⟨⟨hkeyed, hgood⟩, hfinish⟩ := parseConf_ok.mp hc
    obtain ⟨-, rfl⟩ := finish_ok.mp hfinish
    obtain ⟨hinterface, hpeers⟩ := (same_iff hgood _).mp hsame
    exact ⟨hkeyed, hgood, hinterface, hpeers⟩
  · intro hplain
    have hsame := (same_iff hplain.taken (sheet (Wireguard.lines qt text))).mpr
      ⟨hplain.interface, hplain.peers⟩
    exact ⟨_, parseConf_ok.mpr ⟨⟨hplain.keyed, hplain.taken⟩, hsame.finish qt haccepted⟩, hsame⟩

section Repeated

variable {go}

-- Nothing is listed by the lines of a key before its last.
def ListedOnce (name : Text) (entries : List Entry) : Prop :=
  ∀ v ∈ (values name entries).dropLast, splitList v = []

end Repeated

section Profiles

def asciiTables : QtTables := ⟨fun _ => false, fun c => [c]⟩

def decimal (most : Nat) (t : Text) : Option Nat :=
  match digits? t with
  | some n => if n ≤ most ∧ (t.length = 1 ∨ t.head? ≠ some '0') then some n else none
  | none => none

def quad (t : Text) : Except Text (List Nat) :=
  match (t.splitOn '.').mapM (decimal 255) with
  | some [a, b, c, d] => .ok [a, b, c, d]
  | _ => .error "unable to parse IP".toList

-- The packages on ASCII text with IPv4 addresses only.
def quads : GoLib (List Nat) (List Nat × Nat) where
  toLower c := c
  quote t := '"' :: t ++ ['"']
  parseAddr := quad
  parsePrefix t :=
    match t.splitOn '/' with
    | [a, n] =>
        match quad a, decimal 32 n with
        | .ok ip, some bits => .ok (ip, bits)
        | _, _ => .error "bad prefix".toList
    | _ => .error "no '/'".toList
  addr := Prod.fst
  whole ip := (ip, 32)
  masked p :=
    (p.1.zipIdx.map fun (o, i) =>
      let host := 8 - min 8 (p.2 - 8 * i)
      o / 2 ^ host * 2 ^ host, p.2)

def zeroKey : Text := List.replicate 43 'A' ++ ['=']

def profile (allowedIPs : String) : Text :=
  "[Interface]\nPrivateKey = ".toList ++ zeroKey ++ "\nAddress = 10.0.0.2/32\n[Peer]\nPublicKey = ".toList ++
    zeroKey ++ "\nEndpoint = a:1\nAllowedIPs = ".toList ++ allowedIPs.toList

def zeroBytes : Bytes := List.replicate 32 0

theorem plain_profile : Plain asciiTables quads (profile "0.0.0.0/0") := by
  apply (parsers_agree_iff quads (by decide +kernel)).mp
  have happ : parseWireguardConfig asciiTables (profile "0.0.0.0/0") =
      { privateKey := zeroKey
        addresses := ["10.0.0.2/32".toList]
        peers := [{ publicKey := zeroKey, endpoint := "a:1".toList, allowedIps := ["0.0.0.0/0".toList] }]
        valid := true } := by
    decide +kernel
  have hkey : key zeroKey = some zeroBytes := by decide +kernel
  refine ⟨{ privateKey := some zeroBytes
            addresses := [[10, 0, 0, 2]]
            peers := [{ publicKey := some zeroBytes, endpoint := "a:1".toList,
                        allowedIPs := [([0, 0, 0, 0], 0)] }] }, by decide +kernel, ?_⟩
  rw [happ]
  refine ⟨⟨_, hkey, rfl⟩, by decide +kernel, rfl, .cons ⟨⟨_, hkey, rfl⟩, rfl, rfl, by decide +kernel, rfl⟩ .nil⟩

-- The app takes an allowed address without its length, batwg does not.
theorem refuses_bare_allowed :
    ¬ ∀ text, (parseWireguardConfig asciiTables text).valid = true →
      ∃ c, parseConf quads text = .ok c ∧ Same quads (parseWireguardConfig asciiTables text) c := by
  intro h
  obtain ⟨c, hc, -⟩ := h (profile "10.9.0.1") (by decide +kernel)
  have hnone : (parseConf quads (profile "10.9.0.1")).toOption = none := by decide +kernel
  rw [hc] at hnone
  cases hnone

end Profiles

end BATorrent.Conf
