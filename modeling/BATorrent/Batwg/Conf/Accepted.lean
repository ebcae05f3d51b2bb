import BATorrent.Batwg.Conf

namespace BATorrent.Conf

open Lib.Text Lib.Ini
open Lib.DataStream (Bytes)

variable {Addr Prefix : Type} (go : GoLib Addr Prefix)

section Results

variable {ε α β : Type*}

-- A list is read through when each of its items reads.
theorem mapM_ok {f : α → Except ε β} {l : List α} {r : List β} :
    l.mapM f = .ok r ↔ (∀ a ∈ l, ∃ b, f a = .ok b) ∧ r = l.filterMap fun a => (f a).toOption := by
  induction l generalizing r with
  | nil =>
      rw [List.mapM_nil]
      constructor
      · intro h
        exact ⟨nofun, (Except.ok.inj h).symm⟩
      · rintro ⟨-, rfl⟩
        rfl
  | cons a rest ih =>
      rw [List.mapM_cons, List.forall_mem_cons]
      cases ha : f a with
      | error e =>
          constructor
          · intro h
            cases h
          · rintro ⟨⟨⟨b, hb⟩, -⟩, -⟩
            cases hb
      | ok b =>
          rw [List.filterMap_cons_some (b := b) (by rw [ha]; rfl)]
          cases hrest : rest.mapM f with
          | error e =>
              constructor
              · intro h
                cases h
              · rintro ⟨⟨-, hall⟩, -⟩
                have hok := ih.mpr ⟨hall, rfl⟩
                rw [hrest] at hok
                cases hok
          | ok bs =>
              obtain ⟨hall, hbs⟩ := ih.mp hrest
              rw [← hbs]
              constructor
              · intro h
                exact ⟨⟨⟨b, rfl⟩, hall⟩, (Except.ok.inj h).symm⟩
              · rintro ⟨-, rfl⟩
                rfl

theorem map_ok {f : α → β} {x : Except ε α} {b : β} : x.map f = .ok b ↔ ∃ a, x = .ok a ∧ b = f a := by
  cases x with
  | error e =>
      constructor
      · intro h
        cases h
      · rintro ⟨a, ha, -⟩
        cases ha
  | ok a =>
      constructor
      · intro h
        exact ⟨a, rfl, (Except.ok.inj h).symm⟩
      · rintro ⟨a', ha, rfl⟩
        obtain rfl := Except.ok.inj ha
        rfl

end Results

-- What a value that is taken is noted as.
def noteInterface (c : WgConf Addr Prefix) (e : Entry) : WgConf Addr Prefix :=
  if e.1 = "privatekey".toList then { c with privateKey := (decodeKey e.2).toOption }
  else if e.1 = "address".toList then
    { c with addresses := c.addresses ++ (splitList e.2).filterMap fun a => (address go a).toOption }
  else if e.1 = "dns".toList then
    { c with dns := c.dns ++ (splitList e.2).filterMap fun a => (go.parseAddr a).toOption }
  else if e.1 = "mtu".toList then { c with mtu := (atoi go e.2).toOption.getD 0 }
  else c

def keepalive (v : Text) : Int := if equalFoldOff v then 0 else (atoi go v).toOption.getD 0

def notePeer (p : PeerConf Prefix) (e : Entry) : PeerConf Prefix :=
  if e.1 = "publickey".toList then { p with publicKey := (decodeKey e.2).toOption }
  else if e.1 = "presharedkey".toList then { p with presharedKey := (decodeKey e.2).toOption }
  else if e.1 = "endpoint".toList then { p with endpoint := e.2 }
  else if e.1 = "allowedips".toList then
    { p with allowedIPs := p.allowedIPs ++ (splitList e.2).filterMap fun a => (allowed go a).toOption }
  else if e.1 = "persistentkeepalive".toList then { p with keepalive := keepalive go e.2 }
  else p

def IsKey (v : Text) : Prop := ∃ k, decodeKey v = .ok k

def IsMtu (v : Text) : Prop := ∃ n, atoi go v = .ok n ∧ 576 ≤ n ∧ n ≤ 65535

def IsKeepalive (v : Text) : Prop := equalFoldOff v = true ∨ ∃ n, atoi go v = .ok n

-- The values that are taken in an [Interface] part.
def TakenInterface (e : Entry) : Prop :=
  if e.1 = "privatekey".toList then IsKey e.2
  else if e.1 = "address".toList then ∀ a ∈ splitList e.2, ∃ ad, address go a = .ok ad
  else if e.1 = "dns".toList then True
  else if e.1 = "mtu".toList then IsMtu go e.2
  else True

def TakenPeer (e : Entry) : Prop :=
  if e.1 = "publickey".toList then IsKey e.2
  else if e.1 = "presharedkey".toList then IsKey e.2
  else if e.1 = "endpoint".toList then True
  else if e.1 = "allowedips".toList then ∀ a ∈ splitList e.2, ∃ p, allowed go a = .ok p
  else if e.1 = "persistentkeepalive".toList then IsKeepalive go e.2
  else True

section Taken

variable {go}

theorem decodeKey_map_ok {α : Type*} {f : Option Bytes → α} {v : Text} {b : α} :
    (decodeKey v).map (fun k => f (some k)) = .ok b ↔ IsKey v ∧ b = f (decodeKey v).toOption := by
  rw [map_ok]
  constructor
  · rintro ⟨k, hk, rfl⟩
    rw [hk]
    exact ⟨⟨k, hk⟩, rfl⟩
  · rintro ⟨⟨k, hk⟩, rfl⟩
    refine ⟨k, hk, ?_⟩
    rw [hk]
    rfl

theorem mapM_map_ok {ε α β γ : Type*} {f : α → Except ε β} {g : List β → γ} {l : List α} {b : γ} :
    (l.mapM f).map g = .ok b ↔
      (∀ a ∈ l, ∃ b, f a = .ok b) ∧ b = g (l.filterMap fun a => (f a).toOption) := by
  rw [map_ok]
  constructor
  · rintro ⟨r, hr, rfl⟩
    obtain ⟨hall, rfl⟩ := mapM_ok.mp hr
    exact ⟨hall, rfl⟩
  · rintro ⟨hall, rfl⟩
    exact ⟨_, mapM_ok.mpr ⟨hall, rfl⟩, rfl⟩

theorem ok_taken {α : Type*} {a b : α} : (.ok a : Except Text α) = .ok b ↔ True ∧ b = a := by
  rw [true_and]
  exact ⟨fun h => (Except.ok.inj h).symm, fun h => h ▸ rfl⟩

theorem setInterface_ok {c t : WgConf Addr Prefix} {e : Entry} :
    setInterface go c e = .ok t ↔ TakenInterface go e ∧ t = noteInterface go c e := by
  unfold setInterface noteInterface TakenInterface
  split_ifs with hkey haddress hdns hmtu
  · exact decodeKey_map_ok (f := fun k => { c with privateKey := k })
  · exact mapM_map_ok
  · exact ok_taken
  · cases hn : atoi go e.2 with
    | error why =>
        constructor
        · intro h
          cases h
        · rintro ⟨⟨n, hok, -⟩, -⟩
          rw [hn] at hok
          cases hok
    | ok n =>
        have hmtu : IsMtu go e.2 ↔ ¬ (n < 576 ∨ n > 65535) := by
          unfold IsMtu
          rw [hn]
          constructor
          · rintro ⟨m, hm, hlow, hhigh⟩
            obtain rfl := Except.ok.inj hm
            omega
          · intro h
            exact ⟨n, rfl, by omega, by omega⟩
        rw [hmtu]
        change (if n < 576 ∨ n > 65535 then _ else _) = _ ↔ _
        split_ifs with hrange
        · exact iff_of_false nofun fun h => h.1 hrange
        · exact ok_taken.trans (and_congr_left' (iff_of_true trivial hrange))
  · exact ok_taken

theorem setPeer_ok {p t : PeerConf Prefix} {e : Entry} :
    setPeer go p e = .ok t ↔ TakenPeer go e ∧ t = notePeer go p e := by
  unfold setPeer notePeer TakenPeer
  split_ifs with hpublic hshared hendpoint hallowed hkeepalive hoff
  · exact decodeKey_map_ok (f := fun k => { p with publicKey := k })
  · exact decodeKey_map_ok (f := fun k => { p with presharedKey := k })
  · exact ok_taken
  · exact mapM_map_ok
  · have hzero : keepalive go e.2 = 0 := if_pos hoff
    rw [hzero]
    exact ok_taken.trans (and_congr_left' (iff_of_true trivial (.inl hoff)))
  · rw [map_ok, IsKeepalive, keepalive, if_neg hoff]
    constructor
    · rintro ⟨n, hn, rfl⟩
      rw [hn]
      exact ⟨.inr ⟨n, rfl⟩, rfl⟩
    · rintro ⟨hoff' | ⟨n, hn⟩, rfl⟩
      · exact absurd hoff' hoff
      · rw [hn]
        exact ⟨n, rfl, rfl⟩
  · exact ok_taken

end Taken

def enter (s : Parsing Addr Prefix) (name : Text) : Parsing Addr Prefix :=
  if name = "peer".toList then ⟨{ s.c with peers := s.c.peers ++ [{}] }, name⟩ else ⟨s.c, name⟩

def assign (s : Parsing Addr Prefix) (e : Entry) : Parsing Addr Prefix :=
  if s.place = "interface".toList then ⟨noteInterface go s.c e, s.place⟩
  else if s.place = "peer".toList then ⟨{ s.c with peers := s.c.peers.modifyLast (notePeer go · e) }, s.place⟩
  else s

def Known (name : Text) : Prop := name = "peer".toList ∨ name = "interface".toList

def Taken (place : Text) (e : Entry) : Prop :=
  if place = "interface".toList then TakenInterface go e
  else if place = "peer".toList then TakenPeer go e
  else False

section Scan

variable {go}

theorem modifyLast_getLastD {α : Type*} (l : List α) (a : α) (f : α → α) :
    (l.modifyLast fun _ => f (l.getLastD a)) = l.modifyLast f := by
  induction l using List.reverseRecOn with
  | nil => rfl
  | append_singleton rest b ih =>
      rw [List.modifyLast_concat, List.modifyLast_concat, List.getLastD_concat]

theorem mapError_map_ok {α β : Type*} {x : Except Text α} {f : Text → Text} {g : α → β} {b : β} :
    (x.mapError f).map g = .ok b ↔ ∃ a, x = .ok a ∧ b = g a := by
  cases x with
  | error e =>
      constructor
      · intro h
        cases h
      · rintro ⟨a, ha, -⟩
        cases ha
  | ok a => exact map_ok

theorem checks : Checks (σ := Parsing Addr Prefix) enter (assign go) Parsing.place Known (Taken go) (step go) where
  blank _ := rfl
  keyless _ _ := nofun
  header s t name := by
    unfold step enter Known
    dsimp only
    split_ifs with hpeer hinterface
    · exact ok_taken.trans (and_congr_left' (iff_of_true trivial (.inl hpeer)))
    · exact ok_taken.trans (and_congr_left' (iff_of_true trivial (.inr hinterface)))
    · refine iff_of_false nofun ?_
      rintro ⟨hname | hname, -⟩
      · exact hpeer hname
      · exact hinterface hname
  pair s t key val := by
    unfold step assign Taken
    dsimp only
    split_ifs with hinterface hpeer
    · rw [mapError_map_ok]
      constructor
      · rintro ⟨c, hc, rfl⟩
        obtain ⟨htaken, rfl⟩ := setInterface_ok.mp hc
        exact ⟨htaken, rfl⟩
      · rintro ⟨htaken, rfl⟩
        exact ⟨_, setInterface_ok.mpr ⟨htaken, rfl⟩, rfl⟩
    · rw [mapError_map_ok]
      constructor
      · rintro ⟨p, hp, rfl⟩
        obtain ⟨htaken, rfl⟩ := setPeer_ok.mp hp
        refine ⟨htaken, ?_⟩
        rw [modifyLast_getLastD s.c.peers {} fun p => notePeer go p (key, val)]
      · rintro ⟨htaken, rfl⟩
        refine ⟨_, setPeer_ok.mpr ⟨htaken, rfl⟩, ?_⟩
        rw [modifyLast_getLastD s.c.peers {} fun p => notePeer go p (key, val)]
    · exact iff_of_false nofun fun h => h.1
  enter s name := by
    unfold enter
    split_ifs <;> rfl
  assign s e := by
    unfold assign
    split_ifs <;> rfl

theorem scan_ok (s t : Parsing Addr Prefix) (count : Nat) (ls : List Line) :
    scan go s count ls = .ok t ↔ ls.foldlM (step go) s = .ok t := by
  induction ls generalizing s count with
  | nil => rfl
  | cons l rest ih =>
      rw [scan, List.foldlM_cons]
      cases step go s l with
      | error why => exact iff_of_false nofun nofun
      | ok u => exact ih u (count + 1)

end Scan

section Fill

variable {go} {c : WgConf Addr Prefix} {entries : List Entry}

theorem foldl_assign_other {place : Text} (h : place ≠ "interface".toList) (hp : place ≠ "peer".toList) :
    entries.foldl (assign go) ⟨c, place⟩ = ⟨c, place⟩ := by
  induction entries with
  | nil => rfl
  | cons e rest ih =>
      have he : assign go ⟨c, place⟩ e = ⟨c, place⟩ := by
        unfold assign
        rw [if_neg h, if_neg hp]
      rw [List.foldl_cons, he, ih]

theorem foldl_assign_interface :
    entries.foldl (assign go) ⟨c, "interface".toList⟩ =
      ⟨entries.foldl (noteInterface go) c, "interface".toList⟩ := by
  induction entries generalizing c with
  | nil => rfl
  | cons e rest ih => exact ih

theorem foldl_assign_peer {earlier : List (PeerConf Prefix)} {p : PeerConf Prefix} :
    entries.foldl (assign go) ⟨{ c with peers := earlier ++ [p] }, "peer".toList⟩ =
      ⟨{ c with peers := earlier ++ [entries.foldl (notePeer go) p] }, "peer".toList⟩ := by
  induction entries generalizing p with
  | nil => rfl
  | cons e rest ih =>
      have he : assign go ⟨{ c with peers := earlier ++ [p] }, "peer".toList⟩ e =
          ⟨{ c with peers := earlier ++ [notePeer go p e] }, "peer".toList⟩ := by
        have hpeer : "peer".toList ≠ "interface".toList := by decide
        unfold assign
        rw [if_neg hpeer, if_pos rfl]
        dsimp only
        rw [List.modifyLast_concat]
      rw [List.foldl_cons, he, ih, List.foldl_cons]

theorem noteInterface_with (peers : List (PeerConf Prefix)) (e : Entry) :
    noteInterface go { c with peers := peers } e = { noteInterface go c e with peers := peers } := by
  unfold noteInterface
  split_ifs <;> rfl

theorem noteInterface_peers (e : Entry) : (noteInterface go c e).peers = c.peers := by
  unfold noteInterface
  split_ifs <;> rfl

theorem foldl_noteInterface_peers : (entries.foldl (noteInterface go) c).peers = c.peers := by
  induction entries generalizing c with
  | nil => rfl
  | cons e rest ih => rw [List.foldl_cons, ih, noteInterface_peers]

theorem foldl_noteInterface_with (peers : List (PeerConf Prefix)) :
    entries.foldl (noteInterface go) { c with peers := peers } =
      { entries.foldl (noteInterface go) c with peers := peers } := by
  induction entries generalizing c with
  | nil => rfl
  | cons e rest ih => rw [List.foldl_cons, noteInterface_with, ih, List.foldl_cons]

end Fill

def WgConf.own (c : WgConf Addr Prefix) : WgConf Addr Prefix := { c with peers := [] }

def filled (sh : Sheet) : Parsing Addr Prefix := sh.fill enter (assign go) {}

section Filled

variable {go} {s : Parsing Addr Prefix} {entries : List Entry}

theorem foldl_enter_interface :
    entries.foldl (assign go) (enter s "interface".toList) =
      ⟨entries.foldl (noteInterface go) s.c, "interface".toList⟩ :=
  foldl_assign_interface

theorem foldl_enter_peer :
    entries.foldl (assign go) (enter s "peer".toList) =
      ⟨{ s.c with peers := s.c.peers ++ [entries.foldl (notePeer go) {}] }, "peer".toList⟩ :=
  foldl_assign_peer

theorem foldl_enter_other {name : Text} (h : name ≠ "interface".toList) (hp : name ≠ "peer".toList) :
    entries.foldl (assign go) (enter s name) = ⟨s.c, name⟩ := by
  unfold enter
  rw [if_neg hp, foldl_assign_other h hp]

theorem foldl_preamble (sh : Sheet) :
    sh.preamble.foldl (assign go) ({} : Parsing Addr Prefix) = ({} : Parsing Addr Prefix) :=
  foldl_assign_other (by decide) (by decide)

theorem filled_peers (sh : Sheet) :
    (filled go sh).c.peers = (sh.named "peer".toList).map fun entries => entries.foldl (notePeer go) {} := by
  have hfill : (filled go sh).c.peers =
      (sh.named "peer".toList).foldl (fun peers entries => peers ++ [entries.foldl (notePeer go) {}]) [] := by
    apply Sheet.get_fill (fun s : Parsing Addr Prefix => s.c.peers) "peer".toList
    · rw [foldl_preamble]
    · intro s entries
      rw [foldl_enter_peer]
    · intro s name entries hpeer
      by_cases h : name = "interface".toList
      · rw [h, foldl_enter_interface]
        exact foldl_noteInterface_peers
      · rw [foldl_enter_other h hpeer]
  rw [hfill, List.foldl_append_eq_append, List.nil_append, ← List.flatMap_def, List.map_eq_flatMap]

theorem filled_own (sh : Sheet) :
    (filled go sh).c.own = (sh.named "interface".toList).flatten.foldl (noteInterface go) {} := by
  have hfill : (filled go sh).c.own =
      (sh.named "interface".toList).foldl (fun c entries => entries.foldl (noteInterface go) c) {} := by
    apply Sheet.get_fill (fun s : Parsing Addr Prefix => s.c.own) "interface".toList
    · rw [foldl_preamble]
    · intro s entries
      rw [foldl_enter_interface]
      exact (foldl_noteInterface_with []).symm
    · intro s name entries h
      by_cases hpeer : name = "peer".toList
      · rw [hpeer, foldl_enter_peer]
        rfl
      · rw [foldl_enter_other h hpeer]
  rw [hfill, List.foldl_flatten]

variable (go entries)

theorem foldl_noteInterface :
    entries.foldl (noteInterface go) {} =
      { privateKey := setting "privatekey".toList (fun v => (decodeKey v).toOption) none entries
        addresses := (values "address".toList entries).flatMap fun v =>
          (splitList v).filterMap fun a => (address go a).toOption
        dns := (values "dns".toList entries).flatMap fun v =>
          (splitList v).filterMap fun a => (go.parseAddr a).toOption
        mtu := setting "mtu".toList (fun v => (atoi go v).toOption.getD 0) 0 entries } := by
  apply WgConf.ext
  case peers => exact foldl_noteInterface_peers
  case privateKey | mtu =>
    apply foldl_replaced
    intro c e
    unfold noteInterface
    split_ifs <;> simp_all
  case addresses | dns =>
    refine (foldl_gathered (fun c e => ?_) _ _).trans (List.nil_append _)
    unfold noteInterface
    split_ifs <;> simp_all

theorem foldl_notePeer :
    entries.foldl (notePeer go) {} =
      { publicKey := setting "publickey".toList (fun v => (decodeKey v).toOption) none entries
        presharedKey := setting "presharedkey".toList (fun v => (decodeKey v).toOption) none entries
        endpoint := setting "endpoint".toList id [] entries
        allowedIPs := (values "allowedips".toList entries).flatMap fun v =>
          (splitList v).filterMap fun a => (allowed go a).toOption
        keepalive := setting "persistentkeepalive".toList (keepalive go) 0 entries } := by
  apply PeerConf.ext
  case publicKey | presharedKey | endpoint | keepalive =>
    apply foldl_replaced
    intro p e
    unfold notePeer
    split_ifs <;> simp_all
  case allowedIPs =>
    refine (foldl_gathered (fun p e => ?_) _ _).trans (List.nil_append _)
    unfold notePeer
    split_ifs <;> simp_all

end Filled

end BATorrent.Conf
