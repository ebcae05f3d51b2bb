import BATorrent.Torrent.InfoHash
import Mathlib.Data.List.Pairwise
import Mathlib.Data.List.Nodup

namespace BATorrent.Library

abbrev Text := List Char

abbrev Handle := Nat

section Hashes

abbrev Sha256Hash := Digest 32

def Sha256Hash.truncate (d : Sha256Hash) : Sha1Hash :=
  ⟨d.bytes.take 20, by rw [List.length_take, d.size]; decide⟩

def zeroHash : Sha1Hash := .replicate 20 0

-- The hash a torrent goes by, all zeros where there is none.
def bestOf : Option Sha1Hash → Option Sha256Hash → Sha1Hash
  | _, some d => d.truncate
  | some d, none => d
  | none, none => zeroHash

structure InfoHashes where
  v1 : Option Sha1Hash
  v2 : Option Sha256Hash
  known : bestOf v1 v2 ≠ zeroHash
deriving DecidableEq

namespace InfoHashes

def best (ih : InfoHashes) : Sha1Hash := bestOf ih.v1 ih.v2

-- What libtorrent looks a torrent up by: the hash of each version, cut to twenty bytes.
def keys (ih : InfoHashes) : List Sha1Hash := ih.v1.toList ++ (ih.v2.map Sha256Hash.truncate).toList

def Shares (a b : InfoHashes) : Prop := ∃ k ∈ a.keys, k ∈ b.keys

instance (a b : InfoHashes) : Decidable (a.Shares b) := inferInstanceAs (Decidable (∃ k ∈ a.keys, _))

theorem best_mem_keys (ih : InfoHashes) : ih.best ∈ ih.keys := by
  obtain ⟨v1, v2, hknown⟩ := ih
  cases v2 with
  | some d => simp [best, keys, bestOf]
  | none =>
      cases v1 with
      | some d => simp [best, keys, bestOf]
      | none => exact absurd rfl hknown

theorem Shares.symm {a b : InfoHashes} (h : a.Shares b) : b.Shares a := by
  obtain ⟨k, ha, hb⟩ := h
  exact ⟨k, hb, ha⟩

end InfoHashes

end Hashes

section Torrents

structure TorrentFile where
  path : Text
  size : Int

structure TorrentInfo where
  hashes : InfoHashes
  name : Text
  files : List TorrentFile

theorem TorrentInfo.agrees (info : TorrentInfo) : ∀ ti, some info = some ti → ti.hashes = info.hashes := by
  rintro ti ⟨⟩
  rfl

-- What a torrent is added with, and what its resume file keeps. `names` has the current name of
-- each of its files, and none before the metadata is there.
structure Params where
  hashes : InfoHashes
  info : Option TorrentInfo
  savePath : Text
  name : Text
  names : List Text
  agrees : ∀ ti, info = some ti → ti.hashes = hashes

-- A torrent of the session. `removing` says that remove_torrent was called and is not done.
structure Torrent extends Params where
  handle : Handle
  removing : Bool

def Torrent.received (t : Torrent) (ti : TorrentInfo) : Torrent where
  hashes := ti.hashes
  info := some ti
  savePath := t.savePath
  name := ti.name
  names := ti.files.map TorrentFile.path
  agrees := ti.agrees
  handle := t.handle
  removing := t.removing

end Torrents

-- libtorrent's side. No two of its torrents have a hash in common.
structure Session where
  torrents : List Torrent
  nextHandle : Handle
  handles : (torrents.map Torrent.handle).Nodup
  known : ∀ t ∈ torrents, t.handle < nextHandle
  apart : torrents.Pairwise fun a b => ¬ a.hashes.Shares b.hashes

namespace Session

def start : Session where
  torrents := []
  nextHandle := 0
  handles := List.nodup_nil
  known _ h := absurd h List.not_mem_nil
  apart := List.Pairwise.nil

variable (s : Session)

def torrent (h : Handle) : Option Torrent := s.torrents.find? (·.handle = h)

def find (ih : InfoHashes) : Option Torrent := s.torrents.find? (·.hashes.Shares ih)

variable {s} {h h' : Handle} {t u : Torrent} {ih : InfoHashes}

theorem torrent_eq_some : s.torrent h = some t ↔ t ∈ s.torrents ∧ t.handle = h := by
  constructor
  · intro hfind
    exact ⟨List.mem_of_find?_eq_some hfind, by simpa using List.find?_some hfind⟩
  · rintro ⟨ht, rfl⟩
    cases hfind : s.torrent t.handle with
    | none => simpa using List.find?_eq_none.mp hfind t ht
    | some u =>
        have hu : u ∈ s.torrents := List.mem_of_find?_eq_some hfind
        have hsame : u.handle = t.handle := by simpa using List.find?_some hfind
        rw [List.inj_on_of_nodup_map s.handles hu ht hsame]

theorem torrent_eq_none : s.torrent h = none ↔ ∀ t ∈ s.torrents, t.handle ≠ h := by
  simp [torrent]

theorem find_eq_none : s.find ih = none ↔ ∀ t ∈ s.torrents, ¬ t.hashes.Shares ih := by
  simp [find]

theorem find_some (hfind : s.find ih = some t) : t ∈ s.torrents ∧ t.hashes.Shares ih :=
  ⟨List.mem_of_find?_eq_some hfind, by simpa using List.find?_some hfind⟩

theorem eq_of_shares (ht : t ∈ s.torrents) (hu : u ∈ s.torrents) (h : t.hashes.Shares u.hashes) :
    t = u := by
  by_contra hne
  have hsymm : Std.Symm fun a b : Torrent => ¬ a.hashes.Shares b.hashes :=
    ⟨fun a b hab hba => hab hba.symm⟩
  exact s.apart.forall ht hu hne h

section Add

-- A hash that is there already gives its torrent's handle, whatever else is asked for.
def add (s : Session) (p : Params) : Session × Handle :=
  match hfind : s.find p.hashes with
  | some t => (s, t.handle)
  | none =>
      ({ torrents := s.torrents ++ [⟨p, s.nextHandle, false⟩]
         nextHandle := s.nextHandle + 1
         handles := by
           rw [List.map_append, List.nodup_append]
           refine ⟨s.handles, List.nodup_singleton _, ?_⟩
           intro h hh h' hh'
           obtain ⟨t, ht, rfl⟩ := List.mem_map.mp hh
           have heq : h' = s.nextHandle := by simpa using hh'
           rw [heq]
           exact (s.known t ht).ne
         known := by
           intro t ht
           rcases List.mem_append.mp ht with ht | ht
           · exact (s.known t ht).trans (Nat.lt_succ_self _)
           · rw [List.mem_singleton.mp ht]
             exact Nat.lt_succ_self _
         apart := by
           rw [List.pairwise_append]
           refine ⟨s.apart, List.pairwise_singleton _ _, ?_⟩
           intro t ht u hu
           rw [List.mem_singleton.mp hu]
           exact find_eq_none.mp hfind t ht }, s.nextHandle)

variable {p : Params}

theorem add_of_find (h : s.find p.hashes = some t) : s.add p = (s, t.handle) := by
  unfold add
  split
  next u hu => rw [Option.some.inj (h.symm.trans hu)]
  next hu => rw [h] at hu; exact absurd hu (Option.some_ne_none t)

-- A torrent the session does not have is given a handle of its own.
theorem add_of_new (h : s.find p.hashes = none) :
    (s.add p).1.torrents = s.torrents ++ [⟨p, s.nextHandle, false⟩] ∧
      (s.add p).1.nextHandle = s.nextHandle + 1 ∧ (s.add p).2 = s.nextHandle := by
  unfold add
  split
  next u hu => rw [h] at hu; exact absurd hu.symm (Option.some_ne_none u)
  next hu => exact ⟨rfl, rfl, rfl⟩

theorem torrent_add_of_new (hnew : s.find p.hashes = none) (h : Handle) :
    (s.add p).1.torrent h =
      if h = s.nextHandle then some ⟨p, s.nextHandle, false⟩ else s.torrent h := by
  obtain ⟨htorrents, -, -⟩ := add_of_new hnew
  split_ifs with heq
  · rw [torrent_eq_some, htorrents]
    exact ⟨List.mem_append_right _ (List.mem_singleton_self _), heq.symm⟩
  · have hother : [(⟨p, s.nextHandle, false⟩ : Torrent)].find? (·.handle = h) = none := by
      simpa using Ne.symm heq
    rw [torrent, htorrents, List.find?_append, hother, Option.or_none]
    rfl

end Add

section Change

-- What a call changes of one torrent, its hashes and its handle aside.
def modify (s : Session) (h : Handle) (f : Torrent → Torrent)
    (hhandle : ∀ t, (f t).handle = t.handle) (hhashes : ∀ t, (f t).hashes = t.hashes) : Session where
  torrents := s.torrents.map fun t => if t.handle = h then f t else t
  nextHandle := s.nextHandle
  handles := by
    have hsame : (Torrent.handle ∘ fun t => if t.handle = h then f t else t) = Torrent.handle := by
      funext t
      simp only [Function.comp_apply]
      split_ifs
      · exact hhandle t
      · rfl
    rw [List.map_map, hsame]
    exact s.handles
  known := by
    intro t ht
    obtain ⟨u, hu, rfl⟩ := List.mem_map.mp ht
    split_ifs
    · exact (hhandle u).symm ▸ s.known u hu
    · exact s.known u hu
  apart := by
    have hsame : ∀ t : Torrent, (if t.handle = h then f t else t).hashes = t.hashes := by
      intro t
      split_ifs
      · exact hhashes t
      · rfl
    rw [List.pairwise_map]
    refine s.apart.imp fun hab => ?_
    rw [hsame, hsame]
    exact hab

def remove (s : Session) (h : Handle) : Session :=
  s.modify h (fun t => { t with removing := true }) (fun _ => rfl) (fun _ => rfl)

def rename (s : Session) (h : Handle) (file : Nat) (name : Text) : Session :=
  s.modify h (fun t => { t with names := t.names.set file name }) (fun _ => rfl) (fun _ => rfl)

def move (s : Session) (h : Handle) (savePath : Text) : Session :=
  s.modify h (fun t => { t with savePath := savePath }) (fun _ => rfl) (fun _ => rfl)

-- What remove_torrent comes to in the end.
def drop (s : Session) (h : Handle) : Session where
  torrents := s.torrents.filter (·.handle ≠ h)
  nextHandle := s.nextHandle
  handles := s.handles.sublist (List.filter_sublist.map _)
  known t ht := s.known t (List.mem_of_mem_filter ht)
  apart := s.apart.sublist List.filter_sublist

-- Metadata that is another torrent's as well is not taken.
def receive (s : Session) (h : Handle) (ti : TorrentInfo) : Option Session :=
  if hother : ∀ t ∈ s.torrents, t.handle ≠ h → ¬ t.hashes.Shares ti.hashes then
    some
      { torrents := s.torrents.map fun t => if t.handle = h then t.received ti else t
        nextHandle := s.nextHandle
        handles := by
          have hsame : (Torrent.handle ∘ fun t => if t.handle = h then t.received ti else t) =
              Torrent.handle := by
            funext t
            simp only [Function.comp_apply]
            split_ifs <;> rfl
          rw [List.map_map, hsame]
          exact s.handles
        known := by
          intro t ht
          obtain ⟨u, hu, rfl⟩ := List.mem_map.mp ht
          split_ifs
          · exact s.known u hu
          · exact s.known u hu
        apart := by
          rw [List.pairwise_map]
          have hboth := s.apart.and ((List.pairwise_map.mp s.handles))
          refine hboth.imp_of_mem fun {a b} ha hb hab => ?_
          obtain ⟨hapart, hne⟩ := hab
          split_ifs with hah hbh hbh
          · exact absurd (hah.trans hbh.symm) hne
          · exact fun hshare => hother b hb hbh hshare.symm
          · exact hother a ha hah
          · exact hapart }
  else none

theorem torrent_map {l : List Torrent} {g : Torrent → Torrent} (hg : ∀ t, (g t).handle = t.handle)
    (h : Handle) : (l.map g).find? (·.handle = h) = (l.find? (·.handle = h)).map g := by
  rw [List.find?_map]
  congr 2
  funext t
  rw [Function.comp_apply, hg]

theorem torrent_modify {f : Torrent → Torrent} (hhandle : ∀ t, (f t).handle = t.handle)
    (hhashes : ∀ t, (f t).hashes = t.hashes) (h h' : Handle) :
    (s.modify h f hhandle hhashes).torrent h' =
      (s.torrent h').map fun t => if t.handle = h then f t else t := by
  refine torrent_map (fun t => ?_) h'
  split_ifs
  · exact hhandle t
  · rfl

theorem torrent_drop (h' : Handle) :
    (s.drop h).torrent h' = if h' = h then none else s.torrent h' := by
  split_ifs with heq
  · rw [torrent_eq_none]
    intro t ht
    rw [heq]
    simpa using List.of_mem_filter ht
  · cases hfind : s.torrent h' with
    | none =>
        rw [torrent_eq_none] at hfind ⊢
        exact fun t ht => hfind t (List.mem_of_mem_filter ht)
    | some t =>
        rw [torrent_eq_some] at hfind ⊢
        obtain ⟨ht, rfl⟩ := hfind
        exact ⟨List.mem_filter.mpr ⟨ht, by simpa using heq⟩, rfl⟩

theorem receive_eq_some {s' : Session} {ti : TorrentInfo} (h' : Handle)
    (hreceive : s.receive h ti = some s') : s'.nextHandle = s.nextHandle ∧
      s'.torrent h' = (s.torrent h').map fun t => if t.handle = h then t.received ti else t := by
  unfold receive at hreceive
  split_ifs at hreceive
  obtain rfl := Option.some.inj hreceive
  refine ⟨rfl, torrent_map (fun t => ?_) h'⟩
  split_ifs <;> rfl

end Change

end Session

end BATorrent.Library
