import BATorrent.Lib.Run
import BATorrent.Lib.SortedMap
import Mathlib.Algebra.BigOperators.Group.List.Basic
import Mathlib.Algebra.Order.Group.Nat
import Mathlib.Algebra.Group.Prod
import Mathlib.Algebra.Order.BigOperators.Group.List
import Mathlib.Algebra.Order.Monoid.Prod
import Mathlib.Algebra.GroupWithZero.Nat

namespace BATorrent.Totals

open Lib

-- Payload bytes, down and up.
abbrev Transfer := Nat × Nat

-- What a handle stands for in libtorrent.
inductive Torrent where
  | absent
  | alive (payload : Transfer)
  | expired
deriving DecidableEq

inductive Alert (Handle : Type) where
  | stateUpdate (status : List (Handle × Transfer))
  | torrentChecked (h : Handle)

-- The session, its history and its settings, and libtorrent beside them. The last four fields
-- are in no part of the program: the total that the session started from and the sum of the
-- history then, what its torrents moved since, and the first sample it took.
structure World (Handle Day : Type) where
  torrent : Handle → Torrent
  queue : List (Alert Handle)
  torrents : List Handle
  statusCache : Handle → Option Transfer
  globalBase : Transfer
  alertDrain : List (Alert Handle)
  statsTick : Nat
  days : List (Day × Transfer)
  last : Option Transfer
  settings : Transfer
  saved : Transfer
  opened : Transfer
  moved : Transfer
  first : Option Transfer

variable {Handle Day : Type} [DecidableEq Handle] [LinearOrder Day]

section Totals

def isValid : Torrent → Bool
  | .alive _ => true
  | _ => false

def cachedStatus (w : World Handle Day) (h : Handle) : Transfer × World Handle Day :=
  match w.statusCache h with
  | some st => (st, w)
  | none =>
      match w.torrent h with
      | .alive st => (st, { w with statusCache := Function.update w.statusCache h (some st) })
      | _ => (0, w)

def addStatus (field : Transfer → Nat) (acc : Nat × World Handle Day) (h : Handle) :
    Nat × World Handle Day :=
  if isValid (acc.2.torrent h) then
    let (st, w) := cachedStatus acc.2 h
    (acc.1 + field st, w)
  else acc

def globalTotal (field : Transfer → Nat) (w : World Handle Day) : Nat × World Handle Day :=
  let (session, w) := w.torrents.foldl (addStatus field) (0, w)
  (field w.globalBase + session, w)

def globalDownloaded (w : World Handle Day) : Nat × World Handle Day := globalTotal Prod.fst w

def globalUploaded (w : World Handle Day) : Nat × World Handle Day := globalTotal Prod.snd w

def globalTotals (w : World Handle Day) : Transfer × World Handle Day :=
  let (down, w) := globalDownloaded w
  let (up, w) := globalUploaded w
  ((down, up), w)

end Totals

section History

-- The nearest double, ties to the even one.
def double (n : Nat) : Nat :=
  let unit := 2 ^ (n.log2 - 52)
  let rest := n % unit
  if unit < 2 * rest ∨ unit = 2 * rest ∧ n / unit % 2 = 1 then (n / unit + 1) * unit
  else n / unit * unit

def bump (key : (Nat → Nat) → Transfer → Transfer) (day : Day) (delta : Int)
    (days : List (Day × Transfer)) : List (Day × Transfer) :=
  if delta ≤ 0 then days
  else
    SortedMap.alter day (fun entry => key (fun n => double (n + double delta.toNat)) (entry.getD 0)) days

def bumpDown (day : Day) (delta : Int) : List (Day × Transfer) → List (Day × Transfer) :=
  bump (fun f => Prod.map f id) day delta

def bumpUp (day : Day) (delta : Int) : List (Day × Transfer) → List (Day × Transfer) :=
  bump (fun f => Prod.map id f) day delta

def recordTransfer (day : Day) (abs : Transfer) (w : World Handle Day) : World Handle Day :=
  { w with
    days :=
      match w.last with
      | none => w.days
      | some last => bumpUp day (abs.2 - last.2) (bumpDown day (abs.1 - last.1) w.days)
    last := some abs
    first := w.first.or (some abs) }

-- The end of a tick.
def sample (day : Day) (w : World Handle Day) : World Handle Day :=
  if 5 ≤ w.statsTick + 1 then
    let (abs, w) := globalTotals { w with statsTick := 0 }
    recordTransfer day abs w
  else { w with statsTick := w.statsTick + 1 }

end History

section Alerts

def onStateUpdate (status : List (Handle × Transfer)) (w : World Handle Day) : World Handle Day :=
  { w with statusCache := status.foldl (fun cache st => Function.update cache st.1 (some st.2)) w.statusCache }

def onTorrentChecked (h : Handle) (w : World Handle Day) : World Handle Day :=
  match w.torrent h with
  | .alive st => { w with statusCache := Function.update w.statusCache h (some st) }
  | _ => w

def onAlert : Alert Handle → World Handle Day → World Handle Day
  | .stateUpdate status, w => onStateUpdate status w
  | .torrentChecked h, w => onTorrentChecked h w

def popAlerts (w : World Handle Day) : World Handle Day :=
  if w.alertDrain.isEmpty then { w with alertDrain := w.queue, queue := [] } else w

-- One turn of the loop of processAlerts.
def processAlert (w : World Handle Day) : World Handle Day :=
  let w := popAlerts w
  match w.alertDrain with
  | [] => w
  | alert :: rest => onAlert alert { w with alertDrain := rest }

end Alerts

section Lifecycle

-- What libtorrent gives for a torrent: a handle it has, or a new one.
def addToSession (h : Handle) (w : World Handle Day) : Option (World Handle Day) :=
  match w.torrent h with
  | .absent => some { w with torrent := Function.update w.torrent h (.alive 0) }
  | .alive _ => some w
  | .expired => none

-- Also what takes a staged magnet in and what loads the resume data.
def restoreFromResumeData (h : Handle) (w : World Handle Day) : Option (World Handle Day) :=
  (addToSession h w).map fun w => { w with torrents := w.torrents ++ [h] }

-- libtorrent has one torrent for an info-hash, so that two handles of one are the same.
def isDuplicate (h : Handle) (w : World Handle Day) : Bool :=
  w.torrents.any fun g => isValid (w.torrent g) && g = h

def addTorrent (h : Handle) (w : World Handle Day) : Option (World Handle Day) :=
  if isDuplicate h w then some w else restoreFromResumeData h w

def removeTorrent (index : Nat) (w : World Handle Day) : World Handle Day :=
  match w.torrents[index]? with
  | none => w
  | some h =>
      match w.torrent h with
      | .alive st =>
          { w with
            globalBase := w.globalBase + st
            statusCache := Function.update w.statusCache h none
            torrents := w.torrents.eraseIdx index }
      | _ => { w with torrents := w.torrents.eraseIdx index }

def forceRecheck (index : Nat) (w : World Handle Day) : World Handle Day :=
  match w.torrents[index]? with
  | none => w
  | some h =>
      if isValid (w.torrent h) then { w with statusCache := Function.update w.statusCache h none }
      else w

def saveResumeData (w : World Handle Day) : World Handle Day :=
  let (abs, w) := globalTotals w
  { w with settings := abs }

-- The sum over all days.
def recorded (days : List (Day × Transfer)) : Transfer := (Lib.SortedMap.values days).sum

def startSession (settings : Transfer) (days : List (Day × Transfer)) : World Handle Day where
  torrent _ := .absent
  queue := []
  torrents := []
  statusCache _ := none
  globalBase := settings
  alertDrain := []
  statsTick := 0
  days := days
  last := none
  settings := settings
  saved := settings
  opened := recorded days
  moved := 0
  first := none

def restart (w : World Handle Day) : World Handle Day :=
  let w := saveResumeData w
  startSession w.settings w.days

end Lifecycle

section Run

inductive Event (Handle Day : Type) where
  -- libtorrent
  | moves (h : Handle) (bytes : Transfer)
  | startsOver (h : Handle)
  | expires (h : Handle)
  | answers (handles : List Handle)
  | checked (h : Handle)
  -- the session
  | add (h : Handle)
  | restore (h : Handle)
  | remove (index : Nat)
  | recheck (index : Nat)
  | alert
  | look (index : Nat)
  | sample (day : Day)
  | save
  | restart

def statusOf (w : World Handle Day) (h : Handle) : Option (Handle × Transfer) :=
  match w.torrent h with
  | .alive st => some (h, st)
  | _ => none

def next (w : World Handle Day) : Event Handle Day → Option (World Handle Day)
  | .moves h bytes =>
      match w.torrent h with
      | .alive st =>
          some { w with
            torrent := Function.update w.torrent h (.alive (st + bytes))
            moved := if h ∈ w.torrents then w.moved + bytes else w.moved }
      | _ => none
  | .startsOver h =>
      match w.torrent h with
      | .alive _ => some { w with torrent := Function.update w.torrent h (.alive 0) }
      | _ => none
  | .expires h => some { w with torrent := Function.update w.torrent h .expired }
  | .answers handles =>
      some { w with queue := w.queue ++ [.stateUpdate (handles.filterMap (statusOf w))] }
  | .checked h => some { w with queue := w.queue ++ [.torrentChecked h] }
  | .add h => addTorrent h w
  | .restore h => restoreFromResumeData h w
  | .remove index => some (removeTorrent index w)
  | .recheck index => some (forceRecheck index w)
  | .alert => some (processAlert w)
  | .look index =>
      match w.torrents[index]? with
      | none => some w
      | some h => some (cachedStatus w h).2
  | .sample day => some (sample day w)
  | .save => some (saveResumeData w)
  | .restart => some (restart w)

def machine (settings : Transfer) (days : List (Day × Transfer)) :
    Machine (World Handle Day) (Event Handle Day) Unit where
  init := startSession settings days
  next w event := (next w event).map fun w => (w, [])

end Run

end BATorrent.Totals

namespace BATorrent.Totals

open Lib

variable {Handle Day : Type} [DecidableEq Handle] [LinearOrder Day]

def payload : Torrent → Transfer
  | .alive st => st
  | _ => 0

-- What the total counts for a handle.
def view (w : World Handle Day) (h : Handle) : Transfer :=
  match w.torrent h with
  | .alive st => (w.statusCache h).getD st
  | _ => 0

def total (w : World Handle Day) : Transfer := w.globalBase + (w.torrents.map (view w)).sum

section Views

variable {w : World Handle Day} {h : Handle}

theorem view_of_cached {st live : Transfer} (halive : w.torrent h = .alive live)
    (hcached : w.statusCache h = some st) : view w h = st := by
  rw [view, halive, hcached]
  rfl

theorem view_of_uncached {live : Transfer} (halive : w.torrent h = .alive live)
    (hcached : w.statusCache h = none) : view w h = live := by
  rw [view, halive, hcached]
  rfl

theorem view_of_invalid (h' : isValid (w.torrent h) = false) : view w h = 0 := by
  rw [view]
  cases htorrent : w.torrent h with
  | alive st =>
      rw [htorrent] at h'
      cases h'
  | absent => rfl
  | expired => rfl

theorem alive_of_valid (h' : isValid (w.torrent h) = true) : ∃ st, w.torrent h = .alive st := by
  cases htorrent : w.torrent h with
  | alive st => exact ⟨st, rfl⟩
  | absent =>
      rw [htorrent] at h'
      cases h'
  | expired =>
      rw [htorrent] at h'
      cases h'

end Views

section Reading

-- A cache that reading has warmed: what was in it, and live statuses.
structure Warmed (w : World Handle Day) (cache : Handle → Option Transfer) : Prop where
  kept : ∀ h st, w.statusCache h = some st → cache h = some st
  fresh : ∀ h st, w.statusCache h = none → cache h = some st → w.torrent h = .alive st

variable {w : World Handle Day} {cache : Handle → Option Transfer}

theorem warmed_refl (w : World Handle Day) : Warmed w w.statusCache where
  kept _ _ h := h
  fresh h st hnone hsome := by
    rw [hnone] at hsome
    cases hsome

theorem Warmed.trans {cache' : Handle → Option Transfer} (h : Warmed w cache)
    (h' : Warmed { w with statusCache := cache } cache') : Warmed w cache' where
  kept g st hg := h'.kept g st (h.kept g st hg)
  fresh g st hnone hsome := by
    cases hcache : cache g with
    | none => exact h'.fresh g st hcache hsome
    | some st' =>
        have hkept := h'.kept g st' hcache
        rw [hsome] at hkept
        cases hkept
        exact h.fresh g st hnone hcache

theorem Warmed.view_eq (h : Warmed w cache) (g : Handle) : view { w with statusCache := cache } g = view w g := by
  cases htorrent : w.torrent g with
  | absent => simp only [view, htorrent]
  | expired => simp only [view, htorrent]
  | alive live =>
      simp only [view, htorrent]
      cases hcached : w.statusCache g with
      | some st => rw [h.kept g st hcached]
      | none =>
          cases hcache : cache g with
          | none => rfl
          | some st =>
              have hfresh := h.fresh g st hcached hcache
              rw [htorrent] at hfresh
              cases hfresh
              rfl

theorem Warmed.total_eq (h : Warmed w cache) : total { w with statusCache := cache } = total w := by
  unfold total
  rw [List.map_congr_left fun g _ => h.view_eq g]

theorem cachedStatus_eq (w : World Handle Day) (h : Handle) :
    ∃ cache, Warmed w cache ∧ (cachedStatus w h).2 = { w with statusCache := cache } ∧
      (isValid (w.torrent h) = true → (cachedStatus w h).1 = view w h) := by
  rw [cachedStatus]
  cases hcached : w.statusCache h with
  | some st =>
      refine ⟨w.statusCache, warmed_refl w, rfl, ?_⟩
      intro hvalid
      obtain ⟨live, halive⟩ := alive_of_valid hvalid
      rw [view_of_cached halive hcached]
  | none =>
      cases htorrent : w.torrent h with
      | absent => exact ⟨w.statusCache, warmed_refl w, rfl, fun hvalid => by cases hvalid⟩
      | expired => exact ⟨w.statusCache, warmed_refl w, rfl, fun hvalid => by cases hvalid⟩
      | alive live =>
          refine ⟨_, ⟨?_, ?_⟩, rfl, fun _ => (view_of_uncached htorrent hcached).symm⟩
          · intro g st hg
            by_cases heq : g = h
            · rw [heq, hcached] at hg
              cases hg
            · rw [Function.update_of_ne heq, hg]
          · intro g st hnone hsome
            by_cases heq : g = h
            · rw [heq, Function.update_self] at hsome
              cases hsome
              rw [heq, htorrent]
            · rw [Function.update_of_ne heq, hnone] at hsome
              cases hsome

-- Reading the total of one kind warms the cache and adds up the views.
theorem foldl_addStatus (field : Transfer → Nat) (hs : List Handle) (w : World Handle Day) (sum : Nat)
    (hzero : field 0 = 0) :
    ∃ cache, Warmed w cache ∧
      hs.foldl (addStatus field) (sum, w) =
        (sum + (hs.map fun h => field (view w h)).sum, { w with statusCache := cache }) := by
  induction hs generalizing w sum with
  | nil => exact ⟨w.statusCache, warmed_refl w, rfl⟩
  | cons h hs ih =>
      obtain ⟨cache, hwarmed, hworld, hstatus⟩ := cachedStatus_eq w h
      have hviews : ∀ hs : List Handle, (hs.map fun g => field (view { w with statusCache := cache } g)) =
          hs.map fun g => field (view w g) := by
        intro hs
        apply List.map_congr_left
        intro g _
        rw [hwarmed.view_eq]
      rw [List.foldl_cons, List.map_cons, List.sum_cons, ← Nat.add_assoc]
      cases hvalid : isValid (w.torrent h) with
      | true =>
          have hstep : addStatus field (sum, w) h = (sum + field (view w h), { w with statusCache := cache }) := by
            rw [addStatus, if_pos hvalid, ← hworld, ← hstatus hvalid]
          obtain ⟨cache', hwarmed', hfold⟩ := ih { w with statusCache := cache } (sum + field (view w h))
          rw [hviews] at hfold
          exact ⟨cache', hwarmed.trans hwarmed', by rw [hstep, hfold]⟩
      | false =>
          have hstep : addStatus field (sum, w) h = (sum, w) := by
            rw [addStatus, if_neg (by rw [hvalid]; exact Bool.false_ne_true)]
          rw [hstep, view_of_invalid hvalid, hzero, Nat.add_zero]
          exact ih w sum

theorem globalTotal_eq (field : Transfer → Nat) (w : World Handle Day) (hzero : field 0 = 0)
    (hadd : ∀ a b, field (a + b) = field a + field b) :
    ∃ cache, Warmed w cache ∧ globalTotal field w = (field (total w), { w with statusCache := cache }) := by
  obtain ⟨cache, hwarmed, hfold⟩ := foldl_addStatus field w.torrents w 0 hzero
  have hsum : ∀ hs : List Handle, (hs.map fun h => field (view w h)).sum = field (hs.map (view w)).sum := by
    intro hs
    induction hs with
    | nil => exact hzero.symm
    | cons h hs ih => rw [List.map_cons, List.map_cons, List.sum_cons, List.sum_cons, ih, hadd]
  refine ⟨cache, hwarmed, ?_⟩
  rw [globalTotal, hfold, total, hadd, ← hsum, Nat.zero_add]

-- The two totals, as the session reads them.
theorem globalTotals_eq (w : World Handle Day) :
    ∃ cache, Warmed w cache ∧ globalTotals w = (total w, { w with statusCache := cache }) := by
  obtain ⟨cache, hwarmed, hdown⟩ := globalTotal_eq Prod.fst w rfl fun _ _ => rfl
  obtain ⟨cache', hwarmed', hup⟩ :=
    globalTotal_eq Prod.snd { w with statusCache := cache } rfl fun _ _ => rfl
  refine ⟨cache', hwarmed.trans hwarmed', ?_⟩
  rw [hwarmed.total_eq] at hup
  rw [globalTotals, globalDownloaded, hdown]
  dsimp only
  rw [globalUploaded, hup]

end Reading

end BATorrent.Totals
