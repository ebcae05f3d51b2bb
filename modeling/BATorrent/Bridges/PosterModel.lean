import BATorrent.Downloads.HttpMergeEngine
import BATorrent.Lib.Run

namespace BATorrent.PosterModel

open Lib

variable {α : Type}

-- `rows` is what the attached views hold.
structure State (α : Type) where
  session : HttpMergeEngine α
  lastCount : Nat
  rows : List α
deriving DecidableEq

inductive Notice where
  | inserted (first last : Nat)
  | removed (row : Nat)
  | moved (row dest : Nat)
  | reset
deriving DecidableEq

inductive Event (α : Type) where
  | addTorrent (hash : α)
  | restoreRemoved (hash : α)
  | addHttp (hash : α)
  | removeTorrent (index : Nat)
  | torrentsUpdated
  | queueMove (row target : Nat)
  | queueMoveAll (rows : List Nat) (target : Nat)
  | snapshot (torrents : List α)
  | torrentRemoved (index : Nat)
deriving DecidableEq

namespace State

variable (s : State α)

def rowCount : Nat := s.session.torrentCount

-- The views read the rows that come in from the session. A row moves in front of `dest`.
def receive : Notice → State α
  | .inserted first last =>
      { s with
        rows := s.rows.take first ++ (s.session.hashes.take (last + 1)).drop first ++
          s.rows.drop first }
  | .removed row => { s with rows := s.rows.eraseIdx row }
  | .moved row dest => { s with rows := moveRowTo s.rows row (if row < dest then dest - 1 else dest) }
  | .reset => { s with rows := s.session.hashes }

def syncCount : State α × List Notice :=
  let newCount := s.session.torrentCount
  if s.lastCount < newCount then
    ({ s.receive (.inserted s.lastCount (newCount - 1)) with lastCount := newCount },
      [.inserted s.lastCount (newCount - 1)])
  else if newCount < s.lastCount then
    ({ s.receive .reset with lastCount := newCount }, [.reset])
  else (s, [])

def refresh : State α × List Notice := s.syncCount

def removeRow (index : Nat) : State α × List Notice :=
  if s.lastCount ≤ index then s.syncCount
  else ({ s.receive (.removed index) with lastCount := s.lastCount - 1 }, [.removed index])

def moveRow (row target : Nat) : State α × List Notice :=
  if row = target then (s, [])
  else
    let count := s.session.torrentCount
    if count ≤ row ∨ count ≤ target then (s, [])
    else
      let destRow := if row < target then target + 1 else target
      (s.receive (.moved row destRow), [.moved row destRow])

-- With the engine in its own process, the list waits for the next snapshot.
def setTorrentQueuePosition (split : Bool) (session : HttpMergeEngine α) (row target : Nat) :
    HttpMergeEngine α :=
  if split then session else (session.setTorrentQueuePosition row target).getD session

def moveAll (split : Bool) (target : Nat) (session : HttpMergeEngine α) (rows : List Nat) :
    HttpMergeEngine α :=
  rows.foldl (fun session row => setTorrentQueuePosition split session row target) session

-- What the session does, together with the signals it sends on the way.
def next (split : Bool) : Event α → Option (State α × List Notice)
  | .addTorrent hash =>
      if split then none else some ({ s with session := s.session.addTorrent hash }, [])
  | .restoreRemoved hash =>
      if split then none else some { s with session := s.session.addTorrent hash }.refresh
  | .addHttp hash => some { s with session := s.session.addHttp hash }.refresh
  | .removeTorrent index =>
      if s.session.torrentCount ≤ index then some (s, [])
      else
        match s.session.removeTorrent index with
        | (session, none) => some { s with session := session }.refresh
        | (session, some row) =>
            if split then some (s, []) else some ({ s with session := session }.removeRow row)
  | .torrentsUpdated => some s.refresh
  | .queueMove row target =>
      some ({ s with session := setTorrentQueuePosition split s.session row target }.moveRow row target)
  | .queueMoveAll rows target =>
      some { s with session := moveAll split target s.session rows }.refresh
  | .snapshot torrents =>
      if split then some { s with session := { s.session with torrents := torrents } }.refresh else none
  | .torrentRemoved index => if split then some (s.removeRow index) else none

end State

def machine (split : Bool) (session : HttpMergeEngine α) : Machine (State α) (Event α) Notice where
  init := { session := session, lastCount := session.torrentCount, rows := session.hashes }
  next s e := s.next split e

end BATorrent.PosterModel

namespace BATorrent.PosterModel

open Lib Machine

variable {α : Type} {s : State α} {split : Bool}

-- The views hold the rows of the session, and as many as the model counts.
structure Faithful (s : State α) : Prop where
  rows : s.rows = s.session.hashes
  count : s.rowCount = s.lastCount

-- The steps whose notices tell what happened to the list.
def Reported (split : Bool) (s : State α) : Event α → Prop
  | .addTorrent _ => False
  | .restoreRemoved hash => s.session.hashes <+: (s.session.addTorrent hash).hashes
  | .queueMove row target =>
      split = false ∧ row < s.session.base ∧ target < s.session.base ∨
        moveRowTo s.session.hashes row target = s.session.hashes
  | .queueMoveAll rows target => State.moveAll split target s.session rows = s.session
  | .snapshot torrents =>
      torrents.length < s.session.torrents.length ∨ s.session.hashes <+: torrents ++ s.session.https
  | .torrentRemoved index => s.session.torrentCount ≤ index
  | _ => True

-- The events that end with torrentsUpdated.
def Event.refreshes (s : State α) : Event α → Prop
  | .restoreRemoved _ => True
  | .addHttp _ => True
  | .removeTorrent index => s.session.isHttp index = true ∧ index < s.session.torrentCount
  | .torrentsUpdated => True
  | .queueMoveAll _ _ => True
  | .snapshot _ => True
  | _ => False

section Length

theorem length_refresh (hlength : s.rows.length = s.lastCount) :
    s.refresh.1.rows.length = s.refresh.1.lastCount := by
  have hcount := s.session.length_hashes
  unfold State.refresh State.syncCount
  dsimp only
  split_ifs with hmore hless
  · simp only [State.receive, List.length_append, List.length_take, List.length_drop]
    omega
  · exact hcount
  · exact hlength

theorem length_removeRow (hlength : s.rows.length = s.lastCount) (index : Nat) :
    (s.removeRow index).1.rows.length = (s.removeRow index).1.lastCount := by
  unfold State.removeRow
  split_ifs with h
  · exact length_refresh hlength
  · simp only [State.receive]
    rw [List.length_eraseIdx_of_lt (by omega), hlength]

theorem length_moveRow (hlength : s.rows.length = s.lastCount) (row target : Nat) :
    (s.moveRow row target).1.rows.length = (s.moveRow row target).1.lastCount := by
  unfold State.moveRow
  dsimp only
  split_ifs
  · exact hlength
  · exact hlength
  · exact length_moveRowTo.trans hlength
  · exact length_moveRowTo.trans hlength

-- What a step does to the model, over the session's new list.
theorem next_cases {e : Event α} {s' : State α} {out : List Notice}
    (hnext : s.next split e = some (s', out)) :
    ∃ session, s' = { s with session := session } ∨ s' = { s with session := session }.refresh.1 ∨
      (∃ index, s' = ({ s with session := session }.removeRow index).1) ∨
      ∃ row target, s' = ({ s with session := session }.moveRow row target).1 := by
  have hresult : ∀ {result : State α × List Notice}, some result = some (s', out) → s' = result.1 :=
    fun h => (congrArg Prod.fst (Option.some.inj h)).symm
  cases e with
  | addTorrent hash =>
      rw [State.next] at hnext
      split_ifs at hnext
      exact ⟨_, .inl (hresult hnext)⟩
  | restoreRemoved hash =>
      rw [State.next] at hnext
      split_ifs at hnext
      exact ⟨_, .inr (.inl (hresult hnext))⟩
  | addHttp hash => exact ⟨_, .inr (.inl (hresult hnext))⟩
  | removeTorrent index =>
      rw [State.next] at hnext
      by_cases hpast : s.session.torrentCount ≤ index
      · rw [if_pos hpast] at hnext
        exact ⟨s.session, .inl (hresult hnext)⟩
      · rw [if_neg hpast] at hnext
        match hremove : s.session.removeTorrent index with
        | (session, none) =>
            rw [hremove] at hnext
            exact ⟨session, .inr (.inl (hresult hnext))⟩
        | (session, some row) =>
            rw [hremove] at hnext
            dsimp only at hnext
            split_ifs at hnext
            · exact ⟨s.session, .inl (hresult hnext)⟩
            · exact ⟨session, .inr (.inr (.inl ⟨row, hresult hnext⟩))⟩
  | torrentsUpdated => exact ⟨s.session, .inr (.inl (hresult hnext))⟩
  | queueMove row target => exact ⟨_, .inr (.inr (.inr ⟨row, target, hresult hnext⟩))⟩
  | queueMoveAll rows target => exact ⟨_, .inr (.inl (hresult hnext))⟩
  | snapshot torrents =>
      rw [State.next] at hnext
      split_ifs at hnext
      exact ⟨_, .inr (.inl (hresult hnext))⟩
  | torrentRemoved index =>
      rw [State.next] at hnext
      split_ifs at hnext
      exact ⟨s.session, .inr (.inr (.inl ⟨index, hresult hnext⟩))⟩

theorem length_next {e : Event α} {s' : State α} {out : List Notice}
    (hnext : s.next split e = some (s', out)) (hlength : s.rows.length = s.lastCount) :
    s'.rows.length = s'.lastCount := by
  obtain ⟨session, rfl | rfl | ⟨index, rfl⟩ | ⟨row, target, rfl⟩⟩ := next_cases hnext
  · exact hlength
  · exact length_refresh (s := { s with session := session }) hlength
  · exact length_removeRow (s := { s with session := session }) hlength index
  · exact length_moveRow (s := { s with session := session }) hlength row target

end Length

section Refresh

theorem refresh_session : s.refresh.1.session = s.session := by
  unfold State.refresh State.syncCount
  dsimp only
  split_ifs <;> rfl

-- A refresh puts new rows at the end, so the views are right after it just when their rows come first
-- in the list, or are more than it has.
theorem faithful_refresh_iff (hlength : s.rows.length = s.lastCount) :
    Faithful s.refresh.1 ↔ s.session.torrentCount < s.lastCount ∨ s.rows <+: s.session.hashes := by
  have hcount := s.session.length_hashes
  unfold State.refresh State.syncCount
  dsimp only
  split_ifs with hmore hless
  · have hrows : (s.receive (.inserted s.lastCount (s.session.torrentCount - 1))).rows =
        s.rows ++ s.session.hashes.drop s.lastCount := by
      rw [State.receive, ← hlength, List.take_length, List.drop_length, List.append_nil,
        Nat.sub_add_cancel (by omega), ← hcount, List.take_length]
    constructor
    · intro h
      exact .inr ⟨_, hrows.symm.trans h.rows⟩
    · rintro (hless | ⟨more, hmore⟩)
      · omega
      · refine ⟨hrows.trans ?_, rfl⟩
        change s.rows ++ s.session.hashes.drop s.lastCount = s.session.hashes
        rw [← hmore, ← hlength, List.drop_left]
  · exact iff_of_true ⟨rfl, rfl⟩ (.inl hless)
  · have heq : s.session.torrentCount = s.lastCount := by omega
    constructor
    · intro h
      exact .inr (h.rows ▸ List.prefix_rfl)
    · rintro (hless' | hstarts)
      · exact absurd hless' hless
      · exact ⟨hstarts.eq_of_length (by omega), heq⟩

end Refresh

section Step

theorem faithful_moveRow_iff {session : HttpMergeEngine α} (h : Faithful s)
    (hcount : session.torrentCount = s.session.torrentCount) (row target : Nat) :
    Faithful ({ s with session := session }.moveRow row target).1 ↔
      session.hashes = moveRowTo s.session.hashes row target := by
  have hplain : ∀ rows : List α, Faithful { s with session := session, rows := rows } ↔
      session.hashes = rows := by
    intro rows
    exact ⟨fun h' => h'.rows.symm, fun hrows => ⟨hrows.symm, hcount.trans h.count⟩⟩
  have hlength := s.session.length_hashes
  unfold State.moveRow
  by_cases hsame : row = target
  · rw [if_pos hsame, hsame, moveRowTo_self, ← h.rows]
    exact hplain s.rows
  rw [if_neg hsame]
  dsimp only
  by_cases hpast : session.torrentCount ≤ row ∨ session.torrentCount ≤ target
  · have hstay : moveRowTo s.session.hashes row target = s.session.hashes := dif_neg (by omega)
    rw [if_pos hpast, hstay, ← h.rows]
    exact hplain s.rows
  · have hdest : (if row < (if row < target then target + 1 else target) then
        (if row < target then target + 1 else target) - 1
        else (if row < target then target + 1 else target)) = target := by
      split_ifs <;> omega
    rw [if_neg hpast, ← h.rows, State.receive, hdest]
    exact hplain _

theorem faithful_removeRow (h : Faithful s) {index : Nat} (hindex : index < s.session.base) :
    Faithful ({ s with session := (s.session.removeTorrent index).1 }.removeRow index).1 := by
  have hcount : s.session.base + s.session.https.length = s.lastCount := h.count
  have hremove : s.session.removeTorrent index = ({ s.session with
      torrents := s.session.torrents.eraseIdx index }, some index) := by
    unfold HttpMergeEngine.removeTorrent
    rw [HttpMergeEngine.isHttp_eq_false.mpr hindex, if_neg Bool.false_ne_true]
  unfold State.removeRow
  rw [if_neg (by dsimp only; omega)]
  constructor
  · change s.rows.eraseIdx index = (s.session.removeTorrent index).1.hashes
    rw [h.rows, HttpMergeEngine.hashes_removeTorrent]
  · change (s.session.removeTorrent index).1.torrentCount = s.lastCount - 1
    rw [hremove, HttpMergeEngine.torrentCount, HttpMergeEngine.base,
      List.length_eraseIdx_of_lt hindex, ← hcount]
    change s.session.base - 1 + s.session.https.length = _
    omega

theorem hashes_setTorrentQueuePosition (split : Bool) (session : HttpMergeEngine α) (row target : Nat) :
    (State.setTorrentQueuePosition split session row target).torrentCount = session.torrentCount ∧
      ((State.setTorrentQueuePosition split session row target).hashes =
          moveRowTo session.hashes row target ↔
        split = false ∧ row < session.base ∧ target < session.base ∨
          moveRowTo session.hashes row target = session.hashes) := by
  unfold State.setTorrentQueuePosition
  cases split with
  | true =>
      refine ⟨rfl, ?_⟩
      rw [if_pos rfl, eq_comm]
      simp
  | false =>
      rw [if_neg Bool.false_ne_true]
      cases hmove : session.setTorrentQueuePosition row target with
      | none =>
          refine ⟨rfl, ?_⟩
          rw [Option.getD_none, eq_comm]
          refine ⟨.inr, fun h => ?_⟩
          rcases h with ⟨-, hrow, htarget⟩ | h
          · by_cases hsame : row = target
            · rw [hsame, moveRowTo_self]
            · have hsome := HttpMergeEngine.setTorrentQueuePosition_eq_some.mpr
                ⟨hrow, htarget, hsame, rfl⟩
              rw [hmove] at hsome
              cases hsome
          · exact h
      | some moved =>
          obtain ⟨hrow, htarget, -, rfl⟩ := HttpMergeEngine.setTorrentQueuePosition_eq_some.mp hmove
          refine ⟨?_, iff_of_true ?_ (.inl ⟨rfl, hrow, htarget⟩)⟩
          · exact congrArg (· + session.https.length) (moveRow_perm hrow htarget).length_eq
          · have hvalid : row < session.hashes.length ∧ target < session.hashes.length := by
              rw [HttpMergeEngine.length_hashes]
              exact ⟨Nat.lt_add_right _ hrow, Nat.lt_add_right _ htarget⟩
            rw [moveRowTo, dif_pos hvalid]
            exact (moveRow_append hrow htarget _).symm

theorem moveAll_frame (split : Bool) (target : Nat) (session : HttpMergeEngine α) (rows : List Nat) :
    (State.moveAll split target session rows).https = session.https ∧
      (State.moveAll split target session rows).torrentCount = session.torrentCount := by
  induction rows generalizing session with
  | nil => exact ⟨rfl, rfl⟩
  | cons row rows ih =>
      obtain ⟨hhttps, hcount⟩ := ih (State.setTorrentQueuePosition split session row target)
      refine ⟨hhttps.trans ?_, hcount.trans (hashes_setTorrentQueuePosition split session row target).1⟩
      unfold State.setTorrentQueuePosition
      split_ifs
      · rfl
      · cases hmove : session.setTorrentQueuePosition row target with
        | none => rfl
        | some moved =>
            obtain ⟨-, -, -, rfl⟩ := HttpMergeEngine.setTorrentQueuePosition_eq_some.mp hmove
            rfl

theorem faithful_next_iff {e : Event α} {s' : State α} {out : List Notice} (h : Faithful s)
    (hnext : s.next split e = some (s', out)) : Faithful s' ↔ Reported split s e := by
  have hlength : s.rows.length = s.lastCount := by
    rw [h.rows, HttpMergeEngine.length_hashes]
    exact h.count
  have hresult : ∀ {result : State α × List Notice}, some result = some (s', out) → s' = result.1 :=
    fun h => (congrArg Prod.fst (Option.some.inj h)).symm
  have hrefresh : ∀ session : HttpMergeEngine α, Faithful { s with session := session }.refresh.1 ↔
      session.torrentCount < s.session.torrentCount ∨ s.session.hashes <+: session.hashes := by
    intro session
    have hiff := faithful_refresh_iff (s := { s with session := session }) hlength
    rw [hiff, ← h.count, h.rows]
    rfl
  cases e with
  | addTorrent hash =>
      rw [State.next] at hnext
      split_ifs at hnext
      rw [hresult hnext]
      refine iff_of_false (fun h' => ?_) id
      have hcount := h.count
      have hcount' := h'.count
      simp only [State.rowCount, HttpMergeEngine.torrentCount, HttpMergeEngine.base,
        HttpMergeEngine.addTorrent, List.length_append, List.length_singleton] at hcount hcount'
      omega
  | restoreRemoved hash =>
      rw [State.next] at hnext
      split_ifs at hnext
      rw [hresult hnext, hrefresh]
      refine or_iff_right ?_
      simp [HttpMergeEngine.torrentCount, HttpMergeEngine.base, HttpMergeEngine.addTorrent]
  | addHttp hash =>
      rw [hresult hnext, hrefresh]
      refine iff_of_true (.inr ⟨[hash], ?_⟩) trivial
      exact List.append_assoc _ _ _
  | removeTorrent index =>
      refine iff_of_true ?_ trivial
      rw [State.next] at hnext
      by_cases hpast : s.session.torrentCount ≤ index
      · rw [if_pos hpast] at hnext
        rw [hresult hnext]
        exact h
      · rw [if_neg hpast] at hnext
        cases hhttp : s.session.isHttp index with
        | true =>
            have hremove : s.session.removeTorrent index = ({ s.session with
                https := s.session.https.eraseIdx (index - s.session.base) }, none) := if_pos hhttp
            rw [hremove] at hnext
            rw [hresult hnext, hrefresh]
            refine .inl ?_
            have hbase : s.session.base ≤ index := of_decide_eq_true hhttp
            rw [HttpMergeEngine.torrentCount] at hpast ⊢
            rw [List.length_eraseIdx_of_lt (by omega)]
            exact Nat.add_lt_add_left (by omega) _
        | false =>
            have hremove : s.session.removeTorrent index = ({ s.session with
                torrents := s.session.torrents.eraseIdx index }, some index) := by
              unfold HttpMergeEngine.removeTorrent
              rw [hhttp, if_neg Bool.false_ne_true]
            have hremoved := faithful_removeRow h (HttpMergeEngine.isHttp_eq_false.mp hhttp)
            rw [hremove] at hnext hremoved
            dsimp only at hnext
            split_ifs at hnext
            · rw [hresult hnext]
              exact h
            · rw [hresult hnext]
              exact hremoved
  | torrentsUpdated =>
      rw [hresult hnext]
      exact iff_of_true ((hrefresh s.session).mpr (.inr List.prefix_rfl)) trivial
  | queueMove row target =>
      obtain ⟨hcount, hiff⟩ := hashes_setTorrentQueuePosition split s.session row target
      rw [hresult hnext, faithful_moveRow_iff h hcount, hiff]
      rfl
  | queueMoveAll rows target =>
      obtain ⟨hhttps, hcount⟩ := moveAll_frame split target s.session rows
      rw [hresult hnext, hrefresh, or_iff_right (by omega)]
      constructor
      · intro hprefix
        have heq := hprefix.eq_of_length (by
          rw [HttpMergeEngine.length_hashes, HttpMergeEngine.length_hashes, hcount])
        unfold HttpMergeEngine.hashes at heq
        rw [hhttps] at heq
        have htorrents := List.append_cancel_right heq
        cases hmoved : State.moveAll split target s.session rows with
        | mk torrents https =>
            rw [hmoved] at hhttps htorrents
            obtain rfl : s.session.torrents = torrents := htorrents
            obtain rfl : https = s.session.https := hhttps
            exact hmoved
      · intro heq
        change State.moveAll split target s.session rows = s.session at heq
        rw [heq]
  | snapshot torrents =>
      rw [State.next] at hnext
      split_ifs at hnext
      rw [hresult hnext, hrefresh]
      refine or_congr ?_ Iff.rfl
      simp only [HttpMergeEngine.torrentCount, HttpMergeEngine.base]
      omega
  | torrentRemoved index =>
      rw [State.next] at hnext
      split_ifs at hnext
      rw [hresult hnext]
      unfold State.removeRow
      by_cases hpast : s.lastCount ≤ index
      · rw [if_pos hpast]
        have hcount : s.session.torrentCount = s.lastCount := h.count
        exact iff_of_true ((hrefresh s.session).mpr (.inr List.prefix_rfl)) (hcount.le.trans hpast)
      · rw [if_neg hpast]
        have hcount : s.session.torrentCount = s.lastCount := h.count
        refine iff_of_false (fun h' => ?_) (fun h' => hpast (hcount.ge.trans h'))
        have hcount' : s.session.torrentCount = s.lastCount - 1 := h'.count
        omega

end Step

theorem next_of_refreshes {e : Event α} {s' : State α} {out : List Notice} (he : e.refreshes s)
    (hnext : s.next split e = some (s', out)) : ∃ session, s' = { s with session := session }.refresh.1 := by
  have hresult : ∀ {result : State α × List Notice}, some result = some (s', out) → s' = result.1 :=
    fun h => (congrArg Prod.fst (Option.some.inj h)).symm
  cases e with
  | addTorrent hash => cases he
  | restoreRemoved hash =>
      rw [State.next] at hnext
      split_ifs at hnext
      exact ⟨_, hresult hnext⟩
  | addHttp hash => exact ⟨_, hresult hnext⟩
  | removeTorrent index =>
      have hremove : s.session.removeTorrent index = ({ s.session with
          https := s.session.https.eraseIdx (index - s.session.base) }, none) := if_pos he.1
      rw [State.next, if_neg (Nat.not_le.mpr he.2), hremove] at hnext
      exact ⟨_, hresult hnext⟩
  | torrentsUpdated => exact ⟨s.session, hresult hnext⟩
  | queueMove row target => cases he
  | queueMoveAll rows target => exact ⟨_, hresult hnext⟩
  | snapshot torrents =>
      rw [State.next] at hnext
      split_ifs at hnext
      exact ⟨_, hresult hnext⟩
  | torrentRemoved index => cases he

-- Over a whole run the views are right exactly while each step is reported, and whatever came before,
-- a refresh sets them right exactly when their rows come first in the list or are more than it has.
theorem notified_iff (split : Bool) (session : HttpMergeEngine α)
    {past : List (Reaction (State α) (Event α) Notice)} {s : State α}
    (hrun : (machine split session).Run (fun _ _ => True) past s) :
    ((∀ t ∈ visited past s, Faithful t) ↔ ∀ r ∈ past, Reported split r.before r.event) ∧
      eachStep (fun _ r t => r.event.refreshes r.before →
        (Faithful t ↔ t.session.torrentCount < r.before.rows.length ∨
          r.before.rows <+: t.session.hashes)) past s := by
  constructor
  · have hiff := hrun.forall_visited_iff (P := Faithful) (C := Reported split)
      (iff_of_true ⟨rfl, rfl⟩ trivial) fun _ _ _ _ _ _ h hnext => faithful_next_iff h hnext
    rw [hiff, true_and]
  · suffices h : s.rows.length = s.lastCount ∧ eachStep (fun _ r t => r.event.refreshes r.before →
        (Faithful t ↔ t.session.torrentCount < r.before.rows.length ∨
          r.before.rows <+: t.session.hashes)) past s from h.2
    refine Run.invariant_past (fun past s => s.rows.length = s.lastCount ∧
      eachStep (fun _ r t => r.event.refreshes r.before →
        (Faithful t ↔ t.session.torrentCount < r.before.rows.length ∨
          r.before.rows <+: t.session.hashes)) past s) ⟨session.length_hashes, trivial⟩ ?_ hrun
    rintro past s e s' out ⟨hlength, hsteps⟩ - hnext
    refine ⟨length_next hnext hlength, fun he => ?_, hsteps⟩
    obtain ⟨session, rfl⟩ := next_of_refreshes he hnext
    rw [faithful_refresh_iff (s := { s with session := session }) hlength, refresh_session]
    exact or_congr_left (by rw [← hlength])

theorem notified_iff_http : ∃ past s,
    (machine false (⟨[0], [7]⟩ : HttpMergeEngine Nat)).Run (fun _ _ => True) past s ∧
      s.rows = [0, 7, 8] ∧ ∀ t ∈ visited past s, Faithful t := by
  have hinit : (machine false (⟨[0], [7]⟩ : HttpMergeEngine Nat)).Run (fun _ _ => True) []
      (machine false (⟨[0], [7]⟩ : HttpMergeEngine Nat)).init := .init
  have hrun := hinit.extend (.addHttp 8) trivial rfl
  refine ⟨_, _, hrun, by decide, (notified_iff false _ hrun).1.mpr ?_⟩
  intro r hr
  rw [List.mem_singleton.mp hr]
  trivial

-- A torrent that comes in while there is a direct download, and the tick after it.
theorem not_notified : ¬ ∀ past s,
    (machine false (⟨[0], [7]⟩ : HttpMergeEngine Nat)).Run (fun _ _ => True) past s →
      ∀ t ∈ visited past s, Faithful t := by
  intro h
  have hinit : (machine false (⟨[0], [7]⟩ : HttpMergeEngine Nat)).Run (fun _ _ => True) []
      (machine false (⟨[0], [7]⟩ : HttpMergeEngine Nat)).init := .init
  have hrun := (hinit.extend (.addTorrent 1) trivial rfl).extend .torrentsUpdated trivial rfl
  exact absurd (h _ _ hrun _ List.mem_cons_self).rows (by decide)

end BATorrent.PosterModel
