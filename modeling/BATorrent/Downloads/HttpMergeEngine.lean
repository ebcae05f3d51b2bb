import BATorrent.Lib.Rows

namespace BATorrent

namespace SessionManager

variable {α : Type}

-- None where the torrents stay as they are.
def setTorrentQueuePosition (torrents : List α) (index position : Nat) : Option (List α) :=
  if h : index < torrents.length ∧ position < torrents.length ∧ index ≠ position then
    some (Lib.moveRow torrents index position h.1)
  else none

end SessionManager

-- The rows by their hashes.
structure HttpMergeEngine (α : Type) where
  torrents : List α
  https : List α
deriving DecidableEq

namespace HttpMergeEngine

variable {α : Type} (e : HttpMergeEngine α)

def base : Nat := e.torrents.length

def isHttp (index : Nat) : Bool := e.base ≤ index

def torrentCount : Nat := e.base + e.https.length

def torrentHashAt (index : Nat) : Option α :=
  if e.isHttp index then e.https[index - e.base]? else e.torrents[index]?

def setTorrentQueuePosition (index position : Nat) : Option (HttpMergeEngine α) :=
  if e.isHttp index then none
  else
    (SessionManager.setTorrentQueuePosition e.torrents index position).map
      ({ e with torrents := · })

def addTorrent (hash : α) : HttpMergeEngine α := { e with torrents := e.torrents ++ [hash] }

def addHttp (hash : α) : HttpMergeEngine α := { e with https := e.https ++ [hash] }

-- With the row that `torrentRemoved` names. A direct download goes without that signal.
def removeTorrent (index : Nat) : HttpMergeEngine α × Option Nat :=
  if e.isHttp index then ({ e with https := e.https.eraseIdx (index - e.base) }, none)
  else ({ e with torrents := e.torrents.eraseIdx index }, some index)

def hashes : List α := e.torrents ++ e.https

variable {e} {index position : Nat}

theorem length_hashes : e.hashes.length = e.torrentCount := List.length_append

theorem isHttp_eq_false : e.isHttp index = false ↔ index < e.base := by
  unfold isHttp
  rw [decide_eq_false_iff_not, Nat.not_le]

theorem torrentHashAt_eq : e.torrentHashAt index = e.hashes[index]? := by
  unfold torrentHashAt hashes isHttp base
  rw [List.getElem?_append]
  by_cases h : e.torrents.length ≤ index
  · rw [decide_eq_true h, if_pos rfl, if_neg (Nat.not_lt.mpr h)]
  · rw [decide_eq_false h, if_neg Bool.false_ne_true, if_pos (Nat.not_le.mp h)]

theorem setTorrentQueuePosition_eq_some {e' : HttpMergeEngine α} :
    e.setTorrentQueuePosition index position = some e' ↔
      ∃ h : index < e.base, position < e.base ∧ index ≠ position ∧
        e' = { e with torrents := Lib.moveRow e.torrents index position h } := by
  unfold setTorrentQueuePosition SessionManager.setTorrentQueuePosition isHttp base
  grind

theorem hashes_removeTorrent : (e.removeTorrent index).1.hashes = e.hashes.eraseIdx index := by
  unfold removeTorrent isHttp
  by_cases h : e.base ≤ index
  · rw [decide_eq_true h, if_pos rfl]
    exact (List.eraseIdx_append_of_length_le h _).symm
  · rw [decide_eq_false h, if_neg Bool.false_ne_true]
    exact (List.eraseIdx_append_of_lt_length (Nat.not_le.mp h) _).symm

end HttpMergeEngine

end BATorrent
