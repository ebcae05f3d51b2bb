import Mathlib.Algebra.BigOperators.Group.List.Basic
import Mathlib.Algebra.Group.Int.Defs
import Mathlib.Algebra.Ring.Int.Defs

namespace BATorrent.PlayLog

structure Session where
  startMs : Int
  secs : Int
deriving DecidableEq

def Session.endMs (x : Session) : Int := x.startMs + 1000 * x.secs

-- What the log keeps of one game.
structure Game where
  foldedSecs : Int
  lastPlayedMs : Int
  launches : Int
  sessions : List Session
deriving DecidableEq

def Game.new : Game where
  foldedSecs := 0
  lastPlayedMs := 0
  launches := 0
  sessions := []

structure Summary where
  totalSecs : Int
  lastPlayedMs : Int
  launches : Int
deriving DecidableEq

def kMinSessionSecs : Int := 30

def kMaxSessions : Nat := 200

-- The oldest sessions go into the total while there are too many.
def foldSessions : Int → List Session → Int × List Session
  | foldedSecs, [] => (foldedSecs, [])
  | foldedSecs, x :: sessions =>
      if kMaxSessions < (x :: sessions).length then foldSessions (foldedSecs + x.secs) sessions
      else (foldedSecs, x :: sessions)

namespace Game

variable (g : Game)

def recordLaunch (nowMs : Int) : Game := { g with lastPlayedMs := nowMs, launches := g.launches + 1 }

-- Whether a session is long enough to count.
def Counts (startMs secs : Int) : Prop := ¬ (secs ≤ kMinSessionSecs ∨ startMs ≤ 0)

instance (startMs secs : Int) : Decidable (Counts startMs secs) := inferInstanceAs (Decidable (¬ _))

def recordSession (startMs secs : Int) : Game × Bool :=
  if secs ≤ kMinSessionSecs ∨ startMs ≤ 0 then (g, false)
  else
    let (foldedSecs, sessions) := foldSessions g.foldedSecs (g.sessions ++ [⟨startMs, secs⟩])
    ({ g with foldedSecs := foldedSecs, sessions := sessions }, true)

def summary : Summary where
  totalSecs := g.foldedSecs + (g.sessions.map Session.secs).sum
  lastPlayedMs := g.lastPlayedMs
  launches := g.launches

end Game

theorem total_foldSessions (foldedSecs : Int) (sessions : List Session) :
    (foldSessions foldedSecs sessions).1 + ((foldSessions foldedSecs sessions).2.map Session.secs).sum =
      foldedSecs + (sessions.map Session.secs).sum := by
  induction sessions generalizing foldedSecs with
  | nil => rfl
  | cons x sessions ih =>
      unfold foldSessions
      split_ifs
      · rw [ih, List.map_cons, List.sum_cons]
        omega
      · rfl

namespace Game

variable (g : Game)

theorem recordSession_snd (startMs secs : Int) : (g.recordSession startMs secs).2 = decide (Counts startMs secs) := by
  unfold recordSession Counts
  split_ifs with hshort <;> simp [hshort]

-- A session that counts is in the total once, whether or not it is folded.
theorem total_recordSession (startMs secs : Int) :
    (g.recordSession startMs secs).1.summary.totalSecs =
      g.summary.totalSecs + if Counts startMs secs then secs else 0 := by
  by_cases hcounts : Counts startMs secs
  · rw [if_pos hcounts, recordSession, if_neg hcounts]
    change _ = g.foldedSecs + (g.sessions.map Session.secs).sum + secs
    refine (total_foldSessions g.foldedSecs (g.sessions ++ [⟨startMs, secs⟩])).trans ?_
    simp [Int.add_assoc]
  · rw [if_neg hcounts, recordSession, if_pos (not_not.mp hcounts), Int.add_zero]

@[simp] theorem total_recordLaunch (nowMs : Int) :
    (g.recordLaunch nowMs).summary.totalSecs = g.summary.totalSecs := rfl

end Game

end BATorrent.PlayLog
