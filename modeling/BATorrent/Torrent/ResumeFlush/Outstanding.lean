import BATorrent.Torrent.ResumeFlush
import Mathlib.Data.List.Perm.Basic

namespace BATorrent.ResumeFlush

open Lib Lib.Machine

-- What a step can do with requests: it makes new ones, of which it counts n, and leaves the answers
-- where they are.
structure Requested (s s' : State) (new : List Request) (n : Nat) : Prop where
  accepted : s'.accepted = s.accepted ++ new
  asked : s'.asked = s.asked ++ new
  outstanding : s'.resumeOutstanding = s.resumeOutstanding + n
  posted : s'.posted = s.posted
  alertDrain : s'.alertDrain = s.alertDrain
  lost : s'.lost = s.lost
  passedOver : s'.passedOver = s.passedOver
  processed : s'.processed = s.processed
  loop : s'.loop = s.loop

namespace Requested

variable {s s' s'' : State} {new new' : List Request} {n n' : Nat}

theorem rfl : Requested s s [] 0 := by
  constructor <;> simp

theorem trans (h : Requested s s' new n) (h' : Requested s' s'' new' n') :
    Requested s s'' (new ++ new') (n + n') := by
  constructor
  · rw [h'.accepted, h.accepted, List.append_assoc]
  · rw [h'.asked, h.asked, List.append_assoc]
  · rw [h'.outstanding, h.outstanding, Nat.add_assoc]
  · exact h'.posted.trans h.posted
  · exact h'.alertDrain.trans h.alertDrain
  · exact h'.lost.trans h.lost
  · exact h'.passedOver.trans h.passedOver
  · exact h'.processed.trans h.processed
  · exact h'.loop.trans h.loop

-- Steps one after the other, each of which makes one request.
theorem foldl {f : State → Handle → State} {k : Nat}
    (hf : ∀ s h, ∃ r, Requested s (f s h) [r] k) (hs : List Handle) :
    ∀ s, ∃ new, new.length = hs.length ∧ Requested s (hs.foldl f s) new (k * hs.length) := by
  induction hs with
  | nil => exact fun s => ⟨[], Eq.refl _, rfl⟩
  | cons h hs ih =>
      intro s
      obtain ⟨r, hr⟩ := hf s h
      obtain ⟨new, hlen, hnew⟩ := ih (f s h)
      refine ⟨r :: new, by rw [List.length_cons, hlen, List.length_cons], ?_⟩
      have htrans := hr.trans hnew
      rw [List.length_cons, Nat.mul_succ, Nat.add_comm]
      exact htrans

theorem length_unprocessed (h : Requested s s' new n) :
    s'.unprocessed.length = s.unprocessed.length + new.length := by
  simp only [State.unprocessed, h.asked, h.posted, h.alertDrain, h.lost, h.passedOver,
    List.length_append]
  omega

end Requested

-- All the requests a step makes are counted.
def Counted (s s' : State) : Prop := ∃ new, Requested s s' new new.length

namespace Counted

variable {s s' s'' : State}

theorem rfl : Counted s s := ⟨[], .rfl⟩

theorem trans : Counted s s' → Counted s' s'' → Counted s s'' := by
  rintro ⟨new, h⟩ ⟨new', h'⟩
  refine ⟨new ++ new', ?_⟩
  rw [List.length_append]
  exact h.trans h'

theorem foldl {f : State → Handle → State} (hf : ∀ s h, Counted s (f s h)) (hs : List Handle) :
    ∀ s, Counted s (hs.foldl f s) := by
  induction hs with
  | nil => exact fun s => rfl
  | cons h hs ih => exact fun s => (hf s h).trans (ih (f s h))

end Counted

namespace State

variable (s : State)

section Requests

theorem ask_requested (h : Handle) : ∃ r, Requested s (s.ask h) [r] 0 :=
  ⟨_, ⟨rfl, rfl, rfl, rfl, rfl, rfl, rfl, rfl, rfl⟩⟩

theorem askCounted_requested (h : Handle) : ∃ r, Requested s (s.askCounted h) [r] 1 :=
  ⟨_, ⟨rfl, rfl, rfl, rfl, rfl, rfl, rfl, rfl, rfl⟩⟩

theorem askCounted_counted (h : Handle) : Counted s (s.askCounted h) :=
  have ⟨r, hr⟩ := s.askCounted_requested h
  ⟨[r], hr⟩

theorem saveNow_counted (h : Handle) : Counted s (s.saveNow h) :=
  ⟨[_], ⟨rfl, rfl, rfl, rfl, rfl, rfl, rfl, rfl, rfl⟩⟩

theorem stageResumeSave_counted (h : Handle) : Counted s (s.stageResumeSave h) := by
  rw [stageResumeSave]
  split_ifs
  · exact s.saveNow_counted h
  · exact .rfl

theorem saveResumeData_counted : Counted s s.saveResumeData := .foldl saveNow_counted _ s

-- pauseTorrent and resumeTorrent count nothing.
def pausesRow (i : Nat) : Bool := s.torrents[i]?.any s.isValid

theorem pauseTorrent_requested (i : Nat) :
    ∃ new, Requested s (s.pauseTorrent i) new 0 ∧ (new = [] ↔ ¬ s.pausesRow i) := by
  rw [pauseTorrent, pausesRow]
  cases hrow : s.torrents[i]? with
  | none => exact ⟨[], .rfl, by simp⟩
  | some h =>
      dsimp only
      split_ifs with hvalid
      · obtain ⟨r, hr⟩ := s.ask_requested h
        exact ⟨[r], hr, by simp [hvalid]⟩
      · exact ⟨[], .rfl, by simp [hvalid]⟩

theorem pauseAll_requested :
    ∃ new, Requested s s.pauseAll new 0 ∧ (new = [] ↔ ¬ s.torrents.any s.isValid) := by
  obtain ⟨new, hlen, hnew⟩ := Requested.foldl ask_requested (s.torrents.filter s.isValid) s
  rw [Nat.zero_mul] at hnew
  refine ⟨new, hnew, ?_⟩
  rw [← List.length_eq_zero_iff, hlen, List.length_eq_zero_iff, List.filter_eq_nil_iff]
  simp

end Requests

section Rows

theorem adopt_requested (h : Handle) : Requested s (s.adopt h) [] 0 := by
  constructor <;> simp [adopt]

theorem addTorrent_counted (h : Handle) : Counted s (s.addTorrent h) := by
  have hadopt : Counted s (s.adopt h) := ⟨[], s.adopt_requested h⟩
  exact hadopt.trans ((s.adopt h).stageResumeSave_counted h)

theorem addMagnet_requested (added : Option Handle) : Requested s (s.addMagnet added) [] 0 := by
  cases added with
  | none => exact .rfl
  | some h => exact s.adopt_requested h

def addMagnetWithPauses (added : Option Handle) (paused : Bool) (found : Option Nat) : Bool :=
  paused && found.any (s.addMagnet added).pausesRow

theorem addMagnetWith_requested (added : Option Handle) (paused : Bool) (found : Option Nat) :
    ∃ new, Requested s (s.addMagnetWith added paused found) new 0 ∧
      (new = [] ↔ ¬ s.addMagnetWithPauses added paused found) := by
  have hadded := s.addMagnet_requested added
  cases paused with
  | false => exact ⟨[], hadded, by simp [addMagnetWithPauses]⟩
  | true =>
      cases found with
      | none => exact ⟨[], hadded, by simp [addMagnetWithPauses]⟩
      | some i =>
          obtain ⟨new, hnew, hiff⟩ := (s.addMagnet added).pauseTorrent_requested i
          exact ⟨new, hadded.trans hnew, by simpa [addMagnetWithPauses] using hiff⟩

theorem restoreFromResumeData_counted (h : Handle) : Counted s (s.restoreFromResumeData h) := by
  have hadopt : Counted s (s.adopt h) := ⟨[], s.adopt_requested h⟩
  exact hadopt.trans ((s.adopt h).askCounted_counted h)

theorem removeTorrent_requested (i : Nat) : Requested s (s.removeTorrent i) [] 0 := by
  rw [removeTorrent]
  split
  · split_ifs
    · constructor <;> simp
    · constructor <;> simp
  · exact .rfl

theorem setTorrentQueuePosition_requested (i position : Nat) :
    Requested s (s.setTorrentQueuePosition i position) [] 0 := by
  rw [setTorrentQueuePosition]
  split_ifs
  · constructor <;> simp
  · exact .rfl
  · exact .rfl

-- A waiting magnet whose handle has expired is added anew.
def commitStagedPauses (h : Handle) (added : Option Handle) (paused : Bool) (found : Option Nat) :
    Bool :=
  s.isStaged h && !s.isValid h &&
    { s with staged := s.staged.erase h }.addMagnetWithPauses added paused found

theorem commitStaged_requested (h : Handle) (hasMeta : Bool) (added : Option Handle)
    (paused : Bool) (found : Option Nat) :
    ∃ new n, Requested s (s.commitStaged h hasMeta added paused found) new n ∧ n ≤ new.length ∧
      (n = new.length ↔ ¬ s.commitStagedPauses h added paused found) := by
  have hplain : ∀ s', Counted s s' → (s.commitStagedPauses h added paused found = false) →
      ∃ new n, Requested s s' new n ∧ n ≤ new.length ∧
        (n = new.length ↔ ¬ s.commitStagedPauses h added paused found) := by
    rintro s' ⟨new, hnew⟩ hpauses
    exact ⟨new, new.length, hnew, Nat.le_refl _, by simp [hpauses]⟩
  by_cases hstaged : s.isStaged h
  · let s₁ : State := { s with staged := s.staged.erase h }
    have hs₁ : Requested s s₁ [] 0 := by constructor <;> simp [s₁]
    by_cases hvalid : s.isValid h
    · have hvalid' : s₁.isValid h = true := hvalid
      let s₂ : State := { s₁ with torrents := s₁.torrents ++ [h] }
      have hs₂ : Counted s s₂ := ⟨[], by constructor <;> simp [s₁, s₂]⟩
      have hresult : s.commitStaged h hasMeta added paused found =
          if hasMeta then s₂.stageResumeSave h else s₂ := by
        simp only [commitStaged, hstaged, if_true]
        exact if_pos hvalid'
      rw [hresult]
      apply hplain
      · split_ifs
        · exact hs₂.trans (s₂.stageResumeSave_counted h)
        · exact hs₂
      · simp [commitStagedPauses, hvalid]
    · have hresult : s.commitStaged h hasMeta added paused found =
          s₁.addMagnetWith added paused found := by
        have hvalid' : ¬ s₁.isValid h = true := hvalid
        simp only [commitStaged, hstaged, if_true]
        exact if_neg hvalid'
      obtain ⟨new, hnew, hiff⟩ := s₁.addMagnetWith_requested added paused found
      rw [hresult]
      refine ⟨new, 0, hs₁.trans hnew, Nat.zero_le _, ?_⟩
      rw [eq_comm, List.length_eq_zero_iff, hiff]
      simp [commitStagedPauses, hstaged, hvalid, s₁]
  · have hresult : s.commitStaged h hasMeta added paused found = s := by
      simp [commitStaged, hstaged]
    rw [hresult]
    exact hplain s .rfl (by simp [commitStagedPauses, hstaged])

end Rows

section Books

-- No request is lost sight of: each one waits for its answer, waits for it to be processed, or has
-- been processed. `batch` is what processAlerts has taken and not come to yet.
def Kept (batch : List Alert) : Prop :=
  (s.unprocessed ++ answers batch ++ s.processed.map Prod.fst).Perm s.accepted

-- The counter is right.
def Even (batch : List Alert) : Prop :=
  s.resumeOutstanding = (s.unprocessed ++ answers batch).length

variable {s} {s' : State} {batch : List Alert}

theorem kept_iff_count : s.Kept batch ↔ ∀ r, s.asked.count r + (answers s.posted).count r +
    (answers s.alertDrain).count r + s.lost.count r + s.passedOver.count r +
    (answers batch).count r + (s.processed.map Prod.fst).count r = s.accepted.count r := by
  simp only [Kept, List.perm_iff_count, unprocessed, List.count_append]

theorem even_iff_length : s.Even batch ↔ s.resumeOutstanding = s.asked.length +
    (answers s.posted).length + (answers s.alertDrain).length + s.lost.length +
    s.passedOver.length + (answers batch).length := by
  simp only [Even, unprocessed, List.length_append]

theorem even_nil : s.Even [] ↔ s.resumeOutstanding = s.unprocessed.length := by
  rw [Even, answers, List.filterMap_nil, List.append_nil]

theorem Kept.requested {new : List Request} {n : Nat} (hkept : s.Kept batch)
    (h : Requested s s' new n) : s'.Kept batch := by
  rw [kept_iff_count] at hkept ⊢
  intro r
  have hcount := hkept r
  simp only [h.accepted, h.asked, h.posted, h.alertDrain, h.lost, h.passedOver, h.processed,
    List.count_append]
  omega

theorem Even.counted (heven : s.Even batch) (h : Counted s s') : s'.Even batch := by
  obtain ⟨new, h⟩ := h
  rw [Even, List.length_append] at heven ⊢
  rw [h.outstanding, h.length_unprocessed]
  omega

theorem answers_append (a b : List Alert) : answers (a ++ b) = answers a ++ answers b :=
  List.filterMap_append

theorem answers_cons (a : Alert) (alerts : List Alert) :
    answers (a :: alerts) = a.request.toList ++ answers alerts := by
  cases h : a.request with
  | none => rw [answers, List.filterMap_cons_none h]; rfl
  | some r => rw [answers, List.filterMap_cons_some h]; rfl

end Books

section Alerts

variable {s} {batch : List Alert}

theorem Kept.settle {r : Request} {a : Alert} (ha : a.request = some r) (fate : Fate)
    (hkept : s.Kept (a :: batch)) : (s.settle r fate).Kept batch := by
  rw [kept_iff_count] at hkept ⊢
  intro r'
  have hcount := hkept r'
  simp only [answers_cons, ha, Option.toList_some, List.count_append] at hcount
  simp only [State.settle, List.map_append, List.map_cons, List.map_nil, List.count_append]
  omega

theorem Even.settle {r : Request} {a : Alert} (ha : a.request = some r) (fate : Fate)
    (heven : s.Even (a :: batch)) : (s.settle r fate).Even batch := by
  rw [even_iff_length] at heven ⊢
  simp only [answers_cons, ha, Option.toList_some, List.length_append, List.length_cons,
    List.length_nil] at heven
  simp only [State.settle]
  omega

theorem Kept.passOver {a : Alert} (hkept : s.Kept (a :: batch)) : (s.passOver a).Kept batch := by
  rw [kept_iff_count] at hkept ⊢
  intro r
  have hcount := hkept r
  simp only [answers_cons, List.count_append] at hcount
  simp only [State.passOver, List.count_append]
  omega

theorem Even.passOver {a : Alert} (heven : s.Even (a :: batch)) : (s.passOver a).Even batch := by
  rw [even_iff_length] at heven ⊢
  simp only [answers_cons, List.length_append] at heven
  simp only [State.passOver, List.length_append]
  omega

theorem Kept.of_no_answer {a : Alert} (ha : a.request = none) (hkept : s.Kept (a :: batch)) :
    s.Kept batch := by
  rwa [Kept, answers_cons, ha, Option.toList_none, List.nil_append] at hkept

theorem Even.of_no_answer {a : Alert} (ha : a.request = none) (heven : s.Even (a :: batch)) :
    s.Even batch := by
  rwa [Even, answers_cons, ha, Option.toList_none, List.nil_append] at heven

theorem onPieceFinished_counted (h : Handle) : Counted s (s.onPieceFinished h) := by
  rw [onPieceFinished]
  split_ifs
  · cases s.lastResumeSaveAt.lookup h with
    | none => exact s.saveNow_counted h
    | some savedAt =>
        dsimp only
        split_ifs
        · exact s.saveNow_counted h
        · exact .rfl
  · exact .rfl

-- What processing one alert does: it passes the answer over, settles it, or has none to settle.
theorem processAlert_cases (s : State) (persists : Request → Bool) (a : Alert) :
    s.processAlert persists a = s.passOver a ∨
      (∃ r fate, a.request = some r ∧ s.processAlert persists a = s.settle r fate) ∨
      (a.request = none ∧ Counted s (s.processAlert persists a)) := by
  unfold processAlert
  split_ifs
  · exact .inl rfl
  · cases a with
    | saveResumeData r => exact .inr (.inl ⟨r, _, rfl, rfl⟩)
    | saveResumeDataFailed r => exact .inr (.inl ⟨r, _, rfl, rfl⟩)
    | pieceFinished h => exact .inr (.inr ⟨rfl, onPieceFinished_counted h⟩)
    | metadataReceived h => exact .inr (.inr ⟨rfl, s.stageResumeSave_counted h⟩)
    | fileRenamed h => exact .inr (.inr ⟨rfl, .rfl⟩)
    | other => exact .inr (.inr ⟨rfl, .rfl⟩)

theorem processAlert_loop (s : State) (persists : Request → Bool) (a : Alert) :
    (s.processAlert persists a).loop = s.loop := by
  rcases s.processAlert_cases persists a with h | ⟨r, fate, _, h⟩ | ⟨_, new, h⟩
  · rw [h, passOver]
  · rw [h, settle]
  · exact h.loop

theorem Kept.processAlert (persists : Request → Bool) {a : Alert} (hkept : s.Kept (a :: batch)) :
    (s.processAlert persists a).Kept batch := by
  rcases s.processAlert_cases persists a with h | ⟨r, fate, ha, h⟩ | ⟨ha, new, h⟩
  · rw [h]
    exact hkept.passOver
  · rw [h]
    exact hkept.settle ha fate
  · exact (hkept.of_no_answer ha).requested h

theorem Even.processAlert (persists : Request → Bool) {a : Alert} (heven : s.Even (a :: batch)) :
    (s.processAlert persists a).Even batch := by
  rcases s.processAlert_cases persists a with h | ⟨r, fate, ha, h⟩ | ⟨ha, h⟩
  · rw [h]
    exact heven.passOver
  · rw [h]
    exact heven.settle ha fate
  · exact (heven.of_no_answer ha).counted h

-- The loop of processAlerts over its batch.
def processBatch (s : State) (persists : Request → Bool) (batch : List Alert) : State :=
  batch.foldl (fun t a => t.processAlert persists a) s

theorem processBatch_loop (persists : Request → Bool) :
    ∀ (batch : List Alert) (s : State), (s.processBatch persists batch).loop = s.loop := by
  intro batch
  induction batch with
  | nil => exact fun s => rfl
  | cons a batch ih => exact fun s => (ih _).trans (s.processAlert_loop persists a)

theorem Kept.processBatch (persists : Request → Bool) :
    ∀ {batch : List Alert} {s : State}, s.Kept batch → (s.processBatch persists batch).Kept [] := by
  intro batch
  induction batch with
  | nil => exact fun hkept => hkept
  | cons a batch ih => exact fun hkept => ih (hkept.processAlert persists)

theorem Even.processBatch (persists : Request → Bool) :
    ∀ {batch : List Alert} {s : State}, s.Even batch → (s.processBatch persists batch).Even [] := by
  intro batch
  induction batch with
  | nil => exact fun heven => heven
  | cons a batch ih => exact fun heven => ih (heven.processAlert persists)

-- The batch that processAlerts goes through, and the state it does so from.
def taken (s : State) : State × List Alert :=
  let s' := s.popAlerts
  ({ s' with alertDrain := s'.alertDrain.drop kMaxPerTick }, s'.alertDrain.take kMaxPerTick)

theorem processAlerts_eq (s : State) (persists : Request → Bool) :
    s.processAlerts persists = (s.taken.1.renamed s.taken.2).foldl stageResumeSave
      (s.taken.1.processBatch persists s.taken.2) := rfl

theorem popAlerts_loop (s : State) : s.popAlerts.loop = s.loop := by
  rw [popAlerts]
  split_ifs <;> rfl

theorem Kept.popAlerts (hkept : s.Kept []) : s.popAlerts.Kept [] := by
  rw [State.popAlerts]
  split_ifs with hdrain
  · rw [kept_iff_count] at hkept ⊢
    intro r
    have hcount := hkept r
    rw [hdrain] at hcount
    dsimp only
    omega
  · exact hkept

theorem Even.popAlerts (heven : s.Even []) : s.popAlerts.Even [] := by
  rw [State.popAlerts]
  split_ifs with hdrain
  · rw [even_iff_length] at heven ⊢
    rw [hdrain] at heven
    dsimp only
    omega
  · exact heven

theorem answers_split (alerts : List Alert) :
    answers alerts = answers (alerts.take kMaxPerTick) ++ answers (alerts.drop kMaxPerTick) := by
  rw [← answers_append, List.take_append_drop]

theorem Kept.taken (hkept : s.Kept []) : s.taken.1.Kept s.taken.2 := by
  have hpopped := hkept.popAlerts
  rw [kept_iff_count] at hpopped ⊢
  intro r
  have hcount := hpopped r
  rw [answers_split s.popAlerts.alertDrain, List.count_append] at hcount
  dsimp only [State.taken]
  simp only [answers, List.filterMap_nil, List.count_nil] at hcount ⊢
  omega

theorem Even.taken (heven : s.Even []) : s.taken.1.Even s.taken.2 := by
  have hpopped := heven.popAlerts
  rw [even_iff_length] at hpopped ⊢
  rw [answers_split s.popAlerts.alertDrain, List.length_append] at hpopped
  dsimp only [State.taken]
  simp only [answers, List.filterMap_nil, List.length_nil] at hpopped ⊢
  omega

theorem Kept.processAlerts (persists : Request → Bool) (hkept : s.Kept []) :
    (s.processAlerts persists).Kept [] := by
  rw [processAlerts_eq]
  obtain ⟨new, hnew⟩ := Counted.foldl stageResumeSave_counted (s.taken.1.renamed s.taken.2)
    (s.taken.1.processBatch persists s.taken.2)
  exact (hkept.taken.processBatch persists).requested hnew

theorem Even.processAlerts (persists : Request → Bool) (heven : s.Even []) :
    (s.processAlerts persists).Even [] := by
  rw [processAlerts_eq]
  exact (heven.taken.processBatch persists).counted
    (.foldl stageResumeSave_counted (s.taken.1.renamed s.taken.2) _)

theorem processAlerts_loop (persists : Request → Bool) :
    (s.processAlerts persists).loop = s.loop := by
  rw [processAlerts_eq]
  obtain ⟨new, hnew⟩ := Counted.foldl stageResumeSave_counted (s.taken.1.renamed s.taken.2)
    (s.taken.1.processBatch persists s.taken.2)
  rw [hnew.loop, processBatch_loop]
  exact s.popAlerts_loop

end Alerts

section Libtorrent

variable {s} {s' : State}

theorem answer_some {r : Request} {saved : Bool} (h : s.answer r saved = some s') :
    r ∈ s.asked ∧ ∃ a, a.request = some r ∧
      s' = { s with asked := s.asked.erase r, posted := s.posted ++ [a] } := by
  rw [State.answer, Option.ite_none_right_eq_some] at h
  obtain ⟨hr, h⟩ := h
  exact ⟨hr, _, by cases saved <;> rfl, (Option.some.inj h).symm⟩

theorem dropAnswer_some {r : Request} (h : s.dropAnswer r = some s') :
    r ∈ s.asked ∧ s' = { s with asked := s.asked.erase r, lost := s.lost ++ [r] } := by
  rw [State.dropAnswer, Option.ite_none_right_eq_some] at h
  exact ⟨h.1, (Option.some.inj h.2).symm⟩

theorem answers_concat {a : Alert} {r : Request} (ha : a.request = some r) (alerts : List Alert) :
    answers (alerts ++ [a]) = answers alerts ++ [r] := by
  rw [answers_append, answers_cons, ha]
  rfl

theorem Kept.answer {r : Request} {saved : Bool} (hkept : s.Kept [])
    (h : s.answer r saved = some s') : s'.Kept [] := by
  obtain ⟨hr, a, ha, rfl⟩ := answer_some h
  rw [kept_iff_count] at hkept ⊢
  intro r'
  have hcount := hkept r'
  have hmoved := (List.perm_cons_erase hr).count_eq r'
  rw [← List.singleton_append, List.count_append] at hmoved
  simp only [answers_concat ha, List.count_append]
  omega

theorem Even.answer {r : Request} {saved : Bool} (heven : s.Even [])
    (h : s.answer r saved = some s') : s'.Even [] := by
  obtain ⟨hr, a, ha, rfl⟩ := answer_some h
  have hmoved := (List.perm_cons_erase hr).length_eq
  rw [even_iff_length] at heven ⊢
  simp only [answers_concat ha, List.length_append, List.length_cons, List.length_nil] at hmoved ⊢
  omega

theorem Kept.dropAnswer {r : Request} (hkept : s.Kept []) (h : s.dropAnswer r = some s') :
    s'.Kept [] := by
  obtain ⟨hr, rfl⟩ := dropAnswer_some h
  rw [kept_iff_count] at hkept ⊢
  intro r'
  have hcount := hkept r'
  have hmoved := (List.perm_cons_erase hr).count_eq r'
  rw [← List.singleton_append, List.count_append] at hmoved
  simp only [List.count_append]
  omega

theorem Even.dropAnswer {r : Request} (heven : s.Even []) (h : s.dropAnswer r = some s') :
    s'.Even [] := by
  obtain ⟨hr, rfl⟩ := dropAnswer_some h
  have hmoved := (List.perm_cons_erase hr).length_eq
  rw [even_iff_length] at heven ⊢
  simp only [List.length_append, List.length_cons, List.length_nil] at hmoved ⊢
  omega

theorem answers_post {a : Alert} (h : a.request = none) (alerts : List Alert) :
    answers (alerts ++ [a]) = answers alerts := by
  rw [answers_append, answers_cons, h]
  exact List.append_nil _

theorem post_some {a : Alert} (h : s.post a = some s') :
    a.request = none ∧ s' = { s with posted := s.posted ++ [a] } := by
  rw [post] at h
  split_ifs at h with ha
  exact ⟨ha, (Option.some.inj h).symm⟩

theorem Kept.post {a : Alert} (hkept : s.Kept []) (h : s.post a = some s') : s'.Kept [] := by
  obtain ⟨ha, rfl⟩ := post_some h
  rw [kept_iff_count] at hkept ⊢
  simpa only [answers_post ha] using hkept

theorem Even.post {a : Alert} (heven : s.Even []) (h : s.post a = some s') : s'.Even [] := by
  obtain ⟨ha, rfl⟩ := post_some h
  rw [even_iff_length] at heven ⊢
  simpa only [answers_post ha] using heven

end Libtorrent

section Steps

-- The calls of save_resume_data that m_resumeOutstanding does not see.
def asksUncounted (s : State) : Event → Bool
  | .pauseTorrent i => s.pausesRow i
  | .resumeTorrent i => s.pausesRow i
  | .pauseAll => s.torrents.any s.isValid
  | .resumeAll => s.torrents.any s.isValid
  | .addMagnetWith added paused found => s.addMagnetWithPauses added paused found
  | .commitStaged h _ added paused found => s.commitStagedPauses h added paused found
  | _ => false

inductive Effect (s : State) (e : Event) : State → Prop where
  | asks {s' : State} {new : List Request} {n : Nat} :
      Requested s s' new n → n ≤ new.length → (n = new.length ↔ ¬ s.asksUncounted e) →
        s.loop = .notYet ∨ n = 0 → Effect s e s'
  | processes (persists : Request → Bool) :
      s.asksUncounted e = false → (∀ early, s.loop ≠ .left early) →
        Effect s e (s.processAlerts persists)
  | answers {s' : State} {r : Request} {saved : Bool} :
      s.asksUncounted e = false → s.answer r saved = some s' → Effect s e s'
  | drops {s' : State} {r : Request} :
      s.asksUncounted e = false → s.dropAnswer r = some s' → Effect s e s'
  | posts {s' : State} {a : Alert} :
      s.asksUncounted e = false → s.post a = some s' → Effect s e s'
  | flushes {s' : State} (deadline : Int) :
      s.asksUncounted e = false → Counted s s' → Effect s e { s' with loop := .running deadline }
  | leaves (early : Bool) :
      s.asksUncounted e = false → (early → s.resumeOutstanding = 0) →
        Effect s e { s with loop := .left early }

variable {s s' : State} {e : Event}

theorem Effect.of_counted (he : s.asksUncounted e = false) (hup : s.loop = .notYet)
    (h : Counted s s') : Effect s e s' := by
  obtain ⟨new, h⟩ := h
  exact .asks h (Nat.le_refl _) (by simp [he]) (.inl hup)

theorem Effect.of_frame (he : s.asksUncounted e = false) (h : Requested s s' [] 0) :
    Effect s e s' := .asks h (Nat.le_refl _) (by simp [he]) (.inr rfl)

theorem Effect.of_uncounted {new : List Request} (hup : s.loop = .notYet)
    (h : Requested s s' new 0) (hiff : new = [] ↔ ¬ s.asksUncounted e) : Effect s e s' := by
  refine .asks h (Nat.zero_le _) ?_ (.inl hup)
  rw [eq_comm, List.length_eq_zero_iff, hiff]

theorem whileUp_some {t : State} (h : s.whileUp t = some s') : s.loop = .notYet ∧ s' = t := by
  rw [whileUp] at h
  split_ifs at h with hup
  exact ⟨hup, (Option.some.inj h).symm⟩

theorem turn_effect {persists : Request → Bool} (he : s.asksUncounted e = false)
    (h : s.turn persists = some s') : Effect s e s' := by
  cases hloop : s.loop with
  | notYet => simp [turn, hloop] at h
  | left early => simp [turn, hloop] at h
  | running deadline =>
      simp only [turn, hloop] at h
      split_ifs at h with hgoes hnothing
      · obtain rfl := Option.some.inj h
        exact .processes persists he (by simp [hloop])
      · obtain rfl := Option.some.inj h
        refine .leaves _ he fun hearly => ?_
        have hbefore := of_decide_eq_true hearly
        omega

theorem act_effect (h : s.act e = some s') : Effect s e s' := by
  cases e with
  | addTorrent x =>
      obtain ⟨hup, rfl⟩ := whileUp_some h
      exact .of_counted rfl hup (s.addTorrent_counted x)
  | adopt x =>
      obtain ⟨hup, rfl⟩ := whileUp_some h
      exact .of_frame rfl (s.adopt_requested x)
  | addMagnetWith added paused found =>
      obtain ⟨hup, rfl⟩ := whileUp_some h
      obtain ⟨new, hnew, hiff⟩ := s.addMagnetWith_requested added paused found
      exact .of_uncounted hup hnew hiff
  | restoreFromResumeData x =>
      obtain ⟨hup, rfl⟩ := whileUp_some h
      exact .of_counted rfl hup (s.restoreFromResumeData_counted x)
  | stageMagnet x =>
      obtain ⟨hup, rfl⟩ := whileUp_some h
      exact .of_frame rfl (by constructor <;> simp [stageMagnet])
  | discardStaged x =>
      obtain ⟨hup, rfl⟩ := whileUp_some h
      exact .of_frame rfl (by constructor <;> simp [discardStaged])
  | commitStaged x hasMeta added paused found =>
      obtain ⟨hup, rfl⟩ := whileUp_some h
      obtain ⟨new, n, hnew, hle, hiff⟩ := s.commitStaged_requested x hasMeta added paused found
      exact .asks hnew hle hiff (.inl hup)
  | removeTorrent i =>
      obtain ⟨hup, rfl⟩ := whileUp_some h
      exact .of_frame rfl (s.removeTorrent_requested i)
  | setTorrentQueuePosition i position =>
      obtain ⟨hup, rfl⟩ := whileUp_some h
      exact .of_frame rfl (s.setTorrentQueuePosition_requested i position)
  | pauseTorrent i =>
      obtain ⟨hup, rfl⟩ := whileUp_some h
      obtain ⟨new, hnew, hiff⟩ := s.pauseTorrent_requested i
      exact .of_uncounted hup hnew hiff
  | resumeTorrent i =>
      obtain ⟨hup, rfl⟩ := whileUp_some h
      obtain ⟨new, hnew, hiff⟩ := s.pauseTorrent_requested i
      exact .of_uncounted hup hnew hiff
  | pauseAll =>
      obtain ⟨hup, rfl⟩ := whileUp_some h
      obtain ⟨new, hnew, hiff⟩ := s.pauseAll_requested
      exact .of_uncounted hup hnew hiff
  | resumeAll =>
      obtain ⟨hup, rfl⟩ := whileUp_some h
      obtain ⟨new, hnew, hiff⟩ := s.pauseAll_requested
      exact .of_uncounted hup hnew hiff
  | saveResumeData =>
      obtain ⟨hup, rfl⟩ := whileUp_some h
      exact .of_counted rfl hup s.saveResumeData_counted
  | processAlerts persists =>
      obtain ⟨hup, rfl⟩ := whileUp_some h
      exact .processes persists rfl (by simp [hup])
  | flushResumeDataBlocking timeoutMs =>
      obtain ⟨hup, rfl⟩ := whileUp_some h
      exact .flushes _ rfl s.saveResumeData_counted
  | turn persists => exact turn_effect rfl h
  | answer r saved => exact .answers rfl h
  | dropAnswer r => exact .drops rfl h
  | post a => exact .posts rfl h
  | statusKnown x hasMeta =>
      obtain rfl := Option.some.inj h
      exact .of_frame rfl (by constructor <;> simp [statusKnown])
  | removalDone x =>
      obtain rfl := Option.some.inj h
      exact .of_frame rfl (by constructor <;> simp)
  | clock now =>
      obtain rfl := Option.some.inj h
      exact .of_frame rfl (by constructor <;> simp)
  | elapse ms =>
      obtain rfl := Option.some.inj h
      exact .of_frame rfl (by constructor <;> simp)

-- An early end of the flush leaves the counter at zero.
def EndsEven (s : State) : Prop := s.loop = .left true → s.resumeOutstanding = 0

theorem Effect.kept (h : Effect s e s') (hkept : s.Kept []) : s'.Kept [] := by
  cases h with
  | asks hnew => exact hkept.requested hnew
  | processes persists => exact hkept.processAlerts persists
  | answers _ hanswer => exact hkept.answer hanswer
  | drops _ hdrop => exact hkept.dropAnswer hdrop
  | posts _ hpost => exact hkept.post hpost
  | @flushes t _ _ hcounted =>
      obtain ⟨new, hnew⟩ := hcounted
      have ht : t.Kept [] := hkept.requested hnew
      exact ht
  | leaves => exact hkept

theorem Effect.even (h : Effect s e s') (he : ¬ s.asksUncounted e) (heven : s.Even []) :
    s'.Even [] := by
  cases h with
  | @asks _ new n hnew _ hiff _ =>
      obtain rfl := hiff.mpr he
      exact heven.counted ⟨new, hnew⟩
  | processes persists => exact heven.processAlerts persists
  | answers _ hanswer => exact heven.answer hanswer
  | drops _ hdrop => exact heven.dropAnswer hdrop
  | posts _ hpost => exact heven.post hpost
  | @flushes t _ _ hcounted =>
      have ht : t.Even [] := heven.counted hcounted
      exact ht
  | leaves => exact heven

-- From a state where the counter is right, a call that it does not see leaves it short.
theorem Effect.short (h : Effect s e s') (he : s.asksUncounted e) (heven : s.Even []) :
    s'.resumeOutstanding < s'.unprocessed.length := by
  cases h with
  | @asks _ new n hnew hle hiff _ =>
      have hne : n ≠ new.length := fun heq => hiff.mp heq he
      have hlen := hnew.length_unprocessed
      have hout := hnew.outstanding
      rw [even_nil] at heven
      omega
  | processes _ hnot => simp [hnot] at he
  | answers hnot => simp [hnot] at he
  | drops hnot => simp [hnot] at he
  | posts hnot => simp [hnot] at he
  | flushes _ hnot => simp [hnot] at he
  | leaves _ hnot => simp [hnot] at he

theorem Effect.endsEven (h : Effect s e s') (hends : s.EndsEven) : s'.EndsEven := by
  intro hleft
  cases h with
  | asks hnew _ _ hloop =>
      rw [hnew.loop] at hleft
      rcases hloop with hup | rfl
      · rw [hup] at hleft
        cases hleft
      · rw [hnew.outstanding]
        exact hends hleft
  | processes persists _ hrunning =>
      rw [processAlerts_loop] at hleft
      exact absurd hleft (hrunning true)
  | answers _ hanswer =>
      obtain ⟨_, a, _, rfl⟩ := answer_some hanswer
      exact hends hleft
  | drops _ hdrop =>
      obtain ⟨_, rfl⟩ := dropAnswer_some hdrop
      exact hends hleft
  | posts _ hpost =>
      obtain ⟨_, rfl⟩ := post_some hpost
      exact hends hleft
  | flushes _ _ hcounted => cases hleft
  | leaves early _ hzero =>
      cases early with
      | true => exact hzero rfl
      | false => cases hleft

end Steps

end State

section Runs

theorem next_effect {s s' : State} {e : Event} {out : List Empty}
    (h : machine.next s e = some (s', out)) : State.Effect s e s' := by
  obtain ⟨t, hact, heq⟩ := Option.map_eq_some_iff.mp h
  obtain ⟨rfl, -⟩ := Prod.mk.inj heq
  exact State.act_effect hact

variable {guard : State → Event → Prop} {past : List (Reaction State Event Empty)} {s : State}

theorem run_kept (hrun : machine.Run guard past s) : s.Kept [] :=
  hrun.invariant (fun t => t.Kept []) (List.Perm.refl _)
    fun _ _ _ _ hkept _ hnext => (next_effect hnext).kept hkept

theorem run_endsEven (hrun : machine.Run guard past s) : s.EndsEven :=
  hrun.invariant State.EndsEven (fun _ => rfl)
    fun _ _ _ _ hends _ hnext => (next_effect hnext).endsEven hends

theorem run_even (hrun : machine.Run guard past s)
    (hpast : ∀ r ∈ past, ¬ r.before.asksUncounted r.event) : s.Even [] :=
  have hcounted : machine.Run (fun t e => ¬ t.asksUncounted e) past s := hrun.restrict hpast
  hcounted.invariant (fun t => t.Even []) rfl
    fun _ _ _ _ heven he hnext => (next_effect hnext).even he heven

-- The counter covers the answers still to be processed, and a flush that ends before its deadline
-- has had every request answered and the answer processed.
def Waits (s : State) : Prop :=
  s.unprocessed.length ≤ s.resumeOutstanding ∧
    (s.loop = .left true → ∀ r ∈ s.accepted, ∃ fate, (r, fate) ∈ s.processed)

theorem waits_of_even (hkept : s.Kept []) (hends : s.EndsEven) (heven : s.Even []) : Waits s := by
  have hlen := State.even_nil.mp heven
  refine ⟨Nat.le_of_eq hlen.symm, fun hleft r hr => ?_⟩
  have hnone : s.unprocessed = [] := List.length_eq_zero_iff.mp (hlen ▸ hends hleft)
  have hprocessed := hkept.mem_iff.mpr hr
  rw [hnone] at hprocessed
  obtain ⟨⟨r', fate⟩, hmem, rfl⟩ := List.mem_map.mp hprocessed
  exact ⟨fate, hmem⟩

theorem run_waits {past : List (Reaction State Event Empty)} {s : State}
    (hrun : machine.Run (fun _ _ => True) past s) :
    (∀ t ∈ visited past s, Waits t) ↔ ∀ r ∈ past, ¬ r.before.asksUncounted r.event := by
  have hinit : Waits machine.init ↔ True :=
    iff_true_intro (waits_of_even (List.Perm.refl _) (fun _ => rfl) rfl)
  have hstep : ∀ past t e t' out, machine.Run (fun _ _ => True) past t →
      (∀ r ∈ past, ¬ r.before.asksUncounted r.event) → Waits t →
        machine.next t e = some (t', out) → (Waits t' ↔ ¬ t.asksUncounted e) := by
    intro past t e t' out hrun hpast _ hnext
    have heffect := next_effect hnext
    have heven := run_even hrun hpast
    constructor
    · intro hwaits he
      have hshort := heffect.short he heven
      have henough := hwaits.1
      omega
    · intro he
      exact waits_of_even (heffect.kept (run_kept hrun)) (heffect.endsEven (run_endsEven hrun))
        (heffect.even he heven)
  have hall := hrun.forall_visited_iff_of_past (C := fun t e => ¬ t.asksUncounted e) hinit hstep
  rwa [true_and] at hall

-- One torrent, whose piece is saved besides, and a flush that has all the time it needs.
def savedInTime : List Event :=
  [.addTorrent 0, .statusKnown 0 true, .answer ⟨0, 0⟩ true, .processAlerts fun _ => true,
    .clock 60, .post (.pieceFinished 0), .processAlerts fun _ => true,
    .flushResumeDataBlocking 5000, .answer ⟨2, 0⟩ true, .turn fun _ => true,
    .answer ⟨1, 0⟩ false, .turn fun _ => true, .turn fun _ => true]

theorem run_waits_savedInTime : ∃ past s, machine.Run (fun _ _ => True) past s ∧
    s.loop = .left true ∧ s.accepted.length = 3 ∧ ∀ t ∈ visited past s, Waits t := by
  have hreached : ∃ past s, machine.Run (fun t e => ¬ t.asksUncounted e) past s ∧
      (s.loop = .left true ∧ s.accepted.length = 3) := exists_run savedInTime (by decide)
  obtain ⟨past, s, hrun, hleft, hthree⟩ := hreached
  have hpast : ∀ r ∈ past, ¬ r.before.asksUncounted r.event := by
    intro r hr
    obtain ⟨_, _, _, hguard, _⟩ := hrun.before hr
    exact hguard
  have hfree := hrun.mono fun _ _ _ => trivial
  exact ⟨past, s, hfree, hleft, hthree, (run_waits hfree).mpr hpast⟩

-- The answer to the pause counts for the request of the flush.
def pausedBeforeFlush : List Event :=
  [.addTorrent 0, .statusKnown 0 true, .answer ⟨0, 0⟩ true, .processAlerts fun _ => true,
    .pauseTorrent 0, .flushResumeDataBlocking 5000, .answer ⟨1, 0⟩ true, .turn fun _ => true,
    .turn fun _ => true]

theorem not_run_waits : ¬ ∀ past s, machine.Run (fun _ _ => True) past s → Waits s := by
  intro hall
  have hreached : ∃ past s, machine.Run (fun _ _ => True) past s ∧
      (s.loop = .left true ∧ ⟨2, 0⟩ ∈ s.accepted ∧ ⟨2, 0⟩ ∉ s.processed.map Prod.fst) :=
    exists_run pausedBeforeFlush (by decide)
  obtain ⟨past, s, hrun, hleft, haccepted, hprocessed⟩ := hreached
  obtain ⟨fate, hmem⟩ := (hall past s hrun).2 hleft _ haccepted
  exact hprocessed (List.mem_map.mpr ⟨_, hmem, rfl⟩)

end Runs

end BATorrent.ResumeFlush
