import BATorrent.Torrent.Totals
import Mathlib.Tactic.Abel

namespace BATorrent.Totals

open Lib

variable {Handle Day : Type} [DecidableEq Handle] [LinearOrder Day]

section Doubles

theorem double_of_lt {n : Nat} (h : n < 2 ^ 53) : double n = n := by
  have hlog : n.log2 - 52 = 0 := by
    by_cases hzero : n = 0
    · rw [hzero]
      decide
    · have hlt := (Nat.log2_lt hzero).mpr h
      omega
  rw [double, hlog]
  simp only [Nat.pow_zero, Nat.mod_one, Nat.div_one]
  rw [if_neg (by omega), Nat.mul_one]

-- What the days hold together, where a double is exact.
theorem recorded_bump {key : (Nat → Nat) → Transfer → Transfer} {day : Day} {now before : Nat}
    {days : List (Day × Transfer)} (growth : Transfer)
    (hkey : ∀ e : Transfer, e ≤ recorded days →
      key (fun n => double (n + double (now - before))) e = e + growth)
    (hnone : now ≤ before → growth = 0) :
    recorded (bump key day ((now : Int) - before) days) = recorded days + growth := by
  rw [bump]
  by_cases hle : (now : Int) - before ≤ 0
  · rw [if_pos hle, hnone (by omega), add_zero]
  · have hdelta : ((now : Int) - before).toNat = now - before := by omega
    rw [if_neg hle, hdelta]
    unfold recorded at hkey ⊢
    rcases SortedMap.values_alter (k := day)
        (f := fun entry => key (fun n => double (n + double (now - before))) (entry.getD 0))
        (m := days) with ⟨l, r, hdays, halter⟩ | ⟨l, b, r, hdays, halter⟩
    · rw [halter, hdays, List.sum_append, List.sum_cons, List.sum_append, Option.getD_none,
        hkey 0 zero_le, zero_add]
      abel
    · have hb : b ≤ (SortedMap.values days).sum := by
        rw [hdays, List.sum_append, List.sum_cons]
        exact le_add_left (le_add_right le_rfl)
      rw [halter, Option.getD_some, hkey b hb, hdays]
      simp only [List.sum_append, List.sum_cons]
      abel

-- Below this a double holds every number.
def Exact (n : Transfer) : Prop := n.1 < 2 ^ 53 ∧ n.2 < 2 ^ 53

theorem recorded_recordTransfer {day : Day} {now last : Transfer} {days : List (Day × Transfer)}
    (h : Exact (recorded days + (now - last))) :
    recorded (bumpUp day (now.2 - last.2) (bumpDown day (now.1 - last.1) days)) =
      recorded days + (now - last) := by
  obtain ⟨hdown, hup⟩ := h
  rw [Prod.fst_add, Prod.fst_sub] at hdown
  rw [Prod.snd_add, Prod.snd_sub] at hup
  have hdowns : recorded (bumpDown day (now.1 - last.1) days) = recorded days + (now.1 - last.1, 0) := by
    apply recorded_bump
    · intro e he
      have hle := he.1
      rw [double_of_lt (by omega : now.1 - last.1 < 2 ^ 53)]
      exact Prod.ext (double_of_lt (by omega)) rfl
    · intro hle
      rw [Nat.sub_eq_zero_of_le hle]
      rfl
  have hups : recorded (bumpUp day (now.2 - last.2) (bumpDown day (now.1 - last.1) days)) =
      recorded (bumpDown day (now.1 - last.1) days) + (0, now.2 - last.2) := by
    apply recorded_bump
    · intro e he
      have hle := he.2
      rw [hdowns, Prod.snd_add] at hle
      rw [double_of_lt (by omega : now.2 - last.2 < 2 ^ 53)]
      exact Prod.ext rfl (double_of_lt (by simp only at hle; omega))
    · intro hle
      rw [Nat.sub_eq_zero_of_le hle]
      rfl
  rw [hups, hdowns, add_assoc]
  exact congrArg (recorded days + ·) (Prod.ext (by simp) (by simp))

end Doubles

section Invariant

-- A status that a torrent had, in the order of its counters.
def Known (w : World Handle Day) (st : Handle × Transfer) : Prop :=
  match w.torrent st.1 with
  | .absent => False
  | .alive live => st.2 ≤ live
  | .expired => True

def Alert.Known (w : World Handle Day) : Alert Handle → Prop
  | .stateUpdate status => ∀ st ∈ status, Totals.Known w st
  | .torrentChecked _ => True

-- What the history has counted since the session started.
def Sampled (w : World Handle Day) : Prop :=
  match w.first, w.last with
  | none, none => recorded w.days = w.opened
  | some first, some last => recorded w.days + first = w.opened + last ∧ last ≤ total w
  | _, _ => False

structure Inv (w : World Handle Day) : Prop where
  nodup : w.torrents.Nodup
  alive : ∀ h ∈ w.torrents, ∃ st, w.torrent h = .alive st
  cached : ∀ h st, w.statusCache h = some st → Known w (h, st)
  drained : ∀ a ∈ w.alertDrain, a.Known w
  queued : ∀ a ∈ w.queue, a.Known w
  conserved : w.globalBase + (w.torrents.map fun h => payload (w.torrent h)).sum = w.saved + w.moved
  sampled : Sampled w

variable {w w' : World Handle Day}

theorem Inv.view_le (hinv : Inv w) (h : Handle) : view w h ≤ payload (w.torrent h) := by
  cases htorrent : w.torrent h with
  | absent => simp only [view, htorrent, payload, le_refl]
  | expired => simp only [view, htorrent, payload, le_refl]
  | alive live =>
      cases hcached : w.statusCache h with
      | none => rw [view_of_uncached htorrent hcached, payload]
      | some st =>
          have hknown := hinv.cached h st hcached
          rw [Known, htorrent] at hknown
          rw [view_of_cached htorrent hcached]
          exact hknown

theorem total_le_total (hbase : w'.globalBase = w.globalBase) (htorrents : w'.torrents = w.torrents)
    (hview : ∀ h ∈ w.torrents, view w h ≤ view w' h) : total w ≤ total w' := by
  unfold total
  rw [hbase, htorrents]
  exact add_le_add_right (List.sum_le_sum hview) _

theorem Sampled.mono (h : Sampled w) (hfirst : w'.first = w.first) (hlast : w'.last = w.last)
    (hdays : w'.days = w.days) (hopened : w'.opened = w.opened) (htotal : total w ≤ total w') :
    Sampled w' := by
  unfold Sampled at h ⊢
  rw [hfirst, hlast, hdays, hopened]
  cases hf : w.first with
  | none =>
      cases hl : w.last with
      | none =>
          rw [hf, hl] at h
          exact h
      | some last =>
          rw [hf, hl] at h
          exact h
  | some first =>
      cases hl : w.last with
      | none =>
          rw [hf, hl] at h
          exact h
      | some last =>
          rw [hf, hl] at h
          exact ⟨h.1, h.2.trans htotal⟩

-- What a step keeps, and that no total goes down in it.
def Kept (w w' : World Handle Day) : Prop := Inv w' ∧ total w ≤ total w'

omit [DecidableEq Handle] [LinearOrder Day] in
theorem Kept.trans {w'' : World Handle Day} (h : Kept w w') (h' : Kept w' w'') : Kept w w'' :=
  ⟨h'.1, h.2.trans h'.2⟩

-- A step that changes the cache only.
theorem Inv.recache (hinv : Inv w) {cache : Handle → Option Transfer}
    (hcached : ∀ h st, cache h = some st → Known w (h, st))
    (hview : ∀ h ∈ w.torrents, view w h ≤ view { w with statusCache := cache } h) :
    Kept w { w with statusCache := cache } := by
  have htotal : total w ≤ total { w with statusCache := cache } := total_le_total rfl rfl hview
  exact ⟨⟨hinv.nodup, hinv.alive, hcached, hinv.drained, hinv.queued, hinv.conserved,
    hinv.sampled.mono rfl rfl rfl rfl htotal⟩, htotal⟩

theorem Inv.warm (hinv : Inv w) {cache : Handle → Option Transfer} (h : Warmed w cache) :
    Kept w { w with statusCache := cache } := by
  apply hinv.recache
  · intro g st hg
    cases hcached : w.statusCache g with
    | some st' =>
        have hkept := h.kept g st' hcached
        rw [hg] at hkept
        cases hkept
        exact hinv.cached g st hcached
    | none =>
        rw [Known, h.fresh g st hcached hg]
  · intro g _
    rw [h.view_eq]

theorem Inv.uncache (hinv : Inv w) (h : Handle) :
    Kept w { w with statusCache := Function.update w.statusCache h none } := by
  apply hinv.recache
  · intro g st hg
    by_cases heq : g = h
    · rw [heq, Function.update_self] at hg
      cases hg
    · rw [Function.update_of_ne heq] at hg
      exact hinv.cached g st hg
  · intro g hmem
    by_cases heq : g = h
    · obtain ⟨live, halive⟩ := hinv.alive g hmem
      have hnone : Function.update w.statusCache h none g = none := by rw [heq, Function.update_self]
      have hview := hinv.view_le g
      rw [halive, payload] at hview
      rw [view_of_uncached (w := { w with statusCache := Function.update w.statusCache h none }) halive hnone]
      exact hview
    · apply le_of_eq
      simp only [view, Function.update_of_ne heq]

-- A status comes into the cache that is not behind what the total counts.
theorem Inv.cache (hinv : Inv w) {h : Handle} {st : Transfer} (hknown : Known w (h, st))
    (hview : h ∈ w.torrents → view w h ≤ st) :
    Kept w { w with statusCache := Function.update w.statusCache h (some st) } := by
  apply hinv.recache
  · intro g st' hg
    by_cases heq : g = h
    · rw [heq, Function.update_self] at hg
      cases hg
      rw [heq]
      exact hknown
    · rw [Function.update_of_ne heq] at hg
      exact hinv.cached g st' hg
  · intro g hmem
    by_cases heq : g = h
    · obtain ⟨live, halive⟩ := hinv.alive g hmem
      have hsome : Function.update w.statusCache h (some st) g = some st := by rw [heq, Function.update_self]
      rw [view_of_cached (w := { w with statusCache := Function.update w.statusCache h (some st) }) halive hsome]
      subst heq
      exact hview hmem
    · apply le_of_eq
      simp only [view, Function.update_of_ne heq]

-- What a torrent can become.
def Later : Torrent → Torrent → Prop
  | .absent, _ => True
  | .alive st, .alive st' => st ≤ st'
  | .alive _, .expired => True
  | .expired, .expired => True
  | _, _ => False

omit [DecidableEq Handle] [LinearOrder Day] in
theorem Known.later {st : Handle × Transfer} (h : Known w st)
    (hlater : ∀ h, Later (w.torrent h) (w'.torrent h)) : Known w' st := by
  have hst := hlater st.1
  unfold Known at h ⊢
  revert h hst
  cases w.torrent st.1 with
  | absent => exact fun h => h.elim
  | alive live =>
      cases w'.torrent st.1 with
      | absent => exact fun h h' => h'.elim
      | alive live' => exact fun h h' => le_trans h h'
      | expired => exact fun _ _ => trivial
  | expired =>
      cases w'.torrent st.1 with
      | absent => exact fun h h' => h'.elim
      | alive live' => exact fun h h' => h'.elim
      | expired => exact fun _ _ => trivial

omit [DecidableEq Handle] [LinearOrder Day] in
theorem Alert.Known.later {a : Alert Handle} (h : a.Known w)
    (hlater : ∀ h, Later (w.torrent h) (w'.torrent h)) : a.Known w' := by
  cases a with
  | stateUpdate status => exact fun st hst => Totals.Known.later (h st hst) hlater
  | torrentChecked h' => trivial

theorem later_refl (t : Torrent) : Later t t := by
  cases t with
  | absent => trivial
  | alive st => exact le_refl st
  | expired => trivial

theorem later_update {h : Handle} {t : Torrent} (hlater : Later (w.torrent h) t) (g : Handle) :
    Later (w.torrent g) (Function.update w.torrent h t g) := by
  by_cases heq : g = h
  · rw [heq, Function.update_self]
    exact hlater
  · rw [Function.update_of_ne heq]
    exact later_refl _

-- A step of libtorrent.
theorem Inv.engine (hinv : Inv w) {torrent : Handle → Torrent} {moved : Transfer}
    (hlater : ∀ h, Later (w.torrent h) (torrent h))
    (halive : ∀ h ∈ w.torrents, ∃ st, torrent h = .alive st)
    (hconserved : w.globalBase + (w.torrents.map fun h => payload (torrent h)).sum = w.saved + moved) :
    Kept w { w with torrent := torrent, moved := moved } := by
  have htotal : total w ≤ total { w with torrent := torrent, moved := moved } := by
    refine total_le_total (w := w) (by rfl) (by rfl) ?_
    intro h hmem
    obtain ⟨st, hst⟩ := hinv.alive h hmem
    obtain ⟨st', hst'⟩ := halive h hmem
    have hle := hlater h
    rw [hst, hst'] at hle
    cases hcached : w.statusCache h with
    | none =>
        rw [view_of_uncached hst hcached,
          view_of_uncached (w := { w with torrent := torrent, moved := moved }) hst' hcached]
        exact hle
    | some cached =>
        rw [view_of_cached hst hcached,
          view_of_cached (w := { w with torrent := torrent, moved := moved }) hst' hcached]
  refine ⟨⟨hinv.nodup, halive, ?_, ?_, ?_, hconserved, hinv.sampled.mono rfl rfl rfl rfl htotal⟩, htotal⟩
  · exact fun h st hst => (hinv.cached h st hst).later hlater
  · exact fun a ha => (hinv.drained a ha).later hlater
  · exact fun a ha => (hinv.queued a ha).later hlater

-- A step that moves alerts about.
omit [DecidableEq Handle] [LinearOrder Day] in
theorem Inv.alerts (hinv : Inv w) {queue alertDrain : List (Alert Handle)}
    (hdrain : ∀ a ∈ alertDrain, a.Known w) (hqueue : ∀ a ∈ queue, a.Known w) :
    Kept w { w with queue := queue, alertDrain := alertDrain } :=
  ⟨⟨hinv.nodup, hinv.alive, hinv.cached, hdrain, hqueue, hinv.conserved, hinv.sampled⟩, le_refl _⟩

end Invariant

end BATorrent.Totals
