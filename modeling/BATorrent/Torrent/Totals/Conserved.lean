import BATorrent.Torrent.Totals.Kept

namespace BATorrent.Totals

open Lib

variable {Handle Day : Type} [DecidableEq Handle] [LinearOrder Day]

section Condition

-- No status of the batch is behind what the total counts when it comes in.
def NoneBehind : World Handle Day → List (Handle × Transfer) → Prop
  | _, [] => True
  | w, st :: rest => (st.1 ∈ w.torrents → view w st.1 ≤ st.2) ∧ NoneBehind (onStateUpdate [st] w) rest

-- When a step keeps the account.
def Sound (w : World Handle Day) : Event Handle Day → Prop
  | .startsOver h => payload (w.torrent h) = 0
  | .expires h => h ∉ w.torrents
  | .add h => h ∉ w.torrents → payload (w.torrent h) = 0
  | .restore h => h ∉ w.torrents ∧ payload (w.torrent h) = 0
  | .alert =>
      match (popAlerts w).alertDrain with
      | .stateUpdate status :: _ => NoneBehind w status
      | _ => True
  | .sample _ => ∀ last, w.last = some last → Exact (recorded w.days + (total w - last))
  | _ => True

end Condition

section Steps

variable {w w' : World Handle Day} {h : Handle}

theorem sum_update {torrents : List Handle} (hnodup : torrents.Nodup) (hmem : h ∈ torrents)
    (torrent : Handle → Torrent) (t : Torrent) (bytes : Transfer)
    (ht : payload t = payload (torrent h) + bytes) :
    (torrents.map fun g => payload (Function.update torrent h t g)).sum =
      (torrents.map fun g => payload (torrent g)).sum + bytes := by
  induction torrents with
  | nil => exact absurd hmem List.not_mem_nil
  | cons g torrents ih =>
      obtain ⟨hnot, hnodup⟩ := List.nodup_cons.mp hnodup
      rw [List.map_cons, List.map_cons, List.sum_cons, List.sum_cons]
      by_cases heq : g = h
      · subst heq
        have hrest : (torrents.map fun g' => payload (Function.update torrent g t g')) =
            torrents.map fun g' => payload (torrent g') := by
          apply List.map_congr_left
          intro g' hg'
          rw [Function.update_of_ne (ne_of_mem_of_not_mem hg' hnot)]
        rw [hrest, Function.update_self, ht]
        abel
      · have hmem' : h ∈ torrents := (List.mem_cons.mp hmem).resolve_left fun heq' => heq heq'.symm
        rw [ih hnodup hmem', Function.update_of_ne heq]
        abel

theorem sum_update_of_notMem {torrents : List Handle} (hmem : h ∉ torrents) (torrent : Handle → Torrent)
    (t : Torrent) :
    (torrents.map fun g => payload (Function.update torrent h t g)) =
      torrents.map fun g => payload (torrent g) := by
  apply List.map_congr_left
  intro g hg
  rw [Function.update_of_ne (ne_of_mem_of_not_mem hg hmem)]

theorem moves_kept (hinv : Inv w) {bytes live : Transfer} (hlive : w.torrent h = .alive live) :
    Kept w { w with
      torrent := Function.update w.torrent h (.alive (live + bytes))
      moved := if h ∈ w.torrents then w.moved + bytes else w.moved } := by
  apply hinv.engine
  · apply later_update
    rw [hlive]
    exact le_add_right le_rfl
  · intro g hg
    by_cases heq : g = h
    · exact ⟨live + bytes, by rw [heq, Function.update_self]⟩
    · rw [Function.update_of_ne heq]
      exact hinv.alive g hg
  · have hconserved := hinv.conserved
    by_cases hmem : h ∈ w.torrents
    · rw [if_pos hmem, sum_update hinv.nodup hmem w.torrent _ bytes (by rw [hlive]; rfl), ← add_assoc,
        hconserved, add_assoc]
    · rw [if_neg hmem, sum_update_of_notMem hmem, hconserved]

theorem expires_kept (hinv : Inv w) (hmem : h ∉ w.torrents) :
    Kept w { w with torrent := Function.update w.torrent h .expired } := by
  apply hinv.engine
  · apply later_update
    cases w.torrent h with
    | absent => trivial
    | alive st => trivial
    | expired => trivial
  · intro g hg
    rw [Function.update_of_ne (ne_of_mem_of_not_mem hg hmem)]
    exact hinv.alive g hg
  · rw [sum_update_of_notMem hmem]
    exact hinv.conserved

theorem added_kept (hinv : Inv w) (hadd : w.torrent h = .absent) :
    Kept w { w with torrent := Function.update w.torrent h (.alive 0) } := by
  have hmem : h ∉ w.torrents := by
    intro hmem
    obtain ⟨st, hst⟩ := hinv.alive h hmem
    rw [hadd] at hst
    cases hst
  apply hinv.engine
  · apply later_update
    rw [hadd]
    trivial
  · intro g hg
    rw [Function.update_of_ne (ne_of_mem_of_not_mem hg hmem)]
    exact hinv.alive g hg
  · rw [sum_update_of_notMem hmem]
    exact hinv.conserved

-- A torrent that has moved nothing comes into the list.
theorem listed_kept (hinv : Inv w) (hmem : h ∉ w.torrents) (halive : w.torrent h = .alive 0) :
    Kept w { w with torrents := w.torrents ++ [h] } := by
  have hzero : view w h = 0 := by
    have hle := hinv.view_le h
    rw [halive, payload] at hle
    exact le_antisymm hle zero_le
  have hviews : ∀ g, view { w with torrents := w.torrents ++ [h] } g = view w g := fun g => rfl
  have htotal : total { w with torrents := w.torrents ++ [h] } = total w := by
    unfold total
    rw [List.map_append, List.sum_append, List.map_singleton, List.sum_singleton]
    rw [hviews h, hzero, add_zero]
    rfl
  refine ⟨⟨?_, ?_, hinv.cached, hinv.drained, hinv.queued, ?_, ?_⟩, htotal.ge⟩
  · rw [List.nodup_append]
    refine ⟨hinv.nodup, List.pairwise_singleton _ h, ?_⟩
    intro g hg g' hg'
    rw [List.mem_singleton.mp hg']
    exact ne_of_mem_of_not_mem hg hmem
  · intro g hg
    cases List.mem_append.mp hg with
    | inl hg => exact hinv.alive g hg
    | inr hg => exact ⟨0, by rw [List.mem_singleton.mp hg]; exact halive⟩
  · rw [List.map_append, List.sum_append, List.map_singleton, List.sum_singleton, halive]
    exact hinv.conserved
  · exact hinv.sampled.mono rfl rfl rfl rfl htotal.ge

theorem restore_kept (hinv : Inv w) (hmem : h ∉ w.torrents) (hpayload : payload (w.torrent h) = 0)
    (hnext : restoreFromResumeData h w = some w') : Kept w w' := by
  rw [restoreFromResumeData, addToSession] at hnext
  cases htorrent : w.torrent h with
  | absent =>
      rw [htorrent] at hnext
      cases hnext
      have hadded := added_kept hinv htorrent
      exact hadded.trans (listed_kept hadded.1 hmem (Function.update_self _ _ _))
  | alive st =>
      rw [htorrent, payload] at hpayload
      rw [htorrent] at hnext
      cases hnext
      exact listed_kept hinv hmem (by rw [htorrent, hpayload])
  | expired =>
      rw [htorrent] at hnext
      cases hnext

theorem add_kept (hinv : Inv w) (hsound : h ∉ w.torrents → payload (w.torrent h) = 0)
    (hnext : addTorrent h w = some w') : Kept w w' := by
  rw [addTorrent] at hnext
  by_cases hduplicate : isDuplicate h w = true
  · rw [if_pos hduplicate] at hnext
    cases hnext
    exact ⟨hinv, le_refl _⟩
  · rw [if_neg hduplicate] at hnext
    have hmem : h ∉ w.torrents := by
      intro hmem
      obtain ⟨st, hst⟩ := hinv.alive h hmem
      apply hduplicate
      rw [isDuplicate, List.any_eq_true]
      refine ⟨h, hmem, ?_⟩
      rw [hst, decide_eq_true rfl]
      rfl
    exact restore_kept hinv hmem (hsound hmem) hnext

theorem sum_eraseIdx {torrents : List Handle} {index : Nat} (hget : torrents[index]? = some h)
    (f : Handle → Transfer) :
    (torrents.map f).sum = f h + ((torrents.eraseIdx index).map f).sum := by
  obtain ⟨hlt, hget⟩ := List.getElem?_eq_some_iff.mp hget
  have hperm := List.getElem_cons_eraseIdx_perm hlt
  rw [hget] at hperm
  rw [← (hperm.map f).sum_eq, List.map_cons, List.sum_cons]

theorem remove_kept (hinv : Inv w) (index : Nat) : Kept w (removeTorrent index w) := by
  rw [removeTorrent]
  cases hget : w.torrents[index]? with
  | none => exact ⟨hinv, le_refl _⟩
  | some h =>
      have hmem := List.mem_of_getElem? hget
      obtain ⟨live, halive⟩ := hinv.alive h hmem
      have hsub := List.eraseIdx_sublist w.torrents index
      simp only [halive]
      have hun := hinv.uncache h
      refine hun.trans ?_
      have htotal : total { w with statusCache := Function.update w.statusCache h none } =
          total { w with
            globalBase := w.globalBase + live
            statusCache := Function.update w.statusCache h none
            torrents := w.torrents.eraseIdx index } := by
        have hview : view { w with statusCache := Function.update w.statusCache h none } h = live :=
          view_of_uncached (w := { w with statusCache := Function.update w.statusCache h none }) halive
            (Function.update_self _ _ _)
        unfold total
        rw [sum_eraseIdx hget, hview, ← add_assoc]
        rfl
      refine ⟨⟨hinv.nodup.sublist hsub, ?_, hun.1.cached, hinv.drained, hinv.queued, ?_, ?_⟩, htotal.le⟩
      · exact fun g hg => hinv.alive g (hsub.subset hg)
      · have hconserved := hinv.conserved
        rw [sum_eraseIdx hget, halive, payload, ← add_assoc] at hconserved
        exact hconserved
      · exact hun.1.sampled.mono rfl rfl rfl rfl htotal.le

theorem recheck_kept (hinv : Inv w) (index : Nat) : Kept w (forceRecheck index w) := by
  rw [forceRecheck]
  cases w.torrents[index]? with
  | none => exact ⟨hinv, le_refl _⟩
  | some h =>
      by_cases hvalid : isValid (w.torrent h) = true
      · simp only [if_pos hvalid]
        exact hinv.uncache h
      · simp only [if_neg hvalid]
        exact ⟨hinv, le_refl _⟩

theorem onStateUpdate_kept (hinv : Inv w) {status : List (Handle × Transfer)}
    (hknown : ∀ st ∈ status, Known w st) (hbehind : NoneBehind w status) :
    Kept w (onStateUpdate status w) := by
  induction status generalizing w with
  | nil => exact ⟨hinv, le_refl _⟩
  | cons st status ih =>
      have hfirst : Kept w (onStateUpdate [st] w) :=
        hinv.cache (hknown st List.mem_cons_self) hbehind.1
      have hrest : ∀ st' ∈ status, Known (onStateUpdate [st] w) st' := by
        intro st' hst'
        exact hknown st' (List.mem_cons_of_mem st hst')
      exact hfirst.trans (ih hfirst.1 hrest hbehind.2)

theorem onTorrentChecked_kept (hinv : Inv w) (h : Handle) : Kept w (onTorrentChecked h w) := by
  rw [onTorrentChecked]
  cases halive : w.torrent h with
  | absent => exact ⟨hinv, le_refl _⟩
  | expired => exact ⟨hinv, le_refl _⟩
  | alive live =>
      apply hinv.cache
      · rw [Known, halive]
      · intro _
        have hle := hinv.view_le h
        rw [halive, payload] at hle
        exact hle

theorem popAlerts_kept (hinv : Inv w) : Kept w (popAlerts w) := by
  rw [popAlerts]
  by_cases hempty : w.alertDrain.isEmpty = true
  · rw [if_pos hempty]
    exact hinv.alerts hinv.queued fun a ha => absurd ha List.not_mem_nil
  · rw [if_neg hempty]
    exact ⟨hinv, le_refl _⟩

theorem noneBehind_congr {status : List (Handle × Transfer)} (htorrent : w'.torrent = w.torrent)
    (htorrents : w'.torrents = w.torrents) (hcache : w'.statusCache = w.statusCache)
    (h : NoneBehind w status) : NoneBehind w' status := by
  induction status generalizing w w' with
  | nil => trivial
  | cons st status ih =>
      refine ⟨?_, ih (w := onStateUpdate [st] w) htorrent htorrents ?_ h.2⟩
      · intro hmem
        rw [htorrents] at hmem
        have hview : view w' st.1 = view w st.1 := by simp only [view, htorrent, hcache]
        rw [hview]
        exact h.1 hmem
      · simp only [onStateUpdate, hcache]

theorem alert_kept (hinv : Inv w) (hsound : Sound w (.alert : Event Handle Day)) :
    Kept w (processAlert w) := by
  rw [processAlert]
  have hpop := popAlerts_kept hinv
  have hsame : (popAlerts w).torrent = w.torrent ∧ (popAlerts w).torrents = w.torrents ∧
      (popAlerts w).statusCache = w.statusCache := by
    rw [popAlerts]
    split_ifs with hempty
    · exact ⟨rfl, rfl, rfl⟩
    · exact ⟨rfl, rfl, rfl⟩
  rw [Sound] at hsound
  cases hdrain : (popAlerts w).alertDrain with
  | nil =>
      simp only [hdrain]
      exact hpop
  | cons alert rest =>
      rw [hdrain] at hsound
      simp only [hdrain]
      refine hpop.trans ?_
      have hknown := hpop.1.drained
      rw [hdrain] at hknown
      have hrest : Kept (popAlerts w) { popAlerts w with alertDrain := rest } :=
        hpop.1.alerts (fun a ha => hknown a (List.mem_cons_of_mem alert ha)) hpop.1.queued
      refine hrest.trans ?_
      cases alert with
      | stateUpdate status =>
          apply onStateUpdate_kept hrest.1
          · exact hknown _ List.mem_cons_self
          · exact noneBehind_congr hsame.1 hsame.2.1 hsame.2.2 hsound
      | torrentChecked h => exact onTorrentChecked_kept hrest.1 h

theorem save_kept (hinv : Inv w) : Kept w (saveResumeData w) ∧ (saveResumeData w).settings = total w ∧
    (saveResumeData w).days = w.days := by
  obtain ⟨cache, hwarmed, htotals⟩ := globalTotals_eq w
  have hwarm := hinv.warm hwarmed
  rw [saveResumeData, htotals]
  refine ⟨⟨⟨hinv.nodup, hinv.alive, hwarm.1.cached, hinv.drained, hinv.queued, hinv.conserved, ?_⟩, hwarm.2⟩,
    rfl, rfl⟩
  exact hinv.sampled.mono rfl rfl rfl rfl hwarm.2

theorem startSession_inv (settings : Transfer) (days : List (Day × Transfer)) :
    Inv (startSession settings days : World Handle Day) where
  nodup := List.nodup_nil
  alive h hmem := absurd hmem List.not_mem_nil
  cached h st hst := by cases hst
  drained a ha := absurd ha List.not_mem_nil
  queued a ha := absurd ha List.not_mem_nil
  conserved := rfl
  sampled := rfl

theorem total_startSession (settings : Transfer) (days : List (Day × Transfer)) :
    total (startSession settings days : World Handle Day) = settings := by
  rw [total, startSession, List.map_nil, List.sum_nil, add_zero]

theorem restart_kept (hinv : Inv w) : Kept w (restart w) := by
  obtain ⟨_, hsettings, _⟩ := save_kept hinv
  refine ⟨startSession_inv _ _, ?_⟩
  rw [restart, total_startSession, hsettings]

theorem recordTransfer_kept (hinv : Inv w) (day : Day)
    (hsound : ∀ last, w.last = some last → Exact (recorded w.days + (total w - last))) :
    Kept w (recordTransfer day (total w) w) := by
  have htotal : total (recordTransfer day (total w) w) = total w := rfl
  refine ⟨⟨hinv.nodup, hinv.alive, hinv.cached, hinv.drained, hinv.queued, hinv.conserved, ?_⟩, htotal.ge⟩
  have hsampled := hinv.sampled
  rw [Sampled] at hsampled ⊢
  rw [htotal]
  cases hfirst : w.first with
  | none =>
      cases hlast : w.last with
      | some last =>
          rw [hfirst, hlast] at hsampled
          exact hsampled.elim
      | none =>
          rw [hfirst, hlast] at hsampled
          have hdays : (recordTransfer day (total w) w).days = w.days := by simp only [recordTransfer, hlast]
          have hfirst' : (recordTransfer day (total w) w).first = some (total w) := by
            simp only [recordTransfer, hfirst, Option.none_or]
          rw [hfirst', hdays]
          exact ⟨congrArg (· + total w) hsampled, le_refl _⟩
  | some first =>
      cases hlast : w.last with
      | none =>
          rw [hfirst, hlast] at hsampled
          exact hsampled.elim
      | some last =>
          rw [hfirst, hlast] at hsampled
          have hdays : recorded (recordTransfer day (total w) w).days = recorded w.days + (total w - last) := by
            simp only [recordTransfer, hlast]
            exact recorded_recordTransfer (hsound last hlast)
          have hfirst' : (recordTransfer day (total w) w).first = some first := by
            simp only [recordTransfer, hfirst, Option.some_or]
          rw [hfirst', hdays]
          obtain ⟨hopened, hle⟩ := hsampled
          have hgrown : last + (total w - last) = total w :=
            Prod.ext (Nat.add_sub_cancel' hle.1) (Nat.add_sub_cancel' hle.2)
          refine ⟨?_, le_refl _⟩
          calc recorded w.days + (total w - last) + first
              = recorded w.days + first + (total w - last) := add_right_comm _ _ _
            _ = w.opened + last + (total w - last) := by rw [hopened]
            _ = w.opened + total w := by rw [add_assoc, hgrown]

theorem sample_kept (hinv : Inv w) (day : Day) (hsound : Sound w (.sample day : Event Handle Day)) :
    Kept w (sample day w) := by
  have hticked : ∀ tick, Kept w { w with statsTick := tick } := fun tick =>
    ⟨⟨hinv.nodup, hinv.alive, hinv.cached, hinv.drained, hinv.queued, hinv.conserved, hinv.sampled⟩, le_refl _⟩
  rw [sample]
  by_cases hdue : 5 ≤ w.statsTick + 1
  · rw [if_pos hdue]
    obtain ⟨cache, hwarmed, htotals⟩ := globalTotals_eq { w with statsTick := 0 }
    have hwarm := (hticked 0).1.warm hwarmed
    have hsame := hwarmed.total_eq
    rw [htotals]
    dsimp only
    have hrecorded := recordTransfer_kept hwarm.1 day
    rw [hsame] at hrecorded
    exact (hticked 0).trans (hwarm.trans (hrecorded hsound))
  · rw [if_neg hdue]
    exact hticked _

theorem look_kept (hinv : Inv w) (h : Handle) : Kept w (cachedStatus w h).2 := by
  obtain ⟨cache, hwarmed, hworld, _⟩ := cachedStatus_eq w h
  rw [hworld]
  exact hinv.warm hwarmed

-- A step that meets its condition.
theorem step_kept (hinv : Inv w) {event : Event Handle Day} (hsound : Sound w event)
    (hnext : next w event = some w') : Kept w w' := by
  cases event with
  | moves h bytes =>
      rw [next] at hnext
      cases hlive : w.torrent h with
      | absent =>
          rw [hlive] at hnext
          cases hnext
      | expired =>
          rw [hlive] at hnext
          cases hnext
      | alive live =>
          rw [hlive] at hnext
          cases hnext
          exact moves_kept hinv hlive
  | startsOver h =>
      rw [next] at hnext
      rw [Sound] at hsound
      cases hlive : w.torrent h with
      | absent =>
          rw [hlive] at hnext
          cases hnext
      | expired =>
          rw [hlive] at hnext
          cases hnext
      | alive live =>
          rw [hlive] at hnext
          rw [hlive, payload] at hsound
          cases hnext
          rw [hsound] at hlive
          rw [← hlive, Function.update_eq_self]
          exact ⟨hinv, le_refl _⟩
  | expires h =>
      cases hnext
      exact expires_kept hinv hsound
  | answers handles =>
      cases hnext
      refine hinv.alerts hinv.drained ?_
      intro a ha
      cases List.mem_append.mp ha with
      | inl ha => exact hinv.queued a ha
      | inr ha =>
          rw [List.mem_singleton.mp ha]
          intro st hst
          obtain ⟨h, _, hstatus⟩ := List.mem_filterMap.mp hst
          rw [statusOf] at hstatus
          cases hlive : w.torrent h with
          | absent =>
              rw [hlive] at hstatus
              cases hstatus
          | expired =>
              rw [hlive] at hstatus
              cases hstatus
          | alive live =>
              rw [hlive] at hstatus
              cases hstatus
              rw [Known, hlive]
  | checked h =>
      cases hnext
      refine hinv.alerts hinv.drained ?_
      intro a ha
      cases List.mem_append.mp ha with
      | inl ha => exact hinv.queued a ha
      | inr ha =>
          rw [List.mem_singleton.mp ha]
          trivial
  | add h => exact add_kept hinv hsound hnext
  | restore h => exact restore_kept hinv hsound.1 hsound.2 hnext
  | remove index =>
      cases hnext
      exact remove_kept hinv index
  | recheck index =>
      cases hnext
      exact recheck_kept hinv index
  | alert =>
      cases hnext
      exact alert_kept hinv hsound
  | look index =>
      rw [next] at hnext
      cases hget : w.torrents[index]? with
      | none =>
          rw [hget] at hnext
          cases hnext
          exact ⟨hinv, le_refl _⟩
      | some h =>
          rw [hget] at hnext
          cases hnext
          exact look_kept hinv h
  | sample day =>
      cases hnext
      exact sample_kept hinv day hsound
  | save =>
      cases hnext
      exact (save_kept hinv).1
  | restart =>
      cases hnext
      exact restart_kept hinv

end Steps

section Account

-- The cache holds what libtorrent would say.
def Current (w : World Handle Day) : Prop :=
  ∀ h ∈ w.torrents, ∀ st, w.statusCache h = some st → w.torrent h = .alive st

theorem total_of_current {w : World Handle Day} (hinv : Inv w) (hcurrent : Current w) :
    total w = w.saved + w.moved := by
  rw [← hinv.conserved, total]
  apply congrArg (w.globalBase + List.sum ·)
  apply List.map_congr_left
  intro h hmem
  obtain ⟨live, halive⟩ := hinv.alive h hmem
  rw [halive, payload]
  cases hcached : w.statusCache h with
  | none => exact view_of_uncached halive hcached
  | some st =>
      have hst := hcurrent h hmem st hcached
      rw [halive] at hst
      cases hst
      exact view_of_cached halive hcached

theorem globalTotals_fst (w : World Handle Day) : (globalTotals w).1 = total w := by
  obtain ⟨cache, _, htotals⟩ := globalTotals_eq w
  rw [htotals]

theorem run_kept {settings : Transfer} {days : List (Day × Transfer)}
    {past : List (Reaction (World Handle Day) (Event Handle Day) Unit)} {w : World Handle Day}
    (hrun : (machine settings days).Run Sound past w) :
    Inv w ∧ ∀ earlier ∈ Machine.visited past w, total earlier ≤ total w := by
  apply hrun.invariant_past fun past w => Inv w ∧ ∀ earlier ∈ Machine.visited past w, total earlier ≤ total w
  · refine ⟨startSession_inv settings days, ?_⟩
    intro earlier hearlier
    rw [List.mem_singleton.mp hearlier]
  · intro past w event w' out hw hsound hnext
    obtain ⟨w'', hstep, hout⟩ := Option.map_eq_some_iff.mp hnext
    cases hout
    have hkept := step_kept hw.1 hsound hstep
    refine ⟨hkept.1, ?_⟩
    intro earlier hearlier
    cases List.mem_cons.mp hearlier with
    | inl heq => rw [heq]
    | inr hmem => exact (hw.2 earlier hmem).trans hkept.2

-- What the session shows over a run, and what its history makes of it.
theorem totals_kept (settings : Transfer) (days : List (Day × Transfer))
    {past : List (Reaction (World Handle Day) (Event Handle Day) Unit)} {w : World Handle Day}
    (hrun : (machine settings days).Run Sound past w) :
    (∀ earlier ∈ Machine.visited past w, (globalTotals earlier).1 ≤ (globalTotals w).1) ∧
      (Current w → (globalTotals w).1 = w.saved + w.moved) ∧
      ∀ first last, w.first = some first → w.last = some last →
        recorded w.days + first = w.opened + last := by
  obtain ⟨hinv, hmono⟩ := run_kept hrun
  simp only [globalTotals_fst]
  refine ⟨hmono, total_of_current hinv, ?_⟩
  intro first last hfirst hlast
  have hsampled := hinv.sampled
  rw [Sampled, hfirst, hlast] at hsampled
  exact hsampled.1

theorem totals_kept_after_add :
    ∃ (past : List (Reaction (World Nat Nat) (Event Nat Nat) Unit)) (w : World Nat Nat),
      (machine (1000, 0) []).Run Sound past w ∧ (globalTotals w).1 = (1100, 10) := by
  have hinit : (machine (1000, 0) []).Run Sound [] (startSession (1000, 0) [] : World Nat Nat) := .init
  have hadd := hinit.extend (.add 0) (fun _ => rfl) rfl
  have hrun := hadd.extend (.moves 0 (100, 10)) trivial rfl
  have hkept := (totals_kept (1000, 0) [] hrun).2.1
  exact ⟨_, _, hrun, hkept fun h _ st hst => by cases hst⟩

-- A status that was queued comes in after a live one was read, and the total goes down. A torrent
-- that is restored while libtorrent still has it counts twice. The history counts the bytes again.
theorem totals_lost :
    (∃ (past : List (Reaction (World Nat Nat) (Event Nat Nat) Unit)) (w : World Nat Nat),
      (machine (0, 0) []).Run (fun _ _ => True) past w ∧
        ((globalTotals w).1 = (150, 0) ∧ (next w .alert).any fun w' => (globalTotals w').1 = (100, 0))) ∧
      (∃ (past : List (Reaction (World Nat Nat) (Event Nat Nat) Unit)) (w : World Nat Nat),
        (machine (0, 0) []).Run (fun _ _ => True) past w ∧
          ((globalTotals w).1 = (200, 0) ∧ w.saved + w.moved = (100, 0))) ∧
      ∃ (past : List (Reaction (World Nat Nat) (Event Nat Nat) Unit)) (w : World Nat Nat),
        (machine (0, 0) []).Run (fun _ _ => True) past w ∧
          (w.first = some (150, 0) ∧ w.last = some (150, 0) ∧ recorded w.days = (50, 0)) := by
  refine ⟨?_, ?_, ?_⟩
  · exact Machine.exists_run
      [.add 0, .moves 0 (100, 0), .answers [0], .moves 0 (50, 0), .recheck 0, .look 0] (by decide)
  · exact Machine.exists_run [.add 0, .moves 0 (100, 0), .remove 0, .restore 0] (by decide)
  · exact Machine.exists_run
      ([.add 0, .moves 0 (100, 0), .answers [0], .moves 0 (50, 0)] ++ List.replicate 5 (.sample 0) ++
        [.alert] ++ List.replicate 5 (.sample 0) ++ [.answers [0], .alert] ++ List.replicate 5 (.sample 0))
      (by decide)

end Account

end BATorrent.Totals
