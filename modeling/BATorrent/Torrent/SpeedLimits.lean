import BATorrent.Lib.Run
import Mathlib

namespace BATorrent.SpeedLimits

open Lib

section Schedule

-- The local time, the days counted from Monday.
structure Clock where
  weekday : Fin 7
  hour : Fin 24

def Clock.dayOfWeek (now : Clock) : Int32 := Int32.ofNat (now.weekday + 1)

def Clock.currentHour (now : Clock) : Int32 := Int32.ofNat now.hour

def inBandwidthSchedule (weekday hour daysMask fromHour toHour : Int32) : Bool :=
  if weekday < 0 ∨ 6 < weekday then false
  else if daysMask &&& (1 <<< weekday) = 0 then false
  else if fromHour ≤ toHour then fromHour ≤ hour ∧ hour < toHour
  else fromHour ≤ hour ∨ hour < toHour

structure Schedule where
  fromHour : Int32
  toHour : Int32
  days : Int32

-- The hours of a window that wraps past midnight where it ends before it starts.
def Window (fromHour toHour : Int) : Set Int :=
  if fromHour ≤ toHour then Set.Ico fromHour toHour else Set.Ici fromHour ∪ Set.Iio toHour

def Schedule.Contains (sch : Schedule) (now : Clock) : Prop :=
  sch.days.toBitVec.getLsbD now.weekday = true ∧
    (now.hour : Int) ∈ Window sch.fromHour.toInt sch.toHour.toInt

-- On a clock's face: the hours met in going from the first one to the last.
theorem mem_window_iff {a b h : Int} (ha : a ∈ Set.Ico 0 24) (hb : b ∈ Set.Ico 0 24)
    (hh : h ∈ Set.Ico 0 24) : h ∈ Window a b ↔ (h - a) % 24 < (b - a) % 24 := by
  obtain ⟨ha₀, ha⟩ := ha
  obtain ⟨hb₀, hb⟩ := hb
  obtain ⟨hh₀, hh⟩ := hh
  unfold Window
  split_ifs with hle
  · rw [Set.mem_Ico]
    omega
  · rw [Set.mem_union, Set.mem_Ici, Set.mem_Iio]
    omega

theorem Schedule.contains_iff (sch : Schedule) (now : Clock)
    (hfrom : sch.fromHour.toInt ∈ Set.Ico 0 24) (hto : sch.toHour.toInt ∈ Set.Ico 0 24) :
    sch.Contains now ↔ sch.days.toBitVec.getLsbD now.weekday = true ∧
      ((now.hour : Int) - sch.fromHour.toInt) % 24 <
        (sch.toHour.toInt - sch.fromHour.toInt) % 24 := by
  have hhour : (now.hour : Int) ∈ Set.Ico 0 24 := ⟨by omega, by omega⟩
  rw [Schedule.Contains, mem_window_iff hfrom hto hhour]

theorem and_bit_ne_zero (days : BitVec 32) {i : Nat} (hi : i < 32) :
    days &&& 1#32 <<< i ≠ 0#32 ↔ days.getLsbD i = true := by
  have hbit : 1#32 <<< i ≠ 0#32 := by
    intro h
    have h := congrArg (BitVec.getLsbD · i) h
    simp [hi] at h
  have hand : days &&& 1#32 <<< i = if days.getLsbD i then 1#32 <<< i else 0#32 := by
    rw [← BitVec.twoPow_eq, BitVec.and_twoPow]
  rw [hand]
  split_ifs with h
  · exact iff_of_true hbit h
  · exact iff_of_false (fun hne => hne rfl) h

theorem enabled_iff (days : Int32) (day : Fin 7) :
    days &&& (1 <<< (Int32.ofNat (day + 1) - 1)) ≠ 0 ↔ days.toBitVec.getLsbD day = true := by
  have h : ((1 : Int32) <<< (Int32.ofNat (day + 1) - 1)).toBitVec = 1#32 <<< (day : Nat) := by
    revert day
    decide
  rw [← and_bit_ne_zero _ (by omega), ne_eq, ne_eq, ← Int32.toBitVec_inj, Int32.toBitVec_and, h]
  rfl

theorem weekday_mem (day : Fin 7) :
    ¬ (Int32.ofNat (day + 1) - 1 < 0 ∨ 6 < Int32.ofNat (day + 1) - 1) := by
  revert day
  decide

theorem Clock.toInt_currentHour (now : Clock) : now.currentHour.toInt = now.hour := by
  have h : ∀ hour : Fin 24, (Int32.ofNat hour).toInt = hour := by decide
  exact h now.hour

theorem inBandwidthSchedule_iff (sch : Schedule) (now : Clock) :
    inBandwidthSchedule (now.dayOfWeek - 1) now.currentHour sch.days sch.fromHour sch.toHour =
      true ↔ sch.Contains now := by
  have hday : ¬ (now.dayOfWeek - 1 < 0 ∨ 6 < now.dayOfWeek - 1) := weekday_mem now.weekday
  have hbit : sch.days &&& (1 <<< (now.dayOfWeek - 1)) ≠ 0 ↔ _ := enabled_iff sch.days now.weekday
  rw [inBandwidthSchedule, if_neg hday, Schedule.Contains, Window, ← hbit]
  by_cases hmask : sch.days &&& (1 <<< (now.dayOfWeek - 1)) = 0
  · simp [hmask]
  · rw [if_neg hmask]
    simp only [Int32.le_iff_toInt_le, Int32.lt_iff_toInt_lt, now.toInt_currentHour]
    split_ifs with hle
    · simp [hmask]
    · simp [hmask]

end Schedule

-- What the session's settings have of the two rates, in bytes a second, 0 for no limit.
structure Rates where
  download : Int32
  upload : Int32
deriving DecidableEq

inductive Signal where
  | altSpeedsActiveChanged (active : Bool)
deriving DecidableEq

structure State where
  normalDownLimit : Int32
  normalUpLimit : Int32
  altDownLimit : Int32
  altUpLimit : Int32
  altSpeedsActive : Bool
  schedulerEnabled : Bool
  schedule : Schedule
  applied : Rates

def init : State where
  normalDownLimit := 0
  normalUpLimit := 0
  altDownLimit := 0
  altUpLimit := 0
  altSpeedsActive := false
  schedulerEnabled := false
  schedule := ⟨1, 7, 0x7F⟩
  applied := ⟨0, 0⟩

def rate (kbps : Int32) : Int32 := if 0 < kbps then kbps * 1024 else 0

namespace State

variable (s : State)

def applyDownload (kbps : Int32) : State := { s with applied.download := rate kbps }

def applyUpload (kbps : Int32) : State := { s with applied.upload := rate kbps }

def applyLimits (dKbps uKbps : Int32) : State := (s.applyDownload dKbps).applyUpload uKbps

def setDownloadLimit (kbps : Int32) : State :=
  let s := { s with normalDownLimit := kbps }
  if s.altSpeedsActive then s else s.applyDownload kbps

def setUploadLimit (kbps : Int32) : State :=
  let s := { s with normalUpLimit := kbps }
  if s.altSpeedsActive then s else s.applyUpload kbps

def setAltSpeedLimits (downKbps upKbps : Int32) : State :=
  let s := { s with altDownLimit := downKbps, altUpLimit := upKbps }
  if s.altSpeedsActive then s.applyLimits downKbps upKbps else s

def setSchedulerEnabled (enabled : Bool) : State :=
  let s := { s with schedulerEnabled := enabled }
  if !enabled && s.altSpeedsActive then
    let s := { s with altSpeedsActive := false }
    (s.setDownloadLimit s.normalDownLimit).setUploadLimit s.normalUpLimit
  else s

def setAltSpeedsActive (active : Bool) : State × List Signal :=
  if active = s.altSpeedsActive then (s, [])
  else
    let d := if active then s.altDownLimit else s.normalDownLimit
    let u := if active then s.altUpLimit else s.normalUpLimit
    ({ s with altSpeedsActive := active }.applyLimits d u, [.altSpeedsActiveChanged active])

def checkBandwidthSchedule (now : Clock) : State :=
  if !s.schedulerEnabled || (s.altDownLimit = 0 && s.altUpLimit = 0) then s
  else
    let inSchedule := inBandwidthSchedule (now.dayOfWeek - 1) now.currentHour
      s.schedule.days s.schedule.fromHour s.schedule.toHour
    if inSchedule && !s.altSpeedsActive then
      { s with altSpeedsActive := true }.applyLimits s.altDownLimit s.altUpLimit
    else if !inSchedule && s.altSpeedsActive then
      { s with altSpeedsActive := false }.applyLimits s.normalDownLimit s.normalUpLimit
    else s

end State

inductive Event where
  | setDownloadLimit (kbps : Int32)
  | setUploadLimit (kbps : Int32)
  | setAltSpeedLimits (downKbps upKbps : Int32)
  | setAltSpeedsActive (active : Bool)
  | setSchedulerEnabled (enabled : Bool)
  | setScheduleFromHour (hour : Int32)
  | setScheduleToHour (hour : Int32)
  | setScheduleDays (daysMask : Int32)
  | tick (now : Clock)

def next (s : State) : Event → State × List Signal
  | .setDownloadLimit kbps => (s.setDownloadLimit kbps, [])
  | .setUploadLimit kbps => (s.setUploadLimit kbps, [])
  | .setAltSpeedLimits downKbps upKbps => (s.setAltSpeedLimits downKbps upKbps, [])
  | .setAltSpeedsActive active => s.setAltSpeedsActive active
  | .setSchedulerEnabled enabled => (s.setSchedulerEnabled enabled, [])
  | .setScheduleFromHour hour => ({ s with schedule.fromHour := hour }, [])
  | .setScheduleToHour hour => ({ s with schedule.toHour := hour }, [])
  | .setScheduleDays daysMask => ({ s with schedule.days := daysMask }, [])
  | .tick now => (s.checkBandwidthSchedule now, [])

def machine : Machine State Event Signal where
  init := init
  next s a := some (next s a)

namespace State

variable (s : State)

-- The limits of the mode the session is in.
def downLimit : Int32 := if s.altSpeedsActive then s.altDownLimit else s.normalDownLimit

def upLimit : Int32 := if s.altSpeedsActive then s.altUpLimit else s.normalUpLimit

def Applied : Prop := s.applied = ⟨rate s.downLimit, rate s.upLimit⟩

variable {s}

theorem applied_applyLimits {d u : Int32} (hd : s.downLimit = d) (hu : s.upLimit = u) :
    (s.applyLimits d u).Applied := by
  subst hd hu
  rfl

-- A setter of the other mode leaves what is applied; one of this mode applies what it sets.
theorem Applied.setDownloadLimit (h : s.Applied) (kbps : Int32) :
    (s.setDownloadLimit kbps).Applied := by
  unfold Applied downLimit upLimit at h ⊢
  cases hactive : s.altSpeedsActive with
  | true => simpa [State.setDownloadLimit, hactive] using h
  | false =>
      rw [hactive] at h
      simp [State.setDownloadLimit, applyDownload, hactive, h]

theorem Applied.setUploadLimit (h : s.Applied) (kbps : Int32) :
    (s.setUploadLimit kbps).Applied := by
  unfold Applied downLimit upLimit at h ⊢
  cases hactive : s.altSpeedsActive with
  | true => simpa [State.setUploadLimit, hactive] using h
  | false =>
      rw [hactive] at h
      simp [State.setUploadLimit, applyUpload, hactive, h]

theorem Applied.setAltSpeedLimits (h : s.Applied) (downKbps upKbps : Int32) :
    (s.setAltSpeedLimits downKbps upKbps).Applied := by
  cases hactive : s.altSpeedsActive with
  | true =>
      have heq : s.setAltSpeedLimits downKbps upKbps =
          { s with altDownLimit := downKbps, altUpLimit := upKbps }.applyLimits downKbps upKbps := by
        simp [State.setAltSpeedLimits, hactive]
      rw [heq]
      exact applied_applyLimits (if_pos hactive) (if_pos hactive)
  | false =>
      unfold Applied downLimit upLimit at h ⊢
      simpa [State.setAltSpeedLimits, hactive] using h

-- The two setters apply the normal limits whatever was applied before.
theorem Applied.setSchedulerEnabled (h : s.Applied) (enabled : Bool) :
    (s.setSchedulerEnabled enabled).Applied := by
  unfold State.setSchedulerEnabled
  cases hleaves : !enabled && s.altSpeedsActive with
  | true =>
      simp only [hleaves, if_true]
      rfl
  | false =>
      simp only [hleaves, Bool.false_eq_true, if_false]
      exact h

theorem Applied.setAltSpeedsActive (h : s.Applied) (active : Bool) :
    (s.setAltSpeedsActive active).1.Applied := by
  by_cases hsame : active = s.altSpeedsActive
  · rw [State.setAltSpeedsActive, if_pos hsame]
    exact h
  · rw [State.setAltSpeedsActive, if_neg hsame]
    exact applied_applyLimits rfl rfl

theorem Applied.checkBandwidthSchedule (h : s.Applied) (now : Clock) :
    (s.checkBandwidthSchedule now).Applied := by
  unfold State.checkBandwidthSchedule
  dsimp only
  split_ifs with hidle henters hleaves
  · exact h
  · exact applied_applyLimits rfl rfl
  · exact applied_applyLimits rfl rfl
  · exact h

end State

theorem applied_next {s : State} (h : s.Applied) (a : Event) : (next s a).1.Applied := by
  cases a with
  | setDownloadLimit kbps => exact h.setDownloadLimit kbps
  | setUploadLimit kbps => exact h.setUploadLimit kbps
  | setAltSpeedLimits downKbps upKbps => exact h.setAltSpeedLimits downKbps upKbps
  | setAltSpeedsActive active => exact h.setAltSpeedsActive active
  | setSchedulerEnabled enabled => exact h.setSchedulerEnabled enabled
  | setScheduleFromHour hour => exact h
  | setScheduleToHour hour => exact h
  | setScheduleDays daysMask => exact h
  | tick now => exact h.checkBandwidthSchedule now

theorem run_applied {past : List (Reaction State Event Signal)} {s : State}
    (hrun : machine.Run (fun _ _ => True) past s) : s.Applied := by
  refine Machine.Run.invariant State.Applied (show init.Applied from rfl) ?_ hrun
  intro s a s' out h _ hnext
  obtain rfl := congrArg Prod.fst (Option.some.inj hnext)
  exact applied_next h a

-- A limit in bytes a second, with no bound on the product.
def bytesPerSecond (kbps : Int) : Int := if 0 < kbps then kbps * 1024 else 0

theorem toInt_rate_iff (kbps : Int32) :
    (rate kbps).toInt = bytesPerSecond kbps.toInt ↔ kbps.toInt < 2 ^ 21 := by
  have hlt := kbps.toInt_lt
  have hle := kbps.le_toInt
  have hpos : 0 < kbps ↔ 0 < kbps.toInt := Int32.lt_iff_toInt_lt
  unfold rate bytesPerSecond
  by_cases h : 0 < kbps.toInt
  · rw [if_pos (hpos.mpr h), if_pos h, Int32.toInt_mul]
    have h1024 : Int32.toInt 1024 = 1024 := rfl
    rw [h1024]
    rw [Int.bmod_def]
    split_ifs <;> omega
  · rw [if_neg (mt hpos.mp h), if_neg h]
    exact iff_of_true rfl (by omega)

theorem tick_follows {s : State} (now : Clock) (henabled : s.schedulerEnabled = true)
    (halt : s.altDownLimit ≠ 0 ∨ s.altUpLimit ≠ 0) :
    (s.checkBandwidthSchedule now).altSpeedsActive = true ↔ s.schedule.Contains now := by
  rw [← inBandwidthSchedule_iff]
  have hguard : ¬ (!s.schedulerEnabled || (s.altDownLimit = 0 && s.altUpLimit = 0)) = true := by
    rw [henabled]
    simpa [imp_iff_not_or] using halt
  unfold State.checkBandwidthSchedule
  rw [if_neg hguard]
  dsimp only
  cases inBandwidthSchedule (now.dayOfWeek - 1) now.currentHour s.schedule.days
      s.schedule.fromHour s.schedule.toHour <;>
    cases hactive : s.altSpeedsActive <;>
    simp [State.applyLimits, State.applyDownload, State.applyUpload, hactive]

theorem tick_idle {s : State} (now : Clock)
    (h : ¬ (s.schedulerEnabled = true ∧ (s.altDownLimit ≠ 0 ∨ s.altUpLimit ≠ 0))) :
    s.checkBandwidthSchedule now = s := by
  have hguard : (!s.schedulerEnabled || (s.altDownLimit = 0 && s.altUpLimit = 0)) = true := by
    cases henabled : s.schedulerEnabled with
    | false => rfl
    | true => simpa [henabled] using h
  rw [State.checkBandwidthSchedule, if_pos hguard]

theorem run_limits_match {past : List (Reaction State Event Signal)} {s : State}
    (hrun : machine.Run (fun _ _ => True) past s) :
    (s.downLimit.toInt < 2 ^ 21 →
      s.applied.download.toInt = bytesPerSecond s.downLimit.toInt) ∧
    (s.upLimit.toInt < 2 ^ 21 → s.applied.upload.toInt = bytesPerSecond s.upLimit.toInt) ∧
    ∀ now s' out, machine.next s (.tick now) = some (s', out) →
      if s.schedulerEnabled = true ∧ (s.altDownLimit ≠ 0 ∨ s.altUpLimit ≠ 0) then
        s'.altSpeedsActive = true ↔ s.schedule.Contains now
      else s' = s := by
  have happlied : s.applied = ⟨rate s.downLimit, rate s.upLimit⟩ := run_applied hrun
  refine ⟨?_, ?_, ?_⟩
  · intro hlt
    rw [happlied]
    exact (toInt_rate_iff _).mpr hlt
  · intro hlt
    rw [happlied]
    exact (toInt_rate_iff _).mpr hlt
  · intro now s' out hnext
    obtain rfl : s.checkBandwidthSchedule now = s' := congrArg Prod.fst (Option.some.inj hnext)
    split_ifs with h
    · exact tick_follows now h.1 h.2
    · exact tick_idle now h

section Sample

-- Monday, three in the morning, which the schedule of a fresh install has.
def night : Clock := ⟨0, 3⟩

theorem contains_night : init.schedule.Contains night := by
  refine ⟨by decide, ?_⟩
  have h : ((night.hour : Nat) : Int) ∈ Set.Ico 1 7 := ⟨by decide, by decide⟩
  exact h

theorem run_limits_match_night : ∃ s : State, s.applied = ⟨50 * 1024, 20 * 1024⟩ ∧
    (s.downLimit.toInt < 2 ^ 21 →
      s.applied.download.toInt = bytesPerSecond s.downLimit.toInt) ∧
    (s.upLimit.toInt < 2 ^ 21 → s.applied.upload.toInt = bytesPerSecond s.upLimit.toInt) ∧
    ∀ now s' out, machine.next s (.tick now) = some (s', out) →
      if s.schedulerEnabled = true ∧ (s.altDownLimit ≠ 0 ∨ s.altUpLimit ≠ 0) then
        s'.altSpeedsActive = true ↔ s.schedule.Contains now
      else s' = s := by
  obtain ⟨past, s, hrun, happlied⟩ : ∃ past s, machine.Run (fun _ _ => True) past s ∧
      s.applied = ⟨50 * 1024, 20 * 1024⟩ :=
    Machine.exists_run [.setAltSpeedLimits 50 20, .setSchedulerEnabled true, .tick night]
      (by decide +kernel)
  exact ⟨s, happlied, run_limits_match hrun⟩

theorem run_not_limits_match :
    (∃ past s, machine.Run (fun _ _ => True) past s ∧
      s.applied.download.toInt ≠ bytesPerSecond s.downLimit.toInt) ∧
    ∃ past s s' out, machine.Run (fun _ _ => True) past s ∧ s.schedulerEnabled = true ∧
      machine.next s (.tick night) = some (s', out) ∧ s.schedule.Contains night ∧
      s'.altSpeedsActive = false := by
  refine ⟨Machine.exists_run [.setDownloadLimit 2097152] (by decide +kernel), ?_⟩
  have henabled : machine.Run (fun _ _ => True) _ (init.setSchedulerEnabled true) :=
    Machine.Run.init.extend (.setSchedulerEnabled true) trivial rfl
  exact ⟨_, _, _, _, henabled, rfl, rfl, contains_night, rfl⟩

end Sample

end BATorrent.SpeedLimits
