import BATorrent.Bridges.GameInstall

namespace BATorrent.GameInstall

open Lib Machine

-- At most one extraction and at most one installer, never both, and the state says that the game is being
-- installed exactly while there is one of them or a thread that looks for what to do.
structure AtMostOne (g : Game) : Prop where
  extraction : g.extracting ≤ 1
  installer : g.installers ≤ 1
  apart : g.extracting = 0 ∨ g.installers = 0
  busy : g.inFlight = true ↔ 0 < g.checking + g.finalizing + g.extracting + g.installers

-- A call that is let through is for a torrent with archives.
def Unpackable (g : Game) : Prop :=
  ∀ info ∈ g.torrent, info.dataComplete = true → g.inFlight = false → info.hasArchives = true

-- The calls that install are for torrents with archives, an extraction that is asked for starts, and none
-- but the pipeline's own comes to its end while the pipeline has one on the way.
def OneByOne (g : Game) : Event → Prop
  | .torrentChanged _ => True
  | .installGame => Unpackable g
  | .torrentFinished autoInstall =>
      (∀ info ∈ g.torrent, info.isGame = true) → g.pendingInstall = none → autoInstall = true → Unpackable g
  | .installWhenReady _ _ => True
  | .cancelInstall => True
  | .pollPendingInstall now running exeExists =>
      ∀ pending ∈ g.pendingInstall, g.pendingAction pending.2 now running exeExists = .kickInstall → Unpackable g
  | .checked found starts =>
      ¬ (found.exe ≠ [] ∧ (!found.isInstaller ∨ g.extracted)) → g.torrent ≠ none → starts = true
  | .extractionProgress _ => True
  | .extractionCompleted _ => True
  | .otherExtractionCompleted _ => g.state ≠ some .extracting
  | .finalized _ _ => True
  | .pollInstallWatch _ _ => True

instance (g : Game) : Decidable (Unpackable g) := inferInstanceAs (Decidable (∀ _ ∈ _, _ → _ → _))

instance (g : Game) : (e : Event) → Decidable (OneByOne g e)
  | .torrentChanged _ => inferInstanceAs (Decidable True)
  | .installGame => inferInstanceAs (Decidable (Unpackable g))
  | .torrentFinished _ => inferInstanceAs (Decidable ((∀ _ ∈ _, _) → _ → _ → Unpackable g))
  | .installWhenReady _ _ => inferInstanceAs (Decidable True)
  | .cancelInstall => inferInstanceAs (Decidable True)
  | .pollPendingInstall _ _ _ => inferInstanceAs (Decidable (∀ _ ∈ _, _ → Unpackable g))
  | .checked _ _ => inferInstanceAs (Decidable (¬ _ → _ ≠ _ → _ = true))
  | .extractionProgress _ => inferInstanceAs (Decidable True)
  | .extractionCompleted _ => inferInstanceAs (Decidable True)
  | .otherExtractionCompleted _ => inferInstanceAs (Decidable (_ ≠ _))
  | .finalized _ _ => inferInstanceAs (Decidable True)
  | .pollInstallWatch _ _ => inferInstanceAs (Decidable True)

-- The one thing that is on the way, by the state.
structure Sound (g : Game) : Prop where
  one : g.checking + g.finalizing + g.extracting + g.installers ≤ 1
  unpacking : g.state = some .extracting ↔ g.checking + g.finalizing + g.extracting = 1
  installing : g.state = some .installing ↔ g.installers = 1
  watched : g.installWatch.isSome = true ↔ g.installers = 1

theorem inFlight_iff (g : Game) : g.inFlight = true ↔ g.state = some .extracting ∨ g.state = some .installing := by
  unfold Game.inFlight
  rw [Bool.or_eq_true, decide_eq_true_eq, decide_eq_true_eq]

theorem Sound.atMostOne {g : Game} (h : Sound g) : AtMostOne g := by
  have hone := h.one
  refine ⟨by omega, by omega, by omega, ?_⟩
  rw [inFlight_iff, h.unpacking, h.installing]
  omega

section Steps

variable {g : Game}

-- A step that touches nothing of the pipeline.
theorem Sound.of_same {g' : Game} (h : Sound g) (hstate : g'.state = g.state) (hwatch : g'.installWatch = g.installWatch)
    (hchecking : g'.checking = g.checking) (hfinalizing : g'.finalizing = g.finalizing)
    (hextracting : g'.extracting = g.extracting) (hinstallers : g'.installers = g.installers) : Sound g' := by
  refine ⟨?_, ?_, ?_, ?_⟩
  · rw [hchecking, hfinalizing, hextracting, hinstallers]
    exact h.one
  · rw [hstate, hchecking, hfinalizing, hextracting]
    exact h.unpacking
  · rw [hstate, hinstallers]
    exact h.installing
  · rw [hwatch, hinstallers]
    exact h.watched

-- Where nothing is on the way.
theorem Sound.idle (h : Sound g) (hidle : g.inFlight = false) :
    g.checking = 0 ∧ g.finalizing = 0 ∧ g.extracting = 0 ∧ g.installers = 0 := by
  have hbusy := h.atMostOne.busy
  rw [hidle] at hbusy
  have hzero : ¬ 0 < g.checking + g.finalizing + g.extracting + g.installers := fun hpos =>
    Bool.false_ne_true (hbusy.mpr hpos)
  omega

theorem sound_installGame (h : Sound g) (hunpackable : Unpackable g) : Sound g.installGame.1 := by
  unfold Game.installGame
  cases htorrent : g.torrent with
  | none => exact h
  | some info =>
      dsimp only
      split_ifs with hcomplete hbusy harchives
      · exact h
      · exact h
      · obtain ⟨hchecking, hfinalizing, hextracting, hinstallers⟩ := h.idle (by simpa using hbusy)
        have hwatch := h.watched
        refine ⟨?_, ?_, ?_, ?_⟩
        · change g.checking + 1 + g.finalizing + g.extracting + g.installers ≤ 1
          omega
        · refine iff_of_true rfl ?_
          change g.checking + 1 + g.finalizing + g.extracting = 1
          omega
        · exact iff_of_false (by simp) (by change ¬ g.installers = 1; omega)
        · exact hwatch
      · exact absurd (hunpackable info htorrent (by simpa using hcomplete) (by simpa using hbusy)) harchives

-- What holds where one thread is back and nothing has taken its place yet.
structure Between (g : Game) : Prop where
  nothing : g.checking = 0 ∧ g.finalizing = 0 ∧ g.extracting = 0 ∧ g.installers = 0
  watch : g.installWatch = none

theorem Between.sound (h : Between g) (hidle : g.state ≠ some .extracting ∧ g.state ≠ some .installing) : Sound g := by
  obtain ⟨hchecking, hfinalizing, hextracting, hinstallers⟩ := h.nothing
  refine ⟨by omega, iff_of_false hidle.1 (by omega), iff_of_false hidle.2 (by omega), iff_of_false ?_ (by omega)⟩
  rw [h.watch]
  exact Bool.false_ne_true

theorem Between.finalize (h : Between g) (hstate : g.state = some .extracting) : Sound g.finalizeInstall.1 := by
  obtain ⟨hchecking, hfinalizing, hextracting, hinstallers⟩ := h.nothing
  refine ⟨?_, iff_of_true hstate ?_, iff_of_false ?_ ?_, iff_of_false ?_ ?_⟩
  · change g.checking + (g.finalizing + 1) + g.extracting + g.installers ≤ 1
    omega
  · change g.checking + (g.finalizing + 1) + g.extracting = 1
    omega
  · rw [show g.finalizeInstall.1.state = g.state from rfl, hstate]
    nofun
  · change ¬ g.installers = 1
    omega
  · rw [show g.finalizeInstall.1.installWatch = g.installWatch from rfl, h.watch]
    exact Bool.false_ne_true
  · change ¬ g.installers = 1
    omega

theorem Between.runInstaller (h : Between g) (setup : Setup) : Sound (g.runInstaller setup).1 := by
  obtain ⟨hchecking, hfinalizing, hextracting, hinstallers⟩ := h.nothing
  have started : ∀ target, Sound { g with
      state := some .installing, installWatch := some setup.pid, installTarget := target
      installers := g.installers + 1 } := by
    intro target
    refine ⟨?_, iff_of_false (by simp) ?_, iff_of_true rfl ?_, iff_of_true rfl ?_⟩
    · change g.checking + g.finalizing + g.extracting + (g.installers + 1) ≤ 1
      omega
    · change ¬ g.checking + g.finalizing + g.extracting = 1
      omega
    · change g.installers + 1 = 1
      omega
    · change g.installers + 1 = 1
      omega
  unfold Game.runInstaller
  dsimp only
  split_ifs
  · exact Between.sound (g := { g with state := none }) ⟨h.nothing, h.watch⟩ ⟨nofun, nofun⟩
  · exact Between.sound (g := { g with state := some .failed }) ⟨h.nothing, h.watch⟩ ⟨by simp, by simp⟩
  · exact started _
  · exact started _
  · exact Between.sound (g := { g with state := some .needsSetup }) ⟨h.nothing, h.watch⟩ ⟨by simp, by simp⟩

theorem Sound.watch_none (h : Sound g) (hinstallers : g.installers = 0) : g.installWatch = none := by
  cases hwatch : g.installWatch with
  | none => rfl
  | some pid =>
      have hone := h.watched.mp (by rw [hwatch]; rfl)
      omega

theorem sound_checked (h : Sound g) (hpos : 0 < g.checking) (found : Found) {starts : Bool}
    (hstarts : ¬ (found.exe ≠ [] ∧ (!found.isInstaller ∨ g.extracted)) → g.torrent ≠ none → starts = true) :
    Sound ({ g with checking := g.checking - 1 }.checked found starts).1 := by
  have hone := h.one
  have hstate : g.state = some .extracting := h.unpacking.mpr (by omega)
  have hbetween : Between { g with checking := g.checking - 1 } :=
    ⟨⟨by dsimp only; omega, by dsimp only; omega, by dsimp only; omega, by dsimp only; omega⟩, h.watch_none (by omega)⟩
  unfold Game.checked
  split_ifs with hfound hgone hstart
  · exact Between.finalize (g := { g with checking := g.checking - 1, extracted := true })
      ⟨hbetween.nothing, hbetween.watch⟩ hstate
  · exact Between.sound (g := { g with checking := g.checking - 1, state := none })
      ⟨hbetween.nothing, hbetween.watch⟩ ⟨nofun, nofun⟩
  · obtain ⟨hchecking, hfinalizing, hextracting, hinstallers⟩ := hbetween.nothing
    dsimp only at hchecking hfinalizing hextracting hinstallers
    refine ⟨?_, iff_of_true hstate ?_, iff_of_false ?_ ?_, iff_of_false ?_ ?_⟩
    · change g.checking - 1 + g.finalizing + (g.extracting + 1) + g.installers ≤ 1
      omega
    · change g.checking - 1 + g.finalizing + (g.extracting + 1) = 1
      omega
    · change g.state ≠ some .installing
      rw [hstate]
      nofun
    · change ¬ g.installers = 1
      omega
    · change ¬ g.installWatch.isSome = true
      rw [h.watch_none hinstallers]
      exact Bool.false_ne_true
    · change ¬ g.installers = 1
      omega
  · exact absurd (hstarts hfound hgone) hstart

theorem sound_onExtractionCompleted (h : Sound g) (hpos : 0 < g.extracting) (success : Bool) :
    Sound ({ g with extracting := g.extracting - 1 }.onExtractionCompleted success).1 := by
  have hone := h.one
  have hstate : g.state = some .extracting := h.unpacking.mpr (by omega)
  have hnothing : g.checking = 0 ∧ g.finalizing = 0 ∧ g.extracting - 1 = 0 ∧ g.installers = 0 := by omega
  have hwatch := h.watch_none hnothing.2.2.2
  unfold Game.onExtractionCompleted
  dsimp only
  rw [if_neg (not_not.mpr hstate)]
  cases success with
  | false =>
      exact Between.sound (g := { g with
        extracting := g.extracting - 1
        extractProgress := none
        extracted := g.extracted || false
        state := some .failed }) ⟨hnothing, hwatch⟩ ⟨by simp, by simp⟩
  | true =>
      exact Between.finalize (g := { g with
        extracting := g.extracting - 1
        extractProgress := none
        extracted := g.extracted || true }) ⟨hnothing, hwatch⟩ hstate

theorem sound_other (h : Sound g) (hother : g.state ≠ some .extracting) (success : Bool) :
    Sound (g.onExtractionCompleted success).1 := by
  unfold Game.onExtractionCompleted
  dsimp only
  rw [if_pos hother]
  exact h.of_same rfl rfl rfl rfl rfl rfl

theorem sound_finalized (h : Sound g) (hpos : 0 < g.finalizing) (found : Found) (setup : Setup) :
    Sound ({ g with finalizing := g.finalizing - 1 }.finalized found setup).1 := by
  have hone := h.one
  have hnothing : g.checking = 0 ∧ g.finalizing - 1 = 0 ∧ g.extracting = 0 ∧ g.installers = 0 := by omega
  have hwatch := h.watch_none hnothing.2.2.2
  unfold Game.finalized
  split_ifs
  · exact Between.sound (g := { g with finalizing := g.finalizing - 1, state := some .needsSetup })
      ⟨hnothing, hwatch⟩ ⟨by simp, by simp⟩
  · exact Between.sound (g := { g with finalizing := g.finalizing - 1, gameExe := found.exe, state := none })
      ⟨hnothing, hwatch⟩ ⟨nofun, nofun⟩
  · exact Between.sound (g := { g with finalizing := g.finalizing - 1, gameExe := setup.installed, state := none })
      ⟨hnothing, hwatch⟩ ⟨nofun, nofun⟩
  · exact Between.runInstaller (g := { g with finalizing := g.finalizing - 1 }) ⟨hnothing, hwatch⟩ setup

theorem sound_pollInstallWatch (h : Sound g) (alive : Bool) (found : Found) :
    Sound (g.pollInstallWatch alive found).1 := by
  unfold Game.pollInstallWatch
  split_ifs with hquiet
  · exact h
  · obtain ⟨hwatch, -⟩ := not_or.mp hquiet
    have hone := h.one
    have hinstallers : g.installers = 1 := h.watched.mp (by rwa [Option.isSome_iff_ne_none])
    have hnothing : g.checking = 0 ∧ g.finalizing = 0 ∧ g.extracting = 0 ∧ g.installers - 1 = 0 := by omega
    unfold Game.installerGone
    dsimp only
    split_ifs
    · exact Between.sound (g := { g with
        installWatch := none
        installTarget := none
        installers := g.installers - 1
        gameExe := found.exe
        state := none }) ⟨hnothing, rfl⟩ ⟨nofun, nofun⟩
    · exact Between.sound (g := { g with
        installWatch := none
        installTarget := none
        installers := g.installers - 1
        state := some .needsSetup }) ⟨hnothing, rfl⟩ ⟨by simp, by simp⟩

theorem sound_torrentFinished (h : Sound g) {autoInstall : Bool} (hguard : OneByOne g (.torrentFinished autoInstall)) :
    Sound (g.onGameTorrentFinished autoInstall).1 := by
  unfold Game.onGameTorrentFinished
  cases htorrent : g.torrent with
  | none => exact h
  | some info =>
      dsimp only
      split_ifs with hgame hpending hauto
      · exact h
      · refine sound_installGame h (hguard (fun info' hinfo' => ?_) (by simpa using hpending) hauto)
        obtain rfl := Option.some.inj (htorrent.symm.trans hinfo')
        exact hgame
      · exact h
      · exact h
      · exact h

theorem sound_pollPendingInstall (h : Sound g) {now : Int} {running exeExists : Bool}
    (hguard : OneByOne g (.pollPendingInstall now running exeExists)) :
    Sound (g.pollPendingInstall now running exeExists).1 := by
  have same : ∀ pending started, Sound { g with pendingInstall := pending, installStarted := started } :=
    fun _ _ => h.of_same rfl rfl rfl rfl rfl rfl
  unfold Game.pollPendingInstall
  cases hpending : g.pendingInstall with
  | none => exact h
  | some pending =>
      obtain ⟨title, startedAt⟩ := pending
      dsimp only
      cases haction : g.pendingAction startedAt now running exeExists with
      | kickInstall =>
          have hunpackable : Unpackable g := hguard (title, startedAt) hpending haction
          exact sound_installGame (g := { g with pendingInstall := some (title, startedAt), installStarted := true })
            (h.of_same rfl rfl rfl rfl rfl rfl) hunpackable
      | wait => exact h
      | emitInstallProgress => exact h
      | emitDownloadProgress => exact h
      | _ => exact same none false

theorem sound_next {g' : Game} {e : Event} {outs : List Out} (h : Sound g) (hguard : OneByOne g e)
    (hnext : g.next e = some (g', outs)) : Sound g' := by
  have left : ∀ {r : Game × List Out}, some r = some (g', outs) → Sound r.1 → Sound g' := by
    intro r hr hsound
    rw [Option.some.inj hr] at hsound
    exact hsound
  unfold Game.next at hnext
  cases e with
  | torrentChanged t =>
      obtain ⟨rfl, -⟩ := Prod.mk.inj (Option.some.inj hnext)
      exact h.of_same rfl rfl rfl rfl rfl rfl
  | installGame => exact left hnext (sound_installGame h hguard)
  | torrentFinished autoInstall => exact left hnext (sound_torrentFinished h hguard)
  | installWhenReady title now =>
      obtain ⟨rfl, -⟩ := Prod.mk.inj (Option.some.inj hnext)
      exact h.of_same rfl rfl rfl rfl rfl rfl
  | cancelInstall =>
      obtain ⟨rfl, -⟩ := Prod.mk.inj (Option.some.inj hnext)
      exact h.of_same rfl rfl rfl rfl rfl rfl
  | pollPendingInstall now running exeExists =>
      exact left hnext (sound_pollPendingInstall h hguard)
  | checked found starts =>
      dsimp only at hnext
      split_ifs at hnext with hpos
      exact left hnext (sound_checked h hpos found hguard)
  | extractionProgress percent =>
      have hprogress : Sound (g.onExtractionProgress percent).1 := by
        unfold Game.onExtractionProgress
        split_ifs
        · exact h
        · exact h.of_same rfl rfl rfl rfl rfl rfl
      exact left hnext hprogress
  | extractionCompleted success =>
      dsimp only at hnext
      split_ifs at hnext with hpos
      exact left hnext (sound_onExtractionCompleted h hpos success)
  | otherExtractionCompleted success => exact left hnext (sound_other h hguard success)
  | finalized found setup =>
      dsimp only at hnext
      split_ifs at hnext with hpos
      exact left hnext (sound_finalized h hpos found setup)
  | pollInstallWatch alive found =>
      exact left hnext (sound_pollInstallWatch h alive found)

end Steps

section Runs

def guard (s : InfoHash → Game) (e : InfoHash × Event) : Prop := OneByOne (s e.1) e.2

theorem sound_run {past : List (Reaction (InfoHash → Game) (InfoHash × Event) Out)} {s : InfoHash → Game}
    (hrun : machine.Run guard past s) : ∀ hash, Sound (s hash) := by
  refine Run.invariant (fun s => ∀ hash, Sound (s hash)) ?_ (fun s e s' outs h hguard hnext hash => ?_) hrun
  · exact fun hash => ⟨Nat.zero_le 1, iff_of_false nofun nofun, iff_of_false nofun nofun,
      iff_of_false Bool.false_ne_true nofun⟩
  · obtain ⟨⟨g', outs'⟩, hgame, heq⟩ := Option.map_eq_some_iff.mp hnext
    obtain ⟨rfl, -⟩ := Prod.mk.inj heq
    by_cases hsame : hash = e.1
    · subst hsame
      rw [Function.update_self]
      exact sound_next (h e.1) hguard hgame
    · rw [Function.update_of_ne hsame]
      exact h hash

theorem run_atMostOne {past : List (Reaction (InfoHash → Game) (InfoHash × Event) Out)} {s : InfoHash → Game}
    (hrun : machine.Run guard past s) : ∀ t ∈ visited past s, ∀ hash, AtMostOne (t hash) := by
  intro t ht hash
  rcases List.mem_cons.mp ht with rfl | ht
  · exact (sound_run hrun hash).atMostOne
  · obtain ⟨r, hr, rfl⟩ := List.mem_map.mp ht
    obtain ⟨earlier, s', hearlier, -⟩ := hrun.before hr
    exact (sound_run hearlier hash).atMostOne

-- A game with its setup in archives, installed by hand and unpacked.
def packed : Torrent := ⟨true, true, false, true⟩

def nothingFound : Found := ⟨[], false⟩

def setupFound : Found := ⟨"/g/setup.exe".toList, true⟩

def guided : Setup := ⟨[], false, [], 77⟩

instance (s : InfoHash → Game) (e : InfoHash × Event) : Decidable (guard s e) :=
  inferInstanceAs (Decidable (OneByOne (s e.1) e.2))

def unpackAndInstall : List (InfoHash × Event) :=
  [.torrentChanged (some packed), .installGame, .checked nothingFound true, .extractionProgress 50,
    .extractionCompleted true, .finalized setupFound guided].map fun e => ("a".toList, e)

def Installs (s : InfoHash → Game) : Prop := (s "a".toList).installers = 1

instance (s : InfoHash → Game) : Decidable (Installs s) := inferInstanceAs (Decidable (_ = 1))

theorem run_atMostOne_setup :
    ∃ past s, machine.Run guard past s ∧ Installs s ∧ ∀ t ∈ visited past s, ∀ hash, AtMostOne (t hash) := by
  obtain ⟨past, s, hrun, hinstalls⟩ : ∃ past s, machine.Run guard past s ∧ Installs s :=
    exists_run unpackAndInstall (by decide +kernel)
  exact ⟨past, s, hrun, hinstalls, run_atMostOne hrun⟩

-- Two calls for a game without archives pass the guard together, and both start the installer.
def installTwice : List (InfoHash × Event) :=
  [.torrentChanged (some { packed with hasArchives := false }), .installGame, .installGame,
    .finalized setupFound guided, .finalized setupFound { guided with pid := 78 }].map fun e => ("a".toList, e)

def InstallsTwice (s : InfoHash → Game) : Prop := (s "a".toList).installers = 2

instance (s : InfoHash → Game) : Decidable (InstallsTwice s) := inferInstanceAs (Decidable (_ = 2))

theorem not_atMostOne :
    ¬ ∀ past s, machine.Run (fun _ _ => True) past s → ∀ t ∈ visited past s, ∀ hash, AtMostOne (t hash) := by
  intro h
  obtain ⟨past, s, hrun, htwice⟩ : ∃ past s, machine.Run (fun _ _ => True) past s ∧ InstallsTwice s :=
    exists_run installTwice (by decide +kernel)
  have hone := (h past s hrun s List.mem_cons_self "a".toList).installer
  unfold InstallsTwice at htwice
  omega

end Runs

end BATorrent.GameInstall
