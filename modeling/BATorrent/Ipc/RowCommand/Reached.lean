import BATorrent.Ipc.RowCommand

namespace BATorrent.RowCommand

open Lib Lib.FilePath Lib.RowChange
open Library Library.State

section Rows

variable {rules : Rules} {s s' : State} {p : Params} {hash : Sha1Hash}

theorem tracks_held (hheld : s'.held = s.held) : Tracks [] s.torrents s'.torrents := by
  rw [(held_eq hheld).2.1]
  exact .refl _

-- An add puts its row at the end.
theorem tracks_unless {refused : Prop} [Decidable refused]
    (hheld : s'.held = if refused then s.held else (s.adopt p).1.held) :
    Tracks [] s.torrents s'.torrents := by
  split_ifs at hheld
  · exact tracks_held hheld
  · rw [(held_eq hheld).2.1, adopt_torrents]
    exact tracks_append _ _

theorem tracks_commitStaged (savePath : Text) (paused fails commits : Bool) :
    Tracks [] s.torrents (s.commitStaged hash savePath paused fails commits).torrents := by
  cases hst : s.staged.lookup hash with
  | none =>
      rw [State.commitStaged, hst]
      exact .refl _
  | some st =>
      have hheld := held_commitStaged hst savePath paused fails commits
      split_ifs at hheld
      · have htorrents : (s.commitStaged hash savePath paused fails commits).torrents =
            s.torrents ++ [st.handle] := congrArg (·.2.1) hheld
        rw [htorrents]
        exact tracks_append _ _
      · exact tracks_unless (s := { s with staged := s.staged.erase hash })
          (hheld.trans (held_addMagnetWith st.uri savePath paused fails commits))

theorem tracks_removeTorrent (i : Nat) (deleteFiles permanent : Bool) :
    Tracks (change s (.removeTorrent i deleteFiles permanent)) s.torrents
      (s.removeTorrent rules i deleteFiles permanent).torrents := by
  by_cases hi : i < s.torrents.length
  · have hheld := held_removeTorrent rules (List.getElem?_eq_getElem hi) deleteFiles permanent
    have htorrents : (s.removeTorrent rules i deleteFiles permanent).torrents = s.torrents.eraseIdx i :=
      congrArg (·.2.1) hheld
    rw [htorrents, change, if_pos hi]
    exact tracks_eraseIdx hi
  · rw [change, if_neg hi, State.removeTorrent, List.getElem?_eq_none (Nat.le_of_not_lt hi)]
    exact .refl _

theorem tracks_setTorrentQueuePosition (i position : Nat) :
    Tracks (change s (.setTorrentQueuePosition i position)) s.torrents
      (s.setTorrentQueuePosition i position).torrents := by
  unfold State.setTorrentQueuePosition
  rw [change]
  by_cases hi : i < s.torrents.length
  · rw [dif_pos hi]
    by_cases hposition : position < s.torrents.length
    · rw [if_pos hposition, if_pos ⟨hi, hposition⟩]
      exact tracks_moveRow hi hposition
    · rw [if_neg hposition, if_neg fun h => hposition h.2]
      exact .refl _
  · rw [dif_neg hi, if_neg fun h => hi h.1]
    exact .refl _

theorem tracks_loadNext {fails : Bool} {disk : Text → Option Int}
    (hload : s.loadNext rules fails disk = some s') : Tracks [] s.torrents s'.torrents := by
  unfold State.loadNext at hload
  split at hload
  · cases hload
  next hash rest hunloaded =>
  obtain rfl := Option.some.inj hload
  cases hp : s.resumeDir.lookup hash with
  | none =>
      unfold State.loadResumeData
      dsimp only
      rw [hp]
      exact .refl _
  | some p =>
      exact tracks_unless (s := { s with unloaded := rest })
        (held_loadResumeData rules (s := { s with unloaded := rest }) fails disk hp)

-- What each event does to the rows.
theorem tracks_act {e : Library.Event} (hact : s.act rules e = some s') :
    Tracks (change s e) s.torrents s'.torrents := by
  cases e with
  | addTorrent ti savePath fails =>
      obtain rfl := Option.some.inj hact
      exact tracks_unless (held_addWithInfo ti savePath fails)
  | addTorrentInfo ti savePath fails =>
      obtain rfl := Option.some.inj hact
      exact tracks_unless (held_addWithInfo ti savePath fails)
  | addMagnet uri savePath coverHint fails commits =>
      obtain rfl := Option.some.inj hact
      exact tracks_unless (held_addMagnet uri savePath coverHint fails commits)
  | addMagnetWith uri savePath paused fails commits =>
      obtain rfl := Option.some.inj hact
      exact tracks_unless (held_addMagnetWith uri savePath paused fails commits)
  | stageMagnet uri scratchDir fails =>
      obtain rfl := Option.some.inj hact
      unfold State.stageMagnet
      dsimp only
      split_ifs <;> exact .refl _
  | discardStaged hash =>
      obtain rfl := Option.some.inj hact
      unfold State.discardStaged
      split <;> exact .refl _
  | commitStaged hash savePath paused fails commits =>
      obtain rfl := Option.some.inj hact
      exact tracks_commitStaged savePath paused fails commits
  | restoreFromResumeData p fails =>
      obtain rfl := Option.some.inj hact
      exact tracks_unless (held_restoreFromResumeData p fails)
  | restoreRemoved hash fails =>
      obtain rfl := Option.some.inj hact
      cases hp : s.removedDir.lookup hash with
      | none =>
          rw [State.restoreRemoved, hp]
          exact .refl _
      | some p => exact tracks_unless (held_restoreRemoved fails hp)
  | importFromQBittorrent file defaultSavePath fails =>
      obtain rfl := Option.some.inj hact
      exact tracks_unless (held_importFromQBittorrent file defaultSavePath fails)
  | removeTorrent i deleteFiles permanent =>
      obtain rfl := Option.some.inj hact
      exact tracks_removeTorrent i deleteFiles permanent
  | setTorrentQueuePosition i position =>
      obtain rfl := Option.some.inj hact
      exact tracks_setTorrentQueuePosition i position
  | processAlerts commits => exact tracks_held (held_processAlerts hact)
  | attempt i existing failed =>
      obtain ⟨⟨s'', timer⟩, hattempt, rfl⟩ := Option.map_eq_some_iff.mp hact
      exact tracks_held (held_attempt hattempt)
  | restart files => exact tracks_cleared _ _
  | loadResumeData fails disk => exact tracks_loadNext hact
  | answerSave i saved => exact tracks_held (held_answerSave hact)
  | metadataArrives h ti =>
      obtain ⟨t, -, hact⟩ := Option.bind_eq_some_iff.mp hact
      split_ifs at hact
      obtain ⟨session, -, rfl⟩ := Option.map_eq_some_iff.mp hact
      exact .refl _
  | removalDone h =>
      obtain ⟨t, -, hact⟩ := Option.bind_eq_some_iff.mp hact
      split_ifs at hact
      obtain rfl := Option.some.inj hact
      exact .refl _
  | pauseTorrent i | resumeTorrent i =>
      obtain rfl := Option.some.inj hact
      exact tracks_held (held_pauseTorrent i)
  | pieceFinished h =>
      obtain rfl := Option.some.inj hact
      exact tracks_held held_stageResumeSave
  | pruneRemovedHistory _ | pauseAll | resumeAll | saveResumeData | setTempPath _
  | setContentLayout _ | fileRenamed _ _ _ | storageMoved _ _ =>
      obtain rfl := Option.some.inj hact
      exact .refl _

end Rows

namespace System

variable {rules : Rules} {s s' : System} {snap : Snapshot}

section Invariant

-- A snapshot has the rows that the list has come from.
structure Tracked (s : System) (snap : Snapshot) : Prop where
  hashes : snap.hashes.length = snap.torrents.length
  version : snap.version ≤ s.log.length
  tracks : Tracks (s.since snap) snap.torrents s.engine.torrents

structure Inv (s : System) : Prop where
  snap : s.Tracked s.snap
  toUi : ∀ snap ∈ s.toUi, s.Tracked snap
  toEngine : ∀ c ∈ s.toEngine, s.Tracked c.snap ∧ c.row < c.snap.torrents.length

theorem tracked_pushed (s : System) : s.Tracked s.pushed where
  hashes := List.length_map _
  version := le_rfl
  tracks := by
    have hnone : s.since s.pushed = [] := by
      rw [since, pushed, Nat.sub_self, List.take_zero]
    rw [hnone]
    exact .refl _

-- The changes since a snapshot grow by those of each event.
theorem Tracked.react (hsnap : s.Tracked snap) {changes : List RowChange}
    (hlog : s'.log = changes ++ s.log)
    (hrows : Tracks changes s.engine.torrents s'.engine.torrents) : s'.Tracked snap := by
  obtain ⟨hhashes, hversion, htracks⟩ := hsnap
  have hsince : s'.since snap = changes ++ s.since snap := by
    rw [since, since, hlog, List.length_append, Nat.add_sub_assoc hversion, List.take_length_add_append]
  refine ⟨hhashes, ?_, ?_⟩
  · rw [hlog, List.length_append]
    omega
  · rw [hsince]
    exact htracks.trans hrows

theorem Tracked.congr (hsnap : s.Tracked snap) (hengine : s'.engine = s.engine)
    (hlog : s'.log = s.log) : s'.Tracked snap := by
  have hrows : Tracks [] s.engine.torrents s'.engine.torrents := by
    rw [hengine]
    exact .refl _
  exact hsnap.react (hlog.trans (List.nil_append _).symm) hrows

theorem react_log (s : System) (e : Library.Event) (engine : State) :
    (s.react e engine).log = change s.engine e ++ s.log ∧ (s.react e engine).engine = engine := by
  unfold react
  split <;> exact ⟨rfl, rfl⟩

-- What is in flight stays, or is lost with the engine.
theorem react_flight (s : System) (e : Library.Event) (engine : State) :
    (s.react e engine).snap = s.snap ∧ (∀ snap ∈ (s.react e engine).toUi, snap ∈ s.toUi) ∧
      ∀ c ∈ (s.react e engine).toEngine, c ∈ s.toEngine := by
  unfold react
  split
  · exact ⟨rfl, nofun, nofun⟩
  · exact ⟨rfl, fun _ hsnap => hsnap, fun _ hc => hc⟩

theorem Inv.handle (hs : Inv s) {e : Library.Event} (hhandle : s.handle rules e = some s') : Inv s' := by
  obtain ⟨⟨engine, out⟩, hnext, rfl⟩ := Option.map_eq_some_iff.mp hhandle
  obtain ⟨hlog, hengine⟩ := react_log s e engine
  obtain ⟨hsnap, htoUi, htoEngine⟩ := react_flight s e engine
  have hrows := tracks_act (act_of_next hnext).1
  rw [← hengine] at hrows
  refine ⟨?_, fun snap hmem => ?_, fun c hc => ?_⟩
  · rw [hsnap]
    exact hs.snap.react hlog hrows
  · exact (hs.toUi snap (htoUi snap hmem)).react hlog hrows
  · obtain ⟨htracked, hrow⟩ := hs.toEngine c (htoEngine c hc)
    exact ⟨htracked.react hlog hrows, hrow⟩

theorem Inv.frame (hs : Inv s) (hengine : s'.engine = s.engine) (hlog : s'.log = s.log)
    (hsnap : s'.snap = s.snap ∨ s'.snap ∈ s.toUi)
    (htoUi : ∀ snap ∈ s'.toUi, snap ∈ s.toUi ∨ snap = s.pushed)
    (htoEngine : ∀ c ∈ s'.toEngine,
      c ∈ s.toEngine ∨ c.snap = s.snap ∧ c.row < s.snap.hashes.length) : Inv s' := by
  have hcongr {snap : Snapshot} (htracked : s.Tracked snap) : s'.Tracked snap :=
    htracked.congr hengine hlog
  refine ⟨?_, fun snap hmem => ?_, fun c hc => ?_⟩
  · rcases hsnap with heq | hmem
    · exact hcongr (heq ▸ hs.snap)
    · exact hcongr (hs.toUi _ hmem)
  · rcases htoUi snap hmem with hmem | rfl
    · exact hcongr (hs.toUi snap hmem)
    · exact hcongr (tracked_pushed s)
  · rcases htoEngine c hc with hc | ⟨heq, hrow⟩
    · obtain ⟨htracked, hrow⟩ := hs.toEngine c hc
      exact ⟨hcongr htracked, hrow⟩
    · rw [heq]
      exact ⟨hcongr hs.snap, hs.snap.hashes ▸ hrow⟩

theorem Inv.dispatch (hs : Inv s) {c : Command} {rest : List Command} (hc : s.toEngine = c :: rest)
    (hdispatch : System.dispatch { s with toEngine := rest } rules c = some s') : Inv s' := by
  have hpopped : Inv { s with toEngine := rest } := by
    refine hs.frame rfl rfl (.inl rfl) (fun _ hsnap => .inl hsnap) fun d hd => .inl ?_
    rw [hc]
    exact List.mem_cons_of_mem c hd
  unfold System.dispatch at hdispatch
  split at hdispatch
  · exact hpopped.handle hdispatch
  · obtain rfl := Option.some.inj hdispatch
    exact hpopped

theorem Inv.next (hs : Inv s) {e : Event} {out : List Effect}
    (hnext : s.next rules e = some (s', out)) : Inv s' := by
  unfold System.next at hnext
  cases e with
  | engine e =>
      obtain ⟨s'', hhandle, heq⟩ := Option.map_eq_some_iff.mp hnext
      obtain ⟨rfl, -⟩ := Prod.mk.inj heq
      exact hs.handle hhandle
  | connect =>
      dsimp only at hnext
      split_ifs at hnext
      obtain ⟨rfl, -⟩ := Prod.mk.inj (Option.some.inj hnext)
      exact hs.frame rfl rfl (.inl rfl) (fun _ hmem => .inr (List.mem_singleton.mp hmem)) nofun
  | pushSnapshot =>
      dsimp only at hnext
      split_ifs at hnext
      obtain ⟨rfl, -⟩ := Prod.mk.inj (Option.some.inj hnext)
      refine hs.frame rfl rfl (.inl rfl) (fun snap hmem => ?_) fun _ hc => .inl hc
      exact (List.mem_append.mp hmem).imp_right List.mem_singleton.mp
  | receive =>
      dsimp only at hnext
      split at hnext
      · cases hnext
      · next snap rest htoUi =>
          obtain ⟨rfl, -⟩ := Prod.mk.inj (Option.some.inj hnext)
          refine hs.frame rfl rfl (.inr ?_) (fun snap' hmem => .inl ?_) fun _ hc => .inl hc
          · rw [htoUi]
            exact List.mem_cons_self
          · rw [htoUi]
            exact List.mem_cons_of_mem snap hmem
  | issue row method =>
      dsimp only at hnext
      split_ifs at hnext with hissue
      obtain ⟨rfl, -⟩ := Prod.mk.inj (Option.some.inj hnext)
      refine hs.frame rfl rfl (.inl rfl) (fun _ hmem => .inl hmem) fun c hc => ?_
      rcases List.mem_append.mp hc with hc | hc
      · exact .inl hc
      · rw [List.mem_singleton.mp hc]
        exact .inr ⟨rfl, hissue.2⟩
  | dispatch =>
      dsimp only at hnext
      split at hnext
      · cases hnext
      · next c rest htoEngine =>
          split_ifs at hnext
          obtain ⟨s'', hdispatch, heq⟩ := Option.map_eq_some_iff.mp hnext
          obtain ⟨rfl, -⟩ := Prod.mk.inj heq
          exact hs.dispatch htoEngine hdispatch

theorem inv_start : Inv start where
  snap := ⟨rfl, le_rfl, .refl _⟩
  toUi := nofun
  toEngine := nofun

theorem run_inv {guard : System → Event → Prop} {past : List (Reaction System Event Effect)}
    (hrun : (machine rules).Run guard past s) : Inv s :=
  Machine.Run.invariant Inv inv_start (fun _ _ _ _ hs _ hnext => hs.next hnext) hrun

end Invariant

section Reached

variable {c : Command} {t : Torrent} {row : Nat}

theorem torrentAt_of_reaches {engine : State} {method : Method}
    (hreaches : method.reaches engine row = some t) : torrentAt engine row = some t := by
  unfold Method.reaches at hreaches
  split at hreaches
  all_goals first
    | exact hreaches
    | exact (Option.filter_eq_some_iff.mp hreaches).1
    | (split_ifs at hreaches; exact hreaches)

theorem row_of_torrentAt {engine : State} (ht : torrentAt engine row = some t) :
    engine.torrents[row]? = some t.handle := by
  obtain ⟨h, hrow, ht⟩ := Option.bind_eq_some_iff.mp ht
  rw [hrow, (Session.torrent_eq_some.mp ht).2]

theorem hashAt_of_torrentAt {engine : State} (ht : torrentAt engine row = some t) :
    hashAt engine row = engine.torrentHash t.handle := by
  rw [hashAt, row_of_torrentAt ht, Option.bind_some]

-- A row that no change has moved has the torrent that it had.
theorem Inv.row_eq (hs : Inv s) (hc : c ∈ s.toEngine) {k : Nat}
    (horigin : originOf (s.since c.snap) c.row = some k) (hk : k < c.snap.torrents.length)
    (ht : torrentAt s.engine c.row = some t) : c.snap.torrents[k]? = some t.handle := by
  have hrow := row_of_torrentAt ht
  have hlt := (List.getElem?_eq_some_iff.mp hrow).1
  rw [← (hs.toEngine c hc).1.tracks.row c.row k horigin hlt hk, hrow]

theorem Inv.shows (hs : Inv s) (hc : c ∈ s.toEngine) (hsteady : s.Steady c)
    (ht : torrentAt s.engine c.row = some t) : s.Shows c.snap c.row t := by
  rcases hsteady with hgone | horigin | ⟨-, hknown, hshown⟩
  · have hlt := (List.getElem?_eq_some_iff.mp (row_of_torrentAt ht)).1
    exact absurd hgone hlt.not_ge
  · have hrow := hs.row_eq hc horigin (hs.toEngine c hc).2 ht
    exact .inl ⟨hrow, cleared_notMem horigin⟩
  · rw [hashAt_of_torrentAt ht] at hknown hshown
    exact .inr ⟨hknown, hshown⟩

theorem mem_out {e : Event} {out : List Effect} {effect : Effect}
    (hnext : s.next rules e = some (s', out)) (hmem : effect ∈ out) : e = .dispatch ∧
      s.toEngine.head? = some effect.command ∧
        torrentAt s.engine effect.command.row = some effect.torrent := by
  unfold System.next at hnext
  cases e with
  | dispatch =>
      dsimp only at hnext
      split at hnext
      · cases hnext
      · next c rest htoEngine =>
          split_ifs at hnext
          obtain ⟨s'', -, heq⟩ := Option.map_eq_some_iff.mp hnext
          obtain ⟨-, rfl⟩ := Prod.mk.inj heq
          obtain ⟨t, hreaches, rfl⟩ := Option.map_eq_some_iff.mp (Option.mem_toList.mp hmem)
          exact ⟨rfl, by rw [htoEngine, List.head?_cons], torrentAt_of_reaches hreaches⟩
  | engine e =>
      obtain ⟨s'', -, heq⟩ := Option.map_eq_some_iff.mp hnext
      obtain ⟨-, rfl⟩ := Prod.mk.inj heq
      cases hmem
  | connect | pushSnapshot | issue row method =>
      dsimp only at hnext
      split_ifs at hnext
      obtain ⟨-, rfl⟩ := Prod.mk.inj (Option.some.inj hnext)
      cases hmem
  | receive =>
      dsimp only at hnext
      split at hnext
      · cases hnext
      · obtain ⟨-, rfl⟩ := Prod.mk.inj (Option.some.inj hnext)
        cases hmem

-- Where no change of the list comes between, a command reaches the torrent that its row shows.
theorem run_reaches {past : List (Reaction System Event Effect)}
    (hrun : (machine rules).Run Careful past s) :
    ∀ r ∈ past, ∀ e ∈ r.out, r.before.Shows e.command.snap e.command.row e.torrent := by
  intro r hr e he
  obtain ⟨earlier, s', hearlier, hcareful, hnext⟩ := hrun.before hr
  obtain ⟨hdispatch, hhead, ht⟩ := mem_out hnext he
  rw [hdispatch] at hcareful
  exact (run_inv hearlier).shows (List.mem_of_mem_head? hhead) (hcareful _ hhead) ht

def thirdTorrent : TorrentInfo where
  hashes := ⟨some (sha1 5), none, by decide⟩
  name := ['c']
  files := [⟨['c'], 1⟩]

-- A torrent is removed with its files while another, further down, has come in.
theorem run_reaches_row : ∃ past s r e, (machine unix).Run Careful past s ∧ r ∈ past ∧ e ∈ r.out ∧
    e.command.method = .removeTorrent true false ∧
      r.before.Shows e.command.snap e.command.row e.torrent := by
  have hstart : (machine unix).Run Careful [] start := .init
  have hone := hstart.extend (.engine (.addTorrent hybridTorrent ['/', 'd'] false)) trivial rfl
  have htwo := hone.extend .connect trivial rfl
  have hthree := htwo.extend .receive trivial rfl
  have hfour := hthree.extend (.issue 0 (.removeTorrent true false)) trivial rfl
  have hfive := hfour.extend (.engine (.addTorrent otherTorrent ['/', 'd'] false)) trivial rfl
  have hsix := hfive.extend .dispatch (fun _ hc => Option.some.inj hc ▸ .inr (.inl rfl)) rfl
  exact ⟨_, _, _, _, hsix, List.mem_cons_self, List.mem_singleton_self _, rfl,
    run_reaches hsix _ List.mem_cons_self _ (List.mem_singleton_self _)⟩

def strays (s : System) : Bool :=
  ((machine unix).next s .dispatch).any fun r =>
    r.2.any fun e => ¬ s.Shows e.command.snap e.command.row e.torrent

-- Of two removals the second takes the files of the torrent below.
theorem run_not_reaches : ∃ past s r e, (machine unix).Run (fun _ _ => True) past s ∧ r ∈ past ∧
    e ∈ r.out ∧ ¬ r.before.Shows e.command.snap e.command.row e.torrent := by
  obtain ⟨past, s, hrun, hstrays⟩ : ∃ past s, (machine unix).Run (fun _ _ => True) past s ∧
      strays s = true :=
    Machine.exists_run
      [.engine (.addTorrent hybridTorrent ['/', 'd'] false),
        .engine (.addTorrent otherTorrent ['/', 'd'] false),
        .engine (.addTorrent thirdTorrent ['/', 'd'] false), .connect, .receive,
        .issue 0 (.removeTorrent true false), .dispatch,
        .issue 1 (.removeTorrent true false)] (by decide +kernel)
  obtain ⟨⟨s', out⟩, hnext, hout⟩ := (Option.any_eq_true _ _).mp hstrays
  obtain ⟨e, he, hshows⟩ := List.any_eq_true.mp hout
  exact ⟨_, _, _, e, hrun.extend _ trivial hnext, List.mem_cons_self, he, of_decide_eq_true hshows⟩

end Reached

end System

end BATorrent.RowCommand
