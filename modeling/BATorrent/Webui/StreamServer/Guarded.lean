import BATorrent.Services.MediaGuard
import BATorrent.Webui.StreamServer

namespace BATorrent.StreamServer

open Lib
open Lib.DataStream (Bytes)
open MediaSniff (Text Verdict isVideoName)
open MediaGuard (Guard keyFor Listed Recorded Admits)

section Log

def guardLog (outs : List Out) : List MediaGuard.Out :=
  outs.filterMap fun o => match o with
    | .guard o => some o
    | _ => none

@[simp] theorem guardLog_append (outs outs' : List Out) :
    guardLog (outs ++ outs') = guardLog outs ++ guardLog outs' := List.filterMap_append

@[simp] theorem guardLog_map (outs : List MediaGuard.Out) : guardLog (outs.map .guard) = outs := by
  unfold guardLog
  rw [List.filterMap_map]
  exact List.filterMap_some

theorem mem_guardLog {outs : List Out} {o : MediaGuard.Out} : o ∈ guardLog outs ↔ .guard o ∈ outs := by
  unfold guardLog
  rw [List.mem_filterMap]
  constructor
  · rintro ⟨out, hout, heq⟩
    cases out with
    | guard o' =>
        cases heq
        exact hout
    | failed => cases heq
    | headers => cases heq
    | body => cases heq
  · exact fun h => ⟨_, h, rfl⟩

end Log

variable {toLower : Text → Text} {video : Text → Bool} {g : Guard} {c : Conn} {a : Answers}
  {past : List (Reaction State Event Out)} {s s' : State} {out : List Out}

-- What is sent of a video is sent after its head was judged, never after a judgement that it is
-- something else, and not while it is quarantined.
def Guarded (toLower : Text → Text) (past : List (Reaction State Event Out))
    (r : Reaction State Event Out) (s' : State) : Prop :=
  ∀ before after key path bytes, r.out = before ++ .body key path bytes :: after →
    isVideoName toLower path = true →
      (∃ verdict, verdict ≠ Verdict.needMore ∧
        .guard (.judged key verdict) ∈ before ++ Machine.log past) ∧
      .guard (.judged key .disguised) ∉ before ++ Machine.log past ∧
      s'.guard.isQuarantined key = false

-- The files that `video` tells are videos by name: the guard gets the name of such a file whenever it
-- asks for it, no other file is opened by a video's name, and a disguised file is listed.
def Answered (toLower : Text → Text) (video : Text → Bool) (s : State) : Event → Prop
  | .pump i a => ∀ c ∈ s.conns[i]?,
      (c.admitted = false → s.guard.isQuarantined (c.key toLower) = false →
        c.key toLower ∉ s.guard.cleared → video (c.key toLower) = true →
          0 ≤ a.guard.torrentIndex ∧ a.guard.path ≠ [] ∧ isVideoName toLower a.guard.path = true) ∧
      (isVideoName toLower a.path = true → video (c.key toLower) = true) ∧ Listed c.fileIdx a.guard
  | .asked _ fileIndex answers => Listed fileIndex answers
  | .torrentFinished _ _ files answers => ∀ i : Nat, i < files.length → Listed i (answers i)
  | _ => True

structure Conn.Sound (toLower : Text → Text) (video : Text → Bool) (g : Guard) (c : Conn) : Prop where
  admitted : c.admitted = true → video (c.key toLower) = true → c.key toLower ∈ g.cleared
  opened : ∀ path, c.file = some path → isVideoName toLower path = true → video (c.key toLower) = true

theorem Conn.Sound.mono {g' : Guard} (h : c.Sound toLower video g)
    (hmono : ∀ key ∈ g.cleared, key ∈ g'.cleared) : c.Sound toLower video g' :=
  ⟨fun hadmitted hvideo => hmono _ (h.admitted hadmitted hvideo), h.opened⟩

theorem Conn.Sound.disconnect (h : c.Sound toLower video g) :
    c.disconnectFromHost.Sound toLower video g := ⟨h.admitted, h.opened⟩

theorem Conn.Sound.waitOrGiveUp (h : c.Sound toLower video g) (elapsed : Int) :
    (c.waitOrGiveUp elapsed).Sound toLower video g := by
  unfold Conn.waitOrGiveUp
  split_ifs
  · exact h.disconnect
  · exact h

theorem ensureOpen_sound (h : c.Sound toLower video g)
    (hpath : isVideoName toLower a.path = true → video (c.key toLower) = true) :
    (c.ensureOpen a).1.Sound toLower video g ∧ (c.ensureOpen a).1.key toLower = c.key toLower ∧
      ((c.ensureOpen a).2 = true → (c.ensureOpen a).1.file.isSome) := by
  unfold Conn.ensureOpen
  cases hfile : c.file with
  | some path => exact ⟨h, rfl, fun _ => by simp [hfile]⟩
  | none =>
      dsimp only
      split_ifs
      · exact ⟨h, rfl, fun hopen => by cases hopen⟩
      · refine ⟨⟨h.admitted, fun path heq => ?_⟩, rfl, fun _ => rfl⟩
        cases heq
        exact hpath

-- What is sent comes from the file that is open.
theorem serve_sound (h : c.Sound toLower video g)
    (hpath : isVideoName toLower a.path = true → video (c.key toLower) = true) :
    (c.serve toLower a).1.Sound toLower video g ∧
      ((c.serve toLower a).2 = [] ∨ ∃ path bytes,
        (c.serve toLower a).2 = [.body (c.key toLower) path bytes] ∧
          (isVideoName toLower path = true → video (c.key toLower) = true)) := by
  unfold Conn.serve
  obtain ⟨hsound, hkey, hsome⟩ := ensureOpen_sound h hpath
  generalize c.ensureOpen a = opened at hsound hkey hsome ⊢
  obtain ⟨c', ok⟩ := opened
  dsimp only at hsound hkey hsome
  cases ok with
  | false => exact ⟨hsound.waitOrGiveUp _, .inl rfl⟩
  | true =>
      obtain ⟨path, hfile⟩ := Option.isSome_iff_exists.mp (hsome rfl)
      have hsent : ∀ bytes, ∃ path bytes', [Out.body (c'.key toLower) (c'.file.getD []) bytes] =
          [.body (c.key toLower) path bytes'] ∧
            (isVideoName toLower path = true → video (c.key toLower) = true) := by
        intro bytes
        refine ⟨path, bytes, ?_, fun hvideo => hkey ▸ hsound.opened path hfile hvideo⟩
        rw [hfile, hkey]
        rfl
      dsimp only
      split_ifs
      · exact ⟨⟨hsound.admitted, fun path heq => by cases heq⟩, .inl rfl⟩
      · exact ⟨⟨hsound.admitted, hsound.opened⟩, .inr (hsent _)⟩
      · exact ⟨⟨hsound.admitted, hsound.opened⟩, .inr (hsent _)⟩

-- What a pump of a connection puts out: what the guard says, and then at most one piece of the body.
structure Pumped (toLower : Text → Text) (video : Text → Bool) (key : Text) (log : List MediaGuard.Out)
    (g g' : Guard) (c' : Conn) (out : List Out) : Prop where
  recorded : Recorded (guardLog out ++ log) g'
  cleared : ∀ key ∈ g.cleared, key ∈ g'.cleared
  sound : c'.Sound toLower video g'
  body : ∃ (said : List MediaGuard.Out) (sent : List Out), out = said.map .guard ++ sent ∧
    (sent = [] ∨ ∃ path bytes, sent = [.body key path bytes] ∧
      (isVideoName toLower path = true → key ∈ g'.cleared))

theorem pump_pumped {log : List MediaGuard.Out} (hrecorded : Recorded log g)
    (h : c.Sound toLower video g)
    (hasked : c.admitted = false → g.isQuarantined (c.key toLower) = false →
      c.key toLower ∉ g.cleared → video (c.key toLower) = true →
        0 ≤ a.guard.torrentIndex ∧ a.guard.path ≠ [] ∧ isVideoName toLower a.guard.path = true)
    (hpath : isVideoName toLower a.path = true → video (c.key toLower) = true)
    (hlisted : Listed c.fileIdx a.guard) :
    Pumped toLower video (c.key toLower) log g (c.pump toLower g a).1 (c.pump toLower g a).2.1
      (c.pump toLower g a).2.2 := by
  have hsilent : ∀ c' : Conn, c'.Sound toLower video g →
      Pumped toLower video (c.key toLower) log g g c' [] :=
    fun c' hc' => ⟨hrecorded, fun _ h => h, hc', [], [], rfl, .inl rfl⟩
  unfold Conn.pump
  split_ifs with hconnected hdone hbacklog hindex havail hadmitted
  · exact hsilent _ h
  · exact hsilent _ h.disconnect
  · exact hsilent _ h
  · exact hsilent _ h.disconnect
  · exact hsilent _ (h.waitOrGiveUp _)
  · obtain ⟨hsound, hsent⟩ := serve_sound h hpath
    generalize c.serve toLower a = served at hsound hsent ⊢
    obtain ⟨c', sent⟩ := served
    dsimp only at hsound hsent ⊢
    have hnone : guardLog sent = [] := by
      rcases hsent with rfl | ⟨path, bytes, rfl, -⟩
      · rfl
      · rfl
    refine ⟨by rwa [hnone], fun _ h => h, hsound, [], sent, rfl, ?_⟩
    rcases hsent with hsent | ⟨path, bytes, hsent, hvideo⟩
    · exact .inl hsent
    · exact .inr ⟨path, bytes, hsent, fun hname => h.admitted hadmitted (hvideo hname)⟩
  · have hadmits := MediaGuard.admits_admitFile toLower g c.hash c.fileIdx a.guard
    generalize g.admitFile toLower c.hash c.fileIdx a.guard = admitted at hadmits ⊢
    obtain ⟨gate, g', said⟩ := admitted
    dsimp only at hadmits
    have hrecorded' := hadmits.recorded hlisted hrecorded
    have hmono := hadmits.cleared_mono hlisted
    have hsaid : ∀ c' : Conn, c'.Sound toLower video g' →
        Pumped toLower video (c.key toLower) log g g' c' (said.map .guard) := by
      intro c' hc'
      refine ⟨by rwa [guardLog_map], hmono, hc', said, [], ?_, .inl rfl⟩
      rw [List.append_nil]
    cases gate with
    | block => exact hsaid _ (h.mono hmono).disconnect
    | wait => exact hsaid _ ((h.mono hmono).waitOrGiveUp _)
    | allow =>
        -- A video that is let through is cleared, as the guard was told its name.
        have hcleared : video (c.key toLower) = true → c.key toLower ∈ g'.cleared := by
          intro hvideo
          cases hadmits with
          | known hkey => exact hkey
          | unjudged hquarantined hnot hanswers =>
              exact absurd (hasked (by simpa using hadmitted) hquarantined hnot hvideo) hanswers
          | passed => exact List.mem_insert_self
        have hsound : ({ c with admitted := true } : Conn).Sound toLower video g' :=
          ⟨fun _ hvideo => hcleared hvideo, h.opened⟩
        obtain ⟨hserved, hsent⟩ := serve_sound hsound hpath
        dsimp only
        generalize ({ c with admitted := true } : Conn).serve toLower a = served at hserved hsent ⊢
        obtain ⟨c', sent⟩ := served
        dsimp only at hserved hsent ⊢
        have hnone : guardLog sent = [] := by
          rcases hsent with rfl | ⟨path, bytes, rfl, -⟩
          · rfl
          · rfl
        refine ⟨?_, hmono, hserved, said, sent, rfl, ?_⟩
        · rwa [guardLog_append, guardLog_map, hnone, List.append_nil]
        · rcases hsent with hsent | ⟨path, bytes, hsent, hvideo⟩
          · exact .inl hsent
          · exact .inr ⟨path, bytes, hsent, fun hname => hcleared (hvideo hname)⟩

-- A piece of a video's body is sent as the record wants it.
theorem guarded_of_pumped {key : Text} {c' : Conn} {event : Event}
    (h : Pumped toLower video key (guardLog (Machine.log past)) s.guard s'.guard c' out) :
    Guarded toLower past ⟨s, event, out⟩ s' := by
  obtain ⟨hrecorded, -, -, said, sent, rfl, hsent⟩ := h
  intro before after key' path' bytes' hout hvideo
  dsimp only at hout
  have hnone : ∀ key path bytes, Out.body key path bytes ∉ said.map Out.guard := by simp
  rcases hsent with rfl | ⟨path, bytes, rfl, hcleared⟩
  · rw [List.append_nil] at hout
    refine absurd ?_ (hnone key' path' bytes')
    rw [hout]
    exact List.mem_append_right _ List.mem_cons_self
  · obtain ⟨rfl, heq, rfl⟩ : said.map Out.guard = before ∧
        Out.body key path bytes = .body key' path' bytes' ∧ [] = after :=
      (List.append_cons_inj_of_notMem (hnone _ _ _) (by simp)).mp hout
    obtain ⟨rfl, rfl, rfl⟩ := Out.body.inj heq
    have hlog : ∀ o, o ∈ guardLog (said.map .guard ++ [.body key path bytes]) ++
        guardLog (Machine.log past) ↔ Out.guard o ∈ said.map .guard ++ Machine.log past := by
      intro o
      rw [← mem_guardLog]
      simp [guardLog]
    obtain ⟨⟨verdict, hne, hjudged⟩, hfree⟩ := hrecorded.cleared key (hcleared hvideo)
    refine ⟨⟨verdict, hne, (hlog _).mp hjudged⟩, fun hdisguised => ?_, hfree⟩
    have hquarantined := hrecorded.disguised key ((hlog _).mpr hdisguised)
    rw [hfree] at hquarantined
    cases hquarantined

theorem guarded_of_silent {event : Event} (h : ∀ key path bytes, .body key path bytes ∉ out) :
    Guarded toLower past ⟨s, event, out⟩ s' := by
  intro before after key path bytes hout _
  dsimp only at hout
  refine absurd ?_ (h key path bytes)
  rw [hout]
  exact List.mem_append_right _ List.mem_cons_self

structure Inv (toLower : Text → Text) (video : Text → Bool) (log : List Out) (s : State) : Prop where
  recorded : Recorded (guardLog log) s.guard
  sound : ∀ c ∈ s.conns, c.Sound toLower video s.guard

theorem begin_inv {log : List Out} (h : Inv toLower video log s) (r : Request) (torrentIndex size : Int)
    (path : Text) :
    Inv toLower video ((s.begin toLower r torrentIndex size path).2 ++ log)
        (s.begin toLower r torrentIndex size path).1 ∧
      ∀ key path' bytes, Out.body key path' bytes ∉ (s.begin toLower r torrentIndex size path).2 := by
  unfold State.begin
  dsimp only
  generalize (if r.range.isSome then 206 else 200) = code
  split_ifs
  · exact ⟨⟨h.recorded, h.sound⟩, by simp⟩
  · exact ⟨⟨h.recorded, h.sound⟩, by simp⟩
  · exact ⟨⟨h.recorded, h.sound⟩, by simp⟩
  · exact ⟨⟨h.recorded, h.sound⟩, by simp⟩
  · refine ⟨⟨h.recorded, fun c hc => ?_⟩, by simp⟩
    dsimp only at hc
    rcases List.mem_append.mp hc with hc | hc
    · exact h.sound c hc
    · rw [List.mem_singleton.mp hc]
      exact ⟨(fun hadmitted => by cases hadmitted), fun path heq => by cases heq⟩

theorem next_inv {event : Event} (h : Inv toLower video (Machine.log past) s)
    (hanswered : Answered toLower video s event) (hnext : s.next toLower event = some (s', out)) :
    Inv toLower video (out ++ Machine.log past) s' ∧ Guarded toLower past ⟨s, event, out⟩ s' := by
  have hsaid : ∀ (g : Guard) (said : List MediaGuard.Out),
      Recorded (said ++ guardLog (Machine.log past)) g → (∀ key ∈ s.guard.cleared, key ∈ g.cleared) →
        Inv toLower video (said.map .guard ++ Machine.log past) { s with guard := g } ∧
          Guarded toLower past ⟨s, event, said.map .guard⟩ { s with guard := g } := by
    intro g said hrecorded hmono
    refine ⟨⟨?_, fun c hc => (h.sound c hc).mono hmono⟩, guarded_of_silent (by simp)⟩
    rwa [guardLog_append, guardLog_map]
  cases event with
  | requested r torrentIndex size path =>
      obtain ⟨hinv, hsilent⟩ := begin_inv h r torrentIndex size path
      have hbegun : s.begin toLower r torrentIndex size path = (s', out) := Option.some.inj hnext
      rw [hbegun] at hinv hsilent
      exact ⟨hinv, guarded_of_silent hsilent⟩
  | pump i a =>
      obtain ⟨c, hc, heq⟩ := Option.map_eq_some_iff.mp hnext
      obtain ⟨rfl, rfl⟩ := Prod.mk.inj heq
      obtain ⟨hasked, hpath, hlisted⟩ := hanswered c hc
      have hpumped := pump_pumped h.recorded (h.sound c (List.mem_of_getElem? hc)) hasked hpath hlisted
      refine ⟨⟨?_, fun c' hc' => ?_⟩, guarded_of_pumped hpumped⟩
      · rw [guardLog_append]
        exact hpumped.recorded
      · rcases List.mem_or_eq_of_mem_set hc' with hc' | rfl
        · exact (h.sound c' hc').mono hpumped.cleared
        · exact hpumped.sound
  | disconnected i =>
      obtain ⟨c, hc, heq⟩ := Option.map_eq_some_iff.mp hnext
      obtain ⟨rfl, rfl⟩ := Prod.mk.inj heq
      refine ⟨⟨h.recorded, fun c' hc' => ?_⟩, guarded_of_silent (by simp)⟩
      rcases List.mem_or_eq_of_mem_set hc' with hc' | rfl
      · exact h.sound c' hc'
      · exact (h.sound c (List.mem_of_getElem? hc)).disconnect
  | asked infoHash fileIndex a =>
      obtain ⟨rfl, rfl⟩ := Prod.mk.inj (Option.some.inj hnext)
      have hadmits := MediaGuard.admits_admitFile toLower s.guard infoHash fileIndex a
      exact hsaid _ _ (hadmits.recorded hanswered h.recorded) (hadmits.cleared_mono hanswered)
  | torrentFinished infoHash torrentIndex files answers =>
      obtain ⟨rfl, rfl⟩ := Prod.mk.inj (Option.some.inj hnext)
      obtain ⟨hrecorded, hmono⟩ := MediaGuard.onTorrentFinished_recorded toLower infoHash torrentIndex
        hanswered h.recorded
      exact hsaid _ _ hrecorded hmono
  | restarted =>
      obtain ⟨rfl, rfl⟩ := Prod.mk.inj (Option.some.inj hnext)
      refine ⟨⟨⟨rfl, by simp [Guard.ofSaved], fun key hkey => ?_⟩, by simp⟩, guarded_of_silent (by simp)⟩
      have hquarantined := h.recorded.disguised key hkey
      unfold Guard.ofSaved Guard.isQuarantined at *
      rwa [h.recorded.saved]

theorem run_guarded {saved : List (Text × Text)}
    (hrun : (machine toLower saved).Run (Answered toLower video) past s) :
    Machine.eachStep (Guarded toLower) past s := by
  have hinit : Inv toLower video [] (machine toLower saved).init :=
    ⟨⟨rfl, by simp [machine, Guard.ofSaved], by simp [guardLog]⟩, by simp [machine]⟩
  have hall := Machine.Run.invariant_past
    (fun past s => Inv toLower video (Machine.log past) s ∧ Machine.eachStep (Guarded toLower) past s)
    ⟨hinit, trivial⟩ (fun past s a s' out h hanswered hnext => by
      obtain ⟨hinv, hguarded⟩ := next_inv h.1 hanswered hnext
      exact ⟨hinv, hguarded, h.2⟩) hrun
  exact hall.2

section Sample

def plain (text : Text) : Text := text.map Char.toLower

-- The file with the number 0 is a film, the one with the number 1 a script that is named like one.
def filmHead : Bytes := [0x1A, 0x45, 0xDF, 0xA3, 1, 2, 3, 4]

def scriptHead : Bytes := [0x23, 0x21, 0x2F, 0x62, 0x69, 0x6E, 0x2F, 0x61]

def filesThere : List MediaGuard.FileInfo := [⟨"film.mkv".toList, 4⟩, ⟨"fake.mkv".toList, 4⟩]

def told (name : String) (available : Int) (head : Bytes) : MediaGuard.Answers :=
  ⟨0, name.toList, 8, available, some head, filesThere, ['h']⟩

def pumped (name : String) (guard : MediaGuard.Answers) (data : Bytes) : Event :=
  .pump 0 ⟨0, 0, 0, data.length, guard, name.toList, true, true, data⟩

instance (a : MediaGuard.Answers) : Decidable (MediaGuard.Disguised a) :=
  inferInstanceAs (Decidable (_ = true))

instance (fileIndex : Int) (a : MediaGuard.Answers) : Decidable (Listed fileIndex a) :=
  inferInstanceAs (Decidable (_ → _))

instance (s : State) : ∀ event, Decidable (Answered plain (fun _ => true) s event)
  | .pump i a => inferInstanceAs (Decidable (∀ c ∈ s.conns[i]?, _ ∧ _ ∧ _))
  | .asked _ fileIndex answers => inferInstanceAs (Decidable (Listed fileIndex answers))
  | .torrentFinished _ _ files answers =>
      inferInstanceAs (Decidable (∀ i : Nat, i < files.length → Listed i (answers i)))
  | .requested _ _ _ _ | .disconnected _ | .restarted => .isTrue trivial

def SentAndHeld (run : State × List Out) : Prop :=
  .body "h:0".toList "film.mkv".toList [3, 4] ∈ run.2 ∧ run.1.guard.isQuarantined "h:1".toList = true ∧
    .failed 403 ∈ run.2

instance : DecidablePred SentAndHeld := fun _ => inferInstanceAs (Decidable (_ ∧ _ ∧ _))

-- A seek past the head waits for it, and the fake file is held when the torrent is finished.
theorem run_guarded_film : ∃ past s,
    (machine plain []).Run (Answered plain fun _ => true) past s ∧ SentAndHeld (s, Machine.log past) ∧
      Machine.eachStep (Guarded plain) past s := by
  obtain ⟨past, s, hrun, hsent⟩ : ∃ past s,
      (machine plain []).Run (Answered plain fun _ => true) past s ∧ SentAndHeld (s, Machine.log past) :=
    Machine.exists_run_log [.requested ⟨false, ['H'], 0, some (some 6, none)⟩ 0 8 "film.mkv".toList,
      pumped "film.mkv" (told "film.mkv" 0 []) [3, 4],
      pumped "film.mkv" (told "film.mkv" 8 filmHead) [3, 4],
      .torrentFinished ['h'] 0 filesThere
        fun i => told (if i = 0 then "film.mkv" else "fake.mkv") 8 (if i = 0 then filmHead else scriptHead),
      .requested ⟨false, ['h'], 1, none⟩ 0 8 "fake.mkv".toList]
      (by decide +kernel)
  exact ⟨past, s, hrun, hsent, run_guarded hrun⟩

-- The path does not come in time, for the guard and for the connection, and comes the next time.
def unanswered : List Event :=
  [.requested ⟨false, ['h'], 1, none⟩ 0 8 "fake.mkv".toList, pumped "" (told "" 8 []) scriptHead]

def answered : Event := pumped "fake.mkv" (told "fake.mkv" 8 scriptHead) scriptHead

def SendsUnjudged (run : State × List Out) : Prop :=
  guardLog run.2 = [] ∧ (run.1.next plain answered).any fun res =>
    res.2 = [.body "h:1".toList "fake.mkv".toList scriptHead]

instance : DecidablePred SendsUnjudged := fun _ => inferInstanceAs (Decidable (_ ∧ _))

theorem run_not_guarded : ∃ past s, (machine plain []).Run (fun _ _ => True) past s ∧
    ¬ Machine.eachStep (Guarded plain) past s := by
  obtain ⟨past, s, hrun, hnone, hsends⟩ : ∃ past s, (machine plain []).Run (fun _ _ => True) past s ∧
      SendsUnjudged (s, Machine.log past) := Machine.exists_run_log unanswered (by decide +kernel)
  cases hres : s.next plain answered with
  | none =>
      rw [hres] at hsends
      cases hsends
  | some res =>
      obtain ⟨s', out⟩ := res
      rw [hres, Option.any_some, decide_eq_true_eq] at hsends
      refine ⟨_, s', hrun.extend answered trivial hres, fun hguarded => ?_⟩
      obtain ⟨⟨verdict, -, hjudged⟩, -⟩ := hguarded.1 [] [] _ _ _ hsends (by decide)
      have hlog := mem_guardLog.mpr hjudged
      rw [List.nil_append, hnone] at hlog
      cases hlog

end Sample

end BATorrent.StreamServer
