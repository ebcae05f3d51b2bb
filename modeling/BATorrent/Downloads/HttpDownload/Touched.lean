import BATorrent.Downloads.HttpDownload

namespace BATorrent.HttpDownload

open RangePlan (ByteRange)

namespace State

-- The segments are full and no byte is missing, so the file gets its name.
def completes (s : State) : Bool :=
  s.segments.all Segment.done && !decide (0 < s.total ∧ (s.receivedBytes : Int) ≠ s.total)

def atCompletion (s : State) : List Path := if s.completes then [s.finalPath, s.partPath] else []

def atBegin (s : State) (io : Io) : List Path :=
  if s.fileOpen then s.atCompletion else if io.opens then s.partPath :: s.atCompletion else []

def atStart (s : State) (io : Io) : List Path :=
  if s.phase = .downloading ∨ s.phase = .probing then []
  else if 0 < s.total ∧ s.segments ≠ [] then s.atBegin io else []

-- The paths that a step opens, renames or removes, but for the bytes that go to the open file.
def touched (s : State) : Event → List Path
  | .start io => s.atStart io
  | .resume io => if s.phase = .paused ∨ s.phase = .failed then s.atStart io else []
  | .probeFinished p io => if p.error.isNone then ((s.named p).planned p).atBegin io else []
  | .segmentFinished idx error _ =>
      match replyOf s idx with
      | some (g, _) =>
          if s.phase = .downloading ∧ error.isNone then
            ((s.setSegment idx { g with reply := none }).settleSize idx g).atCompletion
          else []
      | none => []
  | .cancel deletePartial => if deletePartial then [s.partPath] else []
  | _ => []

end State

-- A file that is open is there, and one is open while bytes come in.
structure Attached (s : State) : Prop where
  there : s.fileOpen = true → (s.disk s.openName).isSome
  running : s.phase = .downloading → s.fileOpen = true

-- What a step does to the files: it touches these paths, and what it leaves open was open or is one
-- of them.
structure Acts (s t : State) (paths : List Path) : Prop where
  disk : ∀ p ∉ paths, t.disk p = s.disk p
  opened : t.fileOpen = true → s.fileOpen = true ∧ t.openName = s.openName ∨ t.openName ∈ paths
  kept : Attached s → Attached t

section Acts

variable {s t u : State} {paths more : List Path}

theorem Acts.refl (s : State) : Acts s s [] := ⟨fun _ _ => rfl, fun h => .inl ⟨h, rfl⟩, id⟩

theorem Acts.trans (h : Acts s t paths) (h' : Acts t u more) : Acts s u (paths ++ more) where
  disk p hp := by
    obtain ⟨hpaths, hmore⟩ := not_or.mp fun hin => hp (List.mem_append.mpr hin)
    exact (h'.disk p hmore).trans (h.disk p hpaths)
  opened ho := by
    rcases h'.opened ho with ⟨hopen, hname⟩ | hin
    · rcases h.opened hopen with ⟨hopen', hname'⟩ | hin'
      · exact .inl ⟨hopen', hname.trans hname'⟩
      · exact .inr (List.mem_append_left _ (hname ▸ hin'))
    · exact .inr (List.mem_append_right _ hin)
  kept hk := h'.kept (h.kept hk)

-- A step that leaves the files and what is open alone.
theorem Acts.of_frame (hdisk : t.disk = s.disk) (hopen : t.fileOpen = s.fileOpen)
    (hname : t.openName = s.openName) (hphase : t.phase = .downloading → s.phase = .downloading) :
    Acts s t [] where
  disk p _ := congrFun hdisk p
  opened ho := .inl ⟨hopen ▸ ho, hname⟩
  kept hk := by
    refine ⟨fun ho => ?_, fun hp => ?_⟩
    · rw [hdisk, hname]
      exact hk.there (hopen ▸ ho)
    · rw [hopen]
      exact hk.running (hphase hp)

theorem acts_fail (s : State) (why : String) : Acts s (s.fail why).1 [] where
  disk _ _ := rfl
  opened ho := by cases ho
  kept _ := ⟨nofun, nofun⟩

-- A step that ends with no file open.
theorem Acts.of_closed (hdisk : ∀ p ∉ paths, t.disk p = s.disk p) (hopen : t.fileOpen = false)
    (hphase : t.phase ≠ .downloading) : Acts s t paths where
  disk := hdisk
  opened ho := by
    rw [hopen] at ho
    cases ho
  kept _ := ⟨fun ho => absurd (hopen.symm.trans ho) Bool.false_ne_true, fun hp => absurd hp hphase⟩

theorem acts_finalize (s : State) (io : Io) :
    Acts s ({ s with fileOpen := false }.finalize io).1 [s.finalPath, s.partPath] := by
  have hother : ∀ p ∉ [s.finalPath, s.partPath], p ≠ s.finalPath ∧ p ≠ s.partPath := by
    intro p hp
    rw [List.mem_cons, List.mem_singleton, not_or] at hp
    exact hp
  have hremoved : ∀ p ∉ [s.finalPath, s.partPath], s.disk.set s.finalPath none p = s.disk p :=
    fun p hp => Disk.set_of_ne _ _ (hother p hp).1
  unfold State.finalize
  dsimp only
  split
  · refine .of_closed (fun p hp => ?_) rfl nofun
    obtain ⟨hfinal, hpart⟩ := hother p hp
    exact (Disk.set_of_ne _ _ hpart).trans ((Disk.set_of_ne _ _ hfinal).trans (hremoved p hp))
  · exact .of_closed hremoved rfl nofun

theorem acts_maybeComplete (s : State) (io : Io) : Acts s (s.maybeComplete io).1 s.atCompletion := by
  unfold State.maybeComplete State.atCompletion State.completes
  by_cases hdone : s.segments.all Segment.done
  · rw [if_pos hdone]
    by_cases hsize : 0 < s.total ∧ (s.receivedBytes : Int) ≠ s.total
    · rw [if_pos hsize, if_neg (by simp [hsize])]
      exact acts_fail s _
    · rw [if_neg hsize, if_pos (by rw [hdone, decide_eq_false hsize]; rfl)]
      exact acts_finalize s io
  · rw [if_neg hdone, if_neg (by simp [hdone])]
    exact .refl s

theorem done_spawnSegment (s : State) (g : Segment) :
    (s.spawnSegment g).done = g.done ∧ (s.spawnSegment g).received = g.received := by
  unfold State.spawnSegment
  split_ifs <;> exact ⟨rfl, rfl⟩

theorem completes_spawnAll (s : State) : s.spawnAll.completes = s.completes := by
  unfold State.completes State.spawnAll State.receivedBytes
  dsimp only
  rw [List.map_map, List.all_map]
  have hdone : Segment.done ∘ s.spawnSegment = Segment.done := funext fun g => (done_spawnSegment s g).1
  have hreceived : Segment.received ∘ s.spawnSegment = Segment.received :=
    funext fun g => (done_spawnSegment s g).2
  rw [hdone, hreceived]

theorem acts_launch (s : State) (io : Io) (hopen : s.fileOpen = true) :
    Acts s (s.launch io).1 s.atCompletion := by
  unfold State.launch
  have hspawned : Acts s { s with phase := .downloading, stallRetried := false }.spawnAll [] := by
    refine ⟨fun _ _ => rfl, fun ho => .inl ⟨ho, rfl⟩, fun hk => ⟨hk.there, fun _ => hopen⟩⟩
  have hcompletion := acts_maybeComplete { s with phase := .downloading, stallRetried := false }.spawnAll io
  have hpaths : ({ s with phase := .downloading, stallRetried := false }.spawnAll).atCompletion =
      s.atCompletion := by
    unfold State.atCompletion
    rw [completes_spawnAll]
    rfl
  rw [hpaths] at hcompletion
  exact hspawned.trans hcompletion

theorem acts_openPart (s : State) : Acts s s.openPart [s.partPath] where
  disk p hp := Disk.set_of_ne _ _ (List.mem_singleton.not.mp hp)
  opened _ := .inr (List.mem_singleton_self _)
  kept _ := by
    refine ⟨fun _ => ?_, fun _ => rfl⟩
    have hself : s.openPart.disk s.openPart.openName = some s.opened := Disk.set_self _ _ _
    rw [hself]
    rfl

theorem acts_beginSegments (s : State) (io : Io) : Acts s (s.beginSegments io).1 (s.atBegin io) := by
  unfold State.beginSegments State.atBegin
  by_cases hopen : s.fileOpen = true
  · rw [if_pos hopen, if_pos hopen]
    exact acts_launch s io hopen
  · rw [if_neg hopen, if_neg hopen]
    by_cases hopens : io.opens = true
    · rw [if_pos hopens, if_pos hopens]
      exact (acts_openPart s).trans (acts_launch s.openPart io rfl)
    · rw [if_neg hopens, if_neg hopens]
      exact acts_fail s _

theorem acts_start (s : State) (io : Io) : Acts s (s.start io).1 (s.atStart io) := by
  unfold State.start State.atStart
  by_cases hbusy : s.phase = .downloading ∨ s.phase = .probing
  · rw [if_pos hbusy, if_pos hbusy]
    exact .refl s
  · rw [if_neg hbusy, if_neg hbusy]
    dsimp only
    by_cases hlayout : 0 < s.total ∧ s.segments ≠ []
    · rw [if_pos hlayout, if_pos hlayout]
      have hclear : Acts s { s with error := "" } [] := .of_frame rfl rfl rfl id
      exact hclear.trans (acts_beginSegments { s with error := "" } io)
    · rw [if_neg hlayout, if_neg hlayout]
      exact .of_frame rfl rfl rfl (by simp)

theorem acts_probeFinished (s : State) (p : ProbeReply) (io : Io) :
    Acts s (s.onProbeFinished p io).1 (s.touched (.probeFinished p io)) := by
  unfold State.onProbeFinished
  cases herror : p.error with
  | some why =>
      have hprobed : Acts s { s with probe := false } [] := .of_frame rfl rfl rfl id
      have htouched : s.touched (.probeFinished p io) = [] := by simp [State.touched, herror]
      rw [htouched]
      simp only
      exact hprobed.trans (acts_fail { s with probe := false } why)
  | none =>
      have htouched : s.touched (.probeFinished p io) = ((s.named p).planned p).atBegin io := by
        simp [State.touched, herror]
      rw [htouched]
      simp only
      have hplanned : Acts s (({ s with probe := false }.named p).planned p) [] :=
        .of_frame rfl rfl rfl id
      exact hplanned.trans (acts_beginSegments (({ s with probe := false }.named p).planned p) io)

theorem acts_readyRead (s : State) (idx : Nat) (g : Segment) (r : Reply) (chunk : Bytes) (io : Io) :
    ∃ paths, Acts s (s.onSegmentReadyRead idx g r chunk io).1 paths ∧
      (Attached s → ∀ p ∈ paths, s.fileOpen = true ∧ p = s.openName) := by
  unfold State.onSegmentReadyRead
  dsimp only
  by_cases hphase : s.phase ≠ .downloading
  · rw [if_pos hphase]
    exact ⟨[], .refl s, fun _ _ hp => absurd hp List.not_mem_nil⟩
  rw [if_neg hphase]
  by_cases hempty : chunk.isEmpty = true
  · rw [if_pos hempty]
    exact ⟨[], .of_frame rfl rfl rfl id, fun _ _ hp => absurd hp List.not_mem_nil⟩
  rw [if_neg hempty]
  refine ⟨[s.openName], ?_, fun hk p hp => ⟨hk.running (not_not.mp hphase), List.mem_singleton.mp hp⟩⟩
  have hput : ∀ content, Acts s (s.put s.openName content) [s.openName] := by
    intro content
    refine ⟨fun p hp => Disk.set_of_ne _ _ (List.mem_singleton.not.mp hp), fun ho => .inl ⟨ho, rfl⟩,
      fun hk => ⟨fun _ => ?_, hk.running⟩⟩
    have hself : (s.put s.openName content).disk s.openName = some content := Disk.set_self _ _ _
    exact (congrArg Option.isSome hself).trans rfl
  have hother : ∀ content, ∀ p ∉ [s.openName], s.disk.set s.openName content p = s.disk p :=
    fun _ p hp => Disk.set_of_ne _ _ (List.mem_singleton.not.mp hp)
  split_ifs
  · exact .of_closed (hother _) rfl nofun
  · exact .of_closed (hother _) rfl nofun
  · exact (hput _).trans (.of_frame rfl rfl rfl id)

theorem acts_segmentFinished {s : State} {idx : Nat} {g : Segment} {r : Reply}
    (hreply : replyOf s idx = some (g, r)) (error : Option String) (io : Io) :
    Acts s (s.onSegmentFinished idx g error io).1 (s.touched (.segmentFinished idx error io)) := by
  have htouched : s.touched (.segmentFinished idx error io) =
      if s.phase = .downloading ∧ error.isNone = true then
        ((s.setSegment idx { g with reply := none }).settleSize idx g).atCompletion
      else [] := by simp only [State.touched, hreply]
  rw [htouched]
  unfold State.onSegmentFinished
  dsimp only
  have hset : Acts s (s.setSegment idx { g with reply := none }) [] := .of_frame rfl rfl rfl id
  by_cases hphase : s.phase = .downloading
  · have hphase' : ¬ (s.setSegment idx { g with reply := none }).phase ≠ .downloading :=
      not_not.mpr hphase
    rw [if_neg hphase']
    cases error with
    | some why =>
        rw [if_neg (by simp)]
        exact hset.trans (acts_fail _ why)
    | none =>
        rw [if_pos ⟨hphase, rfl⟩]
        have hsettle : Acts (s.setSegment idx { g with reply := none })
            ((s.setSegment idx { g with reply := none }).settleSize idx g) [] := by
          unfold State.settleSize
          split_ifs
          · exact .of_frame rfl rfl rfl id
          · exact .refl _
        exact (hset.trans hsettle).trans (acts_maybeComplete _ io)
  · have hphase' : (s.setSegment idx { g with reply := none }).phase ≠ .downloading := hphase
    rw [if_pos hphase', if_neg fun h => hphase h.1]
    exact hset

theorem disk_cancel (s : State) (deletePartial : Bool) {p : Path}
    (hp : p ∉ s.touched (.cancel deletePartial)) : (s.cancel deletePartial).disk p = s.disk p := by
  unfold State.cancel State.touched at *
  cases deletePartial with
  | false => rfl
  | true => exact Disk.set_of_ne _ _ (List.mem_singleton.not.mp hp)

end Acts

end BATorrent.HttpDownload
