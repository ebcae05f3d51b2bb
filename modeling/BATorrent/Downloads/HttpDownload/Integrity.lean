import BATorrent.Downloads.HttpDownload
import Mathlib.Data.List.Forall2

namespace BATorrent.HttpDownload

open Lib
open Lib.FileBytes (Agree)
open RangePlan (ByteRange planSegments Tiles)

section Server

variable (res : Bytes)

-- Where the body of a reply starts in the resource: a 206 has the bytes asked for.
def Reply.bodyStart (r : Reply) : Option Nat :=
  if r.status = some 206 then some (if r.ranged then r.asked else 0)
  else if r.status = some 200 then some 0
  else none

-- A server of the resource: any status and any body, closed at any byte, but a 206 or a 200
-- means what it says.
def Honest (s : State) : Event → Prop
  | .probeFinished p _ =>
      p.error = none → p.code = 206 ∨ p.code = 200 → p.announced ≤ 0 ∨ p.announced = res.length
  | .readyRead idx chunk _ =>
      ∀ g r start, replyOf s idx = some (g, r) → r.bodyStart = some start →
        chunk <+: res.drop (start + r.read)
  | _ => True

-- The .part is there when bytes were received into it.
def KeepsPart (s : State) : Prop :=
  (∃ g ∈ s.segments, 0 < g.received) → s.fileOpen = true ∨ (s.disk s.partPath).isSome

-- A step that keeps the content right: the size is known from the probe, or the .part found is
-- the resource; what is read starts where it is written; what was received is still there.
def Sound (s : State) : Event → Prop
  | .start _ => s.phase ≠ .completed ∧ KeepsPart s
  | .resume _ => KeepsPart s
  | .probeFinished p _ =>
      p.error = none → 0 < p.announced ∧ p.announced = res.length ∨
        p.announced ≤ 0 ∧ (s.disk (s.named p).partPath).getD [] = res
  | .readyRead idx chunk _ =>
      s.phase = .downloading → chunk ≠ [] →
        ∀ g r, replyOf s idx = some (g, r) → r.bodyStart = some r.asked
  | _ => True

end Server

section Segments

-- A segment that has moved on.
def Segment.Advanced (a b : Segment) : Prop := a.range = b.range ∧ a.received ≤ b.received

theorem Segment.Advanced.refl (g : Segment) : g.Advanced g := ⟨rfl, Nat.le_refl _⟩

theorem forall₂_refl {α : Type*} {R : α → α → Prop} (h : ∀ a, R a a) (l : List α) :
    List.Forall₂ R l l := List.forall₂_same.mpr fun a _ => h a

theorem advanced_map {f : Segment → Segment} (h : ∀ g : Segment, g.Advanced (f g)) (l : List Segment) :
    List.Forall₂ Segment.Advanced l (l.map f) :=
  List.forall₂_map_right_iff.mpr (List.forall₂_same.mpr fun g _ => h g)

theorem advanced_set {l : List Segment} {idx : Nat} {g g' : Segment} (hg : l[idx]? = some g)
    (h : g.Advanced g') : List.Forall₂ Segment.Advanced l (l.set idx g') := by
  induction l generalizing idx with
  | nil => exact .nil
  | cons a l ih =>
      cases idx with
      | zero =>
          obtain rfl : a = g := by simpa using hg
          exact .cons h (forall₂_refl .refl l)
      | succ idx => exact .cons (.refl a) (ih (by simpa using hg))

theorem advanced_trans {a b c : List Segment} (hab : List.Forall₂ Segment.Advanced a b)
    (hbc : List.Forall₂ Segment.Advanced b c) : List.Forall₂ Segment.Advanced a c := by
  induction hab generalizing c with
  | nil => exact hbc
  | cons h _ ih =>
      cases hbc with
      | cons h' hrest => exact .cons ⟨h.1.trans h'.1, Nat.le_trans h.2 h'.2⟩ (ih hrest)

theorem map_range_eq {a b : List Segment} (h : List.Forall₂ Segment.Advanced a b) :
    b.map Segment.range = a.map Segment.range := by
  induction h with
  | nil => rfl
  | cons h _ ih => rw [List.map_cons, List.map_cons, ih, h.1]

end Segments

theorem partPath_ne_finalPath (s : State) : s.partPath ≠ s.finalPath := by
  intro h
  have := congrArg List.length h
  simp [State.partPath] at this

section Invariant

variable (res : Bytes)

-- What the file and the segments say of each other, at any point of a step.
structure Core (s : State) : Prop where
  layout : s.total ≤ 0 ∧ s.fileOpen = false ∧
      (∀ g ∈ s.segments, g.received = 0 ∧ g.reply = none) ∨
    s.total = res.length ∧ 0 < res.length ∧ Tiles 0 res.length (s.segments.map Segment.range)
  opened : s.fileOpen = true →
    s.openName = s.partPath ∧ ∃ b, s.disk s.partPath = some b ∧ b.length = res.length
  written : ∀ b, s.disk s.partPath = some b → ∀ g ∈ s.segments,
    Agree b res g.range.start g.received
  replies : ∀ g ∈ s.segments, ∀ r, g.reply = some r → r.asked + r.read = g.writeAt

structure Good (s : State) : Prop extends Core res s where
  running : s.gone = false → s.phase = .downloading → s.fileOpen = true
  probing : s.probe = true → s.phase = .probing ∧ s.total ≤ 0
  completed : s.phase = .completed → s.disk s.finalPath = some res

-- What a step may do to a download whose size is known, and to one that is complete.
structure Grows (s s' : State) : Prop where
  kept : 0 < s.total → s'.total = s.total ∧ s'.fileName = s.fileName ∧
    List.Forall₂ Segment.Advanced s.segments s'.segments
  completed : s.phase = .completed → s'.phase = .completed ∧ s'.fileName = s.fileName
  sidecar : s'.sidecar = s.sidecar

variable {res}

theorem Grows.refl (s : State) : Grows s s :=
  ⟨fun _ => ⟨rfl, rfl, forall₂_refl .refl _⟩, fun h => ⟨h, rfl⟩, rfl⟩

theorem Core.known {s : State} (h : Core res s) (ht : 0 < s.total) :
    s.total = res.length ∧ 0 < res.length ∧ Tiles 0 res.length (s.segments.map Segment.range) :=
  h.layout.resolve_left fun hl => by omega

-- Full segments make a full file.
theorem Core.content_eq {s : State} (h : Core res s) (ht : 0 < s.total) {b : Bytes}
    (hb : s.disk s.partPath = some b) (hlen : b.length = res.length)
    (hdone : s.segments.all Segment.done) : b = res := by
  refine FileBytes.eq_of_agree hlen fun i hi => ?_
  obtain ⟨r, hr, hlo, hhi⟩ := (h.known ht).2.2.exists_mem (Nat.zero_le i) hi
  obtain ⟨g, hg, rfl⟩ := List.mem_map.mp hr
  have hfull : g.range.size ≤ g.received := by
    simpa [Segment.done] using List.all_eq_true.mp hdone g hg
  refine h.written b hb g hg i hlo ?_
  simp only [ByteRange.size] at hfull
  omega

theorem core_abortReplies {s : State} (h : Core res s) : Core res s.abortReplies where
  layout := by
    refine h.layout.imp (fun ⟨ht, ho, hall⟩ => ⟨ht, ho, ?_⟩) (fun ⟨ht, hpos, htiles⟩ => ⟨ht, hpos, ?_⟩)
    · intro g hg
      obtain ⟨g', hg', rfl⟩ := List.mem_map.mp hg
      exact ⟨(hall g' hg').1, rfl⟩
    · simpa [State.abortReplies, Function.comp_def] using htiles
  opened := h.opened
  written := by
    intro b hb g hg
    obtain ⟨g', hg', rfl⟩ := List.mem_map.mp hg
    exact h.written b hb g' hg'
  replies := by
    intro g hg r hr
    obtain ⟨g', hg', rfl⟩ := List.mem_map.mp hg
    simp at hr

-- A step that leaves the part, the size and the segments alone.
theorem Core.frame {s s' : State} (h : Core res s)
    (hdisk : s'.disk s'.partPath = s.disk s.partPath) (htotal : s'.total = s.total)
    (hsegments : s'.segments = s.segments) (hopen : s'.fileOpen = true → s.fileOpen = true)
    (hname : s'.openName = s.openName) (hpath : s'.partPath = s.partPath) : Core res s' where
  layout := by
    rw [htotal, hsegments]
    refine h.layout.imp_left fun ⟨ht, ho, hall⟩ => ⟨ht, ?_, hall⟩
    cases hc : s'.fileOpen with
    | false => rfl
    | true => simp [hopen hc] at ho
  opened ho := by
    rw [hdisk, hname, hpath]
    exact h.opened (hopen ho)
  written := by
    rw [hdisk, hsegments]
    exact h.written
  replies := by
    rw [hsegments]
    exact h.replies

theorem good_fail {s : State} (h : Core res s) (why : String) : Good res (s.fail why).1 where
  toCore := (core_abortReplies h).frame rfl rfl rfl (by simp [State.fail]) rfl rfl
  running := by simp [State.fail]
  probing := by simp [State.fail, State.abortReplies]
  completed := by simp [State.fail]

theorem advanced_noReply (l : List Segment) :
    List.Forall₂ Segment.Advanced l (l.map fun g => { g with reply := none }) := by
  apply advanced_map
  exact fun g => ⟨rfl, Nat.le_refl _⟩

theorem grows_fail {s : State} (h : s.phase ≠ .completed) (why : String) :
    Grows s (s.fail why).1 :=
  ⟨fun _ => ⟨rfl, rfl, advanced_noReply _⟩, fun hc => absurd hc h, rfl⟩

theorem finalize_cases (s : State) (io : Io) :
    (∃ why, s.finalize io = { s with disk := s.disk.set s.finalPath none }.fail why) ∨
    (∃ content, s.disk s.partPath = some content ∧
      s.finalize io =
        ({ s with
            disk := ((s.disk.set s.finalPath none).set s.finalPath (some content)).set s.partPath none
            phase := .completed }, [.finished true])) := by
  have hpart : (s.disk.set s.finalPath none) s.partPath = s.disk s.partPath :=
    s.disk.set_of_ne none (partPath_ne_finalPath s)
  unfold State.finalize
  simp only
  split
  · rename_i content hcontent hrenames
    exact .inr ⟨content, hpart ▸ hcontent, rfl⟩
  · exact .inl ⟨_, rfl⟩

-- Either a segment is left, or the download fails, or its part becomes the final file.
theorem maybeComplete_cases (s : State) (io : Io) :
    (¬ s.segments.all Segment.done ∧ s.maybeComplete io = (s, [])) ∨
    (∃ disk why, disk s.partPath = s.disk s.partPath ∧
      s.maybeComplete io = { s with disk := disk }.fail why) ∨
    (∃ content, s.segments.all Segment.done ∧ s.disk s.partPath = some content ∧
      s.maybeComplete io =
        ({ s with
            fileOpen := false
            disk := ((s.disk.set s.finalPath none).set s.finalPath (some content)).set s.partPath none
            phase := .completed }, [.finished true])) := by
  by_cases hdone : s.segments.all Segment.done
  case neg => exact .inl ⟨hdone, by rw [State.maybeComplete, if_neg hdone]⟩
  rw [State.maybeComplete, if_pos hdone]
  by_cases hsize : 0 < s.total ∧ (s.receivedBytes : Int) ≠ s.total
  · rw [if_pos hsize]
    exact .inr (.inl ⟨s.disk, _, rfl, rfl⟩)
  · rw [if_neg hsize]
    rcases finalize_cases { s with fileOpen := false } io with ⟨why, hs⟩ | ⟨content, hc, hs⟩
    · have hpart := s.disk.set_of_ne none (partPath_ne_finalPath s)
      exact .inr (.inl ⟨_, why, hpart, hs⟩)
    · exact .inr (.inr ⟨content, hdone, hc, hs⟩)

theorem good_completed {s : State} (h : Core res s) (hprobe : s.probe = false) :
    Good res { s with
      fileOpen := false
      disk := ((s.disk.set s.finalPath none).set s.finalPath (some res)).set s.partPath none
      phase := .completed } where
  layout := h.layout.imp_left fun ⟨ht, _, hall⟩ => ⟨ht, rfl, hall⟩
  opened := by simp
  written := by
    intro b hb
    have hnone : (((s.disk.set s.finalPath none).set s.finalPath (some res)).set s.partPath none)
        s.partPath = some b := hb
    simp at hnone
  replies := h.replies
  running := by simp
  probing := by simp [hprobe]
  completed := by
    intro _
    show ((s.disk.set s.finalPath none).set s.finalPath (some res)).set s.partPath none
      s.finalPath = some res
    rw [Disk.set_of_ne _ _ (partPath_ne_finalPath s).symm, Disk.set_self]

theorem good_maybeComplete {s : State} (h : Core res s) (ht : 0 < s.total)
    (hopen : s.fileOpen = true) (hprobe : s.probe = false) (io : Io)
    (hphase : s.phase = .downloading) : Good res (s.maybeComplete io).1 := by
  rcases maybeComplete_cases s io with
    ⟨-, hs⟩ | ⟨disk, why, hdisk, hs⟩ | ⟨content, hdone, hc, hs⟩
  · rw [hs]
    exact ⟨h, fun _ _ => hopen, by simp [hprobe], by simp [hphase]⟩
  · rw [hs]
    have hcore : Core res { s with disk := disk } := h.frame hdisk rfl rfl id rfl rfl
    exact good_fail hcore why
  · obtain ⟨-, b, hb, hlen⟩ := h.opened hopen
    obtain rfl : b = content := Option.some.inj (hb.symm.trans hc)
    obtain rfl := h.content_eq ht hb hlen hdone
    rw [hs]
    exact good_completed h hprobe

theorem grows_maybeComplete {s : State} (hphase : s.phase = .downloading) (io : Io) :
    Grows s (s.maybeComplete io).1 := by
  rcases maybeComplete_cases s io with
    ⟨-, hs⟩ | ⟨disk, why, hdisk, hs⟩ | ⟨content, hdone, hc, hs⟩
  · rw [hs]
    exact .refl s
  · rw [hs]
    exact ⟨fun _ => ⟨rfl, rfl, advanced_noReply _⟩, by simp [hphase], rfl⟩
  · rw [hs]
    exact ⟨fun _ => ⟨rfl, rfl, forall₂_refl .refl _⟩, by simp [hphase], rfl⟩

theorem Grows.trans {s s' s'' : State} (h : Grows s s') (h' : Grows s' s'') : Grows s s'' where
  kept ht := by
    obtain ⟨htotal, hname, hseg⟩ := h.kept ht
    obtain ⟨htotal', hname', hseg'⟩ := h'.kept (htotal ▸ ht)
    exact ⟨htotal'.trans htotal, hname'.trans hname, advanced_trans hseg hseg'⟩
  completed hc := by
    obtain ⟨hphase, hname⟩ := h.completed hc
    obtain ⟨hphase', hname'⟩ := h'.completed hphase
    exact ⟨hphase', hname'.trans hname⟩
  sidecar := h'.sidecar.trans h.sidecar

theorem spawnSegment_cases (s : State) (g : Segment) :
    s.spawnSegment g = g ∨
    ∃ r : Reply, r.asked = g.writeAt ∧ r.read = 0 ∧ s.spawnSegment g = { g with reply := some r } := by
  unfold State.spawnSegment
  split_ifs
  · exact .inl rfl
  · exact .inr ⟨_, rfl, rfl, rfl⟩

theorem advanced_spawnAll (s : State) :
    List.Forall₂ Segment.Advanced s.segments s.spawnAll.segments := by
  apply advanced_map
  intro g
  rcases spawnSegment_cases s g with hg | ⟨r, -, -, hg⟩
  · rw [hg]
    exact .refl g
  · rw [hg]
    exact ⟨rfl, Nat.le_refl _⟩

theorem core_spawnAll {s : State} (h : Core res s) (ht : 0 < s.total) : Core res s.spawnAll where
  layout := by
    right
    obtain ⟨htotal, hpos, htiles⟩ := h.known ht
    exact ⟨htotal, hpos, (map_range_eq (advanced_spawnAll s)).symm ▸ htiles⟩
  opened := h.opened
  written := by
    intro b hb g' hg'
    obtain ⟨g, hg, rfl⟩ := List.mem_map.mp hg'
    rcases spawnSegment_cases s g with heq | ⟨r, -, -, heq⟩
    · rw [heq]
      exact h.written b hb g hg
    · rw [heq]
      exact h.written b hb g hg
  replies := by
    intro g' hg' r hr
    obtain ⟨g, hg, rfl⟩ := List.mem_map.mp hg'
    rcases spawnSegment_cases s g with heq | ⟨r', hasked, hread, heq⟩
    · rw [heq] at hr ⊢
      exact h.replies g hg r hr
    · rw [heq] at hr ⊢
      obtain rfl : r' = r := Option.some.inj hr
      rw [hasked, hread]
      rfl

theorem good_launch {s : State} (h : Core res s) (ht : 0 < s.total) (hopen : s.fileOpen = true)
    (hprobe : s.probe = false) (io : Io) : Good res (s.launch io).1 := by
  have hcore : Core res { s with phase := .downloading, stallRetried := false } :=
    h.frame rfl rfl rfl id rfl rfl
  exact good_maybeComplete (core_spawnAll hcore ht) ht hopen hprobe io rfl

theorem grows_launch {s : State} (hphase : s.phase ≠ .completed) (io : Io) :
    Grows s (s.launch io).1 := by
  have hspawned : Grows s ({ s with phase := .downloading, stallRetried := false } : State).spawnAll :=
    ⟨fun _ => ⟨rfl, rfl, advanced_spawnAll _⟩, fun hc => absurd hc hphase, rfl⟩
  exact hspawned.trans (grows_maybeComplete rfl io)

theorem length_opened {s : State} (h : Core res s) (ht : 0 < s.total) :
    s.opened.length = res.length := by
  have htotal := (h.known ht).1
  unfold State.opened
  simp only
  split_ifs with hresize
  · rw [FileBytes.length_resize, htotal, Int.toNat_natCast]
  · by_contra hne
    exact hresize ⟨ht, by omega⟩

theorem core_openPart {s : State} (h : Core res s) (ht : 0 < s.total)
    (hclosed : s.fileOpen = false) (hkeeps : KeepsPart s) : Core res s.openPart where
  layout := .inr (h.known ht)
  opened _ := ⟨rfl, s.opened, Disk.set_self _ _ _, length_opened h ht⟩
  written := by
    intro b hb g hg
    obtain rfl : s.opened = b := Option.some.inj ((Disk.set_self _ _ _).symm.trans hb)
    cases hpart : s.disk s.partPath with
    | none =>
        have hzero : g.received = 0 := by
          by_contra hne
          have hthere := hkeeps ⟨g, hg, by omega⟩
          simp [hclosed, hpart] at hthere
        rw [hzero]
        exact FileBytes.agree_nil _ _ _
    | some b =>
        have hagree := h.written b hpart g hg
        unfold State.opened
        rw [hpart, Option.getD_some]
        simp only
        split_ifs
        · rw [(h.known ht).1, Int.toNat_natCast]
          exact hagree.resize 0
        · exact hagree
  replies := h.replies

theorem good_beginSegments {s : State} (h : Core res s) (ht : 0 < s.total)
    (hkeeps : KeepsPart s) (hprobe : s.probe = false) (io : Io) :
    Good res (s.beginSegments io).1 := by
  unfold State.beginSegments
  split_ifs with hopen
  · exact good_launch h ht hopen hprobe io
  · exact good_launch (core_openPart h ht (by simpa using hopen) hkeeps) ht rfl hprobe io
  · exact good_fail h _

theorem grows_beginSegments {s : State} (hphase : s.phase ≠ .completed) (io : Io) :
    Grows s (s.beginSegments io).1 := by
  unfold State.beginSegments
  split_ifs
  · exact grows_launch hphase io
  · have hopened : Grows s s.openPart := ⟨fun _ => ⟨rfl, rfl, forall₂_refl .refl _⟩, fun hc => ⟨hc, rfl⟩, rfl⟩
    exact hopened.trans (grows_launch (s := s.openPart) hphase io)
  · exact grows_fail hphase _

-- Without a size nothing is fetched: the part as it is becomes the file.
theorem good_beginSegments_unknown {s : State} (h : Core res s) (ht : s.total ≤ 0)
    (hdone : ∀ g ∈ s.segments, g.done) (hpart : (s.disk s.partPath).getD [] = res)
    (hprobe : s.probe = false) (io : Io) : Good res (s.beginSegments io).1 := by
  obtain ⟨-, hclosed, hall⟩ := h.layout.resolve_right fun hr => by omega
  have hspawn : s.segments.map s.spawnSegment = s.segments := by
    refine List.map_congr_left (g := id) (fun g hg => ?_) |>.trans (List.map_id _)
    rw [State.spawnSegment, if_pos (.inr (hdone g hg)), id]
  have hopened : s.opened = res := by
    rw [State.opened, if_neg (fun hc => absurd hc.1 (by omega)), hpart]
  rw [State.beginSegments, if_neg (by simp [hclosed])]
  split_ifs
  case neg => exact good_fail h _
  have hcore : Core res { s.openPart with
      phase := .downloading
      stallRetried := false
      fileOpen := false } := by
    refine ⟨.inl ⟨ht, rfl, hall⟩, by simp, ?_, h.replies⟩
    intro b _ g hg
    rw [(hall g hg).1]
    exact FileBytes.agree_nil _ _ _
  have hlaunch : s.openPart.launch io =
      State.maybeComplete { s.openPart with phase := .downloading, stallRetried := false } io := by
    exact congrArg (fun l => State.maybeComplete
      { s.openPart with phase := .downloading, stallRetried := false, segments := l } io) hspawn
  rw [hlaunch]
  rcases maybeComplete_cases { s.openPart with phase := .downloading, stallRetried := false } io with
    ⟨hnot, -⟩ | ⟨disk, why, hdisk, hs⟩ | ⟨content, -, hc, hs⟩
  · exact absurd (List.all_eq_true.mpr hdone) hnot
  · rw [hs]
    have hclosed : Core res { s.openPart with
        phase := .downloading
        stallRetried := false
        fileOpen := false
        disk := disk } := hcore.frame hdisk rfl rfl id rfl rfl
    exact good_fail hclosed why
  · have hself : s.openPart.disk s.openPart.partPath = some s.opened := Disk.set_self _ _ _
    obtain rfl : s.opened = content := Option.some.inj (hself.symm.trans hc)
    rw [hs, hopened]
    exact good_completed (s := { s.openPart with
      phase := .downloading
      stallRetried := false
      fileOpen := false }) hcore hprobe

theorem tiles_planned {p : ProbeReply} {s : State} (hpos : 0 < p.announced) :
    Tiles 0 p.announced.toNat ((s.planned p).segments.map Segment.range) := by
  have hranges : (s.planned p).segments.map Segment.range =
      if p.code = 206 ∧ 0 < p.announced then planSegments p.announced kConns
      else [⟨0, if 0 < p.announced then p.announced - 1 else -1⟩] := by
    simp only [State.planned, List.map_map]
    exact List.map_id _
  rw [hranges]
  split_ifs
  · exact RangePlan.planSegments_tiles hpos kConns
  · exact .cons (by omega) (by omega) (.nil _)

theorem planned_fresh (s : State) (p : ProbeReply) :
    ∀ g ∈ (s.planned p).segments, g.received = 0 ∧ g.reply = none := by
  intro g hg
  obtain ⟨r, -, rfl⟩ := List.mem_map.mp hg
  exact ⟨rfl, rfl⟩

theorem good_planned {s : State} (hclosed : s.fileOpen = false) (hprobe : s.probe = false)
    {p : ProbeReply} (hsize : 0 < p.announced ∧ p.announced = res.length ∨
      p.announced ≤ 0 ∧ (s.disk s.partPath).getD [] = res) (io : Io) :
    Good res ((s.planned p).beginSegments io).1 := by
  have hfresh := planned_fresh s p
  have hopened : (s.planned p).fileOpen = true → (s.planned p).openName = (s.planned p).partPath ∧
      ∃ b, (s.planned p).disk (s.planned p).partPath = some b ∧ b.length = res.length := fun ho => by simp [State.planned, hclosed] at ho
  have hwritten : ∀ b, (s.planned p).disk (s.planned p).partPath = some b →
      ∀ g ∈ (s.planned p).segments, Agree b res g.range.start g.received := fun b _ g hg =>
    (hfresh g hg).1 ▸ FileBytes.agree_nil _ _ _
  have hreplies : ∀ g ∈ (s.planned p).segments, ∀ r, g.reply = some r → r.asked + r.read = g.writeAt := by
    intro g hg r hr
    simp [(hfresh g hg).2] at hr
  rcases hsize with ⟨hpos, heq⟩ | ⟨hle, hpart⟩
  · have htiles := tiles_planned (s := s) hpos
    rw [heq, Int.toNat_natCast] at htiles
    have hcore : Core res (s.planned p) :=
      ⟨.inr ⟨heq, by omega, htiles⟩, hopened, hwritten, hreplies⟩
    refine good_beginSegments hcore hpos ?_ hprobe io
    rintro ⟨g, hg, hreceived⟩
    have := (hfresh g hg).1
    omega
  · have hcore : Core res (s.planned p) := ⟨.inl ⟨hle, hclosed, hfresh⟩, hopened, hwritten, hreplies⟩
    refine good_beginSegments_unknown hcore hle ?_ hpart hprobe io
    intro g hg
    have hnot : ¬ (p.code = 206 ∧ 0 < p.announced) := fun hc => by omega
    have hnone : ¬ 0 < p.announced := by omega
    simp only [State.planned, if_neg hnot, if_neg hnone, List.map_cons, List.map_nil,
      List.mem_singleton] at hg
    rw [hg]
    rfl

theorem good_probeFinished {s : State} (h : Good res s) (hprobe : s.probe = true)
    {p : ProbeReply} {io : Io} (hsound : Sound res s (.probeFinished p io)) :
    Good res (s.onProbeFinished p io).1 ∧ Grows s (s.onProbeFinished p io).1 := by
  obtain ⟨hphase, htotal⟩ := h.probing hprobe
  obtain ⟨-, hclosed, -⟩ := h.layout.resolve_right fun hr => by omega
  have hno : s.phase ≠ .completed := by simp [hphase]
  have hgrows : ∀ s' : State, s'.sidecar = s.sidecar → Grows s s' := fun s' hs' =>
    ⟨fun ht => absurd ht (by omega), fun hc => absurd hc hno, hs'⟩
  unfold State.onProbeFinished
  cases herror : p.error with
  | some why => exact ⟨good_fail (h.toCore.frame rfl rfl rfl id rfl rfl) why, hgrows _ rfl⟩
  | none =>
      have hbegun := grows_beginSegments (s := (({ s with probe := false } : State).named p).planned p)
        hno io
      refine ⟨?_, hgrows _ hbegun.sidecar⟩
      exact good_planned (s := ({ s with probe := false } : State).named p) hclosed rfl
        (hsound herror) io

theorem good_start {s : State} (h : Good res s) (hphase : s.phase ≠ .completed)
    (hkeeps : KeepsPart s) (io : Io) : Good res (s.start io).1 ∧ Grows s (s.start io).1 := by
  unfold State.start
  split_ifs with hbusy
  · exact ⟨h, .refl s⟩
  have hcore : Core res { s with error := "" } := h.toCore.frame rfl rfl rfl id rfl rfl
  have hprobe : s.probe = false := by
    by_contra hp
    exact hbusy (.inr (h.probing (by simpa using hp)).1)
  have hcleared : Grows s { s with error := "" } :=
    ⟨fun _ => ⟨rfl, rfl, forall₂_refl .refl _⟩, fun hc => ⟨hc, rfl⟩, rfl⟩
  simp only
  split_ifs with hknown
  · exact ⟨good_beginSegments hcore hknown.1 hkeeps hprobe io,
      hcleared.trans (grows_beginSegments (s := { s with error := "" }) hphase io)⟩
  · have htotal : s.total ≤ 0 := by
      by_contra ht
      obtain ⟨-, hpos, htiles⟩ := h.known (by omega)
      refine hknown ⟨by simpa using ht, fun hnil => ?_⟩
      obtain ⟨r, hr, -⟩ := htiles.exists_mem (Nat.le_refl 0) hpos
      rw [show s.segments = [] from hnil] at hr
      simp at hr
    exact ⟨⟨h.toCore.frame rfl rfl rfl id rfl rfl, by simp, fun _ => ⟨rfl, htotal⟩, by simp⟩,
      ⟨fun ht => absurd ht (by omega), fun hc => absurd hc hphase, rfl⟩⟩

theorem replyOf_some {s : State} {idx : Nat} {g : Segment} {r : Reply}
    (h : replyOf s idx = some (g, r)) : s.segments[idx]? = some g ∧ g.reply = some r := by
  obtain ⟨g', hg', hr⟩ := Option.bind_eq_some_iff.mp h
  obtain ⟨r', hr', heq⟩ := Option.map_eq_some_iff.mp hr
  obtain ⟨rfl, rfl⟩ := Prod.ext_iff.mp heq
  exact ⟨hg', hr'⟩

-- Bytes come for a download whose size is known only.
theorem Core.total_pos {s : State} (h : Core res s) {g : Segment} {r : Reply} (hg : g ∈ s.segments)
    (hr : g.reply = some r) : 0 < s.total := by
  rcases h.layout with ⟨-, -, hall⟩ | ⟨htotal, hpos, -⟩
  · have := (hall g hg).2
    simp [hr] at this
  · omega

theorem core_setSegment {s : State} (h : Core res s) (ht : 0 < s.total) {idx : Nat}
    {g g' : Segment} (hg : s.segments[idx]? = some g) (hadvanced : g.Advanced g')
    (hwritten : ∀ b, s.disk s.partPath = some b → Agree b res g'.range.start g'.received)
    (hreply : ∀ r, g'.reply = some r → r.asked + r.read = g'.writeAt) :
    Core res (s.setSegment idx g') where
  layout := by
    right
    obtain ⟨htotal, hpos, htiles⟩ := h.known ht
    exact ⟨htotal, hpos, (map_range_eq (advanced_set hg hadvanced)).symm ▸ htiles⟩
  opened := h.opened
  written := by
    intro b hb a ha
    rcases List.mem_or_eq_of_mem_set ha with ha | rfl
    · exact h.written b hb a ha
    · exact hwritten b hb
  replies := by
    intro a ha r hr
    rcases List.mem_or_eq_of_mem_set ha with ha | rfl
    · exact h.replies a ha r hr
    · exact hreply r hr

theorem grows_setSegment (s : State) {idx : Nat} {g g' : Segment}
    (hg : s.segments[idx]? = some g) (hadvanced : g.Advanced g') : Grows s (s.setSegment idx g') :=
  ⟨fun _ => ⟨rfl, rfl, advanced_set hg hadvanced⟩, fun hc => ⟨hc, rfl⟩, rfl⟩

theorem Good.of_core {s s' : State} (h : Good res s) (hcore : Core res s') (hgone : s'.gone = s.gone)
    (hphase : s'.phase = s.phase) (hopen : s'.fileOpen = s.fileOpen) (hprobe : s'.probe = s.probe)
    (htotal : s'.total = s.total) (hfinal : s'.disk s'.finalPath = s.disk s.finalPath) :
    Good res s' where
  toCore := hcore
  running hg hp := hopen ▸ h.running (hgone ▸ hg) (hphase ▸ hp)
  probing hp := by
    rw [hphase, htotal]
    exact h.probing (hprobe ▸ hp)
  completed hp := hfinal ▸ h.completed (hphase ▸ hp)

-- A reply that learns its status, is read of nothing, or leaves.
theorem good_setReply {s : State} (h : Good res s) {idx : Nat} {g : Segment} {r : Reply}
    (hg : s.segments[idx]? = some g) (hr : g.reply = some r) {reply : Option Reply}
    (hreply : ∀ r', reply = some r' → r'.asked = r.asked ∧ r'.read = r.read) :
    Good res (s.setSegment idx { g with reply := reply }) := by
  have hmem := List.mem_of_getElem? hg
  refine h.of_core (core_setSegment h.toCore (h.total_pos hmem hr) hg ⟨rfl, Nat.le_refl _⟩ ?_ ?_)
    rfl rfl rfl rfl rfl rfl
  · exact fun b hb => h.written b hb g hmem
  · intro r' hr'
    obtain ⟨hasked, hread⟩ := hreply r' hr'
    rw [hasked, hread]
    exact h.replies g hmem r hr

theorem good_headersArrive {s s' : State} (h : Good res s) {idx status : Nat} {out : List Out}
    (hn : s.headersArrive idx status = some (s', out)) : Good res s' ∧ Grows s s' := by
  unfold State.headersArrive at hn
  cases hg : s.segments[idx]? with
  | none => simp [hg] at hn
  | some g =>
      cases hr : g.reply with
      | none => simp [hg, hr] at hn
      | some r =>
          simp only [hg, hr] at hn
          split_ifs at hn
          obtain ⟨rfl, -⟩ := Prod.ext_iff.mp (Option.some.inj hn)
          refine ⟨good_setReply h hg hr ?_, grows_setSegment s hg ⟨rfl, Nat.le_refl _⟩⟩
          rintro r' ⟨⟩
          exact ⟨rfl, rfl⟩

theorem core_write {s : State} (h : Core res s) {b chunk : Bytes}
    (hname : s.openName = s.partPath) (hb : s.disk s.partPath = some b) (hlen : b.length = res.length)
    {offset : Nat} (hoffset : offset ≤ res.length) (hchunk : chunk <+: res.drop offset) :
    Core res (s.put s.partPath (FileBytes.writeAt b 0 offset chunk)) where
  layout := h.layout
  opened _ := by
    refine ⟨hname, _, Disk.set_self _ _ _, ?_⟩
    have hfit := hchunk.length_le
    rw [List.length_drop] at hfit
    rw [FileBytes.length_writeAt (by omega), hlen]
  written := by
    intro b' hb' g hg
    obtain rfl := Option.some.inj ((Disk.set_self _ _ _).symm.trans hb')
    exact (h.written b hb g hg).writeAt 0 (by omega) hchunk
  replies := h.replies

theorem good_readyRead {s : State} (h : Good res s) (hgone : s.gone = false) {idx : Nat}
    {g : Segment} {r : Reply} {chunk : Bytes} {io : Io} (hreply : replyOf s idx = some (g, r))
    (hhonest : Honest res s (.readyRead idx chunk io))
    (hsound : Sound res s (.readyRead idx chunk io)) :
    Good res (s.onSegmentReadyRead idx g r chunk io).1 ∧
      Grows s (s.onSegmentReadyRead idx g r chunk io).1 := by
  obtain ⟨hg, hr⟩ := replyOf_some hreply
  have hmem := List.mem_of_getElem? hg
  have ht := h.total_pos hmem hr
  unfold State.onSegmentReadyRead
  simp only
  by_cases hphase : s.phase = .downloading
  case neg =>
    rw [if_pos hphase]
    exact ⟨h, .refl s⟩
  rw [if_neg (not_not.mpr hphase)]
  by_cases hempty : chunk.isEmpty
  · have hnil := List.isEmpty_iff.mp hempty
    rw [if_pos hempty]
    refine ⟨good_setReply h hg hr ?_, grows_setSegment s hg ⟨rfl, Nat.le_refl _⟩⟩
    rintro r' ⟨⟩
    exact ⟨rfl, by simp [hnil]⟩
  rw [if_neg hempty]
  have hchunk : chunk ≠ [] := fun hnil => hempty (by simp [hnil])
  -- The body starts where the segment asked, so the chunk is the resource's at the write.
  have hstart := hsound hphase hchunk g r hreply
  have hat : chunk <+: res.drop g.writeAt := by
    have := hhonest g r _ hreply hstart
    rwa [h.replies g hmem r hr] at this
  have hoffset : g.writeAt ≤ res.length := by
    have hlen := hat.length_le
    have := List.length_pos_iff.mpr hchunk
    rw [List.length_drop] at hlen
    omega
  obtain ⟨hname, b, hb, hblen⟩ := h.opened (h.running hgone hphase)
  have hwritten := core_write h.toCore hname hb hblen hoffset ((chunk.take_prefix io.written).trans hat)
  have hno : s.phase ≠ .completed := by simp [hphase]
  rw [hname, hb, Option.getD_some]
  by_cases hshort : io.written < chunk.length
  · rw [if_pos hshort]
    exact ⟨good_fail hwritten _, ⟨fun _ => ⟨rfl, rfl, advanced_noReply _⟩, fun hc => absurd hc hno, rfl⟩⟩
  rw [if_neg hshort]
  have hadvanced : g.Advanced
      { g with
        received := g.received + chunk.length
        reply := some { r with read := r.read + chunk.length } } :=
    ⟨rfl, Nat.le_add_right _ _⟩
  have hgrows : Grows s
      ((s.put s.partPath (FileBytes.writeAt b 0 g.writeAt (chunk.take io.written))).setSegment idx _) :=
    ⟨fun _ => ⟨rfl, rfl, advanced_set hg hadvanced⟩, fun hc => absurd hc hno, rfl⟩
  have hcore := core_setSegment hwritten ht hg hadvanced ?_ ?_
  · by_cases hover : 0 ≤ g.range.last ∧ ((g.writeAt + chunk.length : Nat) : Int) > g.range.last + 1
    · rw [if_pos hover]
      refine ⟨good_fail hcore _, hgrows.trans (grows_fail ?_ _)⟩
      exact hno
    · rw [if_neg hover]
      refine ⟨h.of_core hcore rfl rfl rfl rfl rfl ?_, hgrows⟩
      exact Disk.set_of_ne _ _ (partPath_ne_finalPath s).symm
  · intro b' hb'
    have hold := hwritten.written b' hb' g hmem
    obtain rfl := Option.some.inj ((Disk.set_self _ _ _).symm.trans hb')
    rw [List.take_of_length_le (by omega)] at hold ⊢
    exact hold.append (FileBytes.agree_writeAt 0 (by omega) hat)
  · rintro r' ⟨⟩
    have := h.replies g hmem r hr
    simp only [Segment.writeAt] at this ⊢
    omega

theorem good_segmentFinished {s : State} (h : Good res s) (hgone : s.gone = false) {idx : Nat}
    {g : Segment} {r : Reply} (hreply : replyOf s idx = some (g, r)) (error : Option String)
    (io : Io) :
    Good res (s.onSegmentFinished idx g error io).1 ∧
      Grows s (s.onSegmentFinished idx g error io).1 := by
  obtain ⟨hg, hr⟩ := replyOf_some hreply
  have ht := h.total_pos (List.mem_of_getElem? hg) hr
  have hgood : Good res (s.setSegment idx { g with reply := none }) := good_setReply h hg hr (by simp)
  have hgrows : Grows s (s.setSegment idx { g with reply := none }) :=
    grows_setSegment s hg ⟨rfl, Nat.le_refl _⟩
  unfold State.onSegmentFinished
  simp only
  split_ifs with hother
  · exact ⟨hgood, hgrows⟩
  have hphase : s.phase = .downloading := not_not.mp hother
  have hno : s.phase ≠ .completed := by simp [hphase]
  cases error with
  | some why =>
      exact ⟨good_fail hgood.toCore why, hgrows.trans (grows_fail (s := s.setSegment idx _) hno why)⟩
  | none =>
      have hsettled : (s.setSegment idx { g with reply := none }).settleSize idx g =
          s.setSegment idx { g with reply := none } := by
        have hnot : ¬ (s.total ≤ 0 ∧ g.range.last < 0) := by omega
        exact if_neg hnot
      simp only [hsettled]
      have hprobe : s.probe = false := by
        by_contra hp
        have := (h.probing (by simpa using hp)).1
        simp [hphase] at this
      exact ⟨good_maybeComplete hgood.toCore ht (h.running hgone hphase) hprobe io hphase,
        hgrows.trans (grows_maybeComplete (s := s.setSegment idx _) hphase io)⟩

theorem good_stalled {s : State} (h : Good res s) (hgone : s.gone = false)
    (hphase : s.phase = .downloading) : Good res s.stalled.1 ∧ Grows s s.stalled.1 := by
  have hno : s.phase ≠ .completed := by simp [hphase]
  unfold State.stalled
  split_ifs
  · exact ⟨good_fail h.toCore _, grows_fail hno _⟩
  · have ht : 0 < s.total := by
      rcases h.layout with ⟨-, hclosed, -⟩ | ⟨htotal, hpos, -⟩
      · simp [h.running hgone hphase] at hclosed
      · omega
    have hcore : Core res { s with stallRetried := true } := h.toCore.frame rfl rfl rfl id rfl rfl
    exact ⟨h.of_core (core_spawnAll hcore ht) rfl rfl rfl rfl rfl rfl,
      ⟨fun _ => ⟨rfl, rfl, advanced_spawnAll _⟩, fun hc => ⟨hc, rfl⟩, rfl⟩⟩

theorem good_pause {s : State} (h : Good res s) : Good res s.pause.1 ∧ Grows s s.pause.1 := by
  unfold State.pause
  split_ifs with hbusy
  · have hno : s.phase ≠ .completed := by
      intro hc
      simp [hc] at hbusy
    exact ⟨⟨(core_abortReplies h.toCore).frame rfl rfl rfl id rfl rfl, by simp, by simp [State.abortReplies],
      by simp⟩, ⟨fun _ => ⟨rfl, rfl, advanced_noReply _⟩, fun hc => absurd hc hno, rfl⟩⟩
  · exact ⟨h, .refl s⟩

theorem good_cancel {s : State} (h : Good res s) (deletePartial : Bool) :
    Good res (s.cancel deletePartial) ∧ Grows s (s.cancel deletePartial) := by
  have haborted := core_abortReplies h.toCore
  refine ⟨⟨⟨?_, by simp [State.cancel], ?_, haborted.replies⟩, by simp [State.cancel],
    by simp [State.cancel, State.abortReplies], ?_⟩,
    ⟨fun _ => ⟨rfl, rfl, advanced_noReply _⟩, fun hc => ⟨hc, rfl⟩, rfl⟩⟩
  · exact haborted.layout.imp_left fun ⟨ht, _, hall⟩ => ⟨ht, rfl, hall⟩
  · intro b hb
    cases deletePartial with
    | false => exact haborted.written b hb
    | true =>
        have hnone : (s.disk.set s.partPath none) s.partPath = some b := hb
        simp at hnone
  · intro hc
    cases deletePartial with
    | false => exact h.completed hc
    | true =>
        have hkept := s.disk.set_of_ne none (partPath_ne_finalPath s).symm
        exact hkept.trans (h.completed hc)

end Invariant

section Sidecar

variable (res : Bytes)

-- The entry is of a moment that the download has passed.
structure SavedBy (m : Saved) (s : State) : Prop where
  phase : m.phase = .completed ∨ m.phase = .paused
  fresh : m.total ≤ 0 → ∀ g ∈ m.segments, g.2 = 0
  kept : 0 < m.total → s.total = m.total ∧ s.fileName = m.fileName ∧
    List.Forall₂ (fun a g => a.1 = g.range ∧ a.2 ≤ g.received) m.segments s.segments
  completed : m.phase = .completed → s.phase = .completed ∧ s.fileName = m.fileName

def Kept (s : State) : Prop := Good res s ∧ ∀ m, s.sidecar = some m → SavedBy m s

variable {res}

theorem saved_advanced {saved : List (ByteRange × Nat)} {segments segments' : List Segment}
    (h : List.Forall₂ (fun a g => a.1 = g.range ∧ a.2 ≤ g.received) saved segments)
    (h' : List.Forall₂ Segment.Advanced segments segments') :
    List.Forall₂ (fun a g => a.1 = g.range ∧ a.2 ≤ g.received) saved segments' := by
  induction h generalizing segments' with
  | nil =>
      cases h'
      exact .nil
  | cons h _ ih =>
      cases h' with
      | cons h' hrest => exact .cons ⟨h.1.trans h'.1, Nat.le_trans h.2 h'.2⟩ (ih hrest)

theorem SavedBy.grows {m : Saved} {s s' : State} (h : SavedBy m s) (hgrows : Grows s s') :
    SavedBy m s' where
  phase := h.phase
  fresh := h.fresh
  kept ht := by
    obtain ⟨htotal, hname, hseg⟩ := h.kept ht
    obtain ⟨htotal', hname', hseg'⟩ := hgrows.kept (htotal ▸ ht)
    refine ⟨htotal'.trans htotal, hname'.trans hname, ?_⟩
    exact saved_advanced hseg hseg'
  completed hc := by
    obtain ⟨hphase, hname⟩ := h.completed hc
    obtain ⟨hphase', hname'⟩ := hgrows.completed hphase
    exact ⟨hphase', hname'.trans hname⟩

theorem Kept.grows {s s' : State} (h : Kept res s) (hs : Good res s' ∧ Grows s s') : Kept res s' := by
  refine ⟨hs.1, fun m hm => (h.2 m ?_).grows hs.2⟩
  rw [← hs.2.sidecar]
  exact hm

theorem savedBy_toState {s : State} (h : Good res s) : SavedBy s.toState s where
  phase := by
    unfold State.toState
    split_ifs
    · exact .inl rfl
    · exact .inr rfl
  fresh ht := by
    obtain ⟨-, -, hall⟩ := h.layout.resolve_right fun hr => by simp only [State.toState] at ht; omega
    intro a ha
    obtain ⟨g, hg, rfl⟩ := List.mem_map.mp ha
    exact (hall g hg).1
  kept _ := by
    refine ⟨rfl, rfl, ?_⟩
    rw [State.toState, List.forall₂_map_left_iff, List.forall₂_same]
    exact fun g _ => ⟨rfl, Nat.le_refl _⟩
  completed hc := by
    refine ⟨?_, rfl⟩
    by_contra hno
    simp [State.toState, hno] at hc

theorem kept_save {s : State} (h : Kept res s) :
    Kept res { s with sidecar := if s.gone then none else some s.toState } := by
  have hgood : Good res { s with sidecar := if s.gone then none else some s.toState } :=
    h.1.of_core (h.1.toCore.frame rfl rfl rfl id rfl rfl) rfl rfl rfl rfl rfl rfl
  refine ⟨hgood, ?_⟩
  intro m hm
  simp only at hm
  split_ifs at hm
  obtain rfl := Option.some.inj hm
  have hsaved := savedBy_toState h.1
  exact ⟨hsaved.phase, hsaved.fresh, hsaved.kept, hsaved.completed⟩

theorem mem_restored {s : State} {m : Saved} {g : Segment}
    (hg : g ∈ (s.restoreState m).segments) :
    ∃ a ∈ m.segments, g.range = a.1 ∧ g.received = a.2 ∧ g.reply = none := by
  obtain ⟨a, ha, rfl⟩ := List.mem_map.mp hg
  exact ⟨a, ha, rfl, rfl, rfl⟩

theorem map_fst_eq {saved : List (ByteRange × Nat)} {segments : List Segment}
    (h : List.Forall₂ (fun a g => a.1 = g.range ∧ a.2 ≤ g.received) saved segments) :
    saved.map Prod.fst = segments.map Segment.range := by
  induction h with
  | nil => rfl
  | cons h _ ih => rw [List.map_cons, List.map_cons, ih, h.1]

theorem exists_of_forall₂ {saved : List (ByteRange × Nat)} {segments : List Segment}
    (h : List.Forall₂ (fun a g => a.1 = g.range ∧ a.2 ≤ g.received) saved segments)
    {a : ByteRange × Nat} (ha : a ∈ saved) :
    ∃ g ∈ segments, a.1 = g.range ∧ a.2 ≤ g.received := by
  induction h with
  | nil => simp at ha
  | @cons a' g saved segments h _ ih =>
      rcases List.mem_cons.mp ha with rfl | ha
      · exact ⟨g, List.mem_cons_self, h⟩
      · obtain ⟨g', hg', h'⟩ := ih ha
        exact ⟨g', List.mem_cons_of_mem g hg', h'⟩

theorem core_restoreState {s : State} (h : Good res s) {m : Saved} (hm : SavedBy m s) :
    Core res (s.restoreState m) := by
  have hreplies : ∀ g ∈ (s.restoreState m).segments, ∀ r, g.reply = some r →
      r.asked + r.read = g.writeAt := by
    intro g hg r hr
    obtain ⟨-, -, -, -, hnone⟩ := mem_restored hg
    simp [hnone] at hr
  by_cases ht : 0 < m.total
  · obtain ⟨htotal, hname, hseg⟩ := hm.kept ht
    obtain ⟨hsize, hpos, htiles⟩ := h.known (htotal ▸ ht)
    refine ⟨.inr ⟨htotal.symm.trans hsize, hpos, ?_⟩, by simp [State.restoreState], ?_, hreplies⟩
    · rw [← map_fst_eq hseg] at htiles
      simpa [State.restoreState, Function.comp_def] using htiles
    · intro b hb g hg
      obtain ⟨a, ha, hrange, hreceived, -⟩ := mem_restored hg
      obtain ⟨g', hg', hrange', hle⟩ := exists_of_forall₂ hseg ha
      have hpath : (s.restoreState m).partPath = s.partPath := by
        simp only [State.partPath, State.finalPath, State.restoreState, hname]
      rw [hpath] at hb
      rw [hrange, hreceived, hrange']
      exact (h.written b hb g' hg').mono hle
  · refine ⟨.inl ⟨by simpa [State.restoreState] using ht, rfl, ?_⟩, by simp [State.restoreState], ?_,
      hreplies⟩
    · intro g hg
      obtain ⟨a, ha, -, hreceived, hnone⟩ := mem_restored hg
      exact ⟨hreceived.trans (hm.fresh (by omega) a ha), hnone⟩
    · intro b _ g hg
      obtain ⟨a, ha, -, hreceived, -⟩ := mem_restored hg
      rw [hreceived, hm.fresh (by omega) a ha]
      exact FileBytes.agree_nil _ _ _

theorem kept_restoreState {s : State} (h : Kept res s) {m : Saved} (hm : s.sidecar = some m) :
    Kept res (s.restoreState m) := by
  have hsaved := h.2 m hm
  refine ⟨⟨core_restoreState h.1 hsaved, ?_, by simp [State.restoreState], ?_⟩, ?_⟩
  · intro _ hphase
    have hphase' : m.phase = .downloading := hphase
    rcases hsaved.phase with hp | hp <;> simp [hp] at hphase'
  · intro hc
    obtain ⟨hphase, hname⟩ := hsaved.completed hc
    have hpath : (s.restoreState m).finalPath = s.finalPath := by
      simp only [State.finalPath, State.restoreState, hname]
    rw [hpath]
    exact h.1.completed hphase
  · intro m' hm'
    obtain rfl : m = m' := Option.some.inj (hm.symm.trans hm')
    refine ⟨hsaved.phase, hsaved.fresh, fun _ => ⟨rfl, rfl, ?_⟩, fun hc => ⟨hc, rfl⟩⟩
    rw [State.restoreState, List.forall₂_map_right_iff, List.forall₂_same]
    exact fun a _ => ⟨rfl, Nat.le_refl _⟩

end Sidecar

section Run

variable {res : Bytes}

theorem kept_next {s s' : State} {e : Event} {out : List Out} (h : Kept res s)
    (hhonest : Honest res s e) (hsound : Sound res s e) (hn : next s e = some (s', out)) :
    Kept res s' := by
  cases e with
  | restart =>
      obtain ⟨m, hm, heq⟩ := Option.map_eq_some_iff.mp hn
      obtain ⟨rfl, -⟩ := Prod.ext_iff.mp heq
      exact kept_restoreState h hm
  | save =>
      obtain ⟨rfl, -⟩ := Prod.ext_iff.mp (Option.some.inj hn)
      exact kept_save h
  | start io =>
      simp only [next] at hn
      split_ifs at hn
      obtain ⟨rfl, -⟩ := Prod.ext_iff.mp (Option.some.inj hn)
      exact h.grows (good_start h.1 hsound.1 hsound.2 io)
  | probeFinished p io =>
      simp only [next] at hn
      split_ifs at hn with hgone hprobe
      obtain ⟨rfl, -⟩ := Prod.ext_iff.mp (Option.some.inj hn)
      exact h.grows (good_probeFinished h.1 hprobe hsound)
  | headersArrive idx status =>
      simp only [next] at hn
      split_ifs at hn
      exact h.grows (good_headersArrive h.1 hn)
  | readyRead idx chunk io =>
      simp only [next] at hn
      split_ifs at hn with hgone
      obtain ⟨⟨g, r⟩, hreply, hstep⟩ := Option.bind_eq_some_iff.mp hn
      simp only at hstep
      split_ifs at hstep
      obtain ⟨rfl, -⟩ := Prod.ext_iff.mp (Option.some.inj hstep)
      exact h.grows (good_readyRead h.1 (by simpa using hgone) hreply hhonest hsound)
  | segmentFinished idx error io =>
      simp only [next] at hn
      split_ifs at hn with hgone
      obtain ⟨⟨g, r⟩, hreply, hstep⟩ := Option.map_eq_some_iff.mp hn
      obtain ⟨rfl, -⟩ := Prod.ext_iff.mp hstep
      exact h.grows (good_segmentFinished h.1 (by simpa using hgone) hreply error io)
  | stalled =>
      simp only [next] at hn
      split_ifs at hn with hgone hphase
      obtain ⟨rfl, -⟩ := Prod.ext_iff.mp (Option.some.inj hn)
      exact h.grows (good_stalled h.1 (by simpa using hgone) hphase)
  | pause =>
      simp only [next] at hn
      split_ifs at hn
      obtain ⟨rfl, -⟩ := Prod.ext_iff.mp (Option.some.inj hn)
      exact h.grows (good_pause h.1)
  | resume io =>
      simp only [next] at hn
      split_ifs at hn
      obtain ⟨rfl, -⟩ := Prod.ext_iff.mp (Option.some.inj hn)
      unfold State.resume
      split_ifs with hphase
      · have hno : s.phase ≠ .completed := by
          intro hc
          simp [hc] at hphase
        exact h.grows (good_start h.1 hno hsound io)
      · exact h
  | cancel deletePartial =>
      simp only [next] at hn
      split_ifs at hn
      obtain ⟨rfl, -⟩ := Prod.ext_iff.mp (Option.some.inj hn)
      exact h.grows (good_cancel h.1 deletePartial)

theorem kept_create (disk : Disk) (saveDir fileName : Path) :
    Kept res (create disk saveDir fileName) := by
  refine ⟨⟨⟨.inl ⟨?_, rfl, ?_⟩, ?_, ?_, ?_⟩, ?_, ?_, ?_⟩, ?_⟩ <;> simp [create]

def fine : Io where
  opens := true
  written := 1
  renames := true

-- A one-byte resource behind a server that knows ranges.
def oneByteProbe : ProbeReply where
  error := none
  code := 206
  contentRange := ['b', 'y', 't', 'e', 's', ' ', '0', '-', '0', '/', '1']
  contentLength := some 1
  disposition := none

theorem oneByteProbe_announced : oneByteProbe.announced = 1 := by decide

end Run

end BATorrent.HttpDownload