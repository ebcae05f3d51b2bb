import BATorrent.Ipc.Protocol
import BATorrent.Lib.Run
import Mathlib.Logic.Relation

namespace BATorrent.Protocol

open Lib Lib.DataStream

section TakeFrame

theorem getBE_append {k acc n : Nat} {bs rest : Bytes} (h : getBE k acc bs = some (n, rest))
    (later : Bytes) : getBE k acc (bs ++ later) = some (n, rest ++ later) := by
  induction k generalizing acc bs with
  | zero =>
      obtain ⟨rfl, rfl⟩ := Prod.mk.inj (Option.some.inj h)
      rfl
  | succ k ih =>
      cases bs with
      | nil => simp [getBE] at h
      | cons b bs => exact ih h

theorem length_getBE {k acc n : Nat} {bs rest : Bytes} (h : getBE k acc bs = some (n, rest)) :
    bs.length = rest.length + k := by
  induction k generalizing acc bs with
  | zero =>
      obtain ⟨rfl, rfl⟩ := Prod.mk.inj (Option.some.inj h)
      rfl
  | succ k ih =>
      cases bs with
      | nil => simp [getBE] at h
      | cons b bs =>
          have hlen := ih h
          rw [List.length_cons]
          omega

-- What arrives later goes behind what a turn leaves.
def Taken.append (later : Bytes) : Taken → Taken
  | .wait => .wait
  | .reset => .reset
  | .empty rest => .empty (rest ++ later)
  | .frame f rest => .frame f (rest ++ later)

theorem takeFrame_append_of_ne {buf : Bytes} (h : takeFrame buf ≠ .wait) (later : Bytes) :
    takeFrame (buf ++ later) = (takeFrame buf).append later := by
  unfold takeFrame at h ⊢
  cases hword : getBE 4 0 buf with
  | none => simp [hword] at h
  | some r =>
      obtain ⟨len, rest⟩ := r
      rw [getBE_append hword later]
      simp only [hword] at h ⊢
      by_cases hbig : len > kMaxFrameBytes
      · simp only [if_pos hbig]
        rfl
      · by_cases hshort : rest.length < len
        · simp [hbig, hshort] at h
        · have hlong : ¬ (rest ++ later).length < len := by
            rw [List.length_append]
            omega
          have hle : len ≤ rest.length := Nat.le_of_not_lt hshort
          simp only [if_neg hbig, if_neg hshort, if_neg hlong, List.take_append_of_le_length hle,
            List.drop_append_of_le_length hle]
          cases rest.take len with
          | nil => rfl
          | cons kind payload => rfl

-- A turn that goes on leaves a shorter buffer.
theorem length_takeFrame (buf : Bytes) :
    match takeFrame buf with
    | .empty rest => rest.length < buf.length
    | .frame _ rest => rest.length + 2 ≤ buf.length
    | _ => True := by
  unfold takeFrame
  cases hword : getBE 4 0 buf with
  | none => trivial
  | some r =>
      obtain ⟨len, rest⟩ := r
      have hlen := length_getBE hword
      by_cases hbig : len > kMaxFrameBytes
      · simp only [if_pos hbig]
      · by_cases hshort : rest.length < len
        · simp only [if_neg hbig, if_pos hshort]
        · simp only [if_neg hbig, if_neg hshort]
          cases rest.take len with
          | nil =>
              simp only [List.length_drop]
              omega
          | cons kind payload =>
              simp only [List.length_drop]
              omega

theorem framesIn_eq {fuel fuel' : Nat} {buf : Bytes} (h : buf.length ≤ fuel)
    (h' : buf.length ≤ fuel') : framesIn fuel buf = framesIn fuel' buf := by
  induction fuel generalizing fuel' buf with
  | zero =>
      obtain rfl : buf = [] := List.eq_nil_of_length_eq_zero (by omega)
      cases fuel' with
      | zero => rfl
      | succ fuel' => rfl
  | succ fuel ih =>
      cases fuel' with
      | zero =>
          obtain rfl : buf = [] := List.eq_nil_of_length_eq_zero (by omega)
          rfl
      | succ fuel' =>
          have hshorter := length_takeFrame buf
          cases htaken : takeFrame buf with
          | wait => simp only [framesIn, htaken]
          | reset => simp only [framesIn, htaken]
          | empty rest =>
              simp only [htaken] at hshorter
              simp only [framesIn, htaken]
              exact ih (by omega) (by omega)
          | frame f rest =>
              simp only [htaken] at hshorter
              simp only [framesIn, htaken]
              exact congrArg (f :: ·) (ih (by omega) (by omega))

theorem drainFrames_eq (buf : Bytes) :
    drainFrames buf =
      match takeFrame buf with
      | .wait => []
      | .reset => []
      | .empty rest => drainFrames rest
      | .frame f rest => f :: drainFrames rest := by
  have hshorter := length_takeFrame buf
  have hone : drainFrames buf = framesIn (buf.length + 1) buf := framesIn_eq (by omega) (by omega)
  rw [hone, framesIn]
  cases htaken : takeFrame buf with
  | wait => rfl
  | reset => rfl
  | empty rest =>
      simp only [htaken] at hshorter
      exact framesIn_eq (by omega) (by omega)
  | frame f rest =>
      simp only [htaken] at hshorter
      exact congrArg (f :: ·) (framesIn_eq (by omega) (by omega))

end TakeFrame

-- A call of drainFrames is at the head of its loop, or in the sink with the frame it has taken.
inductive Activation where
  | looping
  | sinking
deriving DecidableEq

def Activation.weight : Activation → Nat
  | .looping => 1
  | .sinking => 2

-- `calls` are the calls of drainFrames in progress, the innermost first. What was read and what
-- the sink got are kept whole beside the buffer, and so is whether it was ever cleared.
structure Receiver where
  buf : Bytes
  calls : List Activation
  read : Bytes
  delivered : List Frame
  cleared : Bool

inductive Step where
  | pumpSocket (bytes : Bytes)
  | turn
  | sinkReturns

namespace Receiver

def init : Receiver where
  buf := []
  calls := []
  read := []
  delivered := []
  cleared := false

-- The event loop reads when no call is in progress, and the sink may read while it blocks.
def pumpSocket (s : Receiver) (bytes : Bytes) : Option Receiver :=
  match s.calls with
  | .looping :: _ => none
  | calls => some { s with
      buf := s.buf ++ bytes
      read := s.read ++ bytes
      calls := .looping :: calls }

def turn (s : Receiver) : Option Receiver :=
  match s.calls with
  | .looping :: calls =>
      match takeFrame s.buf with
      | .wait => some { s with calls := calls }
      | .reset => some { s with buf := [], calls := calls, cleared := true }
      | .empty rest => some { s with buf := rest }
      | .frame f rest => some { s with
          buf := rest
          calls := .sinking :: calls
          delivered := s.delivered ++ [f] }
  | _ => none

def sinkReturns (s : Receiver) : Option Receiver :=
  match s.calls with
  | .sinking :: calls => some { s with calls := .looping :: calls }
  | _ => none

def next (s : Receiver) : Step → Option Receiver
  | .pumpSocket bytes => s.pumpSocket bytes
  | .turn => s.turn
  | .sinkReturns => s.sinkReturns

def machine : Machine Receiver Step Empty where
  init := init
  next s a := (s.next a).map fun s' => (s', [])

section Steps

variable {s s' : Receiver}

theorem turn_cases (h : s.turn = some s') : ∃ calls, s.calls = .looping :: calls ∧
    (takeFrame s.buf = .wait ∧ s' = { s with calls := calls } ∨
      takeFrame s.buf = .reset ∧ s' = { s with buf := [], calls := calls, cleared := true } ∨
      (∃ rest, takeFrame s.buf = .empty rest ∧ s' = { s with buf := rest }) ∨
      ∃ f rest, takeFrame s.buf = .frame f rest ∧
        s' = { s with
          buf := rest
          calls := .sinking :: calls
          delivered := s.delivered ++ [f] }) := by
  unfold turn at h
  split at h
  · next calls hcalls =>
      refine ⟨calls, hcalls, ?_⟩
      cases htaken : takeFrame s.buf with
      | wait => simpa [htaken, eq_comm] using h
      | reset => simpa [htaken, eq_comm] using h
      | empty rest => simpa [htaken, eq_comm] using h
      | frame f rest => simpa [htaken, eq_comm] using h
  · cases h

theorem pumpSocket_cases {bytes : Bytes} (h : s.pumpSocket bytes = some s') :
    s' = { s with
      buf := s.buf ++ bytes
      read := s.read ++ bytes
      calls := .looping :: s.calls } := by
  unfold pumpSocket at h
  split at h
  · cases h
  · exact (Option.some.inj h).symm

theorem sinkReturns_cases (h : s.sinkReturns = some s') :
    ∃ calls, s.calls = .sinking :: calls ∧ s' = { s with calls := .looping :: calls } := by
  unfold sinkReturns at h
  split at h
  · next calls hcalls => exact ⟨calls, hcalls, (Option.some.inj h).symm⟩
  · cases h

end Steps

section Returning

-- A step that reads nothing.
def Quiet (s s' : Receiver) : Prop := s.turn = some s' ∨ s.sinkReturns = some s'

def work (s : Receiver) : Nat := 2 * s.buf.length + (s.calls.map Activation.weight).sum

theorem work_lt {s s' : Receiver} (h : Quiet s s') : s'.work < s.work := by
  have hshorter := length_takeFrame s.buf
  rcases h with hturn | hreturn
  · obtain ⟨calls, hcalls, ⟨htaken, rfl⟩ | ⟨htaken, rfl⟩ | ⟨rest, htaken, rfl⟩ |
      ⟨f, rest, htaken, rfl⟩⟩ := turn_cases hturn
    · simp [work, hcalls, Activation.weight]
    · simp [work, hcalls, Activation.weight]
      omega
    · simp only [htaken] at hshorter
      simp [work, hshorter]
    · simp only [htaken] at hshorter
      simp [work, hcalls, Activation.weight]
      omega
  · obtain ⟨calls, hcalls, rfl⟩ := sinkReturns_cases hreturn
    simp [work, hcalls, Activation.weight]

theorem exists_quiet {s : Receiver} (h : s.calls ≠ []) : ∃ s', Quiet s s' := by
  cases hcalls : s.calls with
  | nil => exact absurd hcalls h
  | cons call calls =>
      cases call with
      | looping =>
          cases htaken : takeFrame s.buf with
          | wait => exact ⟨_, .inl (by simp only [turn, hcalls, htaken]; rfl)⟩
          | reset => exact ⟨_, .inl (by simp only [turn, hcalls, htaken]; rfl)⟩
          | empty rest => exact ⟨_, .inl (by simp only [turn, hcalls, htaken]; rfl)⟩
          | frame f rest => exact ⟨_, .inl (by simp only [turn, hcalls, htaken]; rfl)⟩
      | sinking => exact ⟨_, .inr (by simp only [sinkReturns, hcalls]; rfl)⟩

-- Where nothing more is read every call returns.
theorem exists_returned (s : Receiver) : ∃ s', Relation.ReflTransGen Quiet s s' ∧ s'.calls = [] := by
  induction hwork : s.work using Nat.strong_induction_on generalizing s with
  | _ n ih =>
      by_cases hcalls : s.calls = []
      · exact ⟨s, .refl, hcalls⟩
      · obtain ⟨t, hquiet⟩ := exists_quiet hcalls
        obtain ⟨s', hreach, hreturned⟩ := ih t.work (hwork ▸ work_lt hquiet) t rfl
        exact ⟨s', .head hquiet hreach, hreturned⟩

end Returning

-- Every call that has returned has left a buffer to wait with.
def Drained (s : Receiver) : Prop := s.calls = [] → takeFrame s.buf = .wait

-- What the frames of a stream leave of it, given what is still to come.
def Holds (s : Receiver) (fs : List Frame) (later : Bytes) : Prop :=
  ∃ rest, fs = s.delivered ++ rest ∧ s.buf ++ later = rest.flatMap writeFrame ∧ s.cleared = false

theorem Holds.turn {s s' : Receiver} {fs : List Frame} {later : Bytes} (hfits : ∀ f ∈ fs, f.Fits)
    (h : s.Holds fs later) (hturn : s.turn = some s') : s'.Holds fs later := by
  obtain ⟨rest, rfl, hbuf, hcleared⟩ := h
  obtain ⟨calls, -, hcases⟩ := turn_cases hturn
  cases rest with
  | nil =>
      have hempty : s.buf = [] := (List.append_eq_nil_iff.mp hbuf).1
      have hwait : takeFrame s.buf = .wait := by rw [hempty]; rfl
      rw [hwait] at hcases
      obtain ⟨-, rfl⟩ | ⟨h, -⟩ | ⟨_, h, -⟩ | ⟨_, _, h, -⟩ := hcases
      · exact ⟨[], rfl, hbuf, hcleared⟩
      all_goals cases h
  | cons f rest =>
      have hf : f.Fits := hfits f (by simp)
      rw [List.flatMap_cons] at hbuf
      rcases takeFrame_append hf hbuf with hwait | ⟨buf', -, hframe, hbuf'⟩
      · rw [hwait] at hcases
        obtain ⟨-, rfl⟩ | ⟨h, -⟩ | ⟨_, h, -⟩ | ⟨_, _, h, -⟩ := hcases
        · exact ⟨f :: rest, rfl, hbuf, hcleared⟩
        all_goals cases h
      · rw [hframe] at hcases
        obtain ⟨h, -⟩ | ⟨h, -⟩ | ⟨_, h, -⟩ | ⟨g, buf, h, rfl⟩ := hcases
        · cases h
        · cases h
        · cases h
        · obtain ⟨rfl, rfl⟩ : f = g ∧ buf' = buf := by simpa using h
          exact ⟨rest, by simp, hbuf', hcleared⟩

theorem next_drained {s s' : Receiver} {a : Step} (hnext : s.next a = some s') : s'.Drained := by
  intro hreturned
  cases a with
  | pumpSocket bytes =>
      obtain rfl := pumpSocket_cases hnext
      cases hreturned
  | turn =>
      obtain ⟨calls, hcalls, ⟨htaken, rfl⟩ | ⟨htaken, rfl⟩ | ⟨rest, htaken, rfl⟩ |
        ⟨f, rest, htaken, rfl⟩⟩ := turn_cases hnext
      · exact htaken
      · rfl
      · rw [hcalls] at hreturned
        cases hreturned
      · cases hreturned
  | sinkReturns =>
      obtain ⟨calls, hcalls, rfl⟩ := sinkReturns_cases hnext
      cases hreturned

section Runs

variable {past : List (Reaction Receiver Step Empty)} {s : Receiver}

theorem next_of_machine {s s' : Receiver} {a : Step} {out : List Empty}
    (h : machine.next s a = some (s', out)) : s.next a = some s' := by
  obtain ⟨t, ht, heq⟩ := Option.map_eq_some_iff.mp h
  rw [ht, (Prod.mk.inj heq).1]

theorem run_drained (hrun : machine.Run (fun _ _ => True) past s) : s.Drained :=
  Machine.Run.invariant Drained (fun _ => rfl)
    (fun _ _ _ _ _ _ hnext => next_drained (next_of_machine hnext)) hrun

theorem run_holds {fs : List Frame} (hfits : ∀ f ∈ fs, f.Fits)
    (hrun : machine.Run (fun _ _ => True) past s) :
    ∀ later, s.read ++ later = fs.flatMap writeFrame → s.Holds fs later := by
  refine Machine.Run.invariant (M := machine)
    (fun s => ∀ later, s.read ++ later = fs.flatMap writeFrame → s.Holds fs later) ?_ ?_ hrun
  · intro later hread
    exact ⟨fs, rfl, hread, rfl⟩
  · intro s a s' out hs _ hnext later hread
    have hnext := next_of_machine hnext
    cases a with
    | pumpSocket bytes =>
        obtain rfl := pumpSocket_cases hnext
        rw [List.append_assoc] at hread
        obtain ⟨rest, hfs, hbuf, hcleared⟩ := hs _ hread
        exact ⟨rest, hfs, by rw [List.append_assoc, hbuf], hcleared⟩
    | turn =>
        have hread' : s'.read = s.read := by
          obtain ⟨calls, -, ⟨-, rfl⟩ | ⟨-, rfl⟩ | ⟨_, -, rfl⟩ | ⟨_, _, -, rfl⟩⟩ := turn_cases hnext
          all_goals rfl
        exact (hs later (hread' ▸ hread)).turn hfits hnext
    | sinkReturns =>
        obtain ⟨calls, -, rfl⟩ := sinkReturns_cases hnext
        exact hs later hread

-- A buffer is cleared for a length word that no frame has. The loop knows nothing of the bytes that
-- follow it, so what is read behind it must not make up a frame.
def NoFrameBehind (s : Receiver) : Step → Prop
  | .turn => s.cleared = true → ∀ f rest, takeFrame s.buf ≠ .frame f rest
  | _ => True

-- What the sink got of the bytes read so far, and what it is still to get.
def Accounted (s : Receiver) : Prop :=
  ∀ later, drainFrames (s.read ++ later) =
    s.delivered ++ if s.cleared then [] else drainFrames (s.buf ++ later)

theorem Accounted.turn {s s' : Receiver} (h : s.Accounted) (hturn : s.turn = some s')
    (hbehind : s.NoFrameBehind .turn) : s'.Accounted := by
  obtain ⟨calls, -, hcases⟩ := turn_cases hturn
  intro later
  have hlater := h later
  have hdrain := drainFrames_eq (s.buf ++ later)
  obtain ⟨-, rfl⟩ | ⟨htaken, rfl⟩ | ⟨rest, htaken, rfl⟩ | ⟨f, rest, htaken, rfl⟩ := hcases
  · exact hlater
  · rw [takeFrame_append_of_ne (by rw [htaken]; simp), htaken] at hdrain
    rw [hlater, if_pos rfl, hdrain]
    simp [Taken.append]
  · rw [takeFrame_append_of_ne (by rw [htaken]; simp), htaken] at hdrain
    rw [hlater, hdrain]
    rfl
  · rw [takeFrame_append_of_ne (by rw [htaken]; simp), htaken] at hdrain
    have hcleared : s.cleared = false := by
      cases hcleared : s.cleared with
      | false => rfl
      | true => exact absurd htaken (hbehind hcleared f rest)
    rw [hlater, hcleared, hdrain]
    simp [Taken.append]

theorem Accounted.next {s s' : Receiver} {a : Step} (h : s.Accounted) (hnext : s.next a = some s')
    (hbehind : s.NoFrameBehind a) : s'.Accounted := by
  cases a with
  | pumpSocket bytes =>
      obtain rfl := pumpSocket_cases hnext
      intro later
      simpa only [List.append_assoc] using h (bytes ++ later)
  | turn => exact h.turn hnext hbehind
  | sinkReturns =>
      obtain ⟨calls, -, rfl⟩ := sinkReturns_cases hnext
      exact h

-- The frames of the stream as one buffer would have them, up to the first bad length word.
def Aligned (s : Receiver) : Prop := s.delivered <+: drainFrames s.read

theorem Accounted.aligned {s : Receiver} (h : s.Accounted) : s.Aligned := by
  have hnow := h []
  rw [List.append_nil] at hnow
  exact ⟨_, hnow.symm⟩

theorem run_accounted (hrun : machine.Run (fun _ _ => True) past s)
    (hbehind : ∀ r ∈ past, r.before.NoFrameBehind r.event) : s.Accounted :=
  Machine.Run.invariant Accounted (fun _ => rfl)
    (fun _ _ _ _ h hguard hnext => h.next (next_of_machine hnext) hguard) (hrun.restrict hbehind)

theorem next_aligned_iff {s s' : Receiver} {a : Step} (h : s.Accounted)
    (hnext : s.next a = some s') : s'.Aligned ↔ s.NoFrameBehind a := by
  refine ⟨?_, fun hbehind => (h.next hnext hbehind).aligned⟩
  intro haligned
  cases a with
  | pumpSocket bytes => trivial
  | sinkReturns => trivial
  | turn =>
      intro hcleared f rest htaken
      obtain ⟨calls, -, ⟨h', -⟩ | ⟨h', -⟩ | ⟨_, h', -⟩ | ⟨f, rest, -, rfl⟩⟩ := turn_cases hnext
      · simp [htaken] at h'
      · simp [htaken] at h'
      · simp [htaken] at h'
      · have hnow := h []
        rw [hcleared, if_pos rfl, List.append_nil, List.append_nil] at hnow
        have hlonger : s.delivered ++ [f] <+: drainFrames s.read := haligned
        have hlen := hlonger.length_le
        rw [hnow] at hlen
        simp at hlen

-- The buffer has a part of the next frame, and not all of it.
def StartOf (buf : Bytes) : List Frame → Prop
  | [] => buf = []
  | f :: _ => buf <+: writeFrame f ∧ buf ≠ writeFrame f

theorem startOf_of_wait {buf later : Bytes} {rest : List Frame} (hfits : ∀ f ∈ rest, f.Fits)
    (hbuf : buf ++ later = rest.flatMap writeFrame) (hwait : takeFrame buf = .wait) :
    StartOf buf rest := by
  cases rest with
  | nil => exact (List.append_eq_nil_iff.mp hbuf).1
  | cons f rest =>
      have hf : f.Fits := hfits f List.mem_cons_self
      rw [List.flatMap_cons] at hbuf
      have hshort : buf.length < (writeFrame f).length := by
        by_contra hlong
        obtain ⟨buf', rfl⟩ : writeFrame f <+: buf :=
          List.prefix_of_prefix_length_le ⟨_, hbuf.symm⟩ (List.prefix_append _ _) (by omega)
        rw [takeFrame_writeFrame hf] at hwait
        cases hwait
      refine ⟨List.prefix_of_prefix_length_le ⟨later, hbuf⟩ (List.prefix_append _ _) hshort.le, ?_⟩
      intro heq
      simp [heq] at hshort

-- All of the stream up to what the buffer has, and of that no more than the start of a frame where
-- a call returns.
def Delivers (fs : List Frame) (s : Receiver) : Prop :=
  ∃ rest, fs = s.delivered ++ rest ∧ s.read = s.delivered.flatMap writeFrame ++ s.buf ∧
    (takeFrame s.buf = .wait → StartOf s.buf rest)

theorem run_delivers {fs : List Frame} (hfits : ∀ f ∈ fs, f.Fits)
    (hrun : machine.Run (fun _ _ => True) past s) (hread : s.read <+: fs.flatMap writeFrame) :
    Delivers fs s := by
  obtain ⟨later, hread⟩ := hread
  obtain ⟨rest, hfs, hbuf, -⟩ := run_holds hfits hrun later hread
  refine ⟨rest, hfs, ?_, ?_⟩
  · rw [hfs, List.flatMap_append, ← hbuf, ← List.append_assoc] at hread
    exact List.append_cancel_right hread
  · have hrest : ∀ f ∈ rest, f.Fits := fun f hf => hfits f (by rw [hfs]; simp [hf])
    exact startOf_of_wait hrest hbuf

theorem Delivers.all {fs : List Frame} (h : Delivers fs s) (hwait : takeFrame s.buf = .wait)
    (hread : s.read = fs.flatMap writeFrame) : s.delivered = fs := by
  obtain ⟨rest, rfl, hsofar, hstart⟩ := h
  rw [hread, List.flatMap_append] at hsofar
  have hbuf : rest.flatMap writeFrame = s.buf := List.append_cancel_left hsofar
  have hstart := hstart hwait
  cases rest with
  | nil => simp
  | cons f rest =>
      obtain ⟨hpart, hne⟩ := hstart
      rw [List.flatMap_cons] at hbuf
      have hlen := hpart.length_le
      rw [← hbuf, List.length_append] at hlen
      have hrest : rest.flatMap writeFrame = [] := List.eq_nil_of_length_eq_zero (by omega)
      rw [hrest, List.append_nil] at hbuf
      exact absurd hbuf.symm hne

theorem run_drains (hrun : machine.Run (fun _ _ => True) past s) :
    (∀ fs : List Frame, (∀ f ∈ fs, f.Fits) → s.read <+: fs.flatMap writeFrame →
      Delivers fs s ∧ (s.calls = [] → takeFrame s.buf = .wait ∧
        (s.read = fs.flatMap writeFrame → s.delivered = fs))) ∧
    (∃ s', Relation.ReflTransGen Quiet s s' ∧ s'.calls = []) ∧
    ((∀ t ∈ Machine.visited past s, t.Aligned) ↔
      ∀ r ∈ past, r.before.NoFrameBehind r.event) := by
  refine ⟨?_, exists_returned s, ?_⟩
  · intro fs hfits hread
    have hdelivers := run_delivers hfits hrun hread
    refine ⟨hdelivers, fun hreturned => ?_⟩
    have hwait := run_drained hrun hreturned
    exact ⟨hwait, hdelivers.all hwait⟩
  · have hiff : (∀ t ∈ Machine.visited past s, t.Aligned) ↔
        True ∧ ∀ r ∈ past, r.before.NoFrameBehind r.event :=
      hrun.forall_visited_iff_of_past (iff_of_true ⟨[], rfl⟩ trivial)
        fun past s a s' out hrun hbehind _ hnext =>
          next_aligned_iff (run_accounted hrun hbehind) (next_of_machine hnext)
    rw [hiff, true_and]

end Runs

section Sample

def hello : Frame := ⟨Kind.hello.code, []⟩

def ping : Frame := ⟨Kind.ping.code, [7]⟩

-- The first read ends inside a length word, the second comes while the sink has the first frame.
theorem run_drains_cut : ∃ past s, machine.Run (fun _ _ => True) past s ∧
    s.delivered = [hello, ping] ∧
    (∀ fs : List Frame, (∀ f ∈ fs, f.Fits) → s.read <+: fs.flatMap writeFrame →
      Delivers fs s ∧ (s.calls = [] → takeFrame s.buf = .wait ∧
        (s.read = fs.flatMap writeFrame → s.delivered = fs))) ∧
    (∃ s', Relation.ReflTransGen Quiet s s' ∧ s'.calls = []) ∧
    ((∀ t ∈ Machine.visited past s, t.Aligned) ↔
      ∀ r ∈ past, r.before.NoFrameBehind r.event) := by
  obtain ⟨past, s, hrun, hdelivered⟩ : ∃ past s, machine.Run (fun _ _ => True) past s ∧
      s.delivered = [hello, ping] :=
    Machine.exists_run [.pumpSocket [0, 0, 0, 1, 1, 0, 0], .turn, .pumpSocket [0, 2, 2, 7], .turn]
      (by decide +kernel)
  exact ⟨past, s, hrun, hdelivered, run_drains hrun⟩

-- What follows the bad word in a later read is taken for a frame.
theorem run_not_drains : ∃ past s, machine.Run (fun _ _ => True) past s ∧
    s.read = [255, 255, 255, 255] ++ writeFrame ping ∧ drainFrames s.read = [] ∧
    s.delivered = [ping] :=
  Machine.exists_run [.pumpSocket [255, 255, 255, 255], .turn, .pumpSocket (writeFrame ping), .turn]
    (by decide +kernel)

end Sample

end Receiver

end BATorrent.Protocol
