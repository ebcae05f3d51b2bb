import BATorrent.Lib.DataStream

namespace BATorrent.Protocol

open Lib.DataStream

inductive Kind where
  | hello
  | ping
  | pong
  | request
  | reply
  | event
deriving DecidableEq, Repr

def Kind.code : Kind → UInt8
  | .hello => 1
  | .ping => 2
  | .pong => 3
  | .request => 4
  | .reply => 5
  | .event => 6

def kMaxFrameBytes : Nat := 64 * 1024 * 1024

structure Frame where
  kind : UInt8
  payload : Bytes
deriving DecidableEq

def Frame.Fits (f : Frame) : Prop := f.payload.length + 1 ≤ kMaxFrameBytes

instance (f : Frame) : Decidable f.Fits := inferInstanceAs (Decidable (_ ≤ _))

def writeFrame (f : Frame) : Bytes := putBE 4 (f.payload.length + 1) ++ f.kind :: f.payload

-- What one turn of the loop over the buffer does.
inductive Taken where
  | wait
  | reset
  | empty (rest : Bytes)
  | frame (f : Frame) (rest : Bytes)

def takeFrame (buf : Bytes) : Taken :=
  match getBE 4 0 buf with
  | none => .wait
  | some (len, rest) =>
      if len > kMaxFrameBytes then .reset
      else if rest.length < len then .wait
      else
        match rest.take len with
        | [] => .empty (rest.drop len)
        | kind :: payload => .frame ⟨kind, payload⟩ (rest.drop len)

-- The frames that the loop finds when nothing else arrives.
def framesIn : Nat → Bytes → List Frame
  | 0, _ => []
  | fuel + 1, buf =>
      match takeFrame buf with
      | .wait => []
      | .reset => []
      | .empty rest => framesIn fuel rest
      | .frame f rest => f :: framesIn fuel rest

def drainFrames (buf : Bytes) : List Frame := framesIn buf.length buf

theorem length_writeFrame (f : Frame) : (writeFrame f).length = 5 + f.payload.length := by
  simp [writeFrame]
  omega

theorem getBE_writeFrame {f : Frame} (h : f.Fits) (rest : Bytes) :
    getBE 4 0 (writeFrame f ++ rest) = some (f.payload.length + 1, f.kind :: f.payload ++ rest) := by
  unfold Frame.Fits kMaxFrameBytes at h
  have hlen : f.payload.length + 1 < 256 ^ 4 := by omega
  rw [writeFrame, List.append_assoc]
  exact reads_putBE hlen _

theorem takeFrame_writeFrame {f : Frame} (h : f.Fits) (rest : Bytes) :
    takeFrame (writeFrame f ++ rest) = .frame f rest := by
  have hfits : ¬ f.payload.length + 1 > kMaxFrameBytes := not_lt.mpr h
  have hbody : (f.kind :: f.payload).length = f.payload.length + 1 := rfl
  have hlong : ¬ (f.kind :: f.payload ++ rest).length < f.payload.length + 1 := by
    rw [List.length_append, hbody]
    omega
  simp only [takeFrame, getBE_writeFrame h, if_neg hfits, if_neg hlong]
  rw [← hbody, List.take_left, List.drop_left]

-- A part of a frame is left for the next read.
theorem takeFrame_of_lt {f : Frame} (h : f.Fits) {buf rest : Bytes} (heq : buf ++ rest = writeFrame f)
    (hlt : buf.length < (writeFrame f).length) : takeFrame buf = .wait := by
  rw [length_writeFrame] at hlt
  have hfits : ¬ f.payload.length + 1 > kMaxFrameBytes := not_lt.mpr h
  by_cases hshort : buf.length < 4
  · rw [takeFrame, getBE_eq_none 0 hshort]
  · obtain ⟨part, rfl⟩ : ∃ part, buf = putBE 4 (f.payload.length + 1) ++ part := by
      refine ⟨buf.drop 4, ?_⟩
      have htake := congrArg (List.take 4) heq
      rw [List.take_append_of_le_length (by omega), writeFrame,
        List.take_left' (length_putBE _ _)] at htake
      rw [← htake, List.take_append_drop]
    have hlen : f.payload.length + 1 < 256 ^ 4 := by
      unfold kMaxFrameBytes at hfits
      omega
    have hpart : part.length < f.payload.length + 1 := by
      rw [List.length_append, length_putBE] at hlt
      omega
    simp only [takeFrame, reads_putBE hlen part, if_neg hfits, if_pos hpart]

-- Whatever was cut off, the buffer holds the next frame whole or waits for it.
theorem takeFrame_append {f : Frame} (h : f.Fits) {buf later rest : Bytes}
    (heq : buf ++ later = writeFrame f ++ rest) :
    takeFrame buf = .wait ∨
      ∃ buf', buf = writeFrame f ++ buf' ∧ takeFrame buf = .frame f buf' ∧ buf' ++ later = rest := by
  by_cases hlt : buf.length < (writeFrame f).length
  · left
    obtain ⟨tail, htail⟩ : ∃ tail, buf ++ tail = writeFrame f := by
      have hpre : buf <+: writeFrame f := by
        have h₁ : buf <+: writeFrame f ++ rest := ⟨later, heq⟩
        exact List.prefix_of_prefix_length_le h₁ (List.prefix_append _ _) (by omega)
      exact hpre
    exact takeFrame_of_lt h htail hlt
  · right
    obtain ⟨buf', rfl⟩ : writeFrame f <+: buf := by
      have h₁ : writeFrame f <+: buf ++ later := ⟨rest, heq.symm⟩
      exact List.prefix_of_prefix_length_le h₁ (List.prefix_append _ _) (by omega)
    refine ⟨buf', rfl, takeFrame_writeFrame h buf', ?_⟩
    rw [List.append_assoc] at heq
    exact List.append_cancel_left heq

theorem framesIn_flatMap {fs : List Frame} (h : ∀ f ∈ fs, f.Fits) {fuel : Nat}
    (hfuel : (fs.flatMap writeFrame).length ≤ fuel) : framesIn fuel (fs.flatMap writeFrame) = fs := by
  induction fs generalizing fuel with
  | nil =>
      cases fuel with
      | zero => rfl
      | succ fuel => rfl
  | cons f fs ih =>
      have hf := h f List.mem_cons_self
      rw [List.flatMap_cons] at hfuel ⊢
      rw [List.length_append, length_writeFrame] at hfuel
      cases fuel with
      | zero => omega
      | succ fuel =>
          simp only [framesIn, takeFrame_writeFrame hf]
          rw [ih (fun f' hf' => h f' (List.mem_cons_of_mem f hf')) (by omega)]

theorem drainFrames_flatMap {fs : List Frame} (h : ∀ f ∈ fs, f.Fits) :
    drainFrames (fs.flatMap writeFrame) = fs := framesIn_flatMap h (Nat.le_refl _)

end BATorrent.Protocol
