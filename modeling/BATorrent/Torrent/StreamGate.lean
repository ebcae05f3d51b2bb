import Mathlib.Data.Int.Interval
import Mathlib.Data.List.GetD
import Mathlib.Order.Bounds.Basic

namespace BATorrent.StreamGate

def kAssumedRuntimeSecs : Int := 30 * 60

def kMinBytesPerSec : Int := 256 * 1024

def kWindowSecs : Int := 30

def kMinWindowPieces : Int := 4

def kMaxWindowPieces : Int := 128

def kTailPieces : Int := 2

def kNearAheadWindows : Int := 10

def bytesPerSec (fileSize : Int) : Int := max (fileSize / kAssumedRuntimeSecs) kMinBytesPerSec

def deadlineMs (distance fileSize : Int) : Int :=
  if distance ≤ 0 then 0 else min (distance * 1000 / bytesPerSec fileSize) (10 * 60 * 1000)

def windowPieces (pieceSize fileSize : Int) : Int :=
  if pieceSize ≤ 0 then kMinWindowPieces
  else
    let n := (kWindowSecs * bytesPerSec fileSize + pieceSize - 1) / pieceSize
    max kMinWindowPieces (min n kMaxWindowPieces)

-- A number as an int of 32 bits holds it. The 64 bits of the others are enough for what is in a torrent.
def toInt (n : Int) : Int := n.bmod (2 ^ 32)

section Run

-- `index` is the type that the number of a piece is kept in. No run is longer than the bitmap, which
-- is what the loop is bounded by.
def extend (index : Int → Int) (missing : Int → Bool) (pieceSize globalPos cap : Int) : Nat → Int → Int
  | 0, stop => stop
  | fuel + 1, stop =>
      if stop - globalPos < cap then
        let next := index (stop / pieceSize)
        if missing next then stop
        else extend index missing pieceSize globalPos cap fuel ((next + 1) * pieceSize)
      else stop

-- Either engine's bound on the run of bytes: the pieces, then the end of the file and the cap.
def runFrom (index : Int → Int) (missing : Int → Bool) (pieces : Nat) (pieceSize fileOffset fileSize fromByte cap : Int) :
    Int :=
  let globalPos := fileOffset + fromByte
  let piece := index (globalPos / pieceSize)
  if missing piece then 0
  else
    let stop := extend index missing pieceSize globalPos cap pieces ((piece + 1) * pieceSize)
    min cap (min stop (fileOffset + fileSize) - globalPos)

def testBit (haveBits : List Bool) (piece : Int) : Bool := haveBits.getD (toInt piece).toNat false

def contiguousRun (haveBits : List Bool) (pieceSize fileOffset fileSize fromByte cap : Int) : Int :=
  if pieceSize ≤ 0 ∨ fromByte < 0 ∨ fileSize ≤ fromByte ∨ cap ≤ 0 then 0
  else
    runFrom id (fun piece => haveBits.length ≤ piece || !testBit haveBits piece) haveBits.length pieceSize
      fileOffset fileSize fromByte cap

end Run

-- Where a file is in a torrent, whose pieces are numbered by an int and have one for their size.
structure Geometry where
  haveBits : List Bool
  pieceSize : Int
  fileOffset : Int
  fileSize : Int
  pieces_lt : haveBits.length < 2 ^ 31
  pieceSize_pos : 0 < pieceSize
  pieceSize_lt : pieceSize < 2 ^ 31
  fileOffset_nonneg : 0 ≤ fileOffset
  fileSize_nonneg : 0 ≤ fileSize
  inside : fileOffset + fileSize ≤ haveBits.length * pieceSize

namespace Geometry

variable (g : Geometry)

def had (piece : Int) : Bool := 0 ≤ piece && g.haveBits.getD piece.toNat false

-- So many bytes are in the file from here on, are asked for, and are all in pieces that it has.
def Available (fromByte cap n : Int) : Prop :=
  n ≤ cap ∧ fromByte + n ≤ g.fileSize ∧
    ∀ b, g.fileOffset + fromByte ≤ b → b < g.fileOffset + fromByte + n → g.had (b / g.pieceSize) = true

end Geometry

theorem toInt_of_small {n : Int} (hlow : 0 ≤ n) (hhigh : n < 2 ^ 31) : toInt n = n := by
  unfold toInt
  rw [Int.bmod_eq_of_le] <;> omega

section Spec

variable {index : Int → Int} {missing had : Int → Bool} {pieceSize cap : Int} {pieces : Nat}

-- How a loop tells the pieces that there are from those that are missing.
structure Tells (index : Int → Int) (missing had : Int → Bool) (pieces : Nat) : Prop where
  index_eq : ∀ e : Int, 0 ≤ e → e ≤ pieces → index e = e
  missing_eq : ∀ e : Int, 0 ≤ e → e ≤ pieces → missing e = !had e
  beyond : ∀ e : Int, (pieces : Int) ≤ e → had e = false

-- The loop goes over pieces that there are, and stops at one that is missing or past the cap.
theorem extend_spec (h : Tells index missing had pieces) (hsize : 0 < pieceSize) (globalPos cap : Int) (fuel : Nat)
    (e : Int) (hnonneg : 0 ≤ e) (hle : e ≤ pieces) (hfuel : (pieces : Int) - e ≤ fuel) :
    ∃ k, e ≤ k ∧ extend index missing pieceSize globalPos cap fuel (e * pieceSize) = k * pieceSize ∧
      (∀ j, e ≤ j → j < k → had j = true) ∧ (had k = false ∨ cap ≤ k * pieceSize - globalPos) := by
  induction fuel generalizing e with
  | zero =>
      refine ⟨e, le_refl e, rfl, fun j hj hlt => absurd hlt (not_lt.mpr hj), .inl (h.beyond e ?_)⟩
      omega
  | succ fuel ih =>
      rw [extend]
      by_cases hcap : e * pieceSize - globalPos < cap
      · rw [if_pos hcap]
        have hnext : index (e * pieceSize / pieceSize) = e := by
          rw [Int.mul_ediv_cancel e hsize.ne', h.index_eq e hnonneg hle]
        rw [hnext]
        dsimp only
        by_cases hhad : had e = true
        · have hmissing : missing e = false := by rw [h.missing_eq e hnonneg hle, hhad]; rfl
          have hlt : e < pieces := by
            by_contra hbeyond
            rw [h.beyond e (not_lt.mp hbeyond)] at hhad
            cases hhad
          obtain ⟨k, hk, heq, hall, hstop⟩ := ih (e + 1) (by omega) (by omega) (by omega)
          rw [if_neg (by rw [hmissing]; exact Bool.false_ne_true)]
          refine ⟨k, by omega, heq, fun j hj hjk => ?_, hstop⟩
          rcases eq_or_lt_of_le hj with rfl | hlt'
          · exact hhad
          · exact hall j hlt' hjk
        · have hhad' : had e = false := Bool.eq_false_iff.mpr hhad
          have hmissing : missing e = true := by
            rw [h.missing_eq e hnonneg hle, hhad']
            rfl
          rw [if_pos hmissing]
          exact ⟨e, le_refl e, rfl, fun j hj hlt => absurd hlt (not_lt.mpr hj), .inl hhad'⟩
      · rw [if_neg hcap]
        exact ⟨e, le_refl e, rfl, fun j hj hlt => absurd hlt (not_lt.mpr hj), .inr (not_lt.mp hcap)⟩

-- A run is as long as it can be.
theorem runFrom_greatest (g : Geometry) (h : Tells index missing g.had g.haveBits.length) {fromByte : Int}
    (hnonneg : 0 ≤ fromByte) (hlt : fromByte < g.fileSize) (hcap : 0 < cap) :
    IsGreatest {n | g.Available fromByte cap n}
      (runFrom index missing g.haveBits.length g.pieceSize g.fileOffset g.fileSize fromByte cap) := by
  have hoffset := g.fileOffset_nonneg
  have hinside := g.inside
  have hsize := g.pieceSize_pos
  unfold runFrom
  dsimp only
  generalize hpos : g.fileOffset + fromByte = globalPos
  have hpiece : 0 ≤ globalPos / g.pieceSize := Int.ediv_nonneg (by omega) hsize.le
  have hpieces : globalPos / g.pieceSize < g.haveBits.length := Int.ediv_lt_of_lt_mul hsize (by omega)
  rw [h.index_eq _ hpiece hpieces.le]
  by_cases hhad : g.had (globalPos / g.pieceSize) = true
  · have hmissing : ¬ missing (globalPos / g.pieceSize) = true := by
      rw [h.missing_eq _ hpiece hpieces.le, hhad]
      exact Bool.false_ne_true
    obtain ⟨k, hk, heq, hall, hstop⟩ := extend_spec h hsize globalPos cap g.haveBits.length
      (globalPos / g.pieceSize + 1) (by omega) (by omega) (by omega)
    rw [if_neg hmissing, heq]
    constructor
    · refine ⟨min_le_left _ _, ?_, fun b hb hlt' => ?_⟩
      · have := min_le_right cap (min (k * g.pieceSize) (g.fileOffset + g.fileSize) - globalPos)
        have := min_le_right (k * g.pieceSize) (g.fileOffset + g.fileSize)
        omega
      · have hrun := min_le_right cap (min (k * g.pieceSize) (g.fileOffset + g.fileSize) - globalPos)
        have hend := min_le_left (k * g.pieceSize) (g.fileOffset + g.fileSize)
        have hbelow : b / g.pieceSize < k := Int.ediv_lt_of_lt_mul hsize (by omega)
        have habove : globalPos / g.pieceSize ≤ b / g.pieceSize := Int.ediv_le_ediv hsize (by omega)
        rcases eq_or_lt_of_le habove with heq' | hlt''
        · rwa [← heq']
        · exact hall _ hlt'' hbelow
    · rintro n ⟨hn, hfile, hbytes⟩
      rw [hpos] at hbytes
      refine le_min hn ?_
      have hpieceEnd : n ≤ k * g.pieceSize - globalPos := by
        by_contra hmore
        have hlast := hbytes (k * g.pieceSize) ?_ (by omega)
        · rw [Int.mul_ediv_cancel k hsize.ne'] at hlast
          rcases hstop with hgone | hfull
          · rw [hgone] at hlast
            cases hlast
          · omega
        · have hround := Int.lt_ediv_add_one_mul_self globalPos hsize
          have hmono := Int.mul_le_mul_of_nonneg_right hk hsize.le
          omega
      omega
  · have hhad' : g.had (globalPos / g.pieceSize) = false := Bool.eq_false_iff.mpr hhad
    have hmissing : missing (globalPos / g.pieceSize) = true := by
      rw [h.missing_eq _ hpiece hpieces.le, hhad']
      rfl
    rw [if_pos hmissing]
    refine ⟨⟨hcap.le, by omega, fun b hb hlt' => by omega⟩, ?_⟩
    rintro n ⟨_, _, hbytes⟩
    rw [hpos] at hbytes
    by_contra hmore
    exact hhad (hbytes globalPos (le_refl _) (by omega))

theorem tells_bits (g : Geometry) :
    Tells id (fun piece => g.haveBits.length ≤ piece || !testBit g.haveBits piece) g.had g.haveBits.length where
  index_eq _ _ _ := rfl
  missing_eq e hnonneg hle := by
    have hsmall := g.pieces_lt
    unfold testBit Geometry.had
    rw [toInt_of_small hnonneg (by omega), decide_eq_true hnonneg, Bool.true_and]
    by_cases hbeyond : (g.haveBits.length : Int) ≤ e
    · rw [List.getD_eq_default _ _ (by omega), decide_eq_true hbeyond]
      rfl
    · rw [decide_eq_false hbeyond, Bool.false_or]
  beyond e he := by
    unfold Geometry.had
    rw [List.getD_eq_default _ _ (by omega), Bool.and_false]

theorem contiguousRun_greatest (g : Geometry) {fromByte : Int} (hnonneg : 0 ≤ fromByte)
    (hlt : fromByte < g.fileSize) (hcap : 0 < cap) :
    IsGreatest {n | g.Available fromByte cap n}
      (contiguousRun g.haveBits g.pieceSize g.fileOffset g.fileSize fromByte cap) := by
  have hsize := g.pieceSize_pos
  unfold contiguousRun
  rw [if_neg (by omega)]
  exact runFrom_greatest g (tells_bits g) hnonneg hlt hcap

theorem contiguousRun_out_of_range (haveBits : List Bool) (pieceSize fileOffset : Int) {fileSize fromByte : Int}
    (h : ¬ (0 ≤ fromByte ∧ fromByte < fileSize)) :
    contiguousRun haveBits pieceSize fileOffset fileSize fromByte cap = 0 := by
  unfold contiguousRun
  rw [if_pos (by omega)]

end Spec

end BATorrent.StreamGate
