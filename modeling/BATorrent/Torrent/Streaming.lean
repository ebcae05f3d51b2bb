import BATorrent.Lib.Run
import BATorrent.Torrent.StreamGate
import Mathlib.Logic.Function.Basic

namespace BATorrent.Streaming

open Lib StreamGate

structure FileEntry where
  offset : Int
  size : Int

-- Every file is in the pieces, whose number and size are ints.
structure TorrentInfo where
  pieceLength : Int
  numPieces : Nat
  files : List FileEntry
  pieceLength_pos : 0 < pieceLength
  pieceLength_lt : pieceLength < 2 ^ 31
  numPieces_lt : numPieces < 2 ^ 31
  inside : ∀ f ∈ files, 0 ≤ f.offset ∧ 0 ≤ f.size ∧ f.offset + f.size ≤ numPieces * pieceLength

structure StreamWindow where
  file : Int := -1
  firstMissing : Int := -1
  first : Int := -1
  last : Int := -1
deriving DecidableEq

-- A torrent's handle, with when its pieces are due in milliseconds, and what is kept under it.
structure Torrent where
  valid : Bool
  torrentFile : Option TorrentInfo
  havePiece : Int → Bool
  deadlines : Int → Option Int
  priorities : List Nat
  streamed : Bool
  window : StreamWindow

abbrev Session := List Torrent

-- What both the reads and the deadlines check before anything else.
def fileOf (t : Torrent) (fileIndex : Int) : Option (TorrentInfo × FileEntry) :=
  if !t.valid then none
  else
    t.torrentFile.bind fun ti =>
      if fileIndex < 0 then none else ti.files[fileIndex.toNat]?.map fun f => (ti, f)

namespace Session

def torrentAt (s : Session) (torrentIndex : Int) : Option Torrent :=
  if torrentIndex < 0 then none else s[torrentIndex.toNat]?

def streamContiguousAvailableBytes (s : Session) (torrentIndex fileIndex fromByte cap : Int) : Int :=
  match s.torrentAt torrentIndex with
  | none => 0
  | some t =>
      match fileOf t fileIndex with
      | none => 0
      | some (ti, f) =>
          if ti.pieceLength ≤ 0 ∨ fromByte < 0 ∨ f.size ≤ fromByte then 0
          else if toInt ((f.offset + fromByte) / ti.pieceLength) < 0 then 0
          else
            runFrom toInt (fun piece => ti.numPieces ≤ piece || !t.havePiece piece) ti.numPieces ti.pieceLength
              f.offset f.size fromByte cap

end Session

theorem inside_of_fileOf {t : Torrent} {fileIndex : Int} {ti : TorrentInfo} {f : FileEntry}
    (h : fileOf t fileIndex = some (ti, f)) :
    0 ≤ f.offset ∧ 0 ≤ f.size ∧ f.offset + f.size ≤ ti.numPieces * ti.pieceLength := by
  unfold fileOf at h
  by_cases hvalid : t.valid = true
  · rw [if_neg (by simpa using hvalid)] at h
    obtain ⟨ti', _, h⟩ := Option.bind_eq_some_iff.mp h
    split_ifs at h
    obtain ⟨f', hf, heq⟩ := Option.map_eq_some_iff.mp h
    obtain ⟨rfl, rfl⟩ := Prod.mk.inj heq
    exact ti'.inside f' (List.mem_of_getElem? hf)
  · rw [if_pos (by simpa using hvalid)] at h
    cases h

-- The bits that the other engine is sent.
def bitsOf (t : Torrent) (ti : TorrentInfo) : List Bool := (List.range ti.numPieces).map fun p : Nat => t.havePiece p

@[simp] theorem length_bitsOf (t : Torrent) (ti : TorrentInfo) : (bitsOf t ti).length = ti.numPieces := by
  rw [bitsOf, List.length_map, List.length_range]

def geometry (t : Torrent) (ti : TorrentInfo) (f : FileEntry)
    (hinside : 0 ≤ f.offset ∧ 0 ≤ f.size ∧ f.offset + f.size ≤ ti.numPieces * ti.pieceLength) : Geometry where
  haveBits := bitsOf t ti
  pieceSize := ti.pieceLength
  fileOffset := f.offset
  fileSize := f.size
  pieces_lt := by rw [length_bitsOf]; exact ti.numPieces_lt
  pieceSize_pos := ti.pieceLength_pos
  pieceSize_lt := ti.pieceLength_lt
  fileOffset_nonneg := hinside.1
  fileSize_nonneg := hinside.2.1
  inside := by rw [length_bitsOf]; exact hinside.2.2

-- None too where there is no such torrent or file. The torrent counts as streamed from then on.
def Session.streamGeometry (s : Session) (torrentIndex fileIndex : Int) : Session × Option Geometry :=
  match s.torrentAt torrentIndex with
  | none => (s, none)
  | some t =>
      match h : fileOf t fileIndex with
      | none => (s, none)
      | some (ti, f) =>
          (s.set torrentIndex.toNat { t with streamed := true }, some (geometry t ti f (inside_of_fileOf h)))

section Deadlines

def piecesFrom (first last : Int) : List Int := (List.range (last + 1 - first).toNat).map fun k : Nat => first + k

-- What a call is for, where a piece of its window is missing.
structure Target where
  fileIndex : Int
  pieceSize : Int
  fileSize : Int
  fileOffset : Int
  off : Int
  firstPiece : Int
  lastFilePiece : Int
  window : Int
  last : Int
  firstMissing : Int

namespace Torrent

variable (t : Torrent)

def missing (piece : Int) : Bool := !t.havePiece piece

-- Numbers of pieces are ints, and the sums of them that are formed here are too.
def target (fileIndex startByte windowPieces : Int) : Option Target :=
  (fileOf t fileIndex).bind fun (ti, f) =>
    if ti.pieceLength ≤ 0 ∨ f.size ≤ 0 then none
    else
      let off := f.offset + max 0 (min startByte (f.size - 1))
      let firstPiece := toInt (off / ti.pieceLength)
      let lastFilePiece := min (toInt ((f.offset + f.size - 1) / ti.pieceLength)) (ti.numPieces - 1)
      let window := if 0 < windowPieces then windowPieces else StreamGate.windowPieces ti.pieceLength f.size
      let last := min (firstPiece + window - 1) lastFilePiece
      ((piecesFrom firstPiece last).find? t.missing).map fun firstMissing =>
        { fileIndex := fileIndex
          pieceSize := ti.pieceLength
          fileSize := f.size
          fileOffset := f.offset
          off := off
          firstPiece := firstPiece
          lastFilePiece := lastFilePiece
          window := window
          last := last
          firstMissing := firstMissing }

-- Deadlines count from now.
def setDeadlines (now : Int) (ms : Int → Int) (pieces : List Int) : Torrent :=
  { t with
    deadlines :=
      (pieces.filter t.missing).foldl (fun due p => Function.update due p (some (now + ms p))) t.deadlines }

def clearDeadlines : Torrent := { t with deadlines := fun _ => none }

def level (g : Target) (p : Int) : Nat :=
  if g.lastFilePiece - kTailPieces < p then 7
  else if p < g.firstPiece then 1
  else if p ≤ g.last then 7
  else if p ≤ min (g.last + g.window * kNearAheadWindows) g.lastFilePiece then 6
  else 4

def prioritize (g : Target) : Torrent :=
  { t with
    priorities :=
      (piecesFrom (toInt (g.fileOffset / g.pieceSize)) (min g.lastFilePiece (t.priorities.length - 1))).foldl
        (fun prio p => prio.set p.toNat (level g p)) t.priorities }

def SameWindow (g : Target) : Prop :=
  t.window.file = g.fileIndex ∧ t.window.first = g.firstPiece ∧ t.window.firstMissing = g.firstMissing

-- A read of the tail while there is a window of the same file.
def TailBeside (g : Target) : Prop :=
  g.lastFilePiece - kTailPieces < g.firstPiece ∧ t.window.file = g.fileIndex

def Jumped (g : Target) : Prop :=
  t.window.file ≠ g.fileIndex ∨ g.firstPiece < t.window.first ∨ t.window.last < g.firstPiece

def Moved (g : Target) : Prop := t.window.file ≠ g.fileIndex ∨ t.window.first ≠ g.firstPiece

instance (g : Target) : Decidable (t.SameWindow g) := inferInstanceAs (Decidable (_ ∧ _))

instance (g : Target) : Decidable (t.TailBeside g) := inferInstanceAs (Decidable (_ ∧ _))

instance (g : Target) : Decidable (t.Jumped g) := inferInstanceAs (Decidable (_ ∨ _))

instance (g : Target) : Decidable (t.Moved g) := inferInstanceAs (Decidable (_ ∨ _))

-- The index at the end of the file is due soon again once the deadlines are gone.
def leave (now : Int) (g : Target) : Torrent :=
  if t.Jumped g ∧ 0 ≤ t.window.file then
    t.clearDeadlines.setDeadlines now (fun _ => 2000)
      (piecesFrom (max (toInt (g.fileOffset / g.pieceSize)) (g.lastFilePiece - kTailPieces + 1)) g.lastFilePiece)
  else t

def keepWindow (g : Target) : Torrent :=
  { t with window := ⟨g.fileIndex, g.firstMissing, g.firstPiece, g.last⟩ }

def moveWindow (now : Int) (g : Target) : Torrent :=
  let kept := (t.leave now g).keepWindow g
  (if t.Moved g then kept.prioritize g else kept).setDeadlines now
    (fun p => deadlineMs (p * g.pieceSize - g.off) g.fileSize) (piecesFrom g.firstMissing g.last)

def setWindow (now : Int) (g : Target) : Torrent :=
  let t := { t with streamed := true }
  if t.SameWindow g then t
  else if t.TailBeside g then t.setDeadlines now (fun _ => 0) (piecesFrom g.firstMissing g.last)
  else t.moveWindow now g

def streamSetDeadlineWindow (fileIndex startByte windowPieces now : Int) : Torrent :=
  match t.target fileIndex startByte windowPieces with
  | none => t
  | some g => t.setWindow now g

def pieceFinished (piece : Int) : Torrent :=
  { t with
    havePiece := Function.update t.havePiece piece true
    deadlines := Function.update t.deadlines piece none }

end Torrent

def Session.modify (s : Session) (torrentIndex : Int) (f : Torrent → Torrent) : Session :=
  match s.torrentAt torrentIndex with
  | none => s
  | some t => s.set torrentIndex.toNat (f t)

inductive Event where
  | streamSetDeadlineWindow (torrentIndex fileIndex startByte windowPieces now : Int)
  | pieceFinished (torrentIndex piece : Int)

def Session.next (s : Session) : Event → Session
  | .streamSetDeadlineWindow torrentIndex fileIndex startByte windowPieces now =>
      s.modify torrentIndex fun t => t.streamSetDeadlineWindow fileIndex startByte windowPieces now
  | .pieceFinished torrentIndex piece => s.modify torrentIndex fun t => t.pieceFinished piece

-- Nothing is streamed yet of the torrents that there are.
def machine (torrents : Session) : Machine Session Event Empty where
  init := torrents.map fun t => { t with window := {} }
  next s e := some (s.next e, [])

end Deadlines

end BATorrent.Streaming

namespace BATorrent.Streaming

open StreamGate

variable {t : Torrent} {ti : TorrentInfo} {f : FileEntry} {fileIndex : Int}

theorem length_bits (h : 0 ≤ f.offset ∧ 0 ≤ f.size ∧ f.offset + f.size ≤ ti.numPieces * ti.pieceLength) :
    (geometry t ti f h).haveBits.length = ti.numPieces := length_bitsOf t ti

theorem tells_pieces (h : 0 ≤ f.offset ∧ 0 ≤ f.size ∧ f.offset + f.size ≤ ti.numPieces * ti.pieceLength) :
    Tells toInt (fun piece => ti.numPieces ≤ piece || !t.havePiece piece) (geometry t ti f h).had
      (geometry t ti f h).haveBits.length where
  index_eq e hnonneg hle := by
    have hsmall := (geometry t ti f h).pieces_lt
    exact toInt_of_small hnonneg (by omega)
  missing_eq e hnonneg hle := by
    change e ≤ ((bitsOf t ti).length : Int) at hle
    rw [length_bitsOf] at hle
    unfold Geometry.had
    rw [decide_eq_true hnonneg, Bool.true_and]
    change _ = !(bitsOf t ti).getD e.toNat false
    by_cases hbeyond : (ti.numPieces : Int) ≤ e
    · rw [List.getD_eq_default _ _ (by rw [length_bitsOf]; omega), decide_eq_true hbeyond]
      rfl
    · have hlt : e.toNat < ti.numPieces := by omega
      rw [decide_eq_false hbeyond, Bool.false_or, List.getD_eq_getElem _ _ (by rwa [length_bitsOf])]
      simp only [bitsOf, List.getElem_map, List.getElem_range, Int.toNat_of_nonneg hnonneg]
  beyond e he := by
    unfold Geometry.had
    rw [List.getD_eq_default _ _ (by omega), Bool.and_false]

-- What is had of a file that there is.
theorem available_eq (h : 0 ≤ f.offset ∧ 0 ≤ f.size ∧ f.offset + f.size ≤ ti.numPieces * ti.pieceLength)
    {s : Session} {torrentIndex fromByte cap : Int} (ht : s.torrentAt torrentIndex = some t)
    (hfile : fileOf t fileIndex = some (ti, f)) (hcap : 0 < cap) :
    s.streamContiguousAvailableBytes torrentIndex fileIndex fromByte cap =
      contiguousRun (bitsOf t ti) ti.pieceLength f.offset f.size fromByte cap := by
  unfold Session.streamContiguousAvailableBytes
  rw [ht]
  dsimp only
  rw [hfile]
  dsimp only
  have hlength := ti.pieceLength_pos
  by_cases hrange : 0 ≤ fromByte ∧ fromByte < f.size
  · have hpiece : 0 ≤ (f.offset + fromByte) / ti.pieceLength := Int.ediv_nonneg (by omega) hlength.le
    have hpieces : (f.offset + fromByte) / ti.pieceLength < ti.numPieces :=
      Int.ediv_lt_of_lt_mul hlength (by omega)
    have hsmall := ti.numPieces_lt
    rw [if_neg (by omega), toInt_of_small hpiece (by omega), if_neg (not_lt.mpr hpiece)]
    have hrun := runFrom_greatest (geometry t ti f h) (tells_pieces h) hrange.1 hrange.2 hcap
    rw [length_bits] at hrun
    exact hrun.unique (contiguousRun_greatest (geometry t ti f h) hrange.1 hrange.2 hcap)
  · rw [contiguousRun_out_of_range _ _ _ hrange, if_pos (by omega)]

-- Both engines find the same run of bytes, and it is as long as it can be.
theorem contiguousRun_exact (g : Geometry) (fromByte cap : Int) (hcap : 0 < cap) :
    (if 0 ≤ fromByte ∧ fromByte < g.fileSize then
        IsGreatest {n | g.Available fromByte cap n}
          (contiguousRun g.haveBits g.pieceSize g.fileOffset g.fileSize fromByte cap)
      else contiguousRun g.haveBits g.pieceSize g.fileOffset g.fileSize fromByte cap = 0) ∧
    ∀ (s : Session) (torrentIndex fileIndex : Int), (s.streamGeometry torrentIndex fileIndex).2 = some g →
      s.streamContiguousAvailableBytes torrentIndex fileIndex fromByte cap =
        contiguousRun g.haveBits g.pieceSize g.fileOffset g.fileSize fromByte cap := by
  constructor
  · split_ifs with hrange
    · exact contiguousRun_greatest g hrange.1 hrange.2 hcap
    · exact contiguousRun_out_of_range _ _ _ hrange
  · intro s torrentIndex fileIndex hg
    unfold Session.streamGeometry at hg
    cases ht : s.torrentAt torrentIndex with
    | none =>
        rw [ht] at hg
        cases hg
    | some t =>
        rw [ht] at hg
        dsimp only at hg
        split at hg
        · cases hg
        · next ti f hfile =>
            obtain rfl := Option.some.inj hg
            exact available_eq (inside_of_fileOf hfile) ht hfile hcap

def halfFilm : Torrent :=
  { valid := true
    torrentFile := some
      { pieceLength := 4
        numPieces := 2
        files := [⟨0, 1⟩, ⟨1, 6⟩]
        pieceLength_pos := by decide
        pieceLength_lt := by decide
        numPieces_lt := by decide
        inside := by decide }
    havePiece := fun piece => piece = 0
    deadlines := fun _ => none
    priorities := [4, 4]
    streamed := false
    window := {} }

-- Of a film that starts one byte into the first of two pieces three bytes are there.
theorem contiguousRun_exact_film :
    ∃ g, (Session.streamGeometry [halfFilm] 0 1).2 = some g ∧ IsGreatest {n | g.Available 0 10 n} 3 ∧
      Session.streamContiguousAvailableBytes [halfFilm] 0 1 0 10 = 3 := by
  obtain ⟨g, hg⟩ : ∃ g, (Session.streamGeometry [halfFilm] 0 1).2 = some g := ⟨_, rfl⟩
  obtain ⟨hrun, hsame⟩ := contiguousRun_exact g 0 10 (by decide)
  have hthree : contiguousRun g.haveBits g.pieceSize g.fileOffset g.fileSize 0 10 = 3 := by
    cases hg
    rfl
  have hrange : (0 : Int) ≤ 0 ∧ 0 < g.fileSize := by
    cases hg
    decide
  rw [if_pos hrange, hthree] at hrun
  exact ⟨g, hg, hrun, (hsame [halfFilm] 0 1 hg).trans hthree⟩

end BATorrent.Streaming
