import BATorrent.Torrent.Streaming

namespace BATorrent.Streaming

open Lib Machine StreamGate

section Pieces

theorem mem_piecesFrom {first last p : Int} : p ∈ piecesFrom first last ↔ first ≤ p ∧ p ≤ last := by
  unfold piecesFrom
  rw [List.mem_map]
  constructor
  · rintro ⟨k, hk, rfl⟩
    have hlt := List.mem_range.mp hk
    omega
  · rintro ⟨hfirst, hlast⟩
    exact ⟨(p - first).toNat, List.mem_range.mpr (by omega), by omega⟩

theorem getElem_piecesFrom {first last : Int} {i : Nat} (hi : i < (piecesFrom first last).length) :
    (piecesFrom first last)[i] = first + i := by
  unfold piecesFrom at hi ⊢
  rw [List.getElem_map, List.getElem_range]

-- The first piece that is found is the first one there is.
theorem find?_piecesFrom {q : Int → Bool} {first last m : Int} (h : (piecesFrom first last).find? q = some m) :
    first ≤ m ∧ m ≤ last ∧ q m = true ∧ ∀ p, first ≤ p → p < m → q p = false := by
  obtain ⟨hq, i, hi, hm, hbefore⟩ := List.find?_eq_some_iff_getElem.mp h
  obtain ⟨hfirst, hlast⟩ := mem_piecesFrom.mp (List.mem_of_find?_eq_some h)
  refine ⟨hfirst, hlast, hq, fun p hp hlt => ?_⟩
  rw [getElem_piecesFrom hi] at hm
  have hj : (p - first).toNat < i := by omega
  have hnot := hbefore (p - first).toNat hj
  rw [getElem_piecesFrom (hj.trans hi)] at hnot
  have hp' : first + ((p - first).toNat : Int) = p := by omega
  rw [hp'] at hnot
  simpa using hnot

end Pieces

section Deadlines

variable {t : Torrent} {now : Int}

theorem deadlines_foldl {α : Type} (value : Int → α) (pieces : List Int) (due : Int → α) (p : Int) :
    pieces.foldl (fun due p => Function.update due p (value p)) due p =
      if p ∈ pieces then value p else due p := by
  induction pieces generalizing due with
  | nil => rfl
  | cons q pieces ih =>
      rw [List.foldl_cons, ih]
      by_cases hp : p ∈ pieces
      · rw [if_pos hp, if_pos (List.mem_cons_of_mem q hp)]
      · rw [if_neg hp]
        by_cases hq : p = q
        · rw [hq, Function.update_self, if_pos List.mem_cons_self]
        · rw [Function.update_of_ne hq, if_neg (by simp [hp, hq])]

theorem deadlines_setDeadlines (ms : Int → Int) (pieces : List Int) (p : Int) :
    (t.setDeadlines now ms pieces).deadlines p =
      if p ∈ pieces ∧ t.missing p = true then some (now + ms p) else t.deadlines p := by
  have hfold := deadlines_foldl (fun p => some (now + ms p)) (pieces.filter t.missing) t.deadlines p
  exact hfold.trans (if_congr List.mem_filter rfl rfl)

-- What deadlines have nothing to do with.
structure SameButDeadlines (t t' : Torrent) : Prop where
  valid : t'.valid = t.valid
  torrentFile : t'.torrentFile = t.torrentFile
  havePiece : t'.havePiece = t.havePiece
  priorities : t'.priorities = t.priorities
  streamed : t'.streamed = t.streamed
  window : t'.window = t.window

theorem same_leave (now : Int) (g : Target) : SameButDeadlines t (t.leave now g) := by
  unfold Torrent.leave
  split_ifs <;> exact ⟨rfl, rfl, rfl, rfl, rfl, rfl⟩

theorem deadlineMs_nonneg (distance fileSize : Int) : 0 ≤ deadlineMs distance fileSize := by
  have hrate : 0 < bytesPerSec fileSize := lt_of_lt_of_le (by decide) (le_max_right _ _)
  unfold deadlineMs
  split_ifs with hd
  · exact le_refl 0
  · exact le_min (Int.ediv_nonneg (by omega) hrate.le) (by decide)

theorem deadlineMs_mono (fileSize : Int) {a b : Int} (h : a ≤ b) : deadlineMs a fileSize ≤ deadlineMs b fileSize := by
  have hrate : 0 < bytesPerSec fileSize := lt_of_lt_of_le (by decide) (le_max_right _ _)
  unfold deadlineMs
  split_ifs with ha hb
  · exact le_refl 0
  · exact le_min (Int.ediv_nonneg (by omega) hrate.le) (by decide)
  · omega
  · exact min_le_min_right _ (Int.ediv_le_ediv hrate (by omega))

end Deadlines

section Priorities

theorem length_foldl_set (level : Int → Nat) (pieces : List Int) (prio : List Nat) :
    (pieces.foldl (fun prio p => prio.set p.toNat (level p)) prio).length = prio.length := by
  induction pieces generalizing prio with
  | nil => rfl
  | cons q pieces ih => rw [List.foldl_cons, ih, List.length_set]

theorem getElem?_foldl_set {level : Int → Nat} {pieces : List Int} {prio : List Nat} {i : Nat}
    (h : ∀ p ∈ pieces, p.toNat ≠ i) :
    (pieces.foldl (fun prio p => prio.set p.toNat (level p)) prio)[i]? = prio[i]? := by
  induction pieces generalizing prio with
  | nil => rfl
  | cons q pieces ih =>
      obtain ⟨hq, hpieces⟩ := List.forall_mem_cons.mp h
      rw [List.foldl_cons, ih hpieces, List.getElem?_set_ne hq]

end Priorities

section Target

variable {t : Torrent} {fileIndex startByte windowPieces : Int} {g : Target}

-- What a target says about the file that it is in.
structure Aims (t : Torrent) (fileIndex : Int) (g : Target) : Prop where
  file : ∃ ti f, fileOf t fileIndex = some (ti, f) ∧ g.pieceSize = ti.pieceLength ∧ g.fileOffset = f.offset ∧
    g.fileSize = f.size
  fileIndex_eq : g.fileIndex = fileIndex
  fileIndex_nonneg : 0 ≤ g.fileIndex
  pieceSize_pos : 0 < g.pieceSize
  fileOffset_nonneg : 0 ≤ g.fileOffset
  fileSize_pos : 0 < g.fileSize
  fileFirst : toInt (g.fileOffset / g.pieceSize) = g.fileOffset / g.pieceSize
  lastFilePiece : g.lastFilePiece ≤ (g.fileOffset + g.fileSize - 1) / g.pieceSize
  firstMissing : g.firstPiece ≤ g.firstMissing ∧ g.firstMissing ≤ g.last
  missing : t.missing g.firstMissing = true
  had : ∀ p, g.firstPiece ≤ p → p < g.firstMissing → t.missing p = false

theorem aims_of_target (h : t.target fileIndex startByte windowPieces = some g) : Aims t fileIndex g := by
  unfold Torrent.target at h
  obtain ⟨⟨ti, f⟩, hfile, h⟩ := Option.bind_eq_some_iff.mp h
  obtain ⟨hoffset, hsize, hinside⟩ := inside_of_fileOf hfile
  have hindex : 0 ≤ fileIndex := by
    unfold fileOf at hfile
    by_contra hneg
    by_cases hvalid : t.valid = true
    · rw [if_neg (by simpa using hvalid)] at hfile
      obtain ⟨ti', _, hfile⟩ := Option.bind_eq_some_iff.mp hfile
      rw [if_pos (by omega)] at hfile
      cases hfile
    · rw [if_pos (by simpa using hvalid)] at hfile
      cases hfile
  dsimp only at h
  by_cases hempty : ti.pieceLength ≤ 0 ∨ f.size ≤ 0
  · rw [if_pos hempty] at h
    cases h
  rw [if_neg hempty] at h
  obtain ⟨m, hfind, rfl⟩ := Option.map_eq_some_iff.mp h
  obtain ⟨hfirst, hlast, hmissing, hhad⟩ := find?_piecesFrom hfind
  have hlength := ti.pieceLength_pos
  have hpieces := ti.numPieces_lt
  have hsmall : ∀ b, 0 ≤ b → b < f.offset + f.size → toInt (b / ti.pieceLength) = b / ti.pieceLength := by
    intro b hb hlt
    have hlow := Int.ediv_nonneg hb hlength.le
    have hhigh : b / ti.pieceLength < ti.numPieces := Int.ediv_lt_of_lt_mul hlength (by omega)
    exact toInt_of_small hlow (by omega)
  exact
    { file := ⟨ti, f, hfile, rfl, rfl, rfl⟩
      fileIndex_eq := rfl
      fileIndex_nonneg := hindex
      pieceSize_pos := hlength
      fileOffset_nonneg := hoffset
      fileSize_pos := by dsimp only; omega
      fileFirst := hsmall f.offset hoffset (by omega)
      lastFilePiece :=
        (min_le_left (toInt ((f.offset + f.size - 1) / ti.pieceLength)) ((ti.numPieces : Int) - 1)).trans_eq
          (hsmall (f.offset + f.size - 1) (by omega) (by omega))
      firstMissing := ⟨hfirst, hlast⟩
      missing := hmissing
      had := hhad }

theorem missing_window (h : Aims t fileIndex g) {p : Int} (hp : g.firstPiece ≤ p) (hlast : p ≤ g.last)
    (hmissing : t.missing p = true) : p ∈ piecesFrom g.firstMissing g.last := by
  rw [mem_piecesFrom]
  refine ⟨?_, hlast⟩
  by_contra hlt
  rw [h.had p hp (not_le.mp hlt)] at hmissing
  cases hmissing

-- The window only depends on which pieces there are.
theorem target_eq {t t' : Torrent} (hvalid : t'.valid = t.valid) (hfile : t'.torrentFile = t.torrentFile)
    (hhave : t'.havePiece = t.havePiece) :
    t'.target fileIndex startByte windowPieces = t.target fileIndex startByte windowPieces := by
  have hmissing : t'.missing = t.missing := by
    unfold Torrent.missing
    rw [hhave]
  unfold Torrent.target fileOf
  rw [hvalid, hfile, hmissing]

end Target

section Calls

variable {t : Torrent} {fileIndex startByte windowPieces now : Int} {g : Target}

structure SameFile (t t' : Torrent) : Prop where
  valid : t'.valid = t.valid
  torrentFile : t'.torrentFile = t.torrentFile
  havePiece : t'.havePiece = t.havePiece

theorem same_moveWindow (t : Torrent) (now : Int) (g : Target) : SameFile t (t.moveWindow now g) := by
  have hleave := same_leave (t := t) now g
  unfold Torrent.moveWindow
  dsimp only
  split_ifs <;> exact ⟨hleave.valid, hleave.torrentFile, hleave.havePiece⟩

theorem same_setWindow (t : Torrent) (now : Int) (g : Target) : SameFile t (t.setWindow now g) := by
  unfold Torrent.setWindow
  dsimp only
  split_ifs
  · exact ⟨rfl, rfl, rfl⟩
  · exact ⟨rfl, rfl, rfl⟩
  · have hmove := same_moveWindow { t with streamed := true } now g
    exact ⟨hmove.valid, hmove.torrentFile, hmove.havePiece⟩

theorem window_moveWindow (t : Torrent) (now : Int) (g : Target) :
    (t.moveWindow now g).window = ⟨g.fileIndex, g.firstMissing, g.firstPiece, g.last⟩ := by
  unfold Torrent.moveWindow
  dsimp only
  split_ifs <;> rfl

theorem streamed_moveWindow (h : t.streamed = true) : (t.moveWindow now g).streamed = true := by
  have hleave := same_leave (t := t) now g
  unfold Torrent.moveWindow
  dsimp only
  split_ifs <;> exact hleave.streamed.trans h

theorem deadlines_moveWindow {p : Int} (hp : p ∈ piecesFrom g.firstMissing g.last) (hmissing : t.missing p = true) :
    (t.moveWindow now g).deadlines p = some (now + deadlineMs (p * g.pieceSize - g.off) g.fileSize) := by
  have hleave := same_leave (t := t) now g
  have hstill : ∀ t' : Torrent, t'.havePiece = (t.leave now g).havePiece → t'.missing p = true := by
    intro t' h
    rwa [Torrent.missing, h, hleave.havePiece]
  unfold Torrent.moveWindow
  dsimp only
  split_ifs
  · exact (deadlines_setDeadlines _ _ p).trans (if_pos ⟨hp, hstill _ rfl⟩)
  · exact (deadlines_setDeadlines _ _ p).trans (if_pos ⟨hp, hstill _ rfl⟩)

theorem priorities_setWindow (h : Aims t fileIndex g) {i : Nat}
    (hi : (t.setWindow now g).priorities[i]? ≠ t.priorities[i]?) :
    (i : Int) * g.pieceSize < g.fileOffset + g.fileSize ∧ g.fileOffset < (i + 1) * g.pieceSize := by
  have hsize := h.pieceSize_pos
  by_contra hout
  apply hi
  unfold Torrent.setWindow
  dsimp only
  split_ifs
  · rfl
  · rfl
  · have hleave := same_leave (t := { t with streamed := true }) now g
    unfold Torrent.moveWindow
    dsimp only
    split_ifs
    · refine (getElem?_foldl_set fun p hp heq => hout ?_).trans (congrArg (·[i]?) hleave.priorities)
      obtain ⟨hfirst, hlast⟩ := mem_piecesFrom.mp hp
      rw [h.fileFirst] at hfirst
      have hpos := Int.ediv_nonneg h.fileOffset_nonneg hsize.le
      have hpi : p = i := by omega
      rw [← hpi]
      have hupper : p ≤ (g.fileOffset + g.fileSize - 1) / g.pieceSize :=
        (hlast.trans (min_le_left _ _)).trans h.lastFilePiece
      have hbelow := Int.mul_le_of_le_ediv hsize hupper
      have habove := Int.lt_mul_of_ediv_lt hsize (show g.fileOffset / g.pieceSize < p + 1 by omega)
      exact ⟨by omega, habove⟩
    · exact congrArg (·[i]?) hleave.priorities

theorem length_setWindow (t : Torrent) (now : Int) (g : Target) :
    (t.setWindow now g).priorities.length = t.priorities.length := by
  unfold Torrent.setWindow
  dsimp only
  split_ifs
  · rfl
  · rfl
  · have hleave := same_leave (t := { t with streamed := true }) now g
    unfold Torrent.moveWindow
    dsimp only
    split_ifs
    · exact (length_foldl_set _ _ _).trans (congrArg List.length hleave.priorities)
    · exact congrArg List.length hleave.priorities

end Calls

section Runs

-- Each piece that is still missing of the window that is kept has a deadline.
def Due (t : Torrent) : Prop :=
  0 ≤ t.window.file → ∀ p, t.window.firstMissing ≤ p → p ≤ t.window.last → t.missing p = true →
    (t.deadlines p).isSome = true

-- What a call leaves, in whichever state it finds the torrent.
structure Follows (t : Torrent) (fileIndex startByte windowPieces now : Int) (t' : Torrent) : Prop where
  again : (∀ g, t.target fileIndex startByte windowPieces = some g → t.TailBeside g → t.SameWindow g) →
    ∀ later, t'.streamSetDeadlineWindow fileIndex startByte windowPieces later = t'
  beside : ∀ g, t.target fileIndex startByte windowPieces = some g → t.TailBeside g →
    t'.window = t.window ∧ t'.priorities = t.priorities ∧
      ∀ p, ¬ (g.firstPiece ≤ p ∧ p ≤ g.last ∧ t.missing p = true) → t'.deadlines p = t.deadlines p
  priorities : t'.priorities.length = t.priorities.length ∧
    ∀ i : Nat, t'.priorities[i]? ≠ t.priorities[i]? → ∃ ti f, fileOf t fileIndex = some (ti, f) ∧
      (i : Int) * ti.pieceLength < f.offset + f.size ∧ f.offset < (i + 1) * ti.pieceLength
  deadlines : ∀ g, t.target fileIndex startByte windowPieces = some g → ¬ t.SameWindow g →
    ∀ p q, g.firstPiece ≤ p → p ≤ q → q ≤ g.last → t.missing p = true → t.missing q = true →
      ∃ a b, t'.deadlines p = some a ∧ t'.deadlines q = some b ∧ now ≤ a ∧ a ≤ b
  unmoved : ∀ g, t.target fileIndex startByte windowPieces = some g → t.SameWindow g → t'.deadlines = t.deadlines
  due : Due t'

variable {t : Torrent} {fileIndex startByte windowPieces now : Int} {g : Target}

theorem again_of_streamed (hstreamed : t.streamed = true) (hsame : t.SameWindow g) : t.setWindow now g = t := by
  have hself : { t with streamed := true } = t := by rw [← hstreamed]
  unfold Torrent.setWindow
  rw [hself]
  exact if_pos hsame

theorem due_setDeadlines {ms : Int → Int} {pieces : List Int} (h : Due t) : Due (t.setDeadlines now ms pieces) := by
  intro hfile p hfirst hlast hmissing
  rw [deadlines_setDeadlines]
  split_ifs
  · rfl
  · exact h hfile p hfirst hlast hmissing

theorem due_moveWindow : Due (t.moveWindow now g) := by
  intro _ p hfirst hlast hmissing
  rw [window_moveWindow] at hfirst hlast
  have hmissing' : t.missing p = true := by
    rwa [Torrent.missing, (same_moveWindow t now g).havePiece] at hmissing
  rw [deadlines_moveWindow (mem_piecesFrom.mpr ⟨hfirst, hlast⟩) hmissing']
  rfl

theorem due_setWindow (h : Due t) : Due (t.setWindow now g) := by
  unfold Torrent.setWindow
  dsimp only
  split_ifs
  · exact h
  · exact due_setDeadlines (t := { t with streamed := true }) h
  · exact due_moveWindow

theorem follows_setWindow (h : Aims t fileIndex g) (htarget : t.target fileIndex startByte windowPieces = some g)
    (hdue : Due t) : Follows t fileIndex startByte windowPieces now (t.setWindow now g) where
  again hbeside later := by
    have hsame := same_setWindow t now g
    unfold Torrent.streamSetDeadlineWindow
    rw [target_eq hsame.valid hsame.torrentFile hsame.havePiece, htarget]
    dsimp only
    unfold Torrent.setWindow
    dsimp only
    by_cases hwindow : t.SameWindow g
    · rw [if_pos (show ({ t with streamed := true } : Torrent).SameWindow g from hwindow)]
      exact if_pos hwindow
    · have htail : ¬ t.TailBeside g := fun htail => hwindow (hbeside g htarget htail)
      rw [if_neg (show ¬ ({ t with streamed := true } : Torrent).SameWindow g from hwindow),
        if_neg (show ¬ ({ t with streamed := true } : Torrent).TailBeside g from htail)]
      have hnow : (({ t with streamed := true } : Torrent).moveWindow now g).SameWindow g := by
        unfold Torrent.SameWindow
        rw [window_moveWindow]
        exact ⟨rfl, rfl, rfl⟩
      exact again_of_streamed (streamed_moveWindow rfl) hnow
  beside g' htarget' htail := by
    obtain rfl := Option.some.inj (htarget.symm.trans htarget')
    unfold Torrent.setWindow
    dsimp only
    by_cases hwindow : t.SameWindow g
    · rw [if_pos (show ({ t with streamed := true } : Torrent).SameWindow g from hwindow)]
      exact ⟨rfl, rfl, fun p _ => rfl⟩
    · rw [if_neg (show ¬ ({ t with streamed := true } : Torrent).SameWindow g from hwindow),
        if_pos (show ({ t with streamed := true } : Torrent).TailBeside g from htail)]
      refine ⟨rfl, rfl, fun p hp => ?_⟩
      rw [deadlines_setDeadlines, if_neg]
      rintro ⟨hmem, hmissing⟩
      obtain ⟨hfirst, hlast⟩ := mem_piecesFrom.mp hmem
      exact hp ⟨h.firstMissing.1.trans hfirst, hlast, hmissing⟩
  priorities := by
    refine ⟨length_setWindow t now g, fun i hi => ?_⟩
    obtain ⟨ti, f, hfile, hsize, hoffset, hfileSize⟩ := h.file
    have hover := priorities_setWindow h hi
    rw [hsize, hoffset, hfileSize] at hover
    exact ⟨ti, f, hfile, hover⟩
  deadlines g' htarget' hwindow p q hp hpq hq hmissing hmissing' := by
    obtain rfl := Option.some.inj (htarget.symm.trans htarget')
    have hpmem := missing_window h hp (hpq.trans hq) hmissing
    have hqmem := missing_window h (hp.trans hpq) hq hmissing'
    unfold Torrent.setWindow
    dsimp only
    rw [if_neg (show ¬ ({ t with streamed := true } : Torrent).SameWindow g from hwindow)]
    by_cases htail : t.TailBeside g
    · rw [if_pos (show ({ t with streamed := true } : Torrent).TailBeside g from htail)]
      refine ⟨now + 0, now + 0, ?_, ?_, by omega, le_refl _⟩
      · rw [deadlines_setDeadlines, if_pos ⟨hpmem, hmissing⟩]
      · rw [deadlines_setDeadlines, if_pos ⟨hqmem, hmissing'⟩]
    · rw [if_neg (show ¬ ({ t with streamed := true } : Torrent).TailBeside g from htail)]
      refine ⟨_, _, deadlines_moveWindow hpmem hmissing, deadlines_moveWindow hqmem hmissing', ?_, ?_⟩
      · have hpos := deadlineMs_nonneg (p * g.pieceSize - g.off) g.fileSize
        omega
      · have hmul := Int.mul_le_mul_of_nonneg_right hpq h.pieceSize_pos.le
        have hmono := deadlineMs_mono g.fileSize (show p * g.pieceSize - g.off ≤ q * g.pieceSize - g.off by omega)
        omega
  unmoved g' htarget' hwindow := by
    obtain rfl := Option.some.inj (htarget.symm.trans htarget')
    unfold Torrent.setWindow
    dsimp only
    rw [if_pos (show ({ t with streamed := true } : Torrent).SameWindow g from hwindow)]
  due := due_setWindow hdue

theorem follows_call (hdue : Due t) (fileIndex startByte windowPieces now : Int) :
    Follows t fileIndex startByte windowPieces now
      (t.streamSetDeadlineWindow fileIndex startByte windowPieces now) := by
  cases htarget : t.target fileIndex startByte windowPieces with
  | none =>
      have hstay : ∀ now, t.streamSetDeadlineWindow fileIndex startByte windowPieces now = t := by
        intro now
        rw [Torrent.streamSetDeadlineWindow, htarget]
      rw [hstay]
      have hnone : ∀ g, t.target fileIndex startByte windowPieces ≠ some g := by
        intro g hg
        rw [htarget] at hg
        cases hg
      exact
        { again := fun _ => hstay
          beside := fun g hg => absurd hg (hnone g)
          priorities := ⟨rfl, fun i hi => absurd rfl hi⟩
          deadlines := fun g hg => absurd hg (hnone g)
          unmoved := fun g hg => absurd hg (hnone g)
          due := hdue }
  | some g =>
      have hcall : t.streamSetDeadlineWindow fileIndex startByte windowPieces now = t.setWindow now g := by
        rw [Torrent.streamSetDeadlineWindow, htarget]
      rw [hcall]
      exact follows_setWindow (aims_of_target htarget) htarget hdue

theorem due_pieceFinished (h : Due t) (piece : Int) : Due (t.pieceFinished piece) := by
  intro hfile p hfirst hlast hmissing
  change (!Function.update t.havePiece piece true p) = true at hmissing
  change (Function.update t.deadlines piece none p).isSome = true
  by_cases hp : p = piece
  · rw [hp, Function.update_self] at hmissing
    cases hmissing
  · rw [Function.update_of_ne hp] at hmissing ⊢
    exact h hfile p hfirst hlast hmissing

theorem forall_modify {P : Torrent → Prop} {s : Session} {f : Torrent → Torrent} (h : ∀ t ∈ s, P t)
    (hf : ∀ t, P t → P (f t)) (torrentIndex : Int) : ∀ t ∈ s.modify torrentIndex f, P t := by
  unfold Session.modify
  cases ht : s.torrentAt torrentIndex with
  | none => exact h
  | some t =>
      intro t' ht'
      unfold Session.torrentAt at ht
      split_ifs at ht
      rcases List.mem_or_eq_of_mem_set ht' with hin | rfl
      · exact h t' hin
      · exact hf t (h t (List.mem_of_getElem? ht))

theorem torrentAt_modify {s : Session} {torrentIndex : Int} (ht : s.torrentAt torrentIndex = some t)
    (f : Torrent → Torrent) (i : Int) :
    (s.modify torrentIndex f).torrentAt i = if i = torrentIndex then some (f t) else s.torrentAt i := by
  unfold Session.modify
  rw [ht]
  unfold Session.torrentAt at ht ⊢
  split_ifs at ht with hneg
  obtain ⟨hlt, -⟩ := List.getElem?_eq_some_iff.mp ht
  dsimp only
  by_cases hi : i = torrentIndex
  · rw [hi, if_neg hneg, if_pos rfl, List.getElem?_set_self hlt]
  · rw [if_neg hi]
    split_ifs with hi'
    · rfl
    · exact List.getElem?_set_ne (by omega)

theorem due_run (torrents : Session) {past : List (Reaction Session Event Empty)} {s : Session}
    (hrun : (machine torrents).Run (fun _ _ => True) past s) : ∀ t ∈ s, Due t := by
  refine hrun.invariant (fun s => ∀ t ∈ s, Due t) ?_ ?_
  · intro t ht
    obtain ⟨t', _, rfl⟩ := List.mem_map.mp ht
    intro hfile
    change (0 : Int) ≤ -1 at hfile
    omega
  · intro s e s' out hdue _ hnext
    obtain ⟨rfl, -⟩ := Prod.mk.inj (Option.some.inj hnext)
    cases e with
    | streamSetDeadlineWindow torrentIndex fileIndex startByte windowPieces now =>
        exact forall_modify hdue (fun t h => (follows_call h fileIndex startByte windowPieces now).due) torrentIndex
    | pieceFinished torrentIndex piece =>
        exact forall_modify hdue (fun t h => due_pieceFinished h piece) torrentIndex

-- A film of a hundred pieces of a megabyte, none of them there.
def longFilm : Torrent :=
  { valid := true
    torrentFile := some
      { pieceLength := 1048576
        numPieces := 100
        files := [⟨0, 104857600⟩]
        pieceLength_pos := by decide
        pieceLength_lt := by decide
        numPieces_lt := by decide
        inside := by decide }
    havePiece := fun _ => false
    deadlines := fun _ => none
    priorities := List.replicate 100 4
    streamed := false
    window := {} }

def started : Session := Session.next [longFilm] (.streamSetDeadlineWindow 0 0 0 0 0)

theorem run_started : ∃ past, (machine [longFilm]).Run (fun _ _ => True) past started :=
  ⟨_, Run.init.extend (.streamSetDeadlineWindow 0 0 0 0 0) trivial rfl⟩

end Runs

end BATorrent.Streaming
