import Mathlib.Data.List.Chain
import BATorrent.Torrent.FileTree

namespace BATorrent.FileTree

open Lib.PathForest

def nearest (before : List FileTreeRow) (depth : Nat) : Option FileTreeRow :=
  before.reverse.find? fun row => row.depth = depth

def folderName (before : List FileTreeRow) (depth : Nat) : Option Text :=
  ((nearest before depth).filter (·.isDir)).map (·.name)

-- The path of a row, as the rows before it tell it.
def trail (before : List FileTreeRow) (row : FileTreeRow) : Option (List Text) :=
  ((List.range row.depth).mapM (folderName before)).map (· ++ [row.name])

def located (before : List FileTreeRow) : List FileTreeRow → List (Option (List Text) × FileTreeRow)
  | [] => []
  | row :: rows => (trail before row, row) :: located (before ++ [row]) rows

def fileRows (rows : List FileTreeRow) : List (Option (List Text) × Int) :=
  (located [] rows).filterMap fun at_ => if at_.2.isDir then none else some (at_.1, at_.2.fileIndex)

def folderRows (rows : List FileTreeRow) : List (Option (List Text)) :=
  (located [] rows).filterMap fun at_ => if at_.2.isDir then some at_.1 else none

-- Starting at the top, and one deeper only right below a folder.
def Preorder (rows : List FileTreeRow) : Prop :=
  (∀ row ∈ rows.head?, row.depth = 0) ∧
    rows.IsChain fun row next => next.depth ≤ row.depth + if row.isDir then 1 else 0

section Trail

variable {before rows : List FileTreeRow} {row : FileTreeRow} {p : List Text}

theorem located_append (before rows rows' : List FileTreeRow) :
    located before (rows ++ rows') = located before rows ++ located (before ++ rows) rows' := by
  induction rows generalizing before with
  | nil => rw [List.nil_append, List.append_nil]; rfl
  | cons row rows ih =>
      rw [List.cons_append, located, located, ih, List.append_assoc]
      rfl

-- The rows before end in the folders of `p`.
def Led (before : List FileTreeRow) (p : List Text) : Prop := ∀ e < p.length, folderName before e = p[e]?

theorem nearest_append {e : Nat} (h : ∀ row ∈ rows, row.depth ≠ e) :
    nearest (before ++ rows) e = nearest before e := by
  unfold nearest
  rw [List.reverse_append, List.find?_append]
  have hnone : rows.reverse.find? (fun row => row.depth = e) = none := by
    refine List.find?_eq_none.mpr fun row hrow heq => ?_
    exact h row (List.mem_reverse.mp hrow) (of_decide_eq_true heq)
  rw [hnone, Option.none_or]

theorem led_append (h : Led before p) (hrows : ∀ row ∈ rows, p.length ≤ row.depth) : Led (before ++ rows) p := by
  intro e he
  unfold folderName
  rw [nearest_append fun row hrow => Nat.ne_of_gt (he.trans_le (hrows row hrow))]
  exact h e he

theorem led_snoc (h : Led before p) (hdepth : row.depth = p.length) (hdir : row.isDir = true) :
    Led (before ++ [row]) (p ++ [row.name]) := by
  intro e he
  rw [List.length_append, List.length_singleton] at he
  rcases Nat.lt_or_eq_of_le (Nat.le_of_lt_succ he) with he | rfl
  · rw [List.getElem?_append_left he]
    exact led_append h (List.forall_mem_singleton.mpr hdepth.ge) e he
  · have hlast : nearest (before ++ [row]) p.length = some row := by
      unfold nearest
      rw [List.reverse_append, List.reverse_singleton, List.singleton_append, List.find?_cons_of_pos]
      exact decide_eq_true hdepth
    rw [List.getElem?_concat_length, folderName, hlast, Option.filter_some_pos hdir]
    rfl

theorem names_of_led (h : Led before p) : (List.range p.length).mapM (folderName before) = some p := by
  induction p using List.reverseRecOn with
  | nil => rfl
  | append_singleton p s ih =>
      have hinit : Led before p := by
        intro e he
        rw [← List.getElem?_append_left he]
        exact h e (he.trans_le (by rw [List.length_append]; exact Nat.le_add_right _ _))
      have hlast := h p.length (by rw [List.length_append]; exact Nat.lt_succ_self _)
      rw [List.getElem?_concat_length] at hlast
      rw [List.length_append, List.length_singleton, List.range_succ, List.mapM_append, ih hinit]
      simp [hlast]

theorem trail_of_led (h : Led before p) (hdepth : row.depth = p.length) : trail before row = some (p ++ [row.name]) := by
  rw [trail, hdepth, names_of_led h]
  rfl

end Trail

section Places

variable {n : Nat} {es : List (Entry Text Nat)} {before : List FileTreeRow} {p : List Text}

theorem depth_rowAt {d : Nat} {e : Entry Text Nat} (he : e.1 ≠ []) : d ≤ (rowAt d e).depth := by
  have hpos := List.length_pos_iff.mpr he
  unfold rowAt
  dsimp only
  omega

theorem rows_within (d : Nat) (s : Text) (n : Nat) (es : List (Entry Text Nat)) :
    ((places n es).map (within s)).map (rowAt d) = (places n es).map (rowAt (d + 1)) := by
  rw [List.map_map]
  exact List.map_congr_left fun e he => rowAt_within d s (places_ne_nil n es e he)

theorem block_ne_nil {s : Text} {k : Option Nat} {e : Entry Text Nat} (deeper : List (Entry Text Nat))
    (he : e ∈ ([s], k) :: if k = none then deeper.map (within s) else []) : e.1 ≠ [] := by
  rcases List.mem_cons.mp he with rfl | he
  · exact List.cons_ne_nil s []
  · split_ifs at he
    · obtain ⟨e', -, rfl⟩ := List.mem_map.mp he
      exact List.cons_ne_nil s e'.1
    · exact absurd he List.not_mem_nil

-- What the rows before tell of each place is where it is.
theorem located_places (h : Led before p) :
    located before ((places n es).map (rowAt p.length)) =
      (places n es).map fun e => (some (p ++ e.1), rowAt p.length e) := by
  induction n generalizing before p es with
  | zero => rfl
  | succ n ih =>
      unfold places
      generalize kids es = ks
      induction ks generalizing before with
      | nil => rfl
      | cons kid ks ih' =>
          obtain ⟨s, k⟩ := kid
          have htrail : trail before (rowAt p.length ([s], k)) = some (p ++ [s]) := trail_of_led h rfl
          rw [List.flatMap_cons, List.map_append, located_append, List.map_append]
          congr 1
          · rw [List.map_cons, located, htrail, List.map_cons]
            congr 1
            cases k with
            | some i => rfl
            | none =>
                have hled : Led (before ++ [rowAt p.length ([s], none)]) (p ++ [s]) := led_snoc h rfl rfl
                have hinner := @ih (under s es) _ _ hled
                rw [List.length_append, List.length_singleton] at hinner
                rw [if_pos rfl, rows_within, List.map_map]
                refine hinner.trans (List.map_congr_left fun e he => ?_)
                rw [Function.comp_apply, rowAt_within p.length s (places_ne_nil n _ e he), List.append_assoc]
                rfl
          · refine ih' (led_append h fun row hrow => ?_)
            obtain ⟨e, he, rfl⟩ := List.mem_map.mp hrow
            exact depth_rowAt (block_ne_nil _ he)

-- Each place is at most one deeper than the one before, and then that one is a folder.
theorem preorder_places (d n : Nat) (es : List (Entry Text Nat)) :
    (∀ row ∈ ((places n es).map (rowAt d)).head?, row.depth = d) ∧
      ((places n es).map (rowAt d)).IsChain fun row next => next.depth ≤ row.depth + if row.isDir then 1 else 0 := by
  induction n generalizing d es with
  | zero => exact ⟨by simp [places], List.IsChain.nil⟩
  | succ n ih =>
      unfold places
      generalize kids es = ks
      induction ks with
      | nil => exact ⟨by simp, List.IsChain.nil⟩
      | cons kid ks ih' =>
          obtain ⟨s, k⟩ := kid
          obtain ⟨hhead, hchain⟩ := ih'
          rw [List.flatMap_cons, List.map_append]
          refine ⟨fun row hrow => ?_, List.isChain_append.mpr ⟨?_, hchain, ?_⟩⟩
          · rw [← Option.mem_some_iff.mp hrow]
            rfl
          · rw [List.map_cons, List.isChain_cons]
            cases k with
            | some i => exact ⟨by simp, List.IsChain.nil⟩
            | none =>
                rw [if_pos rfl, rows_within]
                refine ⟨fun row hrow => ?_, (ih (d + 1) _).2⟩
                exact ((ih (d + 1) _).1 row hrow).le
          · intro row hrow next hnext
            obtain ⟨e, he, rfl⟩ := List.mem_map.mp (List.mem_of_mem_getLast? hrow)
            rw [hhead next hnext]
            exact (depth_rowAt (block_ne_nil _ he)).trans (Nat.le_add_right _ _)

end Places

section Entries

variable {p segs q : List Text} {k : Option Nat} {path : Text × Nat}

theorem mem_foldersFrom : (q, k) ∈ foldersFrom p segs ↔ k = none ∧ ∃ q', q' ≠ [] ∧ q' <+: segs ∧ q = p ++ q' := by
  induction segs generalizing p with
  | nil =>
      refine iff_of_false List.not_mem_nil ?_
      rintro ⟨-, q', hne, hq', -⟩
      exact hne (List.prefix_nil.mp hq')
  | cons s segs ih =>
      rw [foldersFrom, List.mem_cons, ih]
      constructor
      · rintro (heq | ⟨hk, q', hne, hq', rfl⟩)
        · obtain ⟨rfl, rfl⟩ := Prod.mk.inj heq
          exact ⟨rfl, [s], List.cons_ne_nil s [], ⟨segs, rfl⟩, rfl⟩
        · exact ⟨hk, s :: q', List.cons_ne_nil s q', List.cons_prefix_cons.mpr ⟨rfl, hq'⟩, (List.append_cons p s q').symm⟩
      · rintro ⟨rfl, q', hne, hq', rfl⟩
        obtain ⟨t, rest, rfl⟩ := List.exists_cons_of_ne_nil hne
        obtain ⟨rfl, hrest⟩ := List.cons_prefix_cons.mp hq'
        cases rest with
        | nil => exact .inl rfl
        | cons u rest => exact .inr ⟨rfl, u :: rest, List.cons_ne_nil u rest, hrest, List.append_cons p t _⟩

theorem prefix_dropLast_iff {l : List Text} (hl : l ≠ []) : q <+: l.dropLast ↔ q <+: l ∧ q ≠ l := by
  have hsplit := List.dropLast_append_getLast hl
  rw [← hsplit, List.dropLast_concat, List.prefix_concat_iff]
  constructor
  · intro hq
    refine ⟨.inr hq, ?_⟩
    rintro rfl
    have hle := hq.length_le
    rw [List.length_append] at hle
    exact Nat.not_succ_le_self _ hle
  · rintro ⟨hq, hne⟩
    exact hq.resolve_left hne

theorem mem_entriesOf : (q, k) ∈ entriesOf path ↔ segments path.1 ≠ [] ∧
    (q = segments path.1 ∧ k = some path.2 ∨ k = none ∧ q ≠ [] ∧ q <+: segments path.1 ∧ q ≠ segments path.1) := by
  unfold entriesOf
  by_cases hsegs : segments path.1 = []
  · rw [hsegs]
    exact iff_of_false List.not_mem_nil fun h => h.1 rfl
  · rw [List.getLast?_eq_some_getLast hsegs, and_iff_right hsegs, ← prefix_dropLast_iff hsegs]
    dsimp only
    rw [List.mem_append, List.mem_singleton, Prod.mk.injEq, mem_foldersFrom, or_comm]
    refine or_congr_right (and_congr_right fun _ => ?_)
    constructor
    · rintro ⟨q', hne, hq', rfl⟩
      exact ⟨hne, hq'⟩
    · exact fun ⟨hne, hq⟩ => ⟨q, hne, hq, rfl⟩

theorem leaves_foldersFrom (p segs : List Text) : leaves (foldersFrom p segs) = [] := by
  induction segs generalizing p with
  | nil => rfl
  | cons s segs ih => exact ih (p ++ [s])

theorem leaves_entriesOf (paths : List (Text × Nat)) :
    leaves (paths.flatMap entriesOf) =
      (paths.filter (segments ·.1 ≠ [])).map fun path => (segments path.1, path.2) := by
  induction paths with
  | nil => rfl
  | cons path paths ih =>
      rw [List.flatMap_cons, leaves, List.filterMap_append, List.filter_cons]
      refine (congrArg _ ih).trans ?_
      by_cases hsegs : segments path.1 = []
      · have hnone : entriesOf path = [] := by rw [entriesOf, hsegs]; rfl
        rw [hnone, if_neg (by simpa using hsegs)]
        rfl
      · have hone : entriesOf path = foldersFrom [] (segments path.1).dropLast ++ [(segments path.1, some path.2)] := by
          rw [entriesOf, List.getLast?_eq_some_getLast hsegs]
        have hnone := leaves_foldersFrom [] (segments path.1).dropLast
        unfold leaves at hnone
        rw [hone, List.filterMap_append, hnone, if_pos (by simpa using hsegs)]
        rfl

theorem folderAt_entriesOf {paths : List Text} (hq : q ≠ []) :
    FolderAt q (paths.zipIdx.flatMap entriesOf) ↔ ∃ path ∈ paths, q <+: segments path ∧ q ≠ segments path := by
  constructor
  · rintro ⟨⟨w, k⟩, he, hstarts, hends⟩
    obtain ⟨path, hpath, hmem⟩ := List.mem_flatMap.mp he
    refine ⟨path.1, List.fst_mem_of_mem_zipIdx hpath, ?_⟩
    obtain ⟨-, ⟨rfl, rfl⟩ | ⟨-, -, hw, hne⟩⟩ := mem_entriesOf.mp hmem
    · exact ⟨hstarts, hends.resolve_right nofun⟩
    · refine ⟨hstarts.trans hw, ?_⟩
      rintro rfl
      exact hne (hw.eq_of_length_le hstarts.length_le)
  · rintro ⟨path, hpath, hstarts, hne⟩
    obtain ⟨i, hi, rfl⟩ := List.mem_iff_getElem.mp hpath
    refine ⟨_, List.mem_flatMap.mpr ⟨(paths[i], i), List.mk_mem_zipIdx_iff_getElem?.mpr (List.getElem?_eq_getElem hi),
      mem_entriesOf.mpr ⟨?_, .inl ⟨rfl, rfl⟩⟩⟩, hstarts, .inl hne⟩
    rintro hnil
    exact hq (List.prefix_nil.mp (hnil ▸ hstarts))

end Entries

section Listed

variable {listing : List (Entry Text Nat)} {rows : List FileTreeRow}

theorem fileRows_of_located (h : located [] rows = listing.map fun e => (some e.1, rowAt 0 e)) :
    fileRows rows = (leaves listing).map fun file => (some file.1, (file.2 : Int)) := by
  rw [fileRows, h, leaves, List.filterMap_map, List.map_filterMap]
  refine List.filterMap_congr fun e _ => ?_
  obtain ⟨q, k⟩ := e
  cases k <;> rfl

theorem folderRows_of_located (h : located [] rows = listing.map fun e => (some e.1, rowAt 0 e)) :
    folderRows rows = (folders listing).map some := by
  rw [folderRows, h, folders, List.filterMap_map, List.map_filterMap]
  refine List.filterMap_congr fun e _ => ?_
  obtain ⟨q, k⟩ := e
  cases k <;> rfl

end Listed

-- One row for each path that names something and one for each folder on the way to one, each where the path says.
theorem fileTree_faithful (paths : List Text) :
    (fileRows (buildFileTree paths)).Perm
        ((paths.zipIdx.filter (segments ·.1 ≠ [])).map fun path => (some (segments path.1), (path.2 : Int))) ∧
      (folderRows (buildFileTree paths)).Nodup ∧
      (∀ at_, at_ ∈ folderRows (buildFileTree paths) ↔ ∃ path ∈ paths, ∃ segs, at_ = some segs ∧
        segs ≠ [] ∧ segs <+: segments path ∧ segs ≠ segments path) ∧
      Preorder (buildFileTree paths) := by
  have hdeep := (build_grown paths).deep
  rw [rows_eq_places]
  generalize (build paths).nodes.length = n at hdeep ⊢
  have hlocated : located [] ((places n (paths.zipIdx.flatMap entriesOf)).map (rowAt 0)) =
      (places n (paths.zipIdx.flatMap entriesOf)).map fun e => (some e.1, rowAt 0 e) := located_places (p := []) nofun
  obtain ⟨hnodup, hmem⟩ := folders_places (fun e he => (hdeep e he).2) (n := n)
  refine ⟨?_, ?_, ?_, preorder_places 0 n _⟩
  · have hperm := leaves_places (fun e he => (hdeep e he).1) fun e he => (hdeep e he).2
    have hfiles := hperm.map fun file : List Text × Nat => (some file.1, (file.2 : Int))
    rw [leaves_entriesOf, List.map_map] at hfiles
    rw [fileRows_of_located hlocated]
    exact hfiles
  · rw [folderRows_of_located hlocated]
    exact hnodup.map fun _ _ => Option.some.inj
  · intro at_
    rw [folderRows_of_located hlocated, List.mem_map]
    constructor
    · rintro ⟨segs, hsegs, rfl⟩
      obtain ⟨hne, hfolder⟩ := (hmem segs).mp hsegs
      obtain ⟨path, hpath, hstarts, hproper⟩ := (folderAt_entriesOf hne).mp hfolder
      exact ⟨path, hpath, segs, rfl, hne, hstarts, hproper⟩
    · rintro ⟨path, hpath, segs, rfl, hne, hstarts, hproper⟩
      exact ⟨segs, (hmem segs).mpr ⟨hne, (folderAt_entriesOf hne).mpr ⟨path, hpath, hstarts, hproper⟩⟩, rfl⟩

example : (folderRows (buildFileTree ["a//b/c".toList, "d".toList, "/a/e".toList, "a".toList, "/".toList])).length = 2 := by
  decide +kernel

end BATorrent.FileTree
