import BATorrent.Services.Qrcodegen.Stream

namespace BATorrent.Qrcodegen

open Lib.DataStream (Bytes)

section Patterns

variable {g : Grid} {c : Cell}

theorem reserveAll_cons (g : Grid) (m : Cell × Bool) (ms : List (Cell × Bool)) :
    g.reserveAll (m :: ms) = (g.reserve m).reserveAll ms := rfl

@[simp] theorem size_reserveAll (g : Grid) (ms : List (Cell × Bool)) : (g.reserveAll ms).size = g.size := by
  induction ms generalizing g with
  | nil => rfl
  | cons m ms ih => rw [reserveAll_cons, ih]; rfl

theorem reserved_reserveAll (ms : List (Cell × Bool)) :
    (g.reserveAll ms).reserved c ↔ g.reserved c ∨ c ∈ ms.map Prod.fst := by
  induction ms generalizing g with
  | nil => simp [Grid.reserveAll]
  | cons m ms ih =>
      rw [reserveAll_cons, ih, List.map_cons, List.mem_cons, Grid.reserve]
      by_cases h : c = m.1
      · simp [h]
      · simp [h]

theorem dark_reserveAll_of_notMem {ms : List (Cell × Bool)} (h : c ∉ ms.map Prod.fst) :
    (g.reserveAll ms).dark c = g.dark c := by
  induction ms generalizing g with
  | nil => rfl
  | cons m ms ih =>
      rw [List.map_cons, List.mem_cons, not_or] at h
      rw [reserveAll_cons, ih h.2]
      exact Function.update_of_ne h.1 ..

theorem dark_reserveAll_of_mem {ms : List (Cell × Bool)} {b : Bool} (hnodup : (ms.map Prod.fst).Nodup)
    (h : (c, b) ∈ ms) : (g.reserveAll ms).dark c = b := by
  induction ms generalizing g with
  | nil => cases h
  | cons m ms ih =>
      rw [List.map_cons, List.nodup_cons] at hnodup
      rcases List.mem_cons.mp h with rfl | hmem
      · rw [reserveAll_cons, dark_reserveAll_of_notMem hnodup.1]
        exact Function.update_self ..
      · rw [reserveAll_cons, ih hnodup.2 hmem]

theorem mem_square {n : Nat} : c ∈ square n ↔ c.1 < n ∧ c.2 < n := by
  cases c with
  | mk x y => simp [square, and_comm]

theorem mem_finder {x y : Nat} : c ∈ (finder x y).map Prod.fst ↔ x ≤ c.1 ∧ c.1 < x + 7 ∧ y ≤ c.2 ∧ c.2 < y + 7 := by
  cases c with
  | mk a b =>
      simp only [finder, List.map_map, List.mem_map, Prod.exists, mem_square, Function.comp_apply, Prod.mk.injEq]
      constructor
      · rintro ⟨dx, dy, ⟨hx, hy⟩, rfl, rfl⟩
        omega
      · rintro ⟨hx, hx', hy, hy'⟩
        exact ⟨a - x, b - y, by omega⟩

theorem mem_separator {size x y : Nat} : c ∈ (separator size x y).map Prod.fst ↔
    x ≤ c.1 + 1 ∧ c.1 < x + 8 ∧ y ≤ c.2 + 1 ∧ c.2 < y + 8 ∧ c.1 < size ∧ c.2 < size ∧
      (c.1 + 1 = x ∨ c.2 + 1 = y ∨ c.1 = x + 7 ∨ c.2 = y + 7) := by
  cases c with
  | mk a b =>
      simp only [separator, List.mem_map, List.mem_filterMap, Prod.exists, mem_square, Option.ite_none_left_eq_some]
      constructor
      · rintro ⟨a', b', w, ⟨dx, dy, ⟨hx, hy⟩, hin, hborder⟩, heq⟩
        obtain ⟨hside, hcell⟩ := Option.ite_none_right_eq_some.mp hborder
        simp only [Option.some.injEq, Prod.mk.injEq] at hcell heq
        omega
      · rintro ⟨hx, hx', hy, hy', ha, hb, hborder⟩
        refine ⟨a, b, false, ⟨a + 1 - x, b + 1 - y, by omega, by omega, ?_⟩, rfl⟩
        rw [if_pos (by omega), Nat.add_sub_of_le hx, Nat.add_sub_of_le hy]
        rfl

theorem mem_alignment {cx cy : Nat} (hx : 2 ≤ cx) (hy : 2 ≤ cy) : c ∈ (alignment cx cy).map Prod.fst ↔
    cx - 2 ≤ c.1 ∧ c.1 ≤ cx + 2 ∧ cy - 2 ≤ c.2 ∧ c.2 ≤ cy + 2 := by
  cases c with
  | mk a b =>
      simp only [alignment, List.map_map, List.mem_map, Prod.exists, mem_square, Function.comp_apply, Prod.mk.injEq]
      constructor
      · rintro ⟨dx, dy, ⟨hx, hy⟩, rfl, rfl⟩
        omega
      · rintro ⟨hx, hx', hy, hy'⟩
        exact ⟨a + 2 - cx, b + 2 - cy, by omega⟩

theorem mem_timing {size : Nat} : c ∈ (timing size).map Prod.fst ↔
    8 ≤ c.1 ∧ c.1 < 8 + (size - 16) ∧ c.2 = 6 ∨ c.1 = 6 ∧ 8 ≤ c.2 ∧ c.2 < 8 + (size - 16) := by
  cases c with
  | mk a b =>
      simp only [timing, List.map_flatMap, List.mem_flatMap, List.mem_range'_1, List.map_cons, List.map_nil,
        List.mem_cons, List.not_mem_nil, or_false, Prod.mk.injEq]
      constructor
      · rintro ⟨i, hi, ⟨rfl, rfl⟩ | ⟨rfl, rfl⟩⟩
        · exact .inl ⟨hi.1, hi.2, rfl⟩
        · exact .inr ⟨rfl, hi.1, hi.2⟩
      · rintro (⟨h, h', rfl⟩ | ⟨rfl, h, h'⟩)
        · exact ⟨a, ⟨h, h'⟩, .inl ⟨rfl, rfl⟩⟩
        · exact ⟨b, ⟨h, h'⟩, .inr ⟨rfl, rfl⟩⟩

theorem mem_formatArea {size : Nat} (h : 9 ≤ size) : c ∈ (formatArea size).map Prod.fst ↔
    c.1 = 8 ∧ c.2 < 9 ∨ c.2 = 8 ∧ c.1 < 9 ∨ c.1 = 8 ∧ size - 8 ≤ c.2 ∧ c.2 < size ∨
      c.2 = 8 ∧ size - 8 ≤ c.1 ∧ c.1 < size := by
  cases c with
  | mk a b =>
      simp only [formatArea, List.map_append, List.map_flatMap, List.mem_append, List.mem_flatMap, List.mem_range,
        List.map_cons, List.map_nil, List.mem_cons, List.not_mem_nil, or_false, Prod.mk.injEq]
      constructor
      · rintro ((⟨i, hi, h | h⟩ | ⟨i, hi, h | h⟩) | h) <;> omega
      · rintro (⟨rfl, hb⟩ | ⟨rfl, ha⟩ | ⟨rfl, hb, hb'⟩ | ⟨rfl, ha, ha'⟩)
        · exact .inl (.inl ⟨b, hb, .inl ⟨rfl, rfl⟩⟩)
        · exact .inl (.inl ⟨a, ha, .inr ⟨rfl, rfl⟩⟩)
        · exact .inl (.inr ⟨size - 1 - b, by omega, .inl (by omega)⟩)
        · exact .inl (.inr ⟨size - 1 - a, by omega, .inr (by omega)⟩)

-- The three finders and the lines between them.
def corners (side : Nat) : Grid :=
  placeTiming (placeSeparator (placeSeparator (placeSeparator
    (placeFinder (placeFinder (placeFinder (Grid.blank side) 0 0) (side - 7) 0) 0 (side - 7))
    0 0) (side - 7) 0) 0 (side - 7))

theorem functionPatterns_eq (version : Nat) : functionPatterns version = reserveFormat
    (placeAlignments (corners (sideForVersion version)) (kAlignmentCentres.getD (version - 1) [])) := rfl

theorem size_corners (side : Nat) : (corners side).size = side := by
  simp only [corners, placeTiming, placeSeparator, placeFinder, size_reserveAll]
  rfl

theorem reserved_corners {side : Nat} (hside : 21 ≤ side) (hc : c.1 < side ∧ c.2 < side) :
    (corners side).reserved c ↔ c.1 < 8 ∧ c.2 < 8 ∨ side - 8 ≤ c.1 ∧ c.2 < 8 ∨ c.1 < 8 ∧ side - 8 ≤ c.2 ∨
      c.1 = 6 ∨ c.2 = 6 := by
  simp only [corners, placeTiming, placeSeparator, placeFinder, reserved_reserveAll, size_reserveAll, mem_finder,
    mem_separator, mem_timing, Grid.blank, Bool.false_eq_true, false_or]
  omega

-- Where no data is, in the versions that have no version information.
def isFunction (version : Nat) (c : Cell) : Bool :=
  let side := sideForVersion version
  (c.1 < 9 && c.2 < 9) || (side - 8 ≤ c.1 && c.2 < 9) || (c.1 < 9 && side - 8 ≤ c.2) || c.1 = 6 || c.2 = 6 ||
    (1 < version && side - 9 ≤ c.1 && c.1 ≤ side - 5 && side - 9 ≤ c.2 && c.2 ≤ side - 5)

-- Three of the four alignment patterns would be on the finders.
theorem placeAlignments_corners {side : Nat} (hside : 25 ≤ side) :
    placeAlignments (corners side) [6, side - 7] = placeAlignment (corners side) (side - 7) (side - 7) := by
  have h1 : (corners side).reserved (6, 6) := (reserved_corners (by omega) (by omega)).mpr (by omega)
  have h2 : (corners side).reserved (side - 7, 6) := (reserved_corners (by omega) (by omega)).mpr (by omega)
  have h3 : (corners side).reserved (6, side - 7) := (reserved_corners (by omega) (by omega)).mpr (by omega)
  have h4 : ¬(corners side).reserved (side - 7, side - 7) := by
    rw [reserved_corners (by omega) (by omega)]
    omega
  simp only [placeAlignments, List.flatMap_cons, List.flatMap_nil, List.map_cons, List.map_nil, List.append_nil,
    List.cons_append, List.nil_append, List.foldl_cons, List.foldl_nil, h1, h2, h3, h4, if_true]
  rfl

theorem reserved_functionPatterns {version : Nat} (h : 1 ≤ version ∧ version ≤ 6)
    (hc : c.1 < sideForVersion version ∧ c.2 < sideForVersion version) :
    (functionPatterns version).reserved c = isFunction version c := by
  have hside : sideForVersion version = 17 + version * 4 := rfl
  rw [Bool.eq_iff_iff, functionPatterns_eq]
  by_cases hv : version = 1
  · subst hv
    have hcentres : kAlignmentCentres.getD (1 - 1) [] = [] := rfl
    rw [hcentres, placeAlignments, List.flatMap_nil, List.foldl_nil, reserveFormat, reserved_reserveAll,
      size_corners, mem_formatArea (by omega), reserved_corners (by omega) hc]
    simp only [isFunction, Bool.or_eq_true, Bool.and_eq_true, decide_eq_true_eq]
    omega
  · have hcentres : kAlignmentCentres.getD (version - 1) [] = [6, sideForVersion version - 7] := by
      have hall : ∀ v < 5, kAlignmentCentres.getD (v + 2 - 1) [] = [6, sideForVersion (v + 2) - 7] := by decide
      have hv' := hall (version - 2) (by omega)
      rwa [Nat.sub_add_cancel (by omega)] at hv'
    rw [hcentres, placeAlignments_corners (by omega)]
    simp only [reserveFormat, placeAlignment, reserved_reserveAll, size_reserveAll, size_corners]
    rw [mem_alignment (by omega) (by omega), mem_formatArea (by omega), reserved_corners (by omega) hc]
    simp only [isFunction, Bool.or_eq_true, Bool.and_eq_true, decide_eq_true_eq]
    omega

theorem size_functionPatterns (version : Nat) : (functionPatterns version).size = sideForVersion version := by
  have hsize (g : Grid) (centres : List Nat) : (placeAlignments g centres).size = g.size := by
    unfold placeAlignments
    induction centres.flatMap fun cy => centres.map fun cx => (cx, cy) generalizing g with
    | nil => rfl
    | cons c cs ih =>
        rw [List.foldl_cons, ih]
        split
        · rfl
        · exact size_reserveAll ..
  rw [functionPatterns_eq, reserveFormat, size_reserveAll, hsize, size_corners]

end Patterns

section Scan

variable {size : Nat} {c : Cell}

-- The right column of the pair that is read as the `k`-th.
def pairColumn (size k : Nat) : Nat := if 6 < size - 1 - 2 * k then size - 1 - 2 * k else size - 2 - 2 * k

-- Every other pair of columns is read upward, the others downward.
def scan (size : Nat) : List Cell :=
  (List.range ((size - 1) / 2)).flatMap fun k => columnCells size (k % 2 = 0) (pairColumn size k)

theorem zigzagFrom_map (upward : Bool) (column : Nat → Nat) (n : Nat) :
    zigzagFrom size upward ((List.range n).map column) =
      (List.range n).flatMap fun k => columnCells size (upward == decide (k % 2 = 0)) (column k) := by
  induction n generalizing upward column with
  | zero => rfl
  | succ n ih =>
      have hturn (k : Nat) : ((!upward) == decide (k % 2 = 0)) = (upward == decide ((k + 1) % 2 = 0)) := by
        rcases Nat.mod_two_eq_zero_or_one k with h | h <;> cases upward <;> simp [h, Nat.add_mod]
      rw [List.range_succ_eq_map, List.map_cons, List.map_map, zigzagFrom, ih, List.flatMap_cons, List.flatMap_map]
      simp only [hturn, Function.comp_apply]
      cases upward <;> rfl

theorem zigzag_eq_scan {version : Nat} (h : version ≤ 10) :
    zigzag (sideForVersion version) = scan (sideForVersion version) := by
  have hall : ∀ v < 11, columnPairs (sideForVersion v) =
      (List.range ((sideForVersion v - 1) / 2)).map (pairColumn (sideForVersion v)) := by decide
  rw [zigzag, hall version (Nat.lt_succ_of_le h), zigzagFrom_map]
  simp only [Bool.true_beq]
  rfl

theorem mem_columnCells {upward : Bool} {col : Nat} :
    c ∈ columnCells size upward col ↔ (c.1 = col ∨ c.1 = col - 1) ∧ c.2 < size := by
  cases c with
  | mk x y =>
      simp only [columnCells, List.mem_flatMap, List.mem_range, List.mem_cons, List.not_mem_nil, or_false,
        Prod.mk.injEq]
      constructor
      · rintro ⟨i, hi, ⟨rfl, rfl⟩ | ⟨rfl, rfl⟩⟩
        · exact ⟨.inl rfl, by split <;> omega⟩
        · exact ⟨.inr rfl, by split <;> omega⟩
      · rintro ⟨hx, hy⟩
        refine ⟨if upward then size - 1 - y else y, by split <;> omega, ?_⟩
        have hrow : y = if upward then size - 1 - (if upward then size - 1 - y else y)
            else if upward then size - 1 - y else y := by
          cases upward with
          | false => rfl
          | true =>
              simp only [if_true]
              omega
        exact hx.imp (⟨·, hrow⟩) (⟨·, hrow⟩)

theorem nodup_columnCells (upward : Bool) {col : Nat} (h : 1 ≤ col) : (columnCells size upward col).Nodup := by
  rw [columnCells, List.nodup_flatMap]
  constructor
  · intro i _
    simp only [List.nodup_cons, List.mem_cons, Prod.mk.injEq, List.not_mem_nil, or_false, not_false_eq_true,
      List.nodup_nil, and_true]
    omega
  · apply List.pairwise_lt_range.imp_of_mem
    intro i j hi hj hlt
    have hi := List.mem_range.mp hi
    have hj := List.mem_range.mp hj
    rw [Function.onFun, List.disjoint_left]
    intro c hc hc'
    simp only [List.mem_cons, List.not_mem_nil, or_false] at hc hc'
    have hrow : c.2 = if upward then size - 1 - i else i := by rcases hc with rfl | rfl <;> rfl
    have hrow' : c.2 = if upward then size - 1 - j else j := by rcases hc' with rfl | rfl <;> rfl
    rw [hrow] at hrow'
    split at hrow' <;> omega

theorem pairColumn_pos (hodd : size % 2 = 1) {k : Nat} (hk : k < (size - 1) / 2) :
    1 ≤ pairColumn size k ∧ pairColumn size k < size := by
  unfold pairColumn
  split <;> omega

theorem pairColumn_lt (hodd : size % 2 = 1) {k l : Nat} (hk : k < l) (hl : l < (size - 1) / 2) :
    pairColumn size l + 2 ≤ pairColumn size k := by
  unfold pairColumn
  split <;> split <;> omega

-- Two pairs have no column in common.
theorem nodup_scan (hodd : size % 2 = 1) : (scan size).Nodup := by
  rw [scan, List.nodup_flatMap]
  constructor
  · exact fun k hk => nodup_columnCells _ (pairColumn_pos hodd (List.mem_range.mp hk)).1
  · apply List.pairwise_lt_range.imp_of_mem
    intro k l _ hl hlt
    have hapart := pairColumn_lt hodd hlt (List.mem_range.mp hl)
    rw [Function.onFun, List.disjoint_left]
    intro c hc hc'
    have hcol := (mem_columnCells.mp hc).1
    have hcol' := (mem_columnCells.mp hc').1
    omega

theorem mem_scan_lt (hodd : size % 2 = 1) (h : c ∈ scan size) : c.1 < size ∧ c.2 < size := by
  obtain ⟨k, hk, hmem⟩ := List.mem_flatMap.mp h
  obtain ⟨hcol, hrow⟩ := mem_columnCells.mp hmem
  have hpair := pairColumn_pos hodd (List.mem_range.mp hk)
  omega

end Scan

section Placement

variable {bytes : Bytes} {cells : List Cell} {g : Grid} {c : Cell}

theorem placeBit_reserved {i : Nat} (h : g.reserved c = true) : placeBit bytes (g, i) c = (g, i) := if_pos h

theorem placeBit_free {i : Nat} (h : g.reserved c = false) : placeBit bytes (g, i) c =
    ({ g with dark := Function.update g.dark c (bitAt bytes i) }, i + 1) := if_neg (by simp [h])

theorem foldl_placeBit_frame (bytes : Bytes) (cells : List Cell) (g : Grid) (i : Nat) :
    (cells.foldl (placeBit bytes) (g, i)).1.size = g.size ∧
      (cells.foldl (placeBit bytes) (g, i)).1.reserved = g.reserved ∧
      ∀ c ∉ cells, (cells.foldl (placeBit bytes) (g, i)).1.dark c = g.dark c := by
  induction cells generalizing g i with
  | nil => exact ⟨rfl, rfl, fun _ _ => rfl⟩
  | cons cell cells ih =>
      rw [List.foldl_cons]
      cases hcell : g.reserved cell with
      | true =>
          rw [placeBit_reserved hcell]
          obtain ⟨hsize, hreserved, hdark⟩ := ih g i
          exact ⟨hsize, hreserved, fun c hc => hdark c fun hmem => hc (List.mem_cons_of_mem _ hmem)⟩
      | false =>
          rw [placeBit_free hcell]
          obtain ⟨hsize, hreserved, hdark⟩ := ih { g with dark := Function.update g.dark cell (bitAt bytes i) } (i + 1)
          refine ⟨hsize, hreserved, fun c hc => ?_⟩
          rw [List.mem_cons, not_or] at hc
          rw [hdark c hc.2]
          exact Function.update_of_ne hc.1 ..

-- The free cells, in the order they are gone through, have the bits in theirs.
theorem foldl_placeBit_dark (hnodup : cells.Nodup) (g : Grid) (i : Nat) :
    (cells.filter (!g.reserved ·)).map (cells.foldl (placeBit bytes) (g, i)).1.dark =
      (List.range' i (cells.countP (!g.reserved ·))).map (bitAt bytes) := by
  induction cells generalizing g i with
  | nil => rfl
  | cons cell cells ih =>
      obtain ⟨hcell, hrest⟩ := List.nodup_cons.mp hnodup
      rw [List.foldl_cons]
      cases hfree : g.reserved cell with
      | true =>
          rw [placeBit_reserved hfree, List.filter_cons_of_neg (by simp [hfree]), List.countP_cons_of_neg (by simp [hfree])]
          exact ih hrest g i
      | false =>
          have hframe := foldl_placeBit_frame bytes cells
            { g with dark := Function.update g.dark cell (bitAt bytes i) } (i + 1)
          have hfirst := (hframe.2.2 cell hcell).trans (Function.update_self ..)
          rw [placeBit_free hfree, List.filter_cons_of_pos (by simp [hfree]), List.countP_cons_of_pos (by simp [hfree]),
            List.map_cons, hfirst, List.range'_succ, List.map_cons]
          exact congrArg (bitAt bytes i :: ·)
            (ih hrest { g with dark := Function.update g.dark cell (bitAt bytes i) } (i + 1))

theorem bitAt_cons (b : UInt8) (bytes : Bytes) (i : Nat) : bitAt (b :: bytes) (8 + i) = bitAt bytes i := by
  have hdiv : (8 + i) / 8 = i / 8 + 1 := by omega
  have hmod : (8 + i) % 8 = i % 8 := by omega
  have hlt : 8 + i < (b :: bytes).length * 8 ↔ i < bytes.length * 8 := by
    rw [List.length_cons]
    omega
  simp only [bitAt, hdiv, hmod, hlt, List.getD_cons_succ]

theorem map_bitAt (bytes : Bytes) : (List.range (bytes.length * 8)).map (bitAt bytes) = bitsOfBytes bytes := by
  induction bytes with
  | nil => rfl
  | cons b bytes ih =>
      have hcount : (b :: bytes).length * 8 = 8 + bytes.length * 8 := by
        rw [List.length_cons]
        omega
      have hfirst : (List.range 8).map (bitAt (b :: bytes)) = bitsOf b.toNat 8 := by
        have hreverse : (List.range 8).reverse = (List.range 8).map (7 - ·) := rfl
        rw [bitsOf, hreverse, List.map_map]
        refine List.map_congr_left fun i hi => ?_
        have hi := List.mem_range.mp hi
        have hdiv : i / 8 = 0 := by omega
        rw [bitAt, if_pos (by omega), hdiv, Nat.mod_eq_of_lt hi]
        rfl
      rw [hcount, List.range_add, List.map_append, hfirst, List.map_map, bitsOfBytes_cons, ← ih]
      congr 1
      exact List.map_congr_left fun i _ => bitAt_cons b bytes i

-- Bits beyond the last byte make no difference.
theorem readBytes_bitAt {n : Nat} (h : bytes.length * 8 ≤ n) :
    readBytes bytes.length ((List.range n).map (bitAt bytes)) = bytes := by
  rw [← Nat.add_sub_of_le h, List.range_add, List.map_append, map_bitAt, readBytes_bitsOfBytes]

end Placement

end BATorrent.Qrcodegen
