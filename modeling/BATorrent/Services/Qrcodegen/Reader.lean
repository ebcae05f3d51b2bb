import BATorrent.Services.Qrcodegen.Symbol

namespace BATorrent.Qrcodegen

open Lib.DataStream (Bytes)

section Format

variable {g : Grid} {c : Cell} {size : Nat}

-- The fifteen modules by the first finder, the highest bit first.
def formatCells : List Cell :=
  [(0, 8), (1, 8), (2, 8), (3, 8), (4, 8), (5, 8), (7, 8), (8, 8), (8, 7), (8, 5), (8, 4), (8, 3), (8, 2), (8, 1),
    (8, 0)]

-- The same bits below the right finder and beside the lower one.
def formatCells' (size : Nat) : List Cell :=
  [1, 2, 3, 4, 5, 6, 7].map (fun i => (8, size - i)) ++ [8, 7, 6, 5, 4, 3, 2, 1].map fun i => (size - i, 8)

-- Both copies have to say the same, and the level has to be M.
def readMask (m : Matrix) : Option Nat :=
  let bits := formatCells.map m.dark
  let format := numberOf bits ^^^ 0x5412
  if bits = (formatCells' m.size).map m.dark ∧ format >>> 13 = 0 then some ((format >>> 10) % 8) else none

theorem formatCells_eq : formatCells = (List.range 15).reverse.map formatCell := by decide

theorem formatCells'_eq (h : 15 ≤ size) : formatCells' size = (List.range 15).reverse.map (formatCell' size) := by
  have hreverse : (List.range 15).reverse = [14, 13, 12, 11, 10, 9, 8, 7, 6, 5, 4, 3, 2, 1, 0] := rfl
  rw [hreverse]
  simp only [formatCells', formatCell', List.map_cons, List.map_nil, List.cons_append, List.nil_append,
    Nat.reduceLeDiff, if_true, if_false, List.cons.injEq, Prod.mk.injEq, true_and, and_true]
  omega

-- One of the two copies of the bits.
def formatModules (place : Nat → Cell) (format : Nat) : List (Cell × Bool) :=
  (List.range 15).map fun i => (place i, format.testBit i)

theorem placeFormat_eq (g : Grid) (m : Nat) : placeFormat g m =
    (g.reserveAll (formatModules formatCell (bchFormat m))).reserveAll
      (formatModules (formatCell' g.size) (bchFormat m)) := by
  rw [placeFormat, size_reserveAll]
  rfl

theorem size_placeFormat (g : Grid) (m : Nat) : (placeFormat g m).size = g.size := by
  rw [placeFormat_eq, size_reserveAll, size_reserveAll]

theorem mem_formatModules {place : Nat → Cell} {format : Nat} :
    c ∈ (formatModules place format).map Prod.fst ↔ c ∈ (List.range 15).reverse.map place := by
  simp [formatModules]

theorem dark_formatModules {place : Nat → Cell} (format : Nat) (h : ((List.range 15).map place).Nodup) :
    (List.range 15).reverse.map (fun i => (g.reserveAll (formatModules place format)).dark (place i)) =
      bitsOf format 15 := by
  refine List.map_congr_left fun i hi => ?_
  apply dark_reserveAll_of_mem
  · rw [formatModules, List.map_map]
    exact h
  · exact List.mem_map_of_mem (List.mem_reverse.mp hi)

theorem placeFormat_frame (h : 15 ≤ g.size) {m : Nat} (hc : c ∉ formatCells) (hc' : c ∉ formatCells' g.size) :
    (placeFormat g m).dark c = g.dark c := by
  rw [formatCells_eq] at hc
  rw [formatCells'_eq h] at hc'
  rw [placeFormat_eq, dark_reserveAll_of_notMem (mem_formatModules.not.mpr hc'),
    dark_reserveAll_of_notMem (mem_formatModules.not.mpr hc)]

theorem nodup_formatCell' (h : 21 ≤ size) : ((List.range 15).map (formatCell' size)).Nodup := by
  apply List.Nodup.map_on _ List.nodup_range
  intro i hi j hj heq
  have hi := List.mem_range.mp hi
  have hj := List.mem_range.mp hj
  unfold formatCell' at heq
  split at heq <;> split at heq <;> simp only [Prod.mk.injEq] at heq <;> omega

theorem formatCells_disjoint (h : 21 ≤ size) (hc : c ∈ formatCells) : c ∉ formatCells' size := by
  have hnear : ∀ c ∈ formatCells, c.1 ≤ 8 ∧ c.2 ≤ 8 := by decide
  obtain ⟨hx, hy⟩ := hnear c hc
  rw [formatCells'_eq (by omega), List.mem_map]
  rintro ⟨i, hi, rfl⟩
  have hi : i < 15 := by simpa using hi
  have hfar : 8 < (formatCell' size i).1 ∨ 8 < (formatCell' size i).2 := by
    unfold formatCell'
    split
    · exact .inl (by dsimp only; omega)
    · exact .inr (by dsimp only; omega)
  omega

theorem readMask_placeFormat (h : 21 ≤ g.size) {m : Nat} (hm : m < 8) :
    readMask ⟨(placeFormat g m).size, (placeFormat g m).dark⟩ = some m := by
  have hsecond : (formatCells' g.size).map (placeFormat g m).dark = bitsOf (bchFormat m) 15 := by
    rw [formatCells'_eq (by omega), List.map_map, placeFormat_eq]
    exact dark_formatModules _ (nodup_formatCell' h)
  have hfirst : formatCells.map (placeFormat g m).dark = bitsOf (bchFormat m) 15 := by
    have hkept : formatCells.map (placeFormat g m).dark =
        formatCells.map (g.reserveAll (formatModules formatCell (bchFormat m))).dark := by
      refine List.map_congr_left fun c hc => ?_
      rw [placeFormat_eq, dark_reserveAll_of_notMem]
      rw [mem_formatModules, ← formatCells'_eq (by omega)]
      exact formatCells_disjoint h hc
    rw [hkept, formatCells_eq, List.map_map]
    exact dark_formatModules _ (by decide)
  have hformat : ∀ m < 8, ((bchFormat m % 2 ^ 15) ^^^ 0x5412) >>> 13 = 0 ∧
      ((bchFormat m % 2 ^ 15) ^^^ 0x5412) >>> 10 % 8 = m := by decide
  obtain ⟨hlevel, hmask⟩ := hformat m hm
  simp only [readMask, size_placeFormat, hfirst, hsecond, numberOf_bitsOf, hlevel, hmask, true_and, if_true]

end Format

section Masks

variable {g : Grid} {c : Cell} {size : Nat}

theorem dark_applyMask (hc : c.1 < g.size ∧ c.2 < g.size) (hfree : g.reserved c = false) (m : Nat) :
    (applyMask g m).dark c = (g.dark c ^^ invert m c) := by
  simp only [applyMask, hc.1, hc.2, hfree, true_and]
  cases invert m c <;> simp

-- One candidate against the best so far.
def better (score : Grid → Nat) (g : Grid) (best : Grid × Nat) (m : Nat) : Grid × Nat :=
  let s := score (candidate g m)
  if s < best.2 then (candidate g m, s) else best

theorem foldl_better (score : Grid → Nat) (g : Grid) (ms : List Nat) (best : Grid × Nat) :
    (ms.foldl (better score g) best = best) ∨ ∃ m ∈ ms, (ms.foldl (better score g) best).1 = candidate g m := by
  induction ms generalizing best with
  | nil => exact .inl rfl
  | cons m ms ih =>
      rw [List.foldl_cons]
      rcases ih (better score g best m) with hkept | ⟨m', hm', heq⟩
      · rw [hkept, better]
        split
        · exact .inr ⟨m, List.mem_cons_self, rfl⟩
        · exact .inl rfl
      · exact .inr ⟨m', List.mem_cons_of_mem _ hm', heq⟩

theorem size_candidate (g : Grid) (m : Nat) : (candidate g m).size = g.size := by
  rw [candidate, size_placeFormat]
  rfl

theorem size_bestOf (score : Grid → Nat) (g : Grid) : (bestOf score g).size = g.size := by
  have hbest : bestOf score g = ((List.range 8).foldl (better score g) (g, 2 ^ 31 - 1)).1 := rfl
  rw [hbest]
  rcases foldl_better score g (List.range 8) (g, 2 ^ 31 - 1) with hkept | ⟨m, -, heq⟩
  · rw [hkept]
  · rw [heq, size_candidate]

theorem bestOf_mem {score : Grid → Nat} {g : Grid} (h : score (candidate g 0) < 2 ^ 31 - 1) :
    ∃ m < 8, bestOf score g = candidate g m := by
  have hrange : List.range 8 = 0 :: List.range' 1 7 := rfl
  have hfirst : better score g (g, 2 ^ 31 - 1) 0 = (candidate g 0, score (candidate g 0)) := if_pos h
  have hbest : bestOf score g = ((List.range' 1 7).foldl (better score g) (candidate g 0, score (candidate g 0))).1 := by
    rw [← hfirst, ← List.foldl_cons, ← hrange]
    rfl
  rw [hbest]
  rcases foldl_better score g (List.range' 1 7) (candidate g 0, score (candidate g 0)) with hkept | ⟨m, hm, heq⟩
  · exact ⟨0, by decide, by rw [hkept]⟩
  · rw [List.mem_range'_1] at hm
    exact ⟨m, by omega, heq⟩

end Masks

section Scores

theorem runPoints_le (run : Nat) : runPoints run ≤ run := by
  unfold runPoints
  split <;> omega

theorem runStep_le (r : Nat × Bool × Nat) (b : Bool) : (runStep r b).1 + (runStep r b).2.2 ≤ r.1 + r.2.2 + 1 := by
  have hpoints := runPoints_le r.2.2
  unfold runStep
  split <;> dsimp only <;> omega

theorem foldl_runStep_le (line : List Bool) (r : Nat × Bool × Nat) :
    (line.foldl runStep r).1 + (line.foldl runStep r).2.2 ≤ r.1 + r.2.2 + line.length := by
  induction line generalizing r with
  | nil => exact Nat.le_refl _
  | cons b line ih =>
      have hrest := ih (runStep r b)
      have hstep := runStep_le r b
      rw [List.foldl_cons, List.length_cons]
      omega

-- A run scores no more than its length.
theorem runScore_le (line : List Bool) : runScore line ≤ line.length + 1 := by
  have hfold := foldl_runStep_le line.tail (0, line.headD false, 1)
  have hpoints := runPoints_le (line.tail.foldl runStep (0, line.headD false, 1)).2.2
  rw [List.length_tail] at hfold
  dsimp only [runScore] at hfold ⊢
  omega

theorem length_square (n : Nat) : (square n).length = n * n := by
  simp [square, List.length_flatMap, List.map_const', List.sum_replicate]

theorem count_le (b : Bool) (points : Nat) : count b points ≤ points := by
  cases b with
  | false => exact Nat.zero_le _
  | true => exact Nat.le_refl _

theorem sum_map_le {α : Type} (cells : List α) (score : α → Nat) {k : Nat} (h : ∀ c ∈ cells, score c ≤ k) :
    (cells.map score).sum ≤ cells.length * k := by
  have hle := List.sum_le_card_nsmul (cells.map score) k (by simpa using h)
  rwa [List.length_map, smul_eq_mul] at hle

-- Far from INT32_MAX, so that some mask is always taken.
theorem penaltyScore_lt {deviation : Nat → Nat → Nat} (h : ∀ dark total, dark ≤ total → deviation dark total ≤ 50)
    {g : Grid} (hsize : g.size ≤ 57) : penaltyScore deviation g < 2 ^ 31 - 1 := by
  let line (f : Nat → Bool) : List Bool := (List.range g.size).map f
  have hruns (f : Nat → Nat → Bool) : ((List.range g.size).map fun y => runScore (line (f y))).sum ≤ 57 * 58 := by
    have hle := sum_map_le (List.range g.size) (fun y => runScore (line (f y))) (k := g.size + 1) fun y _ => by
      simpa [line] using runScore_le (line (f y))
    rw [List.length_range] at hle
    exact hle.trans (Nat.mul_le_mul hsize (by omega))
  have hblocks (f : Cell → Nat) (hf : ∀ c, f c ≤ 3) : ((square (g.size - 1)).map f).sum ≤ 57 * 57 * 3 := by
    have hle := sum_map_le (square (g.size - 1)) f (k := 3) fun c _ => hf c
    rw [length_square] at hle
    exact hle.trans (Nat.mul_le_mul_right 3 (Nat.mul_le_mul (by omega) (by omega)))
  have hfinders (f : Cell → Nat) (hf : ∀ c, f c ≤ 80) : ((square g.size).map f).sum ≤ 57 * 57 * 80 := by
    have hle := sum_map_le (square g.size) f (k := 80) fun c _ => hf c
    rw [length_square] at hle
    exact hle.trans (Nat.mul_le_mul_right 80 (Nat.mul_le_mul hsize hsize))
  have hdark : (square g.size).countP g.dark ≤ g.size * g.size := length_square g.size ▸ List.countP_le_length
  have hdeviation := h _ _ hdark
  have hrows := hruns fun y x => g.dark (x, y)
  have hcolumns := hruns fun x y => g.dark (x, y)
  have hblock := hblocks _ fun c => count_le (g.dark (c.1, c.2) = g.dark (c.1 + 1, c.2) &&
    g.dark (c.1, c.2) = g.dark (c.1, c.2 + 1) && g.dark (c.1, c.2) = g.dark (c.1 + 1, c.2 + 1)) 3
  have hfinder := hfinders _ fun c => Nat.add_le_add (count_le (check11311 g c.1 c.2 1 0) 40)
    (count_le (check11311 g c.1 c.2 0 1) 40)
  simp only [penaltyScore]
  dsimp only [line] at hrows hcolumns
  omega

end Scores

section Symbols

-- A reader of the code: the mask out of the format, the bits along the scan, the blocks, the bytes.
def readMatrix (m : Matrix) : Option Bytes :=
  let version := (m.size - 17) / 4
  (readMask m).bind fun mask =>
    let bits := ((scan m.size).filter (!isFunction version ·)).map fun c => m.dark c ^^ invert mask c
    (readCodewords version (readBytes (versionInfo version).totalCodewords bits)).bind (readPayload version)

theorem pickVersion_le {n : Nat} (h : n ≤ 106) :
    ∃ version, pickVersion n = some version ∧ 1 ≤ version ∧ version ≤ 6 := by
  have hall : ∀ n < 107, (pickVersion n).any (fun version => 1 ≤ version && version ≤ 6) := by decide +kernel
  have hn := hall n (Nat.lt_succ_of_le h)
  cases hpick : pickVersion n with
  | none => simp [hpick] at hn
  | some version => exact ⟨version, rfl, by simpa [hpick] using hn⟩

theorem pickVersion_eq_none {n : Nat} : pickVersion n = none ↔ 213 < n := by
  have hcapacity : ∀ v < 11, dataCodewordsFor v * 8 < 1720 + countBits v := by decide
  have hlargest : dataCodewordsFor 10 * 8 = 1728 := by decide
  have hcount : countBits 10 = 16 := by decide
  simp only [pickVersion, List.find?_eq_none, List.mem_range'_1, decide_eq_true_eq, kMaxVersion]
  constructor
  · intro h
    have hten := h 10 (by decide)
    omega
  · intro h v hv
    have hlt := hcapacity v (by omega)
    omega

variable {version : Nat} {c : Cell}

theorem free_count (h : 1 ≤ version ∧ version ≤ 6) : (versionInfo version).totalCodewords * 8 ≤
    ((scan (sideForVersion version)).filter (!isFunction version ·)).length := by
  have hall : ∀ v < 6, (versionInfo (v + 1)).totalCodewords * 8 ≤
      ((scan (sideForVersion (v + 1))).filter (!isFunction (v + 1) ·)).length := by decide +kernel
  have hv := hall (version - 1) (by omega)
  rwa [Nat.sub_add_cancel h.1] at hv

theorem isFunction_format (hin : c.1 < sideForVersion version ∧ c.2 < sideForVersion version)
    (hfree : isFunction version c = false) : c ∉ formatCells ∧ c ∉ formatCells' (sideForVersion version) := by
  have hside : 21 ≤ sideForVersion version ∨ version = 0 := by
    unfold sideForVersion
    omega
  simp only [isFunction, Bool.or_eq_false_iff, Bool.and_eq_false_iff, decide_eq_false_iff_not] at hfree
  constructor
  · intro hc
    have hnear : ∀ c ∈ formatCells, c.1 < 9 ∧ c.2 < 9 := by decide
    have hc := hnear c hc
    omega
  · intro hc
    rw [formatCells'_eq (by unfold sideForVersion; omega), List.mem_map] at hc
    obtain ⟨i, hi, rfl⟩ := hc
    have hi : i < 15 := by simpa using hi
    unfold formatCell' at hfree hin
    split at hfree
    · dsimp only at hfree
      omega
    · dsimp only at hfree
      omega

theorem size_placed (version : Nat) (stream : Bytes) :
    (placeData (functionPatterns version) stream).size = sideForVersion version :=
  (foldl_placeBit_frame stream (zigzag (functionPatterns version).size) (functionPatterns version) 0).1.trans
    (size_functionPatterns version)

-- The bits come back whichever mask has been taken.
theorem bits_candidate (h : 1 ≤ version ∧ version ≤ 6) (stream : Bytes) (m : Nat) :
    let g := candidate (placeData (functionPatterns version) stream) m
    let free := (scan (sideForVersion version)).filter (!isFunction version ·)
    free.map (fun c => g.dark c ^^ invert m c) = (List.range free.length).map (bitAt stream) := by
  have hodd : sideForVersion version % 2 = 1 := by
    unfold sideForVersion
    omega
  let g0 := functionPatterns version
  have hplaced : placeData g0 stream = ((scan (sideForVersion version)).foldl (placeBit stream) (g0, 0)).1 := by
    rw [placeData, size_functionPatterns, zigzag_eq_scan (by omega)]
  obtain ⟨hsize, hreserved, -⟩ := foldl_placeBit_frame stream (scan (sideForVersion version)) g0 0
  rw [← hplaced] at hsize hreserved
  have hfree : (scan (sideForVersion version)).filter (!g0.reserved ·) =
      (scan (sideForVersion version)).filter (!isFunction version ·) :=
    List.filter_congr fun c hc => by rw [reserved_functionPatterns h (mem_scan_lt hodd hc)]
  have hdark : _ = (List.range' 0 _).map (bitAt stream) := foldl_placeBit_dark (nodup_scan hodd) g0 0
  rw [hfree, ← hplaced, List.countP_eq_length_filter, hfree, ← List.range_eq_range'] at hdark
  intro g free
  rw [← hdark]
  refine List.map_congr_left fun c hc => ?_
  obtain ⟨hscan, hfunction⟩ := List.mem_filter.mp hc
  have hin := mem_scan_lt hodd hscan
  have hfunction : isFunction version c = false := by simpa using hfunction
  have hsize' : (placeData g0 stream).size = sideForVersion version := hsize.trans (size_functionPatterns version)
  have hformat := isFunction_format hin hfunction
  have hunreserved : (placeData g0 stream).reserved c = false := by
    rw [hreserved, reserved_functionPatterns h hin, hfunction]
  have hmasked : (applyMask (placeData g0 stream) m).size = sideForVersion version := hsize'
  dsimp only [g]
  rw [candidate, placeFormat_frame (by rw [hmasked]; unfold sideForVersion; omega) hformat.1 (hmasked ▸ hformat.2),
    dark_applyMask (hsize' ▸ hin) hunreserved, Bool.xor_assoc, Bool.xor_self, Bool.xor_false]

-- Bytes, up to 106 of them, are read back from their symbol.
theorem readMatrix_encodeBytes {deviation : Nat → Nat → Nat}
    (h : ∀ dark total, dark ≤ total → deviation dark total ≤ 50) {data : Bytes} (hlen : data.length ≤ 106) :
    ∃ m, encodeBytes deviation data = some m ∧ (21 ≤ m.size ∧ m.size % 2 = 1) ∧ readMatrix m = some data := by
  obtain ⟨version, hpick, hversion⟩ := pickVersion_le hlen
  obtain ⟨hpacked, -⟩ := packPayload_eq hpick
  obtain ⟨hstream, hcodewords⟩ := readCodewords_interleaveBlocks (by omega) hpacked []
  rw [List.append_nil] at hcodewords
  let stream := interleaveBlocks (packPayload data version) version
  let g := placeData (functionPatterns version) stream
  have hsize : g.size = sideForVersion version := size_placed version stream
  have hside : 21 ≤ sideForVersion version ∧ sideForVersion version ≤ 57 ∧ (sideForVersion version - 17) / 4 = version := by
    unfold sideForVersion
    omega
  have hcandidate (m : Nat) : (candidate g m).size = sideForVersion version := (size_candidate g m).trans hsize
  have hscore : penaltyScore deviation (candidate g 0) < 2 ^ 31 - 1 :=
    penaltyScore_lt h (by rw [hcandidate]; exact hside.2.1)
  obtain ⟨m, hm, hbest⟩ := bestOf_mem hscore
  refine ⟨⟨(candidate g m).size, (candidate g m).dark⟩, ?_, ?_, ?_⟩
  · rw [encodeBytes, hpick, ← hbest]
    rfl
  · dsimp only
    rw [hcandidate]
    exact ⟨hside.1, by unfold sideForVersion; omega⟩
  · have hmask : readMask ⟨(candidate g m).size, (candidate g m).dark⟩ = some m :=
      readMask_placeFormat (hsize.symm ▸ hside.1) hm
    have hbits := bits_candidate hversion stream m
    have hfree := free_count hversion
    rw [← hstream] at hfree
    dsimp only at hbits
    rw [readMatrix, hmask, Option.bind_some]
    dsimp only
    rw [hcandidate, hside.2.2, hbits, ← hstream, readBytes_bitAt hfree, hcodewords, Option.bind_some]
    exact readPayload_packPayload hpick

end Symbols

section Rows

def ofRows (rows : List (List Char)) : Matrix :=
  ⟨rows.length, fun c => (rows.getD c.2 []).getD c.1 '0' = '1'⟩

-- A reader looks at no module beyond the edge.
theorem readMatrix_congr {m m' : Matrix} (hside : 21 ≤ m.size) (hodd : m.size % 2 = 1) (hsize : m.size = m'.size)
    (hdark : ∀ c : Cell, c.1 < m.size ∧ c.2 < m.size → m.dark c = m'.dark c) : readMatrix m = readMatrix m' := by
  cases m with
  | mk size dark =>
  cases m' with
  | mk size' dark' =>
  obtain rfl : size = size' := hsize
  dsimp only at hside hodd hdark
  have hfirst : formatCells.map dark = formatCells.map dark' := by
    have hnear : ∀ c ∈ formatCells, c.1 ≤ 8 ∧ c.2 ≤ 8 := by decide
    refine List.map_congr_left fun c hc => hdark c ?_
    have hc := hnear c hc
    omega
  have hsecond : (formatCells' size).map dark = (formatCells' size).map dark' := by
    refine List.map_congr_left fun c hc => hdark c ?_
    rw [formatCells'_eq (by omega), List.mem_map] at hc
    obtain ⟨i, hi, rfl⟩ := hc
    have hi : i < 15 := by simpa using hi
    unfold formatCell'
    split
    · dsimp only
      omega
    · dsimp only
      omega
  have hbits (free : Cell → Bool) (mask : Nat) :
      ((scan size).filter free).map (fun c => dark c ^^ invert mask c) =
        ((scan size).filter free).map fun c => dark' c ^^ invert mask c :=
    List.map_congr_left fun c hc => by rw [hdark c (mem_scan_lt hodd (List.mem_of_mem_filter hc))]
  simp only [readMatrix, readMask, hfirst, hsecond, hbits]

variable {deviation : Nat → Nat → Nat} {url : List Char}

-- What is drawn for a link is read as the link, and only one that is too long is not drawn.
theorem readMatrix_qrRowsForUrl (h : ∀ dark total, dark ≤ total → deviation dark total ≤ 50) (hne : url ≠ []) :
    ((Lib.Utf8.encode url).length ≤ 106 →
      readMatrix (ofRows (qrRowsForUrl deviation url)) = some (Lib.Utf8.encode url)) ∧
      (qrRowsForUrl deviation url = [] ↔ 213 < (Lib.Utf8.encode url).length) := by
  constructor
  · intro hlen
    obtain ⟨m, hencode, ⟨hside, hodd⟩, hread⟩ := readMatrix_encodeBytes h hlen
    have hrows : qrRowsForUrl deviation url =
        (List.range m.size).map fun y => (List.range m.size).map fun x => if m.dark (x, y) then '1' else '0' := by
      rw [qrRowsForUrl, if_neg hne, encode, hencode]
    have hcount : (ofRows (qrRowsForUrl deviation url)).size = m.size := by
      rw [hrows, ofRows, List.length_map, List.length_range]
    rw [← hread]
    apply (readMatrix_congr hside hodd hcount.symm _).symm
    rintro ⟨x, y⟩ ⟨hx, hy⟩
    have hcell : ((qrRowsForUrl deviation url).getD y []).getD x '0' = if m.dark (x, y) then '1' else '0' := by
      simp [hrows, hx, hy]
    dsimp only [ofRows]
    rw [hcell]
    cases m.dark (x, y) <;> rfl
  · rw [← pickVersion_eq_none]
    cases hpick : pickVersion (Lib.Utf8.encode url).length with
    | none => simp [qrRowsForUrl, encode, encodeBytes, hpick]
    | some version =>
        rw [qrRowsForUrl, if_neg hne, encode, encodeBytes, hpick]
        have hside : 0 < sideForVersion version := Nat.add_pos_left (by decide) _
        simp [size_bestOf, size_placed, hside.ne']

-- The deviation without rounding.
def wholePercents (dark total : Nat) : Nat := (100 * (dark : Int) - 50 * total).natAbs / total

theorem wholePercents_le {dark total : Nat} (h : dark ≤ total) : wholePercents dark total ≤ 50 := by
  rw [wholePercents]
  refine (Nat.div_le_div_right (c := total) (by omega : _ ≤ 50 * total)).trans ?_
  exact Nat.div_le_of_le_mul (by omega)

theorem readMatrix_qrRowsForUrl_link :
    ((Lib.Utf8.encode "http://10.0.0.2:8080/".toList).length ≤ 106 →
      readMatrix (ofRows (qrRowsForUrl wholePercents "http://10.0.0.2:8080/".toList)) =
        some (Lib.Utf8.encode "http://10.0.0.2:8080/".toList)) ∧
      (qrRowsForUrl wholePercents "http://10.0.0.2:8080/".toList = [] ↔
        213 < (Lib.Utf8.encode "http://10.0.0.2:8080/".toList).length) :=
  readMatrix_qrRowsForUrl (fun _ _ => wholePercents_le) (by decide)

end Rows

end BATorrent.Qrcodegen
