import Mathlib.Data.List.DropRight
import BATorrent.Lib.Text
import Mathlib.Data.List.Infix

namespace BATorrent.ArchiveScan

abbrev Text := List Char

section Endings

-- An expression's end also stands before a line feed that ends the text.
def chomp (n : Text) : Text := if ['\n'] <:+ n then n.dropLast else n

def digitsAtEnd (n : Text) : Text := n.rtakeWhile Char.isDigit

-- As QString::toInt has it: zero where the number is too large.
def toInt (digits : Text) : Int :=
  let value := digits.foldl (fun v c => 10 * v + (c.toNat - '0'.toNat)) 0
  if value < 2 ^ 31 then value else 0

-- The digits of a name that ends in .partN.rar.
def partDigits (n : Text) : Option Text :=
  let s := chomp n
  if ['.', 'r', 'a', 'r'] <:+ s then
    let stem := s.take (s.length - 4)
    let digits := digitsAtEnd stem
    if digits ≠ [] ∧ ['.', 'p', 'a', 'r', 't'] <:+ stem.take (stem.length - digits.length) then some digits
    else none
  else none

def rarPartNumber (n : Text) : Int := (partDigits n).elim (-1) toInt

-- The name ends in the mark and so many digits.
def endsInDigits (mark : Text) (count : Nat) (n : Text) : Bool :=
  let s := chomp n
  let digits := s.drop (s.length - count)
  digits.length = count && digits.all Char.isDigit && mark.isSuffixOf (s.take (s.length - count))

def splitNumber (n : Text) : Int :=
  let s := chomp n
  if endsInDigits ['.'] 3 n then toInt (s.drop (s.length - 3)) else -1

end Endings

section Names

variable (toLower : Text → Text)

def plainExts : List Text :=
  [".tar.gz", ".tar.bz2", ".tar.xz", ".tgz", ".tbz2", ".tbz", ".txz", ".rar", ".zip", ".7z", ".tar",
    ".gz", ".bz2", ".xz"].map String.toList

def isContinuationPart (name : Text) : Bool :=
  let n := toLower name
  1 < rarPartNumber n || endsInDigits ['.', 'r'] 2 n || endsInDigits ['.', 'z'] 2 n || 1 < splitNumber n

def isArchive (name : Text) : Bool :=
  let n := toLower name
  isContinuationPart toLower n || 1 ≤ rarPartNumber n || 1 ≤ splitNumber n ||
    plainExts.any fun ext => ext.isSuffixOf n

def isFirst (n : Text) : Bool :=
  rarPartNumber n = 1 || splitNumber n = 1 ||
    (rarPartNumber n < 0 && splitNumber n < 0 && plainExts.any fun ext => ext.isSuffixOf n)

def archivesFrom (out seen : List Text) : List Text → List Text
  | [] => out
  | f :: rest =>
      let n := toLower f
      if !isContinuationPart toLower n && isFirst n && !seen.contains n then
        archivesFrom (out ++ [f]) (seen ++ [n]) rest
      else archivesFrom out seen rest

def archivesToExtract (fileNames : List Text) : List Text := archivesFrom toLower [] [] fileNames

end Names

section Passwords

variable (detect : Text → Text)

def groupPasswords : List (Text × Text) := [("Online-Fix".toList, "online-fix.me".toList)]

def taggedPasswords (archiveName : Text) : List Text :=
  ((groupPasswords.find? fun g => g.1 = detect archiveName).map Prod.snd).toList

def knownPasswords (archiveName : Text) : List Text :=
  groupPasswords.foldl (fun out g => if g.2 ∈ out then out else out ++ [g.2])
    (taggedPasswords detect archiveName)

end Passwords

section Endings

variable {n base digits mark : Text} {count : Nat} {c : Char}

theorem chomp_concat (hc : c ≠ '\n') : chomp (base ++ [c]) = base ++ [c] := by
  unfold chomp
  rw [if_neg fun hends => ?_]
  obtain ⟨t, ht⟩ := hends
  exact hc (List.append_inj' ht rfl |>.2 |> List.cons.inj |>.1).symm

theorem endsInDigits_iff : endsInDigits mark count n = true ↔
    ∃ base digits, chomp n = base ++ mark ++ digits ∧ digits.length = count ∧ digits.all Char.isDigit = true := by
  unfold endsInDigits
  dsimp only
  rw [Bool.and_eq_true, Bool.and_eq_true, decide_eq_true_eq, List.isSuffixOf_iff_suffix]
  constructor
  · rintro ⟨⟨hlen, hall⟩, base, hbase⟩
    exact ⟨base, _, by rw [hbase, List.take_append_drop], hlen, hall⟩
  · rintro ⟨base, digits, hs, hlen, hall⟩
    have hsub : (chomp n).length - count = (base ++ mark).length := by
      rw [hs, List.length_append, hlen, Nat.add_sub_cancel]
    rw [hsub, hs, List.drop_left, List.take_left]
    exact ⟨⟨hlen, hall⟩, List.suffix_append _ _⟩

-- What does not end in a digit ends in no number.
theorem endsInDigits_concat (hn : chomp n = base ++ [c]) (hc : c.isDigit = false) (hcount : 0 < count) :
    endsInDigits mark count n = false := by
  rw [Bool.eq_false_iff]
  intro hends
  obtain ⟨base', digits, hs, hlen, hall⟩ := endsInDigits_iff.mp hends
  rcases List.eq_nil_or_concat digits with rfl | ⟨ds, d, rfl⟩
  · exact absurd hlen (by rw [List.length_nil]; omega)
  · rw [hn, List.concat_eq_append, ← List.append_assoc] at hs
    obtain ⟨-, hcd⟩ := List.append_inj' hs rfl
    obtain rfl := (List.cons.inj hcd).1
    have hdigit := List.all_eq_true.mp hall c (by simp)
    exact Bool.false_ne_true (hc.symm.trans hdigit)

theorem splitNumber_eq (hn : chomp n = base ++ ['.'] ++ digits) (hlen : digits.length = 3)
    (hall : digits.all Char.isDigit = true) : splitNumber n = toInt digits := by
  have hsub : (chomp n).length - 3 = (base ++ ['.']).length := by
    rw [hn, List.length_append, hlen, Nat.add_sub_cancel]
  unfold splitNumber
  dsimp only
  rw [if_pos (endsInDigits_iff.mpr ⟨base, digits, hn, hlen, hall⟩), hsub, hn, List.drop_left]

theorem splitNumber_concat (hn : chomp n = base ++ [c]) (hc : c.isDigit = false) : splitNumber n = -1 := by
  unfold splitNumber
  dsimp only
  rw [if_neg (by rw [endsInDigits_concat hn hc (by decide)]; decide)]

theorem digitsAtEnd_eq (hc : c.isDigit = false) (hall : digits.all Char.isDigit = true) :
    digitsAtEnd (base ++ [c] ++ digits) = digits := by
  unfold digitsAtEnd List.rtakeWhile
  rw [List.reverse_append, List.reverse_append, List.takeWhile_append_of_pos, List.reverse_singleton,
    List.singleton_append, List.takeWhile_cons_of_neg, List.append_nil, List.reverse_reverse]
  · rw [hc]
    decide
  · exact fun d hd => List.all_eq_true.mp hall d (List.mem_reverse.mp hd)

theorem rarPartNumber_eq (hn : chomp n = base ++ ['.', 'p', 'a', 'r', 't'] ++ digits ++ ['.', 'r', 'a', 'r'])
    (hne : digits ≠ []) (hall : digits.all Char.isDigit = true) : rarPartNumber n = toInt digits := by
  have hdigits : digitsAtEnd (base ++ ['.', 'p', 'a', 'r', 't'] ++ digits) = digits := by
    have hsplit : base ++ ['.', 'p', 'a', 'r', 't'] = base ++ ['.', 'p', 'a', 'r'] ++ ['t'] := by
      rw [List.append_assoc]
      rfl
    rw [hsplit]
    exact digitsAtEnd_eq rfl hall
  have hstem : (chomp n).take ((chomp n).length - 4) = base ++ ['.', 'p', 'a', 'r', 't'] ++ digits := by
    have hsub : (chomp n).length - 4 = (base ++ ['.', 'p', 'a', 'r', 't'] ++ digits).length := by
      rw [hn, List.length_append]
      change _ + 4 - 4 = _
      rw [Nat.add_sub_cancel]
    rw [hsub, hn, List.take_left]
  have hpart : partDigits n = some digits := by
    unfold partDigits
    dsimp only
    rw [if_pos (by rw [hn]; exact List.suffix_append _ _), hstem, hdigits, List.length_append,
      Nat.add_sub_cancel, List.take_left, if_pos ⟨hne, List.suffix_append _ _⟩]
  rw [rarPartNumber, hpart]
  rfl

theorem rarPartNumber_concat (hn : chomp n = base ++ [c]) (hc : c ≠ 'r') : rarPartNumber n = -1 := by
  have hpart : partDigits n = none := by
    unfold partDigits
    dsimp only
    rw [if_neg fun hends => ?_]
    rw [hn] at hends
    obtain ⟨t, ht⟩ := hends
    have hsplit : t ++ ['.', 'r', 'a', 'r'] = t ++ ['.', 'r', 'a'] ++ ['r'] := by
      rw [List.append_assoc]
      rfl
    rw [hsplit] at ht
    exact hc (List.cons.inj (List.append_inj' ht rfl).2).1.symm
  rw [rarPartNumber, hpart]
  rfl

end Endings

section Results

variable (baseName : Text → Text)

-- What `archivesToExtract` asks of a name.
def wanted (n : Text) : Bool := !isContinuationPart baseName n && isFirst n

-- Of the files of one name the result has the first, if it has any.
theorem filter_archivesFrom (out seen files : List Text) (n : Text) :
    (archivesFrom baseName out seen files).filter (baseName · = n) =
      out.filter (baseName · = n) ++
        if n ∈ seen then [] else if wanted baseName n then (files.find? (baseName · = n)).toList else [] := by
  induction files generalizing out seen with
  | nil => split_ifs <;> simp [archivesFrom]
  | cons f files ih =>
      rw [archivesFrom]
      by_cases hname : baseName f = n
      · have hfind : (f :: files).find? (baseName · = n) = some f := List.find?_cons_of_pos (decide_eq_true hname)
        rw [hname, hfind]
        by_cases htake : (!isContinuationPart baseName n && isFirst n && !seen.contains n) = true
        · rw [if_pos htake, ih]
          obtain ⟨hwanted, hnew⟩ : wanted baseName n = true ∧ n ∉ seen := by
            rw [Bool.and_eq_true, Bool.not_eq_true', List.contains_eq_mem, decide_eq_false_iff_not] at htake
            exact htake
          rw [if_pos (by simp), if_neg hnew, if_pos hwanted, List.filter_append, List.append_nil,
            List.filter_singleton, decide_eq_true hname]
          rfl
        · rw [if_neg htake, ih]
          split_ifs with hseen hwanted
          · rfl
          · rw [Bool.and_eq_true, Bool.not_eq_true', List.contains_eq_mem, decide_eq_false_iff_not] at htake
            exact absurd ⟨hwanted, hseen⟩ htake
          · rfl
      · have hfind : (f :: files).find? (baseName · = n) = files.find? (baseName · = n) :=
          List.find?_cons_of_neg (by simpa using hname)
        have hnot : decide (baseName f = n) = false := decide_eq_false hname
        have hseen : n ∈ seen ++ [baseName f] ↔ n ∈ seen := by simp [Ne.symm hname]
        rw [hfind]
        by_cases htake : (!isContinuationPart baseName (baseName f) && isFirst (baseName f) &&
            !seen.contains (baseName f)) = true
        · rw [if_pos htake, ih, List.filter_append, List.filter_singleton, hnot, cond_false, List.append_nil]
          simp only [hseen]
        · rw [if_neg htake, ih]

end Results

section FirstVolumes

-- The first volume of the set that a name continues, under each of the numberings.
inductive Continues : Text → Text → Prop where
  | part {n first base digits digits' : Text} (hn : chomp n = base ++ ['.', 'p', 'a', 'r', 't'] ++ digits ++ ['.', 'r', 'a', 'r'])
      (hall : digits.all Char.isDigit = true) (hlater : 1 < toInt digits)
      (hfirst : chomp first = base ++ ['.', 'p', 'a', 'r', 't'] ++ digits' ++ ['.', 'r', 'a', 'r'])
      (hall' : digits'.all Char.isDigit = true) (hone : toInt digits' = 1) : Continues n first
  | rNN {n base digits : Text} (hn : chomp n = base ++ ['.', 'r'] ++ digits) (hlen : digits.length = 2)
      (hall : digits.all Char.isDigit = true) : Continues n (base ++ ['.', 'r', 'a', 'r'])
  | zNN {n base digits : Text} (hn : chomp n = base ++ ['.', 'z'] ++ digits) (hlen : digits.length = 2)
      (hall : digits.all Char.isDigit = true) : Continues n (base ++ ['.', 'z', 'i', 'p'])
  | split {n first base digits : Text} (hn : chomp n = base ++ ['.'] ++ digits) (hlen : digits.length = 3)
      (hall : digits.all Char.isDigit = true) (hlater : 1 < toInt digits)
      (hfirst : chomp first = base ++ ['.'] ++ ['0', '0', '1']) : Continues n first

variable {baseName : Text → Text} {n first base : Text}

-- A name that ends in a letter continues a set only by its part number.
theorem isContinuationPart_concat {c : Char} (hbase : baseName n = n) (hn : chomp n = base ++ [c])
    (hc : c.isDigit = false) : isContinuationPart baseName n = decide (1 < rarPartNumber n) := by
  unfold isContinuationPart
  dsimp only
  rw [hbase, endsInDigits_concat hn hc (by decide), endsInDigits_concat hn hc (by decide), splitNumber_concat hn hc,
    Bool.or_false, Bool.or_false]
  exact Bool.or_false _

theorem wanted_concat {c : Char} (hbase : baseName n = n) (hn : chomp n = base ++ [c]) (hc : c.isDigit = false)
    (hplain : (plainExts.any fun ext => ext.isSuffixOf n) = true)
    (hpart : rarPartNumber n < 0 ∨ rarPartNumber n = 1) : wanted baseName n = true := by
  have hnot : isContinuationPart baseName n = false := by
    rw [isContinuationPart_concat hbase hn hc, decide_eq_false_iff_not]
    omega
  have hfirst : isFirst n = true := by
    unfold isFirst
    rw [splitNumber_concat hn hc, hplain]
    rcases hpart with hpart | hpart
    · simp [hpart]
    · simp [hpart]
  rw [wanted, hnot, hfirst]
  rfl

theorem any_plainExts {ext : Text} (hext : ext ∈ plainExts) :
    (plainExts.any fun e => e.isSuffixOf (base ++ ext)) = true :=
  List.any_eq_true.mpr ⟨ext, hext, List.isSuffixOf_iff_suffix.mpr (List.suffix_append _ _)⟩

-- The first volume of a set is taken, unless its own name has another part number.
theorem wanted_of_continues (h : Continues n first) (hbase : baseName first = first)
    (hpart : rarPartNumber first < 0 ∨ rarPartNumber first = 1) : wanted baseName first = true := by
  cases h with
  | @part _ base _ digits' _ _ _ hfirst hall hone =>
      have hne : digits' ≠ [] := by
        rintro rfl
        exact absurd hone (by decide)
      have hnumber := rarPartNumber_eq hfirst hne hall
      have hlast : chomp first = base ++ ['.', 'p', 'a', 'r', 't'] ++ digits' ++ ['.', 'r', 'a'] ++ ['r'] := by
        rw [hfirst, List.append_assoc _ ['.', 'r', 'a']]
        rfl
      have hnot := isContinuationPart_concat hbase hlast rfl
      rw [hnumber, hone] at hnot
      rw [wanted, hnot, isFirst, hnumber, hone]
      rfl
  | @rNN base =>
      have hsplit : base ++ ['.', 'r', 'a', 'r'] = base ++ ['.', 'r', 'a'] ++ ['r'] := by simp
      have hlast : chomp (base ++ ['.', 'r', 'a', 'r']) = base ++ ['.', 'r', 'a'] ++ ['r'] := by
        rw [hsplit]
        exact chomp_concat (by decide)
      exact wanted_concat hbase hlast rfl (any_plainExts (by decide +kernel)) hpart
  | @zNN base =>
      have hsplit : base ++ ['.', 'z', 'i', 'p'] = base ++ ['.', 'z', 'i'] ++ ['p'] := by simp
      have hlast : chomp (base ++ ['.', 'z', 'i', 'p']) = base ++ ['.', 'z', 'i'] ++ ['p'] := by
        rw [hsplit]
        exact chomp_concat (by decide)
      exact wanted_concat hbase hlast rfl (any_plainExts (by decide +kernel)) hpart
  | @split _ base _ _ _ _ _ hfirst =>
      have hnumber : splitNumber first = 1 := splitNumber_eq hfirst rfl rfl
      have hlast : chomp first = base ++ ['.', '0'] ++ ['0'] ++ ['1'] := by
        rw [hfirst]
        simp
      have hrar : rarPartNumber first = -1 := rarPartNumber_concat hlast (by decide)
      have hletter : ∀ c, c ≠ '0' → endsInDigits ['.', c] 2 first = false := by
        intro c hc
        rw [Bool.eq_false_iff]
        intro hends
        obtain ⟨base', digits, hs, hlen, -⟩ := endsInDigits_iff.mp hends
        rw [hlast, List.append_assoc _ ['0'] ['1']] at hs
        obtain ⟨hmark, -⟩ := List.append_inj' hs hlen.symm
        have hc' : base ++ ['.'] ++ ['0'] = base' ++ ['.'] ++ [c] := by simpa using hmark
        exact hc (List.cons.inj (List.append_inj' hc' rfl).2).1.symm
      have hnot : isContinuationPart baseName first = false := by
        unfold isContinuationPart
        dsimp only
        rw [hbase, hletter 'r' (by decide), hletter 'z' (by decide), hnumber, hrar]
        rfl
      rw [wanted, hnot, isFirst, hnumber]
      simp

theorem splitNumber_plain (hplain : (plainExts.any fun ext => ext.isSuffixOf n) = true) : splitNumber n = -1 := by
  have hletters : ∀ ext ∈ plainExts, 3 ≤ ext.length ∧ (ext.drop (ext.length - 3)).all Char.isDigit = false ∧
      ext.getLast? ≠ some '\n' := by decide +kernel
  obtain ⟨ext, hext, hends⟩ := List.any_eq_true.mp hplain
  obtain ⟨base, rfl⟩ := List.isSuffixOf_iff_suffix.mp hends
  obtain ⟨hlong, hdigits, hlast⟩ := hletters ext hext
  have hchomp : chomp (base ++ ext) = base ++ ext := by
    unfold chomp
    rw [if_neg fun hnewline => ?_]
    obtain ⟨t, ht⟩ := hnewline
    have hget := congrArg List.getLast? ht
    rw [List.getLast?_concat, List.getLast?_append_of_ne_nil _ (by rintro rfl; exact absurd hlong (by decide))] at hget
    exact hlast hget.symm
  unfold splitNumber
  dsimp only
  rw [if_neg fun hnumber => ?_]
  obtain ⟨base', digits, hs, hlen, hall⟩ := endsInDigits_iff.mp hnumber
  have htail : digits = ext.drop (ext.length - 3) := by
    have hcut : base ++ ext.take (ext.length - 3) ++ ext.drop (ext.length - 3) = base' ++ ['.'] ++ digits := by
      rw [List.append_assoc, List.take_append_drop, ← hs, hchomp]
    exact (List.append_inj' hcut (by rw [List.length_drop, hlen]; omega)).2.symm
  rw [htail, hdigits] at hall
  contradiction

-- Whatever is known as an archive is taken or continues a set, unless its part number is zero.
theorem wanted_of_isArchive {f : Text} (hbase : baseName (baseName f) = baseName f)
    (harchive : isArchive baseName f = true) (hpart : rarPartNumber (baseName f) ≠ 0)
    (hnot : isContinuationPart baseName f = false) : wanted baseName (baseName f) = true := by
  have hsame : isContinuationPart baseName (baseName f) = isContinuationPart baseName f := by
    unfold isContinuationPart
    rw [hbase]
  have hsmall : ¬ 1 < rarPartNumber (baseName f) ∧ ¬ 1 < splitNumber (baseName f) := by
    unfold isContinuationPart at hnot
    simp only [Bool.or_eq_false_iff, decide_eq_false_iff_not] at hnot
    exact ⟨hnot.1.1.1, hnot.2⟩
  unfold isArchive at harchive
  dsimp only at harchive
  rw [hsame, hnot, Bool.false_or, Bool.or_eq_true, Bool.or_eq_true, decide_eq_true_eq, decide_eq_true_eq] at harchive
  have hfirst : isFirst (baseName f) = true := by
    unfold isFirst
    rcases harchive with (hrar | hsplit) | hplain
    · have hone : rarPartNumber (baseName f) = 1 := by omega
      simp [hone]
    · have hone : splitNumber (baseName f) = 1 := by omega
      simp [hone]
    · rw [splitNumber_plain hplain, hplain]
      rcases Int.lt_or_gt_of_ne hpart with hneg | hpos
      · simp [hneg]
      · have hone : rarPartNumber (baseName f) = 1 := by omega
        simp [hone]
  rw [wanted, hsame, hnot, hfirst]
  rfl

end FirstVolumes

section Sets

variable (baseName : Text → Text)

theorem filter_archivesToExtract (files : List Text) (n : Text) :
    (archivesToExtract baseName files).filter (baseName · = n) =
      if wanted baseName n then (files.find? (baseName · = n)).toList else [] := by
  rw [archivesToExtract, filter_archivesFrom, if_neg List.not_mem_nil]
  rfl

theorem filter_of_wanted {files : List Text} {n f : Text} (hn : wanted baseName n = true) (hf : f ∈ files)
    (hname : baseName f = n) : ∃ first, files.find? (baseName · = n) = some first ∧
      (archivesToExtract baseName files).filter (baseName · = n) = [first] := by
  have hfound : (files.find? (baseName · = n)).isSome = true :=
    List.find?_isSome.mpr ⟨f, hf, decide_eq_true hname⟩
  obtain ⟨first, hfirst⟩ := Option.isSome_iff_exists.mp hfound
  refine ⟨first, hfirst, ?_⟩
  rw [filter_archivesToExtract, if_pos hn, hfirst]
  rfl

-- Of the files that go by one name the first is taken, once; of a set whose first volume is there, that and no
-- other part.
theorem sets_extracted_once (hbase : ∀ f, baseName (baseName f) = baseName f) (files : List Text) (f : Text)
    (hf : f ∈ files) (harchive : isArchive baseName f = true) (hpart : rarPartNumber (baseName f) ≠ 0) :
    (isContinuationPart baseName f = true ∧ f ∉ archivesToExtract baseName files ∧
      ∀ first ∈ files, Continues (baseName f) (baseName first) →
        rarPartNumber (baseName first) < 0 ∨ rarPartNumber (baseName first) = 1 →
        ∃ taken, files.find? (baseName · = baseName first) = some taken ∧
          (archivesToExtract baseName files).filter (baseName · = baseName first) = [taken]) ∨
    (isContinuationPart baseName f = false ∧ ∃ taken, files.find? (baseName · = baseName f) = some taken ∧
      (archivesToExtract baseName files).filter (baseName · = baseName f) = [taken]) := by
  have hsame : isContinuationPart baseName (baseName f) = isContinuationPart baseName f := by
    unfold isContinuationPart
    rw [hbase]
  cases hcontinues : isContinuationPart baseName f with
  | true =>
      refine .inl ⟨rfl, fun hmem => ?_, fun first hfirst hset hnumber => ?_⟩
      · have hnone := filter_archivesToExtract baseName files (baseName f)
        rw [wanted, hsame, hcontinues, Bool.not_true, Bool.false_and, if_neg Bool.false_ne_true] at hnone
        exact absurd (List.mem_filter.mpr ⟨hmem, decide_eq_true rfl⟩) (hnone ▸ List.not_mem_nil)
      · exact filter_of_wanted baseName (wanted_of_continues hset (hbase first) hnumber) hfirst rfl
  | false =>
      exact .inr ⟨rfl, filter_of_wanted baseName (wanted_of_isArchive (hbase f) harchive hpart hcontinues) hf rfl⟩

def lower (n : Text) : Text := n.map Char.toLower

def oldStyle : List Text := ["a.r00".toList, "A.rar".toList, "b.zip".toList]

theorem sets_extracted_once_old_style :
    ∃ taken, oldStyle.find? (lower · = lower "A.rar".toList) = some taken ∧
      (archivesToExtract lower oldStyle).filter (lower · = lower "A.rar".toList) = [taken] := by
  have hset : Continues (lower "a.r00".toList) (lower "A.rar".toList) := by
    have hfirst : lower "A.rar".toList = ['a'] ++ ['.', 'r', 'a', 'r'] := by decide +kernel
    rw [hfirst]
    exact @Continues.rNN _ ['a'] ['0', '0'] (by decide +kernel) rfl rfl
  have honce := sets_extracted_once lower Lib.Text.map_toLower_toLower oldStyle "a.r00".toList (by decide +kernel)
    (by decide +kernel) (by decide +kernel)
  have hpart := honce.resolve_right fun h => absurd h.1 (by decide +kernel)
  exact hpart.2.2 "A.rar".toList (by decide +kernel) hset (.inl (by decide +kernel))

-- A part without its first volume, a name again in other letters, and a part with the number zero.
theorem not_extracted :
    (isArchive lower "a.part2.rar".toList = true ∧ archivesToExtract lower ["a.part2.rar".toList] = []) ∧
    (isArchive lower "A.zip".toList = true ∧ isContinuationPart lower "A.zip".toList = false ∧
      archivesToExtract lower ["a.zip".toList, "A.zip".toList] = ["a.zip".toList]) ∧
    (isArchive lower "a.part0.rar".toList = true ∧ isContinuationPart lower "a.part0.rar".toList = false ∧
      archivesToExtract lower ["a.part0.rar".toList] = []) := by
  decide +kernel

end Sets

end BATorrent.ArchiveScan
