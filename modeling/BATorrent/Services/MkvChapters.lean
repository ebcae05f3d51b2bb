import BATorrent.Lib.Checked
import BATorrent.Lib.Text
import BATorrent.Lib.Utf8

namespace BATorrent.MkvChapters

open Lib Lib.Checked Lib.Utf8
open Lib.DataStream (Bytes)

-- Element IDs with their length marker.
def ID_EBML : Nat := 0x1A45DFA3

def ID_SEGMENT : Nat := 0x18538067

def ID_CHAPTERS : Nat := 0x1043A770

def ID_EDITION : Nat := 0x45B9

def ID_CHAPTERATOM : Nat := 0xB6

def ID_TIME_START : Nat := 0x91

def ID_TIME_END : Nat := 0x92

def ID_DISPLAY : Nat := 0x80

def ID_CHAPSTRING : Nat := 0x85

def MAX_CHAPTERS : Nat := 500

def MAX_NAME_LEN : Nat := 4096

def MAX_DEPTH : Nat := 8

structure MkvChapter where
  startMs : Int
  endMs : Int
  name : Text
  kind : Text
deriving DecidableEq

def MkvChapter.init : MkvChapter := ⟨0, -1, [], []⟩

section Reader

structure Vint (pos : Nat) where
  value : Nat
  unknown : Bool
  next : Nat
  lt_next : pos < next

-- The loop over the masks ends at the highest bit that is set.
def vintLen (first : UInt8) : Nat := 8 - first.toNat.log2

-- The length marker of a size is not part of it.
def vintStart (first : UInt8) (keepMarker : Bool) : Nat :=
  if keepMarker then first.toNat else first.toNat % 2 ^ (8 - vintLen first)

def vintAllOnes (first : UInt8) (rest : Bytes) : Bool :=
  first.toNat % 2 ^ (8 - vintLen first) = 2 ^ (8 - vintLen first) - 1 && rest.all (· = 0xFF)

def bigEndian (v : Nat) (bytes : Bytes) : Nat := bytes.foldl (fun v b => v * 256 + b.toNat) v

def sum (pos size : Nat) : Checked Nat := do
  let _ ← int64 ((pos : Int) + size)
  return pos + size

def readVint (file : Bytes) (pos : Nat) (keepMarker : Bool) : Checked (Option (Vint pos)) :=
  if file.length ≤ pos then return none
  else do
    let first ← index file pos
    if first = 0 then return none
    else
      let len := vintLen first
      if hlen : len < 1 ∨ 8 < len then return none
      else
        let _ ← sum pos len
        let next := pos + len
        if file.length < next then return none
        else
          let rest ← load file (pos + 1 : Nat) (len - 1 : Nat)
          return some ⟨bigEndian (vintStart first keepMarker) rest, !keepMarker && vintAllOnes first rest, next,
            by omega⟩

structure Header (pos : Nat) where
  id : Nat
  size : Nat
  unknownSize : Bool
  content : Nat
  lt_content : pos < content

def readHeader (file : Bytes) (pos : Nat) : Checked (Option (Header pos)) := do
  match ← readVint file pos true with
  | none => return none
  | some rawId =>
      if 0xFFFFFFFF < rawId.value then return none
      else
        match ← readVint file rawId.next false with
        | none => return none
        | some rawSize =>
            return some ⟨rawId.value, rawSize.value, rawSize.unknown, rawSize.next,
              rawId.lt_next.trans rawSize.lt_next⟩

def readUInt (file : Bytes) (pos size : Nat) : Checked (Option Nat) :=
  if size = 0 ∨ 8 < size then return none
  else do
    let stop ← sum pos size
    if file.length < stop then return none
    else
      let bytes ← load file pos size
      return some (bigEndian 0 bytes)

def readString (repaired : Bytes → Text) (file : Bytes) (pos size : Nat) : Checked Text :=
  if size = 0 ∨ MAX_NAME_LEN < size then return []
  else do
    let stop ← sum pos size
    if file.length < stop then return []
    else
      let buf ← load file pos size
      return Lib.Text.trimmed (decode repaired buf)

structure Child (stop pos : Nat) extends Header pos where
  le_stop : content + size ≤ stop

-- What is taken of a parent lies in it.
def inside (start stop pos size : Nat) : Checked Unit :=
  if start ≤ pos ∧ pos + size ≤ stop then .ok () else .error .outOfBounds

-- The next element of a parent that takes up `start` to `stop`, and none where the walk over it ends early.
def child (file : Bytes) (start stop pos : Nat) : Checked (Option (Child stop pos)) := do
  inside start stop pos 1
  match ← readHeader file pos with
  | none => return none
  | some h =>
      if h.unknownSize then return none
      else
        let _ ← sum h.content h.size
        if hin : stop < h.content + h.size then return none
        else
          inside start stop h.content h.size
          return some ⟨h, Nat.le_of_not_lt hin⟩

end Reader

section Chapters

variable (toLower : Text → Text) (repaired : Bytes → Text)

def contains (n word : Text) : Bool := word <:+: n

def classifyChapter (nameRaw : Text) : Text :=
  let n := toLower nameRaw
  if contains n "intro".toList || contains n "opening".toList || contains n "recap".toList ||
      contains n "previously".toList || contains n "abertura".toList then "intro".toList
  else if contains n "credit".toList || contains n "ending".toList || contains n "outro".toList ||
      contains n "encerramento".toList then "credits".toList
  else []

def nsToMs (ns : Nat) : Int := (ns / 1000000 : Nat)

def displayElement (file : Bytes) {dpos : Nat} (d : Header dpos) (name : Text) : Checked Text :=
  if d.id = ID_CHAPSTRING ∧ name = [] then readString repaired file d.content d.size else return name

def displayFrom (file : Bytes) (start stop dpos : Nat) (name : Text) : Checked Text :=
  if _hpos : dpos < stop ∧ dpos < file.length then do
    match ← child file start stop dpos with
    | none => return name
    | some d =>
        let name ← displayElement repaired file d.toHeader name
        have := d.lt_content
        displayFrom file start stop (d.content + d.size) name
  else return name
termination_by stop - dpos

-- One element of a chapter atom.
def atomElement (file : Bytes) {pos : Nat} (h : Header pos) (ch : MkvChapter) : Checked MkvChapter :=
  if h.id = ID_TIME_START then do
    match ← readUInt file h.content h.size with
    | some ns => return { ch with startMs := nsToMs ns }
    | none => return ch
  else if h.id = ID_TIME_END then do
    match ← readUInt file h.content h.size with
    | some ns => return { ch with endMs := nsToMs ns }
    | none => return ch
  else if h.id = ID_DISPLAY then do
    let name ← displayFrom repaired file h.content (h.content + h.size) h.content ch.name
    return { ch with name := name }
  else return ch

-- The kind is set only where the whole atom was walked.
def atomFrom (file : Bytes) (start stop pos : Nat) (ch : MkvChapter) : Checked MkvChapter :=
  if _hpos : pos < stop ∧ pos < file.length then do
    match ← child file start stop pos with
    | none => return ch
    | some h =>
        let ch ← atomElement repaired file h.toHeader ch
        have := h.lt_content
        atomFrom file start stop (h.content + h.size) ch
  else return { ch with kind := classifyChapter toLower ch.name }
termination_by stop - pos

def parseChapterAtom (file : Bytes) (start stop : Nat) (ch : MkvChapter) (depth : Nat) : Checked MkvChapter :=
  if MAX_DEPTH < depth then return ch else atomFrom toLower repaired file start stop start ch

def addChapter (out : List MkvChapter) (ch : MkvChapter) : List MkvChapter :=
  if 0 ≤ ch.startMs then out ++ [ch] else out

def chaptersFrom (file : Bytes) (start stop pos : Nat) (out : List MkvChapter) (depth : Nat) :
    Checked (List MkvChapter) :=
  if _hpos : pos < stop ∧ pos < file.length ∧ out.length < MAX_CHAPTERS then do
    match ← child file start stop pos with
    | none => return out
    | some h =>
        have := h.lt_content
        have := h.le_stop
        let out ← (
          if h.id = ID_EDITION then
            if MAX_DEPTH < depth + 1 then pure out
            else chaptersFrom file h.content (h.content + h.size) h.content out (depth + 1)
          else if h.id = ID_CHAPTERATOM then
            addChapter out <$> parseChapterAtom toLower repaired file h.content (h.content + h.size) .init (depth + 1)
          else pure out)
        chaptersFrom file start stop (h.content + h.size) out depth
  else return out
termination_by stop - pos

def parseChapters (file : Bytes) (start stop : Nat) (out : List MkvChapter) (depth : Nat) :
    Checked (List MkvChapter) :=
  if MAX_DEPTH < depth then return out else chaptersFrom toLower repaired file start stop start out depth

-- The children of the segment, as far as the first that holds chapters.
def segmentFrom (file : Bytes) (start stop : Nat) : Nat → Nat → Checked (List MkvChapter)
  | 0, _ => return []
  | guard + 1, pos =>
      if pos < stop then do
        match ← child file start stop pos with
        | none => return []
        | some h =>
            let next := h.content + h.size
            if h.id = ID_CHAPTERS then parseChapters toLower repaired file h.content next [] 0
            else if next ≤ pos then return []
            else segmentFrom file start stop guard next
      else return []

def maxChildren : Nat := 100000

def segmentEnd (file : Bytes) {pos : Nat} (segment : Header pos) : Checked Nat :=
  if segment.unknownSize then return file.length
  else min file.length <$> sum segment.content segment.size

def readMkvChapters (file : Bytes) : Checked (List MkvChapter) :=
  if file.length < 64 then return []
  else do
    match ← readHeader file 0 with
    | none => return []
    | some ebml =>
        if ebml.id ≠ ID_EBML ∨ ebml.unknownSize then return []
        else
          let pos ← sum ebml.content ebml.size
          if file.length < pos then return []
          else
            match ← readHeader file pos with
            | none => return []
            | some segment =>
                if segment.id ≠ ID_SEGMENT then return []
                else
                  let segEnd ← segmentEnd file segment
                  segmentFrom toLower repaired file segment.content segEnd maxChildren segment.content

end Chapters

variable {file : Bytes}

section Reading

variable {pos size start stop : Nat}

-- No file that can be is longer.
def Addressable (file : Bytes) : Prop := file.length + 2 ^ 56 ≤ 2 ^ 63

instance (file : Bytes) : Decidable (Addressable file) := inferInstanceAs (Decidable (_ ≤ _))

theorem sum_eq (h : pos + size < 2 ^ 63) : sum pos size = .ok (pos + size) := by
  have hfits : Fits ((pos : Int) + size) := by
    unfold Fits
    omega
  rw [sum, int64, if_pos hfits]
  rfl

theorem inside_eq (hstart : start ≤ pos) (hstop : pos + size ≤ stop) : inside start stop pos size = .ok () :=
  if_pos ⟨hstart, hstop⟩

theorem vintLen_le (first : UInt8) : vintLen first ≤ 8 := Nat.sub_le 8 _

theorem bigEndian_lt (bytes : Bytes) {v n : Nat} (hv : v < n) : bigEndian v bytes < n * 256 ^ bytes.length := by
  induction bytes generalizing v n with
  | nil => rwa [List.length_nil, Nat.pow_zero, Nat.mul_one]
  | cons b bytes ih =>
      have hb : b.toNat < 256 := b.toNat_lt
      rw [bigEndian, List.foldl_cons, List.length_cons, Nat.pow_succ', ← Nat.mul_assoc]
      exact ih (by omega)

-- Every size has at most 56 bits.
theorem size_lt {first : UInt8} {rest : Bytes} (hlen : ¬ (vintLen first < 1 ∨ 8 < vintLen first))
    (hrest : rest.length = vintLen first - 1) : bigEndian (vintStart first false) rest < 2 ^ 56 := by
  have hstart : vintStart first false < 2 ^ (8 - vintLen first) := Nat.mod_lt _ (Nat.two_pow_pos _)
  have hlt := bigEndian_lt rest hstart
  rw [hrest, show 256 = 2 ^ 8 from rfl, ← Nat.pow_mul, ← Nat.pow_add] at hlt
  exact hlt.trans_le (Nat.pow_le_pow_right (by decide) (by omega))

theorem readVint_returns (hfile : Addressable file) (pos : Nat) (keepMarker : Bool) :
    Returns (readVint file pos keepMarker) fun o => ∀ v ∈ o,
      v.next ≤ file.length ∧ (keepMarker = false → v.value < 2 ^ 56) := by
  unfold readVint
  by_cases hpos : file.length ≤ pos
  · rw [if_pos hpos]
    exact returns_ok nofun
  · rw [if_neg hpos]
    refine (index_returns (Nat.lt_of_not_le hpos)).bind fun first _ => ?_
    dsimp only
    split_ifs with hzero hlen hpast
    · exact returns_ok nofun
    · exact returns_ok nofun
    · have hle := vintLen_le first
      unfold Addressable at hfile
      rw [sum_eq (by omega)]
      exact returns_ok nofun
    · have hle := vintLen_le first
      unfold Addressable at hfile
      · rw [sum_eq (by omega)]
        refine (load_returns (by omega) (by omega) (by omega)).bind fun rest hrest => ?_
        refine returns_ok fun v hv => ?_
        obtain rfl := Option.mem_some_iff.mp hv
        refine ⟨Nat.le_of_not_lt hpast, fun hkeep => ?_⟩
        subst hkeep
        exact size_lt hlen (hrest.1.trans (Int.toNat_natCast _))

theorem readHeader_returns (hfile : Addressable file) (pos : Nat) :
    Returns (readHeader file pos) fun o => ∀ h ∈ o, h.content ≤ file.length ∧ h.size < 2 ^ 56 := by
  unfold readHeader
  refine (readVint_returns hfile pos true).bind fun rawId _ => ?_
  cases rawId with
  | none => exact returns_ok nofun
  | some rawId =>
      dsimp only
      split_ifs with hid
      · exact returns_ok nofun
      · refine (readVint_returns hfile rawId.next false).bind fun rawSize hsize => ?_
        cases rawSize with
        | none => exact returns_ok nofun
        | some rawSize =>
            refine returns_ok fun h hh => ?_
            obtain rfl := Option.mem_some_iff.mp hh
            exact (hsize rawSize rfl).imp_right fun hlt => hlt rfl

theorem child_returns (hfile : Addressable file) (hstart : start ≤ pos) (hpos : pos < stop) :
    Returns (child file start stop pos) fun _ => True := by
  unfold child
  rw [inside_eq hstart hpos]
  refine (readHeader_returns hfile pos).bind fun o ho => ?_
  cases o with
  | none => exact returns_ok trivial
  | some h =>
      obtain ⟨hcontent, hsize⟩ := ho h rfl
      dsimp only
      by_cases hunknown : h.unknownSize = true
      · rw [if_pos hunknown]
        exact returns_ok trivial
      · unfold Addressable at hfile
        rw [if_neg hunknown, sum_eq (by omega)]
        change Returns (dite (stop < h.content + h.size) _ _) _
        by_cases hin : stop < h.content + h.size
        · rw [dif_pos hin]
          exact returns_ok trivial
        · rw [dif_neg hin, inside_eq (hstart.trans h.lt_content.le) (Nat.le_of_not_lt hin)]
          exact returns_ok trivial

theorem readUInt_returns (hfile : Addressable file) (hpos : pos ≤ file.length) :
    Returns (readUInt file pos size) fun _ => True := by
  unfold readUInt
  split_ifs with hsize
  · exact returns_ok trivial
  · unfold Addressable at hfile
    rw [sum_eq (by omega)]
    change Returns (if file.length < pos + size then _ else _) _
    split_ifs with hpast
    · exact returns_ok trivial
    · exact (load_returns (by omega) (by omega) (by omega)).bind fun _ _ => returns_ok trivial

theorem readString_returns (repaired : Bytes → Text) (hfile : Addressable file) (hpos : pos ≤ file.length) :
    Returns (readString repaired file pos size) fun _ => True := by
  unfold readString MAX_NAME_LEN
  split_ifs with hsize
  · exact returns_ok trivial
  · unfold Addressable at hfile
    rw [sum_eq (by omega)]
    change Returns (if file.length < pos + size then _ else _) _
    split_ifs with hpast
    · exact returns_ok trivial
    · exact (load_returns (by omega) (by omega) (by omega)).bind fun _ _ => returns_ok trivial

end Reading

section Walk

variable (toLower : Text → Text) (repaired : Bytes → Text) {start stop : Nat}

theorem displayFrom_returns (hfile : Addressable file) (hstop : stop ≤ file.length) {dpos : Nat}
    (hstart : start ≤ dpos) (name : Text) :
    Returns (displayFrom repaired file start stop dpos name) fun _ => True := by
  induction hleft : stop - dpos using Nat.strong_induction_on generalizing dpos name with
  | _ left ih =>
  rw [displayFrom]
  by_cases hpos : dpos < stop ∧ dpos < file.length
  · rw [dif_pos hpos]
    refine (child_returns hfile hstart hpos.1).bind fun o _ => ?_
    cases o with
    | none => exact returns_ok trivial
    | some d =>
        have hlt := d.lt_content
        have hle := d.le_stop
        have hname : Returns (displayElement repaired file d.toHeader name) fun _ => True := by
          unfold displayElement
          split_ifs
          · exact readString_returns repaired hfile (by omega)
          · exact returns_ok trivial
        exact hname.bind fun name _ => ih (stop - (d.content + d.size)) (by omega) (by omega) name rfl
  · rw [dif_neg hpos]
    exact returns_ok trivial

theorem atomElement_returns (hfile : Addressable file) {pos : Nat} (h : Header pos)
    (hin : h.content + h.size ≤ file.length) (ch : MkvChapter) :
    Returns (atomElement repaired file h ch) fun _ => True := by
  have hcontent : h.content ≤ file.length := (Nat.le_add_right _ _).trans hin
  unfold atomElement
  split_ifs
  · refine (readUInt_returns hfile hcontent).bind fun o _ => ?_
    cases o <;> exact returns_ok trivial
  · refine (readUInt_returns hfile hcontent).bind fun o _ => ?_
    cases o <;> exact returns_ok trivial
  · exact (displayFrom_returns repaired hfile hin (Nat.le_refl _) ch.name).bind fun _ _ => returns_ok trivial
  · exact returns_ok trivial

theorem atomFrom_returns (hfile : Addressable file) (hstop : stop ≤ file.length) {pos : Nat} (hstart : start ≤ pos)
    (ch : MkvChapter) : Returns (atomFrom toLower repaired file start stop pos ch) fun _ => True := by
  induction hleft : stop - pos using Nat.strong_induction_on generalizing pos ch with
  | _ left ih =>
  rw [atomFrom]
  split_ifs with hpos
  · refine (child_returns hfile hstart hpos.1).bind fun o _ => ?_
    cases o with
    | none => exact returns_ok trivial
    | some h =>
        have hlt := h.lt_content
        have hle := h.le_stop
        refine (atomElement_returns repaired hfile h.toHeader (by omega) ch).bind fun ch _ => ?_
        exact ih _ (by omega) (by omega) ch rfl
  · exact returns_ok trivial

theorem parseChapterAtom_returns (hfile : Addressable file) (hstop : stop ≤ file.length) (ch : MkvChapter)
    (depth : Nat) : Returns (parseChapterAtom toLower repaired file start stop ch depth) fun _ => True := by
  unfold parseChapterAtom
  split_ifs
  · exact returns_ok trivial
  · exact atomFrom_returns toLower repaired hfile hstop (Nat.le_refl start) ch

-- A chapter is added only where there is room for one.
theorem chaptersFrom_returns (hfile : Addressable file) (hstop : stop ≤ file.length) {pos : Nat}
    (hstart : start ≤ pos) {out : List MkvChapter} (hout : out.length ≤ MAX_CHAPTERS) (depth : Nat) :
    Returns (chaptersFrom toLower repaired file start stop pos out depth) fun out => out.length ≤ MAX_CHAPTERS := by
  induction hleft : stop - pos using Nat.strong_induction_on generalizing start stop pos out depth with
  | _ left ih =>
  rw [chaptersFrom]
  by_cases hpos : pos < stop ∧ pos < file.length ∧ out.length < MAX_CHAPTERS
  · rw [dif_pos hpos]
    refine (child_returns hfile hstart hpos.1).bind fun o _ => ?_
    cases o with
    | none => exact returns_ok hout
    | some h =>
        have hlt := h.lt_content
        have hle := h.le_stop
        have hnext : ∀ {out : List MkvChapter}, out.length ≤ MAX_CHAPTERS →
            Returns (chaptersFrom toLower repaired file start stop (h.content + h.size) out depth)
              fun out => out.length ≤ MAX_CHAPTERS :=
          fun hout => ih (stop - (h.content + h.size)) (by omega) hstop (by omega) hout depth rfl
        refine Returns.bind ?_ fun out hout => hnext hout
        by_cases hedition : h.id = ID_EDITION
        · rw [if_pos hedition]
          by_cases hdepth : MAX_DEPTH < depth + 1
          · rw [if_pos hdepth]
            exact returns_ok hout
          · rw [if_neg hdepth]
            exact ih (h.content + h.size - h.content) (by omega) (by omega) (Nat.le_refl _) hout (depth + 1) rfl
        · rw [if_neg hedition]
          by_cases hatom : h.id = ID_CHAPTERATOM
          · rw [if_pos hatom]
            refine (parseChapterAtom_returns toLower repaired hfile (hle.trans hstop) .init (depth + 1)).map
              fun ch _ => ?_
            unfold addChapter
            split_ifs
            · rw [List.length_append]
              exact hpos.2.2
            · exact hout
          · rw [if_neg hatom]
            exact returns_ok hout
  · rw [dif_neg hpos]
    exact returns_ok hout

theorem segmentFrom_returns (hfile : Addressable file) (hstop : stop ≤ file.length) (guard : Nat) {pos : Nat}
    (hstart : start ≤ pos) :
    Returns (segmentFrom toLower repaired file start stop guard pos) fun out => out.length ≤ MAX_CHAPTERS := by
  induction guard generalizing pos with
  | zero => exact returns_ok (Nat.zero_le _)
  | succ guard ih =>
      rw [segmentFrom]
      split_ifs with hpos
      · refine (child_returns hfile hstart hpos).bind fun o _ => ?_
        cases o with
        | none => exact returns_ok (Nat.zero_le _)
        | some h =>
            have hlt := h.lt_content
            have hle := h.le_stop
            dsimp only
            split_ifs with hchapters hback
            · exact chaptersFrom_returns toLower repaired hfile (by omega) (Nat.le_refl _) (Nat.zero_le _) 0
            · exact returns_ok (Nat.zero_le _)
            · exact ih (by omega)
      · exact returns_ok (Nat.zero_le _)

theorem segmentEnd_returns (hfile : Addressable file) {pos : Nat} {segment : Header pos}
    (hcontent : segment.content ≤ file.length) (hsize : segment.size < 2 ^ 56) :
    Returns (segmentEnd file segment) (· ≤ file.length) := by
  unfold segmentEnd
  split_ifs
  · exact returns_ok (Nat.le_refl _)
  · unfold Addressable at hfile
    rw [sum_eq (by omega)]
    exact returns_ok (Nat.min_le_left _ _)

theorem readMkvChapters_returns (hfile : Addressable file) :
    Returns (readMkvChapters toLower repaired file) fun out => out.length ≤ MAX_CHAPTERS := by
  unfold readMkvChapters
  split_ifs
  · exact returns_ok (Nat.zero_le _)
  · refine (readHeader_returns hfile 0).bind fun o ho => ?_
    cases o with
    | none => exact returns_ok (Nat.zero_le _)
    | some ebml =>
        dsimp only
        split_ifs
        · exact returns_ok (Nat.zero_le _)
        · obtain ⟨hcontent, hsize⟩ := ho ebml rfl
          have hlong := hfile
          unfold Addressable at hlong
          rw [sum_eq (by omega)]
          change Returns (if _ then _ else _) _
          split_ifs
          · exact returns_ok (Nat.zero_le _)
          · refine (readHeader_returns hfile _).bind fun o ho => ?_
            cases o with
            | none => exact returns_ok (Nat.zero_le _)
            | some segment =>
                obtain ⟨hcontent, hsize⟩ := ho segment rfl
                dsimp only
                split_ifs
                · exact returns_ok (Nat.zero_le _)
                · exact (segmentEnd_returns hfile hcontent hsize).bind fun segEnd hend =>
                    segmentFrom_returns toLower repaired hfile hend _ (Nat.le_refl _)

end Walk

end BATorrent.MkvChapters
