import BATorrent.Services.MkvChapters.Encoded

namespace BATorrent.MkvChapters

open Lib Lib.Checked Lib.Utf8
open Lib.DataStream (Bytes putBE length_putBE)

section Tree

variable (toLower : Text → Text) (repaired : Bytes → Text)

def elements (es : List Elem) : Bytes := es.flatMap Elem.bytes

def displayTag : Tag := ⟨ID_DISPLAY, 1, by constructor <;> decide, by decide⟩

def atomTag : Tag := ⟨ID_CHAPTERATOM, 1, by constructor <;> decide, by decide⟩

def editionTag : Tag := ⟨ID_EDITION, 2, by constructor <;> decide, by decide⟩

def chaptersTag : Tag := ⟨ID_CHAPTERS, 4, by constructor <;> decide, by decide⟩

def ebmlTag : Tag := ⟨ID_EBML, 4, by constructor <;> decide, by decide⟩

def segmentTag : Tag := ⟨ID_SEGMENT, 4, by constructor <;> decide, by decide⟩

structure Display where
  children : List Elem
  sized : Sized (elements children).length

def Display.elem (d : Display) : Elem := ⟨displayTag, elements d.children, d.sized⟩

inductive AtomItem where
  | display (d : Display)
  | plain (e : Elem) (h : e.tag.id ≠ ID_DISPLAY)

def AtomItem.elem : AtomItem → Elem
  | display d => d.elem
  | plain e _ => e

structure Atom where
  items : List AtomItem
  sized : Sized (elements (items.map AtomItem.elem)).length

def Atom.elem (a : Atom) : Elem := ⟨atomTag, elements (a.items.map AtomItem.elem), a.sized⟩

inductive EditionItem where
  | atom (a : Atom)
  | plain (e : Elem) (h : e.tag.id ≠ ID_EDITION) (h' : e.tag.id ≠ ID_CHAPTERATOM)

def EditionItem.elem : EditionItem → Elem
  | atom a => a.elem
  | plain e _ _ => e

structure Edition where
  items : List EditionItem
  sized : Sized (elements (items.map EditionItem.elem)).length

def Edition.elem (e : Edition) : Elem := ⟨editionTag, elements (e.items.map EditionItem.elem), e.sized⟩

inductive ChaptersItem where
  | edition (e : Edition)
  | plain (e : Elem) (h : e.tag.id ≠ ID_EDITION) (h' : e.tag.id ≠ ID_CHAPTERATOM)

def ChaptersItem.elem : ChaptersItem → Elem
  | edition e => e.elem
  | plain e _ _ => e

structure Chapters where
  items : List ChaptersItem
  sized : Sized (elements (items.map ChaptersItem.elem)).length

def Chapters.elem (c : Chapters) : Elem := ⟨chaptersTag, elements (c.items.map ChaptersItem.elem), c.sized⟩

def stringOf (payload : Bytes) : Text :=
  if payload.length = 0 ∨ MAX_NAME_LEN < payload.length then []
  else Lib.Text.trimmed (decode repaired payload)

def numberOf (payload : Bytes) : Option Nat :=
  if payload.length = 0 ∨ 8 < payload.length then none else some (bigEndian 0 payload)

-- The first string that is not blank is kept.
def nameOf (name : Text) (e : Elem) : Text :=
  if e.tag.id = ID_CHAPSTRING ∧ name = [] then stringOf repaired e.payload else name

-- Of the times the last that reads is kept.
def AtomItem.note (ch : MkvChapter) : AtomItem → MkvChapter
  | display d => { ch with name := d.children.foldl (nameOf repaired) ch.name }
  | plain e _ =>
      if e.tag.id = ID_TIME_START then { ch with startMs := ((numberOf e.payload).map nsToMs).getD ch.startMs }
      else if e.tag.id = ID_TIME_END then { ch with endMs := ((numberOf e.payload).map nsToMs).getD ch.endMs }
      else ch

def Atom.chapter (a : Atom) : MkvChapter :=
  let ch := a.items.foldl (AtomItem.note repaired) .init
  { ch with kind := classifyChapter toLower ch.name }

def EditionItem.chapters : EditionItem → List MkvChapter
  | atom a => [a.chapter toLower repaired]
  | plain _ _ _ => []

def Edition.chapters (e : Edition) : List MkvChapter :=
  e.items.flatMap (EditionItem.chapters toLower repaired)

def ChaptersItem.chapters : ChaptersItem → List MkvChapter
  | edition e => e.chapters toLower repaired
  | plain _ _ _ => []

def Chapters.chapters (c : Chapters) : List MkvChapter :=
  c.items.flatMap (ChaptersItem.chapters toLower repaired)

end Tree

section Walk

variable {toLower : Text → Text} {repaired : Bytes → Text} {file : Bytes} {pos start stop : Nat}

theorem elements_cons (e : Elem) (es : List Elem) : elements (e :: es) = e.bytes ++ elements es := List.flatMap_cons

theorem readString_eq (hfile : Addressable file) {payload : Bytes} (h : HoldsAt file pos payload) :
    readString repaired file pos payload.length = .ok (stringOf repaired payload) := by
  have hin := h.length_le
  unfold readString stringOf
  by_cases hsize : payload.length = 0 ∨ MAX_NAME_LEN < payload.length
  · rw [if_pos hsize, if_pos hsize]
    rfl
  · unfold Addressable at hfile
    rw [if_neg hsize, if_neg hsize, sum_eq (by omega)]
    change (if file.length < pos + payload.length then _ else _) = _
    rw [if_neg (by omega), h.load]
    rfl

theorem readUInt_eq (hfile : Addressable file) {payload : Bytes} (h : HoldsAt file pos payload) :
    readUInt file pos payload.length = .ok (numberOf payload) := by
  have hin := h.length_le
  unfold readUInt numberOf
  by_cases hsize : payload.length = 0 ∨ 8 < payload.length
  · rw [if_pos hsize, if_pos hsize]
    rfl
  · unfold Addressable at hfile
    rw [if_neg hsize, if_neg hsize, sum_eq (by omega)]
    change (if file.length < pos + payload.length then _ else _) = _
    rw [if_neg (by omega), h.load]
    rfl

theorem displayElement_eq (hfile : Addressable file) {e : Elem} {d : Header pos} (hid : d.id = e.tag.id)
    (hsize : d.size = e.payload.length) (h : HoldsAt file d.content e.payload) (name : Text) :
    displayElement repaired file d name = .ok (nameOf repaired name e) := by
  unfold displayElement nameOf
  rw [hid, hsize]
  by_cases hstring : e.tag.id = ID_CHAPSTRING ∧ name = []
  · rw [if_pos hstring, if_pos hstring]
    exact readString_eq hfile h
  · rw [if_neg hstring, if_neg hstring]
    rfl

theorem displayFrom_eq (hfile : Addressable file) {es : List Elem} (h : HoldsAt file pos (elements es))
    (hstart : start ≤ pos) (hstop : stop = pos + (elements es).length) (name : Text) :
    displayFrom repaired file start stop pos name = .ok (es.foldl (nameOf repaired) name) := by
  induction es generalizing pos name with
  | nil =>
      rw [displayFrom, dif_neg (by rw [hstop]; exact fun hpos => absurd hpos.1 (Nat.lt_irrefl _))]
      rfl
  | cons e rest ih =>
      rw [elements_cons] at h hstop
      rw [List.length_append] at hstop
      have hpos := e.bytes_pos
      have hin := h.left.length_le
      obtain ⟨d, hchild, hid, hsize, hnext, hpayload⟩ := e.child_eq hfile stop h.left hstart (by omega)
      rw [displayFrom, dif_pos ⟨by omega, by omega⟩]
      change (child file start stop pos >>= _) = _
      rw [hchild]
      change (displayElement repaired file d.toHeader name >>= _) = _
      rw [displayElement_eq hfile hid hsize hpayload]
      change displayFrom repaired file start stop (d.content + d.size) _ = _
      rw [hnext]
      exact ih h.right (by omega) (by omega) _

theorem atomElement_eq (hfile : Addressable file) {item : AtomItem} {hd : Header pos}
    (hid : hd.id = item.elem.tag.id) (hsize : hd.size = item.elem.payload.length)
    (h : HoldsAt file hd.content item.elem.payload) (ch : MkvChapter) :
    atomElement repaired file hd ch = .ok (item.note repaired ch) := by
  unfold atomElement
  cases item with
  | display d =>
      have hdisplay : hd.id = ID_DISPLAY := hid
      have hstop : hd.content + hd.size = hd.content + (elements d.children).length := by rw [hsize]; rfl
      rw [hdisplay, if_neg (by decide), if_neg (by decide), if_pos rfl,
        displayFrom_eq hfile h (Nat.le_refl _) hstop]
      rfl
  | plain e hne =>
      have hread : readUInt file hd.content e.payload.length = .ok (numberOf e.payload) := readUInt_eq hfile h
      have hsize' : hd.size = e.payload.length := hsize
      have hid' : hd.id = e.tag.id := hid
      rw [hid', hsize', hread, AtomItem.note]
      by_cases hbegin : e.tag.id = ID_TIME_START
      · rw [if_pos hbegin, if_pos hbegin]
        cases numberOf e.payload <;> rfl
      · rw [if_neg hbegin, if_neg hbegin]
        by_cases hend : e.tag.id = ID_TIME_END
        · rw [if_pos hend, if_pos hend]
          cases numberOf e.payload <;> rfl
        · rw [if_neg hend, if_neg hend, if_neg hne]
          rfl

theorem atomFrom_eq (hfile : Addressable file) {items : List AtomItem}
    (h : HoldsAt file pos (elements (items.map AtomItem.elem))) (hstart : start ≤ pos)
    (hstop : stop = pos + (elements (items.map AtomItem.elem)).length) (ch : MkvChapter) :
    atomFrom toLower repaired file start stop pos ch =
      .ok { items.foldl (AtomItem.note repaired) ch with
        kind := classifyChapter toLower (items.foldl (AtomItem.note repaired) ch).name } := by
  induction items generalizing pos ch with
  | nil =>
      rw [atomFrom, dif_neg (by rw [hstop]; exact fun hpos => absurd hpos.1 (Nat.lt_irrefl _))]
      rfl
  | cons item rest ih =>
      rw [List.map_cons, elements_cons] at h hstop
      rw [List.length_append] at hstop
      have hpos := item.elem.bytes_pos
      have hin := h.left.length_le
      obtain ⟨c, hchild, hid, hsize, hnext, hpayload⟩ :=
        item.elem.child_eq hfile stop h.left hstart (by omega)
      rw [atomFrom, dif_pos ⟨by omega, by omega⟩]
      change (child file start stop pos >>= _) = _
      rw [hchild]
      change (atomElement repaired file c.toHeader ch >>= _) = _
      rw [atomElement_eq hfile hid hsize hpayload]
      change atomFrom toLower repaired file start stop (c.content + c.size) _ = _
      rw [hnext]
      exact ih h.right (by omega) (by omega) _

theorem nsToMs_nonneg (ns : Nat) : 0 ≤ nsToMs ns := Int.natCast_nonneg _

theorem AtomItem.note_startMs {ch : MkvChapter} (h : 0 ≤ ch.startMs) (item : AtomItem) :
    0 ≤ (item.note repaired ch).startMs := by
  cases item with
  | display d => exact h
  | plain e hne =>
      rw [AtomItem.note]
      split_ifs
      · cases numberOf e.payload with
        | none => exact h
        | some ns => exact nsToMs_nonneg ns
      · exact h
      · exact h

-- A start time is never below zero, so no chapter is left out for it.
theorem Atom.chapter_startMs (a : Atom) : 0 ≤ (a.chapter toLower repaired).startMs := by
  have hall : ∀ (items : List AtomItem) (ch : MkvChapter), 0 ≤ ch.startMs →
      0 ≤ (items.foldl (AtomItem.note repaired) ch).startMs := by
    intro items
    induction items with
    | nil => exact fun ch h => h
    | cons item rest ih => exact fun ch h => ih _ (item.note_startMs h)
  exact hall a.items .init (Int.le_refl 0)

theorem take_take_append {α : Type*} (n : Nat) (xs ys : List α) : (xs.take n ++ ys).take n = (xs ++ ys).take n := by
  rw [List.take_append, List.take_append, List.take_take, Nat.min_self, List.length_take]
  by_cases h : n ≤ xs.length
  · rw [Nat.min_eq_left h, Nat.sub_self, Nat.sub_eq_zero_of_le h]
  · rw [Nat.min_eq_right (Nat.le_of_not_le h)]

section Listing

variable {out : List MkvChapter} {depth : Nat}

-- What the walk over a list of chapters does with its next element.
def listElement (toLower : Text → Text) (repaired : Bytes → Text) (file : Bytes) {pos : Nat} (h : Header pos)
    (out : List MkvChapter) (depth : Nat) : Checked (List MkvChapter) :=
  if h.id = ID_EDITION then
    if MAX_DEPTH < depth + 1 then pure out
    else chaptersFrom toLower repaired file h.content (h.content + h.size) h.content out (depth + 1)
  else if h.id = ID_CHAPTERATOM then
    addChapter out <$> parseChapterAtom toLower repaired file h.content (h.content + h.size) .init (depth + 1)
  else pure out

theorem chaptersFrom_full (h : out.length = MAX_CHAPTERS) :
    chaptersFrom toLower repaired file start stop pos out depth = .ok out := by
  rw [chaptersFrom, dif_neg (by rw [h]; exact fun hpos => absurd hpos.2.2 (Nat.lt_irrefl _))]
  rfl

variable (toLower repaired stop depth) in
theorem chaptersFrom_cons (hfile : Addressable file) {e : Elem} (h : HoldsAt file pos e.bytes)
    (hstart : start ≤ pos) (hstop : pos + e.bytes.length ≤ stop) (hroom : out.length < MAX_CHAPTERS) :
    ∃ hd : Header pos, hd.id = e.tag.id ∧ hd.size = e.payload.length ∧ HoldsAt file hd.content e.payload ∧
      chaptersFrom toLower repaired file start stop pos out depth =
        (listElement toLower repaired file hd out depth >>= fun out =>
          chaptersFrom toLower repaired file start stop (pos + e.bytes.length) out depth) := by
  have hpos := e.bytes_pos
  have hin := h.length_le
  obtain ⟨c, hchild, hid, hsize, hnext, hpayload⟩ := e.child_eq hfile stop h hstart hstop
  refine ⟨c.toHeader, hid, hsize, hpayload, ?_⟩
  rw [chaptersFrom, dif_pos ⟨by omega, by omega, hroom⟩]
  rw [hchild]
  change (listElement toLower repaired file c.toHeader out depth >>= fun out =>
    chaptersFrom toLower repaired file start stop (c.content + c.size) out depth) = _
  rw [hnext]

theorem take_of_room {chs : List MkvChapter} (h : out.length + chs.length ≤ MAX_CHAPTERS) :
    (out ++ chs).take MAX_CHAPTERS = out ++ chs :=
  List.take_of_length_le (by rwa [List.length_append])

-- Where each item of a list gives its chapters, the walk over the list gives them all, as far as there is room.
theorem chaptersFrom_eq {ι : Type} {elem : ι → Elem} {chapters : ι → List MkvChapter} {items : List ι}
    (hfile : Addressable file)
    (hitem : ∀ item, ∀ {pos : Nat} {hd : Header pos} {out : List MkvChapter}, hd.id = (elem item).tag.id →
      hd.size = (elem item).payload.length → HoldsAt file hd.content (elem item).payload →
      out.length < MAX_CHAPTERS →
      listElement toLower repaired file hd out depth = .ok ((out ++ chapters item).take MAX_CHAPTERS))
    (h : HoldsAt file pos (elements (items.map elem))) (hstart : start ≤ pos)
    (hstop : stop = pos + (elements (items.map elem)).length) (hout : out.length ≤ MAX_CHAPTERS) :
    chaptersFrom toLower repaired file start stop pos out depth =
      .ok ((out ++ items.flatMap chapters).take MAX_CHAPTERS) := by
  induction items generalizing pos out with
  | nil =>
      rw [chaptersFrom, dif_neg (by rw [hstop]; exact fun hpos => absurd hpos.1 (Nat.lt_irrefl _)),
        List.flatMap_nil, take_of_room (by simpa using hout), List.append_nil]
      rfl
  | cons item rest ih =>
      rw [List.map_cons, elements_cons] at h hstop
      rw [List.length_append] at hstop
      by_cases hroom : out.length < MAX_CHAPTERS
      · obtain ⟨hd, hid, hsize, hpayload, hwalk⟩ :=
          chaptersFrom_cons toLower repaired stop depth hfile h.left hstart (by omega) hroom
        rw [hwalk, hitem item hid hsize hpayload hroom]
        change chaptersFrom toLower repaired file start stop _ _ depth = _
        rw [ih h.right (by omega) (by omega) (List.length_take_le _ _), List.flatMap_cons, take_take_append,
          List.append_assoc]
      · have hfull : out.length = MAX_CHAPTERS := by omega
        rw [chaptersFrom_full hfull, ← hfull, List.take_left]

theorem listElement_plain {hd : Header pos} (h : hd.id ≠ ID_EDITION) (h' : hd.id ≠ ID_CHAPTERATOM)
    (hroom : out.length < MAX_CHAPTERS) :
    listElement toLower repaired file hd out depth = .ok ((out ++ []).take MAX_CHAPTERS) := by
  rw [listElement, if_neg h, if_neg h', take_of_room (by simpa using hroom.le), List.append_nil]
  rfl

theorem listElement_editionItem (hfile : Addressable file) (hdepth : depth + 1 ≤ MAX_DEPTH) (item : EditionItem)
    {hd : Header pos} (hid : hd.id = item.elem.tag.id) (hsize : hd.size = item.elem.payload.length)
    (h : HoldsAt file hd.content item.elem.payload) (hroom : out.length < MAX_CHAPTERS) :
    listElement toLower repaired file hd out depth =
      .ok ((out ++ item.chapters toLower repaired).take MAX_CHAPTERS) := by
  cases item with
  | plain e hne hne' =>
      have hid' : hd.id = e.tag.id := hid
      exact listElement_plain (by rwa [hid']) (by rwa [hid']) hroom
  | atom a =>
      have hatom : hd.id = ID_CHAPTERATOM := hid
      have hstop : hd.content + hd.size = hd.content + (elements (a.items.map AtomItem.elem)).length := by
        rw [hsize]
        rfl
      have hparse : parseChapterAtom toLower repaired file hd.content (hd.content + hd.size) .init (depth + 1) =
          .ok (a.chapter toLower repaired) := by
        rw [parseChapterAtom, if_neg (by omega)]
        exact atomFrom_eq hfile h (Nat.le_refl _) hstop .init
      have hne : ID_CHAPTERATOM ≠ ID_EDITION := by decide
      rw [listElement, hatom, if_neg hne, if_pos rfl, hparse, EditionItem.chapters,
        take_of_room (by rwa [List.length_singleton])]
      change Except.ok (addChapter out (a.chapter toLower repaired)) = _
      rw [addChapter, if_pos a.chapter_startMs]

theorem listElement_chaptersItem (hfile : Addressable file) (hdepth : depth + 2 ≤ MAX_DEPTH) (item : ChaptersItem)
    {hd : Header pos} (hid : hd.id = item.elem.tag.id) (hsize : hd.size = item.elem.payload.length)
    (h : HoldsAt file hd.content item.elem.payload) (hroom : out.length < MAX_CHAPTERS) :
    listElement toLower repaired file hd out depth =
      .ok ((out ++ item.chapters toLower repaired).take MAX_CHAPTERS) := by
  cases item with
  | plain e hne hne' =>
      have hid' : hd.id = e.tag.id := hid
      exact listElement_plain (by rwa [hid']) (by rwa [hid']) hroom
  | edition e =>
      have hedition : hd.id = ID_EDITION := hid
      have hstop : hd.content + hd.size = hd.content + (elements (e.items.map EditionItem.elem)).length := by
        rw [hsize]
        rfl
      rw [listElement, if_pos hedition, if_neg (by omega)]
      exact chaptersFrom_eq hfile (fun item => listElement_editionItem hfile (by omega) item) h (Nat.le_refl _)
        hstop hroom.le

theorem parseChapters_eq (hfile : Addressable file) {c : Chapters}
    (h : HoldsAt file start (elements (c.items.map ChaptersItem.elem)))
    (hstop : stop = start + (elements (c.items.map ChaptersItem.elem)).length) :
    parseChapters toLower repaired file start stop [] 0 =
      .ok ((c.chapters toLower repaired).take MAX_CHAPTERS) := by
  rw [parseChapters, if_neg (by decide)]
  exact chaptersFrom_eq hfile (fun item => listElement_chaptersItem hfile (by decide) item) h (Nat.le_refl _) hstop
    (by decide)

end Listing

-- The children of the segment before its chapters are passed over.
theorem segmentFrom_eq (hfile : Addressable file) {before : List Elem} {c : Chapters} {guard : Nat}
    (hother : ∀ e ∈ before, e.tag.id ≠ ID_CHAPTERS) (hguard : before.length < guard)
    (h : HoldsAt file pos (elements before ++ c.elem.bytes)) (hstart : start ≤ pos)
    (hstop : pos + (elements before ++ c.elem.bytes).length ≤ stop) :
    segmentFrom toLower repaired file start stop guard pos =
      .ok ((c.chapters toLower repaired).take MAX_CHAPTERS) := by
  induction before generalizing pos guard with
  | nil =>
      obtain ⟨guard, rfl⟩ : ∃ g, guard = g + 1 := ⟨guard - 1, by simp at hguard; omega⟩
      have hpos := c.elem.bytes_pos
      obtain ⟨hd, hchild, hid, hsize, -, hpayload⟩ := c.elem.child_eq hfile stop h hstart hstop
      have hchapters : hd.id = ID_CHAPTERS := hid
      rw [elements, List.flatMap_nil, List.nil_append] at hstop
      rw [segmentFrom, if_pos (by omega), hchild]
      change (if hd.id = ID_CHAPTERS then _ else _) = _
      rw [if_pos hchapters]
      exact parseChapters_eq hfile hpayload (congrArg (hd.content + ·) hsize)
  | cons e rest ih =>
      obtain ⟨guard, rfl⟩ : ∃ g, guard = g + 1 := ⟨guard - 1, by simp at hguard; omega⟩
      rw [elements_cons, List.append_assoc] at h hstop
      rw [List.length_append] at hstop
      have hpos := e.bytes_pos
      obtain ⟨hne, hrest⟩ := List.forall_mem_cons.mp hother
      obtain ⟨hd, hchild, hid, -, hnext, -⟩ := e.child_eq hfile stop h.left hstart (by omega)
      rw [segmentFrom, if_pos (by omega), hchild]
      change (if hd.id = ID_CHAPTERS then _ else if hd.content + hd.size ≤ pos then _ else
        segmentFrom toLower repaired file start stop guard (hd.content + hd.size)) = _
      rw [if_neg (hid ▸ hne), if_neg (by omega), hnext]
      exact ih hrest (by simpa using hguard) h.right (by omega) (by omega)

end Walk

-- The size of the segment may be left unknown.
inductive SegmentSize (size : Nat) where
  | unknown (w : Nat) (pos : 1 ≤ w) (le : w ≤ 8)
  | known (s : Sized size)

-- A Matroska file with chapters.
structure Document where
  ebmlBody : Bytes
  ebmlSized : Sized ebmlBody.length
  before : List Elem
  chapters : Chapters
  rest : Bytes
  segmentSize : SegmentSize (elements before ++ chapters.elem.bytes ++ rest).length
  after : Bytes
  other : ∀ e ∈ before, e.tag.id ≠ ID_CHAPTERS
  few : before.length < maxChildren

def SegmentSize.width {size : Nat} : SegmentSize size → Nat
  | unknown w _ _ => w
  | known s => s.width

def SegmentSize.number {size : Nat} : SegmentSize size → Nat
  | unknown w _ _ => 2 ^ (7 * w + 1) - 1
  | known s => 2 ^ (7 * s.width) + size

namespace Document

def ebml (d : Document) : Elem := ⟨ebmlTag, d.ebmlBody, d.ebmlSized⟩

def segmentHeader (d : Document) : Bytes := segmentTag.bytes ++ putBE d.segmentSize.width d.segmentSize.number

def bytes (d : Document) : Bytes :=
  d.ebml.bytes ++ (d.segmentHeader ++ ((elements d.before ++ d.chapters.elem.bytes ++ d.rest) ++ d.after))

end Document

section Read

variable {toLower : Text → Text} {repaired : Bytes → Text} {pos : Nat}

theorem SegmentSize.marked {size : Nat} (s : SegmentSize size) : Marked s.width s.number := by
  cases s with
  | unknown w hpos hle =>
      have hone := Nat.two_pow_pos (7 * w)
      have hdouble : 2 ^ (7 * w + 1) = 2 * 2 ^ (7 * w) := Nat.pow_succ'
      refine ⟨hpos, hle, ?_, ?_⟩
      · change 2 ^ (7 * w) ≤ 2 ^ (7 * w + 1) - 1
        omega
      · change 2 ^ (7 * w + 1) - 1 < 2 ^ (7 * w + 1)
        omega
  | known s => exact s.marked

-- Where the reader takes a segment to end, the chapters are before it.
theorem SegmentSize.fits {size : Nat} (s : SegmentSize size) {hd : Header pos}
    (hsize : hd.size = s.number - 2 ^ (7 * s.width))
    (hunknown : hd.unknownSize = true ↔ s.number + 1 = 2 ^ (7 * s.width + 1)) :
    hd.unknownSize = true ∨ hd.unknownSize = false ∧ hd.size = size := by
  cases s with
  | unknown w hpos hle =>
      have hone := Nat.two_pow_pos (7 * w + 1)
      exact .inl (hunknown.mpr (Nat.sub_add_cancel hone))
  | known s =>
      have hfits := s.fits
      have hdouble : 2 ^ (7 * s.width + 1) = 2 * 2 ^ (7 * s.width) := Nat.pow_succ'
      refine .inr ⟨?_, ?_⟩
      · rw [← Bool.not_eq_true, hunknown]
        change ¬ 2 ^ (7 * s.width) + size + 1 = 2 ^ (7 * s.width + 1)
        omega
      · rw [hsize]
        exact Nat.add_sub_cancel_left _ _

theorem read_document {d : Document} (hfile : Addressable d.bytes) (hlong : 64 ≤ d.bytes.length) :
    readMkvChapters toLower repaired d.bytes =
      .ok ((d.chapters.chapters toLower repaired).take MAX_CHAPTERS) := by
  have hall : HoldsAt d.bytes 0 (d.ebml.bytes ++ (d.segmentHeader ++
      ((elements d.before ++ d.chapters.elem.bytes ++ d.rest) ++ d.after))) :=
    ⟨[], [], (List.append_nil _).symm, rfl⟩
  obtain ⟨ebml, hebml, hid, hcontent, hsize, hknown⟩ := d.ebml.readHeader_eq hfile hall.left
  have hend : ebml.content + ebml.size = 0 + d.ebml.bytes.length := by
    rw [hcontent, hsize, Elem.bytes, List.length_append, Nat.add_assoc]
  have hbody := hall.right.right.left
  have hbodyEnd := hbody.length_le
  have hheader : d.segmentHeader.length = 4 + d.segmentSize.width := by
    rw [Document.segmentHeader, List.length_append, Tag.bytes, length_putBE, length_putBE]
    rfl
  obtain ⟨segment, hsegment, hsegmentId, hstart, hsegmentSize, hunknown⟩ :=
    readHeader_tag hfile d.segmentSize.marked hall.right.left rfl
  have hstart' : segment.content = 0 + d.ebml.bytes.length + d.segmentHeader.length := by
    rw [hstart, hheader, ← Nat.add_assoc]
    rfl
  rw [← hstart'] at hbody hbodyEnd
  have hlength : (elements d.before ++ d.chapters.elem.bytes ++ d.rest).length =
      (elements d.before ++ d.chapters.elem.bytes).length + d.rest.length := List.length_append
  have hebmlOk : ¬ (ebml.id ≠ ID_EBML ∨ ebml.unknownSize = true) := by
    rw [hknown]
    rintro (hne | hne)
    · exact hne hid
    · cases hne
  have hsegmentOk : ¬ segment.id ≠ ID_SEGMENT := not_not_intro hsegmentId
  have hgap := segment.lt_content
  unfold Addressable at hfile
  unfold readMkvChapters
  rw [if_neg (by omega), hebml]
  change (if ebml.id ≠ ID_EBML ∨ ebml.unknownSize = true then _ else _) = _
  rw [if_neg hebmlOk, sum_eq (by omega), hend]
  change (if d.bytes.length < 0 + d.ebml.bytes.length then _ else _) = _
  rw [if_neg (by omega), hsegment]
  change (if segment.id ≠ ID_SEGMENT then _ else _) = _
  rw [if_neg hsegmentOk]
  obtain ⟨segEnd, hsegEnd, hle⟩ : ∃ segEnd, segmentEnd d.bytes segment = .ok segEnd ∧
      segment.content + (elements d.before ++ d.chapters.elem.bytes).length ≤ segEnd := by
    unfold segmentEnd
    rcases d.segmentSize.fits hsegmentSize hunknown with hopen | ⟨hclosed, hexact⟩
    · rw [hopen]
      exact ⟨d.bytes.length, rfl, by omega⟩
    · rw [hclosed, sum_eq (by omega)]
      exact ⟨min d.bytes.length (segment.content + segment.size), rfl, by omega⟩
  rw [hsegEnd]
  exact segmentFrom_eq hfile d.other d.few hbody.left (Nat.le_refl _) hle

end Read

-- Each read of the walk is inside the file, each element it takes inside the one it is looked for in, and a
-- well-formed file gives the chapters of its editions in order, whether they are enabled or not.
theorem chapters_read (toLower : Text → Text) (repaired : Bytes → Text) :
    (∀ file, Addressable file →
      Returns (readMkvChapters toLower repaired file) fun out => out.length ≤ MAX_CHAPTERS) ∧
    ∀ d : Document, Addressable d.bytes → 64 ≤ d.bytes.length →
      readMkvChapters toLower repaired d.bytes = .ok ((d.chapters.chapters toLower repaired).take MAX_CHAPTERS) :=
  ⟨fun _ hfile => readMkvChapters_returns toLower repaired hfile, fun _ hfile hlong => read_document hfile hlong⟩

section Enabled

def ID_FLAG_ENABLED : Nat := 0x4598

def AtomItem.enabledFlag : AtomItem → Option Nat
  | display _ => none
  | plain e _ => if e.tag.id = ID_FLAG_ENABLED then numberOf e.payload else none

-- A chapter is enabled unless it says otherwise.
def Atom.enabled (a : Atom) : Bool := (a.items.filterMap AtomItem.enabledFlag).all (· ≠ 0)

variable (toLower : Text → Text) (repaired : Bytes → Text)

def EditionItem.enabledChapters : EditionItem → List MkvChapter
  | atom a => if a.enabled then [a.chapter toLower repaired] else []
  | plain _ _ _ => []

def ChaptersItem.enabledChapters : ChaptersItem → List MkvChapter
  | edition e => e.items.flatMap (EditionItem.enabledChapters toLower repaired)
  | plain _ _ _ => []

def Chapters.enabledChapters (c : Chapters) : List MkvChapter :=
  c.items.flatMap (ChaptersItem.enabledChapters toLower repaired)

def timeStartTag : Tag := ⟨ID_TIME_START, 1, by constructor <;> decide, by decide⟩

def flagEnabledTag : Tag := ⟨ID_FLAG_ENABLED, 2, by constructor <;> decide, by decide⟩

-- A size of one byte.
def Sized.short {size : Nat} (h : size + 1 < 2 ^ (7 * 1)) : Sized size := ⟨1, by decide, by decide, h⟩

-- Five seconds in, and switched off.
def disabledAtom : Atom where
  items :=
    [.plain ⟨timeStartTag, [0x01, 0x2A, 0x05, 0xF2, 0x00], .short (by decide)⟩ (by decide),
      .plain ⟨flagEnabledTag, [0], .short (by decide)⟩ (by decide)]
  sized := .short (by decide)

def disabledEdition : Edition where
  items := [.atom disabledAtom]
  sized := .short (by decide)

def disabledDocument : Document where
  ebmlBody := List.replicate 64 0
  ebmlSized := .short (by decide)
  before := []
  chapters := { items := [.edition disabledEdition], sized := .short (by decide) }
  rest := []
  segmentSize := .unknown 1 (by decide) (by decide)
  after := []
  other := nofun
  few := by decide

theorem disabled_read :
    readMkvChapters (fun t => t) (fun _ => []) disabledDocument.bytes = .ok [⟨5000, -1, [], []⟩] :=
  (chapters_read _ _).2 disabledDocument (by decide) (by decide)

def emptyEdition : Elem := ⟨editionTag, [], .short (by decide)⟩

-- The flag is not looked at, and the header of an element that starts on the last byte of its parent is read
-- on past it.
theorem lists_disabled_reads_past :
    (¬ ∀ d : Document, Addressable d.bytes → 64 ≤ d.bytes.length →
      readMkvChapters (fun t => t) (fun _ => []) d.bytes =
        .ok ((d.chapters.enabledChapters (fun t => t) fun _ => []).take MAX_CHAPTERS)) ∧
    ∃ file stop, Addressable file ∧ 0 < stop ∧ ∃ h : Header 0, readHeader file 0 = .ok (some h) ∧ stop < h.content := by
  constructor
  · intro h
    have hread := h disabledDocument (by decide) (by decide)
    rw [read_document (by decide) (by decide)] at hread
    exact absurd hread (by decide)
  · obtain ⟨h, hread, -, hcontent, -⟩ :=
      emptyEdition.readHeader_eq (by decide) ⟨[], [], (List.append_nil _).symm, rfl⟩
    exact ⟨emptyEdition.bytes, 1, by decide, by decide, h, hread, by rw [hcontent]; decide⟩

end Enabled

end BATorrent.MkvChapters
