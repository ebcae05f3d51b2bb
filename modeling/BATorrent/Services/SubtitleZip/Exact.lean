import BATorrent.Services.SubtitleZip.Inflated
import BATorrent.Lib.Slice

namespace BATorrent.SubtitleZip

open Lib
open Lib.DataStream (Bytes)
open Checked (Returns)

section Ints

theorem toInt32_le {k : Nat} (h : 0 ≤ toInt32 k) : toInt32 k ≤ k := by
  unfold toInt32 at h ⊢
  rw [Int.bmod_def] at h ⊢
  split_ifs at h ⊢ with hlow <;> omega

theorem toInt32_of_lt {k : Nat} (h : k < 2 ^ 31) : toInt32 k = k := by
  unfold toInt32
  rw [Int.bmod_def, if_pos (by omega)]
  omega

theorem toInt32_lt (n : Int) : toInt32 n < 2 ^ 31 := by
  unfold toInt32
  rw [Int.bmod_def]
  split_ifs with hlow <;> omega

end Ints

section Inside

variable {repaired : Bytes → Text} {zip : Bytes} {n : Int}

theorem number_returns {k : Nat} {pos : Int} (hpos : 0 ≤ pos) (hend : pos + k ≤ zip.length) :
    Returns (number zip k pos) fun v => v < 256 ^ k := by
  apply (Checked.load_returns hpos (by omega) hend).bind
  intro bs hbs
  apply Checked.returns_ok
  have hlt := LittleEndian.value_lt bs
  rw [hbs.1, Int.toNat_natCast] at hlt
  exact hlt

theorem findEnd_returns {turns : Nat} {i : Int} (h : i + 22 ≤ zip.length) :
    Returns (findEnd zip turns i) fun found => ∀ at_, found = some at_ → 0 ≤ at_ ∧ at_ + 22 ≤ zip.length := by
  induction turns generalizing i with
  | zero => exact Checked.returns_ok fun _ hfound => by cases hfound
  | succ turns ih =>
      rw [findEnd]
      by_cases hneg : i < 0
      · rw [if_pos hneg]
        exact Checked.returns_ok fun _ hfound => by cases hfound
      · rw [if_neg hneg]
        apply (number_returns (by omega : 0 ≤ i) (by omega : i + (4 : Nat) ≤ zip.length)).bind
        intro sig _
        by_cases hsig : sig = endSignature
        · rw [if_pos hsig]
          apply Checked.returns_ok
          intro place hplace
          cases hplace
          omega
        · rw [if_neg hsig]
          exact ih (by omega)

theorem entryData_returns (hn : n ≤ zip.length) (hint : n < 2 ^ 31) (method compSize uncompSize : Nat)
    (lho : Int) : Returns (entryData zip n method compSize uncompSize lho) fun _ => True := by
  rw [entryData]
  by_cases hheader : lho < 0 ∨ lho + 30 > n
  · rw [if_pos hheader]
    exact Checked.returns_ok trivial
  rw [if_neg hheader]
  apply (number_returns (by omega) (by omega : lho + 26 + (2 : Nat) ≤ zip.length)).bind
  intro nameLen _
  apply (number_returns (by omega) (by omega : lho + 28 + (2 : Nat) ≤ zip.length)).bind
  intro extraLen _
  dsimp only
  by_cases hdata : lho + 30 + nameLen + extraLen < 0 ∨ lho + 30 + nameLen + extraLen + compSize > n
  · rw [if_pos hdata]
    exact Checked.returns_ok trivial
  rw [if_neg hdata]
  have hcomp : toInt32 compSize = compSize := toInt32_of_lt (by omega)
  have hload : Returns (Checked.load zip (lho + 30 + nameLen + extraLen) (toInt32 compSize)) fun _ => True := by
    rw [hcomp]
    exact (Checked.load_returns (by omega) (by omega) (by omega)).mono fun _ _ => trivial
  by_cases hstored : method = 0
  · rw [if_pos hstored]
    exact hload.bind fun _ _ => Checked.returns_ok trivial
  rw [if_neg hstored]
  by_cases hdeflated : method = 8
  · rw [if_pos hdeflated]
    exact hload.bind fun _ _ => Checked.returns_ok trivial
  · rw [if_neg hdeflated]
    exact Checked.returns_ok trivial

theorem entries_returns (hn : n ≤ zip.length) (hint : n < 2 ^ 31) (count : Nat) (p : Int) :
    Returns (entries repaired zip n count p) fun _ => True := by
  induction count generalizing p with
  | zero => exact Checked.returns_ok trivial
  | succ count ih =>
      rw [entries]
      by_cases hin : p < 0 ∨ p + 46 > n
      · rw [if_pos hin]
        exact Checked.returns_ok trivial
      rw [if_neg hin]
      have hfield : ∀ k : Nat, ∀ off : Int, 0 ≤ off → off + k ≤ 46 →
          Returns (number zip k (p + off)) fun _ => True := by
        intro k off hoff hend
        exact (number_returns (by omega) (by omega)).mono fun _ _ => trivial
      have hsig := hfield 4 0 (by omega) (by omega)
      rw [Int.add_zero] at hsig
      apply hsig.bind
      intro sig _
      by_cases hentry : sig ≠ entrySignature
      · rw [if_pos hentry]
        exact Checked.returns_ok trivial
      rw [if_neg hentry]
      apply (hfield 2 10 (by omega) (by omega)).bind
      intro method _
      apply (hfield 4 20 (by omega) (by omega)).bind
      intro compSize _
      apply (hfield 4 24 (by omega) (by omega)).bind
      intro uncompSize _
      apply (hfield 2 28 (by omega) (by omega)).bind
      intro fnLen _
      apply (hfield 2 30 (by omega) (by omega)).bind
      intro efLen _
      apply (hfield 2 32 (by omega) (by omega)).bind
      intro cmLen _
      apply (hfield 4 42 (by omega) (by omega)).bind
      intro lho _
      by_cases hname : p + 46 + fnLen > n
      · rw [if_pos hname]
        exact Checked.returns_ok trivial
      rw [if_neg hname]
      apply (Checked.load_returns (by omega) (by omega) (by omega)).bind
      intro name _
      by_cases hsrt : isSrt repaired name = true
      · rw [if_pos hsrt]
        exact entryData_returns hn hint method compSize uncompSize lho
      · rw [if_neg hsrt]
        exact ih _

-- The directory of any bytes is read inside them.
theorem firstSrt_returns (repaired : Bytes → Text) (zip : Bytes) :
    Returns (firstSrt repaired zip) fun _ => True := by
  rw [firstSrt]
  by_cases hshort : toInt32 zip.length < 22
  · rw [if_pos hshort]
    exact Checked.returns_ok trivial
  rw [if_neg hshort]
  have hn : toInt32 zip.length ≤ zip.length := toInt32_le (by omega)
  apply (findEnd_returns (by omega : toInt32 zip.length - 22 + 22 ≤ zip.length)).bind
  intro found hfound
  cases found with
  | none => exact Checked.returns_ok trivial
  | some eocd =>
      have hin := hfound eocd rfl
      apply (number_returns (by omega) (by omega : eocd + 10 + (2 : Nat) ≤ zip.length)).bind
      intro count _
      apply (number_returns (by omega) (by omega : eocd + 16 + (4 : Nat) ≤ zip.length)).bind
      intro p _
      exact entries_returns hn (toInt32_lt _) count p

end Inside

section Layout

variable {z : Zlib} (d : Documented z)

-- Deflate and what it packs.
def Deflates (data content : Bytes) : Prop :=
  ∃ s, z.inflateInit2 data = some s ∧ d.rest s = content ∧ d.last s = .streamEnd

-- An entry of a zip: how the directory describes it and what stands where it says.
structure Entry where
  versions : Bytes
  method : Nat
  stamp : Bytes
  name : Bytes
  extra : Bytes
  comment : Bytes
  attributes : Bytes
  offset : Nat
  localFields : Bytes
  localName : Bytes
  localExtra : Bytes
  data : Bytes
  content : Bytes
  length_versions : versions.length = 6
  length_stamp : stamp.length = 8
  length_attributes : attributes.length = 8
  length_localFields : localFields.length = 26
  name_lt : name.length < 256 ^ 2
  extra_lt : extra.length < 256 ^ 2
  comment_lt : comment.length < 256 ^ 2
  localName_lt : localName.length < 256 ^ 2
  localExtra_lt : localExtra.length < 256 ^ 2
  content_lt : content.length < 256 ^ 4
  packed : method = 0 ∧ data = content ∨ method = 8 ∧ Deflates d data content

open LittleEndian (bytes)

variable {d}

def Entry.central (e : Entry d) : Bytes :=
  bytes 4 entrySignature ++ (e.versions ++ (bytes 2 e.method ++ (e.stamp ++
    (bytes 4 e.data.length ++ (bytes 4 e.content.length ++ (bytes 2 e.name.length ++
      (bytes 2 e.extra.length ++ (bytes 2 e.comment.length ++ (e.attributes ++ (bytes 4 e.offset ++
        (e.name ++ (e.extra ++ e.comment))))))))))))

def Entry.record (e : Entry d) : Bytes :=
  e.localFields ++ (bytes 2 e.localName.length ++ (bytes 2 e.localExtra.length ++
    (e.localName ++ (e.localExtra ++ e.data))))

variable (d)

-- A zip without zip64: what stands before the directory, the directory, and the end record.
structure Archive where
  front : Bytes
  entries : List (Entry d)
  gap : Bytes
  disks : Bytes
  directorySize : Nat
  comment : Bytes
  length_disks : disks.length = 6
  entries_lt : entries.length < 256 ^ 2
  comment_lt : comment.length < 256 ^ 2

variable {d}

def Archive.endRecord (a : Archive d) : Bytes :=
  bytes 4 endSignature ++ (a.disks ++ (bytes 2 a.entries.length ++ (bytes 4 a.directorySize ++
    (bytes 4 a.front.length ++ (bytes 2 a.comment.length ++ a.comment)))))

def Archive.bytes (a : Archive d) : Bytes :=
  a.front ++ (a.entries.flatMap Entry.central ++ (a.gap ++ a.endRecord))

-- Where the end record stands.
def Archive.eocd (a : Archive d) : Nat :=
  a.front.length + (a.entries.flatMap Entry.central).length + a.gap.length

-- Every entry stands where the directory says.
def Archive.Placed (a : Archive d) : Prop :=
  ∀ e ∈ a.entries, HoldsAt a.bytes e.offset e.record

-- Nothing behind the start of the end record looks like one.
def Archive.Unambiguous (a : Archive d) : Prop :=
  ∀ i, a.eocd < i → i + 22 ≤ a.bytes.length → ¬ HoldsAt a.bytes i (LittleEndian.bytes 4 endSignature)

end Layout

section Reading

variable {mem : Bytes} {pos k v : Nat}

theorem number_holds (h : HoldsAt mem pos (LittleEndian.bytes k v)) (hv : v < 256 ^ k) :
    number mem k pos = .ok v := by
  have hload := h.load
  rw [LittleEndian.length_bytes] at hload
  rw [number, hload]
  exact congrArg Except.ok (LittleEndian.value_bytes_of_lt hv)

theorem holds_of_number (h : number mem k pos = .ok v) : HoldsAt mem pos (LittleEndian.bytes k v) := by
  rw [number] at h
  by_cases hin : pos + k ≤ mem.length
  · rw [Checked.load_eq mem pos k hin] at h
    have hv := Except.ok.inj h
    have hlen : ((mem.drop pos).take k).length = k := by
      rw [List.length_take, List.length_drop]
      omega
    have hbytes := LittleEndian.bytes_value ((mem.drop pos).take k)
    rw [hlen, hv] at hbytes
    refine ⟨mem.take pos, mem.drop (pos + k), ?_, ?_⟩
    · rw [hbytes, ← List.drop_drop, List.take_append_drop, List.take_append_drop]
    · rw [List.length_take]
      omega
  · rw [Checked.load, if_neg (by omega)] at h
    cases h

end Reading

section Walk

variable {z : Zlib} {d : Documented z} (repaired : Bytes → Text) {zip : Bytes}

-- What the walk makes of an entry.
def Entry.found (e : Entry d) : Found :=
  if e.method = 0 then .stored e.content else .deflated e.data (toInt32 e.content.length)

theorem Entry.length_record (e : Entry d) :
    e.record.length = 30 + e.localName.length + e.localExtra.length + e.data.length := by
  simp only [Entry.record, List.length_append, LittleEndian.length_bytes, e.length_localFields]
  omega

theorem Entry.length_central (e : Entry d) :
    e.central.length = 46 + e.name.length + e.extra.length + e.comment.length := by
  simp only [Entry.central, List.length_append, LittleEndian.length_bytes, e.length_versions,
    e.length_stamp, e.length_attributes]
  omega

-- The local header says where the data starts, and the data is inside.
theorem entryData_of_placed (hlen : zip.length < 2 ^ 31) (e : Entry d)
    (h : HoldsAt zip e.offset e.record) :
    entryData zip zip.length e.method e.data.length e.content.length e.offset = .ok e.found := by
  have hin := h.length_le
  rw [e.length_record] at hin
  have hname := h.right.left
  have hextra := h.right.right.left
  have hdata := h.right.right.right.right.right
  simp only [e.length_localFields, LittleEndian.length_bytes] at hname hextra hdata
  have hnameLen := number_holds hname e.localName_lt
  have hextraLen := number_holds hextra e.localExtra_lt
  have hcomp : toInt32 e.data.length = e.data.length := toInt32_of_lt (by omega)
  have hload := hdata.load
  have hoff : ((e.offset + 26 + 2 + 2 + e.localName.length + e.localExtra.length : Nat) : Int) =
      (e.offset : Int) + 30 + e.localName.length + e.localExtra.length := by
    push_cast
    ring
  rw [hoff] at hload
  push_cast at hnameLen hextraLen
  rw [Int.add_assoc] at hextraLen
  rw [entryData, if_neg (by omega), u16, hnameLen]
  change (do let extraLen ← number zip 2 ((e.offset : Int) + 28); _) = _
  rw [show (28 : Int) = 26 + 2 from rfl, hextraLen]
  change (if _ then _ else _) = _
  rw [if_neg (by omega), hcomp, hload]
  rw [Entry.found]
  rcases e.packed with ⟨hmethod, hcontent⟩ | ⟨hmethod, _⟩
  · rw [if_pos hmethod, if_pos hmethod, ← hcontent]
    rfl
  · have hne : ¬ e.method = 0 := by omega
    rw [if_neg hne, if_neg hne, if_pos hmethod]
    rfl

theorem number_field {p off k v : Nat} (h : HoldsAt zip (p + off) (LittleEndian.bytes k v))
    (hv : v < 256 ^ k) : number zip k ((p : Int) + off) = .ok v := by
  rw [← Int.natCast_add]
  exact number_holds h hv

-- One entry of the directory: its own data, or the rest of the directory.
theorem entries_of_central (hlen : zip.length < 2 ^ 31) (e : Entry d) (count p : Nat)
    (h : HoldsAt zip p e.central) (hplaced : HoldsAt zip e.offset e.record) :
    entries repaired zip zip.length (count + 1) p =
      if isSrt repaired e.name then .ok e.found
      else entries repaired zip zip.length count ((p + e.central.length : Nat) : Int) := by
  have hin := h.length_le
  have hrecord := hplaced.length_le
  rw [e.length_central] at hin
  rw [e.length_record] at hrecord
  have hmethodLt : e.method < 256 ^ 2 := by
    rcases e.packed with ⟨hmethod, _⟩ | ⟨hmethod, _⟩ <;> rw [hmethod] <;> decide
  -- the fields one after the other
  have hsig := h.left
  have h6 := h.right.right
  have hmethod := h6.left
  have h12 := h6.right.right
  have hcomp := h12.left
  have huncomp := h12.right.left
  have hname := h12.right.right.left
  have hextra := h12.right.right.right.left
  have hcomment := h12.right.right.right.right.left
  have h34 := h12.right.right.right.right.right.right
  have hoffset := h34.left
  have hchars := h34.right.left
  simp only [LittleEndian.length_bytes, e.length_versions, e.length_stamp, e.length_attributes,
    Nat.add_assoc, Nat.reduceAdd] at hmethod hcomp huncomp hname hextra hcomment hoffset hchars
  have hsig' := number_holds hsig (by decide)
  have hmethod' := number_field hmethod hmethodLt
  have hcomp' := number_field hcomp (by omega)
  have huncomp' := number_field huncomp e.content_lt
  have hname' := number_field hname e.name_lt
  have hextra' := number_field hextra e.extra_lt
  have hcomment' := number_field hcomment e.comment_lt
  have hoffset' := number_field hoffset (by omega)
  have hchars' := hchars.load
  push_cast at hsig' hmethod' hcomp' huncomp' hname' hextra' hcomment' hoffset' hchars'
  have hbounds : ¬ ((p : Int) < 0 ∨ (p : Int) + 46 > zip.length) := by omega
  have hnamed : ¬ ((p : Int) + 46 + e.name.length > zip.length) := by omega
  simp only [entries, if_neg hbounds, u16, u32, hsig', hmethod', hcomp', huncomp', hname', hextra',
    hcomment', hoffset', bind, Except.bind, ne_eq, not_true_eq_false, if_false, if_neg hnamed, hchars']
  have hnext : (p : Int) + (46 + e.name.length + e.extra.length + e.comment.length) =
      ((p + e.central.length : Nat) : Int) := by
    rw [e.length_central]
    push_cast
    ring
  rw [hnext, entryData_of_placed hlen e hplaced]

-- What the directory of these entries leads to.
def firstFound (es : List (Entry d)) : Found :=
  match es.find? (fun e => isSrt repaired e.name) with
  | none => .nothing
  | some e => e.found

theorem entries_of_directory (hlen : zip.length < 2 ^ 31) (es : List (Entry d)) (p : Nat)
    (h : HoldsAt zip p (es.flatMap Entry.central)) (hplaced : ∀ e ∈ es, HoldsAt zip e.offset e.record) :
    entries repaired zip zip.length es.length p = .ok (firstFound repaired es) := by
  induction es generalizing p with
  | nil => rfl
  | cons e es ih =>
      rw [List.flatMap_cons] at h
      rw [List.length_cons, entries_of_central repaired hlen e es.length p h.left (hplaced e List.mem_cons_self)]
      rw [firstFound, List.find?_cons]
      cases hsrt : isSrt repaired e.name with
      | true => rfl
      | false =>
          rw [if_neg Bool.false_ne_true]
          exact ih _ h.right fun e' he' => hplaced e' (List.mem_cons_of_mem e he')

end Walk

section EndRecord

variable {z : Zlib} {d : Documented z} {zip : Bytes}

theorem findEnd_step {turns i : Nat} (hin : i + 4 ≤ zip.length) :
    findEnd zip (turns + 1) i =
      if number zip 4 i = .ok endSignature then .ok (some (i : Int)) else findEnd zip turns ((i : Int) - 1) := by
  obtain ⟨sig, hsig, _⟩ := number_returns (by omega : (0 : Int) ≤ i) (by omega : (i : Int) + (4 : Nat) ≤ zip.length)
  have hnot : ¬ (i : Int) < 0 := by omega
  rw [findEnd, if_neg hnot, u32, hsig]
  simp only [Except.ok.injEq]
  rfl

-- The search comes to a record where no place before it on its way looks like one.
theorem findEnd_of_last {turns gap eocd : Nat} (hin : eocd + gap + 4 ≤ zip.length) (hturns : gap < turns)
    (hsig : HoldsAt zip eocd (LittleEndian.bytes 4 endSignature))
    (hlast : ∀ i, eocd < i → i ≤ eocd + gap → ¬ HoldsAt zip i (LittleEndian.bytes 4 endSignature)) :
    findEnd zip turns ((eocd + gap : Nat) : Int) = .ok (some (eocd : Int)) := by
  induction gap generalizing turns with
  | zero =>
      obtain ⟨turns, rfl⟩ : ∃ n, turns = n + 1 := ⟨turns - 1, by omega⟩
      have hnumber := number_holds hsig (by decide)
      rw [Nat.add_zero eocd] at hin ⊢
      rw [findEnd_step hin, if_pos hnumber]
  | succ gap ih =>
      obtain ⟨turns, rfl⟩ : ∃ n, turns = n + 1 := ⟨turns - 1, by omega⟩
      have hnot : ¬ number zip 4 ((eocd + (gap + 1) : Nat) : Int) = .ok endSignature := by
        intro h
        exact hlast _ (by omega) (Nat.le_refl _) (holds_of_number h)
      have hback : ((eocd + (gap + 1) : Nat) : Int) - 1 = ((eocd + gap : Nat) : Int) := by omega
      rw [findEnd_step hin, if_neg hnot, hback]
      exact ih (by omega) (by omega) fun i hi hle => hlast i hi (by omega)

theorem last_of_findEnd {turns i : Nat} {eocd : Int} (hin : i + 4 ≤ zip.length)
    (h : findEnd zip turns i = .ok (some eocd)) :
    ∀ j : Nat, eocd < j → j ≤ i → ¬ HoldsAt zip j (LittleEndian.bytes 4 endSignature) := by
  induction turns generalizing i with
  | zero => cases h
  | succ turns ih =>
      rw [findEnd_step hin] at h
      intro j hj hji hholds
      by_cases hsig : number zip 4 i = .ok endSignature
      · rw [if_pos hsig] at h
        cases h
        omega
      · rw [if_neg hsig] at h
        rcases Nat.eq_or_lt_of_le hji with heq | hlt
        · rw [heq] at hholds
          exact hsig (number_holds hholds (by decide))
        · obtain ⟨i, rfl⟩ : ∃ n, i = n + 1 := ⟨i - 1, by omega⟩
          have hback : ((i + 1 : Nat) : Int) - 1 = (i : Int) := by omega
          rw [hback] at h
          exact ih (by omega) h j hj (by omega) hholds

theorem Archive.length_endRecord (a : Archive d) : a.endRecord.length = 22 + a.comment.length := by
  simp only [Archive.endRecord, List.length_append, LittleEndian.length_bytes, a.length_disks]
  omega

theorem Archive.length_bytes (a : Archive d) : a.bytes.length = a.eocd + 22 + a.comment.length := by
  simp only [Archive.bytes, List.length_append, a.length_endRecord, Archive.eocd]
  omega

theorem Archive.holds_bytes (a : Archive d) : HoldsAt a.bytes 0 a.bytes := ⟨[], [], by simp, rfl⟩

theorem Archive.holds_endRecord (a : Archive d) : HoldsAt a.bytes a.eocd a.endRecord := by
  have h := a.holds_bytes.right.right.right
  rw [Nat.zero_add] at h
  exact h

-- The search finds the record of the archive exactly where nothing behind it looks like one.
theorem findEnd_iff (a : Archive d) :
    findEnd a.bytes 65537 ((a.bytes.length : Int) - 22) = .ok (some (a.eocd : Int)) ↔ a.Unambiguous := by
  have hlength := a.length_bytes
  have hcomment := a.comment_lt
  have hstart : (a.bytes.length : Int) - 22 = ((a.eocd + a.comment.length : Nat) : Int) := by omega
  rw [hstart]
  constructor
  · intro h i hi hin
    exact last_of_findEnd (by omega) h i (by omega) (by omega)
  · intro h
    exact findEnd_of_last (by omega) (by omega) a.holds_endRecord.left fun i hi hle => h i hi (by omega)

end EndRecord

section Result

variable {z : Zlib} (d : Documented z) (repaired : Bytes → Text)

-- The result, once there is enough fuel for it.
def Unzips (z : Zlib) (zip content : Bytes) : Prop :=
  ∃ fuel r, unzipFirstSrt repaired zip z fuel = .ok (some r) ∧ r.out = content

-- The function ends, with no buffer past the limit.
def UnzipBounded (z : Zlib) (zip : Bytes) : Prop :=
  ∃ fuel r, unzipFirstSrt repaired zip z fuel = .ok (some r) ∧ ∀ n ∈ r.sizes, n ≤ kMaxOut

variable {repaired}

theorem unzipFirstSrt_of_found {zip : Bytes} {found : Found} (fuel : Nat)
    (h : firstSrt repaired zip = .ok found) :
    unzipFirstSrt repaired zip z fuel = found.unpack z fuel := by
  rw [unzipFirstSrt, h]
  rfl

theorem firstSrt_of_archive {d : Documented z} {a : Archive d} (hlen : a.bytes.length < 2 ^ 31)
    (hplaced : a.Placed) (h : a.Unambiguous) :
    firstSrt repaired a.bytes = .ok (firstFound repaired a.entries) := by
  have hlength := a.length_bytes
  have hend := a.holds_endRecord
  have h10 := hend.right.right
  have hcount := h10.left
  have hfront := h10.right.right.left
  simp only [LittleEndian.length_bytes, a.length_disks, Nat.add_assoc, Nat.reduceAdd] at hcount hfront
  have hcount' := number_field hcount a.entries_lt
  have hfrontLt : a.front.length < 256 ^ 4 := by
    simp only [Archive.eocd] at hlength
    omega
  have hfront' := number_field hfront hfrontLt
  push_cast at hcount' hfront'
  have hdirectory := a.holds_bytes.right.left
  rw [Nat.zero_add] at hdirectory
  have hentries := entries_of_directory repaired hlen a.entries _ hdirectory hplaced
  rw [firstSrt, toInt32_of_lt hlen, if_neg (by omega), (findEnd_iff a).mpr h]
  simp only [bind, Except.bind, u16, u32, hcount', hfront', hentries]

theorem unzipBounded_iff (zip : Bytes) :
    UnzipBounded repaired z zip ↔
      ∀ src hint, firstSrt repaired zip = .ok (.deflated src hint) → Roomy d src hint := by
  obtain ⟨found, hfound, _⟩ := firstSrt_returns repaired zip
  cases found with
  | nothing =>
      refine iff_of_true ⟨0, _, unzipFirstSrt_of_found 0 hfound, fun n hn => absurd hn List.not_mem_nil⟩ ?_
      intro src hint h
      rw [hfound] at h
      cases h
  | stored content =>
      refine iff_of_true ⟨0, _, unzipFirstSrt_of_found 0 hfound, fun n hn => absurd hn List.not_mem_nil⟩ ?_
      intro src hint h
      rw [hfound] at h
      cases h
  | deflated src hint =>
      have hbounded : UnzipBounded repaired z zip ↔ Bounded z src hint := by
        simp only [UnzipBounded, unzipFirstSrt_of_found _ hfound, Found.unpack, Bounded]
      rw [hbounded, bounded_iff d]
      constructor
      · intro h src' hint' hfound'
        rw [hfound] at hfound'
        cases hfound'
        exact h
      · exact fun h => h src hint hfound

-- The entry that the walk leads to gives its content.
theorem unzips_of_archive {a : Archive d} (hlen : a.bytes.length < 2 ^ 31) (hplaced : a.Placed)
    (h : a.Unambiguous) {e : Entry d} (hfirst : a.entries.find? (fun e => isSrt repaired e.name) = some e)
    (hsmall : e.content.length < kMaxOut) (hsized : e.content = [] → e.data.length * 4 < 2 ^ 31) :
    Unzips repaired z a.bytes e.content := by
  have hfound : firstSrt repaired a.bytes = _ := firstSrt_of_archive hlen hplaced h
  rw [firstFound, hfirst] at hfound
  dsimp only at hfound
  rw [Entry.found] at hfound
  rcases e.packed with ⟨hmethod, _⟩ | ⟨hmethod, s, hinit, hrest, hlast⟩
  · rw [if_pos hmethod] at hfound
    exact ⟨0, _, unzipFirstSrt_of_found 0 hfound, rfl⟩
  · have hhint : toInt32 e.content.length = e.content.length := by
      apply toInt32_of_lt
      unfold kMaxOut at hsmall
      omega
    rw [if_neg (by omega), hhint] at hfound
    have hs : Sized e.data.length e.content.length := by
      by_cases hempty : e.content = []
      · exact Or.inr (hsized hempty)
      · have hpos := List.length_pos_iff.mpr hempty
        unfold kMaxOut at hsmall
        exact Or.inl ⟨by omega, by unfold hintLimit; omega⟩
    obtain ⟨r, hr, _, hout⟩ := inflateRaw_ends d hinit hs _ (Nat.lt_succ_self _)
    rw [hrest] at hout
    exact ⟨_, r, (unzipFirstSrt_of_found _ hfound).trans hr, hout hlast hsmall⟩

theorem unzips_nothing {a : Archive d} (hlen : a.bytes.length < 2 ^ 31) (hplaced : a.Placed)
    (h : a.Unambiguous) (hnone : a.entries.find? (fun e => isSrt repaired e.name) = none) :
    Unzips repaired z a.bytes [] := by
  have hfound : firstSrt repaired a.bytes = _ := firstSrt_of_archive hlen hplaced h
  rw [firstFound, hnone] at hfound
  exact ⟨0, _, unzipFirstSrt_of_found 0 hfound, rfl⟩

end Result

section Contract

variable {z : Zlib} {d : Documented z} (repaired : Bytes → Text)

-- A zip gives what its first subtitle holds, where that is below the limit.
def Exact (a : Archive d) : Prop :=
  (∀ e, a.entries.find? (fun e => isSrt repaired e.name) = some e → e.content.length < kMaxOut →
    (e.content = [] → e.data.length * 4 < 2 ^ 31) → Unzips repaired z a.bytes e.content) ∧
  (a.entries.find? (fun e => isSrt repaired e.name) = none → Unzips repaired z a.bytes [])

theorem unzips_within_limit_iff {z : Zlib} (d : Documented z) (repaired : Bytes → Text) :
    (∀ zip, ∃ found, firstSrt repaired zip = .ok found) ∧
      (∀ src hint, Bounded z src hint ↔ Roomy d src hint) ∧
      (∀ zip, UnzipBounded repaired z zip ↔
        ∀ src hint, firstSrt repaired zip = .ok (.deflated src hint) → Roomy d src hint) ∧
      ∀ a : Archive d, a.Placed → a.bytes.length < 2 ^ 31 →
        (findEnd a.bytes 65537 ((a.bytes.length : Int) - 22) = .ok (some (a.eocd : Int)) ↔
          a.Unambiguous) ∧
        (a.Unambiguous → Exact repaired a) := by
  refine ⟨?_, bounded_iff d, unzipBounded_iff d, ?_⟩
  · intro zip
    obtain ⟨found, hfound, _⟩ := firstSrt_returns repaired zip
    exact ⟨found, hfound⟩
  · intro a hplaced hlen
    refine ⟨findEnd_iff a, fun h => ⟨?_, unzips_nothing d hlen hplaced h⟩⟩
    intro e hfirst hsmall hsized
    exact unzips_of_archive d hlen hplaced h hfirst hsmall hsized

end Contract

section Stored

-- Inflate, over stored blocks.
def inflateStored : Nat → Bytes → Bytes × Bool
  | fuel + 1, final :: len0 :: len1 :: nlen0 :: nlen1 :: tail =>
      let len := LittleEndian.value [len0, len1]
      if LittleEndian.value [nlen0, nlen1] = 65535 - len ∧ len ≤ tail.length then
        if final = 1 then (tail.take len, true)
        else if final = 0 then
          let (more, whole) := inflateStored fuel (tail.drop len)
          (tail.take len ++ more, whole)
        else ([], false)
      else ([], false)
  | _, _ => ([], false)

def storedEnd (whole : Bool) : Ret := if whole then .streamEnd else .other

def storedZlib : Zlib where
  Stream := Bytes × Bool
  inflateInit2 src := some (inflateStored src.length src)
  inflate s free :=
    ((s.1.drop free, s.2), s.1.take free, if free < s.1.length then .ok else storedEnd s.2)

theorem storedEnd_ne_ok (whole : Bool) : storedEnd whole ≠ .ok := by
  cases whole with
  | false => exact Ret.noConfusion
  | true => exact Ret.noConfusion

def storedDocumented : Documented storedZlib where
  rest s := s.1
  last s := storedEnd s.2
  early _ := true
  left _ := 0
  last_ne_ok s := storedEnd_ne_ok s.2
  writes _ _ _ := rfl
  rest_next _ _ _ := rfl
  last_next _ _ _ := rfl
  early_next _ _ _ := rfl
  full s free _ h := if_pos h
  reached s free _ h := if_neg (by omega)
  ended s free _ h := Or.inl (if_neg (by omega))
  progress s free hfree h := by
    by_cases hlt : free < s.1.length
    · have hdrop : (s.1.drop free).length = s.1.length - free := List.length_drop
      change 0 + (s.1.drop free).length < 0 + s.1.length
      omega
    · have hret : (storedZlib.inflate s free).2.2 = storedEnd s.2 := if_neg hlt
      rw [hret] at h
      exact absurd h (storedEnd_ne_ok s.2)

-- So many full blocks of zeros, and an empty one.
def zeroBlocks : Nat → Bytes
  | 0 => [1, 0, 0, 255, 255]
  | n + 1 => [0, 255, 255, 0, 0] ++ (List.replicate 65535 0 ++ zeroBlocks n)

theorem inflateStored_zeroBlocks (n fuel : Nat) (h : n < fuel) :
    inflateStored fuel (zeroBlocks n) = (List.replicate (n * 65535) 0, true) := by
  induction n generalizing fuel with
  | zero =>
      obtain ⟨fuel, rfl⟩ : ∃ k, fuel = k + 1 := ⟨fuel - 1, by omega⟩
      rw [Nat.zero_mul]
      rfl
  | succ n ih =>
      obtain ⟨fuel, rfl⟩ : ∃ k, fuel = k + 1 := ⟨fuel - 1, by omega⟩
      have hlen : LittleEndian.value [255, 255] = 65535 := by decide
      have hnlen : LittleEndian.value [0, 0] = 65535 - 65535 := by decide
      have hin : 65535 ≤ (List.replicate 65535 (0 : UInt8) ++ zeroBlocks n).length := by
        rw [List.length_append, List.length_replicate]
        omega
      have htake : (List.replicate 65535 (0 : UInt8) ++ zeroBlocks n).take 65535 = List.replicate 65535 0 :=
        List.take_left' List.length_replicate
      have hdrop : (List.replicate 65535 (0 : UInt8) ++ zeroBlocks n).drop 65535 = zeroBlocks n :=
        List.drop_left' List.length_replicate
      have hnot : ¬ ((0 : UInt8) = 1) := by decide
      change inflateStored (fuel + 1) (0 :: 255 :: 255 :: 0 :: 0 :: (List.replicate 65535 0 ++ zeroBlocks n)) = _
      rw [inflateStored]
      simp only [hlen]
      rw [if_pos ⟨hnlen, hin⟩, if_neg hnot, if_pos trivial, htake, hdrop, ih fuel (by omega)]
      simp only [List.replicate_append_replicate]
      rw [Nat.add_mul, Nat.one_mul, Nat.add_comm]

theorem lt_length_zeroBlocks (n : Nat) : n < (zeroBlocks n).length := by
  induction n with
  | zero => decide
  | succ n ih =>
      rw [zeroBlocks, List.length_append, List.length_append]
      simp only [List.length_cons, List.length_nil]
      omega

-- The directory says 8388609 bytes, and 129 blocks of zeros come out.
theorem doubles_past_limit : ¬ Bounded storedZlib (zeroBlocks 129) 8388609 := by
  rw [bounded_iff storedDocumented]
  intro h
  have hinit := inflateStored_zeroBlocks 129 _ (lt_length_zeroBlocks 129)
  obtain ⟨_, hfits⟩ := h _ rfl
  have hstart : start (zeroBlocks 129).length 8388609 = 8388609 := by
    rw [start, if_pos (by decide)]
    rfl
  have htotal : (storedDocumented.rest (inflateStored (zeroBlocks 129).length (zeroBlocks 129))).length =
      129 * 65535 := by
    rw [hinit]
    exact List.length_replicate
  rw [hstart, htotal] at hfits
  have hzero := hfits 0 (by decide) (by decide)
  omega

-- A zip with one deflated subtitle.
def subtitle : Entry storedDocumented where
  versions := List.replicate 6 0
  method := 8
  stamp := List.replicate 8 0
  name := [97, 46, 83, 82, 84]
  extra := []
  comment := []
  attributes := List.replicate 8 0
  offset := 0
  localFields := [80, 75, 3, 4] ++ List.replicate 22 0
  localName := [97, 46, 83, 82, 84]
  localExtra := [0, 0, 0, 0]
  data := [1, 2, 0, 253, 255, 104, 105]
  content := [104, 105]
  length_versions := rfl
  length_stamp := rfl
  length_attributes := rfl
  length_localFields := rfl
  name_lt := by decide
  extra_lt := by decide
  comment_lt := by decide
  localName_lt := by decide
  localExtra_lt := by decide
  content_lt := by decide
  packed := Or.inr ⟨rfl, _, rfl, by decide, by decide⟩

def subtitleZip : Archive storedDocumented where
  front := subtitle.record
  entries := [subtitle]
  gap := []
  disks := List.replicate 6 0
  directorySize := 51
  comment := []
  length_disks := rfl
  entries_lt := by decide
  comment_lt := by decide

theorem placed_subtitleZip : subtitleZip.Placed := by
  intro e he
  rw [List.mem_singleton.mp he]
  exact ⟨[], _, rfl, rfl⟩

theorem unambiguous_subtitleZip : subtitleZip.Unambiguous := by
  intro i hi hin
  rw [subtitleZip.length_bytes] at hin
  change i + 22 ≤ subtitleZip.eocd + 22 + 0 at hin
  omega

theorem unzips_subtitle : Unzips (fun _ => []) storedZlib subtitleZip.bytes [104, 105] := by
  obtain ⟨_, _, _, harchive⟩ := unzips_within_limit_iff storedDocumented fun _ => []
  obtain ⟨_, hexact⟩ := harchive subtitleZip placed_subtitleZip (by decide)
  exact (hexact unambiguous_subtitleZip).1 subtitle (by rfl) (by decide) (fun h => nomatch h)

end Stored

end BATorrent.SubtitleZip
