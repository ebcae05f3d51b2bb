import BATorrent.Lib.ByteText
import Mathlib.Data.List.DropRight
import BATorrent.Lib.Text
import BATorrent.Lib.Checked
import BATorrent.Lib.LittleEndian

namespace BATorrent.MediaSniff

open Lib.DataStream (Bytes)
open Lib.ByteText (ascii)

abbrev Text := List Char

inductive Kind where
  | unknown
  | matroska
  | mp4
  | avi
  | mpegTs
  | mpegPs
  | flv
  | asf
  | executable
  | archive
  | document
  | webPage
deriving DecidableEq

inductive Verdict where
  | needMore
  | ok
  | disguised
  | lure
deriving DecidableEq

def kHeadBytes : Int := 64 * 1024

def headWanted (fileSize : Int) : Int := if fileSize < 0 then 0 else min fileSize kHeadBytes

section Names

def chopped (suffix name : Text) : Text :=
  if suffix.isSuffixOf name then name.take (name.length - suffix.length) else name

def btSuffix : Text := ".!bt".toList

def fileName (path : Text) : Text := path.rtakeWhile fun c => c ≠ '/'

-- What follows the last dot of a file's name.
def suffix (path : Text) : Text :=
  if '.' ∈ fileName path then (fileName path).rtakeWhile fun c => c ≠ '.' else []

def exts : List Text :=
  ["mkv", "mp4", "avi", "mov", "wmv", "m4v", "ts", "flv", "webm", "m2ts", "mpg", "mpeg"].map String.toList

def isVideoName (toLower : Text → Text) (path : Text) : Bool :=
  decide (toLower (suffix (chopped btSuffix path)) ∈ exts)

end Names

section Head

def sigAt (b : Bytes) (off : Nat) (sig : Bytes) : Bool := sig.isPrefixOf (b.drop off)

def le32 (b : Bytes) (off : Nat) : Nat :=
  ((b.drop off).take 4).foldr (fun byte value => byte.toNat + 256 * value) 0

def le64 (b : Bytes) (off : Nat) : Nat := le32 b off + 2 ^ 32 * le32 b (off + 4)

def kAsfHeader : Bytes :=
  [0x30, 0x26, 0xB2, 0x75, 0x8E, 0x66, 0xCF, 0x11, 0xA6, 0xD9, 0x00, 0xAA, 0x00, 0x62, 0xCE, 0x6C]

def kAsfEncryption : Bytes :=
  [0xFB, 0xB3, 0x11, 0x22, 0x23, 0xBD, 0xD2, 0x11, 0xB4, 0xB7, 0x00, 0xA0, 0xC9, 0x55, 0xFC, 0x6E]

def kAsfExtEncrypt : Bytes :=
  [0x14, 0xE6, 0x8A, 0x29, 0x22, 0x26, 0x17, 0x4C, 0xB9, 0x35, 0xDA, 0xE0, 0x7E, 0xE9, 0x28, 0x9C]

def kAsfScript : Bytes :=
  [0x30, 0x1A, 0xFB, 0x1E, 0x62, 0x0B, 0xD0, 0x11, 0xA3, 0x9B, 0x00, 0xA0, 0xC9, 0x03, 0x48, 0xF6]

-- The PE signature is where the header at 0x3C points.
def isPortableExecutable (b : Bytes) : Bool :=
  sigAt b 0 (ascii "MZ") && decide (0x40 ≤ b.length) && sigAt b (le32 b 0x3C) [80, 69, 0, 0]

def synced (b : Bytes) (first stride : Nat) : Bool :=
  [0, 1, 2].all fun i => b[first + i * stride]? = some 0x47

def isTransportStream (b : Bytes) : Bool := synced b 0 188 || synced b 4 192

def isSpace (byte : UInt8) : Bool :=
  byte = 0x20 || (0x09 ≤ byte && byte ≤ 0x0D) || byte = 0x85 || byte = 0xA0

def lower (byte : UInt8) : UInt8 := if 65 ≤ byte && byte ≤ 90 then byte + 32 else byte

def isWebPage (b : Bytes) : Bool :=
  let start := if sigAt b 0 [0xEF, 0xBB, 0xBF] then 3 else 0
  let i := start + (((b.take 512).drop start).takeWhile isSpace).length
  let lead := ((b.drop i).take 16).map lower
  [ascii "<!doctype html", ascii "<html", ascii "<script", ascii "<asx"].any fun tag =>
    tag.isPrefixOf lead

def boxes : List Bytes :=
  [ascii "ftyp", ascii "moov", ascii "mdat", ascii "free", ascii "skip", ascii "wide", ascii "pnot"]

def executables : List Bytes :=
  [[0x7F, 0x45, 0x4C, 0x46], [0xFE, 0xED, 0xFA, 0xCE], [0xFE, 0xED, 0xFA, 0xCF], [0xCE, 0xFA, 0xED, 0xFE],
    [0xCF, 0xFA, 0xED, 0xFE], [0xCA, 0xFE, 0xBA, 0xBE],
    [0x4C, 0x00, 0x00, 0x00, 0x01, 0x14, 0x02, 0x00], ascii "#!"]

def archives : List Bytes :=
  [[0x50, 0x4B, 0x03, 0x04], [0x50, 0x4B, 0x05, 0x06], [0x52, 0x61, 0x72, 0x21, 0x1A, 0x07],
    [0x37, 0x7A, 0xBC, 0xAF, 0x27, 0x1C], [0x1F, 0x8B], ascii "MSCF"]

def documents : List Bytes := [ascii "%PDF-", [0xD0, 0xCF, 0x11, 0xE0, 0xA1, 0xB1, 0x1A, 0xE1]]

def identify (b : Bytes) : Kind :=
  if sigAt b 0 [0x1A, 0x45, 0xDF, 0xA3] then .matroska
  else if sigAt b 0 kAsfHeader then .asf
  else if boxes.any (sigAt b 4) then .mp4
  else if sigAt b 0 (ascii "RIFF") && (sigAt b 8 (ascii "AVI ") || sigAt b 8 (ascii "AVIX")) then .avi
  else if sigAt b 0 [0x46, 0x4C, 0x56, 0x01] then .flv
  else if sigAt b 0 [0x00, 0x00, 0x01, 0xBA] || sigAt b 0 [0x00, 0x00, 0x01, 0xB3] then .mpegPs
  else if isTransportStream b then .mpegTs
  else if isPortableExecutable b || executables.any (sigAt b 0) then .executable
  else if archives.any (sigAt b 0) then .archive
  else if documents.any (sigAt b 0) then .document
  else if isWebPage b then .webPage
  else .unknown

-- The objects of an ASF header from `off` on, each with its size at 16.
def lureFrom (b : Bytes) (stop off : Nat) : Bool :=
  if _ : off + 24 ≤ stop then
    if sigAt b off kAsfEncryption || sigAt b off kAsfExtEncrypt || sigAt b off kAsfScript then true
    else if _ : le64 b (off + 16) < 24 ∨ stop - off < le64 b (off + 16) then false
    else lureFrom b stop (off + le64 b (off + 16))
  else false
termination_by stop - off

def asfHasLure (b : Bytes) : Bool :=
  if !sigAt b 0 kAsfHeader || b.length < 30 then false
  else lureFrom b (min (le64 b 16) b.length) 30

def judge (head : Bytes) (fileSize : Int) : Verdict :=
  if fileSize ≤ 0 ∨ head.length < headWanted fileSize then .needMore
  else match identify head with
    | .executable | .archive | .document | .webPage => .disguised
    | .asf => if asfHasLure head then .lure else .ok
    | _ => .ok

def kindKey : Kind → Text
  | .executable => "program".toList
  | .archive => "archive".toList
  | .document => "document".toList
  | .webPage => "webpage".toList
  | _ => "unknown".toList

end Head

end BATorrent.MediaSniff

namespace BATorrent.MediaSniff

open Lib
open Lib.DataStream (Bytes)

section Reads

open Lib.Checked

-- The same functions with each read checked.
def sigAtChecked (b : Bytes) (off : Int) (sig : Bytes) : Checked Bool :=
  if off < 0 ∨ b.length < off + sig.length then return false
  else do
    let bytes ← load b off sig.length
    return bytes = sig

def le32Checked (b : Bytes) (off : Int) : Checked Nat := do
  let bytes ← load b off 4
  return LittleEndian.value bytes

def le64Checked (b : Bytes) (off : Int) : Checked Nat := do
  let low ← le32Checked b off
  let high ← le32Checked b (off + 4)
  return low + 2 ^ 32 * high

def lureFromChecked (b : Bytes) (stop off : Int) : Checked Bool := do
  if _ : off + 24 ≤ stop then
    let encryption ← sigAtChecked b off kAsfEncryption
    let extEncrypt ← sigAtChecked b off kAsfExtEncrypt
    let script ← sigAtChecked b off kAsfScript
    if encryption || extEncrypt || script then return true
    else
      let size ← le64Checked b (off + 16)
      if _ : size < 24 ∨ (stop - off).toNat < size then return false
      else lureFromChecked b stop (off + size)
  else return false
termination_by (stop - off).toNat

def asfHasLureChecked (b : Bytes) : Checked Bool := do
  let header ← sigAtChecked b 0 kAsfHeader
  if !header || b.length < 30 then return false
  else
    let declared ← le64Checked b 16
    lureFromChecked b (min declared b.length) 30

theorem sigAtChecked_eq {b : Bytes} {off : Nat} {sig : Bytes} (hsig : 0 < sig.length) :
    sigAtChecked b off sig = .ok (sigAt b off sig) := by
  unfold sigAtChecked
  split_ifs with hout
  · have hshort : (b.drop off).length < sig.length := by
      rw [List.length_drop]
      omega
    have hnot : sigAt b off sig = false := by
      rw [Bool.eq_false_iff]
      intro hat
      have hle := (List.isPrefixOf_iff_prefix.mp hat).length_le
      omega
    rw [hnot]
    rfl
  · have hin : 0 ≤ (off : Int) ∧ 0 ≤ (sig.length : Int) ∧ (off : Int) + sig.length ≤ b.length := by omega
    rw [load, if_pos hin]
    change Except.ok (decide ((b.drop off).take sig.length = sig)) = _
    rw [Except.ok.injEq, Bool.eq_iff_iff, decide_eq_true_eq, sigAt, List.isPrefixOf_iff_prefix,
      List.prefix_iff_eq_take]
    exact eq_comm

theorem le32Checked_eq {b : Bytes} {off : Nat} (h : off + 4 ≤ b.length) : le32Checked b off = .ok (le32 b off) := by
  have hin : 0 ≤ (off : Int) ∧ (0 : Int) ≤ 4 ∧ (off : Int) + 4 ≤ b.length := by omega
  unfold le32Checked
  rw [load, if_pos hin]
  rfl

theorem le64Checked_eq {b : Bytes} {off : Nat} (h : off + 8 ≤ b.length) : le64Checked b off = .ok (le64 b off) := by
  have hhigh : le32Checked b (off + 4 : Int) = .ok (le32 b (off + 4)) := @le32Checked_eq b (off + 4) (by omega)
  unfold le64Checked
  rw [le32Checked_eq (by omega)]
  change (do let high ← le32Checked b (off + 4 : Int); return le32 b off + 2 ^ 32 * high) = _
  rw [hhigh]
  rfl

-- No read of the walk is out of the buffer.
theorem lureFromChecked_eq {b : Bytes} {stop : Nat} (hstop : stop ≤ b.length) (off : Nat) :
    lureFromChecked b stop off = .ok (lureFrom b stop off) := by
  induction hleft : stop - off using Nat.strong_induction_on generalizing off with
  | _ left ih =>
  rw [lureFromChecked, lureFrom]
  by_cases hhead : off + 24 ≤ stop
  · have hsize : le64Checked b (off + 16 : Int) = .ok (le64 b (off + 16)) := @le64Checked_eq b (off + 16) (by omega)
    rw [dif_pos (by omega), dif_pos hhead, sigAtChecked_eq (by decide), sigAtChecked_eq (by decide),
      sigAtChecked_eq (by decide)]
    change (if _ then _ else _) = _
    by_cases hlure : (sigAt b off kAsfEncryption || sigAt b off kAsfExtEncrypt || sigAt b off kAsfScript) = true
    · rw [if_pos hlure, if_pos hlure]
      rfl
    · rw [if_neg hlure, if_neg hlure, hsize]
      change (if _ : _ then _ else _) = _
      by_cases hbad : le64 b (off + 16) < 24 ∨ stop - off < le64 b (off + 16)
      · rw [dif_pos (by omega), dif_pos hbad]
        rfl
      · rw [dif_neg (by omega), dif_neg hbad]
        exact ih (stop - (off + le64 b (off + 16))) (by omega) (off + le64 b (off + 16)) rfl
  · rw [dif_neg (by omega), dif_neg hhead]
    rfl

theorem asfHasLureChecked_eq (b : Bytes) : asfHasLureChecked b = .ok (asfHasLure b) := by
  unfold asfHasLureChecked asfHasLure
  rw [show sigAtChecked b 0 kAsfHeader = .ok (sigAt b 0 kAsfHeader) from @sigAtChecked_eq b 0 _ (by decide)]
  change (if _ then _ else _) = _
  split_ifs with hno
  · rfl
  · have hlong : 30 ≤ b.length := by
      rw [Bool.or_eq_true, not_or, decide_eq_true_eq] at hno
      omega
    rw [show le64Checked b 16 = .ok (le64 b 16) from @le64Checked_eq b 16 (by omega)]
    change lureFromChecked b (min (le64 b 16 : Int) b.length) 30 = _
    rw [show min (le64 b 16 : Int) b.length = (min (le64 b 16) b.length : Nat) by omega]
    exact lureFromChecked_eq (Nat.min_le_right _ _) 30

end Reads

section Grammar

-- An object is its GUID, its size and what is in it.
structure AsfObject where
  guid : Bytes
  body : Bytes
  guid_length : guid.length = 16
  size_lt : 24 + body.length < 2 ^ 64

namespace AsfObject

variable (o : AsfObject)

def size : Nat := 24 + o.body.length

def bytes : Bytes := o.guid ++ LittleEndian.bytes 8 o.size ++ o.body

end AsfObject

def lures : List Bytes := [kAsfEncryption, kAsfExtEncrypt, kAsfScript]

theorem length_of_lure {guid : Bytes} (h : guid ∈ lures) : guid.length = 16 := by
  simp only [lures, List.mem_cons, List.not_mem_nil, or_false] at h
  rcases h with rfl | rfl | rfl <;> rfl

-- After a sequence of objects there is the GUID of one of the kinds, with room for its size.
def LureAfterObjects (region : Bytes) : Prop :=
  ∃ (objects : List AsfObject) (guid tail : Bytes),
    region = objects.flatMap AsfObject.bytes ++ (guid ++ tail) ∧ guid ∈ lures ∧ 8 ≤ tail.length

namespace AsfObject

variable (o : AsfObject)

theorem length_bytes : o.bytes.length = o.size := by
  unfold bytes size
  rw [List.length_append, List.length_append, LittleEndian.length_bytes, o.guid_length]

theorem value_size (rest : Bytes) : LittleEndian.value (((o.bytes ++ rest).drop 16).take 8) = o.size := by
  unfold bytes
  rw [List.append_assoc, List.append_assoc, List.drop_left' o.guid_length,
    List.take_left' (LittleEndian.length_bytes 8 o.size)]
  exact LittleEndian.value_bytes_of_lt o.size_lt

end AsfObject

theorem le64_eq {b : Bytes} {off : Nat} (h : off + 8 ≤ b.length) :
    le64 b off = LittleEndian.value ((b.drop off).take 8) := by
  have hsplit : (b.drop off).take 8 = (b.drop off).take 4 ++ (b.drop (off + 4)).take 4 := by
    rw [← List.drop_drop, ← List.take_add]
  rw [hsplit, LittleEndian.value_append, List.length_take, List.length_drop, show min 4 (b.length - off) = 4 by omega]
  rfl

section Walk

variable {b : Bytes} {stop off : Nat}

-- What is left of the header at an offset.
def rest (b : Bytes) (stop off : Nat) : Bytes := (b.take stop).drop off

theorem length_rest (hstop : stop ≤ b.length) : (rest b stop off).length = stop - off := by
  unfold rest
  rw [List.length_drop, List.length_take_of_le hstop]

theorem rest_eq_take : rest b stop off = (b.drop off).take (stop - off) := List.drop_take

theorem drop_rest (n : Nat) : (rest b stop off).drop n = rest b stop (off + n) := List.drop_drop

theorem sigAt_iff {sig : Bytes} (h : off + sig.length ≤ stop) : sigAt b off sig = true ↔ sig <+: rest b stop off := by
  rw [sigAt, List.isPrefixOf_iff_prefix, rest_eq_take, List.prefix_take_iff]
  exact (and_iff_left (by omega)).symm

theorem lure_iff (h : off + 24 ≤ stop) :
    (sigAt b off kAsfEncryption || sigAt b off kAsfExtEncrypt || sigAt b off kAsfScript) = true ↔
      ∃ guid ∈ lures, guid <+: rest b stop off := by
  have hsig : ∀ guid ∈ lures, (sigAt b off guid = true ↔ guid <+: rest b stop off) := by
    intro guid hguid
    have hlen := length_of_lure hguid
    exact sigAt_iff (by omega)
  rw [Bool.or_eq_true, Bool.or_eq_true, or_assoc, hsig _ (by simp [lures]), hsig _ (by simp [lures]),
    hsig _ (by simp [lures])]
  simp [lures]

theorem le64_rest (hstop : stop ≤ b.length) (h : off + 24 ≤ stop) :
    le64 b (off + 16) = LittleEndian.value (((rest b stop off).drop 16).take 8) := by
  rw [le64_eq (by omega), drop_rest, rest_eq_take, List.take_take, show min 8 (stop - (off + 16)) = 8 by omega]

-- What is left starts with an object where its size is one of an object and within what is left.
theorem exists_object (hstop : stop ≤ b.length) (h : off + 24 ≤ stop) (hmin : 24 ≤ le64 b (off + 16))
    (hmax : le64 b (off + 16) ≤ stop - off) :
    ∃ o : AsfObject, rest b stop off = o.bytes ++ rest b stop (off + le64 b (off + 16)) := by
  have hlen := @length_rest b stop off hstop
  have hsize := le64_rest hstop h
  generalize le64 b (off + 16) = size at hmin hmax hsize ⊢
  have hbody : 24 + (((rest b stop off).take size).drop 24).length = size := by
    rw [List.length_drop, List.length_take]
    omega
  have hlt : size < 2 ^ 64 := by
    rw [hsize]
    refine (LittleEndian.value_lt _).trans_le ?_
    rw [List.length_take]
    exact Nat.pow_le_pow_right (by decide) (Nat.min_le_left 8 _) |>.trans (by decide)
  refine ⟨⟨(rest b stop off).take 16, ((rest b stop off).take size).drop 24, ?_, by omega⟩, ?_⟩
  · rw [List.length_take]
    omega
  · have hbytes : LittleEndian.bytes 8 size = ((rest b stop off).drop 16).take 8 := by
      have hround := LittleEndian.bytes_value (((rest b stop off).drop 16).take 8)
      rw [← hsize, List.length_take, List.length_drop, show min 8 ((rest b stop off).length - 16) = 8 by omega] at hround
      exact hround
    have hhead : (rest b stop off).take 16 ++ ((rest b stop off).drop 16).take 8 = (rest b stop off).take 24 :=
      List.take_add.symm
    have hobject : (rest b stop off).take 24 ++ ((rest b stop off).take size).drop 24 = (rest b stop off).take size := by
      have hcut := List.take_append_drop 24 ((rest b stop off).take size)
      rwa [List.take_take, Nat.min_eq_left hmin] at hcut
    unfold AsfObject.bytes AsfObject.size
    dsimp only
    rw [hbody, hbytes, hhead, hobject, ← drop_rest, List.take_append_drop]

theorem lureFrom_iff (hstop : stop ≤ b.length) (hoff : off ≤ stop) :
    lureFrom b stop off = true ↔ LureAfterObjects (rest b stop off) := by
  induction hleft : stop - off using Nat.strong_induction_on generalizing off with
  | _ left ih =>
  have hlen := @length_rest b stop off hstop
  rw [lureFrom]
  by_cases hhead : off + 24 ≤ stop
  · rw [dif_pos hhead]
    by_cases hlure : (sigAt b off kAsfEncryption || sigAt b off kAsfExtEncrypt || sigAt b off kAsfScript) = true
    · rw [if_pos hlure]
      refine iff_of_true rfl ?_
      obtain ⟨guid, hguid, tail, htail⟩ := (lure_iff hhead).mp hlure
      refine ⟨[], guid, tail, htail.symm, hguid, ?_⟩
      have hsixteen := length_of_lure hguid
      have hsum := congrArg List.length htail
      rw [List.length_append] at hsum
      omega
    · rw [if_neg hlure]
      by_cases hbad : le64 b (off + 16) < 24 ∨ stop - off < le64 b (off + 16)
      · rw [dif_pos hbad]
        refine iff_of_false Bool.false_ne_true ?_
        rintro ⟨objects, guid, tail, hrest, hguid, -⟩
        cases objects with
        | nil => exact hlure ((lure_iff hhead).mpr ⟨guid, hguid, tail, hrest.symm⟩)
        | cons o objects =>
            rw [List.flatMap_cons, List.append_assoc] at hrest
            have hsize := le64_rest hstop hhead
            rw [hrest, AsfObject.value_size] at hsize
            have hsum := congrArg List.length hrest
            rw [List.length_append, AsfObject.length_bytes] at hsum
            have hmin : 24 ≤ o.size := Nat.le_add_right 24 _
            omega
      · rw [dif_neg hbad]
        obtain ⟨hmin, hmax⟩ := not_or.mp hbad
        rw [ih (stop - (off + le64 b (off + 16))) (by omega) (by omega) rfl]
        constructor
        · rintro ⟨objects, guid, tail, hrest, hguid⟩
          obtain ⟨o, ho⟩ := exists_object hstop hhead (by omega) (by omega)
          refine ⟨o :: objects, guid, tail, ?_, hguid⟩
          rw [ho, hrest, List.flatMap_cons, List.append_assoc]
        · rintro ⟨objects, guid, tail, hrest, hguid, htail⟩
          cases objects with
          | nil => exact absurd ((lure_iff hhead).mpr ⟨guid, hguid, tail, hrest.symm⟩) hlure
          | cons o objects =>
              rw [List.flatMap_cons, List.append_assoc] at hrest
              have hsize := le64_rest hstop hhead
              rw [hrest, AsfObject.value_size] at hsize
              refine ⟨objects, guid, tail, ?_, hguid, htail⟩
              rw [← drop_rest, hrest, hsize, List.drop_left' o.length_bytes]
  · rw [dif_neg hhead]
    refine iff_of_false Bool.false_ne_true ?_
    rintro ⟨objects, guid, tail, hrest, hguid, htail⟩
    have hsixteen := length_of_lure hguid
    have hsum := congrArg List.length hrest
    rw [List.length_append, List.length_append] at hsum
    omega

end Walk

-- The header that a file starts with, as far as it says it goes and as far as there is any.
def header (b : Bytes) : Bytes := b.take (LittleEndian.value ((b.drop 16).take 8))

-- No read is out of the buffer, and a lure is found exactly where one comes after the objects of the header.
theorem asfHasLure_walk (b : Bytes) : asfHasLureChecked b = .ok (asfHasLure b) ∧
    (asfHasLure b = true ↔ kAsfHeader <+: b ∧ 30 ≤ b.length ∧ LureAfterObjects ((header b).drop 30)) := by
  refine ⟨asfHasLureChecked_eq b, ?_⟩
  unfold asfHasLure
  by_cases hstarts : (!sigAt b 0 kAsfHeader || b.length < 30) = true
  · rw [if_pos hstarts]
    refine iff_of_false Bool.false_ne_true fun ⟨hheader, hlong, _⟩ => ?_
    rw [Bool.or_eq_true, Bool.not_eq_true', decide_eq_true_eq] at hstarts
    rcases hstarts with hno | hshort
    · have hyes : sigAt b 0 kAsfHeader = true := List.isPrefixOf_iff_prefix.mpr hheader
      exact Bool.false_ne_true (hno.symm.trans hyes)
    · omega
  · rw [if_neg hstarts]
    rw [Bool.or_eq_true, Bool.not_eq_true', decide_eq_true_eq, not_or, Bool.not_eq_false] at hstarts
    obtain ⟨hheader, hlong⟩ := hstarts
    have hprefixed : kAsfHeader <+: b := List.isPrefixOf_iff_prefix.mp hheader
    rw [and_iff_right hprefixed, and_iff_right (by omega), header, ← le64_eq (by omega)]
    by_cases hoff : 30 ≤ min (le64 b 16) b.length
    · rw [lureFrom_iff (Nat.min_le_right _ _) hoff, rest, ← List.take_eq_take_min]
    · rw [lureFrom, dif_neg (by omega)]
      refine iff_of_false Bool.false_ne_true ?_
      rintro ⟨objects, guid, tail, hrest, -, htail⟩
      have hsum := congrArg List.length hrest
      rw [List.length_append, List.length_append, List.length_drop, List.length_take] at hsum
      omega

end Grammar

end BATorrent.MediaSniff
