import BATorrent.Ipc.Protocol
import BATorrent.Lib.Text
import Mathlib.Tactic.NormNum

namespace BATorrent.StreamMap

open Lib
open Lib.DataStream
open Protocol (Frame Kind)

def text (s : List Char) : QString := s.map fun c => UInt16.ofNat c.toNat

def number (n : Int) : QString :=
  text (if n < 0 then '-' :: Nat.toDigits 10 n.natAbs else Nat.toDigits 10 n.natAbs)

def colon : UInt16 := 58

-- The names the two processes use.
def streamGeometryName : QString :=
  text ['s', 't', 'r', 'e', 'a', 'm', 'G', 'e', 'o', 'm', 'e', 't', 'r', 'y']
def pieceFinishedName : QString :=
  text ['p', 'i', 'e', 'c', 'e', 'F', 'i', 'n', 'i', 's', 'h', 'e', 'd']
def snapshotName : QString := text ['s', 'n', 'a', 'p', 's', 'h', 'o', 't']
def torrentRemovedName : QString :=
  text ['t', 'o', 'r', 'r', 'e', 'n', 't', 'R', 'e', 'm', 'o', 'v', 'e', 'd']
def pieceSizeName : QString := text ['p', 'i', 'e', 'c', 'e', 'S', 'i', 'z', 'e']
def fileOffsetName : QString := text ['f', 'i', 'l', 'e', 'O', 'f', 'f', 's', 'e', 't']
def fileSizeName : QString := text ['f', 'i', 'l', 'e', 'S', 'i', 'z', 'e']
def haveName : QString := text ['h', 'a', 'v', 'e']

structure StreamGeo where
  pieceSize : Int
  fileOffset : Int
  fileSize : Int
  have_ : List Bool
deriving DecidableEq

-- The kinds of value the map holds.
inductive Variant where
  | longLong (n : Int)
  | bitArray (bits : List Bool)
deriving DecidableEq

def Variant.toLongLong : Variant → Int
  | .longLong n => n
  | .bitArray _ => 0

def Variant.toBitArray : Variant → List Bool
  | .longLong _ => []
  | .bitArray bits => bits

def kLongLong : Nat := 4
def kBitArray : Nat := 13

-- The type, a flag for null, the value.
def putVariant : Variant → Bytes
  | .longLong n => putBE 4 kLongLong ++ (putBE 1 0 ++ putInt 8 n)
  | .bitArray bits => putBE 4 kBitArray ++ (putBE 1 0 ++ putBitArray bits)

def getVariant : Reader Variant :=
  (getBE 4 0).bind fun type => (getBE 1 0).bind fun _ =>
    if type = kLongLong then (getInt 8).map .longLong
    else if type = kBitArray then getBitArray.map .bitArray
    else fun _ => none

abbrev VariantMap := List (QString × Variant)

def putEntry (e : QString × Variant) : Bytes := putString e.1 ++ putVariant e.2

def putVariantMap (m : VariantMap) : Bytes := putBE 4 m.length ++ m.flatMap putEntry

def getEntry : Reader (QString × Variant) :=
  getString.bind fun key => getVariant.map fun v => (key, v)

def getEntries : Nat → Reader VariantMap
  | 0, bs => some ([], bs)
  | n + 1, bs => (getEntry.bind fun e => (getEntries n).map (e :: ·)) bs

def getVariantMap : Reader VariantMap := (getBE 4 0).bind getEntries

-- A value that does not read leaves the default.
def read {α : Type} (get : Reader α) (default : α) (bs : Bytes) : α × Bytes := (get bs).getD (default, [])

def value (m : VariantMap) (key : QString) (default : Variant) : Variant := (m.lookup key).getD default

-- The keys of a map are sorted.
def StreamGeo.toMap (g : StreamGeo) : VariantMap :=
  [(fileOffsetName, .longLong g.fileOffset), (fileSizeName, .longLong g.fileSize),
    (haveName, .bitArray g.have_), (pieceSizeName, .longLong g.pieceSize)]

def geometryOf (blob : Bytes) : Option StreamGeo :=
  let m := (read getVariantMap [] blob).1
  if m = [] then none
  else
    some {
      pieceSize := (value m pieceSizeName (.longLong 0)).toLongLong
      fileOffset := (value m fileOffsetName (.longLong 0)).toLongLong
      fileSize := (value m fileSizeName (.longLong 0)).toLongLong
      have_ := (value m haveName (.bitArray [])).toBitArray }

def requestFrame (id : UInt32) (method : QString) (args : Bytes) : Frame where
  kind := Kind.request.code
  payload := putU32 id ++ (putString method ++ putByteArray args)

def replyFrame (id : UInt32) (blob : Bytes) : Frame where
  kind := Kind.reply.code
  payload := putU32 id ++ putByteArray blob

def eventFrame (name : QString) (args : Bytes) : Frame where
  kind := Kind.event.code
  payload := putString name ++ putByteArray args

def readRequest (payload : Bytes) : UInt32 × QString × Bytes :=
  let id := read getU32 0 payload
  let method := read getString [] id.2
  let args := read getByteArray [] method.2
  (id.1, method.1, args.1)

def readReply (payload : Bytes) : UInt32 × Bytes :=
  let id := read getU32 0 payload
  let blob := read getByteArray [] id.2
  (id.1, blob.1)

def readEvent (payload : Bytes) : QString × Bytes :=
  let name := read getString [] payload
  let args := read getByteArray [] name.2
  (name.1, args.1)

def putRow (row file : Int) : Bytes := putInt 4 row ++ putInt 4 file

def readRow (args : Bytes) : Int × Int :=
  let row := read (getInt 4) 0 args
  let file := read (getInt 4) 0 row.2
  (row.1, file.1)

def putPiece (hash : QString) (piece : Int) : Bytes := putString hash ++ putInt 4 piece

def readPiece (args : Bytes) : QString × Int :=
  let hash := read getString [] args
  let piece := read (getInt 4) 0 hash.2
  (hash.1, piece.1)

theorem read_of_reads {α : Type} {get : Reader α} {written : Bytes} {a : α}
    (h : Reads get written a) (default : α) (rest : Bytes) :
    read get default (written ++ rest) = (a, rest) := by
  rw [read, h rest]
  rfl

theorem read_of_reads_nil {α : Type} {get : Reader α} {written : Bytes} {a : α}
    (h : Reads get written a) (default : α) : read get default written = (a, []) := by
  have := read_of_reads h default []
  rwa [List.append_nil] at this

section Numbers

theorem reads_putInt32 {n : Int} (hlo : -(2 ^ 31) ≤ n) (hhi : n < 2 ^ 31) :
    Reads (getInt 4) (putInt 4 n) n := reads_putInt (by norm_num; omega) (by norm_num; omega)

theorem reads_putInt64 {n : Int} (hlo : -(2 ^ 63) ≤ n) (hhi : n < 2 ^ 63) :
    Reads (getInt 8) (putInt 8 n) n := reads_putInt (by norm_num; omega) (by norm_num; omega)

theorem readRow_putRow {row file : Int} (hrow : 0 ≤ row ∧ row < 2 ^ 31)
    (hfile : -(2 ^ 31) ≤ file ∧ file < 2 ^ 31) : readRow (putRow row file) = (row, file) := by
  have hr := reads_putInt32 (by omega : -(2 ^ 31) ≤ row) hrow.2
  have hf := reads_putInt32 hfile.1 hfile.2
  rw [readRow, putRow, read_of_reads hr]
  simp only [read_of_reads_nil hf]

end Numbers

section Geometry

def Variant.Sized : Variant → Prop
  | .longLong n => -(2 ^ 63) ≤ n ∧ n < 2 ^ 63
  | .bitArray bits => bits.length < 2 ^ 64

theorem reads_putVariant {v : Variant} (h : v.Sized) : Reads getVariant (putVariant v) v := by
  have hnull := reads_putBE (k := 1) (n := 0) (by decide)
  cases v with
  | longLong n =>
      refine (reads_putBE (k := 4) (n := kLongLong) (by decide)).bind (hnull.bind ?_)
      rw [if_pos rfl]
      exact (reads_putInt64 h.1 h.2).map Variant.longLong
  | bitArray bits =>
      refine (reads_putBE (k := 4) (n := kBitArray) (by decide)).bind (hnull.bind ?_)
      rw [if_neg (by decide), if_pos rfl]
      exact (reads_putBitArray h).map Variant.bitArray

theorem reads_putVariantMap {m : VariantMap} (hlen : m.length < 2 ^ 32)
    (h : ∀ e ∈ m, 2 * e.1.length < kNull ∧ e.2.Sized) :
    Reads getVariantMap (putVariantMap m) m := by
  refine (reads_putBE (k := 4) hlen).bind ?_
  clear hlen
  induction m with
  | nil => exact fun rest => rfl
  | cons e m ih =>
      obtain ⟨hkey, hvalue⟩ := h e List.mem_cons_self
      have hentry : Reads getEntry (putEntry e) e :=
        (reads_putString hkey).bind ((reads_putVariant hvalue).map fun v => (e.1, v))
      have hrest := ih fun e' he' => h e' (List.mem_cons_of_mem e he')
      exact hentry.bind (f := fun e => (getEntries m.length).map (e :: ·)) (hrest.map (e :: ·))

structure StreamGeo.Sized (g : StreamGeo) : Prop where
  pieceSize : -(2 ^ 63) ≤ g.pieceSize ∧ g.pieceSize < 2 ^ 63
  fileOffset : -(2 ^ 63) ≤ g.fileOffset ∧ g.fileOffset < 2 ^ 63
  fileSize : -(2 ^ 63) ≤ g.fileSize ∧ g.fileSize < 2 ^ 63
  have_ : g.have_.length < 2 ^ 64

-- The map that was sent is the map that is kept.
theorem geometryOf_putVariantMap {g : StreamGeo} (h : g.Sized) :
    geometryOf (putVariantMap g.toMap) = some g := by
  have hreads : Reads getVariantMap (putVariantMap g.toMap) g.toMap := by
    refine reads_putVariantMap (by simp [StreamGeo.toMap]) ?_
    intro e he
    simp only [StreamGeo.toMap, List.mem_cons, List.not_mem_nil, or_false] at he
    rcases he with rfl | rfl | rfl | rfl
    · exact ⟨(by decide : 2 * fileOffsetName.length < kNull), h.fileOffset⟩
    · exact ⟨(by decide : 2 * fileSizeName.length < kNull), h.fileSize⟩
    · exact ⟨(by decide : 2 * haveName.length < kNull), h.have_⟩
    · exact ⟨(by decide : 2 * pieceSizeName.length < kNull), h.pieceSize⟩
  rw [geometryOf, read_of_reads_nil hreads]
  rfl

theorem geometryOf_empty : geometryOf (putVariantMap []) = none := by decide

end Geometry

section Frames

theorem two_mul_lt_of_putString {s : QString} (rest : Bytes) {n : Nat}
    (h : (putString s ++ rest).length + 1 ≤ n) : 2 * s.length < n := by
  rw [List.length_append, putString] at h
  split_ifs at h with hs
  · simp [hs]
    omega
  · have hunits : (putUnits s).length = 2 * s.length := by
      rw [putUnits, List.length_flatMap]
      simp [Nat.mul_comm]
    rw [List.length_append, hunits] at h
    omega

theorem length_lt_of_putByteArray {b : Bytes} (rest : Bytes) {n : Nat}
    (h : (putByteArray b ++ rest).length + 1 ≤ n) : b.length < n := by
  rw [List.length_append, putByteArray] at h
  split_ifs at h with hb
  · simp [hb]
    omega
  · rw [List.length_append] at h
    omega

theorem kMaxFrameBytes_lt : Protocol.kMaxFrameBytes < kNull := by decide

theorem reads_putString_of_fits {s : QString} (rest : Bytes)
    (h : (putString s ++ rest).length + 1 ≤ Protocol.kMaxFrameBytes) :
    Reads getString (putString s) s :=
  reads_putString (Nat.lt_trans (two_mul_lt_of_putString rest h) kMaxFrameBytes_lt)

theorem reads_putByteArray_of_fits {b : Bytes}
    (h : (putByteArray b).length + 1 ≤ Protocol.kMaxFrameBytes) :
    Reads getByteArray (putByteArray b) b := by
  refine reads_putByteArray (Nat.lt_trans ?_ kMaxFrameBytes_lt)
  exact length_lt_of_putByteArray [] (by rwa [List.append_nil])

theorem readRequest_requestFrame {id : UInt32} {method : QString} {args : Bytes}
    (h : (requestFrame id method args).Fits) :
    readRequest (requestFrame id method args).payload = (id, method, args) := by
  simp only [Frame.Fits, requestFrame, List.length_append] at h
  have hmethod := reads_putString_of_fits (s := method) (putByteArray args)
    (by rw [List.length_append]; omega)
  have hargs := reads_putByteArray_of_fits (b := args) (by omega)
  rw [requestFrame, readRequest, read_of_reads (reads_putU32 id)]
  simp only [read_of_reads hmethod, read_of_reads_nil hargs]

theorem readReply_replyFrame {id : UInt32} {blob : Bytes} (h : (replyFrame id blob).Fits) :
    readReply (replyFrame id blob).payload = (id, blob) := by
  simp only [Frame.Fits, replyFrame, List.length_append] at h
  have hblob := reads_putByteArray_of_fits (b := blob) (by omega)
  rw [replyFrame, readReply, read_of_reads (reads_putU32 id)]
  simp only [read_of_reads_nil hblob]

theorem readEvent_eventFrame {name : QString} {args : Bytes} (h : (eventFrame name args).Fits) :
    readEvent (eventFrame name args).payload = (name, args) := by
  simp only [Frame.Fits, eventFrame] at h
  have hname := reads_putString_of_fits _ h
  rw [List.length_append] at h
  have hargs := reads_putByteArray_of_fits (b := args) (by omega)
  rw [eventFrame, readEvent, read_of_reads hname]
  simp only [read_of_reads_nil hargs]

theorem readPiece_putPiece {hash : QString} {piece : Int}
    (h : (eventFrame pieceFinishedName (putPiece hash piece)).Fits) (hpiece : 0 ≤ piece ∧ piece < 2 ^ 31) :
    readPiece (putPiece hash piece) = (hash, piece) := by
  simp only [Frame.Fits, eventFrame, List.length_append] at h
  have hargs := length_lt_of_putByteArray (b := putPiece hash piece) [] (n := Protocol.kMaxFrameBytes)
    (by rw [List.append_nil]; omega)
  have hhash := reads_putString_of_fits (putInt 4 piece) hargs
  have hp := reads_putInt32 (by omega : -(2 ^ 31) ≤ piece) hpiece.2
  rw [readPiece, putPiece, read_of_reads hhash]
  simp only [read_of_reads_nil hp]

theorem length_putString_le (s : QString) : (putString s).length ≤ 4 + 2 * s.length := by
  rw [putString]
  split_ifs
  · simp
  · have hunits : (putUnits s).length = 2 * s.length := by
      rw [putUnits, List.length_flatMap]
      simp [Nat.mul_comm]
    rw [List.length_append, hunits, length_putBE]

theorem length_putByteArray_le (b : Bytes) : (putByteArray b).length ≤ 4 + b.length := by
  rw [putByteArray]
  split_ifs
  · simp
  · rw [List.length_append, length_putBE]

theorem length_putInt (k : Nat) (n : Int) : (putInt k n).length = k := length_putBE k _

theorem fits_pieceFinished {hash : QString} (h : hash.length ≤ 64) (piece : Int) :
    (eventFrame pieceFinishedName (putPiece hash piece)).Fits := by
  have hname : (putString pieceFinishedName).length = 30 := by decide
  have hhash := length_putString_le hash
  have hargs := length_putByteArray_le (putPiece hash piece)
  rw [putPiece, List.length_append, length_putInt] at hargs
  simp only [Frame.Fits, eventFrame, List.length_append, hname, Protocol.kMaxFrameBytes]
  rw [putPiece]
  omega

theorem fits_streamGeometry (id : UInt32) (row file : Int) :
    (requestFrame id streamGeometryName (putRow row file)).Fits := by
  have hname : (putString streamGeometryName).length = 32 := by decide
  have hargs := length_putByteArray_le (putRow row file)
  rw [putRow, List.length_append, length_putInt, length_putInt] at hargs
  simp only [Frame.Fits, requestFrame, List.length_append, hname, Protocol.kMaxFrameBytes, putU32,
    length_putBE]
  rw [putRow]
  omega

theorem fits_replyFrame {id id' : UInt32} {blob : Bytes} (h : (replyFrame id blob).Fits) :
    (replyFrame id' blob).Fits := by
  simpa [Frame.Fits, replyFrame, putU32] using h

theorem fits_requestFrame {id id' : UInt32} {method : QString} {args : Bytes}
    (h : (requestFrame id method args).Fits) : (requestFrame id' method args).Fits := by
  simpa [Frame.Fits, requestFrame, putU32] using h

theorem fits_geometry {g : StreamGeo} (h : g.have_.length < 2 ^ 28) (id : UInt32) :
    (replyFrame id (putVariantMap g.toMap)).Fits := by
  have hblob := length_putByteArray_le (putVariantMap g.toMap)
  have hmap : (putVariantMap g.toMap).length ≤ 200 + (g.have_.length + 7) / 8 := by
    have h₁ : (putString fileOffsetName).length = 24 := by decide
    have h₂ : (putString fileSizeName).length = 20 := by decide
    have h₃ : (putString haveName).length = 12 := by decide
    have h₄ : (putString pieceSizeName).length = 22 := by decide
    simp only [putVariantMap, StreamGeo.toMap, List.flatMap_cons, List.flatMap_nil, putEntry,
      putVariant, putBitArray, List.length_append, length_putBE, length_putInt, length_packBits,
      h₁, h₂, h₃, h₄, List.length_nil]
    omega
  simp only [Frame.Fits, replyFrame, List.length_append, Protocol.kMaxFrameBytes, putU32, length_putBE]
  omega

theorem fits_empty (id : UInt32) : (replyFrame id (putVariantMap [])).Fits := by
  have hzero : (replyFrame 0 (putVariantMap [])).Fits := by decide
  exact fits_replyFrame hzero

end Frames

section Keys

theorem toNat_lt_of_mem_number {n : Int} {c : Char} (h : c ∈ Text.number n) : c.toNat < 58 := by
  rcases Text.mem_number h with rfl | hdigit
  · decide
  · simp only [Char.isDigit, Bool.and_eq_true, decide_eq_true_eq] at hdigit
    have hhi : c.toNat ≤ 57 := hdigit.2
    omega

theorem toNat_ofNat_of_mem_number {n : Int} {c : Char} (h : c ∈ Text.number n) :
    (UInt16.ofNat c.toNat).toNat = c.toNat := by
  have hlt := toNat_lt_of_mem_number h
  rw [UInt16.toNat_ofNat']
  exact Nat.mod_eq_of_lt (by omega)

theorem colon_notMem_number (n : Int) : colon ∉ number n := by
  intro hmem
  obtain ⟨c, hc, heq⟩ := List.mem_map.mp hmem
  have hlt := toNat_lt_of_mem_number hc
  have hval : c.toNat = 58 := (toNat_ofNat_of_mem_number hc).symm.trans (congrArg UInt16.toNat heq)
  omega

theorem number_injective : Function.Injective number := by
  have hback : ∀ n, (number n).map (fun u => Char.ofNat u.toNat) = Text.number n := by
    intro n
    have hmap : number n = (Text.number n).map fun c => UInt16.ofNat c.toNat := rfl
    rw [hmap, List.map_map]
    refine (List.map_congr_left fun c hc => ?_).trans (List.map_id _)
    rw [Function.comp_apply, toNat_ofNat_of_mem_number hc]
    exact Char.ofNat_toNat c
  intro m n h
  exact Text.number_injective ((hback m).symm.trans ((congrArg _ h).trans (hback n)))

theorem append_cons_left_eq {α : Type*} {a b s t : List α} {c : α} (ha : c ∉ a) (hb : c ∉ b)
    (h : s ++ c :: a = t ++ c :: b) : s = t := by
  rcases List.append_eq_append_iff.mp h with ⟨m, rfl, hm⟩ | ⟨m, rfl, hm⟩
  · cases m with
    | nil => simp
    | cons x m =>
        rw [List.cons_append, List.cons.injEq] at hm
        exact absurd (hm.2 ▸ List.mem_append_right m List.mem_cons_self) ha
  · cases m with
    | nil => simp
    | cons x m =>
        rw [List.cons_append, List.cons.injEq] at hm
        exact absurd (hm.2 ▸ List.mem_append_right m List.mem_cons_self) hb

end Keys

end BATorrent.StreamMap
