import BATorrent.Lib.ByteText
import BATorrent.Lib.LittleEndian
import BATorrent.Lib.Utf8
import BATorrent.Lib.Checked

namespace BATorrent.SettingsBackup

open Lib
open Lib.DataStream (Bytes)
open Lib.ByteText (ascii)

abbrev Text := List Char

def kMagic : Bytes := ascii "BATBACKUP1\n"

def kMaxNameLen : Nat := 4096

def kMaxPayloadLen : Nat := 1073741824

-- The machine's own order, the low byte first.
def number (bytes : Bytes) : Nat := bytes.foldr (fun byte value => byte.toNat + 256 * value) 0

def entriesFrom (fromUtf8 : Bytes → Text) : Nat → Bytes → Option (List (Text × Bytes))
  | 0, _ => some []
  | count + 1, p =>
      if p.length < 4 then none
      else
        let nl := number (p.take 4)
        let p := p.drop 4
        if kMaxNameLen < nl ∨ p.length < nl then none
        else
          let name := fromUtf8 (p.take nl)
          let p := p.drop nl
          if p.length < 8 then none
          else
            let dl := number (p.take 8)
            let p := p.drop 8
            if kMaxPayloadLen < dl ∨ p.length < dl then none
            else (entriesFrom fromUtf8 count (p.drop dl)).map ((name, p.take dl) :: ·)

-- None where the archive is refused as a whole.
def unpack (fromUtf8 : Bytes → Text) (data : Bytes) : Option (List (Text × Bytes)) :=
  if !kMagic.isPrefixOf data then none
  else
    let p := data.drop kMagic.length
    if p.length < 4 then none else entriesFrom fromUtf8 (number (p.take 4)) (p.drop 4)

def pack (entries : List (Text × Bytes)) : Bytes :=
  kMagic ++ LittleEndian.bytes 4 entries.length ++ entries.flatMap fun e =>
    let nb := Utf8.encode e.1
    LittleEndian.bytes 4 nb.length ++ nb ++ LittleEndian.bytes 8 e.2.length ++ e.2

end BATorrent.SettingsBackup

namespace BATorrent.SettingsBackup

open Lib
open Lib.DataStream (Bytes)

theorem number_eq (bs : Bytes) : number bs = LittleEndian.value bs := rfl

section Grammar

-- What the format allows an entry to be.
structure Frame where
  name : Bytes
  payload : Bytes
  name_le : name.length ≤ kMaxNameLen
  payload_le : payload.length ≤ kMaxPayloadLen

namespace Frame

def bytes (f : Frame) : Bytes :=
  LittleEndian.bytes 4 f.name.length ++
    (f.name ++ (LittleEndian.bytes 8 f.payload.length ++ f.payload))

def entry (fromUtf8 : Bytes → Text) (f : Frame) : Text × Bytes := (fromUtf8 f.name, f.payload)

theorem length_bytes (f : Frame) : f.bytes.length = 12 + f.name.length + f.payload.length := by
  rw [bytes, List.length_append, List.length_append, List.length_append, LittleEndian.length_bytes,
    LittleEndian.length_bytes]
  omega

theorem value_name (f : Frame) : number (LittleEndian.bytes 4 f.name.length) = f.name.length := by
  have hle := f.name_le
  unfold kMaxNameLen at hle
  rw [number_eq, LittleEndian.value_bytes_of_lt (by omega)]

theorem value_payload (f : Frame) : number (LittleEndian.bytes 8 f.payload.length) = f.payload.length := by
  have hle := f.payload_le
  unfold kMaxPayloadLen at hle
  rw [number_eq, LittleEndian.value_bytes_of_lt (by omega)]

end Frame

def archive (frames : List Frame) : Bytes :=
  kMagic ++ (LittleEndian.bytes 4 frames.length ++ frames.flatMap Frame.bytes)

variable {fromUtf8 : Bytes → Text} {count : Nat} {p : Bytes} {es : List (Text × Bytes)}

theorem entriesFrom_frame (f : Frame) (tail : Bytes) :
    entriesFrom fromUtf8 (count + 1) (f.bytes ++ tail) =
      (entriesFrom fromUtf8 count tail).map (f.entry fromUtf8 :: ·) := by
  have hlen := f.length_bytes
  have hname := f.name_le
  have hpayload := f.payload_le
  have hnl : (f.bytes ++ tail).take 4 = LittleEndian.bytes 4 f.name.length := by
    rw [Frame.bytes, List.append_assoc, List.take_left' (LittleEndian.length_bytes 4 _)]
  have hafter : (f.bytes ++ tail).drop 4 =
      f.name ++ (LittleEndian.bytes 8 f.payload.length ++ (f.payload ++ tail)) := by
    rw [Frame.bytes, List.append_assoc, List.drop_left' (LittleEndian.length_bytes 4 _), List.append_assoc,
      List.append_assoc]
  have hlong : 4 ≤ (f.bytes ++ tail).length := by
    rw [List.length_append]
    omega
  rw [entriesFrom, if_neg (by omega)]
  dsimp only
  rw [hnl, f.value_name, hafter, List.take_left, List.drop_left]
  rw [if_neg (by rw [List.length_append]; omega)]
  rw [if_neg (by rw [List.length_append, LittleEndian.length_bytes]; omega)]
  rw [List.take_left' (LittleEndian.length_bytes 8 _), List.drop_left' (LittleEndian.length_bytes 8 _),
    f.value_payload]
  rw [if_neg (by rw [List.length_append]; omega), List.take_left, List.drop_left]
  rfl

theorem exists_frame (hnl : 4 ≤ p.length) (hname : number (p.take 4) ≤ kMaxNameLen)
    (hdl : number (p.take 4) + 8 ≤ (p.drop 4).length)
    (hmax : number (((p.drop 4).drop (number (p.take 4))).take 8) ≤ kMaxPayloadLen)
    (hpayload : number (((p.drop 4).drop (number (p.take 4))).take 8) ≤
      (((p.drop 4).drop (number (p.take 4))).drop 8).length) :
    ∃ f : Frame, ∃ tail, p = f.bytes ++ tail := by
  generalize hq : p.drop 4 = q at hdl hmax hpayload
  generalize hn : number (p.take 4) = nl at hname hdl hmax hpayload
  generalize hr : q.drop nl = r at hmax hpayload
  generalize hd : number (r.take 8) = dl at hmax hpayload
  have hlenq : (q.take nl).length = nl := List.length_take_of_le (by omega)
  have hlenr : (r.drop 8 |>.take dl).length = dl := List.length_take_of_le hpayload
  have hrlen : 8 ≤ r.length := by
    rw [← hr, List.length_drop]
    omega
  refine ⟨⟨q.take nl, (r.drop 8).take dl, by omega, by omega⟩, (r.drop 8).drop dl, ?_⟩
  have hnbytes : LittleEndian.bytes 4 nl = p.take 4 := by
    have hround := LittleEndian.bytes_value (p.take 4)
    rwa [List.length_take_of_le hnl, ← number_eq, hn] at hround
  have hdbytes : LittleEndian.bytes 8 dl = r.take 8 := by
    have hround := LittleEndian.bytes_value (r.take 8)
    rwa [List.length_take_of_le hrlen, ← number_eq, hd] at hround
  unfold Frame.bytes
  dsimp only
  rw [hlenq, hlenr, hnbytes, hdbytes, List.append_assoc, List.append_assoc, List.append_assoc,
    List.take_append_drop, List.take_append_drop, ← hr, List.take_append_drop, ← hq, List.take_append_drop]

-- Where no entry comes next, there is no archive.
theorem entriesFrom_none (h : ∀ (f : Frame) tail, p ≠ f.bytes ++ tail) :
    entriesFrom fromUtf8 (count + 1) p = none := by
  rw [entriesFrom]
  dsimp only
  by_cases hnl : p.length < 4
  · exact if_pos hnl
  · rw [if_neg hnl]
    by_cases hname : kMaxNameLen < number (p.take 4) ∨ (p.drop 4).length < number (p.take 4)
    · exact if_pos hname
    · rw [if_neg hname]
      by_cases hdl : ((p.drop 4).drop (number (p.take 4))).length < 8
      · exact if_pos hdl
      · rw [if_neg hdl]
        refine if_pos ?_
        by_contra hpayload
        rw [List.length_drop] at hdl
        obtain ⟨f, tail, heq⟩ := exists_frame (by omega) (by omega) (by omega)
          (not_lt.mp fun hlt => hpayload (.inl hlt)) (not_lt.mp fun hlt => hpayload (.inr hlt))
        exact h f tail heq

theorem entriesFrom_iff : entriesFrom fromUtf8 count p = some es ↔
    ∃ (frames : List Frame) (tail : Bytes), frames.length = count ∧ p = frames.flatMap Frame.bytes ++ tail ∧
      es = frames.map (Frame.entry fromUtf8) := by
  induction count generalizing p es with
  | zero =>
      rw [entriesFrom, Option.some_inj]
      constructor
      · rintro rfl
        exact ⟨[], p, rfl, rfl, rfl⟩
      · rintro ⟨frames, tail, hlen, -, rfl⟩
        rw [List.eq_nil_of_length_eq_zero hlen]
        rfl
  | succ count ih =>
      by_cases hframe : ∃ f : Frame, ∃ tail, p = f.bytes ++ tail
      · obtain ⟨f, rest, rfl⟩ := hframe
        rw [entriesFrom_frame, Option.map_eq_some_iff]
        constructor
        · rintro ⟨es, hes, rfl⟩
          obtain ⟨frames, tail, hlen, rfl, rfl⟩ := ih.mp hes
          refine ⟨f :: frames, tail, by rw [List.length_cons, hlen], ?_, rfl⟩
          rw [List.flatMap_cons, List.append_assoc]
        · rintro ⟨frames, tail, hlen, hp, rfl⟩
          have hread : entriesFrom fromUtf8 (count + 1) (frames.flatMap Frame.bytes ++ tail) =
              (entriesFrom fromUtf8 count rest).map (f.entry fromUtf8 :: ·) := by
            rw [← hp, entriesFrom_frame]
          cases frames with
          | nil => exact absurd hlen (Nat.succ_ne_zero _).symm
          | cons f' frames =>
              rw [List.flatMap_cons, List.append_assoc, entriesFrom_frame] at hread
              rw [ih.mpr ⟨frames, tail, Nat.succ_inj.mp hlen, rfl, rfl⟩] at hread
              exact Option.map_eq_some_iff.mp hread.symm
      · rw [entriesFrom_none fun f tail heq => hframe ⟨f, tail, heq⟩]
        refine iff_of_false nofun ?_
        rintro ⟨frames, tail, hlen, hp, -⟩
        cases frames with
        | nil => exact absurd hlen (Nat.succ_ne_zero _).symm
        | cons f frames =>
            rw [List.flatMap_cons, List.append_assoc] at hp
            exact hframe ⟨f, _, hp⟩

-- What is unpacked is a well-formed archive, whatever comes after it.
theorem unpack_iff {data : Bytes} : unpack fromUtf8 data = some es ↔
    ∃ (frames : List Frame) (tail : Bytes), frames.length < 2 ^ 32 ∧ data = archive frames ++ tail ∧
      es = frames.map (Frame.entry fromUtf8) := by
  have hmagic : kMagic.length = 11 := by decide
  unfold unpack
  constructor
  · intro h
    by_cases hstarts : kMagic.isPrefixOf data = true
    · rw [hstarts, Bool.not_true, if_neg Bool.false_ne_true] at h
      dsimp only at h
      by_cases hshort : (data.drop kMagic.length).length < 4
      · rw [if_pos hshort] at h
        contradiction
      · rw [if_neg hshort] at h
        obtain ⟨frames, tail, hcount, htail, rfl⟩ := entriesFrom_iff.mp h
        obtain ⟨rest, rfl⟩ := List.isPrefixOf_iff_prefix.mp hstarts
        rw [List.drop_left] at hshort hcount htail
        have hlen : (rest.take 4).length = 4 := List.length_take_of_le (by omega)
        have hbytes := LittleEndian.bytes_value (rest.take 4)
        rw [hlen, ← number_eq, ← hcount] at hbytes
        refine ⟨frames, tail, ?_, ?_, rfl⟩
        · have hlt := LittleEndian.value_lt (rest.take 4)
          rw [hlen, ← number_eq, ← hcount] at hlt
          exact hlt
        · rw [archive, List.append_assoc, List.append_assoc, hbytes, ← htail, List.take_append_drop]
    · rw [Bool.not_eq_true] at hstarts
      rw [hstarts, Bool.not_false, if_pos rfl] at h
      contradiction
  · rintro ⟨frames, tail, hcount, rfl, rfl⟩
    have hstarts : kMagic.isPrefixOf (archive frames ++ tail) = true := by
      rw [List.isPrefixOf_iff_prefix, archive, List.append_assoc]
      exact List.prefix_append _ _
    have hrest : (archive frames ++ tail).drop kMagic.length =
        LittleEndian.bytes 4 frames.length ++ (frames.flatMap Frame.bytes ++ tail) := by
      rw [archive, List.append_assoc, List.drop_left, List.append_assoc]
    have hread : number (LittleEndian.bytes 4 frames.length) = frames.length := by
      rw [number_eq, LittleEndian.value_bytes_of_lt (by omega)]
    rw [hstarts, Bool.not_true, if_neg Bool.false_ne_true]
    dsimp only
    rw [hrest, if_neg (by rw [List.length_append, LittleEndian.length_bytes]; omega),
      List.take_left' (LittleEndian.length_bytes 4 _), List.drop_left' (LittleEndian.length_bytes 4 _), hread]
    exact entriesFrom_iff.mpr ⟨frames, tail, rfl, rfl, rfl⟩

end Grammar

section RoundTrip

variable {entries : List (Text × Bytes)}

def EntryFits (e : Text × Bytes) : Prop :=
  (Utf8.encode e.1).length ≤ kMaxNameLen ∧ e.2.length ≤ kMaxPayloadLen

def frameOf (e : Text × Bytes) (h : EntryFits e) : Frame := ⟨Utf8.encode e.1, e.2, h.1, h.2⟩

theorem pack_eq (h : ∀ e ∈ entries, EntryFits e) :
    pack entries = archive (entries.pmap frameOf h) := by
  have hbody : (entries.flatMap fun e =>
      LittleEndian.bytes 4 (Utf8.encode e.1).length ++ Utf8.encode e.1 ++ LittleEndian.bytes 8 e.2.length ++ e.2) =
      (entries.pmap frameOf h).flatMap Frame.bytes := by
    induction entries with
    | nil => rfl
    | cons e entries ih =>
        rw [List.flatMap_cons, List.pmap, List.flatMap_cons, ih fun e he => h e (List.mem_cons_of_mem _ he),
          frameOf, Frame.bytes]
        simp only [List.append_assoc]
  rw [pack, archive, List.length_pmap, ← hbody, List.append_assoc]

theorem unpack_pack (fromUtf8 : Bytes → Text) (hcount : entries.length < 2 ^ 32)
    (h : ∀ e ∈ entries, EntryFits e) :
    unpack fromUtf8 (pack entries) = some (entries.map fun e => (fromUtf8 (Utf8.encode e.1), e.2)) := by
  refine unpack_iff.mpr ⟨entries.pmap frameOf h, [], by rwa [List.length_pmap], ?_, ?_⟩
  · rw [pack_eq h, List.append_nil]
  · rw [List.map_pmap]
    exact (List.pmap_eq_map _).symm

end RoundTrip

section Reads

open Lib.Checked

-- The same functions with each read checked, what is asked for before the first entry, and what is appended
-- whether or not it is returned.
structure Unpacking where
  reserved : Option Int
  appended : List (Text × Bytes)
  ok : Bool

def Unpacking.result (u : Unpacking) : Option (List (Text × Bytes)) := if u.ok then some u.appended else none

def asInt (n : Nat) : Int := if n < 2147483648 then n else n - 4294967296

def entriesChecked (fromUtf8 : Bytes → Text) (data : Bytes) :
    Nat → Nat → List (Text × Bytes) → Checked (List (Text × Bytes) × Bool)
  | 0, _, out => return (out, true)
  | count + 1, p, out =>
      if (data.length : Int) - p < 4 then return (out, false)
      else do
        let nl := LittleEndian.value (← load data p 4)
        let p := p + 4
        if kMaxNameLen < nl ∨ (data.length : Int) - p < nl then return (out, false)
        else
          let name ← load data p nl
          let p := p + nl
          if (data.length : Int) - p < 8 then return (out, false)
          else
            let dl := LittleEndian.value (← load data p 8)
            let p := p + 8
            if kMaxPayloadLen < dl ∨ (data.length : Int) - p < dl then return (out, false)
            else
              let payload ← load data p dl
              entriesChecked fromUtf8 data count (p + dl) (out ++ [(fromUtf8 name, payload)])

def unpackChecked (fromUtf8 : Bytes → Text) (data : Bytes) : Checked Unpacking :=
  if !kMagic.isPrefixOf data then return ⟨none, [], false⟩
  else if (data.length : Int) < kMagic.length + 4 then return ⟨none, [], false⟩
  else do
    let count := LittleEndian.value (← load data kMagic.length 4)
    let (appended, ok) ← entriesChecked fromUtf8 data count (kMagic.length + 4) []
    return ⟨some (asInt count), appended, ok⟩

variable {fromUtf8 : Bytes → Text} {data : Bytes} {count p : Nat} {out : List (Text × Bytes)}

theorem entriesChecked_frame (f : Frame) {tail : Bytes} (h : data.drop p = f.bytes ++ tail) :
    entriesChecked fromUtf8 data (count + 1) p out =
      entriesChecked fromUtf8 data count (p + f.bytes.length) (out ++ [f.entry fromUtf8]) := by
  have hlen := congrArg List.length h
  rw [List.length_drop, List.length_append, f.length_bytes] at hlen
  have hname := f.name_le
  have hpayload := f.payload_le
  have hafter : data.drop (p + 4) =
      f.name ++ (LittleEndian.bytes 8 f.payload.length ++ (f.payload ++ tail)) := by
    rw [← List.drop_drop, h, Frame.bytes, List.append_assoc, List.drop_left' (LittleEndian.length_bytes 4 _),
      List.append_assoc, List.append_assoc]
  have hlast : data.drop (p + 4 + f.name.length) =
      LittleEndian.bytes 8 f.payload.length ++ (f.payload ++ tail) := by
    rw [← List.drop_drop, hafter, List.drop_left]
  have hrest : data.drop (p + 4 + f.name.length + 8) = f.payload ++ tail := by
    rw [← List.drop_drop, hlast, List.drop_left' (LittleEndian.length_bytes 8 _)]
  have hnl : (data.drop p).take 4 = LittleEndian.bytes 4 f.name.length := by
    rw [h, Frame.bytes, List.append_assoc, List.take_left' (LittleEndian.length_bytes 4 _)]
  have hdl : (data.drop (p + 4 + f.name.length)).take 8 = LittleEndian.bytes 8 f.payload.length := by
    rw [hlast, List.take_left' (LittleEndian.length_bytes 8 _)]
  have hread : load data p 4 = .ok (LittleEndian.bytes 4 f.name.length) :=
    hnl ▸ load_eq data p 4 (by omega)
  have hreadName : load data (p + 4 : Nat) f.name.length = .ok f.name := by
    rw [load_eq data _ _ (by omega), hafter, List.take_left]
  have hreadLen : load data (p + 4 + f.name.length : Nat) 8 = .ok (LittleEndian.bytes 8 f.payload.length) :=
    hdl ▸ load_eq data (p + 4 + f.name.length) 8 (by omega)
  have hreadPayload : load data (p + 4 + f.name.length + 8 : Nat) f.payload.length = .ok f.payload := by
    rw [load_eq data _ _ (by omega), hrest, List.take_left]
  have hnext : p + f.bytes.length = p + 4 + f.name.length + 8 + f.payload.length := by
    rw [f.length_bytes]
    omega
  rw [entriesChecked, if_neg (by omega), hread]
  dsimp only [Except.bind, bind]
  rw [← number_eq, f.value_name, if_neg (by omega), hreadName]
  dsimp only
  rw [if_neg (by omega), hreadLen]
  dsimp only
  rw [← number_eq, f.value_payload, if_neg (by omega), hreadPayload, hnext]
  rfl

theorem entriesChecked_none (h : ∀ (f : Frame) tail, data.drop p ≠ f.bytes ++ tail) :
    entriesChecked fromUtf8 data (count + 1) p out = .ok (out, false) := by
  rw [entriesChecked]
  by_cases hnl : (data.length : Int) - p < 4
  · exact if_pos hnl
  · have hread : load data p 4 = .ok ((data.drop p).take 4) := load_eq data p 4 (by omega)
    rw [if_neg hnl, hread]
    dsimp only [Except.bind, bind]
    rw [← number_eq]
    by_cases hname : kMaxNameLen < number ((data.drop p).take 4) ∨
        (data.length : Int) - (p + 4 : Nat) < number ((data.drop p).take 4)
    · exact if_pos hname
    · generalize hn : number ((data.drop p).take 4) = nl at hname
      have hreadName : load data (p + 4 : Nat) nl = .ok ((data.drop (p + 4)).take nl) :=
        load_eq data _ _ (by omega)
      rw [if_neg hname, hreadName]
      dsimp only
      by_cases hdl : (data.length : Int) - (p + 4 + nl : Nat) < 8
      · exact if_pos hdl
      · have hreadLen : load data (p + 4 + nl : Nat) 8 = .ok ((data.drop (p + 4 + nl)).take 8) :=
          load_eq data _ 8 (by omega)
        rw [if_neg hdl, hreadLen]
        dsimp only
        rw [← number_eq]
        refine if_pos ?_
        by_contra hpayload
        have hdrop : ((data.drop p).drop 4).drop nl = data.drop (p + 4 + nl) := by
          rw [List.drop_drop, List.drop_drop, Nat.add_assoc]
        obtain ⟨f, tail, heq⟩ := exists_frame (p := data.drop p) (by rw [List.length_drop]; omega) (by omega)
          (by rw [List.length_drop, List.length_drop]; omega) (by rw [hn, hdrop]; omega)
          (by rw [hn, hdrop, List.length_drop, List.length_drop]; omega)
        exact h f tail heq

-- No read is out of the file, and nothing is appended that did not come out of twelve bytes or more.
theorem entriesChecked_eq (count p : Nat) (out : List (Text × Bytes)) (hp : p ≤ data.length) :
    ∃ more, entriesChecked fromUtf8 data count p out =
        .ok (out ++ more, (entriesFrom fromUtf8 count (data.drop p)).isSome) ∧
      12 * more.length ≤ data.length - p ∧
      ∀ es, entriesFrom fromUtf8 count (data.drop p) = some es → es = more := by
  induction count generalizing p out with
  | zero => exact ⟨[], by rw [List.append_nil]; rfl, Nat.zero_le _, fun es hes => (Option.some_inj.mp hes).symm⟩
  | succ count ih =>
      by_cases hframe : ∃ f : Frame, ∃ tail, data.drop p = f.bytes ++ tail
      · obtain ⟨f, tail, heq⟩ := hframe
        have hlen := congrArg List.length heq
        rw [List.length_drop, List.length_append] at hlen
        have htwelve := f.length_bytes
        have htail : data.drop (p + f.bytes.length) = tail := by
          rw [← List.drop_drop, heq, List.drop_left]
        obtain ⟨more, hrun, hroom, hall⟩ := ih (p + f.bytes.length) (out ++ [f.entry fromUtf8]) (by omega)
        rw [htail] at hrun hall
        rw [entriesChecked_frame f heq, heq, entriesFrom_frame]
        refine ⟨f.entry fromUtf8 :: more, ?_, ?_, ?_⟩
        · rw [hrun, Option.isSome_map, List.append_assoc, List.singleton_append]
        · rw [List.length_cons]
          omega
        · intro es hes
          obtain ⟨rest, hrest, rfl⟩ := Option.map_eq_some_iff.mp hes
          rw [hall rest hrest]
      · have hnone : ∀ (f : Frame) tail, data.drop p ≠ f.bytes ++ tail := fun f tail heq => hframe ⟨f, tail, heq⟩
        rw [entriesChecked_none hnone, entriesFrom_none hnone]
        exact ⟨[], by rw [List.append_nil]; rfl, Nat.zero_le _, nofun⟩

theorem unpackChecked_eq (fromUtf8 : Bytes → Text) (data : Bytes) :
    ∃ run, unpackChecked fromUtf8 data = .ok run ∧ run.result = unpack fromUtf8 data ∧
      12 * run.appended.length ≤ data.length - 15 ∧
      ∀ n, run.reserved = some n ↔ kMagic <+: data ∧ 15 ≤ data.length ∧ n = asInt (number ((data.drop 11).take 4)) := by
  have hmagic : kMagic.length = 11 := by decide
  unfold unpackChecked unpack
  by_cases hstarts : kMagic.isPrefixOf data = true
  · have hprefixed : kMagic <+: data := List.isPrefixOf_iff_prefix.mp hstarts
    rw [hstarts, Bool.not_true, if_neg Bool.false_ne_true, if_neg Bool.false_ne_true, hmagic]
    dsimp only
    by_cases hshort : (data.drop 11).length < 4
    · rw [if_pos hshort]
      rw [List.length_drop] at hshort
      rw [if_pos (by omega)]
      refine ⟨_, rfl, rfl, Nat.zero_le _, fun n => iff_of_false nofun ?_⟩
      rintro ⟨-, hlong, -⟩
      omega
    · rw [if_neg hshort]
      rw [List.length_drop] at hshort
      have hread : load data (11 : Nat) 4 = .ok ((data.drop 11).take 4) := load_eq data 11 4 (by omega)
      rw [if_neg (by omega), hread, List.drop_drop]
      have hin : 11 + 4 ≤ data.length := by omega
      obtain ⟨more, hrun, hroom, hall⟩ := entriesChecked_eq (number ((data.drop 11).take 4)) (11 + 4) [] hin
      dsimp only [Except.bind, bind]
      rw [← number_eq, hrun]
      refine ⟨_, rfl, ?_, hroom, fun n => ?_⟩
      · unfold Unpacking.result
        dsimp only
        cases hes : entriesFrom fromUtf8 (number ((data.drop 11).take 4)) (data.drop (11 + 4)) with
        | none => rfl
        | some es =>
            rw [hall es hes]
            rfl
      · rw [Option.some_inj, and_iff_right hprefixed, and_iff_right (by omega)]
        exact eq_comm
  · rw [Bool.not_eq_true] at hstarts
    rw [hstarts, Bool.not_false, if_pos rfl, if_pos rfl]
    refine ⟨_, rfl, rfl, Nat.zero_le _, fun n => iff_of_false nofun ?_⟩
    rintro ⟨hprefixed, -⟩
    exact Bool.false_ne_true (hstarts.symm.trans (List.isPrefixOf_iff_prefix.mpr hprefixed))

end Reads

-- Some entries, at least so many, that fit in so many bytes.
def CouldEncode (room : Nat) (n : Int) : Prop :=
  ∃ frames : List Frame, n ≤ frames.length ∧ (frames.flatMap Frame.bytes).length ≤ room

theorem couldEncode_iff {room : Nat} {n : Int} : CouldEncode room n ↔ 12 * n ≤ room := by
  constructor
  · rintro ⟨frames, hn, hroom⟩
    have htwelve : 12 * frames.length ≤ (frames.flatMap Frame.bytes).length := by
      clear hn hroom
      induction frames with
      | nil => exact Nat.le_refl _
      | cons f frames ih =>
          rw [List.flatMap_cons, List.length_append, List.length_cons, f.length_bytes]
          omega
    omega
  · intro hroom
    refine ⟨List.replicate n.toNat ⟨[], [], Nat.zero_le _, Nat.zero_le _⟩, ?_, ?_⟩
    · rw [List.length_replicate]
      omega
    · rw [List.length_flatMap, List.map_replicate, List.sum_replicate_nat, Frame.length_bytes]
      dsimp only [List.length_nil]
      omega

def Bounded (fromUtf8 : Bytes → Text) (data : Bytes) : Prop :=
  ∃ run, unpackChecked fromUtf8 data = .ok run ∧ run.result = unpack fromUtf8 data ∧
    (∀ n, run.reserved = some n → CouldEncode (data.length - 15) n) ∧
    CouldEncode (data.length - 15) run.appended.length ∧
    ∀ es, run.result = some es ↔ ∃ (frames : List Frame) (tail : Bytes), frames.length < 2 ^ 32 ∧
      data = archive frames ++ tail ∧ es = frames.map (Frame.entry fromUtf8)

def CountFits (data : Bytes) : Prop :=
  kMagic <+: data → 15 ≤ data.length → number ((data.drop 11).take 4) < 2147483648 →
    12 * number ((data.drop 11).take 4) ≤ data.length - 15

theorem bounded_iff {fromUtf8 : Bytes → Text} {data : Bytes} : Bounded fromUtf8 data ↔ CountFits data := by
  obtain ⟨run, hrun, hresult, happended, hreserved⟩ := unpackChecked_eq fromUtf8 data
  have hcount : number ((data.drop 11).take 4) < 2 ^ 32 := by
    have hlt := LittleEndian.value_lt ((data.drop 11).take 4)
    have hle := List.length_take_le 4 (data.drop 11)
    rw [← number_eq] at hlt
    have hpow : 256 ^ ((data.drop 11).take 4).length ≤ 256 ^ 4 := Nat.pow_le_pow_right (by decide) hle
    omega
  constructor
  · rintro ⟨run', hrun', -, hreserve, -⟩ hprefixed hlong hsmall
    obtain rfl : run = run' := Except.ok.inj (hrun.symm.trans hrun')
    have hroom := couldEncode_iff.mp (hreserve _ ((hreserved _).mpr ⟨hprefixed, hlong, rfl⟩))
    rw [asInt, if_pos hsmall] at hroom
    omega
  · intro hfits
    refine ⟨run, hrun, hresult, fun n hn => couldEncode_iff.mpr ?_, couldEncode_iff.mpr (by omega), fun es => ?_⟩
    · obtain ⟨hprefixed, hlong, hasked⟩ := (hreserved n).mp hn
      rw [hasked, asInt]
      split_ifs with hsmall
      · have hroom := hfits hprefixed hlong hsmall
        omega
      · omega
    · rw [hresult, unpack_iff]

-- A name comes back unless it starts with a byte order mark, and a file is read within its bounds unless the
-- count in its header is more than it has bytes for.
theorem backup_faithful (repaired : Bytes → Text) (entries : List (Text × Bytes)) (hcount : entries.length < 2 ^ 31)
    (hfits : ∀ e ∈ entries, EntryFits e) (data : Bytes) :
    (unpack (Utf8.decode repaired) (pack entries) = some entries ↔ ∀ e ∈ entries, e.1.head? ≠ some Utf8.mark) ∧
    (Bounded (Utf8.decode repaired) data ↔ CountFits data) := by
  refine ⟨?_, bounded_iff⟩
  rw [unpack_pack _ (by omega) hfits, Option.some_inj]
  have hname : ∀ e : Text × Bytes,
      (Utf8.decode repaired (Utf8.encode e.1), e.2) = e ↔ e.1.head? ≠ some Utf8.mark := by
    intro e
    rw [Utf8.decode_encode, ← Utf8.withoutMark_eq_self, Prod.ext_iff, and_iff_left rfl]
  have hself := List.map_inj_left (g := id) (l := entries) (f := fun e => (Utf8.decode repaired (Utf8.encode e.1), e.2))
  rw [List.map_id] at hself
  rw [hself]
  exact forall₂_congr fun e _ => hname e

theorem backup_faithful_settings :
    (unpack (Utf8.decode fun _ => []) (pack [(['a'], [0, 255])]) = some [(['a'], [0, 255])] ↔
      ∀ e ∈ [(['a'], ([0, 255] : Bytes))], e.1.head? ≠ some Utf8.mark) ∧
    (Bounded (Utf8.decode fun _ => []) (pack [(['a'], [0, 255])]) ↔ CountFits (pack [(['a'], [0, 255])])) :=
  backup_faithful (fun _ => []) [(['a'], [0, 255])] (by decide)
    (fun e he => by rw [List.mem_singleton.mp he]; exact ⟨by decide +kernel, by decide⟩) (pack [(['a'], [0, 255])])

-- Fifteen bytes that ask for room for 2147483647 entries.
theorem not_bounded_fifteen_bytes : ¬ Bounded (Utf8.decode fun _ => []) (kMagic ++ [255, 255, 255, 127]) ∧
    unpack (Utf8.decode fun _ => []) (pack [([Utf8.mark], [])]) ≠ some [([Utf8.mark], [])] := by
  refine ⟨fun hbounded => ?_, ?_⟩
  · have hroom := bounded_iff.mp hbounded (List.prefix_append _ _) (by decide) (by decide +kernel)
    exact absurd hroom (by decide +kernel)
  · rw [unpack_pack _ (by decide) fun e he => by rw [List.mem_singleton.mp he]; exact ⟨by decide +kernel, by decide⟩]
    rw [List.map_singleton, Utf8.decode_encode]
    decide

end BATorrent.SettingsBackup
