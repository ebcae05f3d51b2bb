import BATorrent.Services.Qrcodegen.Codewords
import Mathlib.Data.List.GetD

namespace BATorrent.Qrcodegen

open Lib.DataStream (Bytes)

section Bits

variable {bits : List Bool}

def numberOf : List Bool → Nat
  | [] => 0
  | bit :: bits => bit.toNat * 2 ^ bits.length + numberOf bits

def bitsOfBytes (bytes : Bytes) : List Bool := bytes.flatMap fun b => bitsOf b.toNat 8

def readBytes : Nat → List Bool → Bytes
  | 0, _ => []
  | n + 1, bits => UInt8.ofNat (numberOf (bits.take 8)) :: readBytes n (bits.drop 8)

theorem bitsOf_succ (value n : Nat) : bitsOf value (n + 1) = value.testBit n :: bitsOf value n := by
  rw [bitsOf, List.range_succ, List.reverse_append]
  rfl

@[simp] theorem length_bitsOf (value n : Nat) : (bitsOf value n).length = n := by simp [bitsOf]

theorem numberOf_bitsOf (value n : Nat) : numberOf (bitsOf value n) = value % 2 ^ n := by
  induction n with
  | zero => rw [Nat.pow_zero, Nat.mod_one]; rfl
  | succ n ih =>
      rw [bitsOf_succ, numberOf, ih, length_bitsOf, Nat.pow_succ, Nat.mod_mul, ← Nat.toNat_testBit]
      ring

theorem ofNat_numberOf (b : UInt8) : UInt8.ofNat (numberOf (bitsOf b.toNat 8)) = b := by
  rw [numberOf_bitsOf, Nat.mod_eq_of_lt b.toNat_lt, UInt8.ofNat_toNat]

@[simp] theorem bitsOfBytes_cons (b : UInt8) (bytes : Bytes) :
    bitsOfBytes (b :: bytes) = bitsOf b.toNat 8 ++ bitsOfBytes bytes := rfl

theorem bitsOfBytes_append (a b : Bytes) : bitsOfBytes (a ++ b) = bitsOfBytes a ++ bitsOfBytes b :=
  List.flatMap_append

theorem length_bitsOfBytes (bytes : Bytes) : (bitsOfBytes bytes).length = bytes.length * 8 := by
  induction bytes with
  | nil => rfl
  | cons b bytes ih => rw [bitsOfBytes_cons, List.length_append, length_bitsOf, ih, List.length_cons]; omega

theorem readBytes_bitsOfBytes (bytes : Bytes) (rest : List Bool) :
    readBytes bytes.length (bitsOfBytes bytes ++ rest) = bytes := by
  induction bytes with
  | nil => rfl
  | cons b bytes ih =>
      have htake : (bitsOf b.toNat 8 ++ (bitsOfBytes bytes ++ rest)).take 8 = bitsOf b.toNat 8 :=
        List.take_left' (length_bitsOf ..)
      have hdrop : (bitsOf b.toNat 8 ++ (bitsOfBytes bytes ++ rest)).drop 8 = bitsOfBytes bytes ++ rest :=
        List.drop_left' (length_bitsOf ..)
      rw [bitsOfBytes_cons, List.append_assoc, List.length_cons, readBytes, htake, hdrop, ofNat_numberOf, ih]

theorem numberOf_lt (bits : List Bool) : numberOf bits < 2 ^ bits.length := by
  induction bits with
  | nil => decide
  | cons bit bits ih =>
      have hbit : bit.toNat * 2 ^ bits.length ≤ 1 * 2 ^ bits.length := Nat.mul_le_mul_right _ bit.toNat_le
      rw [numberOf, List.length_cons, Nat.pow_succ]
      omega

theorem bitsOf_numberOf (bits : List Bool) : bitsOf (numberOf bits) bits.length = bits := by
  induction bits with
  | nil => rfl
  | cons bit bits ih =>
      have hlt := numberOf_lt bits
      have hlow : bitsOf (numberOf (bit :: bits)) bits.length = bitsOf (numberOf bits) bits.length := by
        refine List.map_congr_left fun i hi => ?_
        have hi' : i < bits.length := by simpa using hi
        rw [numberOf, Nat.mul_comm, Nat.testBit_two_pow_mul_add _ hlt, if_pos hi']
      rw [List.length_cons, bitsOf_succ, hlow, ih, numberOf, Nat.mul_comm, Nat.testBit_two_pow_mul_add _ hlt,
        if_neg (Nat.lt_irrefl _), Nat.sub_self]
      cases bit <;> rfl

theorem foldl_byte (bit : Nat → Bool) :
    (List.range 8).foldl (fun out k => if bit k then out ||| UInt8.ofNat (1 <<< (7 - k)) else out) 0 =
      UInt8.ofNat (numberOf ((List.range 8).map bit)) := by
  have hrange : List.range 8 = [0, 1, 2, 3, 4, 5, 6, 7] := rfl
  rw [hrange]
  simp only [List.foldl_cons, List.foldl_nil, List.map_cons, List.map_nil]
  generalize bit 0 = b0, bit 1 = b1, bit 2 = b2, bit 3 = b3, bit 4 = b4, bit 5 = b5, bit 6 = b6, bit 7 = b7
  revert b0 b1 b2 b3 b4 b5 b6 b7
  decide +kernel

-- A byte of the buffer is written a bit at a time.
theorem toBytes_append {eight rest : List Bool} (h : eight.length = 8) :
    toBytes (eight ++ rest) = UInt8.ofNat (numberOf eight) :: toBytes rest := by
  have hcount : ((eight ++ rest).length + 7) / 8 = (rest.length + 7) / 8 + 1 := by
    rw [List.length_append, h]
    omega
  have hfirst : (List.range 8).map (fun k => (eight ++ rest).getD (8 * 0 + k) false) = eight := by
    apply List.ext_getElem
    · rw [List.length_map, List.length_range, h]
    · intro k hk hk'
      rw [List.getElem_map, List.getElem_range, Nat.mul_zero, Nat.zero_add, List.getD_append _ _ _ _ hk',
        List.getD_eq_getElem _ _ hk']
  have hlater (j k : Nat) : (eight ++ rest).getD (8 * (j + 1) + k) false = rest.getD (8 * j + k) false := by
    rw [List.getD_append_right _ _ _ _ (by omega), h]
    congr 1
    omega
  simp only [toBytes, foldl_byte]
  rw [hcount, List.range_succ_eq_map (n := (rest.length + 7) / 8), List.map_cons, List.map_map, hfirst]
  simp only [Function.comp_def, Nat.succ_eq_add_one, hlater]

theorem bitsOfBytes_toBytes {bits : List Bool} (n : Nat) (h : bits.length = n * 8) :
    (toBytes bits).length = n ∧ bitsOfBytes (toBytes bits) = bits := by
  induction n generalizing bits with
  | zero =>
      obtain rfl := List.eq_nil_of_length_eq_zero (h.trans (Nat.zero_mul 8))
      exact ⟨rfl, rfl⟩
  | succ n ih =>
      have htake : (bits.take 8).length = 8 := by
        rw [List.length_take]
        omega
      have hdrop : (bits.drop 8).length = n * 8 := by
        rw [List.length_drop]
        omega
      have hbyte : (UInt8.ofNat (numberOf (bits.take 8))).toNat = numberOf (bits.take 8) :=
        UInt8.toNat_ofNat_of_lt' ((numberOf_lt _).trans_eq (congrArg (2 ^ ·) htake))
      obtain ⟨hlen, hbits⟩ := ih hdrop
      have hfirst : bitsOf (numberOf (bits.take 8)) 8 = bits.take 8 := by
        conv_rhs => rw [← bitsOf_numberOf (bits.take 8), htake]
      rw [← List.take_append_drop 8 bits, toBytes_append htake, List.length_cons, hlen, bitsOfBytes_cons, hbyte,
        hfirst, hbits]
      exact ⟨rfl, rfl⟩

end Bits

section Payload

variable {data : Bytes} {version : Nat}

-- What a reader takes from the data codewords: how many bytes there are, and the bytes.
def readPayload (version : Nat) (codewords : Bytes) : Option Bytes :=
  let bits := bitsOfBytes codewords
  let content := bits.drop 4
  if numberOf (bits.take 4) = 0b0100 then
    some (readBytes (numberOf (content.take (countBits version))) (content.drop (countBits version)))
  else none

theorem length_padBytes (n : Nat) (ec : Bool) : (padBytes n ec).length = n := by
  induction n generalizing ec with
  | zero => rfl
  | succ n ih => rw [padBytes, List.length_cons, ih]

theorem pickVersion_fits (h : pickVersion data.length = some version) :
    (1 ≤ version ∧ version ≤ 10) ∧ 4 + countBits version + data.length * 8 + 4 ≤ dataCodewordsFor version * 8 := by
  have hmem := List.mem_of_find?_eq_some h
  have hfits := List.find?_some h
  rw [List.mem_range'_1, kMaxVersion] at hmem
  exact ⟨by omega, of_decide_eq_true hfits⟩

theorem countBits_eq (version : Nat) : countBits version = 8 ∨ countBits version = 16 := by
  unfold countBits
  split
  · exact .inr rfl
  · exact .inl rfl

-- There is room for the whole terminator, and the bytes need no more zeros than that.
theorem packPayload_eq (h : pickVersion data.length = some version) :
    (packPayload data version).length = dataCodewordsFor version ∧ ∃ pad, bitsOfBytes (packPayload data version) =
      bitsOf 0b0100 4 ++ (bitsOf data.length (countBits version) ++ (bitsOfBytes data ++ pad)) := by
  obtain ⟨-, hfits⟩ := pickVersion_fits h
  let content := bitsOf 0b0100 4 ++ bitsOf data.length (countBits version) ++ bitsOfBytes data
  have hcontent : content.length = 4 + countBits version + data.length * 8 := by
    rw [List.length_append, List.length_append, length_bitsOf, length_bitsOf, length_bitsOfBytes]
  have hterm : min 4 (dataCodewordsFor version * 8 - content.length) = 4 := by omega
  have hlen : (content ++ bitsOf 0 4).length = (countBits version / 8 + data.length + 1) * 8 := by
    rw [List.length_append, hcontent, length_bitsOf]
    rcases countBits_eq version with h | h <;> omega
  have hzeros : (8 - (content ++ bitsOf 0 4).length % 8) % 8 = 0 := by omega
  obtain ⟨hbytes, hbits⟩ := bitsOfBytes_toBytes _ hlen
  let count := dataCodewordsFor version * 8 / 8 - (toBytes (content ++ bitsOf 0 4)).length
  have hpack : packPayload data version = toBytes (content ++ bitsOf 0 4) ++ padBytes count true := by
    change (let bits := content ++ bitsOf 0 (min 4 (dataCodewordsFor version * 8 - content.length))
      let bits := bits ++ List.replicate ((8 - bits.length % 8) % 8) false
      toBytes bits ++ padBytes (dataCodewordsFor version * 8 / 8 - (toBytes bits).length) true) = _
    dsimp only
    rw [hterm, hzeros, List.replicate_zero, List.append_nil]
  rw [hpack]
  constructor
  · dsimp only [count]
    rw [List.length_append, length_padBytes, hbytes]
    omega
  · refine ⟨bitsOf 0 4 ++ bitsOfBytes (padBytes count true), ?_⟩
    rw [bitsOfBytes_append, hbits]
    simp only [content, List.append_assoc]

theorem dataCodewordsFor_lt {version : Nat} (h : version ≤ 10) :
    dataCodewordsFor version < 2 ^ countBits version := by
  have hall : ∀ v < 11, dataCodewordsFor v < 2 ^ countBits v := by decide
  exact hall version (Nat.lt_succ_of_le h)

theorem readPayload_packPayload (h : pickVersion data.length = some version) :
    readPayload version (packPayload data version) = some data := by
  obtain ⟨hversion, hfits⟩ := pickVersion_fits h
  obtain ⟨-, pad, hbits⟩ := packPayload_eq h
  have hcount : data.length % 2 ^ countBits version = data.length := by
    have hlt := dataCodewordsFor_lt hversion.2
    exact Nat.mod_eq_of_lt (by omega)
  rw [readPayload, hbits, List.take_left' (length_bitsOf ..), List.drop_left' (length_bitsOf ..),
    numberOf_bitsOf, if_pos (by decide), List.take_left' (length_bitsOf ..), List.drop_left' (length_bitsOf ..),
    numberOf_bitsOf, hcount, readBytes_bitsOfBytes]

end Payload

section Blocks

-- The next byte of the stream goes to each block that is still to get one.
def addHeads : List Nat → Bytes → List Bytes → List Bytes
  | [], _, _ => []
  | 0 :: sizes, heads, blocks => blocks.headD [] :: addHeads sizes heads blocks.tail
  | (_ + 1) :: sizes, heads, blocks => (heads.headD 0 :: blocks.headD []) :: addHeads sizes heads.tail blocks.tail

-- How a reader takes the blocks apart again.
def deal : Nat → List Nat → Bytes → List Bytes
  | 0, sizes, _ => sizes.map fun _ => []
  | count + 1, sizes, stream =>
      addHeads sizes stream (deal count (sizes.map (· - 1)) (stream.drop (sizes.countP (0 < ·))))

def readCodewords (version : Nat) (stream : Bytes) : Option Bytes :=
  let v := versionInfo version
  let sizes := blockSizes version
  let dataBlocks := deal (max v.g1DataCw v.g2DataCw) sizes stream
  let eccBlocks := deal v.eccPerBlock (sizes.map fun _ => v.eccPerBlock) (stream.drop sizes.sum)
  if (dataBlocks.zip eccBlocks).all (fun (d, e) => (List.range v.eccPerBlock).all fun i => syndrome (d ++ e) i = 0)
  then some dataBlocks.flatten else none

variable {count : Nat} {blocks : List Bytes}

theorem byColumn_succ (count : Nat) (blocks : List Bytes) :
    byColumn (count + 1) blocks = blocks.filterMap List.head? ++ byColumn count (blocks.map List.tail) := by
  have hhead : (fun b : Bytes => b[0]?) = List.head? := funext fun b => List.head?_eq_getElem?.symm
  have hnext (col : Nat) : (blocks.map List.tail).filterMap (·[col]?) = blocks.filterMap (·[col + 1]?) := by
    rw [List.filterMap_map]
    exact List.filterMap_congr fun b _ => List.getElem?_tail
  simp only [byColumn, List.range_succ_eq_map, List.flatMap_cons, List.flatMap_map, hhead, hnext]

theorem length_heads (blocks : List Bytes) :
    (blocks.filterMap List.head?).length = (blocks.map List.length).countP (0 < ·) := by
  induction blocks with
  | nil => rfl
  | cons block blocks ih =>
      cases block with
      | nil =>
          rw [List.filterMap_cons_none rfl, ih, List.map_cons]
          exact (List.countP_cons_of_neg (by decide)).symm
      | cons b block =>
          have hhead : (b :: block).head? = some b := rfl
          rw [List.filterMap_cons_some hhead, List.length_cons, ih, List.map_cons]
          exact (List.countP_cons_of_pos (by simp)).symm

theorem sum_lengths (blocks : List Bytes) : (blocks.map List.length).sum =
    (blocks.filterMap List.head?).length + ((blocks.map List.tail).map List.length).sum := by
  induction blocks with
  | nil => rfl
  | cons block blocks ih =>
      cases block with
      | nil =>
          rw [List.map_cons, List.sum_cons, ih, List.filterMap_cons_none rfl, List.map_cons, List.map_cons,
            List.sum_cons]
          exact Nat.add_left_comm ..
      | cons b block =>
          have hhead : (b :: block).head? = some b := rfl
          rw [List.map_cons, List.sum_cons, ih, List.filterMap_cons_some hhead, List.map_cons, List.map_cons,
            List.sum_cons, List.length_cons, List.length_cons, List.tail_cons]
          omega

theorem tail_le (h : ∀ b ∈ blocks, b.length ≤ count + 1) : ∀ b ∈ blocks.map List.tail, b.length ≤ count := by
  intro tail htail
  obtain ⟨b, hb, rfl⟩ := List.mem_map.mp htail
  rw [List.length_tail]
  exact Nat.sub_le_of_le_add (h b hb)

theorem length_byColumn (h : ∀ b ∈ blocks, b.length ≤ count) :
    (byColumn count blocks).length = (blocks.map List.length).sum := by
  induction count generalizing blocks with
  | zero =>
      have hzero : ∀ n ∈ blocks.map List.length, n = 0 := by
        intro n hn
        obtain ⟨b, hb, rfl⟩ := List.mem_map.mp hn
        exact Nat.le_zero.mp (h b hb)
      rw [List.sum_eq_zero hzero]
      rfl
  | succ count ih => rw [byColumn_succ, List.length_append, ih (tail_le h), ← sum_lengths]

theorem addHeads_heads (blocks : List Bytes) (rest : Bytes) :
    addHeads (blocks.map List.length) (blocks.filterMap List.head? ++ rest) (blocks.map List.tail) = blocks := by
  induction blocks with
  | nil => rfl
  | cons block blocks ih =>
      cases block with
      | nil => exact congrArg ([] :: ·) ih
      | cons b block => exact congrArg ((b :: block) :: ·) ih

theorem deal_byColumn (h : ∀ b ∈ blocks, b.length ≤ count) (rest : Bytes) :
    deal count (blocks.map List.length) (byColumn count blocks ++ rest) = blocks := by
  induction count generalizing blocks with
  | zero =>
      rw [deal, List.map_map]
      conv_rhs => rw [← List.map_id blocks]
      exact List.map_congr_left fun b hb => (List.eq_nil_of_length_eq_zero (Nat.le_zero.mp (h b hb))).symm
  | succ count ih =>
      have hsizes : (blocks.map List.length).map (· - 1) = (blocks.map List.tail).map List.length := by
        rw [List.map_map, List.map_map]
        exact List.map_congr_left fun b _ => List.length_tail.symm
      rw [deal, byColumn_succ, List.append_assoc, List.drop_left' (length_heads blocks), hsizes, ih (tail_le h),
        addHeads_heads]

theorem slices_spec (data : Bytes) (sizes : List Nat) (h : data.length = sizes.sum) :
    (slices data sizes).map List.length = sizes ∧ (slices data sizes).flatten = data := by
  induction sizes generalizing data with
  | nil => exact ⟨rfl, (List.eq_nil_of_length_eq_zero h).symm⟩
  | cons n sizes ih =>
      rw [List.sum_cons] at h
      obtain ⟨hlen, hflat⟩ := ih (data.drop n) (by rw [List.length_drop, h]; omega)
      rw [slices, List.map_cons, List.flatten_cons, hlen, hflat, List.take_append_drop, List.length_take, h]
      exact ⟨congrArg (· :: sizes) (Nat.min_eq_left (Nat.le_add_right ..)), rfl⟩

theorem blockSizes_spec {version : Nat} (h : 1 ≤ version ∧ version ≤ 10) :
    let v := versionInfo version
    (blockSizes version).sum = dataCodewordsFor version ∧
      (blockSizes version).sum + (blockSizes version).length * v.eccPerBlock = v.totalCodewords ∧
      (0 < v.eccPerBlock ∧ v.eccPerBlock ≤ 255) ∧
      ∀ n ∈ blockSizes version, n ≤ max v.g1DataCw v.g2DataCw := by
  have hall : ∀ v < 10, let i := versionInfo (v + 1)
      (blockSizes (v + 1)).sum = dataCodewordsFor (v + 1) ∧
        (blockSizes (v + 1)).sum + (blockSizes (v + 1)).length * i.eccPerBlock = i.totalCodewords ∧
        (0 < i.eccPerBlock ∧ i.eccPerBlock ≤ 255) ∧
        ∀ n ∈ blockSizes (v + 1), n ≤ max i.g1DataCw i.g2DataCw := by decide
  have h1 := hall (version - 1) (by omega)
  rwa [Nat.sub_add_cancel h.1] at h1

-- The blocks are taken apart as they were put together, and each passes its checks.
theorem readCodewords_interleaveBlocks {version : Nat} {data : Bytes} (h : 1 ≤ version ∧ version ≤ 10)
    (hlen : data.length = dataCodewordsFor version) (rest : Bytes) :
    (interleaveBlocks data version).length = (versionInfo version).totalCodewords ∧
      readCodewords version (interleaveBlocks data version ++ rest) = some data := by
  obtain ⟨hsum, htotal, ⟨hpos, hecc⟩, hmax⟩ := blockSizes_spec h
  obtain ⟨hsizes, hflat⟩ := slices_spec data (blockSizes version) (hlen.trans hsum.symm)
  have hdata : ∀ b ∈ slices data (blockSizes version),
      b.length ≤ max (versionInfo version).g1DataCw (versionInfo version).g2DataCw := fun b hb =>
    hmax _ (hsizes ▸ List.mem_map_of_mem hb)
  let eccBlocks := (slices data (blockSizes version)).map (rsEncode · (versionInfo version).eccPerBlock)
  have heccSizes : eccBlocks.map List.length = (blockSizes version).map fun _ => (versionInfo version).eccPerBlock := by
    conv_rhs => rw [← hsizes]
    simp only [eccBlocks, List.map_map, Function.comp_def, length_rsEncode hpos hecc]
  have heccLen : ∀ b ∈ eccBlocks, b.length ≤ (versionInfo version).eccPerBlock := by
    intro b hb
    obtain ⟨d, -, rfl⟩ := List.mem_map.mp hb
    exact (length_rsEncode hpos hecc d).le
  let columns := byColumn (max (versionInfo version).g1DataCw (versionInfo version).g2DataCw)
    (slices data (blockSizes version))
  let eccColumns := byColumn (versionInfo version).eccPerBlock eccBlocks
  have hstream : interleaveBlocks data version ++ rest = columns ++ (eccColumns ++ rest) := List.append_assoc ..
  have hcolumns : columns.length = (blockSizes version).sum := by rw [length_byColumn hdata, hsizes]
  have heccColumns : eccColumns.length = (blockSizes version).length * (versionInfo version).eccPerBlock := by
    rw [length_byColumn heccLen, heccSizes, List.map_const', List.sum_replicate, smul_eq_mul]
  have hdealt := deal_byColumn hdata (eccColumns ++ rest)
  have heccDealt := deal_byColumn heccLen rest
  rw [hsizes] at hdealt
  rw [heccSizes] at heccDealt
  constructor
  · rw [← htotal, ← hcolumns, ← heccColumns]
    exact List.length_append ..
  · have hchecks : ((slices data (blockSizes version)).zip eccBlocks).all fun (d, e) =>
        (List.range (versionInfo version).eccPerBlock).all fun i => syndrome (d ++ e) i = 0 := by
      rw [← List.map_prod_left_eq_zip, List.all_map, List.all_eq_true]
      intro d _
      simp only [Function.comp_apply, List.all_eq_true]
      exact fun i hi => decide_eq_true ((syndrome_rsEncode hpos hecc d).2 i (List.mem_range.mp hi))
    rw [readCodewords, hstream, hdealt, List.drop_left' hcolumns, heccDealt, if_pos hchecks, hflat]

-- In every version that has room for them, the codewords give the bytes back.
theorem readPayload_interleaveBlocks {version : Nat} {data : Bytes} (h : pickVersion data.length = some version)
    (rest : Bytes) :
    let codewords := interleaveBlocks (packPayload data version) version
    codewords.length = (versionInfo version).totalCodewords ∧
      (readCodewords version (codewords ++ rest)).bind (readPayload version) = some data := by
  obtain ⟨hlen, hread⟩ :=
    readCodewords_interleaveBlocks (pickVersion_fits h).1 (packPayload_eq h).1 rest
  refine ⟨hlen, ?_⟩
  rw [hread, Option.bind_some, readPayload_packPayload h]

theorem readPayload_interleaveBlocks_one : let codewords := interleaveBlocks (packPayload [72, 105] 1) 1
    codewords.length = 26 ∧ (readCodewords 1 (codewords ++ [])).bind (readPayload 1) = some [72, 105] :=
  readPayload_interleaveBlocks (by decide) []

end Blocks

end BATorrent.Qrcodegen
