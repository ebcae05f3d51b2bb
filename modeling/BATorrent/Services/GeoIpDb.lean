import BATorrent.Lib.DataStream
import BATorrent.Lib.UpperBound
import Mathlib.Data.List.DropRight
import Mathlib.Data.List.SplitOn
import Mathlib.Tactic.Push
import Mathlib.Tactic.Ring

namespace BATorrent.GeoIpDb

open Lib
open Lib.DataStream (QString)

section Text

def dot : UInt16 := 46

def comma : UInt16 := 44

def colon : UInt16 := 58

def quote : UInt16 := 34

def newline : UInt16 := 10

def isDigit (ch : UInt16) : Bool := 48 ≤ ch && ch ≤ 57

-- As QChar has it.
def isSpace (ch : UInt16) : Bool :=
  ch == 0x20 || (0x09 ≤ ch && ch ≤ 0x0d) || ch == 0x85 || ch == 0xa0 || ch == 0x1680 ||
    (0x2000 ≤ ch && ch ≤ 0x200a) || ch == 0x2028 || ch == 0x2029 || ch == 0x202f || ch == 0x205f || ch == 0x3000

def trimmed (s : QString) : QString := (s.dropWhile isSpace).rdropWhile isSpace

def indexOf (ch : UInt16) (start : Nat) (s : QString) : Option Nat :=
  ((s.drop start).findIdx? (· == ch)).map (start + ·)

def unquote (v : QString) : QString :=
  let v := trimmed v
  let v := if 2 ≤ v.length ∧ v.head? = some quote ∧ v.getLast? = some quote then (v.drop 1).take (v.length - 2) else v
  trimmed v

-- Zero where there is no such Latin-1 character.
def toLatin1 (ch : UInt16) : UInt8 := if ch.toNat < 256 then UInt8.ofNat ch.toNat else 0

end Text

section Addresses

structure Parsing where
  acc : UInt32
  octets : Nat
  -- Negative where no digit of the octet has been seen.
  val : Int

def parseStep (p : Parsing) (ch : UInt16) : Option Parsing :=
  if ch = dot then
    if p.val < 0 ∨ 255 < p.val ∨ 4 ≤ p.octets then none
    else some ⟨p.acc <<< 8 ||| UInt32.ofNat p.val.toNat, p.octets + 1, -1⟩
  else if isDigit ch then
    let val := (if p.val < 0 then 0 else p.val) * 10 + (ch.toNat - 48 : Nat)
    if 255 < val then none else some { p with val := val }
  else none

def parseIpv4 (s : QString) : Option UInt32 := do
  -- The last octet is flushed by a dot that is not there.
  let p ← (s ++ [dot]).foldlM parseStep ⟨0, 0, -1⟩
  if p.octets ≠ 4 then none else some p.acc

end Addresses

section Ranges

structure Range where
  start : UInt32
  stop : UInt32
  cc : UInt8 × UInt8
  ordered : start ≤ stop
deriving DecidableEq

def Range.contains (r : Range) (ip : UInt32) : Bool := r.start ≤ ip && ip ≤ r.stop

def rangeOf (a b : UInt32) (cc : UInt8 × UInt8) : Range :=
  if h : b < a then ⟨b, a, cc, UInt32.le_of_lt h⟩ else ⟨a, b, cc, UInt32.not_lt.mp h⟩

variable (toUpper : UInt16 → UInt16)

def row (line : QString) : Option Range := do
  let c1 ← indexOf comma 0 line
  let c2 ← indexOf comma (c1 + 1) line
  let s0 := unquote (line.take c1)
  let s1 := unquote ((line.drop (c1 + 1)).take (c2 - c1 - 1))
  match unquote (line.drop (c2 + 1)) with
  | [x, y] =>
      if s0.contains colon then none
      else
        let a ← parseIpv4 s0
        let b ← parseIpv4 s1
        return rangeOf a b (toLatin1 (toUpper x), toLatin1 (toUpper y))
  | _ => none

def lines (csv : QString) : List QString := (csv.splitOn newline).filter (· ≠ [])

-- The rows that are taken, in the order of the file.
def accepted (csv : QString) : List Range := (lines csv).filterMap (row toUpper)

def loadCsv (csv : QString) : List Range := (accepted toUpper csv).mergeSort fun x y => x.start ≤ y.start

def find (ranges : List Range) (ip : UInt32) : Option Range :=
  match UpperBound.upperBound (fun r : Range => ip < r.start) ranges with
  | 0 => none
  | it + 1 =>
      match ranges[it]? with
      | none => none
      | some r => if ip ≤ r.stop then some r else none

def lookup (ranges : List Range) (ip : UInt32) : Option (UInt8 × UInt8) := (find ranges ip).map Range.cc

def inCountry (ranges : List Range) (ip : UInt32) (cc : UInt8 × UInt8) : Bool :=
  match find ranges ip with
  | none => false
  | some r => r.cc = cc

def country (ranges : List Range) (ipv4 : QString) : Option (UInt8 × UInt8) :=
  (parseIpv4 ipv4).bind (lookup ranges)

end Ranges

section Addresses

def pushDigit (n : Nat) (ch : UInt16) : Nat := n * 10 + (ch.toNat - 48)

def octetValue (o : QString) : Nat := o.foldl pushDigit 0

-- A decimal number from 0 to 255.
def IsOctet (o : QString) : Prop := o ≠ [] ∧ (∀ ch ∈ o, isDigit ch = true) ∧ octetValue o ≤ 255

variable {acc : UInt32} {n v : Nat} {o s : QString} {p : Parsing}

theorem le_foldl_pushDigit (v : Nat) (o : QString) : v ≤ o.foldl pushDigit v := by
  induction o generalizing v with
  | nil => exact Nat.le_refl v
  | cons ch o ih =>
      have hstep : v ≤ pushDigit v ch := by
        unfold pushDigit
        omega
      exact hstep.trans (ih (pushDigit v ch))

theorem parseStep_digit {ch : UInt16} (hdot : ch ≠ dot) (p : Parsing) : parseStep ⟨acc, n, v⟩ ch = some p ↔
    isDigit ch = true ∧ pushDigit v ch ≤ 255 ∧ p = ⟨acc, n, pushDigit v ch⟩ := by
  have hval : (if (v : Int) < 0 then 0 else (v : Int)) * 10 + (ch.toNat - 48 : Nat) = pushDigit v ch := by
    rw [if_neg (by omega), pushDigit]
    push_cast
    rfl
  unfold parseStep
  dsimp only
  rw [if_neg hdot, hval]
  by_cases hdigit : isDigit ch = true
  · rw [if_pos hdigit, and_iff_right hdigit]
    by_cases hbig : 255 < (pushDigit v ch : Int)
    · rw [if_pos hbig]
      exact iff_of_false nofun fun h => by omega
    · rw [if_neg hbig, and_iff_right (by omega), Option.some_inj]
      exact eq_comm
  · rw [if_neg hdigit]
    exact iff_of_false nofun fun h => hdigit h.1

theorem foldlM_digits (hdot : dot ∉ o) (hv : v ≤ 255) : o.foldlM parseStep ⟨acc, n, v⟩ = some p ↔
    (∀ ch ∈ o, isDigit ch = true) ∧ o.foldl pushDigit v ≤ 255 ∧ p = ⟨acc, n, (o.foldl pushDigit v : Nat)⟩ := by
  induction o generalizing v with
  | nil =>
      rw [List.foldlM_nil, List.foldl_nil, and_iff_right (by simp), and_iff_right hv]
      exact Option.some_inj.trans eq_comm
  | cons ch o ih =>
      obtain ⟨hch, ho⟩ := List.ne_and_not_mem_of_not_mem_cons hdot
      rw [List.foldlM_cons, List.forall_mem_cons, List.foldl_cons]
      constructor
      · intro h
        obtain ⟨q, hq, hrest⟩ := Option.bind_eq_some_iff.mp h
        obtain ⟨hdigit, hle, rfl⟩ := (parseStep_digit (Ne.symm hch) q).mp hq
        obtain ⟨hall, hlast, rfl⟩ := (ih ho hle).mp hrest
        exact ⟨⟨hdigit, hall⟩, hlast, rfl⟩
      · rintro ⟨⟨hdigit, hall⟩, hlast, rfl⟩
        have hle := (le_foldl_pushDigit (pushDigit v ch) o).trans hlast
        exact Option.bind_eq_some_iff.mpr
          ⟨_, (parseStep_digit (Ne.symm hch) _).mpr ⟨hdigit, hle, rfl⟩, (ih ho hle).mpr ⟨hall, hlast, rfl⟩⟩

def pushOctet (acc : UInt32) (o : QString) : UInt32 := acc <<< 8 ||| UInt32.ofNat (octetValue o)

theorem foldlM_octet (hdot : dot ∉ o) : (o ++ [dot]).foldlM parseStep ⟨acc, n, -1⟩ = some p ↔
    IsOctet o ∧ n < 4 ∧ p = ⟨pushOctet acc o, n + 1, -1⟩ := by
  have hflush : ∀ q : Parsing, [dot].foldlM parseStep q = some p ↔
      0 ≤ q.val ∧ q.val ≤ 255 ∧ q.octets < 4 ∧
        p = ⟨q.acc <<< 8 ||| UInt32.ofNat q.val.toNat, q.octets + 1, -1⟩ := by
    intro q
    have hone : [dot].foldlM parseStep q = parseStep q dot := by
      rw [List.foldlM_cons]
      exact Option.bind_fun_some _
    rw [hone, parseStep, if_pos rfl]
    split_ifs with hbad
    · exact iff_of_false nofun fun h => by omega
    · rw [Option.some_inj, and_iff_right (by omega), and_iff_right (by omega), and_iff_right (by omega)]
      exact eq_comm
  rw [List.foldlM_append]
  cases o with
  | nil =>
      refine iff_of_false (fun h => ?_) fun h => h.1.1 rfl
      rw [List.foldlM_nil, pure_bind] at h
      have hneg := ((hflush ⟨acc, n, -1⟩).mp h).1
      exact absurd hneg (show ¬ (0 : Int) ≤ -1 by decide)
  | cons ch o =>
      -- No digit yet reads as zero.
      have hfirst : (ch :: o).foldlM parseStep ⟨acc, n, -1⟩ = (ch :: o).foldlM parseStep ⟨acc, n, (0 : Nat)⟩ := by
        have hch := (List.ne_and_not_mem_of_not_mem_cons hdot).1
        rw [List.foldlM_cons, List.foldlM_cons]
        congr 1
        unfold parseStep
        rw [if_neg (Ne.symm hch), if_neg (Ne.symm hch)]
        rfl
      rw [hfirst]
      constructor
      · intro h
        obtain ⟨q, hq, hlast⟩ := Option.bind_eq_some_iff.mp h
        obtain ⟨hall, hle, rfl⟩ := (foldlM_digits hdot (by decide)).mp hq
        obtain ⟨-, -, hfour, rfl⟩ := (hflush _).mp hlast
        exact ⟨⟨List.cons_ne_nil _ _, hall, hle⟩, hfour, rfl⟩
      · rintro ⟨⟨-, hall, hle⟩, hfour, rfl⟩
        refine Option.bind_eq_some_iff.mpr ⟨_, (foldlM_digits hdot (by decide)).mpr ⟨hall, hle, rfl⟩, ?_⟩
        exact (hflush _).mpr ⟨Int.natCast_nonneg _, Int.ofNat_le.mpr hle, hfour, rfl⟩

theorem foldlM_octets {segs : List QString} (hdot : ∀ o ∈ segs, dot ∉ o) (hn : n ≤ 4) :
    (segs.flatMap (· ++ [dot])).foldlM parseStep ⟨acc, n, -1⟩ = some p ↔
      (∀ o ∈ segs, IsOctet o) ∧ n + segs.length ≤ 4 ∧ p = ⟨segs.foldl pushOctet acc, n + segs.length, -1⟩ := by
  induction segs generalizing acc n with
  | nil =>
      rw [List.flatMap_nil, List.foldlM_nil, and_iff_right (by simp), List.length_nil, and_iff_right (by omega)]
      exact Option.some_inj.trans eq_comm
  | cons o segs ih =>
      obtain ⟨ho, hsegs⟩ := List.forall_mem_cons.mp hdot
      rw [List.flatMap_cons, List.foldlM_append, List.forall_mem_cons, List.foldl_cons, List.length_cons]
      constructor
      · intro h
        obtain ⟨q, hq, hrest⟩ := Option.bind_eq_some_iff.mp h
        obtain ⟨hoctet, hlt, rfl⟩ := (foldlM_octet ho).mp hq
        obtain ⟨hall, hle, rfl⟩ := (ih hsegs (by omega)).mp hrest
        exact ⟨⟨hoctet, hall⟩, by omega, by rw [Nat.add_right_comm, Nat.add_assoc]⟩
      · rintro ⟨⟨hoctet, hall⟩, hle, rfl⟩
        refine Option.bind_eq_some_iff.mpr ⟨_, (foldlM_octet ho).mpr ⟨hoctet, by omega, rfl⟩, ?_⟩
        exact (ih hsegs (by omega)).mpr ⟨hall, by omega, by rw [Nat.add_right_comm, Nat.add_assoc]⟩

theorem exists_segments (s : QString) :
    ∃ segs : List QString, (∀ o ∈ segs, dot ∉ o) ∧ s ++ [dot] = segs.flatMap (· ++ [dot]) := by
  induction s with
  | nil => exact ⟨[[]], by simp, rfl⟩
  | cons ch s ih =>
      obtain ⟨segs, hdot, hs⟩ := ih
      by_cases hch : ch = dot
      · refine ⟨[] :: segs, List.forall_mem_cons.mpr ⟨List.not_mem_nil, hdot⟩, ?_⟩
        rw [List.cons_append, hs, List.flatMap_cons, hch]
        rfl
      · cases segs with
        | nil => exact absurd hs (List.append_ne_nil_of_right_ne_nil s (List.cons_ne_nil _ _))
        | cons o segs =>
            obtain ⟨ho, hsegs⟩ := List.forall_mem_cons.mp hdot
            refine ⟨(ch :: o) :: segs, List.forall_mem_cons.mpr ⟨?_, hsegs⟩, ?_⟩
            · exact List.not_mem_cons_of_ne_of_not_mem (Ne.symm hch) ho
            · rw [List.cons_append, hs]
              rfl

theorem toNat_pushOctet (hacc : acc.toNat < 2 ^ 24) (ho : octetValue o ≤ 255) :
    (pushOctet acc o).toNat = acc.toNat * 256 + octetValue o := by
  have hvalue : (UInt32.ofNat (octetValue o)).toNat = octetValue o := UInt32.toNat_ofNat_of_lt' (by
    show octetValue o < 2 ^ 32
    omega)
  have hshift : (acc <<< 8).toNat = acc.toNat <<< 8 := by
    rw [UInt32.toNat_shiftLeft]
    exact Nat.mod_eq_of_lt (by rw [Nat.shiftLeft_eq]; show acc.toNat * 2 ^ 8 < 2 ^ 32; omega)
  rw [pushOctet, UInt32.toNat_or, hshift, hvalue, ← Nat.shiftLeft_add_eq_or_of_lt (by omega), Nat.shiftLeft_eq]

def IsIpv4 (s : QString) (ip : UInt32) : Prop :=
  ∃ a b c d, IsOctet a ∧ IsOctet b ∧ IsOctet c ∧ IsOctet d ∧
    s = a ++ dot :: (b ++ dot :: (c ++ dot :: d)) ∧
    ip.toNat = ((octetValue a * 256 + octetValue b) * 256 + octetValue c) * 256 + octetValue d

theorem toNat_octets {a b c d : QString} (ha : IsOctet a) (hb : IsOctet b) (hc : IsOctet c) (hd : IsOctet d) :
    ([a, b, c, d].foldl pushOctet 0).toNat =
      ((octetValue a * 256 + octetValue b) * 256 + octetValue c) * 256 + octetValue d := by
  have hale := ha.2.2
  have hble := hb.2.2
  have hcle := hc.2.2
  have hone : (pushOctet 0 a).toNat = octetValue a := by
    rw [toNat_pushOctet (by decide) hale]
    exact Nat.zero_add _
  have htwo := @toNat_pushOctet (pushOctet 0 a) b (by rw [hone]; omega) hble
  have hthree := @toNat_pushOctet (pushOctet (pushOctet 0 a) b) c (by rw [htwo, hone]; omega) hcle
  have hfour := @toNat_pushOctet (pushOctet (pushOctet (pushOctet 0 a) b) c) d (by rw [hthree, htwo, hone]; omega)
    hd.2.2
  rw [hthree, htwo, hone] at hfour
  exact hfour

-- Exactly four decimal numbers from 0 to 255, with the first the highest byte.
theorem parseIpv4_iff {ip : UInt32} : parseIpv4 s = some ip ↔ IsIpv4 s ip := by
  have hjoin : ∀ a b c d : QString, [a, b, c, d].flatMap (· ++ [dot]) =
      (a ++ dot :: (b ++ dot :: (c ++ dot :: d))) ++ [dot] := fun a b c d => by simp
  unfold parseIpv4
  constructor
  · intro h
    obtain ⟨segs, hdot, hs⟩ := exists_segments s
    obtain ⟨p, hp, hlast⟩ := Option.bind_eq_some_iff.mp h
    rw [hs] at hp
    obtain ⟨hall, -, rfl⟩ := (foldlM_octets hdot (Nat.zero_le 4)).mp hp
    split_ifs at hlast with hfour
    rw [Nat.zero_add, not_not] at hfour
    match segs, hfour with
    | [a, b, c, d], _ =>
        obtain ⟨ha, hb, hc, hd⟩ : IsOctet a ∧ IsOctet b ∧ IsOctet c ∧ IsOctet d :=
          ⟨hall a (by simp), hall b (by simp), hall c (by simp), hall d (by simp)⟩
        refine ⟨a, b, c, d, ha, hb, hc, hd, ?_, ?_⟩
        · rw [hjoin] at hs
          exact List.append_cancel_right hs
        · rw [← Option.some_inj.mp hlast, toNat_octets ha hb hc hd]
  · rintro ⟨a, b, c, d, ha, hb, hc, hd, rfl, hip⟩
    have hfree : ∀ {o : QString}, IsOctet o → dot ∉ o := fun ho hmem =>
      Bool.false_ne_true (ho.2.1 dot hmem)
    have hall : ∀ o ∈ [a, b, c, d], IsOctet o := by
      simp only [List.forall_mem_cons]
      exact ⟨ha, hb, hc, hd, nofun⟩
    have hrun := (@foldlM_octets 0 0 ⟨[a, b, c, d].foldl pushOctet 0, 4, -1⟩ _ (fun o ho => hfree (hall o ho))
      (Nat.zero_le 4)).mpr ⟨hall, Nat.le_refl 4, rfl⟩
    refine Option.bind_eq_some_iff.mpr ⟨_, hjoin a b c d ▸ hrun, ?_⟩
    change some ([a, b, c, d].foldl pushOctet 0) = some ip
    rw [Option.some_inj]
    apply UInt32.toNat_inj.mp
    rw [hip, toNat_octets ha hb hc hd]

end Addresses

section Ranges

variable {rows sorted : List Range} {ip : UInt32}

def Disjoint (x y : Range) : Prop := ∀ ip, ¬ (x.contains ip = true ∧ y.contains ip = true)

theorem contains_iff {r : Range} : r.contains ip = true ↔ r.start ≤ ip ∧ ip ≤ r.stop := by
  rw [Range.contains, Bool.and_eq_true, decide_eq_true_eq, decide_eq_true_eq]

theorem contains_start (r : Range) : r.contains r.start = true := contains_iff.mpr ⟨UInt32.le_refl _, r.ordered⟩

-- No address is in two rows.
theorem unique_of_disjoint (h : rows.Pairwise Disjoint) {x y : Range} (hx : x ∈ rows) (hy : y ∈ rows)
    (hxip : x.contains ip = true) (hyip : y.contains ip = true) : x = y := by
  have hno : ∀ {x y : Range}, Disjoint x y → x.contains ip = true → y.contains ip = true → x = y :=
    fun hd hx hy => absurd ⟨hx, hy⟩ (hd ip)
  exact List.Pairwise.forall_of_forall_of_flip (R := fun x y : Range => x.contains ip = true → y.contains ip = true → x = y)
    (fun _ _ _ _ => rfl) (h.imp hno) (h.imp fun hd hy hx => (hno hd hx hy).symm) hx hy hxip hyip

theorem find_iff (hsorted : sorted.Pairwise fun x y => x.start ≤ y.start) (h : rows.Pairwise Disjoint)
    (hperm : sorted.Perm rows) {r : Range} : find sorted ip = some r ↔ r ∈ rows ∧ r.contains ip = true := by
  have hpart : UpperBound.Partitioned (fun r : Range => ip < r.start) sorted :=
    hsorted.imp fun hle hlt => decide_eq_true (UInt32.lt_of_lt_of_le (of_decide_eq_true hlt) hle)
  have hafter : ∀ {i x}, sorted[i]? = some x →
      (ip < x.start ↔ UpperBound.upperBound (fun r : Range => ip < r.start) sorted ≤ i) := fun hx =>
    decide_eq_true_iff.symm.trans (UpperBound.after_iff hpart hx)
  have hbefore : ∀ {r}, r ∈ rows → r.contains ip = true →
      ∃ i, sorted[i]? = some r ∧ i < UpperBound.upperBound (fun r : Range => ip < r.start) sorted := by
    intro r hr hip
    obtain ⟨i, hi⟩ := List.getElem?_of_mem (hperm.mem_iff.mpr hr)
    exact ⟨i, hi, not_le.mp fun hle => UInt32.not_lt.mpr (contains_iff.mp hip).1 ((hafter hi).mpr hle)⟩
  have hlen := (UpperBound.upperBound_spec hpart).1
  unfold find
  cases hk : UpperBound.upperBound (fun r : Range => ip < r.start) sorted with
  | zero =>
      refine iff_of_false nofun fun ⟨hr, hip⟩ => ?_
      obtain ⟨i, -, hi⟩ := hbefore hr hip
      omega
  | succ it =>
      have hin : it < sorted.length := by omega
      have hget : sorted[it]? = some sorted[it] := List.getElem?_eq_getElem hin
      have hmem : sorted[it] ∈ rows := hperm.mem_iff.mp (List.getElem_mem hin)
      have hstart : sorted[it].start ≤ ip := by
        rw [← UInt32.not_lt, hafter hget]
        omega
      dsimp only
      rw [hget]
      dsimp only
      by_cases hstop : ip ≤ sorted[it].stop
      · have hcontains : sorted[it].contains ip = true := contains_iff.mpr ⟨hstart, hstop⟩
        rw [if_pos hstop, Option.some_inj]
        constructor
        · rintro rfl
          exact ⟨hmem, hcontains⟩
        · exact fun ⟨hr, hip⟩ => unique_of_disjoint h hmem hr hcontains hip
      · rw [if_neg hstop]
        refine iff_of_false nofun fun ⟨hr, hip⟩ => ?_
        obtain ⟨i, hi, hlt⟩ := hbefore hr hip
        -- A row that starts no later and reaches the address would reach into this one.
        have hle : r.start ≤ sorted[it].start := by
          obtain ⟨hil, rfl⟩ := List.getElem?_eq_some_iff.mp hi
          rcases Nat.lt_or_eq_of_le (show i ≤ it by omega) with hlt | rfl
          · exact List.pairwise_iff_getElem.mp hsorted i it hil hin hlt
          · exact UInt32.le_refl _
        obtain ⟨-, hreach⟩ := contains_iff.mp hip
        have hboth : r.contains sorted[it].start = true :=
          contains_iff.mpr ⟨hle, UInt32.le_trans hstart hreach⟩
        rw [unique_of_disjoint h hr hmem hboth (contains_start _)] at hreach
        exact hstop hreach

variable (toUpper : UInt16 → UInt16)

-- One row after the other.
def scan (rows : List Range) (ip : UInt32) : Option Range := rows.find? (·.contains ip)

theorem scan_iff (h : rows.Pairwise Disjoint) {r : Range} :
    scan rows ip = some r ↔ r ∈ rows ∧ r.contains ip = true := by
  have hfound : ∀ {x}, scan rows ip = some x → x ∈ rows ∧ x.contains ip = true := fun {x} hx =>
    ⟨List.mem_of_find?_eq_some hx, List.find?_some (p := fun r : Range => r.contains ip) hx⟩
  refine ⟨hfound, ?_⟩
  rintro ⟨hr, hip⟩
  cases hscan : scan rows ip with
  | none => exact absurd hip (List.find?_eq_none.mp hscan r hr)
  | some x => rw [unique_of_disjoint h hr (hfound hscan).1 hip (hfound hscan).2]

theorem sorted_loadCsv (csv : QString) : (loadCsv toUpper csv).Pairwise fun x y => x.start ≤ y.start := by
  have hsort := @List.pairwise_mergeSort Range (fun x y => decide (x.start ≤ y.start))
    (fun x y z hxy hyz => decide_eq_true (UInt32.le_trans (of_decide_eq_true hxy) (of_decide_eq_true hyz)))
    (fun x y => by
      rw [Bool.or_eq_true, decide_eq_true_eq, decide_eq_true_eq]
      exact UInt32.le_total _ _) (accepted toUpper csv)
  exact hsort.imp of_decide_eq_true

theorem find_loadCsv {csv : QString} (h : (accepted toUpper csv).Pairwise Disjoint) (ip : UInt32) :
    find (loadCsv toUpper csv) ip = scan (accepted toUpper csv) ip := by
  ext r
  rw [find_iff (sorted_loadCsv toUpper csv) h (List.mergeSort_perm _ _), scan_iff h]

theorem disjoint_of_lt {x y : Range} (h : y.stop < x.start) : Disjoint x y := by
  rintro ip ⟨hx, hy⟩
  have hle := UInt32.le_trans (contains_iff.mp hx).1 (contains_iff.mp hy).2
  exact UInt32.not_lt.mpr hle h

def units (s : String) : QString := s.toList.map fun c => UInt16.ofNat c.toNat

-- Unsorted rows that touch, with rows that are skipped between them.
def rowsThatTouch : QString := units "1.0.1.0,1.0.3.255,CN\n::1,::2,ZZ\n1.0.0,x,YY\n\"1.0.0.0\",1.0.0.255,AU\n"

theorem accepted_rowsThatTouch : accepted id rowsThatTouch =
    [⟨16777472, 16778239, (67, 78), by decide⟩, ⟨16777216, 16777471, (65, 85), by decide⟩] := by
  decide +kernel

end Ranges

end BATorrent.GeoIpDb
