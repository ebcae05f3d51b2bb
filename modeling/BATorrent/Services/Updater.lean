import BATorrent.Lib.DataStream
import BATorrent.Lib.Text
import Mathlib.Data.List.Lex
import Mathlib.Data.Prod.Lex
import Mathlib.Order.PiLex
import Mathlib.Order.WithBot

namespace BATorrent.Updater

open Lib
open Lib.DataStream (QString)

-- What is no number, or none that fits, reads as 0.
def toInt (s : QString) : Int :=
  match Text.signed? (Text.trim (s.map fun u => Char.ofNat u.toNat)) with
  | some n => if -(2 ^ 31) ≤ n ∧ n < 2 ^ 31 then n else 0
  | none => 0

def splitVersion (v : QString) : QString × QString :=
  match v.idxOf? 45 with
  | some dash => (v.take dash, v.drop (dash + 1))
  | none => (v, [])

def partAt (parts : List QString) (i : Nat) : Int :=
  match parts[i]? with
  | some part => toInt part
  | none => 0

def compareParts (partsA partsB : List QString) : Option Int :=
  (List.range (max partsA.length partsB.length)).findSome? fun i =>
    let va := partAt partsA i
    let vb := partAt partsB i
    if va ≠ vb then some (if va < vb then -1 else 1) else none

-- Text is compared by its code units.
def units (s : QString) : List Nat := s.map UInt16.toNat

def compareVersions (a b : QString) : Int :=
  let (baseA, preA) := splitVersion a
  let (baseB, preB) := splitVersion b
  match compareParts (baseA.splitOn 46) (baseB.splitOn 46) with
  | some r => r
  | none =>
      if preA = [] ∧ preB ≠ [] then 1
      else if preA ≠ [] ∧ preB = [] then -1
      else if preA ≠ preB then if units preA < units preB then -1 else 1
      else 0

-- What is not there reads as empty, or as false.
structure Release where
  tagName : QString
  draft : Bool
  prerelease : Bool
deriving DecidableEq

-- A document that is neither an object nor an array reads as an empty array.
inductive Document where
  | object (o : Release)
  | array (releases : List Release)

def Release.usable (o : Release) (allowPrerelease : Bool) : Bool :=
  if o.tagName = [] then false
  else if o.draft then false
  else allowPrerelease || !o.prerelease

def Release.version (o : Release) : QString :=
  match o.tagName with
  | c :: t => if c = 118 then t else c :: t
  | [] => []

-- One turn of the loop over the releases, with the best so far.
def pickStep (allowPrerelease : Bool) (best : Option Release) (o : Release) : Option Release :=
  if !o.usable allowPrerelease then best
  else
    match best with
    | none => some o
    | some b => if 0 < compareVersions o.version b.version then some o else some b

def pickRelease (doc : Document) (allowPrerelease : Bool) : Option Release :=
  match doc with
  | .object o => if o.usable allowPrerelease then some o else none
  | .array releases => releases.foldl (pickStep allowPrerelease) none

section ThreeWay

variable {α β : Type*} [LinearOrder α] [LinearOrder β] {a b c : α}

def threeWay (a b : α) : Int := if a < b then -1 else if a = b then 0 else 1

theorem threeWay_eq_zero : threeWay a b = 0 ↔ a = b := by
  unfold threeWay
  split_ifs with hlt heq
  · exact iff_of_false (by decide) hlt.ne
  · exact iff_of_true rfl heq
  · exact iff_of_false (by decide) heq

theorem threeWay_nonpos : threeWay a b ≤ 0 ↔ a ≤ b := by
  unfold threeWay
  split_ifs with hlt heq
  · exact iff_of_true (by decide) hlt.le
  · exact iff_of_true (le_refl 0) heq.le
  · exact iff_of_false (by decide) fun hle => hle.lt_or_eq.elim hlt heq

theorem threeWay_swap (a b : α) : threeWay a b = -threeWay b a := by
  rcases lt_trichotomy a b with hlt | heq | hgt
  · rw [threeWay, if_pos hlt, threeWay, if_neg hlt.not_gt, if_neg hlt.ne']
  · rw [threeWay_eq_zero.mpr heq, threeWay_eq_zero.mpr heq.symm, neg_zero]
  · rw [threeWay, if_neg hgt.not_gt, if_neg hgt.ne', threeWay, if_pos hgt, neg_neg]

theorem threeWay_pair (a b : α) (x y : β) :
    threeWay (toLex (a, x)) (toLex (b, y)) = if a = b then threeWay x y else threeWay a b := by
  unfold threeWay
  by_cases hab : a = b
  · subst hab
    simp [Prod.Lex.toLex_lt_toLex]
  · simp [Prod.Lex.toLex_lt_toLex, hab]

end ThreeWay

section Keys

-- The numbers of a version, with no end, and what follows them, where nothing is more than anything.
noncomputable def key (v : QString) : Lex (ℕ → ℤ) ×ₗ WithTop (List ℕ) :=
  toLex (toLex (partAt ((splitVersion v).1.splitOn 46)),
    if (splitVersion v).2 = [] then ⊤ else units (splitVersion v).2)

theorem partAt_past {parts : List QString} {i : Nat} (h : parts.length ≤ i) : partAt parts i = 0 := by
  rw [partAt, List.getElem?_eq_none h]

theorem lex_lt_iff {f g : ℕ → ℤ} {i : Nat} (hsame : ∀ j < i, f j = g j) (hne : f i ≠ g i) :
    (toLex f < toLex g) ↔ f i < g i := by
  constructor
  · rintro ⟨k, hbefore, hlt⟩
    rcases lt_trichotomy k i with hki | rfl | hik
    · exact absurd (hsame k hki) hlt.ne
    · exact hlt
    · exact absurd (hbefore i hik) hne
  · exact fun hlt => ⟨i, hsame, hlt⟩

theorem compareParts_same {partsA partsB : List QString} (h : partAt partsA = partAt partsB) :
    compareParts partsA partsB = none := by
  refine List.findSome?_eq_none_iff.mpr fun i _ => ?_
  rw [h]
  exact if_neg (not_not_intro rfl)

theorem compareParts_other {partsA partsB : List QString} (h : partAt partsA ≠ partAt partsB) :
    compareParts partsA partsB = some (threeWay (toLex (partAt partsA)) (toLex (partAt partsB))) := by
  have hdiff : ∃ i, partAt partsA i ≠ partAt partsB i := Function.ne_iff.mp h
  obtain ⟨i, hne, hsame⟩ : ∃ i, partAt partsA i ≠ partAt partsB i ∧ ∀ j < i, partAt partsA j = partAt partsB j :=
    ⟨Nat.find hdiff, Nat.find_spec hdiff, fun j hj => not_not.mp (Nat.find_min hdiff hj)⟩
  have hlt : i < max partsA.length partsB.length := by
    by_contra hpast
    have hA : partsA.length ≤ i := by omega
    have hB : partsB.length ≤ i := by omega
    exact hne ((partAt_past hA).trans (partAt_past hB).symm)
  obtain ⟨rest, hrange⟩ : ∃ rest, List.range (max partsA.length partsB.length) = List.range i ++ i :: rest := by
    obtain ⟨k, hk⟩ := Nat.exists_eq_add_of_lt hlt
    refine ⟨(List.range k).map (i + 1 + ·), ?_⟩
    rw [hk, show i + k + 1 = i + 1 + k by omega, List.range_add, List.range_succ, List.append_assoc]
    rfl
  have hbefore : (List.range i).findSome? (fun i =>
      if partAt partsA i ≠ partAt partsB i then some (if partAt partsA i < partAt partsB i then (-1 : Int) else 1)
      else none) = none :=
    List.findSome?_eq_none_iff.mpr fun j hj => if_neg (not_not_intro (hsame j (List.mem_range.mp hj)))
  have hneq : toLex (partAt partsA) ≠ toLex (partAt partsB) := fun heq => h (toLex.injective heq)
  unfold compareParts
  dsimp only
  rw [hrange, List.findSome?_append, hbefore, Option.none_or, List.findSome?_cons, if_pos hne]
  dsimp only
  rw [threeWay]
  by_cases hi : partAt partsA i < partAt partsB i
  · rw [if_pos hi]
    exact congrArg some (if_pos ((lex_lt_iff hsame hne).mpr hi)).symm
  · rw [if_neg hi, if_neg hneq]
    exact congrArg some (if_neg fun hlex => hi ((lex_lt_iff hsame hne).mp hlex)).symm

theorem units_injective : Function.Injective units := by
  intro s t h
  exact List.map_injective_iff.mpr (fun a b hab => UInt16.toNat_inj.mp hab) h

theorem compareVersions_eq (a b : QString) : compareVersions a b = threeWay (key a) (key b) := by
  rcases hA : splitVersion a with ⟨baseA, preA⟩
  rcases hB : splitVersion b with ⟨baseB, preB⟩
  unfold compareVersions key
  rw [hA, hB]
  dsimp only
  rw [threeWay_pair]
  by_cases hparts : partAt (baseA.splitOn 46) = partAt (baseB.splitOn 46)
  · rw [compareParts_same hparts, if_pos (congrArg toLex hparts)]
    dsimp only
    by_cases hpreA : preA = []
    · by_cases hpreB : preB = []
      · simp [hpreA, hpreB, threeWay]
      · simp [hpreA, hpreB, threeWay]
    · by_cases hpreB : preB = []
      · simp [hpreA, hpreB, threeWay]
      · by_cases hsame : preA = preB
        · simp [hsame, threeWay]
        · have hunits : units preA ≠ units preB := fun heq => hsame (units_injective heq)
          simp [hpreA, hpreB, hsame, hunits, threeWay]
  · rw [compareParts_other hparts, if_neg fun heq => hparts (toLex.injective heq)]

end Keys

end BATorrent.Updater
