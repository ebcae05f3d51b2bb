import BATorrent.Services.Updater
import Mathlib.Data.Prod.Lex

namespace BATorrent.Updater

open Lib
open Lib.DataStream (QString)

section Tags

inductive Pre where
  | beta
  | rc
deriving DecidableEq

def Pre.name : Pre → List Char
  | .beta => ['b', 'e', 't', 'a']
  | .rc => ['r', 'c']

-- A tag of the project, less its v: X.Y.Z and, before the final release, which test build it is.
structure Tag where
  x : Nat
  y : Nat
  z : Nat
  pre : Option (Pre × Nat)
deriving DecidableEq

def asUnits (t : List Char) : QString := t.map fun c => UInt16.ofNat c.toNat

def digits (n : Nat) : List Char := Nat.toDigits 10 n

def Tag.base (t : Tag) : List Char := digits t.x ++ '.' :: (digits t.y ++ '.' :: digits t.z)

def Tag.suffix (t : Tag) : List Char :=
  match t.pre with
  | some (pre, n) => pre.name ++ digits n
  | none => []

def Tag.text (t : Tag) : QString :=
  asUnits (t.base ++ if t.pre = none then [] else '-' :: t.suffix)

-- Every beta before every rc before the final release.
def Tag.stage (t : Tag) : Nat :=
  match t.pre with
  | some (.beta, _) => 0
  | some (.rc, _) => 1
  | none => 2

def Tag.build (t : Tag) : Nat :=
  match t.pre with
  | some (_, n) => n
  | none => 0

def Tag.core (t : Tag) : ℕ ×ₗ ℕ ×ₗ ℕ := toLex (t.x, toLex (t.y, t.z))

def Tag.test (t : Tag) : ℕ ×ₗ ℕ := toLex (t.stage, t.build)

-- The order the releases were made in.
def Tag.made (t : Tag) : (ℕ ×ₗ ℕ ×ₗ ℕ) ×ₗ (ℕ ×ₗ ℕ) := toLex (t.core, t.test)

-- The numbers as an int holds them, and the number of the test build as text.
def held (n : Nat) : Nat := if n < 2 ^ 31 then n else 0

def Tag.heldCore (t : Tag) : ℕ ×ₗ ℕ ×ₗ ℕ := toLex (held t.x, toLex (held t.y, held t.z))

def Tag.testText (t : Tag) : ℕ ×ₗ List ℕ :=
  toLex (t.stage, if t.pre = none then [] else units (asUnits (digits t.build)))

end Tags

section Text

variable {n : Nat}

theorem toChar_asUnits {t : List Char} (h : ∀ c ∈ t, c.isDigit) :
    (asUnits t).map (fun u => Char.ofNat u.toNat) = t := by
  rw [asUnits, List.map_map]
  refine (List.map_congr_left fun c hc => ?_).trans (List.map_id t)
  have hdigit := h c hc
  simp only [Char.isDigit, Bool.and_eq_true, decide_eq_true_eq] at hdigit
  have hlt : c.toNat < 2 ^ 16 := by
    have hle : c.val.toNat ≤ '9'.val.toNat := hdigit.2
    have hnine : '9'.val.toNat = 57 := rfl
    exact (hnine ▸ hle).trans_lt (by decide)
  rw [Function.comp_apply, UInt16.toNat_ofNat_of_lt' hlt, Char.ofNat_toNat]
  rfl

theorem isDigit_digits : ∀ c ∈ digits n, c.isDigit := fun _ hc =>
  Nat.isDigit_of_mem_toDigits (by decide) (by decide) hc

theorem toInt_digits (n : Nat) : toInt (asUnits (digits n)) = held n := by
  have hsigned := Text.signed?_number n
  rw [Text.number, if_neg (by omega), Int.natAbs_natCast] at hsigned
  rw [toInt, toChar_asUnits isDigit_digits, digits, hsigned]
  dsimp only
  unfold held
  by_cases h : n < 2 ^ 31
  · rw [if_pos h, if_pos (by omega)]
  · rw [if_neg h, if_neg (by omega)]
    rfl

theorem notMem_digits {u : UInt16} (hu : u.toNat < 48) : u ∉ asUnits (digits n) := by
  intro hmem
  obtain ⟨c, hc, rfl⟩ := List.mem_map.mp hmem
  have hdigit := isDigit_digits c hc
  simp only [Char.isDigit, Bool.and_eq_true, decide_eq_true_eq] at hdigit
  have hge : 48 ≤ c.toNat := hdigit.1
  have hle : c.toNat ≤ 57 := hdigit.2
  have hsize : UInt16.size = 65536 := rfl
  rw [UInt16.toNat_ofNat_of_lt' (by omega)] at hu
  omega

theorem asUnits_append (s t : List Char) : asUnits (s ++ t) = asUnits s ++ asUnits t := List.map_append

theorem asUnits_base (t : Tag) :
    asUnits t.base = asUnits (digits t.x) ++ 46 :: (asUnits (digits t.y) ++ 46 :: asUnits (digits t.z)) := by
  rw [Tag.base, asUnits_append]
  refine congrArg (asUnits (digits t.x) ++ ·) (congrArg (46 :: ·) ?_)
  exact asUnits_append _ _

theorem splitOn_base (t : Tag) :
    (asUnits t.base).splitOn 46 = [asUnits (digits t.x), asUnits (digits t.y), asUnits (digits t.z)] := by
  rw [asUnits_base, List.splitOn_append_cons_self_of_not_mem (notMem_digits (by decide)),
    List.splitOn_append_cons_self_of_not_mem (notMem_digits (by decide)),
    List.splitOn_eq_singleton (notMem_digits (by decide))]

theorem notMem_base (t : Tag) : 45 ∉ asUnits t.base := by
  rw [asUnits_base]
  simp only [List.mem_append, List.mem_cons, not_or]
  exact ⟨notMem_digits (by decide), by decide, notMem_digits (by decide), by decide, notMem_digits (by decide)⟩

theorem splitVersion_text (t : Tag) : splitVersion t.text = (asUnits t.base, asUnits t.suffix) := by
  unfold Tag.text splitVersion
  rw [asUnits_append]
  cases hpre : t.pre with
  | none =>
      rw [if_pos rfl, show asUnits [] = [] from rfl, List.append_nil, List.idxOf?_eq_none_iff.mpr (notMem_base t),
        Tag.suffix, hpre]
      rfl
  | some pre =>
      rw [if_neg nofun, show asUnits ('-' :: t.suffix) = 45 :: asUnits t.suffix from rfl,
        Text.idxOf?_append_cons (notMem_base t)]
      dsimp only
      rw [List.take_left, ← List.drop_drop, List.drop_left]
      rfl

end Text

section Keys

variable (t u : Tag)

theorem partAt_text (i : Nat) : partAt ((asUnits t.base).splitOn 46) i =
    match i with
    | 0 => (held t.x : Int)
    | 1 => held t.y
    | 2 => held t.z
    | _ + 3 => 0 := by
  rw [splitOn_base]
  match i with
  | 0 => exact toInt_digits t.x
  | 1 => exact toInt_digits t.y
  | 2 => exact toInt_digits t.z
  | _ + 3 => rfl

theorem threeWay_of_lt_iff {α β : Type*} [LinearOrder α] [LinearOrder β] {a b : α} {c d : β} (hlt : a < b ↔ c < d)
    (heq : a = b ↔ c = d) : threeWay a b = threeWay c d := by
  unfold threeWay
  exact if_congr hlt rfl (if_congr heq rfl rfl)

theorem threeWay_natCast (m n : Nat) : threeWay (m : Int) n = threeWay m n :=
  threeWay_of_lt_iff Int.ofNat_lt Int.ofNat_inj

-- The first number that differs decides.
theorem threeWay_at {f g : ℕ → ℤ} {i : Nat} (hsame : ∀ j < i, f j = g j) (hne : f i ≠ g i) :
    threeWay (toLex f) (toLex g) = threeWay (f i) (g i) := by
  refine threeWay_of_lt_iff (lex_lt_iff hsame hne) (iff_of_false (fun heq => hne ?_) hne)
  exact congrFun (toLex.injective heq) i

theorem threeWay_core : threeWay (toLex (partAt ((asUnits t.base).splitOn 46)))
    (toLex (partAt ((asUnits u.base).splitOn 46))) = threeWay t.heldCore u.heldCore := by
  have hcast : ∀ {m n : Nat}, m ≠ n → (m : Int) ≠ n := fun hne heq => hne (Int.ofNat_inj.mp heq)
  rw [Tag.heldCore, Tag.heldCore, threeWay_pair, threeWay_pair]
  split_ifs with hx hy
  · by_cases hz : held t.z = held u.z
    · rw [threeWay_eq_zero.mpr hz, threeWay_eq_zero]
      refine congrArg toLex (funext fun i => ?_)
      rw [partAt_text, partAt_text, hx, hy, hz]
    · refine (threeWay_at (i := 2) (fun j hj => ?_) ?_).trans ?_
      · rw [partAt_text, partAt_text, hx, hy]
        match j, hj with
        | 0, _ => rfl
        | 1, _ => rfl
      · rw [partAt_text, partAt_text]
        exact hcast hz
      · rw [partAt_text, partAt_text]
        exact threeWay_natCast _ _
  · refine (threeWay_at (i := 1) (fun j hj => ?_) ?_).trans ?_
    · rw [Nat.lt_one_iff.mp hj, partAt_text, partAt_text, hx]
    · rw [partAt_text, partAt_text]
      exact hcast hy
    · rw [partAt_text, partAt_text]
      exact threeWay_natCast _ _
  · refine (threeWay_at (i := 0) (fun j hj => absurd hj (Nat.not_lt_zero j)) ?_).trans ?_
    · rw [partAt_text, partAt_text]
      exact hcast hx
    · rw [partAt_text, partAt_text]
      exact threeWay_natCast _ _

def suffixKey (suffix : QString) : WithTop (List ℕ) := if suffix = [] then ⊤ else units suffix

theorem units_asUnits_append (s t : List Char) :
    units (asUnits (s ++ t)) = units (asUnits s) ++ units (asUnits t) := by
  rw [asUnits_append]
  exact List.map_append

theorem append_lt_append (s : List ℕ) (a b : List ℕ) : s ++ a < s ++ b ↔ a < b := by
  induction s with
  | nil => exact Iff.rfl
  | cons c s ih =>
      rw [List.cons_append, List.cons_append, List.cons_lt_cons_self]
      exact ih

theorem threeWay_append (s a b : List ℕ) : threeWay (s ++ a) (s ++ b) = threeWay a b :=
  threeWay_of_lt_iff (append_lt_append s a b) (List.append_right_inj s)

theorem threeWay_of_lt {α : Type*} [LinearOrder α] {a b : α} (h : a < b) : threeWay a b = -1 := if_pos h

theorem threeWay_of_gt {α : Type*} [LinearOrder α] {a b : α} (h : b < a) : threeWay a b = 1 := by
  rw [threeWay_swap, threeWay_of_lt h, neg_neg]

theorem suffix_of_pre {t : Tag} {pre : Pre} {n : Nat} (h : t.pre = some (pre, n)) :
    suffixKey (asUnits t.suffix) = units (asUnits pre.name) ++ units (asUnits (digits n)) := by
  have hne : asUnits t.suffix ≠ [] := by
    rw [Tag.suffix, h]
    cases pre <;> exact List.cons_ne_nil _ _
  rw [suffixKey, if_neg hne, Tag.suffix, h]
  exact congrArg _ (units_asUnits_append _ _)

theorem suffix_of_final {t : Tag} (h : t.pre = none) : suffixKey (asUnits t.suffix) = ⊤ := by
  rw [Tag.suffix, h]
  rfl

theorem beta_lt_rc (a b : List ℕ) :
    units (asUnits Pre.beta.name) ++ a < units (asUnits Pre.rc.name) ++ b :=
  List.Lex.rel (show 98 < 114 by decide)

theorem threeWay_suffix : threeWay (suffixKey (asUnits t.suffix)) (suffixKey (asUnits u.suffix)) =
    threeWay t.testText u.testText := by
  rw [Tag.testText, Tag.testText, threeWay_pair]
  have hcoe : ∀ a b : List ℕ, threeWay (a : WithTop (List ℕ)) b = threeWay a b := fun a b =>
    threeWay_of_lt_iff WithTop.coe_lt_coe WithTop.coe_inj
  cases ht : t.pre with
  | none =>
      rw [suffix_of_final ht]
      cases hu : u.pre with
      | none => simp [suffix_of_final hu, Tag.stage, ht, hu, threeWay]
      | some test =>
          rw [suffix_of_pre hu, threeWay_of_gt (WithTop.coe_lt_top _)]
          rcases test with ⟨pre, n⟩
          cases pre <;> simp [Tag.stage, ht, hu, threeWay]
  | some test =>
      rcases test with ⟨pre, n⟩
      rw [suffix_of_pre ht]
      cases hu : u.pre with
      | none =>
          rw [suffix_of_final hu, threeWay_of_lt (WithTop.coe_lt_top _)]
          cases pre <;> simp [Tag.stage, ht, hu, threeWay]
      | some test' =>
          rcases test' with ⟨pre', n'⟩
          rw [suffix_of_pre hu, hcoe]
          by_cases hpre : pre = pre'
          · subst hpre
            have hstage : t.stage = u.stage := by
              rw [Tag.stage, Tag.stage, ht, hu]
              cases pre <;> rfl
            rw [threeWay_append, if_pos hstage, if_neg (by simp), if_neg (by simp), Tag.build, Tag.build, ht, hu]
          · cases pre with
            | beta =>
                cases pre' with
                | beta => exact absurd rfl hpre
                | rc =>
                    rw [threeWay_of_lt (beta_lt_rc _ _)]
                    simp [Tag.stage, ht, hu, threeWay]
            | rc =>
                cases pre' with
                | beta =>
                    rw [threeWay_of_gt (beta_lt_rc _ _)]
                    simp [Tag.stage, ht, hu, threeWay]
                | rc => exact absurd rfl hpre

theorem compareVersions_text :
    compareVersions t.text u.text = threeWay (toLex (t.heldCore, t.testText)) (toLex (u.heldCore, u.testText)) := by
  rw [compareVersions_eq, key, key, splitVersion_text, splitVersion_text, threeWay_pair, threeWay_pair]
  have hcore := threeWay_core t u
  have hsuffix := threeWay_suffix t u
  have hsame : toLex (partAt ((asUnits t.base).splitOn 46)) = toLex (partAt ((asUnits u.base).splitOn 46)) ↔
      t.heldCore = u.heldCore := by
    rw [← threeWay_eq_zero, hcore, threeWay_eq_zero]
  exact if_congr hsame hsuffix hcore

end Keys

section Agree

variable (t u : Tag)

-- A number from 2^31 on reads as 0, and that of a test build is compared as text.
def Agree : Prop :=
  (threeWay t.heldCore u.heldCore = threeWay t.core u.core ∧
      (t.core = u.core → t.stage = u.stage →
        threeWay (units (asUnits (digits t.build))) (units (asUnits (digits u.build))) = threeWay t.build u.build)) ∨
    (t.heldCore = u.heldCore ∧ t.core ≠ u.core ∧ threeWay t.testText u.testText = threeWay t.core u.core)

theorem threeWay_testText : threeWay t.testText u.testText =
    if t.stage = u.stage then threeWay (units (asUnits (digits t.build))) (units (asUnits (digits u.build)))
    else threeWay t.stage u.stage := by
  rw [Tag.testText, Tag.testText, threeWay_pair]
  refine if_ctx_congr Iff.rfl (fun hstage => ?_) fun _ => rfl
  cases ht : t.pre with
  | none =>
      cases hu : u.pre with
      | none => simp [Tag.build, ht, hu, threeWay]
      | some test =>
          rcases test with ⟨pre, n⟩
          cases pre <;> simp [Tag.stage, ht, hu] at hstage
  | some test =>
      cases hu : u.pre with
      | none =>
          rcases test with ⟨pre, n⟩
          cases pre <;> simp [Tag.stage, ht, hu] at hstage
      | some test' => simp

theorem compareVersions_made : compareVersions t.text u.text = threeWay t.made u.made ↔ Agree t u := by
  rw [compareVersions_text, threeWay_pair, Tag.made, Tag.made, threeWay_pair, Agree]
  have htest : threeWay t.test u.test = if t.stage = u.stage then threeWay t.build u.build
      else threeWay t.stage u.stage := threeWay_pair _ _ _ _
  have htext := threeWay_testText t u
  by_cases hcore : t.core = u.core
  · have hheld : t.heldCore = u.heldCore := by
      simp only [Tag.core, EmbeddingLike.apply_eq_iff_eq, Prod.mk.injEq] at hcore
      simp only [Tag.heldCore, hcore]
    rw [if_pos hheld, if_pos hcore, htest, htext]
    simp only [hcore, hheld, threeWay_eq_zero.mpr, ne_eq, not_true_eq_false, false_and, and_false, or_false, true_and,
      forall_const]
    by_cases hstage : t.stage = u.stage
    · simp [hstage]
    · simp [hstage]
  · rw [if_neg hcore]
    by_cases hheld : t.heldCore = u.heldCore
    · have hne : threeWay t.core u.core ≠ 0 := fun h => hcore (threeWay_eq_zero.mp h)
      rw [if_pos hheld, threeWay_eq_zero.mpr hheld]
      simp [hheld, hcore, hne.symm]
    · rw [if_neg hheld]
      simp [hheld, hcore]

end Agree

section Pick

variable {allowPrerelease : Bool}

theorem compareVersions_self (a : QString) : compareVersions a a = 0 := by
  rw [compareVersions_eq]
  exact threeWay_eq_zero.mpr rfl

theorem compareVersions_swap (a b : QString) : compareVersions a b = -compareVersions b a := by
  rw [compareVersions_eq, compareVersions_eq]
  exact threeWay_swap _ _

theorem compareVersions_trans {a b c : QString} (hab : compareVersions a b ≤ 0) (hbc : compareVersions b c ≤ 0) :
    compareVersions a c ≤ 0 := by
  rw [compareVersions_eq, threeWay_nonpos] at hab hbc ⊢
  exact hab.trans hbc

def Document.releases : Document → List Release
  | .object o => [o]
  | .array releases => releases

-- The latest as the code compares, among what it could pick.
def Latest (releases : List Release) (allowPrerelease : Bool) : Option Release → Prop
  | none => ∀ o ∈ releases, o.usable allowPrerelease = false
  | some r => r ∈ releases ∧ r.usable allowPrerelease = true ∧
      ∀ o ∈ releases, o.usable allowPrerelease = true → compareVersions o.version r.version ≤ 0

theorem latest_pickStep {releases : List Release} {best : Option Release} (o : Release)
    (h : Latest releases allowPrerelease best) :
    Latest (releases ++ [o]) allowPrerelease (pickStep allowPrerelease best o) := by
  unfold pickStep
  by_cases hu : o.usable allowPrerelease
  · rw [hu]
    cases best with
    | none =>
        refine ⟨List.mem_append_right _ (List.mem_singleton_self o), hu, fun q hq huq => ?_⟩
        rcases List.mem_append.mp hq with hold | hnew
        · rw [h q hold] at huq
          exact absurd huq Bool.false_ne_true
        · rw [List.mem_singleton.mp hnew, compareVersions_self]
    | some b =>
        obtain ⟨hmem, hub, hle⟩ := h
        simp only [Bool.not_true, Bool.false_eq_true, if_false]
        by_cases hlater : 0 < compareVersions o.version b.version
        · rw [if_pos hlater]
          refine ⟨List.mem_append_right _ (List.mem_singleton_self o), hu, fun q hq huq => ?_⟩
          rcases List.mem_append.mp hq with hold | hnew
          · refine compareVersions_trans (hle q hold huq) ?_
            rw [compareVersions_swap]
            omega
          · rw [List.mem_singleton.mp hnew, compareVersions_self]
        · rw [if_neg hlater]
          refine ⟨List.mem_append_left _ hmem, hub, fun q hq huq => ?_⟩
          rcases List.mem_append.mp hq with hold | hnew
          · exact hle q hold huq
          · rw [List.mem_singleton.mp hnew]
            omega
  · rw [Bool.not_eq_true] at hu
    rw [hu, Bool.not_false, if_pos rfl]
    cases best with
    | none =>
        intro q hq
        rcases List.mem_append.mp hq with hold | hnew
        · exact h q hold
        · rw [List.mem_singleton.mp hnew, hu]
    | some b =>
        obtain ⟨hmem, hub, hle⟩ := h
        refine ⟨List.mem_append_left _ hmem, hub, fun q hq huq => ?_⟩
        rcases List.mem_append.mp hq with hold | hnew
        · exact hle q hold huq
        · rw [List.mem_singleton.mp hnew, hu] at huq
          exact absurd huq Bool.false_ne_true

-- Induction from the last release back: what stands before it has been folded already.
theorem latest_pickRelease (doc : Document) (allowPrerelease : Bool) :
    Latest doc.releases allowPrerelease (pickRelease doc allowPrerelease) := by
  have harray : ∀ releases : List Release,
      Latest releases allowPrerelease (releases.foldl (pickStep allowPrerelease) none) := by
    intro releases
    induction releases using List.reverseRecOn with
    | nil => exact fun o ho => absurd ho List.not_mem_nil
    | append_singleton releases o ih =>
        rw [List.foldl_append]
        exact latest_pickStep o ih
  cases doc with
  | array releases => exact harray releases
  | object o =>
      have hone : pickRelease (.object o) allowPrerelease = [o].foldl (pickStep allowPrerelease) none := by
        rw [List.foldl_cons, List.foldl_nil, pickRelease, pickStep]
        cases o.usable allowPrerelease <;> rfl
      rw [hone]
      exact harray [o]

end Pick

section Chosen

-- The order that compareVersions gives the tags of the project.
def Tag.asHeld (t : Tag) : (ℕ ×ₗ ℕ ×ₗ ℕ) ×ₗ (ℕ ×ₗ List ℕ) := toLex (t.heldCore, t.testText)

-- A tag for each release that could be picked.
def Tagged (releases : List Release) (allowPrerelease : Bool) (tag : Release → Tag) : Prop :=
  ∀ o ∈ releases, o.usable allowPrerelease = true → o.version = (tag o).text

theorem latest_tag {releases : List Release} {allowPrerelease : Bool} {tag : Release → Tag} {r o : Release}
    (hlatest : Latest releases allowPrerelease (some r)) (htag : Tagged releases allowPrerelease tag)
    (ho : o ∈ releases) (hu : o.usable allowPrerelease = true) : (tag o).asHeld ≤ (tag r).asHeld := by
  obtain ⟨hr, hur, hle⟩ := hlatest
  have hcompare := hle o ho hu
  rw [htag o ho hu, htag r hr hur, compareVersions_text, threeWay_nonpos] at hcompare
  exact hcompare

end Chosen

end BATorrent.Updater
