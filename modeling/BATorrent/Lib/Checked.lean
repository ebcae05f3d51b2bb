import BATorrent.Lib.FileBytes

namespace Lib

-- What C++ leaves undefined.
inductive Fault where
  | overflow
  | outOfBounds
deriving DecidableEq

abbrev Checked (α : Type) := Except Fault α

namespace Checked

variable {α β : Type}

section Operations

def Fits (n : Int) : Prop := -2 ^ 63 ≤ n ∧ n < 2 ^ 63

instance (n : Int) : Decidable (Fits n) := inferInstanceAs (Decidable (_ ∧ _))

-- The result of an operation on 64-bit integers.
def int64 (n : Int) : Checked Int := if Fits n then .ok n else .error .overflow

def index (xs : List α) (i : Nat) : Checked α :=
  match xs[i]? with
  | some x => .ok x
  | none => .error .outOfBounds

def load (mem : List α) (start len : Int) : Checked (List α) :=
  if 0 ≤ start ∧ 0 ≤ len ∧ start + len ≤ mem.length then
    .ok ((mem.drop start.toNat).take len.toNat)
  else .error .outOfBounds

def store [Inhabited α] (mem : List α) (start : Int) (xs : List α) : Checked (List α) :=
  if 0 ≤ start ∧ start + xs.length ≤ mem.length then
    .ok (FileBytes.writeAt mem default start.toNat xs)
  else .error .outOfBounds

end Operations

-- No fault, and a result with the property.
def Returns (x : Checked α) (Q : α → Prop) : Prop := ∃ a, x = .ok a ∧ Q a

theorem returns_ok {a : α} {Q : α → Prop} (h : Q a) : Returns (.ok a) Q := ⟨a, rfl, h⟩

theorem Returns.bind {x : Checked α} {f : α → Checked β} {P : α → Prop} {Q : β → Prop}
    (hx : Returns x P) (hf : ∀ a, P a → Returns (f a) Q) : Returns (x >>= f) Q := by
  obtain ⟨a, rfl, ha⟩ := hx
  exact hf a ha

theorem Returns.mono {x : Checked α} {P Q : α → Prop} (hx : Returns x P) (h : ∀ a, P a → Q a) :
    Returns x Q := by
  obtain ⟨a, hx, ha⟩ := hx
  exact ⟨a, hx, h a ha⟩

theorem Returns.map {x : Checked α} {f : α → β} {P : α → Prop} {Q : β → Prop}
    (hx : Returns x P) (h : ∀ a, P a → Q (f a)) : Returns (f <$> x) Q := by
  obtain ⟨a, rfl, ha⟩ := hx
  exact ⟨f a, rfl, h a ha⟩

theorem int64_returns {n : Int} (h : Fits n) : Returns (int64 n) (· = n) :=
  ⟨n, if_pos h, rfl⟩

theorem index_returns {xs : List α} {i : Nat} (h : i < xs.length) :
    Returns (index xs i) (xs[i]? = some ·) := by
  have hget : xs[i]? = some xs[i] := List.getElem?_eq_getElem h
  exact ⟨xs[i], by rw [index, hget], hget⟩

theorem load_returns {mem : List α} {start len : Int} (hstart : 0 ≤ start) (hlen : 0 ≤ len)
    (hend : start + len ≤ mem.length) :
    Returns (load mem start len) fun xs => xs.length = len.toNat ∧
      ∀ i, i < len.toNat → xs[i]? = mem[start.toNat + i]? := by
  refine ⟨_, if_pos ⟨hstart, hlen, hend⟩, ?_, ?_⟩
  · rw [List.length_take, List.length_drop]
    omega
  · intro i hi
    rw [List.getElem?_take_of_lt hi, List.getElem?_drop]

theorem load_eq (mem : List α) (start len : Nat) (h : start + len ≤ mem.length) :
    load mem start len = .ok ((mem.drop start).take len) := by
  have hin : 0 ≤ (start : Int) ∧ 0 ≤ (len : Int) ∧ (start : Int) + len ≤ mem.length := by omega
  rw [load, if_pos hin, Int.toNat_natCast, Int.toNat_natCast]

theorem store_returns [Inhabited α] {mem xs : List α} {start : Int} (hstart : 0 ≤ start)
    (hend : start + xs.length ≤ mem.length) :
    Returns (store mem start xs) fun mem' => mem'.length = mem.length ∧
      ∀ i, mem'[i]? =
        if i < start.toNat ∨ start.toNat + xs.length ≤ i then mem[i]? else xs[i - start.toNat]? := by
  refine ⟨_, if_pos ⟨hstart, hend⟩, ?_, ?_⟩
  · exact FileBytes.length_writeAt (by omega)
  · exact FileBytes.getElem?_writeAt (by omega)

-- A loop over the first `n` numbers keeps what each turn keeps.
theorem foldlM_returns {f : β → Nat → Checked β} {I : Nat → β → Prop} {n : Nat}
    (hstep : ∀ i b, i < n → I i b → Returns (f b i) (I (i + 1))) {b : β} (h : I 0 b) :
    Returns ((List.range n).foldlM f b) (I n) := by
  induction n with
  | zero => exact returns_ok h
  | succ n ih =>
      rw [List.range_succ, List.foldlM_append]
      refine (ih fun i b hi => hstep i b (by omega)).bind fun b' hb' => ?_
      refine (hstep n b' (Nat.lt_succ_self n) hb').bind fun b'' hb'' => ?_
      exact returns_ok hb''

end Checked

end Lib
