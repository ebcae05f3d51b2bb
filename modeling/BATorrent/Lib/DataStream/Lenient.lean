import BATorrent.Lib.DataStream

namespace Lib.DataStream

-- A stream read past its end goes on giving the default of each type. Only an exception ends the
-- reading, and then there is nothing.
abbrev Decoder := StateT Bytes Option

section Reads

variable {α β : Type} {written written' : Bytes} {a : α} {b : β}

theorem reads_pure : Reads (pure a : Decoder α).run [] a := fun _ => rfl

theorem reads_bind {get : Decoder α} {f : α → Decoder β} (h : Reads get.run written a)
    (h' : Reads (f a).run written' b) : Reads (get >>= f).run (written ++ written') b := by
  intro rest
  rw [StateT.run_bind, List.append_assoc, h]
  exact h' rest

theorem reads_last {get : Decoder α} {f : α → β} (h : Reads get.run written a) :
    Reads (get >>= fun a => pure (f a)).run written (f a) := by
  rw [← List.append_nil written]
  exact reads_bind h reads_pure

end Reads

section Fields

variable {α : Type}

-- A short read takes what there is.
def lenient (get : Reader α) (default : α) : Decoder α := fun bs =>
  some ((get bs).getD (default, []))

theorem reads_lenient {get : Reader α} {default : α} {written : Bytes} {a : α}
    (h : Reads get written a) : Reads (lenient get default).run written a := by
  intro rest
  have hget := h rest
  simp only [StateT.run, lenient, hget, Option.getD_some]

def putI32 (n : Int32) : Bytes := putBE 4 n.toUInt32.toNat

def getI32 : Decoder Int32 := lenient ((getBE 4 0).map fun n => (UInt32.ofNat n).toInt32) 0

def putI64 (n : Int64) : Bytes := putBE 8 n.toUInt64.toNat

def getI64 : Decoder Int64 := lenient ((getBE 8 0).map fun n => (UInt64.ofNat n).toInt64) 0

def putU8 (n : UInt8) : Bytes := [n]

def getU8 : Decoder UInt8 := lenient ((getBE 1 0).map UInt8.ofNat) 0

def putBool (b : Bool) : Bytes := [if b then 1 else 0]

def getBool : Decoder Bool := lenient ((getBE 1 0).map (· ≠ 0)) false

theorem reads_putI32 (n : Int32) : Reads getI32.run (putI32 n) n := by
  have hnat := (reads_putBE (k := 4) n.toUInt32.toNat_lt).map fun n => (UInt32.ofNat n).toInt32
  rw [UInt32.ofNat_toNat] at hnat
  exact reads_lenient hnat

theorem reads_putI64 (n : Int64) : Reads getI64.run (putI64 n) n := by
  have hnat := (reads_putBE (k := 8) n.toUInt64.toNat_lt).map fun n => (UInt64.ofNat n).toInt64
  rw [UInt64.ofNat_toNat] at hnat
  exact reads_lenient hnat

theorem reads_putU8 (n : UInt8) : Reads getU8.run (putU8 n) n := by
  refine reads_lenient ?_
  intro rest
  simp [putU8, Reader.map, getBE]

theorem reads_putBool (b : Bool) : Reads getBool.run (putBool b) b := by
  refine reads_lenient ?_
  intro rest
  cases b <;> simp [putBool, Reader.map, getBE]

@[simp] theorem length_putI32 (n : Int32) : (putI32 n).length = 4 := length_putBE 4 _

@[simp] theorem length_putI64 (n : Int64) : (putI64 n).length = 8 := length_putBE 8 _

@[simp] theorem length_putU8 (n : UInt8) : (putU8 n).length = 1 := rfl

@[simp] theorem length_putBool (b : Bool) : (putBool b).length = 1 := rfl

end Fields

section Codec

-- A type that the stream itself writes and reads. One of its values takes the fewest bytes.
structure Codec (α : Type) where
  put : α → Bytes
  get : Bytes → α × Bytes
  least : Nat
  smallest : α
  get_put : ∀ a rest, get (put a ++ rest) = (a, rest)
  least_le : ∀ a, least ≤ (put a).length
  length_smallest : (put smallest).length = least

variable {α : Type} (c : Codec α)

def Codec.read : Decoder α := fun bs => some (c.get bs)

theorem Codec.reads (a : α) : Reads c.read.run (c.put a) a := by
  intro rest
  rw [← c.get_put]
  rfl

end Codec

section Repeated

variable {α : Type}

-- A counted loop that appends one element at a time.
def getMany (get : Decoder α) : Nat → Decoder (List α)
  | 0 => pure []
  | n + 1 => do
      let a ← get
      let l ← getMany get n
      pure (a :: l)

theorem reads_getMany {get : Decoder α} {put : α → Bytes} (h : ∀ a, Reads get.run (put a) a)
    (l : List α) : Reads (getMany get l.length).run (l.flatMap put) l := by
  induction l with
  | nil => exact reads_pure
  | cons a l ih =>
      rw [List.flatMap_cons]
      exact reads_bind (h a) (reads_last ih)

-- Elements that never throw come in the number asked for, whatever the bytes are.
theorem getMany_total {get : Decoder α} (h : ∀ bs, ∃ a rest, get.run bs = some (a, rest))
    (n : Nat) (bs : Bytes) :
    ∃ l rest, (getMany get n).run bs = some (l, rest) ∧ l.length = n := by
  induction n generalizing bs with
  | zero => exact ⟨[], bs, rfl, rfl⟩
  | succ n ih =>
      obtain ⟨a, rest, hget⟩ := h bs
      obtain ⟨l, rest', hmany, hlength⟩ := ih rest
      refine ⟨a :: l, rest', ?_, congrArg Nat.succ hlength⟩
      rw [getMany, StateT.run_bind, hget]
      simp only [Option.bind_eq_bind, Option.bind_some, StateT.run_bind, hmany]
      rfl

end Repeated

section Room

variable {α : Type}

-- So many elements can be written in so many bytes.
def FitsIn (put : α → Bytes) (n room : Nat) : Prop :=
  ∃ l : List α, l.length = n ∧ (l.flatMap put).length ≤ room

-- The shortest encoding of a value.
structure Least (put : α → Bytes) (least : Nat) : Prop where
  le : ∀ a, least ≤ (put a).length
  attained : ∃ a, (put a).length = least

theorem Least.le_flatMap {put : α → Bytes} {least : Nat} (h : Least put least) (l : List α) :
    l.length * least ≤ (l.flatMap put).length := by
  induction l with
  | nil => simp
  | cons a l ih =>
      have ha := h.le a
      rw [List.flatMap_cons, List.length_append, List.length_cons, Nat.succ_mul]
      omega

theorem Least.fitsIn_iff {put : α → Bytes} {least : Nat} (h : Least put least) {n room : Nat} :
    FitsIn put n room ↔ n * least ≤ room := by
  constructor
  · rintro ⟨l, rfl, hroom⟩
    exact (h.le_flatMap l).trans hroom
  · intro hroom
    obtain ⟨a, ha⟩ := h.attained
    refine ⟨List.replicate n a, List.length_replicate, ?_⟩
    have hflat : ((List.replicate n a).flatMap put).length = n * least := by
      simp [List.length_flatMap, ha]
    rwa [hflat]

end Room

end Lib.DataStream
