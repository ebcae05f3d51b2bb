import BATorrent.Lib.ByteText

namespace BATorrent.PasswordHash

open Lib.DataStream (Bytes)
open Lib.ByteText

abbrev QString := List Char

-- What is left to Qt: the encoding of a string, and the digests.
structure Qt where
  toUtf8 : QString → Bytes
  fromUtf8 : Bytes → QString
  sha256 : Bytes → Bytes
  deriveKeyPbkdf2 : Bytes → Bytes → Int32 → Nat → Bytes

def fromLatin1 (bs : Bytes) : QString := bs.map fun b => Char.ofNat b.toNat

def toLatin1 (t : QString) : Bytes :=
  t.map fun c => if c.toNat < 256 then UInt8.ofNat c.toNat else 63

def kIterations : Int32 := 100000

def kSaltLen : Nat := 16

def kKeyLen : Nat := 32

def scheme : QString := "pbkdf2$".toList

variable (qt : Qt)

def derive (password salt : Bytes) (iterations : Int32) : Bytes :=
  qt.deriveKeyPbkdf2 password salt iterations kKeyLen

def hash (password : QString) (salt : Vector UInt8 kSaltLen) : QString :=
  scheme ++ "100000$".toList ++ fromLatin1 (toHex salt.toList) ++ ['$'] ++
    fromLatin1 (toHex (derive qt (qt.toUtf8 password) salt.toList kIterations))

def isLegacy (stored : QString) : Bool := stored ≠ [] && !scheme.isPrefixOf stored

def constantTimeEquals (a b : Bytes) : Bool :=
  if a.length ≠ b.length then false
  else (List.zipWith (fun x y => x ^^^ y) a b).foldl (fun diff d => diff ||| d) 0 = 0

def verify (password stored : QString) : Bool :=
  if stored = [] then false
  else if isLegacy stored then
    constantTimeEquals (toHex (qt.sha256 (qt.toUtf8 password))) (toLatin1 stored)
  else
    match stored.splitOn '$' with
    | [name, iterations, salt, want] =>
        match toInt32 (toLatin1 iterations) with
        | none => false
        | some iterations =>
            let salt := fromHex (toLatin1 salt)
            let want := fromHex (toLatin1 want)
            if name ≠ "pbkdf2".toList ∨ iterations ≤ 0 ∨ salt = [] ∨ want = [] then false
            else constantTimeEquals (derive qt (qt.toUtf8 password) salt iterations) want
    | _ => false

-- Nothing but the time it takes tells it from equality.
theorem constantTimeEquals_iff {a b : Bytes} : constantTimeEquals a b = true ↔ a = b := by
  have hfold : ∀ (ds : Bytes) (diff : UInt8), ds.foldl (fun diff d => diff ||| d) diff = 0 ↔
      diff = 0 ∧ ∀ d ∈ ds, d = 0 := by
    intro ds
    induction ds with
    | nil => simp
    | cons d ds ih =>
        intro diff
        rw [List.foldl_cons, ih, UInt8.or_eq_zero_iff, List.forall_mem_cons, and_assoc]
  have hzip : ∀ a b : Bytes, a.length = b.length →
      ((∀ d ∈ List.zipWith (fun x y => x ^^^ y) a b, d = 0) ↔ a = b) := by
    intro a
    induction a with
    | nil =>
        intro b hlen
        simp [List.eq_nil_of_length_eq_zero hlen.symm]
    | cons x a ih =>
        intro b hlen
        cases b with
        | nil => cases hlen
        | cons y b =>
            rw [List.zipWith_cons_cons, List.forall_mem_cons, ih b (Nat.succ.inj hlen),
              UInt8.xor_eq_zero_iff, List.cons.injEq]
  unfold constantTimeEquals
  split_ifs with hlen
  · exact iff_of_false id fun h => hlen (congrArg List.length h)
  · rw [decide_eq_true_iff, hfold, hzip a b (not_not.mp hlen)]
    simp

end BATorrent.PasswordHash
