import Mathlib.Algebra.GroupWithZero.Nat
import Mathlib.Data.List.Infix
import Mathlib.Tactic.FinCases

namespace BATorrent

instance neZero_256 : NeZero 256 := ⟨by decide⟩

-- A digest of `n` bytes, most significant first.
structure Digest (n : Nat) where
  bytes : List (Fin 256)
  size : bytes.length = n
deriving DecidableEq

abbrev Sha1Hash := Digest 20

instance Sha1Hash.lawfulBEq : LawfulBEq Sha1Hash := inferInstance

def Digest.replicate (n : Nat) (b : Fin 256) : Digest n := ⟨List.replicate n b, List.length_replicate⟩

def hexDigit (n : Fin 16) : Char :=
  "0123456789abcdef".toList.getD n.val '0'

def hexByte (b : Fin 256) : List Char :=
  [hexDigit ⟨b.val / 16, by omega⟩, hexDigit ⟨b.val % 16, by omega⟩]

-- What streaming a digest into a string writes.
def Digest.toHex {n : Nat} (d : Digest n) : List Char := d.bytes.flatMap hexByte

theorem hexDigit_mem (n : Fin 16) : hexDigit n ∈ "0123456789abcdef".toList := by
  revert n
  decide

theorem mem_toHex {n : Nat} (d : Digest n) {c : Char} (hc : c ∈ d.toHex) :
    c ∈ "0123456789abcdef".toList := by
  obtain ⟨b, -, hb⟩ := List.mem_flatMap.mp hc
  simp only [hexByte, List.mem_cons, List.not_mem_nil, or_false] at hb
  rcases hb with rfl | rfl
  · exact hexDigit_mem _
  · exact hexDigit_mem _

end BATorrent
