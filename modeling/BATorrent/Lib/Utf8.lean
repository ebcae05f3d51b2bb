import BATorrent.Lib.DataStream

namespace Lib.Utf8

open DataStream (Bytes)

abbrev Text := List Char

def mark : Char := Char.ofNat 0xFEFF

def encode (t : Text) : Bytes := t.flatMap String.utf8EncodeChar

def withoutMark : Text → Text
  | [] => []
  | c :: t => if c = mark then t else c :: t

-- A byte order mark at the start is no part of the text. What stands for bytes that encode no text is up
-- to the decoder.
def decode (repaired : Bytes → Text) (b : Bytes) : Text :=
  let b := if (encode [mark]).isPrefixOf b then b.drop (encode [mark]).length else b
  match b.toByteArray.utf8Decode? with
  | some t => t.toList
  | none => repaired b

theorem encode_cons (c : Char) (t : Text) : encode (c :: t) = encode [c] ++ encode t := by
  rw [encode, encode, encode, List.flatMap_cons, List.flatMap_singleton]

theorem toByteArray_encode (t : Text) : (encode t).toByteArray = t.utf8Encode := rfl

theorem utf8Decode?_encode (t : Text) : (encode t).toByteArray.utf8Decode? = some t.toArray := by
  rw [toByteArray_encode, List.utf8Decode?_utf8Encode]

theorem prefix_of_encode {s t : Text} (h : encode s <+: encode t) : s <+: t := by
  obtain ⟨rest, hrest⟩ := h
  have hbytes := congrArg List.toByteArray hrest
  rw [List.toByteArray_append, toByteArray_encode, toByteArray_encode] at hbytes
  exact List.isPrefix_of_utf8Encode_append_eq_utf8Encode _ hbytes

theorem decode_encode (repaired : Bytes → Text) (t : Text) : decode repaired (encode t) = withoutMark t := by
  unfold decode
  cases t with
  | nil => rfl
  | cons c t =>
      by_cases hmark : c = mark
      · have hstarts : (encode [mark]).isPrefixOf (encode (c :: t)) = true := by
          rw [List.isPrefixOf_iff_prefix, hmark, encode_cons]
          exact List.prefix_append _ _
        rw [if_pos hstarts, hmark, encode_cons mark t, List.drop_left]
        dsimp only
        rw [utf8Decode?_encode, withoutMark, if_pos rfl]
      · have hnot : ¬ (encode [mark]).isPrefixOf (encode (c :: t)) = true := by
          rw [List.isPrefixOf_iff_prefix]
          intro hstarts
          obtain ⟨rest, hrest⟩ := prefix_of_encode hstarts
          exact hmark (List.cons.inj hrest).1.symm
        rw [if_neg hnot]
        dsimp only
        rw [utf8Decode?_encode, withoutMark, if_neg hmark]

theorem withoutMark_eq_self {t : Text} : withoutMark t = t ↔ t.head? ≠ some mark := by
  cases t with
  | nil => exact iff_of_true rfl nofun
  | cons c t =>
      rw [withoutMark, List.head?_cons, Ne, Option.some_inj]
      split_ifs with h
      · exact iff_of_false (fun heq => by simpa using congrArg List.length heq) (not_not_intro h)
      · exact iff_of_true rfl h

end Lib.Utf8
