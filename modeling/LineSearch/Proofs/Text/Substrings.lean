import LineSearch.Proofs.Text.Decoding

/-! # Encodings within bytes

Bytes could agree with those of a text and yet begin or end in the midst of a character.
In UTF-8 they do not: wherever the encoding of a text stands within bytes, it is read as that
text, and what is in front and behind is read apart (`Utf8.decode_append_encode`).  So if
the bytes of a text hold those of another one, the text holds the other
(`Utf8.eq_of_append_encode`).
-/
namespace LineSearch.Utf8

theorem encode_append (first second : List Char) :
    encode (first ++ second) = encode first ++ encode second := List.flatMap_append

theorem Decodes.encode_append {behind : Bytes} {more : List Char} (h : Decodes behind more)
    (text : List Char) : Decodes (encode text ++ behind) (text ++ more) := by
  induction text with
  | nil => exact h
  | cons c text ih =>
    rw [encode, List.flatMap_cons, List.append_assoc]
    exact .cons (.encoding c) ih

/-- **The encoding of a text is read as that text wherever it stands.** -/
theorem decode_append_encode (front behind : Bytes) {text : List Char} (hne : text ≠ []) :
    decode (front ++ (encode text ++ behind)) = decode front ++ (text ++ decode behind) := by
  obtain ⟨c, rest, rfl⟩ := List.exists_cons_of_ne_nil hne
  obtain ⟨b, more, hbytes⟩ := List.exists_cons_of_ne_nil (String.utf8EncodeChar_ne_nil (c := c))
  have hbegins : Begins [b] := ⟨c, hbytes ▸ List.prefix_append [b] more⟩
  have hbehind := (decodes_decode behind).encode_append (c :: rest)
  rw [encode, List.flatMap_cons, hbytes, List.cons_append, List.cons_append] at hbehind ⊢
  exact ((decodes_decode front).append hbegins hbehind).decode_eq

/-- What stands around a text in the bytes of another one are the bytes of what stands around it
there. -/
theorem eq_of_append_encode {text inner : List Char} {front behind : Bytes} (hne : inner ≠ [])
    (h : encode text = front ++ (encode inner ++ behind)) :
    text = decode front ++ (inner ++ decode behind) := by
  rw [← decode_append_encode front behind hne, ← h, decode_encode]

end LineSearch.Utf8
