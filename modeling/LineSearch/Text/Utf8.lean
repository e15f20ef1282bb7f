/-! # UTF-8, read forgivingly

Files hold bytes and patterns match characters.  `Utf8.decode` reads any bytes as
characters.  Where they are not well-formed UTF-8, each maximal part that could
still have been continued to a character, or else a single byte, is read as the
replacement character U+FFFD.

Decoding is one pass over the bytes.  Between two bytes it knows the characters
decoded so far and what a character begun but not complete still needs: how many
bytes, and the range in which the next one lies.  The range is narrower behind the
lead bytes `E0`, `ED`, `F0` and `F4`, which keeps out overlong forms, surrogates
and values above U+10FFFF.
-/
namespace LineSearch

/-- The contents of a file, or what is printed. -/
abbrev Bytes := List UInt8

namespace Utf8

/-- The bytes of a text. -/
def encode (text : List Char) : Bytes := text.flatMap String.utf8EncodeChar

/-- The character that stands for bytes that encode none. -/
def replacement : Char := '\uFFFD'

/-- A character whose last bytes are still to come. -/
structure Unfinished where
  /-- The bits read so far, as a number. -/
  value : Nat
  /-- How many bytes follow the next one. -/
  further : Nat
  /-- The least byte that continues the character. -/
  least : UInt8
  /-- The greatest byte that continues the character. -/
  greatest : UInt8
deriving DecidableEq, Repr

/-- What is known between two bytes. -/
structure Decoder where
  /-- The characters decoded, the last first. -/
  decoded : List Char := []
  /-- The character begun behind them. -/
  unfinished : Option Unfinished := none
deriving DecidableEq, Repr

namespace Decoder

/-- Begin a character with the byte `b` behind the characters `decoded`. -/
def lead (decoded : List Char) (b : UInt8) : Decoder :=
  if b < 0x80 then ⟨Char.ofNat b.toNat :: decoded, none⟩
  else if b < 0xC2 then ⟨replacement :: decoded, none⟩
  else if b < 0xE0 then ⟨decoded, some ⟨b.toNat % 32, 0, 0x80, 0xBF⟩⟩
  else if b < 0xF0 then
    ⟨decoded, some ⟨b.toNat % 16, 1, if b = 0xE0 then 0xA0 else 0x80,
      if b = 0xED then 0x9F else 0xBF⟩⟩
  else if b < 0xF5 then
    ⟨decoded, some ⟨b.toNat % 8, 2, if b = 0xF0 then 0x90 else 0x80,
      if b = 0xF4 then 0x8F else 0xBF⟩⟩
  else ⟨replacement :: decoded, none⟩

/-- Read one more byte.  A byte that does not continue the character begun ends it as a
replacement and is itself read as a lead byte. -/
def step (d : Decoder) (b : UInt8) : Decoder :=
  match d.unfinished with
  | none => lead d.decoded b
  | some u =>
    if u.least ≤ b ∧ b ≤ u.greatest then
      match u.further with
      | 0 => ⟨Char.ofNat (u.value * 64 + b.toNat % 64) :: d.decoded, none⟩
      | n + 1 => ⟨d.decoded, some ⟨u.value * 64 + b.toNat % 64, n, 0x80, 0xBF⟩⟩
    else lead (replacement :: d.decoded) b

/-- The characters when the bytes end here. -/
def finish (d : Decoder) : List Char :=
  match d.unfinished with
  | none => d.decoded.reverse
  | some _ => (replacement :: d.decoded).reverse

end Decoder

/-- The characters that the bytes stand for. -/
def decode (bytes : Bytes) : List Char := (bytes.foldl Decoder.step {}).finish

/-- The text whose bytes these are. -/
def text? (bytes : Bytes) : Option String :=
  if encode (decode bytes) = bytes then some (String.ofList (decode bytes)) else none

/-- Four bytes make one character. -/
example : decode [0xF0, 0x9F, 0x98, 0x80] = ['😀'] := by decide

/-- A part that could have been continued is replaced as a whole, a byte that cannot be continued
by itself. -/
example : decode [0xF0, 0x9F, 0x98, 0x41, 0xE0, 0x9F] =
    [replacement, 'A', replacement, replacement] := by decide

end Utf8
end LineSearch
