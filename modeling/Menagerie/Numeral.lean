/-! # Numerals

How numbers are written in messages and in module text.

* `hex`, `hexLiteral` -- lower-case hexadecimal, bare or after `0x`;
* `hexByte` -- exactly two hexadecimal digits;
* `codePoint` -- a character as `U+` and at least four upper-case digits;
* `signed` -- the integer a 32-bit word denotes in two's complement.
-/

namespace Menagerie.Numeral

/-- The hexadecimal digits of `n` in lower case, without leading zeros. -/
def hex (n : Nat) : String :=
  String.ofList (Nat.toDigits 16 n)

/-- The hexadecimal literal of `n`, such as `0x2a`. -/
def hexLiteral (n : Nat) : String :=
  "0x" ++ hex n

/-- The two hexadecimal digits of a byte, high digit first. -/
def hexByte (b : UInt8) : String :=
  String.ofList [Nat.digitChar (b.toNat / 16), Nat.digitChar (b.toNat % 16)]

/-- A character's code point: `U+` and at least four upper-case hexadecimal digits. -/
def codePoint (c : Char) : String :=
  "U+" ++ String.ofList (((Nat.toDigits 16 c.toNat).map Char.toUpper).leftpad 4 '0')

/-- The integer a word denotes in two's complement. -/
def signed (w : UInt32) : Int :=
  if w.toNat < 0x80000000 then w.toNat else (w.toNat : Int) - 0x100000000

end Menagerie.Numeral
