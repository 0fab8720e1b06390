import DependencyMap.Text.Basic

/-!
# Decimal numerals

Digits and integers as text. Each script's decimal digits stand in a row of ten, from its zero on;
the table lists the zeros.

A numeral may have a sign, decimal digits of any script, a single low line between two digits, and
white space around it (the four information separators, U+001C to U+001F, do not count as such). A
numeral of more than 4300 digits is not read.
-/

namespace DependencyMap

/-! ### Digits -/

namespace CodePoint

/-- The zero of every row of decimal digits. -/
def zeros : List Nat := [
  0x30, 0x660, 0x6F0, 0x7C0, 0x966, 0x9E6, 0xA66, 0xAE6, 0xB66, 0xBE6, 0xC66, 0xCE6, 0xD66,
  0xDE6, 0xE50, 0xED0, 0xF20, 0x1040, 0x1090, 0x17E0, 0x1810, 0x1946, 0x19D0, 0x1A80, 0x1A90,
  0x1B50, 0x1BB0, 0x1C40, 0x1C50, 0xA620, 0xA8D0, 0xA900, 0xA9D0, 0xA9F0, 0xAA50, 0xABF0, 0xFF10,
  0x104A0, 0x10D30, 0x11066, 0x110F0, 0x11136, 0x111D0, 0x112F0, 0x11450, 0x114D0, 0x11650,
  0x116C0, 0x11730, 0x118E0, 0x11950, 0x11C50, 0x11D50, 0x11DA0, 0x16A60, 0x16AC0, 0x16B50,
  0x1D7CE, 0x1D7D8, 0x1D7E2, 0x1D7EC, 0x1D7F6, 0x1E140, 0x1E2F0, 0x1E950, 0x1FBF0]

/-- The value of a decimal digit of any script. -/
def digit? (c : CodePoint) : Option Nat :=
  (zeros.find? fun start => start ≤ c.value && c.value ≤ start + 9).map fun start => c.value - start

/-- The value of a digit of ASCII. -/
def asciiDigit? (c : CodePoint) : Option Nat :=
  if 48 ≤ c.value ∧ c.value ≤ 57 then some (c.value - 48) else none

def isAsciiDigit (c : CodePoint) : Bool := 48 ≤ c.value && c.value ≤ 57

/-- The value of a hexadecimal digit of ASCII, in either case. -/
def hexDigit? (c : CodePoint) : Option Nat :=
  if 48 ≤ c.value ∧ c.value ≤ 57 then some (c.value - 48)
  else if 65 ≤ c.value ∧ c.value ≤ 70 then some (c.value - 55)
  else if 97 ≤ c.value ∧ c.value ≤ 102 then some (c.value - 87)
  else none

end CodePoint

namespace Text

/-- A number in hexadecimal digits with small letters, at least `width` of them. -/
def ofHex (width n : Nat) : Text :=
  let digits := Nat.toDigits 16 n
  ofString (String.ofList (List.replicate (width - digits.length) '0' ++ digits))

end Text

/-! ### Numerals -/

def natText (n : Nat) : Text := Text.ofString (toString n)

def intText (n : Int) : Text := if n < 0 then "-" ++ natText n.natAbs else natText n.natAbs

namespace Numeral

def maxDigits : Nat := 4300

/-- The number written by a list of digits. -/
def ofDigits (digits : List Nat) : Nat := digits.foldl (fun n d => 10 * n + d) 0

/-- Whether a code point counts as white space around a numeral. -/
def isPadding (c : CodePoint) : Bool := c.isBlank && !(0x1C ≤ c.value && c.value ≤ 0x1F)

/-- The digits of a text in which a single low line may stand between two of them. -/
def digits? (t : Text) : Option (List Nat) :=
  let pieces := t.splitOn (CodePoint.ofChar '_')
  if pieces.any List.isEmpty then none else pieces.flatten.mapM CodePoint.digit?

/-- The number of a numeral without sign. -/
def unsigned? (t : Text) : Option Nat :=
  (digits? t).bind fun digits => if digits.length ≤ maxDigits then some (ofDigits digits) else none

def integer? (t : Text) : Option Int :=
  match t.stripWhere isPadding with
  | [] => none
  | c :: rest =>
    if c = '-' then (unsigned? rest).map fun n => -(n : Int)
    else if c = '+' then (unsigned? rest).map fun n => (n : Int)
    else (unsigned? (c :: rest)).map fun n => (n : Int)

end Numeral

end DependencyMap
