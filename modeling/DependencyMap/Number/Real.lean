import DependencyMap.Number.Binary64
import DependencyMap.Number.Numeral

/-!
# Decimal numerals of doubles

A numeral may have a sign, a point, an exponent, decimal digits of any script, single low lines
between digits, and white space around it. Infinity and what is no number are words, in letters of
either case.
-/

namespace DependencyMap

namespace Numeral

/-- A decimal digit of any script as one of ASCII; everything else is left alone. -/
def asciiDigit (c : CodePoint) : CodePoint :=
  match c.digit? with
  | some d => (CodePoint.ofNat? (48 + d)).getD c
  | none => c

/-- The numeral without its low lines, given the code point before it. Each stands between two
digits. -/
def dropLowLines? (last : Option CodePoint) (before : Text) : Text → Option Text
  | [] => some before.reverse
  | c :: rest =>
    if c = '_' then
      if last.any CodePoint.isAsciiDigit ∧ (List.head? rest).any CodePoint.isAsciiDigit = true then
        dropLowLines? (some c) before rest
      else none
    else dropLowLines? (some c) (c :: before) rest

/-- The digits of ASCII in a text that consists of nothing else. -/
def asciiDigits? (t : Text) : Option (List Nat) := t.mapM CodePoint.asciiDigit?

/-- The text without its sign, and whether that is a minus sign. -/
def takeSign (t : Text) : Bool × Text :=
  if t.startsWith "-" then (true, t.drop 1)
  else if t.startsWith "+" then (false, t.drop 1)
  else (false, t)

/-- An exponent of ten with its sign. -/
def exponent? (t : Text) : Option Int :=
  let (negative, size) := takeSign t
  if size.isEmpty then none
  else (asciiDigits? size).map fun digits =>
    if negative then -(ofDigits digits : Int) else ofDigits digits

/-- The double of a decimal numeral in ASCII digits without sign. -/
def unsignedReal? (negative : Bool) (t : Text) : Option Binary64 := do
  let isMark (c : CodePoint) : Bool := c.toLower = 'e'
  let mantissa := t.takeWhile fun c => !isMark c
  let power ← match t.dropWhile fun c => !isMark c with
    | [] => some 0
    | _ :: rest => exponent? rest
  let whole := mantissa.takeWhile fun c : CodePoint => c ≠ '.'
  let fraction := mantissa.drop (whole.length + 1)
  if whole.isEmpty && fraction.isEmpty then none
  else
    let digits ← asciiDigits? (whole ++ fraction)
    some (.ofDecimal negative (ofDigits digits) (power - fraction.length))

def real? (t : Text) : Option Binary64 := do
  let t ← dropLowLines? none [] ((t.stripWhere isPadding).map asciiDigit)
  let (negative, size) := takeSign t
  let word := size.map CodePoint.toLower
  if (["inf", "infinity"] : List Text).contains word then some (.infinite negative)
  else if word = "nan" then some .nan
  else unsignedReal? negative size

end Numeral

end DependencyMap
