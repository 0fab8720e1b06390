import DependencyMap.Number.Numeral

/-!
# Integers with a lenient spelling

The integers that are given as values of options. White space around the numeral, a plus sign, zeros
in front, a fraction of zeros, and single low lines between other characters are taken away; what is
left has to be the one plain spelling of an integer in ASCII digits. After a minus sign no zeros are
taken away.
-/

namespace DependencyMap

namespace Lenient

/-- The numeral without a plus sign in front. A minus sign may not follow. -/
def dropPlus? (t : Text) : Option Text :=
  match t with
  | [] => some []
  | c :: rest =>
    if c = '+' then (if Text.startsWith rest "-" then none else some rest) else some t

/-- The numeral without the zeros in front, and the low lines among them, after `last`, which is one
of these. One of them stays where nothing else stands before a point or the end. -/
def dropZerosAfter? (last : CodePoint) : Text → Option Text
  | [] => some [last]
  | c :: rest =>
    if c = '0' ∨ c = '_' then dropZerosAfter? c rest
    else if c.isAsciiDigit then some (c :: rest)
    else if c = '.' then some (last :: c :: rest)
    else none

/-- The numeral without the zeros in front. It begins with a digit or a minus sign. -/
def dropZeros? : Text → Option Text
  | [] => none
  | c :: rest =>
    if c = '0' then dropZerosAfter? c rest
    else if c.isAsciiDigit ∨ c = '-' then some (c :: rest)
    else none

/-- The numeral without a fraction, if that is one zero or more. -/
def dropFraction (t : Text) : Text :=
  let whole := t.takeWhile fun c : CodePoint => c ≠ '.'
  let fraction := t.drop (whole.length + 1)
  if !fraction.isEmpty && fraction.all fun c : CodePoint => c = '0' then whole else t

/-- The numeral without its low lines, if they stand alone and between other characters. -/
def dropLowLines (t : Text) : Text :=
  if t.startsWith "_" || t.endsWith "_" || t.contains "__" then t
  else t.filter fun c : CodePoint => c ≠ '_'

/-- The number of the one plain spelling: ASCII digits, no zero in front of others. -/
def plainDigits? (t : Text) : Option Nat :=
  if t.isEmpty || (t.startsWith "0" && 1 < t.length) || Numeral.maxDigits < t.length then none
  else (t.mapM CodePoint.asciiDigit?).map Numeral.ofDigits

def plain? (t : Text) : Option Int :=
  if t.startsWith "-" then (plainDigits? (t.drop 1)).map fun n => -(n : Int)
  else (plainDigits? t).map fun n => (n : Int)

def integer? (t : Text) : Option Int :=
  ((dropPlus? (t.stripWhere Numeral.isPadding)).bind dropZeros?).bind fun numeral =>
    plain? (dropLowLines (dropFraction numeral))

end Lenient

end DependencyMap
