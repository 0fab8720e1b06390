import DependencyMap.Number.Binary64
import DependencyMap.Number.Numeral

/-!
# The shortest text of a double

A double is written with the fewest decimal digits that read back as it, and among these with the
nearest ones. From `10 ^ 16` on and below `10 ^ -4` it is written with a power of ten.
-/

namespace DependencyMap

namespace Binary64

/-- The fraction `mantissa * 2 ^ exponent`. -/
def toFraction (mantissa : Nat) (exponent : Int) : Nat × Nat :=
  if 0 ≤ exponent then (mantissa * Nat.pow 2 exponent.toNat, 1)
  else (mantissa, Nat.pow 2 (-exponent).toNat)

/-- The number `p` for which a positive double lies from `10 ^ (p - 1)` to below `10 ^ p`. -/
def decimalPlaces (mantissa : Nat) (exponent : Int) : Int :=
  let fraction := toFraction mantissa exponent
  (decimalLength (fraction.1 * Nat.pow 10 400 / fraction.2) : Int) - 400

/-- The multiple of `10 ^ power` that reads back as the double, if one of its two neighbours among
these multiples does, and the nearer one if both do. -/
def onGrid? (mantissa : Nat) (exponent power : Int) : Option Nat :=
  let fraction := toFraction mantissa exponent
  let scaled : Nat × Nat :=
    if 0 ≤ power then (fraction.1, fraction.2 * Nat.pow 10 power.toNat)
    else (fraction.1 * Nat.pow 10 (-power).toNat, fraction.2)
  let near := roundQuotient scaled.1 scaled.2
  let below := scaled.1 / scaled.2
  let other := if near = below then below + 1 else below
  let readsBack (n : Nat) : Bool := ofDecimal false n power = .finite false mantissa exponent
  if readsBack near then some near else if readsBack other then some other else none

/-- The first grid with a hit, from one digit to seventeen, and the exact value if there is none. -/
def shortestFrom (mantissa : Nat) (exponent places : Int) : (digits left : Nat) → Nat × Int
  | digits, 0 => ((onGrid? mantissa exponent (places - digits)).getD 0, places - digits)
  | digits, left + 1 =>
    match onGrid? mantissa exponent (places - digits) with
    | some n => (n, places - digits)
    | none => shortestFrom mantissa exponent places (digits + 1) left

/-- The number without its last zeros, and how many there were. -/
def dropZeros : (fuel n : Nat) → Nat × Nat
  | 0, n => (n, 0)
  | fuel + 1, n =>
    if n % 10 = 0 ∧ n ≠ 0 then ((dropZeros fuel (n / 10)).1, (dropZeros fuel (n / 10)).2 + 1)
    else (n, 0)

/-- The shortest digits of a positive double and the power of ten that they are multiplied by. -/
def shortest (mantissa : Nat) (exponent : Int) : Nat × Int :=
  let found := shortestFrom mantissa exponent (decimalPlaces mantissa exponent) 1 16
  let trimmed := dropZeros 20 found.1
  (trimmed.1, found.2 + trimmed.2)

/-- The digits with a point after the first `whole` of them, or with zeros up to the point. -/
def positional (digits : Text) (whole : Int) : Text :=
  if whole ≤ 0 then "0." ++ List.replicate (-whole).toNat (CodePoint.ofChar '0') ++ digits
  else if whole < digits.length then digits.take whole.toNat ++ "." ++ digits.drop whole.toNat
  else digits ++ List.replicate (whole.toNat - digits.length) (CodePoint.ofChar '0') ++ ".0"

/-- One digit, the others after a point, and the power of ten in two digits or more. -/
def exponential (digits : Text) (power : Int) : Text :=
  let fraction : Text := if digits.length ≤ 1 then "" else "." ++ digits.drop 1
  let size := natText power.natAbs
  digits.take 1 ++ fraction ++ (if power < 0 then "e-" else "e+" : String) ++
    (if size.length < 2 then "0" ++ size else size)

def toText : Binary64 → Text
  | .nan => "nan"
  | .infinite negative => if negative then "-inf" else "inf"
  | .finite negative mantissa exponent =>
    let sign : Text := if negative then "-" else ""
    if mantissa = 0 then sign ++ "0.0"
    else
      let found := shortest mantissa exponent
      let digits := natText found.1
      let whole := found.2 + digits.length
      sign ++ if -4 < whole ∧ whole ≤ 16 then positional digits whole
        else exponential digits (whole - 1)

end Binary64

end DependencyMap
