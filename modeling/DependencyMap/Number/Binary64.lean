import DependencyMap.Text.Basic

/-!
# Double-precision numbers

A finite double is `± mantissa * 2 ^ exponent` with a mantissa below `2 ^ 53` and an exponent from
-1074 to 971; unless the exponent is the least one, the mantissa is at least `2 ^ 52`. A decimal
numeral stands for the nearest double, and of two equally near ones for that with the even mantissa.
-/

namespace DependencyMap

inductive Binary64
  | nan
  | infinite (negative : Bool)
  | finite (negative : Bool) (mantissa : Nat) (exponent : Int)
deriving DecidableEq

namespace Binary64

/-- The integer nearest to a quotient; of two equally near ones the even one. -/
def roundQuotient (numerator denominator : Nat) : Nat :=
  let quotient := numerator / denominator
  let twice := 2 * (numerator % denominator)
  if twice < denominator then quotient
  else if denominator < twice then quotient + 1
  else quotient + quotient % 2

/-- The fraction `numerator / (denominator * 2 ^ exponent)`. -/
def scaleDown (numerator denominator : Nat) (exponent : Int) : Nat × Nat :=
  if 0 ≤ exponent then (numerator, denominator * Nat.pow 2 exponent.toNat)
  else (numerator * Nat.pow 2 (-exponent).toNat, denominator)

/-- The double nearest to a positive fraction. -/
def nearest (negative : Bool) (numerator denominator : Nat) : Binary64 :=
  let guess := max ((numerator.log2 : Int) - denominator.log2 - 52) (-1074)
  let trial := scaleDown numerator denominator guess
  let exponent := if trial.1 / trial.2 < Nat.pow 2 52 then max (guess - 1) (-1074) else guess
  let scaled := scaleDown numerator denominator exponent
  let mantissa := roundQuotient scaled.1 scaled.2
  let rounded : Nat × Int :=
    if mantissa = Nat.pow 2 53 then (Nat.pow 2 52, exponent + 1) else (mantissa, exponent)
  if 971 < rounded.2 then .infinite negative else .finite negative rounded.1 rounded.2

def decimalLength (n : Nat) : Nat := (Nat.toDigits 10 n).length

/-- The double nearest to `± digits * 10 ^ power`. Numerals of more than 400 places before or after
the point are out of range on either side, so their powers of ten are not computed. -/
def ofDecimal (negative : Bool) (digits : Nat) (power : Int) : Binary64 :=
  if digits = 0 then .finite negative 0 (-1074)
  else
    let places := (decimalLength digits : Int) + power
    if 400 < places then .infinite negative
    else if places < -400 then .finite negative 0 (-1074)
    else if 0 ≤ power then nearest negative (digits * Nat.pow 10 power.toNat) 1
    else nearest negative digits (Nat.pow 10 (-power).toNat)

/-- The double nearest to the product of two numbers. -/
def times : Binary64 → Binary64 → Binary64
  | .finite n m e, .finite n' m' e' =>
    let negative := n != n'
    if m = 0 ∨ m' = 0 then .finite negative 0 (-1074)
    else
      let (numerator, denominator) := scaleDown (m * m') 1 (-(e + e'))
      nearest negative numerator denominator
  | .infinite n, .finite n' m _ | .finite n' m _, .infinite n =>
    if m = 0 then .nan else .infinite (n != n')
  | .infinite n, .infinite n' => .infinite (n != n')
  | .nan, _ | _, .nan => .nan

/-- Zero less the number. Zero stays zero without a sign. -/
def negated : Binary64 → Binary64
  | .nan => .nan
  | .infinite negative => .infinite (!negative)
  | .finite negative mantissa exponent => .finite (!negative && mantissa ≠ 0) mantissa exponent

def isZero : Binary64 → Bool
  | .finite _ mantissa _ => mantissa = 0
  | _ => false

/-- The whole part of a finite double, toward zero. -/
def truncate (negative : Bool) (mantissa : Nat) (exponent : Int) : Int :=
  let whole := if 0 ≤ exponent then mantissa * Nat.pow 2 exponent.toNat
    else mantissa / Nat.pow 2 (-exponent).toNat
  if negative then -(whole : Int) else whole

end Binary64

end DependencyMap
