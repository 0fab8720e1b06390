import DependencyMap.Number.Real
import DependencyMap.Toml.Fault

/-!
# Numbers of TOML

Low lines in a number do not count. A number with a point or an exponent is a double and has a digit
in front and something after the point; an integer has no zeros in front, or a base of sixteen,
eight or two. The number of a key is held to more than that of an item: its low lines stand between
digits one by one, and no zero stands in front of a digit.
-/

namespace DependencyMap

namespace Toml

/-- The number of some digits in a base. -/
def inBase? (base : Nat) (t : Text) : Option Nat :=
  if t.isEmpty then none
  else (t.mapM CodePoint.hexDigit?).bind fun digits =>
    if digits.all fun d => d < base then some (digits.foldl (fun n d => base * n + d) 0) else none

/-- The number of a decimal integer without sign. Only zeros may follow a zero in front. -/
def decimal? (t : Text) : Option Nat :=
  let hasZeroInFront := t.startsWith "0" && t.any fun c : CodePoint => c ≠ '0'
  if t.isEmpty || hasZeroInFront || Numeral.maxDigits < t.length then none
  else (Numeral.asciiDigits? t).map Numeral.ofDigits

def bases : List (Char × Nat) := [('x', 16), ('o', 8), ('b', 2)]

/-- The base that a number without sign names, and the rest of it. -/
def namedBase? : Text → Option (Nat × Text)
  | zero :: mark :: rest =>
    if zero = '0' then (bases.find? fun b => mark.toLower = b.1).map fun b => (b.2, rest) else none
  | _ => none

/-- The number of an integer without sign. -/
def unsigned? (t : Text) : Option Nat :=
  match namedBase? t with
  | some (base, digits) => inBase? base digits
  | none => decimal? t

/-- An integer, in digits of any script, which may have white space around it. -/
def integer? (t : Text) : Option Int :=
  let (negative, size) := Numeral.takeSign ((t.stripWhere Numeral.isPadding).map Numeral.asciiDigit)
  (unsigned? size).map fun n => if negative then -(n : Int) else n

/-- Whether a number without sign is written as a double. -/
def isDouble (t : Text) : Bool :=
  t.elem (CodePoint.ofChar '.') ||
    (!t.elem (CodePoint.ofChar 'x') && t.any fun c => c.toLower = 'e')

/-- The double of a number without sign, which begins with a digit. Its first point is not at the
end. -/
def double? (t : Text) : Option Binary64 :=
  let afterPoint := (t.dropWhile fun c : CodePoint => c ≠ '.').drop 1
  if t.elem (CodePoint.ofChar '.') && afterPoint.isEmpty then none
  else if !t.head?.any CodePoint.isAsciiDigit then none
  else Numeral.real? t

/-- The number that a text is. After its sign a second one may stand before an integer. -/
def number? (t : Text) : Option Value :=
  let (negative, size) := Numeral.takeSign t
  let size := size.filter fun c : CodePoint => c ≠ '_'
  let word := size.map CodePoint.toLower
  if isDouble size || word = "inf" || word = "nan" then
    (if isDouble size then double? size else Numeral.real? size).map fun x =>
      .real (if negative then x.negated else x)
  else (integer? size).map fun n => .integer (if negative then -n else n)

/-- Whether low lines and zeros in a number stand where they may in that of a key. White space
around it does not count. -/
def isTidy (t : Text) : Bool :=
  let t := t.strip
  let size := (Numeral.takeSign t).2
  let mayFollowZero : List Char := if size.length = t.length then ['.', 'o', 'b', 'x'] else ['.']
  let zeroIsAlone :=
    match size with
    | zero :: c :: _ => zero ≠ '0' || mayFollowZero.any fun d => c = d
    | _ => true
  !t.isEmpty && zeroIsAlone && !t.startsWith "_" && !t.endsWith "_" &&
    (["_.", "._", "__"] : List Text).all fun part => !t.contains part

end Toml

end DependencyMap
