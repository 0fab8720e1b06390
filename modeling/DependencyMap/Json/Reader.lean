import DependencyMap.Json.Value
import DependencyMap.Number.Numeral

/-!
# Reading JSON

The grammar is that of JSON with three more numbers, `NaN`, `Infinity` and `-Infinity`. Only space,
tab, line feed and carriage return may stand between the tokens, and a control character below
U+0020 may not stand in a string. An escaped high surrogate makes one code point with an escaped low
surrogate right after it; otherwise a surrogate stays alone. Of members with one name the last
counts. Two things may be refused that are no faults of form: an integer with too many digits, and
an array or object too deep in others.
-/

namespace DependencyMap

namespace Json

/-- Why a text is not read. -/
inductive ReadFault
  | malformed
  | longInteger (digits : Nat)
  | tooDeep
deriving DecidableEq

/-- How many digits an integer may have, and how many arrays and objects may stand in one another;
with none, any number of them. -/
structure Limits where
  digits : Option Nat
  nesting : Option Nat

namespace Limits

def unlimited : Limits := ⟨none, none⟩

/-- What is left for the items of an array and the members of an object. -/
def inner (limits : Limits) : Limits :=
  { limits with nesting := limits.nesting.map fun most => most - 1 }

end Limits

def isSpace (c : CodePoint) : Bool := c = ' ' || c = '\t' || c = '\n' || c = '\r'

def skipSpace (t : Text) : Text := t.dropWhile isSpace

/-- The code point of an escape of one letter. -/
def escaped? (c : CodePoint) : Option CodePoint :=
  ([('"', '"'), ('\\', '\\'), ('/', '/'), ('b', '\x08'), ('f', '\x0c'), ('n', '\n'), ('r', '\r'),
    ('t', '\t')].find? fun e : Char × Char => c = e.1).map fun e => e.2

/-- The code point of four hexadecimal digits. -/
def unit? (a b c d : CodePoint) : Option CodePoint := do
  let a ← a.hexDigit?
  let b ← b.hexDigit?
  let c ← c.hexDigit?
  let d ← d.hexDigit?
  CodePoint.ofNat? (((a * 16 + b) * 16 + c) * 16 + d)

/-- The code point of a pair of surrogates. -/
def joinSurrogates? (high low : CodePoint) : Option CodePoint :=
  if high.isHighSurrogate && low.isLowSurrogate then
    CodePoint.ofNat? (0x10000 + (high.value - 0xD800) * 0x400 + (low.value - 0xDC00))
  else none

/-- Puts one more escaped unit in front of what has been read of a string, the last first.
`joinable` says that the code point before it was an escaped unit too. -/
def pushUnit (joinable : Bool) (before : Text) (unit : CodePoint) : Text :=
  match before with
  | [] => [unit]
  | c :: earlier =>
    match (if joinable then joinSurrogates? c unit else none) with
    | some joined => joined :: earlier
    | none => unit :: c :: earlier

/-- The rest of a string after its opening quote, and what follows its closing quote. -/
def readString (joinable : Bool) (before : Text) : Text → Option (Text × Text)
  | [] => none
  | c :: rest =>
    if c = '"' then some (before.reverse, rest)
    else if c = '\\' then
      match rest with
      | [] => none
      | e :: rest =>
        if e = 'u' then
          match rest with
          | h₁ :: h₂ :: h₃ :: h₄ :: rest =>
            match unit? h₁ h₂ h₃ h₄ with
            | none => none
            | some unit => readString true (pushUnit joinable before unit) rest
          | _ => none
        else
          match escaped? e with
          | none => none
          | some d => readString false (d :: before) rest
    else if c.value < 0x20 then none
    else readString false (c :: before) rest

/-- The ASCII digits at the beginning of a text, and the rest. -/
def splitDigits (t : Text) : Text × Text :=
  (t.takeWhile CodePoint.isAsciiDigit, t.dropWhile CodePoint.isAsciiDigit)

def digitsValue (digits : Text) : Nat := Numeral.ofDigits (digits.filterMap CodePoint.asciiDigit?)

/-- The digits before a point; a zero at the beginning is all there is. -/
def readWhole (t : Text) : Text × Text :=
  match t with
  | c :: rest => if c = '0' then ([c], rest) else splitDigits t
  | [] => ([], [])

/-- The digits after a point, if there are any. -/
def readFraction (t : Text) : Text × Text :=
  match t with
  | c :: rest =>
    if c = '.' ∧ (splitDigits rest).1 ≠ [] then splitDigits rest else ([], t)
  | [] => ([], t)

/-- The sign and the digits of an exponent, if there is one. -/
def readExponent (t : Text) : Option (Bool × Text) × Text :=
  match t with
  | e :: rest =>
    if e = 'e' ∨ e = 'E' then
      let signed : Bool × Text :=
        match rest with
        | s :: after =>
          if s = '-' then (true, after) else if s = '+' then (false, after) else (false, rest)
        | [] => (false, rest)
      let digits := splitDigits signed.2
      if digits.1 = [] then (none, t) else (some (signed.1, digits.1), digits.2)
    else (none, t)
  | [] => (none, t)

/-- Whether a number is within a limit; where there is none it always is. -/
def isWithin (limit : Option Nat) (n : Nat) : Bool := limit.all fun most => n ≤ most

/-- A number without its sign. -/
def readNumber (limits : Limits) (negative : Bool) (t : Text) :
    Except ReadFault (Value × Text) :=
  let whole := readWhole t
  if whole.1 = [] then .error .malformed
  else
    let fraction := readFraction whole.2
    let exponent := readExponent fraction.2
    if fraction.1 = [] ∧ exponent.1 = none then
      if isWithin limits.digits whole.1.length then
        let n : Int := digitsValue whole.1
        .ok (.integer (if negative then -n else n), exponent.2)
      else .error (.longInteger whole.1.length)
    else
      let size : Int := match exponent.1 with
        | some (below, digits) => if below then -(digitsValue digits : Int) else digitsValue digits
        | none => 0
      .ok (.real (.ofDecimal negative (digitsValue (whole.1 ++ fraction.1))
        (size - fraction.1.length)), exponent.2)

/-- The words that stand for values. -/
def words : List (String × Value) := [
  ("null", .null), ("true", .bool true), ("false", .bool false), ("NaN", .real .nan),
  ("Infinity", .real (.infinite false)), ("-Infinity", .real (.infinite true))]

def readWord (t : Text) : Option (Value × Text) :=
  (words.find? fun w => t.startsWith w.1).map fun w => (w.2, t.drop w.1.length)

mutual

/-- The value at the beginning of a text, and the rest. -/
def readValue (limits : Limits) : (fuel : Nat) → Text → Except ReadFault (Value × Text)
  | 0, _ => .error .malformed
  | _, [] => .error .malformed
  | fuel + 1, c :: rest =>
    if c = '"' then
      match readString false [] rest with
      | none => .error .malformed
      | some (t, rest) => .ok (.text t, rest)
    else if c = '[' then
      if !isWithin limits.nesting 1 then .error .tooDeep
      else
        match skipSpace rest with
        | [] => .error .malformed
        | d :: after =>
          if d = ']' then .ok (.array [], after)
          else
            (readItems limits.inner fuel (d :: after)).map fun (items, rest) =>
              (.array items, rest)
    else if c = '\x7b' then
      if !isWithin limits.nesting 1 then .error .tooDeep
      else
        match skipSpace rest with
        | [] => .error .malformed
        | d :: after =>
          if d = '\x7d' then .ok (.object [], after)
          else
            (readMembers limits.inner fuel [] (d :: after)).map fun (members, rest) =>
              (.object members, rest)
    else
      match readWord (c :: rest) with
      | some found => .ok found
      | none => if c = '-' then readNumber limits true rest else readNumber limits false (c :: rest)

/-- The items of an array up to its end. -/
def readItems (limits : Limits) : (fuel : Nat) → Text → Except ReadFault (List Value × Text)
  | 0, _ => .error .malformed
  | fuel + 1, t =>
    match readValue limits fuel t with
    | .error e => .error e
    | .ok (v, rest) =>
      match skipSpace rest with
      | [] => .error .malformed
      | c :: rest =>
        if c = ']' then .ok ([v], rest)
        else if c = ',' then
          (readItems limits fuel (skipSpace rest)).map fun (items, rest) => (v :: items, rest)
        else .error .malformed

/-- The members of an object up to its end, added to those before. -/
def readMembers (limits : Limits) : (fuel : Nat) → List (Text × Value) → Text →
    Except ReadFault (List (Text × Value) × Text)
  | 0, _, _ => .error .malformed
  | _, _, [] => .error .malformed
  | fuel + 1, before, q :: rest =>
    if q ≠ '"' then .error .malformed
    else
      match readString false [] rest with
      | none => .error .malformed
      | some (name, rest) =>
        match skipSpace rest with
        | [] => .error .malformed
        | c :: rest =>
          if c ≠ ':' then .error .malformed
          else
            match readValue limits fuel (skipSpace rest) with
            | .error e => .error e
            | .ok (v, rest) =>
              match skipSpace rest with
              | [] => .error .malformed
              | c :: rest =>
                if c = '\x7d' then .ok (Members.set name v before, rest)
                else if c = ',' then
                  readMembers limits fuel (Members.set name v before) (skipSpace rest)
                else .error .malformed

end

/-- The value that a text writes, with nothing but space around it. No code point takes more than
two steps. -/
def readWithin (limits : Limits) (t : Text) : Except ReadFault Value :=
  match readValue limits (2 * t.length + 2) (skipSpace t) with
  | .error e => .error e
  | .ok (v, rest) => if skipSpace rest = [] then .ok v else .error .malformed

end Json

end DependencyMap
