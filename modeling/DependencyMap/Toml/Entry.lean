import DependencyMap.Toml.Moment
import DependencyMap.Toml.Number
import DependencyMap.Toml.Pieces

/-!
# Entries

An entry is a key with a value, which is not read here. The value begins after the first equals sign
that is in no quotes, or after a later one where what follows the first can be no value. A key may
have names before its last one, which lead to the table that the entry goes into.
-/

namespace DependencyMap

namespace Toml

structure Entry where
  /-- The names on the way. -/
  way : List Text
  name : Text
  /-- The value as it is written. -/
  written : Text
  /-- Whether the value is written as the number of a key may be. -/
  tidy : Bool

namespace Entry

/-- Whether what follows an equals sign is taken for a value: where it begins with a space, a quote
or a bracket, and where it is a truth value, a number or a moment. -/
def mayBeValue (t : Text) : Except Fault Bool :=
  match t with
  | [] => .ok true
  | c :: _ =>
    if isQuote c || ([' ', '\t', '[', '\x7b'].any fun d : Char => c = d) || t.strip = "true" ||
        t.strip = "false" || (Numeral.real? t).isSome then .ok true
    else (readDate t).map fun date => date.isSome || beginsWithTime t

/-- Cuts an entry at the first equals sign from the given number on after which there may be a
value, given what follows the one before. The sign is one of those counted by `fuel`. -/
def cutFrom (pieces : List Text) : (fuel n : Nat) → (tidy : Bool) → (value : Text) →
    Except Fault (Text × Text × Bool)
  | fuel, n, tidy, value => do
    if ← mayBeValue value then .ok ((joinAround "=" pieces n).1, value, tidy)
    else
      match fuel with
      | 0 => .error .malformed
      | fuel + 1 =>
        let next := (joinAround "=" pieces (n + 1)).2
        if next = value then .error .malformed
        else cutFrom pieces fuel (n + 1) (tidy && isTidy next) next

/-- The key and the value of a line, and whether the value is tidy. A value that begins with a digit
loses its low lines. -/
def cut (line : Text) : Except Fault (Text × Text × Bool) :=
  let pieces := line.cutBy "="
  let n := 1 + marksInQuotes "=" false (quotePieces line)
  let value := (joinAround "=" pieces n).2
  let bare :=
    if value.head?.any CodePoint.isAsciiDigit then value.filter fun c : CodePoint => c ≠ '_'
    else value
  cutFrom pieces (pieces.length + 1) n (isTidy value) bare

/-- The names of a key with points. Those in quotes are not cut. -/
def dottedNames (quoted : Bool) : List Text → List Text
  | [] => []
  | piece :: pieces =>
    (if quoted then [piece] else (piece.splitOn (CodePoint.ofChar '.')).map Text.strip) ++
      dottedNames (!quoted) pieces

/-- The names on the way of a key, and its last name. Names without anything in them do not
count. -/
def names (key : Text) : Except Fault (List Text × Text) :=
  if key.elem (CodePoint.ofChar '.') then
    let all := if key.any isQuote then dottedNames false (quotePieces key)
      else key.splitOn (CodePoint.ofChar '.')
    let filled := (all.reverse.dropWhile List.isEmpty).reverse
    (lastItem filled).map fun name =>
      (filled.dropLast.filter fun name => !name.isEmpty, Text.strip name)
  else
    match key with
    | [] => missed .beyondText
    | c :: _ =>
      .ok ([], if isQuote c && key.getLast? = some c then Literal.inner key else key)

def ofLine (line : Text) : Except Fault Entry := do
  let (key, value, tidy) ← cut line
  let (way, name) ← names key.strip
  .ok ⟨way, name, value.strip, tidy⟩

/-- The last text of an array that is not closed, with the commas in it. -/
def lastText : List Text → Except Fault Text
  | [] => .ok []
  | [piece] => .ok piece
  | last :: piece :: pieces =>
    match last with
    | [] => missed .beyondText
    | c :: _ => if isQuote c then .ok last else lastText ((piece ++ comma ++ last) :: pieces)
termination_by pieces => pieces.length

/-- Where a text over several lines may begin in a value: at its start, or at the last text of an
array that is not closed. -/
def textIn (written : Text) : Except Fault Text :=
  if written.startsWith "[" && !written.endsWith "]" &&
      beginsQuoted (Literal.inner written).strip then
    lastText ((Text.strip (written.drop 1)).splitOn (CodePoint.ofChar ',')).reverse
  else .ok written

/-- Whether a text over several lines begins in the value and does not end in it. -/
def opensLongText (e : Entry) : Except Fault Bool :=
  if e.written.length < 3 then .ok false
  else (textIn e.written).bind fun t =>
    match t with
    | [] => .ok false
    | a :: rest =>
      if !isQuote a then .ok false
      else
        match rest with
        | [] => missed .beyondText
        | b :: rest =>
          if b ≠ a then .ok false
          else
            match rest with
            | [] => missed .beyondText
            | c :: _ =>
              .ok (c = a && !(5 < t.length && (t.reverse.take 3).all fun d => d = a))

end Entry

end Toml

end DependencyMap
