import DependencyMap.Number.Numeral
import DependencyMap.Toml.Layout

/-!
# Texts in quotes

A text stands between two quotes of one kind, or between two times three of them. Between double
quotes a backslash begins an escape. First the escapes by number are replaced, those of four digits
before those of eight, and then the others, so that a backslash that is written by number begins an
escape too. The quotes at the ends are taken off last: where there are two of them after the escapes
are read, they count as two of three.
-/

namespace DependencyMap

namespace Toml

namespace Literal

/-- How far a text has been read: the pieces without anything between quotes that come in a row, and
whether its end has been seen. -/
structure Progress where
  row : Nat
  closed : Bool

/-- One more piece between quotes. What follows the end is malformed. -/
def Progress.next (long : Bool) (p : Progress) (piece : Text) : Except Fault Progress :=
  if piece.isEmpty then
    .ok (if long then { p with row := p.row + 1 } else { p with closed := true })
  else if isEscaped piece.reverse then .ok p
  else if p.closed then .error .malformed
  else if !long || 1 < p.row then .ok { p with closed := true }
  else .ok { p with row := 0 }

/-- Nothing follows the end of a text, which begins with the given quote. -/
def checkEnd (mark : CodePoint) (t : Text) : Except Fault Unit :=
  let pieces := (t.drop 1).splitOn mark
  let long := 1 < pieces.length && (pieces.take 2).all List.isEmpty
  ((if long then pieces.drop 2 else pieces).foldlM (Progress.next long) ⟨0, false⟩).map fun _ => ()

/-- What the letter after a backslash stands for. -/
def escapes : List (Char × Char) := [
  ('0', '\x00'), ('b', '\x08'), ('f', '\x0c'), ('n', '\n'), ('r', '\r'), ('t', '\t'), ('"', '"')]

def escaped? (c : CodePoint) : Option CodePoint :=
  (escapes.find? fun e => c = e.1).map fun e => CodePoint.ofChar e.2

def beginsNumber (c : CodePoint) : Bool := c = 'u' || c = 'U'

/-- One more piece after a backslash, after whether the backslash is escaped itself. Only known
letters may follow one that is not. -/
def checkPiece (isPlain : Bool) (piece : Text) : Except Fault Bool :=
  match piece with
  | [] => .ok (!isPlain)
  | c :: _ =>
    if isPlain || (escaped? c).isSome || beginsNumber c then .ok false else .error .malformed

def checkEscapes (t : Text) : Except Fault Unit :=
  (((t.splitOn (CodePoint.ofChar '\\')).drop 1).foldlM checkPiece false).map fun _ => ()

/-- The code point of some hexadecimal digits. Their number may be less than it should be; numbers
that begin like those of surrogates are refused. -/
def codePoint (digits : Text) : Except Fault CodePoint := do
  let values ← orMalformed (digits.mapM CodePoint.hexDigit?)
  match values with
  | [] => missed .beyondText
  | [0xd] => missed .beyondText
  | first :: second :: _ => if first = 0xd ∧ 8 ≤ second then .error .malformed
  | _ => pure ()
  let n := values.foldl (fun n d => 16 * n + d) 0
  if Nat.pow 2 31 ≤ n then missed .codePointTooLarge else orMalformed (CodePoint.ofNat? n)

/-- What has been read of the pieces between the beginnings of escapes by number: the texts, the
last first, and whether the next beginning is escaped itself. -/
structure Units where
  read : List Text
  skipping : Bool

/-- One more piece after such a beginning. After an escape by number the next beginning counts,
whatever is before it. -/
def Units.next (beginning : Text) (width : Nat) (u : Units) (piece : Text) : Except Fault Units :=
  if u.skipping then .ok ⟨piece :: beginning :: u.read, isEscaped piece.reverse⟩
  else (codePoint (piece.take width)).map fun c => ⟨piece.drop width :: [c] :: u.read, false⟩

/-- The text with its escapes by a number of digits replaced. -/
def replaceNumbers (beginning : Text) (width : Nat) (t : Text) : Except Fault Text :=
  match t.cutBy beginning with
  | [] => .ok []
  | first :: pieces =>
    (pieces.foldlM (Units.next beginning width) ⟨[first], isEscaped first.reverse⟩).map fun u =>
      u.read.reverse.flatten

/-- The text with its escapes by letter replaced, given what was read of it, the last first. Escapes
by number that are left stay. -/
def replaceLetters (before : Text) : Text → Except Fault Text
  | [] => .ok before.reverse
  | [c] => .ok (c :: before).reverse
  | c :: d :: rest =>
    if c ≠ '\\' then replaceLetters (c :: before) (d :: rest)
    else
      match escaped? d with
      | some e => replaceLetters (e :: before) rest
      | none =>
        if d = '\\' then replaceLetters (d :: before) rest
        else if beginsNumber d then replaceLetters (d :: c :: before) rest
        else .error .malformed

def replaceEscapes (t : Text) : Except Fault Text := do
  checkEscapes t
  let t ← replaceNumbers "\\u" 4 t
  let t ← replaceNumbers "\\U" 8 t
  replaceLetters [] t

/-- A text without its first and its last code point. -/
def inner (t : Text) : Text := (t.drop 1).dropLast

/-- The text without the quotes at its ends. -/
def dropQuotes (mark : CodePoint) (t : Text) : Text :=
  let doubled := t[1]? = some mark && (t[2]?).all fun c => c = mark
  if doubled then inner (inner (inner t)) else inner t

/-- The text that is written between quotes, with them. -/
def read (mark : CodePoint) (t : Text) : Except Fault Text := do
  checkEnd mark t
  let t ← if mark = '"' then replaceEscapes t else .ok t
  .ok (dropQuotes mark t)

end Literal

end Toml

end DependencyMap
