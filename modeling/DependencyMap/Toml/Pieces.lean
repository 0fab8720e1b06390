import DependencyMap.Text.Basic
import DependencyMap.Toml.Literal

/-!
# Pieces of a line

How lines, arrays and tables are cut before their parts are read. Quotes are told apart from what is
between them by cutting at all of them: then every second piece is quoted. An array is cut at its
commas; commas between quotes are undone where the first item is a text, those between brackets
where it is an array, and tables are told by their braces.
-/

namespace DependencyMap

namespace Toml

def comma : Text := ","

/-! ## Quotes -/

/-- Cuts at single quotes, where a double quote before the first of a pair is closed belongs to the
text between them. Gives the pieces, and those between double quotes that are left. -/
def takeSingleQuoted (singles : List Text) : List Text → List Text × List Text
  | [] => (singles, [])
  | piece :: pieces =>
    if singles.length % 2 = 0 then
      let last := singles.getLastD [] ++ (CodePoint.ofChar '"' :: piece)
      takeSingleQuoted (singles.dropLast ++ last.splitOn (CodePoint.ofChar '\'')) pieces
    else (singles, piece :: pieces)

/-- The pieces of a line between its quotes. After the first double quote, single ones do not
count. -/
def quotePieces (line : Text) : List Text :=
  let cut (t : Text) : List Text := t.splitOn (CodePoint.ofChar '\'')
  match line.splitOn (CodePoint.ofChar '"') with
  | [] => []
  | [whole] => cut whole
  | first :: pieces =>
    if first.elem (CodePoint.ofChar '\'') then
      match takeSingleQuoted (cut first) pieces with
      | (singles, []) => singles
      | (singles, next :: rest) => singles ++ cut next ++ rest
    else first :: pieces

/-- How often a mark occurs in the pieces before the first one without quotes that holds it. -/
def marksInQuotes (mark : Text) : (quoted : Bool) → List Text → Nat
  | _, [] => 0
  | quoted, piece :: pieces =>
    if !quoted && piece.contains mark then 0
    else (piece.cutBy mark).length - 1 + marksInQuotes mark (!quoted) pieces

/-- The pieces of a line at a mark, put together to two: those before the occurrence of the mark
with the given number, and those after it. -/
def joinAround (mark : Text) (pieces : List Text) (n : Nat) : Text × Text :=
  let n := min n (pieces.length - 1)
  (mark.intercalate (pieces.take n), mark.intercalate (pieces.drop n))

/-! ## Arrays -/

/-- Whether a text begins with a quote. -/
def beginsQuoted (t : Text) : Bool := t.head?.any isQuote

/-- Whether a piece ends in the code point it begins with, unescaped. -/
def isClosed (piece : Text) : Bool :=
  piece.isEmpty || (piece.head? = piece.getLast? && !isEscaped (piece.drop 1).dropLast.reverse)

/-- Whether a piece begins with three equal code points and has only the last of them at its end. -/
def lacksEnd (piece : Text) : Bool :=
  match piece with
  | a :: b :: c :: _ =>
    let ends := piece.reverse
    a = b && b = c && ends[1]? ≠ some a && ends[2]? ≠ some a
  | _ => false

/-- Puts the pieces of texts that hold commas together, given the one begun last and whether it is
still as it was cut. The last piece is taken as it is. -/
def joinTexts (current : Text) (asCut : Bool) : List Text → Except Fault (List Text)
  | [] =>
    if asCut || (isClosed current.strip && !lacksEnd current.strip) then .ok [current]
    else missed .beyondList
  | next :: pieces =>
    if isClosed current.strip && !lacksEnd current.strip then
      (joinTexts next true pieces).map (current :: ·)
    else joinTexts (current ++ comma ++ next) false pieces

/-- Where the search for tables stands: in one, with what has been read of it, the last first, or
between two of them, perhaps right after the first. -/
inductive Search
  | within (before : Text) (quoted : Bool)
  | between (justClosed : Bool)

/-- The tables in an array of tables, by their braces. The opening brace of a table is not counted,
except for the first one. -/
def tablePieces (depth : Nat) : Search → Text → List Text
  | _, [] => []
  | .between true, _ :: rest => tablePieces depth (.between false) rest
  | .between false, c :: rest =>
    tablePieces depth (if c = '\x7b' then .within [c] false else .between false) rest
  | .within before quoted, c :: rest =>
    let quoted := if isQuote c then !quoted || isEscaped before else quoted
    let depth := if !quoted && c = '\x7b' then depth + 1 else depth
    if quoted || c ≠ '\x7d' then tablePieces depth (.within (c :: before) quoted) rest
    else if 1 < depth then tablePieces (depth - 1) (.within (c :: before) quoted) rest
    else (c :: before).reverse :: tablePieces depth (.between true) rest

/-- The pieces at the commas that are in no brackets, given what has been read of the first piece,
the last first. -/
def bracketPieces (depth : Int) (before : Text) : Text → List Text
  | [] => [before.reverse]
  | c :: rest =>
    if c = ',' ∧ depth = 0 then before.reverse :: bracketPieces depth [] rest
    else
      let depth := if c = '[' then depth + 1 else if c = ']' then depth - 1 else depth
      bracketPieces depth (c :: before) rest

/-- The items of an array that is written with its brackets. -/
def arrayPieces (t : Text) : Except Fault (List Text) :=
  let items := Literal.inner t
  let beforeBracket : Text := items.takeWhile fun c : CodePoint => c ≠ '['
  if items.elem (CodePoint.ofChar '[') && beforeBracket.strip.isEmpty then
    .ok (bracketPieces 0 [] items)
  else if items.strip.startsWith "\x7b" then
    .ok (match items with
      | [] => []
      | c :: rest => tablePieces (if c = '\x7b' then 1 else 0) (.within [c] false) rest)
  else
    match items.splitOn (CodePoint.ofChar ',') with
    | [] => .ok []
    | first :: pieces =>
      if beginsQuoted items.strip then joinTexts first true pieces else .ok (first :: pieces)

/-! ## Tables on one line -/

/-- Whether a value in a table on one line can be told to be whole. -/
def isWhole (t : Text) : Bool :=
  let beginsAndEnds (a b : CodePoint) : Bool := t.head? = some a && t.getLast? = some b
  beginsAndEnds '"' '"' || beginsAndEnds '\'' '\'' || beginsAndEnds '[' ']' ||
    beginsAndEnds '\x7b' '\x7d' || t.head?.any (fun c : CodePoint => c = '-' || c.isAsciiDigit) ||
    t = "true" || t = "false"

/-- Puts the pieces of members whose values hold commas together, given the one begun last. -/
def joinMembers (current : Text) (pieces : List Text) : Except Fault (List Text) := do
  if !current.elem (CodePoint.ofChar '=') then .error .malformed
  else
    let value := Text.strip ((current.dropWhile fun c : CodePoint => c ≠ '=').drop 1)
    if value.isEmpty then missed .beyondText
    else
      match pieces with
      | [] => if isWhole value then .ok [current] else .error .malformed
      | next :: pieces =>
        if isWhole value then (joinMembers next pieces).map (current :: ·)
        else joinMembers (current ++ comma ++ next) pieces

/-- The members of a table that is written with its braces. -/
def memberPieces (t : Text) : Except Fault (List Text) :=
  match (Literal.inner t).splitOn (CodePoint.ofChar ',') with
  | [] => .ok []
  | first :: pieces =>
    if pieces.isEmpty && (Text.strip first).isEmpty then .ok [] else joinMembers first pieces

end Toml

end DependencyMap
