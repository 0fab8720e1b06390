import DependencyMap.Number.Binary64
import DependencyMap.Number.Numeral
import DependencyMap.Number.Shortest
import DependencyMap.PathMap

/-!
# JSON values and how they are written

Numbers with a fraction or an exponent are doubles, all others are integers. The members of an
object have different names.

Two forms are written. The compact one has no space and leaves every character outside ASCII as it
is. The indented one has a line for each item and member, two spaces deeper than what holds it, and
escapes everything outside printable ASCII, with a pair of surrogates for a code point above U+FFFF.
In both an empty array or object has nothing between its brackets.
-/

namespace DependencyMap

namespace Json

inductive Value
  | null
  | bool (b : Bool)
  | integer (n : Int)
  | real (x : Binary64)
  | text (t : Text)
  | array (items : List Value)
  | object (members : List (Text × Value))

namespace Value

/-- Null, false, a zero of either sign, and whatever is empty. -/
def isEmptyLike : Value → Bool
  | null => true
  | bool b => !b
  | integer n => n = 0
  | real x => x.isZero
  | text t => t.isEmpty
  | array items => items.isEmpty
  | object members => members.isEmpty

end Value

/-! ### Writing -/

structure Layout where
  /-- Whether each item stands on a line of its own. -/
  indented : Bool
  /-- Whether only printable ASCII is left unescaped. -/
  ascii : Bool

def compact : Layout := ⟨false, false⟩

def indentedAscii : Layout := ⟨true, true⟩

def unitEscape (n : Nat) : Text := "\\u" ++ Text.ofHex 4 n

/-- The escape of a code point by its number, in one unit or two. -/
def numberEscape (c : CodePoint) : Text :=
  if c.value < 0x10000 then unitEscape c.value
  else
    let above := c.value - 0x10000
    unitEscape (0xD800 + above / 0x400) ++ unitEscape (0xDC00 + above % 0x400)

def shortEscapes : List (Char × String) := [
  ('"', "\\\""), ('\\', "\\\\"), ('\n', "\\n"), ('\r', "\\r"), ('\t', "\\t"), ('\x08', "\\b"),
  ('\x0c', "\\f")]

def writeCodePoint (layout : Layout) (c : CodePoint) : Text :=
  match shortEscapes.find? fun e => c = e.1 with
  | some e => e.2
  | none =>
    if c.value < 0x20 || (layout.ascii && 0x7E < c.value) then numberEscape c else [c]

def writeText (layout : Layout) (t : Text) : Text :=
  "\"" ++ t.flatMap (writeCodePoint layout) ++ "\""

def writeReal : Binary64 → Text
  | .nan => "NaN"
  | .infinite negative => if negative then "-Infinity" else "Infinity"
  | x => x.toText

/-- A new line at the given depth, in the indented form. -/
def lineBreak (layout : Layout) (depth : Nat) : Text :=
  if layout.indented then "\n" ++ List.replicate (2 * depth) (CodePoint.ofChar ' ') else []

mutual

def write (layout : Layout) (depth : Nat) : Value → Text
  | .null => "null"
  | .bool b => if b then "true" else "false"
  | .integer n => intText n
  | .real x => writeReal x
  | .text t => writeText layout t
  | .array [] => "[]"
  | .array (v :: items) =>
    "[" ++ lineBreak layout (depth + 1) ++ write layout (depth + 1) v ++
      writeItems layout (depth + 1) items ++ lineBreak layout depth ++ "]"
  | .object [] => "\x7b\x7d"
  | .object (m :: members) =>
    "\x7b" ++ lineBreak layout (depth + 1) ++ writeMember layout (depth + 1) m ++
      writeMembers layout (depth + 1) members ++ lineBreak layout depth ++ "\x7d"

/-- The items after the first. -/
def writeItems (layout : Layout) (depth : Nat) : List Value → Text
  | [] => []
  | v :: items =>
    "," ++ lineBreak layout depth ++ write layout depth v ++ writeItems layout depth items

def writeMember (layout : Layout) (depth : Nat) : Text × Value → Text
  | (name, v) =>
    writeText layout name ++ (if layout.indented then ": " else ":" : String) ++
      write layout depth v

/-- The members after the first. -/
def writeMembers (layout : Layout) (depth : Nat) : List (Text × Value) → Text
  | [] => []
  | m :: members =>
    "," ++ lineBreak layout depth ++ writeMember layout depth m ++ writeMembers layout depth members

end

/-- The text of a value on one line. -/
def Value.toCompact (v : Value) : Text := write compact 0 v

/-- The text of a value over several lines, in ASCII. -/
def Value.toIndented (v : Value) : Text := write indentedAscii 0 v

end Json

end DependencyMap
