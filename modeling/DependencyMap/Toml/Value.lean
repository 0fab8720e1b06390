import DependencyMap.Number.Shortest
import DependencyMap.PathMap
import DependencyMap.Text.Printable

/-!
# TOML values

Besides the values that other formats have there are moments: dates, times, and both together, these
perhaps with a zone. A table that is written as a value, on one line, is told from one that headers
and keys make. A value is shown with its texts in quotes; plainly shown, a text that is the whole
value stands without them.
-/

namespace DependencyMap

namespace Toml

/-- A date, a time of day with its microseconds, or both, then perhaps with the minutes by which
clocks are ahead there. -/
inductive Moment
  | date (year month day : Nat)
  | time (hour minute second micro : Nat)
  | dateTime (year month day hour minute second micro : Nat) (ahead : Option Int)
deriving DecidableEq

inductive Value
  | text (t : Text)
  | integer (n : Int)
  | real (x : Binary64)
  | bool (b : Bool)
  | moment (m : Moment)
  | array (items : List Value)
  | table (inline : Bool) (members : List (Text × Value))

inductive Kind
  | text
  | integer
  | real
  | bool
  | date
  | dateTime
  | time
  | array
  | table
  | inlineTable
deriving DecidableEq

namespace Kind

/-- Whether items of two kinds may stand in one array. -/
def agrees : Kind → Kind → Bool
  | .date, .dateTime | .dateTime, .date => true
  | a, b => a = b

/-- The name of a kind in messages. -/
def name : Kind → Text
  | .text => "str"
  | .integer => "int"
  | .real => "float"
  | .bool => "bool"
  | .date => "datetime.date"
  | .dateTime => "datetime.datetime"
  | .time => "datetime.time"
  | .array => "list"
  | .table => "dict"
  | .inlineTable => "DynamicInlineTableDict"

end Kind

namespace Value

def kind : Value → Kind
  | .text _ => .text
  | .integer _ => .integer
  | .real _ => .real
  | .bool _ => .bool
  | .moment (.date ..) => .date
  | .moment (.dateTime ..) => .dateTime
  | .moment (.time ..) => .time
  | .array _ => .array
  | .table inline _ => if inline then .inlineTable else .table

/-- A table that is not written as a value and has no members yet. -/
def newTable : Value := .table false []

/-- False, zero, and whatever is empty. -/
def isEmptyLike : Value → Bool
  | .text t => t.isEmpty
  | .integer n => n = 0
  | .real x => x.isZero
  | .bool b => !b
  | .moment _ => false
  | .array items => items.isEmpty
  | .table _ members => members.isEmpty

end Value

/-- A number in two digits or more. -/
def twoDigits (n : Nat) : Text := if n < 10 then "0" ++ natText n else natText n

/-- The fields of a time, of which a last zero of seconds or microseconds is left out. -/
def timeFields (hour minute second micro : Nat) : List Nat :=
  [hour, minute] ++ (if second = 0 ∧ micro = 0 then [] else [second]) ++
    (if micro = 0 then [] else [micro])

namespace Moment

def clock (hour minute second micro : Nat) : Text :=
  let fraction := natText micro
  let point : Text :=
    if micro = 0 then ""
    else "." ++ List.replicate (6 - fraction.length) (CodePoint.ofChar '0') ++ fraction
  twoDigits hour ++ ":" ++ twoDigits minute ++ ":" ++ twoDigits second ++ point

def calendar (year month day : Nat) : Text :=
  let digits := natText year
  List.replicate (4 - digits.length) (CodePoint.ofChar '0') ++ digits ++ "-" ++ twoDigits month ++
    "-" ++ twoDigits day

/-- How far clocks are ahead, in hours and minutes. -/
def zone (ahead : Int) : Text :=
  let sign : Text := if ahead < 0 then "-" else "+"
  sign ++ twoDigits (ahead.natAbs / 60) ++ ":" ++ twoDigits (ahead.natAbs % 60)

def plain : Moment → Text
  | .date y mo d => calendar y mo d
  | .time h mi s us => clock h mi s us
  | .dateTime y mo d h mi s us ahead =>
    calendar y mo d ++ " " ++ clock h mi s us ++ (ahead.map zone).getD []

/-- The moment with its fields named by their order, and without its zone. -/
def shown (m : Moment) : Text :=
  let call (name : String) (fields : List Nat) : Text :=
    Text.ofString ("datetime." ++ name ++ "(") ++ Text.listed (fields.map natText) ++ ")"
  match m with
  | .date y mo d => call "date" [y, mo, d]
  | .time h mi s us => call "time" (timeFields h mi s us)
  | .dateTime y mo d h mi s us _ => call "datetime" ([y, mo, d] ++ timeFields h mi s us)

/-- Whether the clocks are less than a day ahead or behind. -/
def isWithinDay : Moment → Bool
  | .dateTime _ _ _ _ _ _ _ (some ahead) => ahead.natAbs < 24 * 60
  | _ => true

end Moment

mutual

/-- A value with its texts in quotes. -/
def Value.shown : Value → Text
  | .text t => t.quoted
  | .integer n => intText n
  | .real x => x.toText
  | .bool b => if b then "True" else "False"
  | .moment m => m.shown
  | .array items => "[" ++ Text.listed (shownItems items) ++ "]"
  | .table _ members => "\x7b" ++ Text.listed (shownMembers members) ++ "\x7d"

def shownItems : List Value → List Text
  | [] => []
  | v :: items => v.shown :: shownItems items

def shownMembers : List (Text × Value) → List Text
  | [] => []
  | (name, v) :: members => (name.quoted ++ ": " ++ v.shown) :: shownMembers members

end

mutual

/-- Whether no integer in a value has more digits than are written. -/
def Value.isWritable : Value → Bool
  | .integer n => n.natAbs < 10 ^ Numeral.maxDigits
  | .array items => areWritable items
  | .table _ members => haveWritable members
  | .text _ | .real _ | .bool _ | .moment _ => true

def areWritable : List Value → Bool
  | [] => true
  | v :: items => v.isWritable && areWritable items

def haveWritable : List (Text × Value) → Bool
  | [] => true
  | (_, v) :: members => v.isWritable && haveWritable members

end

/-- A value without quotes around a text that is the whole of it. -/
def Value.plain : Value → Text
  | .text t => t
  | .moment m => m.plain
  | v => v.shown

end Toml

end DependencyMap
