import DependencyMap.Toml.Entry
import DependencyMap.Toml.Fault

/-!
# Reading values

A place in a value is found by steps: to the member of a table, or to the last item of an array.
What stands at a place can be changed, and tables are made on the way where there is nothing.

The value of an entry is a truth value, a text, an array, a table on one line, a moment or a number.
The items of an array are of one kind. An entry is added to a level, which is a table unless a key
leads into some other value; a key may be given one value only. A text that goes on in the next
line leaves its entry pending.
-/

namespace DependencyMap

namespace Toml

/-- A step from a value to one in it. -/
inductive Step
  | member (name : Text)
  | last

namespace Value

/-- The value for a name, if there is one. Where there is none, and the value is a table, it can be
given one. -/
def member? (name : Text) : Value → Except Fault (Option Value)
  | .table _ members => .ok (Members.get? members name)
  | .array _ => missed .namedItem
  | .text t => missed (if t.contains name then .namedCodePoint else .fixedText)
  | v => missed (.withoutNames v.kind)

/-- Gives a table a member; other values have none. -/
def setMember (v : Value) (name : Text) (a : Value) : Value :=
  match v with
  | .table inline members => .table inline (Members.set name a members)
  | v => v

/-- Does something with the last item of a value that has items, and puts what comes of it in its
place. The last code point of a text is an item that stays as it is. -/
def changeLast {α : Type} (change : Value → Except Fault (Value × α)) :
    Value → Except Fault (Value × α)
  | .array items => do
    let (last, a) ← change (← lastItem items)
    .ok (.array (items.dropLast ++ [last]), a)
  | .text t => do
    let (_, a) ← change (.text [← lastCodePoint t])
    .ok (.text t, a)
  | v => missed (.withoutItems v.kind)

/-- Changes what stands at the end of a way, making tables where there is nothing. -/
def changeAt {α : Type} (change : Value → Except Fault (Value × α)) :
    (way : List Step) → Value → Except Fault (Value × α)
  | [], v => change v
  | .member name :: way, v => do
    let inner ← v.member? name
    let (inner, a) ← changeAt change way (inner.getD newTable)
    .ok (v.setMember name inner, a)
  | .last :: way, v => changeLast (changeAt change way) v

end Value

/-! ### Reading -/

/-- The beginning of a text that goes on in the next line, and the name that it is for. -/
structure Pending where
  name : Text
  /-- The first code point of the text, or the bracket of the array that it stands in. -/
  opening : CodePoint
  /-- What has been read, the last first. -/
  before : Text
  /-- Whether the last line ended in a backslash, which joins the next one to it. -/
  joined : Bool

/-- Ends a line of a text: with a line ending, or by joining the next line to it. -/
def Pending.ofReversed (name : Text) (opening : CodePoint) (before : Text) : Pending :=
  if isEscaped before then ⟨name, opening, before.drop 1, true⟩
  else ⟨name, opening, CodePoint.ofChar '\n' :: before, false⟩

/-- Reads the items of an array, each of the kind of those before, the last of which are first. -/
def readItems (read : Text → Except Fault Value) (before : List Value) :
    List Text → Except Fault (List Value)
  | [] => .ok before.reverse
  | piece :: pieces =>
    if piece.strip.isEmpty then readItems read before pieces
    else do
      let v ← read piece.strip
      if before.head?.any fun w => !w.kind.agrees v.kind then .error .malformed
      else readItems read (v :: before) pieces

/-- Adds the value of an entry to its level, or leaves it pending. -/
def Entry.add (read : Bool → Text → Except Fault Value) (e : Entry) (level : Value) :
    Except Fault (Value × Option Pending) :=
  level.changeAt (fun level => do
    let value ← if ← e.opensLongText then .ok none else (read e.tidy e.written).map some
    match level with
    | .table _ members =>
      if (Members.get? members e.name).isSome then .error .malformed
      else
        match value, e.written with
        | some v, _ => .ok (level.setMember e.name v, none)
        | none, [] => .error .malformed
        | none, c :: _ =>
          if e.name.isEmpty then missed .unnamedLongText
          else .ok (level, some (.ofReversed e.name c e.written.reverse))
    | _ => .error .malformed) (e.way.map .member)

/-- Adds the members of a table that is written on one line, up to one that is left pending. -/
def addMembers (read : Bool → Text → Except Fault Value) (level : Value) :
    List Text → Except Fault (Value × Option Pending)
  | [] => .ok (level, none)
  | piece :: pieces => do
    let e ← Entry.ofLine piece
    match ← e.add read level with
    | (level, none) => addMembers read level pieces
    | (level, pending) => .ok (level, pending)

/-- Reads a value. A number or a moment has to be tidy where that is asked for. The fuel bounds how
deep values are nested. -/
def readValue : (fuel : Nat) → (tidy : Bool) → Text → Except Fault Value
  | 0, _, _ => .error .malformed
  | _, _, [] => .error .malformed
  | fuel + 1, tidy, c :: rest => do
    let t := c :: rest
    let word := t.map CodePoint.toLower
    if (["true", "false"] : List Text).contains word then
      if t = word then .ok (.bool (word = "true")) else .error .malformed
    else if isQuote c then (Literal.read c t).map .text
    else if c = '[' then
      (readItems (readValue fuel true) [] (← arrayPieces (Text.strip t))).map .array
    else if c = '\x7b' then
      (addMembers (readValue fuel) (.table true []) (← memberPieces t)).map Prod.fst
    else if beginsWithTime t then (readTime t).map .moment
    else
      match ← readDate t with
      | some date => .ok (.moment date)
      | none => if tidy then orMalformed (number? t) else .error .malformed

/-- The value that a text writes; an item in it is shorter than it. -/
def valueOf (tidy : Bool) (t : Text) : Except Fault Value := readValue (t.length + 1) tidy t

end Toml

end DependencyMap
