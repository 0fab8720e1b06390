import DependencyMap.Toml.Value

/-!
# Faults of a TOML document

Most documents that are not TOML are malformed, and it does not matter where. In some corners
reading makes a misstep instead: it asks a value for something that values of its kind do not have,
or goes beyond an end. A misstep is told in words of its own.
-/

namespace DependencyMap

namespace Toml

inductive Misstep
  /-- A code point beyond the end of a text. -/
  | beyondText
  /-- An item beyond the end of a list. -/
  | beyondList
  /-- The last item of something that has no items. -/
  | withoutItems (kind : Kind)
  /-- A name looked for in something that holds no names. -/
  | withoutNames (kind : Kind)
  /-- A member of an array by name. -/
  | namedItem
  /-- A member of a text by name. -/
  | namedCodePoint
  /-- A change of a text by name. -/
  | fixedText
  /-- One more table for something that is no array. -/
  | notGrowing (kind : Kind)
  /-- A code point by a number that is far too large. -/
  | codePointTooLarge
  /-- A fraction of a second by a number that is far too large. -/
  | fractionTooLarge
  /-- A text over several lines for a member without a name. -/
  | unnamedLongText
deriving DecidableEq

def Misstep.message : Misstep → Text
  | .beyondText => "string index out of range"
  | .beyondList => "list index out of range"
  | .withoutItems kind => "'" ++ kind.name ++ "' object is not subscriptable"
  | .withoutNames kind => "argument of type '" ++ kind.name ++ "' is not iterable"
  | .namedItem => "list indices must be integers or slices, not str"
  | .namedCodePoint => "string indices must be integers, not 'str'"
  | .fixedText => "'str' object does not support item assignment"
  | .notGrowing kind => "'" ++ kind.name ++ "' object has no attribute 'append'"
  | .codePointTooLarge => "Python int too large to convert to C int"
  | .fractionTooLarge => "int too large to convert to float"
  | .unnamedLongText =>
    "cannot access local variable 'value' where it is not associated with a value"

/-- Why a document is not read. -/
inductive Fault
  | malformed
  | misstep (m : Misstep)
deriving DecidableEq

def missed {α : Type} (m : Misstep) : Except Fault α := .error (.misstep m)

/-- What an option holds; nothing is malformed. -/
def orMalformed {α : Type} : Option α → Except Fault α
  | some a => .ok a
  | none => .error .malformed

/-- The last item of a list, where there has to be one. -/
def lastItem {α : Type} (l : List α) : Except Fault α :=
  match l.getLast? with
  | some a => .ok a
  | none => missed .beyondList

/-- The last code point of a text, where there has to be one. -/
def lastCodePoint (t : Text) : Except Fault CodePoint :=
  match t.getLast? with
  | some c => .ok c
  | none => missed .beyondText

end Toml

end DependencyMap
