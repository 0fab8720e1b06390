import DependencyMap.Text.Basic
import DependencyMap.Text.Word
import DependencyMap.Toml.Fault

/-!
# The lines of a TOML document

A document is cut into lines before it is read. On the way comments become spaces, and so do the
line endings in arrays. A line ending right after three quotes becomes a quote, and the first of the
three a space, so that the text goes on in the same line. The scan keeps track of the quotes and
brackets that are open and sees to it that every key is followed by an equals sign in its line; it
is not aware of anything else.
-/

namespace DependencyMap

namespace Toml

def isQuote (c : CodePoint) : Bool := c = '"' || c = '\''

/-- Whether what is before, the last first, ends in an odd number of backslashes. -/
def isEscaped (before : Text) : Bool :=
  (before.takeWhile fun c : CodePoint => c = '\\').length % 2 = 1

/-- The kind of header that a scan is in. -/
inductive HeaderPart
  | outside
  | table
  | item
deriving DecidableEq

/-- The part of a key that a scan is in: a name, or the gap after one. -/
inductive KeyPart
  | outside
  | name
  | gap
deriving DecidableEq

structure Scan where
  /-- What has been laid out, the last first. -/
  before : Text
  /-- How many more brackets of arrays have been opened than closed. -/
  depth : Int
  /-- The quote that is open. -/
  mark : Option CodePoint
  /-- Whether three quotes are open. -/
  long : Bool
  header : HeaderPart
  key : KeyPart
  /-- Whether there has been a point in the key. -/
  dotted : Bool
  atLineStart : Bool
  inComment : Bool

namespace Scan

def start : Scan := ⟨[], 0, none, false, .outside, .outside, false, true, false⟩

def push (c : CodePoint) (s : Scan) : Scan := { s with before := c :: s.before }

/-- What comes before the next code point, the last first. Before the first one stands the end of
the document. -/
def preceding (s : Scan) (ahead : Text) : Text :=
  if s.before.isEmpty then ahead.reverse else s.before

/-- How many quotes of one kind come before, of which two count at most. -/
def quotesBefore (mark : CodePoint) (before : Text) : Nat :=
  ((before.take 2).takeWhile fun c => c = mark).length

/-- A single quote opens or closes a text, and the third in a row a long one. -/
def meetSingleQuote (s : Scan) (before : Text) : Scan :=
  let mark : CodePoint := '\''
  if quotesBefore mark before = 2 then
    { s with long := !s.long, mark := if s.long then none else some mark }
  else { s with mark := if s.mark.isSome then none else some mark }

/-- A double quote does the same, unless there is a backslash in front of it, or of the two before
it. -/
def meetDoubleQuote (s : Scan) (before : Text) : Scan :=
  let mark : CodePoint := '"'
  let run := quotesBefore mark before
  if run ≠ 1 && isEscaped (before.drop run) then s
  else if run = 2 then { s with long := !s.long, mark := if s.long then none else some mark }
  else { s with mark := if s.mark.isSome then none else some mark }

def meetQuote (s : Scan) (c : CodePoint) (before : Text) : Scan :=
  if c = '\'' ∧ s.mark ≠ some (CodePoint.ofChar '"') then s.meetSingleQuote before
  else if c = '"' ∧ s.mark ≠ some (CodePoint.ofChar '\'') then s.meetDoubleQuote before
  else s

/-- A bracket that is in no text opens a header at the start of a line and else an array. -/
def meetOpening (s : Scan) (next : Text) : Scan :=
  if s.mark.isSome ∨ s.header ≠ .outside then s
  else if s.atLineStart then { s with header := if next.startsWith "[" then .item else .table }
  else { s with depth := s.depth + 1 }

def meetClosing (s : Scan) (before : Text) : Scan :=
  if s.mark.isSome then s
  else
    match s.header with
    | .table => { s with header := .outside }
    | .item => if before.startsWith "]" then { s with header := .outside } else s
    | .outside => { s with depth := s.depth - 1 }

/-- A line ending right after two quotes of a kind, which stands for a third. -/
def joinLongText (s : Scan) : Scan :=
  match s.before with
  | a :: b :: c :: before =>
    if isQuote a ∧ b = a then
      { s with before := a :: a :: a :: (if c = a then CodePoint.ofChar ' ' else c) :: before }
    else s.push '\n'
  | _ => s.push '\n'

def meetLineEnd (s : Scan) : Except Fault Scan :=
  if s.mark.isSome ∨ s.long = true then
    if s.long then .ok s.joinLongText else .error .malformed
  else if s.depth ≠ 0 then .ok (s.push ' ')
  else .ok { (s.push '\n') with atLineStart := true }

/-- The first code point of a line that is neither a space nor a tab begins a key, if it begins no
header. -/
def meetFirst (s : Scan) (c : CodePoint) : Except Fault Scan :=
  if !s.atLineStart ∨ c = ' ' ∨ c = '\t' then .ok (s.push c)
  else if s.header ≠ .outside then .ok { (s.push c) with atLineStart := false }
  else if c = '=' then .error .malformed
  else .ok { (s.push c) with atLineStart := false, key := .name }

/-- One more code point outside keys and comments. -/
def meet (s : Scan) (c : CodePoint) (next : Text) : Except Fault Scan :=
  let before := s.preceding (c :: next)
  let s := s.meetQuote c before
  if c = '#' ∧ s.mark = none ∧ s.header = .outside then .ok { (s.push ' ') with inComment := true }
  else
    let s := if c = '[' then s.meetOpening next else if c = ']' then s.meetClosing before else s
    if c = '\n' then s.meetLineEnd else s.meetFirst c

/-- Whether another name follows a point or a gap. -/
def nameFollows (next : Text) : Except Fault Bool :=
  match next with
  | [] => missed .beyondList
  | c :: _ => .ok (!c.isBlank && c ≠ '.')

/-- One more code point of a key; `none` where an equals sign ends the key. -/
def meetInKey (s : Scan) (c : CodePoint) (next : Text) : Except Fault (Option Scan) :=
  let stay (s : Scan) : Except Fault (Option Scan) := .ok (some (s.push c))
  let follow (s : Scan) : Except Fault (Option Scan) :=
    (nameFollows next).bind fun follows => stay (if follows then { s with key := .name } else s)
  let finish : Except Fault (Option Scan) := if c = '=' then .ok none else .error .malformed
  if c = '\n' then .error .malformed
  else if s.mark.isSome then
    if s.mark = some c ∧ isEscaped s.before = false then
      stay { s with key := .gap, mark := none }
    else stay s
  else if s.key = .name then
    if c.isBlank then stay { s with key := .gap }
    else if c = '.' then stay { s with dotted := true }
    else if c.isWord || c = '-' then stay s
    else if s.dotted && Text.startsWith s.before "." && isQuote c then
      stay { s with mark := some c }
    else finish
  else if c.isBlank then (if s.dotted then follow s else stay s)
  else if c = '.' then follow { s with dotted := true }
  else finish

/-- One more code point. -/
def step (s : Scan) (c : CodePoint) (next : Text) : Except Fault Scan :=
  if s.inComment && c ≠ '\n' then .ok (s.push ' ')
  else if s.key = .outside then { s with inComment := false }.meet c next
  else do
    match ← s.meetInKey c next with
    | some s => .ok s
    | none => Scan.meet { s with key := .outside, dotted := false } c next

/-- The scan to the end of a document, where neither a key nor a text may be open. -/
def run (s : Scan) : Text → Except Fault Scan
  | [] => if s.key ≠ .outside ∨ s.mark.isSome then .error .malformed else .ok s
  | c :: next =>
    match s.step c next with
    | .ok s => run s next
    | .error fault => .error fault

end Scan

/-- The lines of a document. -/
def linesOf (t : Text) : Except Fault (List Text) :=
  (Scan.start.run t).map fun s => s.before.reverse.splitOn (CodePoint.ofChar '\n')

end Toml

end DependencyMap
