import DependencyMap.Toml.Reading

/-!
# TOML documents

A document is read line by line. A header begins a table, or one more table of an array, and the
entries up to the next header go into it. A table may be begun by one header only; a header whose
name has several parts makes the tables on its way, and as many headers may begin tables by the
names of these.
-/

namespace DependencyMap

namespace Toml

/-! ## Headers -/

def isHeaderChar (c : CodePoint) : Bool := c.value < 0x80 && (c.isWord || c = '-')

/-- The names of a header from the pieces between its points, given the piece in quotes that is not
closed yet. -/
def headerNames (current : Option Text) : List Text → Except Fault (List Text)
  | [] => if current.isSome then .error .malformed else .ok []
  | piece :: pieces =>
    let name := match current with
      | some before => Text.strip (before ++ "." ++ piece)
      | none => piece.strip
    if beginsQuoted name then
      if 1 < name.length ∧ name.head? = name.getLast? then
        (headerNames none pieces).map (Literal.inner name :: ·)
      else headerNames (some (match current with
        | some before => before ++ "." ++ piece
        | none => name)) pieces
    else if !name.isEmpty && name.all isHeaderChar then (headerNames none pieces).map (name :: ·)
    else .error .malformed

/-- A header: whether it begins one more table of an array, and its names. -/
structure Header where
  asItem : Bool
  names : List Text

def Header.ofLine (line : Text) : Except Fault Header := do
  let asItem := line.startsWith "[["
  let mark : Text := if asItem then "]]" else "]"
  let rest : Text := line.drop (if asItem then 2 else 1)
  let pieces := rest.cutBy mark
  let n := 1 + marksInQuotes mark false (quotePieces rest)
  let (written, after) := joinAround mark pieces n
  if pieces.length ≤ n ∨ after.strip.isEmpty = false then .error .malformed
  else (headerNames none (written.splitOn (CodePoint.ofChar '.'))).map (Header.mk asItem)

/-! ## Places -/

/-- The way to the table that a header begins, and the names that may still be begun. -/
structure Target where
  way : List Step
  implied : List Text

def Target.after (step : Step) (t : Target) : Target := { t with way := step :: t.way }

/-- Goes on with the last item of a value. -/
def aimAtLast (next : Value → Except Fault (Value × Target)) (v : Value) :
    Except Fault (Value × Target) :=
  (v.changeLast next).map fun (v, t) => (v, t.after .last)

/-- Goes on with the member of a value. On the way of a header that begins an item, the last item of
an array stands for the array. -/
def aimAtMember (asItem : Bool) (name : Text) (outer member : Value)
    (next : Value → Except Fault (Value × Target)) : Except Fault (Value × Target) := do
  let (inner, t) ← match asItem, member with
    | true, .table .. | false, _ => next member
    | true, v => aimAtLast next v
  .ok (outer.setMember name inner, t.after (.member name))

/-- Finds the table that a header begins, and makes the tables and the item that are missing. A
table may be begun if it is not there, or if it was made on the way to another. For an array on the
way stands its last item, and in that the last name may be there without any condition. -/
def aim (asItem : Bool) (implied : List Text) :
    (names : List Text) → Value → Except Fault (Value × Target)
  | [], v => .ok (v, ⟨[], implied⟩)
  | name :: names, v =>
    let made : Value := if asItem && names.isEmpty then .array [.newTable] else .newTable
    if name.isEmpty then .error .malformed
    else
      match v with
      | .table _ members =>
        match Members.get? members name with
        | none =>
          let implied := if names.isEmpty then implied else name :: implied
          aimAtMember asItem name v made (aim asItem implied names)
        | some member =>
          if !names.isEmpty then aimAtMember asItem name v member (aim asItem implied names)
          else if implied.contains name then
            if asItem then .error .malformed
            else aimAtMember asItem name v member (aim asItem (implied.erase name) names)
          else if asItem then
            match member with
            | .array items =>
              aimAtMember asItem name v (.array (items ++ [.newTable])) (aim asItem implied names)
            | member => missed (.notGrowing member.kind)
          else .error .malformed
      | v =>
        aimAtLast (fun last => do
          let member ← last.member? name
          aimAtMember asItem name last (member.getD made) (aim asItem implied names)) v

/-! ## Documents -/

/-- A document that is being read. -/
structure Document where
  root : Value
  /-- The way to the table that entries go into. -/
  current : List Step
  /-- The names of the tables that headers made on their way. -/
  implied : List Text
  pending : Option Pending

namespace Document

def empty : Document := ⟨.newTable, [], [], none⟩

/-- Changes the table that entries go into. -/
def change (d : Document) (f : Value → Except Fault (Value × Option Pending)) :
    Except Fault Document :=
  (d.root.changeAt f d.current).map fun (root, pending) => { d with root, pending }

/-- Whether a line ends what is pending. -/
def endsPending (p : Pending) (line : Text) : Except Fault Bool :=
  if p.opening = '[' then (lastCodePoint line).map fun c : CodePoint => c = ']'
  else .ok (2 < line.length && (line.reverse.take 3).all fun c => c = p.opening)

/-- One more line of what is pending. The value goes into the table that entries go into, whatever
names were on its way, and replaces another one. -/
def continuePending (d : Document) (p : Pending) (line : Text) : Except Fault Document := do
  let before := line.reverse ++ p.before
  if ← endsPending p line then
    let v ← valueOf true before.reverse
    d.change fun level => .ok (level.setMember p.name v, none)
  else .ok { d with pending := some (.ofReversed p.name p.opening before) }

/-- A line that begins a table, or holds a table on one line or an entry. All others are left
out. -/
def readFresh (d : Document) (line : Text) : Except Fault Document :=
  if line.startsWith "[" then do
    let header ← Header.ofLine line
    let (root, target) ← aim header.asItem d.implied header.names d.root
    .ok ⟨root, target.way, target.implied, none⟩
  else if line.startsWith "\x7b" then
    if line.endsWith "\x7d" then do
      let pieces ← memberPieces line
      d.change fun level => (addMembers valueOf level pieces).map fun r => (r.1, none)
    else .error .malformed
  else if line.elem (CodePoint.ofChar '=') then do
    let e ← Entry.ofLine line
    d.change (e.add valueOf)
  else .ok d

/-- Reads one line. White space at its ends does not count, unless the line is one of a text and is
not joined to the one before. -/
def readLine (d : Document) (line : Text) : Except Fault Document :=
  match d.pending with
  | none => if line.strip.isEmpty then .ok d else d.readFresh line.strip
  | some p =>
    if p.joined then
      if line.strip.isEmpty then .ok d else d.continuePending p line.strip
    else d.continuePending p line

end Document

/-- The members of the document that a text writes. -/
def read (t : Text) : Except Fault (Members Value) := do
  let lines ← linesOf t
  let d ← lines.foldlM Document.readLine .empty
  match d.root with
  | .table _ members => .ok members
  | _ => .error .malformed

end Toml

end DependencyMap
