import DependencyMap.Text.Basic

/-!
# Patterns

A pattern describes how a piece of text may begin. Reading a pattern at a point of a text has an
ordered list of outcomes: the first part of a choice comes before the second, and a longer run
before a shorter one. `Pattern.run` walks through it without building it, stopping at the first
outcome that its continuation accepts. A pattern may keep a part of what it read under a slot.

A rule is a pattern together with the places where it may begin: anywhere, or only at the start of
a line. Its matches are found from left to right and do not overlap; at each place the first
outcome of the pattern is taken.
-/

namespace DependencyMap

/-- What a kept part stands for: a locally bound name, a list of names separated by commas, the
target of an import, or the body of a group of imports. -/
inductive Slot
  | binding
  | names
  | target
  | body
deriving DecidableEq

inductive Pattern
  | nothing
  | text (t : Text)
  | one (p : CodePoint → Bool)
  | many (p : CodePoint → Bool)
  | seq (first second : Pattern)
  | choice (first second : Pattern)
  | keep (slot : Slot) (part : Pattern)

/-- A kept part: the first `length` code points of `source`. -/
structure Kept where
  slot : Slot
  source : Text
  length : Nat

def Kept.content (k : Kept) : Text := k.source.take k.length

/-- How far reading has come: the number of code points taken, what is left, and the parts kept so
far, the latest first. -/
structure Reading where
  taken : Nat
  rest : Text
  kept : List Kept

namespace Reading

def start (t : Text) : Reading := ⟨0, t, []⟩

/-- The part kept under a slot. -/
def part? (r : Reading) (slot : Slot) : Option Text :=
  (r.kept.find? fun k => k.slot = slot).map Kept.content

end Reading

namespace Pattern

/-- One code point or more. -/
def many1 (p : CodePoint → Bool) : Pattern := .seq (.one p) (.many p)

/-- The pattern if it can be read, else nothing. -/
def optional (part : Pattern) : Pattern := .choice part .nothing

/-- The parts one after the other. -/
def sequence (parts : List Pattern) : Pattern := parts.foldr .seq .nothing

/-- The first of the words that can be read and with which the rest can be read too. -/
def oneOf : List Text → Pattern
  | [] => .one fun _ => false
  | [w] => .text w
  | w :: others => .choice (.text w) (oneOf others)

/-- Moves the longest beginning of a text that satisfies `p` onto `taken`, in reverse. -/
def gather (p : CodePoint → Bool) : (taken rest : Text) → Text × Text
  | taken, [] => (taken, [])
  | taken, c :: rest => if p c then gather p (c :: taken) rest else (taken, c :: rest)

/-- Gives back one code point of a run after the other until the continuation accepts. `reach`
counts the code points up to the end of the run. -/
def retreat {α : Type} (kept : List Kept) (next : Reading → Option α) :
    (reach : Nat) → (taken rest : Text) → Option α
  | reach, [], rest => next ⟨reach, rest, kept⟩
  | reach, c :: taken, rest =>
    match next ⟨reach, rest, kept⟩ with
    | some a => some a
    | none => retreat kept next (reach - 1) taken (c :: rest)

/-- Reads the pattern and goes on with `next`, taking the first outcome that `next` accepts. -/
def run {α : Type} : Pattern → Reading → (Reading → Option α) → Option α
  | .nothing, r, next => next r
  | .text t, r, next =>
    if t.isPrefixOf r.rest then next ⟨r.taken + t.length, r.rest.drop t.length, r.kept⟩ else none
  | .one p, r, next =>
    match r.rest with
    | [] => none
    | c :: rest => if p c then next ⟨r.taken + 1, rest, r.kept⟩ else none
  | .many p, r, next =>
    let run := gather p [] r.rest
    retreat r.kept next (r.taken + run.1.length) run.1 run.2
  | .seq first second, r, next => first.run r fun r => second.run r next
  | .choice first second, r, next =>
    match first.run r next with
    | some a => some a
    | none => second.run r next
  | .keep slot part, r, next =>
    part.run r fun r' => next { r' with kept := ⟨slot, r.rest, r'.taken - r.taken⟩ :: r'.kept }

/-- The first outcome. -/
def read? (p : Pattern) (t : Text) : Option Reading := p.run (.start t) some

end Pattern

/-! ### Searching a text -/

structure Rule where
  anchored : Bool
  body : Pattern

/-- A match: how many code points stand before it, and what was read. -/
structure Match where
  offset : Nat
  reading : Reading

namespace Match

def part? (m : Match) (slot : Slot) : Option Text := m.reading.part? slot

/-- The line on which a match of `t` begins, counted from 1. -/
def line (m : Match) (t : Text) : Nat := (t.take m.offset).count (CodePoint.ofChar '\n') + 1

end Match

namespace Rule

/-- What the rule reads at a place, if it may begin there. -/
def readAt? (rule : Rule) (atLineStart : Bool) (t : Text) : Option Reading :=
  if rule.anchored && !atLineStart then none else rule.body.read? t

/-- The matches that begin after the next `skip` code points. -/
def scan (rule : Rule) : (skip : Nat) → (atLineStart : Bool) → (offset : Nat) → Text → List Match
  | _, _, _, [] => []
  | skip + 1, _, offset, c :: rest => scan rule skip (c = '\n') (offset + 1) rest
  | 0, atLineStart, offset, c :: rest =>
    match rule.readAt? atLineStart (c :: rest) with
    | none => scan rule 0 (c = '\n') (offset + 1) rest
    | some r => ⟨offset, r⟩ :: scan rule (r.taken - 1) (c = '\n') (offset + 1) rest

/-- Every match in a text, from left to right. -/
def matchesIn (rule : Rule) (t : Text) : List Match := rule.scan 0 true 0 t

end Rule

end DependencyMap
