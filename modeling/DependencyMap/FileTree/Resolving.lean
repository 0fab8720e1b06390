import DependencyMap.FileTree.Basic

/-!
# Resolving paths

A path leads from a place to another, name by name, through symbolic links. The canonical place of a
path is found also where nothing stands, by taking the names as they are; but where a link is met
while it is being followed, the rest of the path is left as it is written. To reach what stands at a
path, everything on the way has to be there, only directories may be passed through, at most forty
links are followed, and neither a name nor the path may be too long. A path is resolved to its
canonical place, or to the one that is named by what is left of it, unless that is behind too many
links.
-/

namespace DependencyMap

/-- How many bytes a code point takes in a path. Bytes that are not UTF-8 are written as surrogates
from U+DC80 on. -/
def CodePoint.pathWidth (c : CodePoint) : Nat :=
  if 0xDC80 ≤ c.value ∧ c.value ≤ 0xDCFF then 1 else (Utf8.encodeCodePoint c).length

def Text.pathLength (t : Text) : Nat := t.foldl (fun length c => length + c.pathWidth) 0

/-- Where a path starts. -/
def pathStart (base : Place) (path : Text) : Place := if path.startsWith "/" then [] else base

/-- The names of a path but for those that stay where they are. -/
def pathNames (path : Text) : List Text :=
  path.segments.filter fun name => !(name.isEmpty || name = ".")

/-- A path after another, or alone if it is absolute. -/
def joinPaths (path rest : Text) : Text :=
  if rest.startsWith "/" then rest
  else if path.endsWith "/" then path ++ rest
  else path ++ "/" ++ rest

/-- The place that an absolute path names when no link is followed. If just two slashes begin the
path, both are kept, the second one after an empty name. -/
def namedPlace (path : Text) : Place :=
  let next (place : Place) (name : Text) : Place :=
    if name = ".." then place.dropLast else place ++ [name]
  let place := (pathNames path).foldl next []
  if path.startsWith "//" && !path.startsWith "///" then [] :: place else place

/-- The links that were met, each with the place it leads to, or with none as long as it is being
followed. What was noted last of a link counts. -/
abbrev Followed := List (Place × Option Place)

/-- Why a path has no canonical place. -/
inductive Unresolved
  /-- A link was met while it was being followed: its path is left, with what came after it. -/
  | circle (left : Text)
  /-- Too many links lead through one another. -/
  | tooDeep
deriving DecidableEq

/-- What is left with the names that were still to come. -/
def Unresolved.andThen (names : List Text) : Unresolved → Unresolved
  | .circle left => .circle (joinPaths left (Text.ofSegments names))
  | .tooDeep => .tooDeep

namespace FileTree

/-- Goes on by a name, given how a link is followed. A link that was followed before leads where it
led then. -/
def enter (tree : FileTree)
    (follow : Followed × Place → Text → Except Unresolved (Followed × Place))
    (state : Followed × Place) (name : Text) : Except Unresolved (Followed × Place) :=
  if name = "" ∨ name = "." then .ok state
  else if name = ".." then .ok (state.1, state.2.dropLast)
  else
    let place := state.2 ++ [name]
    match tree.item? place with
    | some (.link target) =>
      match state.1.lookup place with
      | some (some known) => .ok (state.1, known)
      | some none => .error (.circle place.toPath)
      | none =>
        (follow ((place, none) :: state.1, state.2) target).map fun (followed, dest) =>
          ((place, some dest) :: followed, dest)
    | _ => .ok (state.1, place)

/-- Goes on by names, one after the other. -/
def enterAll (tree : FileTree)
    (follow : Followed × Place → Text → Except Unresolved (Followed × Place)) :
    Followed × Place → List Text → Except Unresolved (Followed × Place)
  | state, [] => .ok state
  | state, name :: names =>
    match tree.enter follow state name with
    | .error fault => .error (fault.andThen names)
    | .ok state => enterAll tree follow state names

/-- Goes on by a path, from which fewer than `depth` links may lead through one another. -/
def canonicalFrom (tree : FileTree) :
    (depth : Nat) → Followed × Place → (path : Text) → Except Unresolved (Followed × Place)
  | 0, _, _ => .error .tooDeep
  | depth + 1, (followed, base), path =>
    tree.enterAll (canonicalFrom tree depth) (followed, pathStart base path) path.segments

/-- The canonical place of a path on which `room` links may lead through one another. -/
def canonical (tree : FileTree) (room : Nat) (base : Place) (path : Text) :
    Except Unresolved Place :=
  (tree.enterAll (tree.canonicalFrom room) ([], pathStart base path) (pathNames path)).map (·.2)

end FileTree

/-- Why nothing is reached at a path. -/
inductive PathFault
  | missing
  | notDirectory
  | tooManyLinks
  | nameTooLong
deriving DecidableEq

namespace PathFault

def number : PathFault → Nat
  | .missing => 2
  | .notDirectory => 20
  | .tooManyLinks => 40
  | .nameTooLong => 36

def reason : PathFault → Text
  | .missing => "No such file or directory"
  | .notDirectory => "Not a directory"
  | .tooManyLinks => "Too many levels of symbolic links"
  | .nameTooLong => "File name too long"

/-- The fault in words, with the path at which it arose. -/
def message (fault : PathFault) (path : Text) : Text :=
  "[Errno " ++ natText fault.number ++ "] " ++ fault.reason ++ ": " ++ path

end PathFault

namespace FileTree

def maxLinks : Nat := 40

/-- The most bytes that a name may have. -/
def maxNameLength : Nat := 255

/-- The most bytes that a path may have. -/
def maxPathLength : Nat := 4095

/-- The place that is reached at a place, and how many links were followed, given what a link leads
to. -/
def arrive (tree : FileTree) (follow : Place × Nat → Text → Except PathFault (Place × Nat))
    (links : Nat) (place : Place) : Except PathFault (Place × Nat) :=
  match tree.item? place with
  | none =>
    .error (if maxNameLength < (place.getLastD []).pathLength then .nameTooLong else .missing)
  | some (.link target) =>
    if links < maxLinks then follow (place.dropLast, links + 1) target else .error .tooManyLinks
  | some _ => .ok (place, links)

/-- The place that a name leads to, and how many links were followed, given what a link leads to. -/
def step (tree : FileTree) (follow : Place × Nat → Text → Except PathFault (Place × Nat))
    (state : Place × Nat) (name : Text) : Except PathFault (Place × Nat) :=
  if !tree.isDirectory state.1 then .error .notDirectory
  else if name = "" ∨ name = "." then .ok state
  else if name = ".." then .ok (state.1.dropLast, state.2)
  else tree.arrive follow state.2 (state.1 ++ [name])

def reachFrom (tree : FileTree) :
    (depth : Nat) → Place × Nat → (path : Text) → Except PathFault (Place × Nat)
  | 0, state, path =>
    path.segments.foldlM (tree.step fun _ _ => .error .tooManyLinks)
      (pathStart state.1 path, state.2)
  | depth + 1, state, path =>
    path.segments.foldlM (tree.step (reachFrom tree depth)) (pathStart state.1 path, state.2)

/-- The place of what stands at a path, which is no link. -/
def reach (tree : FileTree) (base : Place) (path : Text) : Except PathFault Place :=
  if path.isEmpty then .error .missing
  else if maxPathLength < path.pathLength then .error .nameTooLong
  else (tree.reachFrom maxLinks (base, 0) path).map (·.1)

/-- The place that an item of a directory stands for: its own, or that to which it links. -/
def standsFor (tree : FileTree) (place : Place) : Except PathFault Place :=
  (tree.arrive (tree.reachFrom maxLinks) 0 place).map (·.1)

end FileTree

/-- Why a path is not resolved. -/
inductive ResolveFault
  /-- What stands at the place is behind too many links. -/
  | linkLoop (place : Place)
  | tooDeep
deriving DecidableEq

namespace FileTree

/-- The place itself, unless what stands there is behind too many links. -/
def checked (tree : FileTree) (place : Place) : Except ResolveFault Place :=
  match tree.reach [] place.toPath with
  | .error .tooManyLinks => .error (.linkLoop place)
  | _ => .ok place

/-- The place to which a path is resolved. It need not be canonical if links lead in a circle. -/
def resolve (tree : FileTree) (room : Nat) (base : Place) (path : Text) :
    Except ResolveFault Place :=
  match tree.canonical room base path with
  | .ok place => tree.checked place
  | .error (.circle left) => tree.checked (namedPlace left)
  | .error .tooDeep => .error .tooDeep

end FileTree

end DependencyMap
