import DependencyMap.PathMap
import DependencyMap.Source.Language

/-!
# Nodes and their importance

A node of the dependency map is a file with its links and exports, or a mere path that some link
points to and the snapshot does not hold. A file is the more important the more other files import
it, the more names it exports, and for standing in a directory of shared code. Ranking goes by
falling importance, then by path.
-/

namespace DependencyMap

structure FileNode where
  path : Text
  importance : Int
  links : List Link
  exports : List Text
deriving DecidableEq

namespace FileNode

def name (n : FileNode) : Text := n.path.lastSegment

def role (n : FileNode) : Role := Role.ofPath n.path

def language (n : FileNode) : Language := Language.ofPath n.path

/-- The paths that the links point to, with repetitions. -/
def targets (n : FileNode) : List Text := n.links.map Link.target

end FileNode

/-- A node of the map. One that stands outside the snapshot has the language of the file that
points to it. -/
inductive Node
  | file (node : FileNode)
  | outside (path : Text) (language : Language)
deriving DecidableEq

namespace Node

def path : Node → Text
  | .file n => n.path
  | .outside path _ => path

def name (n : Node) : Text := n.path.lastSegment

def importance : Node → Int
  | .file n => n.importance
  | .outside _ _ => 0

def links : Node → List Link
  | .file n => n.links
  | .outside _ _ => []

def exports : Node → List Text
  | .file n => n.exports
  | .outside _ _ => []

def language : Node → Language
  | .file n => n.language
  | .outside _ language => language

def roleName : Node → Text
  | .file n => n.role.name
  | .outside _ _ => "external"

end Node

/-! ### Importance -/

/-- The bonus for the directories a file stands in: libraries and utilities before components
before types, and only the first of them counts. -/
def pathBonus (path : Text) : Nat :=
  if path.contains "/lib/" || path.contains "/utils/" then 5
  else if path.contains "/components/" then 3
  else if path.contains "/types/" then 4
  else 0

/-- Adds one to the count of a path. -/
def countOne (counts : PathMap Nat) (path : Text) : PathMap Nat :=
  counts.insert path ((counts.get? path).getD 0 + 1)

/-- How many other files import each path, counted in one pass over the importing files. A file
counts once however often it imports a path, and never for itself. -/
def inboundCounts (targets : PathMap (List Text)) : PathMap Nat :=
  targets.entries.foldl (fun counts (importer, paths) =>
    (paths.eraseDups.filter fun path => path ≠ importer).foldl countOne counts) .empty

/-- Ten for each importing file, two for each export, and the bonus of the path. -/
def importance (path : Text) (exportCount : Int) (inbound : PathMap Nat) : Int :=
  10 * (inbound.get? path).getD 0 + 2 * exportCount + pathBonus path

/-- Sorts by falling importance, then by path; what agrees in both keeps its order. -/
def rankBy {α : Type} (importance : α → Int) (path : α → Text) (l : List α) : List α :=
  l.mergeSort fun a b =>
    importance a > importance b || (importance a = importance b && decide (path a ≤ path b))

end DependencyMap
