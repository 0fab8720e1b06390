import DependencyMap.Graph.Node
import DependencyMap.Resolution
import DependencyMap.Source.Extraction

/-!
# The dependency graph and the analysis of one file

Every file of a snapshot becomes a node whose links are resolved against the snapshot. Scores need
the counts over the whole graph and come last.

The dependency map around a file is what it imports and what imports it, both ranked. Without a
snapshot the file's own imports are all there is to see.
-/

namespace DependencyMap

structure Graph where
  /-- For each importing file, the paths it imports, with repetitions. -/
  targets : PathMap (List Text)
  nodes : PathMap FileNode
  inbound : PathMap Nat

namespace FileNode

/-- The links of a file with resolved targets. -/
def resolvedLinks (path content : Text) (files : Snapshot) : List Link :=
  ((Language.ofPath path).importsOf content).map fun l =>
    l.resolvedTo (resolve path l.target files).path

/-- The node of a file, not yet scored. -/
def ofFile (path content : Text) (files : Snapshot) : FileNode where
  path := path
  importance := 0
  links := resolvedLinks path content files
  exports := (Language.ofPath path).exportsOf content

/-- Keeps the first link to each path only. -/
def keepFirstLinks (seen : List Text) : List Link → List Link
  | [] => []
  | l :: links =>
    if seen.contains l.target then keepFirstLinks seen links
    else l :: keepFirstLinks (l.target :: seen) links

/-- The node with one link to each path. -/
def withoutRepeatedLinks (n : FileNode) : FileNode := { n with links := keepFirstLinks [] n.links }

end FileNode

namespace Graph

def empty : Graph := ⟨.empty, .empty, .empty⟩

def score (g : Graph) (n : FileNode) : Int := importance n.path n.exports.length g.inbound

/-- The node with its score in the graph. -/
def scored (g : Graph) (n : FileNode) : FileNode := { n with importance := g.score n }

/-- The graph of a snapshot. -/
def ofSnapshot (files : Snapshot) : Graph :=
  let nodes := files.map fun path content => FileNode.ofFile path content files
  let targets := nodes.map fun _ n => n.targets
  let unscored : Graph := ⟨targets, nodes, inboundCounts targets⟩
  { unscored with nodes := nodes.map fun _ n => unscored.scored n }

/-- The files other than `path` that import it, by path. An importing file without a node is left
out. -/
def dependentsOf (g : Graph) (path : Text) : List FileNode :=
  g.targets.entries.filterMap fun (importer, paths) =>
    if importer ≠ path ∧ path ∈ paths then g.nodes.get? importer else none

end Graph

/-! ### Analyses -/

/-- A file to analyze, the snapshot it is part of, if there is one, and the names under which the
repository is known. -/
structure Request where
  path : Text
  content : Text
  files : Option Snapshot
  owner : Text
  repository : Text

structure Analysis where
  source : FileNode
  dependencies : List Node
  dependents : List FileNode

namespace Analysis

def totalEdges (a : Analysis) : Nat := a.dependencies.length + a.dependents.length

def totalNodes (a : Analysis) : Nat := a.totalEdges + 1

end Analysis

/-- The node that a link of the file points to. -/
def Graph.linkedNode (g : Graph) (source : FileNode) (l : Link) : Node :=
  match g.nodes.get? l.target with
  | some n => .file n
  | none => .outside l.target source.language

/-- The dependency map around the file of a request. The file is taken as it is given, and not as
the snapshot has it. -/
def Request.analyze (r : Request) : Analysis :=
  let files := r.files.getD .empty
  let graph := match r.files with
    | some files => Graph.ofSnapshot files
    | none => .empty
  let source := graph.scored (FileNode.ofFile r.path r.content files).withoutRepeatedLinks
  { source
    dependencies :=
      rankBy Node.importance Node.path (source.links.map (graph.linkedNode source))
    dependents :=
      rankBy FileNode.importance FileNode.path (graph.dependentsOf r.path) }

end DependencyMap
