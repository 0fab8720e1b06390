import DependencyMap.Analysis
import DependencyMap.Proofs.Graph
import DependencyMap.Proofs.Ranking

/-!
# Dependencies, dependents and scores

An analysis reads the imports of its file twice: once for the dependencies, with repeated links
dropped, and once, through the graph of the whole snapshot, for the dependents and the scores.
This file proves that the two readings agree:

* `dependency_iff_dependent`: of two files of a snapshot, one is a dependency of the other exactly
  when the other is one of its dependents.
* `importance_eq_dependents`: a score is ten for each dependent that is listed, two for each
  export, and the bonus of the path.
-/

namespace DependencyMap

/-! ### What links point to -/

namespace Graph

theorem path_of_get?_nodes {files : Snapshot} {p : Text} {n : FileNode}
    (h : (ofSnapshot files).nodes.get? p = some n) : n.path = p := by
  rw [get?_nodes, Option.map_eq_some_iff] at h
  obtain ⟨content, _, rfl⟩ := h
  rfl

end Graph

namespace Request

def graph (r : Request) : Graph :=
  match r.files with
  | some files => Graph.ofSnapshot files
  | none => .empty

def snapshot (r : Request) : Snapshot := r.files.getD .empty

/-- The file of a request as it is given, before links are dropped and it is scored. -/
def fileNode (r : Request) : FileNode := FileNode.ofFile r.path r.content r.snapshot

theorem graph_of_some {r : Request} {files : Snapshot} (h : r.files = some files) :
    r.graph = Graph.ofSnapshot files := by
  rw [graph, h]

theorem snapshot_of_some {r : Request} {files : Snapshot} (h : r.files = some files) :
    r.snapshot = files := by
  rw [snapshot, h, Option.getD_some]

theorem analyze_source (r : Request) :
    r.analyze.source = r.graph.scored r.fileNode.withoutRepeatedLinks := rfl

theorem analyze_dependencies (r : Request) :
    r.analyze.dependencies =
      rankBy Node.importance Node.path
        (r.analyze.source.links.map (r.graph.linkedNode r.analyze.source)) := rfl

theorem analyze_dependents (r : Request) :
    r.analyze.dependents =
      rankBy FileNode.importance FileNode.path (r.graph.dependentsOf r.path) := rfl

theorem path_linkedNode (r : Request) (source : FileNode) (l : Link) :
    (r.graph.linkedNode source l).path = l.target := by
  rw [Graph.linkedNode]
  cases hNode : r.graph.nodes.get? l.target with
  | none => rfl
  | some n =>
    cases hFiles : r.files with
    | none =>
      rw [graph, hFiles] at hNode
      cases hNode
    | some files =>
      rw [graph_of_some hFiles] at hNode
      exact Graph.path_of_get?_nodes hNode

/-! ### The two sides of an edge -/

theorem mem_paths_dependencies {r : Request} {p : Text} :
    p ∈ r.analyze.dependencies.map Node.path ↔ p ∈ r.fileNode.targets := by
  rw [← FileNode.mem_targets_withoutRepeatedLinks, analyze_dependencies, List.mem_map]
  simp only [mem_rankBy, List.mem_map, analyze_source, Graph.scored_links, FileNode.targets]
  constructor
  · rintro ⟨_, ⟨l, hl, rfl⟩, rfl⟩
    exact ⟨l, hl, (path_linkedNode ..).symm⟩
  · rintro ⟨l, hl, rfl⟩
    exact ⟨_, ⟨l, hl, rfl⟩, path_linkedNode ..⟩

theorem mem_paths_dependents {r : Request} {files : Snapshot} (h : r.files = some files)
    {q : Text} :
    q ∈ r.analyze.dependents.map FileNode.path ↔
      q ≠ r.path ∧ ∃ content, files.get? q = some content ∧
        r.path ∈ (FileNode.ofFile q content files).targets := by
  rw [← Graph.mem_paths_dependentsOf, analyze_dependents, graph_of_some h, List.mem_map,
    List.mem_map]
  simp only [mem_rankBy]

/-- The inbound count of the file of a request is the number of dependents that are listed. -/
theorem inbound_getD_eq_length_dependents (r : Request) :
    (r.graph.inbound.get? r.path).getD 0 = r.analyze.dependents.length := by
  rw [analyze_dependents, length_rankBy]
  cases hFiles : r.files with
  | none =>
    rw [graph, hFiles]
    rfl
  | some files =>
    rw [graph_of_some hFiles]
    exact (Graph.length_dependentsOf files r.path).symm

end Request

/-- A path is a dependency of a file of the snapshot exactly when that file is a dependent of the
path. The two sides come from different readings: the file analyzed by itself, and a scan over the
graph of all files. What stands at the path itself does not matter, nor whether it is a file. -/
theorem dependency_iff_dependent (files : Snapshot) {p q textOfQ : Text}
    (textOfP owner repository : Text) (hq : files.get? q = some textOfQ) (hne : p ≠ q) :
    p ∈ (Request.analyze ⟨q, textOfQ, some files, owner, repository⟩).dependencies.map Node.path ↔
      q ∈ (Request.analyze ⟨p, textOfP, some files, owner, repository⟩).dependents.map
        FileNode.path := by
  rw [Request.mem_paths_dependencies, Request.mem_paths_dependents rfl]
  constructor
  · intro hTarget
    exact ⟨hne.symm, textOfQ, hq, hTarget⟩
  · rintro ⟨_, content, hContent, hTarget⟩
    rw [hq, Option.some.injEq] at hContent
    exact hContent ▸ hTarget

/-- The text of a file that imports another in two ways, itself, a package, and nothing. -/
def circularText : Text :=
  "import b from './b'\nimport './b.ts'\nimport './a'\nimport 'react'\nimport './none'\n"

def circularSnapshot : Snapshot :=
  .ofList [("src/b.ts", "import a from './a'\nimport './b'\n"), ("src/a.ts", circularText)]

theorem dependency_iff_dependent_in_circle :
    circularSnapshot.get? "src/a.ts" = some circularText ∧ ("src/b.ts" : Text) ≠ "src/a.ts" ∧
    ("src/a.ts" : Text) ∈ (Request.analyze
      ⟨"src/b.ts", [], some circularSnapshot, [], []⟩).dependents.map FileNode.path := by
  have hText : circularSnapshot.get? "src/a.ts" = some circularText := by decide
  have hne : ("src/b.ts" : Text) ≠ "src/a.ts" := by decide
  exact ⟨hText, hne, (dependency_iff_dependent circularSnapshot [] [] [] hText hne).mp
    (Request.mem_paths_dependencies.mpr (by decide +kernel))⟩

/-- A score counts the dependents that are listed: for the file of every request, and for every
file of a graph. -/
theorem importance_eq_dependents :
    (∀ r : Request, r.analyze.source.importance =
      10 * r.analyze.dependents.length + 2 * r.analyze.source.exports.length + pathBonus r.path) ∧
    (∀ (files : Snapshot) (p : Text), files.contains p →
      ∃ n, (Graph.ofSnapshot files).nodes.get? p = some n ∧
        n.importance = 10 * ((Graph.ofSnapshot files).dependentsOf p).length +
          2 * n.exports.length + pathBonus p) := by
  constructor
  · intro r
    rw [← Request.inbound_getD_eq_length_dependents]
    rfl
  · intro files p hp
    obtain ⟨n, hn⟩ := (Graph.get?_nodes_isSome files p).mpr hp
    refine ⟨n, hn, ?_⟩
    rw [Graph.length_dependentsOf]
    have hPath := Graph.path_of_get?_nodes hn
    rw [Graph.get?_nodes, Option.map_eq_some_iff] at hn
    obtain ⟨content, _, rfl⟩ := hn
    rfl

theorem importance_eq_dependents_in_circle :
    circularSnapshot.contains "src/b.ts" ∧
    ∃ n, (Graph.ofSnapshot circularSnapshot).nodes.get? "src/b.ts" = some n ∧
      n.importance = 10 * ((Graph.ofSnapshot circularSnapshot).dependentsOf "src/b.ts").length +
        2 * n.exports.length + pathBonus "src/b.ts" :=
  ⟨by decide, importance_eq_dependents.2 circularSnapshot "src/b.ts" (by decide)⟩

end DependencyMap
