import DependencyMap.Proofs.Analysis

/-!
# The shape of an analysis

`Analysis.IsMapOf` says what every answer to a request looks like, and `analyze_isMapOf` that every
answer does. Two facts carry it. Dropping repeated links leaves one link to each path, so the
dependencies have distinct paths, and so have the dependents, because the snapshot maps each path
once; hence both rankings are strict. And a dependency is what the graph has at its path
(`eq_of_mem_dependencies`), whatever was said of the import when it was resolved.
-/

namespace DependencyMap

/-- The answer `a` is a dependency map around the file of the request `r`. -/
structure Analysis.IsMapOf (a : Analysis) (r : Request) : Prop where
  /-- There is one dependency for each link that was kept. -/
  dependencies_perm : (a.dependencies.map Node.path).Perm (a.source.links.map Link.target)
  dependencies_nodup : (a.dependencies.map Node.path).Nodup
  /-- No import is lost: the dependencies stand where the imports lead. -/
  mem_dependencies : ∀ p, p ∈ a.dependencies.map Node.path ↔
    ∃ l ∈ (Language.ofPath r.path).importsOf r.content,
      (resolve r.path l.target r.snapshot).path = p
  dependencies_ranked : a.dependencies.Pairwise (RanksBefore Node.importance Node.path)
  /-- A dependency without a file in the snapshot is a mere path. -/
  outside : ∀ n ∈ a.dependencies, ¬ r.snapshot.contains n.path →
    n = .outside n.path (Language.ofPath r.path) ∧ n.roleName = "external" ∧ n.importance = 0 ∧
      n.links = [] ∧ n.exports = [] ∧ n.language = a.source.language
  /-- A dependency with a file in the snapshot is the node of that file. -/
  inside : ∀ n ∈ a.dependencies, r.snapshot.contains n.path →
    ∃ f, (Graph.ofSnapshot r.snapshot).nodes.get? n.path = some f ∧ n = .file f
  dependents_nodup : (a.dependents.map FileNode.path).Nodup
  dependents_inside : ∀ n ∈ a.dependents, r.snapshot.contains n.path
  dependents_other : ∀ n ∈ a.dependents, n.path ≠ r.path
  dependents_ranked : a.dependents.Pairwise (RanksBefore FileNode.importance FileNode.path)
  totalEdges_eq : a.totalEdges = a.dependencies.length + a.dependents.length
  totalNodes_eq : a.totalNodes = a.totalEdges + 1

namespace Request

/-- A request without a snapshot is answered like one with a snapshot of no files. -/
theorem graph_eq_ofSnapshot (r : Request) : r.graph = Graph.ofSnapshot r.snapshot := by
  cases h : r.files with
  | none =>
    rw [graph, snapshot, h]
    rfl
  | some files => rw [graph_of_some h, snapshot_of_some h]

/-- What links lead to stands at their targets. -/
theorem map_path_linkedNode (r : Request) (source : FileNode) (links : List Link) :
    (links.map (r.graph.linkedNode source)).map Node.path = links.map Link.target := by
  rw [List.map_map]
  exact List.map_congr_left fun l _ => path_linkedNode r source l

theorem perm_paths_dependencies (r : Request) :
    (r.analyze.dependencies.map Node.path).Perm (r.analyze.source.links.map Link.target) := by
  rw [← r.map_path_linkedNode r.analyze.source, analyze_dependencies]
  exact (perm_rankBy ..).map Node.path

theorem nodup_targets_source (r : Request) : (r.analyze.source.links.map Link.target).Nodup :=
  FileNode.nodup_targets_keepFirstLinks [] r.fileNode.links

theorem nodup_paths_dependencies (r : Request) : (r.analyze.dependencies.map Node.path).Nodup :=
  r.perm_paths_dependencies.nodup_iff.mpr r.nodup_targets_source

theorem nodup_paths_dependents (r : Request) : (r.analyze.dependents.map FileNode.path).Nodup := by
  rw [analyze_dependents, ((perm_rankBy ..).map FileNode.path).nodup_iff, graph_eq_ofSnapshot]
  exact Graph.nodup_paths_dependentsOf r.snapshot r.path

/-- A dependency is what the graph has at its path. -/
theorem eq_of_mem_dependencies {r : Request} {n : Node} (h : n ∈ r.analyze.dependencies) :
    n = match (Graph.ofSnapshot r.snapshot).nodes.get? n.path with
      | some f => .file f
      | none => .outside n.path (Language.ofPath r.path) := by
  rw [analyze_dependencies, mem_rankBy, List.mem_map] at h
  obtain ⟨l, -, rfl⟩ := h
  rw [path_linkedNode, graph_eq_ofSnapshot]
  rfl

theorem contains_of_mem_dependents {r : Request} {n : FileNode} (h : n ∈ r.analyze.dependents) :
    n.path ≠ r.path ∧ r.snapshot.contains n.path := by
  rw [analyze_dependents, mem_rankBy, graph_eq_ofSnapshot] at h
  obtain ⟨hne, content, hContent, -⟩ :=
    Graph.mem_paths_dependentsOf.mp (List.mem_map_of_mem (f := FileNode.path) h)
  exact ⟨hne, PathMap.contains_iff_get?.mpr ⟨content, hContent⟩⟩

end Request

/-- Every answer to a request is a dependency map around its file. -/
theorem analyze_isMapOf (r : Request) : r.analyze.IsMapOf r where
  dependencies_perm := r.perm_paths_dependencies
  dependencies_nodup := r.nodup_paths_dependencies
  mem_dependencies p := by
    rw [Request.mem_paths_dependencies]
    exact FileNode.mem_targets_ofFile
  dependencies_ranked := by
    rw [Request.analyze_dependencies]
    refine pairwise_rankBy_of_nodup ?_
    rw [Request.map_path_linkedNode]
    exact r.nodup_targets_source
  outside := by
    intro n hn hAbsent
    have hNode : (Graph.ofSnapshot r.snapshot).nodes.get? n.path = none := by
      rw [Graph.get?_nodes, PathMap.not_contains_iff_get?.mp hAbsent, Option.map_none]
    have hEq := Request.eq_of_mem_dependencies hn
    rw [hNode] at hEq
    refine ⟨hEq, ?_⟩
    rw [hEq]
    exact ⟨rfl, rfl, rfl, rfl, rfl⟩
  inside := by
    intro n hn hFile
    obtain ⟨f, hf⟩ := (Graph.get?_nodes_isSome r.snapshot n.path).mpr hFile
    have hEq := Request.eq_of_mem_dependencies hn
    rw [hf] at hEq
    exact ⟨f, hf, hEq⟩
  dependents_nodup := r.nodup_paths_dependents
  dependents_inside _ hn := (Request.contains_of_mem_dependents hn).2
  dependents_other _ hn := (Request.contains_of_mem_dependents hn).1
  dependents_ranked := by
    rw [Request.analyze_dependents, Request.graph_eq_ofSnapshot]
    exact pairwise_rankBy_of_nodup (Graph.nodup_paths_dependentsOf r.snapshot r.path)
  totalEdges_eq := rfl
  totalNodes_eq := rfl

def circularRequest : Request := ⟨"src/a.ts", circularText, some circularSnapshot, [], []⟩

/-- In the circle of two files, the package is a mere path and the other file a node. -/
theorem analyze_isMapOf_in_circle :
    (∃ n ∈ circularRequest.analyze.dependencies, n.path = "react" ∧
      n = .outside "react" .typescript ∧ n.roleName = "external") ∧
    (∃ n ∈ circularRequest.analyze.dependencies, n.path = "src/b.ts" ∧
      ∃ f, (Graph.ofSnapshot circularSnapshot).nodes.get? "src/b.ts" = some f ∧ n = .file f) := by
  have hMap := analyze_isMapOf circularRequest
  have hSnapshot : circularRequest.snapshot = circularSnapshot := Request.snapshot_of_some rfl
  constructor
  · have hPath : ("react" : Text) ∈ circularRequest.analyze.dependencies.map Node.path :=
      (hMap.mem_dependencies "react").mpr (by decide +kernel)
    obtain ⟨n, hn, hReact⟩ := List.mem_map.mp hPath
    have hOutside := hMap.outside n hn (by rw [hReact]; decide)
    have hLanguage : Language.ofPath circularRequest.path = .typescript := by decide
    rw [hReact, hLanguage] at hOutside
    exact ⟨n, hn, hReact, hOutside.1, hOutside.2.1⟩
  · have hPath : ("src/b.ts" : Text) ∈ circularRequest.analyze.dependencies.map Node.path :=
      (hMap.mem_dependencies "src/b.ts").mpr (by decide +kernel)
    obtain ⟨n, hn, hFile⟩ := List.mem_map.mp hPath
    have hInside := hMap.inside n hn (by rw [hFile]; decide)
    rw [hFile, hSnapshot] at hInside
    exact ⟨n, hn, hFile, hInside⟩

end DependencyMap
