import DependencyMap.Proofs.Payload
import DependencyMap.Proofs.Shape

/-!
# The order of the files

The order in which the files of a snapshot are written, or gone through, makes no difference.

`Request.analyzeVisiting` is the analysis with no order of its own: it goes through the files as
they are listed, wherever nodes are looked up, inbound references are counted or dependents are
found. It comes to the same answer as `Request.analyze` (`analyzeVisiting_eq`), because a sum does
not know the order of its summands and a ranking of distinct paths does not know the order before.
`order_of_files_is_immaterial` says so of requests, of graphs and of counts.
-/

namespace DependencyMap

namespace Visiting

variable (visits : List (Text × Text))

def nodes : List FileNode := visits.map fun e => FileNode.ofFile e.1 e.2 (.ofList visits)

def counts : PathMap Nat := countImporters ((nodes visits).map fun n => (n.path, n.targets))

def scored (n : FileNode) : FileNode :=
  { n with importance := importance n.path n.exports.length (counts visits) }

def linkedNode (source : FileNode) (l : Link) : Node :=
  match (nodes visits).find? fun n => n.path = l.target with
  | some n => .file (scored visits n)
  | none => .outside l.target source.language

def dependentsOf (path : Text) : List FileNode :=
  ((nodes visits).filter fun n => n.path ≠ path && n.targets.contains path).map (scored visits)

end Visiting

/-- The dependency map around the file of a request, in a snapshot whose files are gone through in
the order in which they are listed. -/
def Request.analyzeVisiting (r : Request) (visits : List (Text × Text)) : Analysis :=
  let file := FileNode.ofFile r.path r.content (.ofList visits)
  let source := Visiting.scored visits file.withoutRepeatedLinks
  { source
    dependencies :=
      rankBy Node.importance Node.path (source.links.map (Visiting.linkedNode visits source))
    dependents :=
      rankBy FileNode.importance FileNode.path (Visiting.dependentsOf visits r.path) }

namespace Visiting

variable {visits : List (Text × Text)} (h : (visits.map (·.1)).Nodup)

include h

theorem counts_eq : counts visits = (Graph.ofSnapshot (.ofList visits)).inbound := by
  have hInbound : (Graph.ofSnapshot (.ofList visits)).inbound =
      countImporters (Graph.ofSnapshot (.ofList visits)).targets.entries := rfl
  rw [hInbound, Graph.entries_targets, counts, nodes, List.map_map]
  exact countImporters_eq_of_perm ((PathMap.perm_entries_ofList h).symm.map _)

theorem scored_eq : scored visits = (Graph.ofSnapshot (.ofList visits)).scored := by
  funext n
  rw [scored, counts_eq h]
  rfl

theorem find?_nodes (p : Text) :
    (nodes visits).find? (fun n => n.path = p) =
      ((PathMap.ofList visits).get? p).map fun content =>
        FileNode.ofFile p content (.ofList visits) := by
  have hPath : ((fun n : FileNode => decide (n.path = p)) ∘ fun e : Text × Text =>
      FileNode.ofFile e.1 e.2 (.ofList visits)) = fun e => decide (e.1 = p) := rfl
  rw [nodes, List.find?_map, hPath, PathMap.find?_eq_get?_ofList h, Option.map_map]
  rfl

theorem linkedNode_eq : linkedNode visits = (Graph.ofSnapshot (.ofList visits)).linkedNode := by
  funext source l
  rw [linkedNode, find?_nodes h, scored_eq h, Graph.linkedNode, Graph.get?_nodes]
  cases (PathMap.ofList visits).get? l.target <;> rfl

/-- The dependents that are found on the way are those of the graph. -/
theorem perm_dependentsOf (p : Text) :
    (dependentsOf visits p).Perm ((Graph.ofSnapshot (.ofList visits)).dependentsOf p) := by
  have hImports : (fun n : FileNode => n.path ≠ p && n.targets.contains p) =
      fun n => decide (n.path ≠ p ∧ p ∈ n.targets) := by
    funext n
    rw [Bool.decide_and, ← List.contains_eq_mem]
  rw [Graph.dependentsOf_eq, dependentsOf, hImports, nodes, List.filter_map, List.map_map,
    scored_eq h]
  exact ((PathMap.perm_entries_ofList h).symm.filter _).map _

theorem rankBy_dependentsOf (p : Text) :
    rankBy FileNode.importance FileNode.path (dependentsOf visits p) =
      rankBy FileNode.importance FileNode.path
        ((Graph.ofSnapshot (.ofList visits)).dependentsOf p) := by
  have hPerm := perm_dependentsOf h p
  refine rankBy_eq_of_perm hPerm ?_
  rw [(hPerm.map FileNode.path).nodup_iff]
  exact Graph.nodup_paths_dependentsOf (.ofList visits) p

/-- Going through the files in any order comes to the same answer. -/
theorem analyzeVisiting_eq (r : Request) :
    r.analyzeVisiting visits = { r with files := some (.ofList visits) }.analyze := by
  rw [Request.analyzeVisiting, rankBy_dependentsOf h, linkedNode_eq h, scored_eq h]
  rfl

end Visiting

/-- The order of the files makes no difference. A request is answered alike in whatever order its
files are written, and whatever else it says; the graph is the same, and the answer is the one that
is found by going through the files in any order. Inbound counts are the same in whatever order the
importing files come, and in whatever order and how often each of them lists a path. -/
theorem order_of_files_is_immaterial :
    (∀ members files files' : Members Json.Value, (files.map (·.1)).Nodup → files.Perm files' →
      (Request.ofJson (.object (Members.set "repoFiles" (.object files) members))).map
          Request.analyze =
        (Request.ofJson (.object (Members.set "repoFiles" (.object files') members))).map
          Request.analyze) ∧
    (∀ entries visits : List (Text × Text), (entries.map (·.1)).Nodup → entries.Perm visits →
      Graph.ofSnapshot (.ofList entries) = Graph.ofSnapshot (.ofList visits) ∧
      ∀ r : Request,
        { r with files := some (.ofList entries) }.analyze =
          { r with files := some (.ofList visits) }.analyze ∧
        { r with files := some (.ofList entries) }.analyze = r.analyzeVisiting visits) ∧
    (∀ importers visits alike : List (Text × List Text), (importers.map (·.1)).Nodup →
      importers.Perm visits → List.Forall₂ ListsAlike visits alike →
      inboundCounts (.ofList importers) = inboundCounts (.ofList alike) ∧
      inboundCounts (.ofList importers) = countImporters alike) := by
  refine ⟨?payload, ?graph, ?counts⟩
  case payload =>
    intro members files files' hDistinct hPerm
    rw [Request.ofJson_set_files members files files' hPerm hDistinct]
  case graph =>
    intro entries visits hDistinct hPerm
    have hVisits : (visits.map (·.1)).Nodup := (hPerm.map _).nodup_iff.mp hDistinct
    have hFiles : PathMap.ofList entries = .ofList visits :=
      PathMap.ofList_eq_of_perm hDistinct hPerm
    rw [hFiles]
    exact ⟨rfl, fun r => ⟨rfl, (Visiting.analyzeVisiting_eq hVisits r).symm⟩⟩
  case counts =>
    intro importers visits alike hDistinct hPerm hAlike
    have hAlikeDistinct : (alike.map (·.1)).Nodup := by
      rw [← map_fst_eq_of_listsAlike hAlike]
      exact (hPerm.map _).nodup_iff.mp hDistinct
    have hCounts : inboundCounts (.ofList importers) = countImporters alike := by
      rw [inboundCounts_ofList hDistinct, countImporters_eq_of_perm hPerm,
        countImporters_eq_of_listsAlike hAlike]
    exact ⟨hCounts.trans (inboundCounts_ofList hAlikeDistinct).symm, hCounts⟩

def circularFiles : List (Text × Text) :=
  [("src/b.ts", "import a from './a'\nimport './b'\n"), ("src/a.ts", circularText)]

/-- The two files of the circle in the other order, and paths that are listed twice. -/
theorem order_of_files_is_immaterial_in_circle :
    (circularFiles.map (·.1)).Nodup ∧ circularFiles.Perm circularFiles.reverse ∧
    (Request.ofJson (.object (Members.set "repoFiles" (.object (circularFiles.map fileMember))
        [("filePath", .text "src/a.ts")]))).map Request.analyze =
      (Request.ofJson (.object (Members.set "repoFiles"
        (.object (circularFiles.reverse.map fileMember)) [("filePath", .text "src/a.ts")]))).map
        Request.analyze ∧
    circularRequest.analyze = circularRequest.analyzeVisiting circularFiles.reverse ∧
    inboundCounts (.ofList [("a", ["c", "b", "c"]), ("b", ["a"])]) =
      inboundCounts (.ofList [("b", ["a", "a"]), ("a", ["b", "c"])]) := by
  have hDistinct : (circularFiles.map (·.1)).Nodup := by decide
  have hPerm : circularFiles.Perm circularFiles.reverse := (List.reverse_perm _).symm
  obtain ⟨hPayload, hGraph, hCounts⟩ := order_of_files_is_immaterial
  have hMembers : ((circularFiles.map fileMember).map (·.1)).Nodup := by decide
  refine ⟨hDistinct, hPerm, hPayload _ _ _ hMembers (hPerm.map fileMember),
    ((hGraph circularFiles circularFiles.reverse hDistinct hPerm).2 circularRequest).2,
    (hCounts _ [("b", ["a"]), ("a", ["c", "b", "c"])] _ (by decide) (List.Perm.swap ..) ?_).1⟩
  refine .cons ⟨rfl, fun p => ?_⟩ (.cons ⟨rfl, fun p => ?_⟩ .nil)
  · rw [List.mem_cons, List.mem_cons, List.mem_cons, or_self_left]
  · simp only [List.mem_cons, List.not_mem_nil, or_false]
    rw [or_left_comm, or_self]

end DependencyMap
