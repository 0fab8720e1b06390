import DependencyMap.Analysis
import DependencyMap.Proofs.Inbound

/-!
# The graph of a snapshot

`Graph.ofSnapshot` seen from outside: `get?_nodes` gives the node of a path, `dependentsOf_eq` the
dependents of a path, and `inbound_getD` its inbound count, each in terms of the files and of
`FileNode.ofFile`. The dependents are found by a scan of the targets and the counts by a sum over
them, and `length_dependentsOf` says that the two agree at every path, also at one that is no file.
-/

namespace DependencyMap

namespace FileNode

/-- What a file points to, in terms of its imports. -/
theorem mem_targets_ofFile {path content : Text} {files : Snapshot} {p : Text} :
    p ∈ (ofFile path content files).targets ↔
      ∃ l ∈ (Language.ofPath path).importsOf content, (resolve path l.target files).path = p := by
  simp [targets, ofFile, resolvedLinks, Link.resolvedTo]

theorem mem_targets_keepFirstLinks {p : Text} {seen : List Text} {links : List Link} :
    p ∈ (keepFirstLinks seen links).map Link.target ↔ p ∉ seen ∧ p ∈ links.map Link.target := by
  induction links generalizing seen with
  | nil => simp [keepFirstLinks]
  | cons l links ih =>
    simp only [keepFirstLinks]
    split
    · rename_i hSeen
      have hSeen : l.target ∈ seen := List.contains_iff_mem.mp hSeen
      rw [ih, List.map_cons, List.mem_cons]
      refine and_congr_right fun hNot => ⟨Or.inr, fun h => h.resolve_left ?_⟩
      rintro rfl
      exact hNot hSeen
    · rename_i hNew
      have hNew : l.target ∉ seen := fun h => hNew (List.contains_iff_mem.mpr h)
      rw [List.map_cons, List.mem_cons, ih, List.map_cons, List.mem_cons, List.mem_cons]
      by_cases hp : p = l.target
      · subst hp
        simp [hNew]
      · simp [hp]

theorem nodup_targets_keepFirstLinks (seen : List Text) (links : List Link) :
    ((keepFirstLinks seen links).map Link.target).Nodup := by
  induction links generalizing seen with
  | nil => exact List.nodup_nil
  | cons l links ih =>
    simp only [keepFirstLinks]
    split
    · exact ih seen
    · refine List.nodup_cons.mpr ⟨fun h => ?_, ih (l.target :: seen)⟩
      exact (mem_targets_keepFirstLinks.mp h).1 List.mem_cons_self

/-- Dropping repeated links loses no target. -/
theorem mem_targets_withoutRepeatedLinks {n : FileNode} {p : Text} :
    p ∈ n.withoutRepeatedLinks.targets ↔ p ∈ n.targets := by
  simp [targets, withoutRepeatedLinks, mem_targets_keepFirstLinks]

end FileNode

namespace Graph

@[simp] theorem scored_path (g : Graph) (n : FileNode) : (g.scored n).path = n.path := rfl

@[simp] theorem scored_links (g : Graph) (n : FileNode) : (g.scored n).links = n.links := rfl

@[simp] theorem scored_exports (g : Graph) (n : FileNode) : (g.scored n).exports = n.exports := rfl

@[simp] theorem scored_importance (g : Graph) (n : FileNode) :
    (g.scored n).importance = importance n.path n.exports.length g.inbound := rfl

theorem importance_scored_ofFile (g : Graph) (path content : Text) (files : Snapshot) :
    (g.scored (FileNode.ofFile path content files)).importance =
      10 * ((g.inbound.get? path).getD 0 : Nat) +
        2 * ((Language.ofPath path).exportsOf content).length + pathBonus path := rfl

theorem entries_targets (files : Snapshot) :
    (ofSnapshot files).targets.entries =
      files.entries.map fun e => (e.1, (FileNode.ofFile e.1 e.2 files).targets) := by
  simp only [ofSnapshot, PathMap.map, List.map_map]
  rfl

theorem get?_nodes (files : Snapshot) (p : Text) :
    (ofSnapshot files).nodes.get? p =
      (files.get? p).map fun content =>
        (ofSnapshot files).scored (FileNode.ofFile p content files) := by
  simp only [ofSnapshot, PathMap.get?_map, Option.map_map]
  rfl

theorem get?_targets (files : Snapshot) (p : Text) :
    (ofSnapshot files).targets.get? p =
      (files.get? p).map fun content => (FileNode.ofFile p content files).targets := by
  simp only [ofSnapshot, PathMap.get?_map, Option.map_map]
  rfl

theorem get?_nodes_of_get? {files : Snapshot} {p content : Text} (h : files.get? p = some content) :
    (ofSnapshot files).nodes.get? p =
      some ((ofSnapshot files).scored (FileNode.ofFile p content files)) := by
  rw [get?_nodes, h, Option.map_some]

theorem get?_nodes_isSome (files : Snapshot) (p : Text) :
    (∃ n, (ofSnapshot files).nodes.get? p = some n) ↔ files.contains p := by
  rw [PathMap.contains_iff_get?, get?_nodes]
  simp

/-- The dependents of a path are the nodes of the other files that point to it. -/
theorem dependentsOf_eq (files : Snapshot) (p : Text) :
    (ofSnapshot files).dependentsOf p =
      (files.entries.filter fun e => e.1 ≠ p ∧ p ∈ (FileNode.ofFile e.1 e.2 files).targets).map
        fun e => (ofSnapshot files).scored (FileNode.ofFile e.1 e.2 files) := by
  rw [dependentsOf, entries_targets, List.filterMap_map, ← List.filterMap_eq_map',
    List.filterMap_filter]
  refine List.filterMap_congr fun e he => ?_
  have hNode := get?_nodes_of_get? (PathMap.get?_eq_some_iff.mpr he)
  simp only [Function.comp_apply, decide_eq_true_eq, hNode]

/-- The inbound count of a path is the number of other files that point to it. -/
theorem inbound_getD (files : Snapshot) (p : Text) :
    ((ofSnapshot files).inbound.get? p).getD 0 =
      files.entries.countP fun e => e.1 ≠ p ∧ p ∈ (FileNode.ofFile e.1 e.2 files).targets := by
  have hTargets : (ofSnapshot files).inbound = inboundCounts (ofSnapshot files).targets := rfl
  rw [hTargets, inboundCounts_getD, entries_targets, List.countP_map]
  rfl

/-- The inbound count of a path after a file was put in a snapshot: what the other files add to it,
and what the new text adds. -/
theorem inbound_getD_insert (files : Snapshot) (p text q : Text) :
    ((ofSnapshot (files.insert p text)).inbound.get? q).getD 0 =
      ((files.erase p).entries.countP fun e =>
        e.1 ≠ q ∧ q ∈ (FileNode.ofFile e.1 e.2 (files.insert p text)).targets) +
      if p ≠ q ∧ q ∈ (FileNode.ofFile p text (files.insert p text)).targets then 1 else 0 := by
  rw [inbound_getD, PathMap.countP_entries_insert]
  simp only [decide_eq_true_eq]

/-- The scan for dependents and the count of inbound references see the same files. -/
theorem length_dependentsOf (files : Snapshot) (p : Text) :
    ((ofSnapshot files).dependentsOf p).length =
      ((ofSnapshot files).inbound.get? p).getD 0 := by
  rw [dependentsOf_eq, List.length_map, inbound_getD, List.countP_eq_length_filter]

theorem nodup_paths_dependentsOf (files : Snapshot) (p : Text) :
    (((ofSnapshot files).dependentsOf p).map FileNode.path).Nodup := by
  rw [dependentsOf_eq, List.map_map]
  exact files.nodup_paths.sublist (List.filter_sublist.map Prod.fst)

theorem mem_paths_dependentsOf {files : Snapshot} {p q : Text} :
    q ∈ ((ofSnapshot files).dependentsOf p).map FileNode.path ↔
      q ≠ p ∧ ∃ content, files.get? q = some content ∧
        p ∈ (FileNode.ofFile q content files).targets := by
  simp only [dependentsOf_eq, List.map_map, List.mem_map, List.mem_filter, Function.comp_apply,
    scored_path, decide_eq_true_eq, PathMap.get?_eq_some_iff]
  constructor
  · rintro ⟨⟨r, content⟩, ⟨hMem, hne, hTarget⟩, rfl⟩
    exact ⟨hne, content, hMem, hTarget⟩
  · rintro ⟨hne, content, hMem, hTarget⟩
    exact ⟨(q, content), ⟨hMem, hne, hTarget⟩, rfl⟩

end Graph

end DependencyMap
