import DependencyMap.Proofs.Analysis
import DependencyMap.Proofs.FirstPlaces
import DependencyMap.Proofs.Imports.WellFormed
import DependencyMap.Proofs.Shape

/-!
# The file of a request and its node

A file of a snapshot is read twice when it is analyzed: as the file of the request, and as a node of
the graph. `source_agrees_with_node` says that the two readings differ only in repeated links: of
the links to one path the file of the request has the first, which is the one on the earliest line,
and what it says of the import is what extraction found there.
-/

namespace DependencyMap

namespace FileNode

theorem keepFirstLinks_eq_firstsAfter (seen : List Text) (links : List Link) :
    keepFirstLinks seen links = firstsAfter seen Link.target links := by
  induction links generalizing seen with
  | nil => rfl
  | cons l links ih =>
    rw [keepFirstLinks, firstsAfter_cons, ih, ih]
    by_cases h : l.target ∈ seen
    · rw [if_pos h, if_pos (List.contains_iff_mem.mpr h)]
    · rw [if_neg h, if_neg (mt List.contains_iff_mem.mp h)]

theorem links_withoutRepeatedLinks (n : FileNode) :
    n.withoutRepeatedLinks.links = firstsBy Link.target n.links := by
  rw [firstsBy_eq_firstsAfter, ← keepFirstLinks_eq_firstsAfter]
  rfl

/-- The links of a file come in the order of their lines. -/
theorem pairwise_line_resolvedLinks (path content : Text) (files : Snapshot) :
    (resolvedLinks path content files).Pairwise fun l l' => l.line ≤ l'.line := by
  rw [resolvedLinks, List.pairwise_map]
  exact (Language.ofPath path).pairwise_line_importsOf content

end FileNode

/-- The node `s` is the node `n` without repeated links: of the links to one path it has the first,
which stands on the earliest line. -/
structure FileNode.IsWithoutRepetitions (s n : FileNode) : Prop where
  path_eq : s.path = n.path
  name_eq : s.name = n.name
  role_eq : s.role = n.role
  language_eq : s.language = n.language
  exports_eq : s.exports = n.exports
  importance_eq : s.importance = n.importance
  links_eq : s.links = firstsBy Link.target n.links
  line_le : ∀ l ∈ s.links, ∀ l' ∈ n.links, l'.target = l.target → l.line ≤ l'.line

/-- A link of a file is an import that was extracted from its text: only the target is another, the
path to which the specifier was resolved. -/
def Link.IsExtracted (path content : Text) (files : Snapshot) (l : Link) : Prop :=
  ∃ written ∈ (Language.ofPath path).importsOf content,
    l.target = (resolve path written.target files).path ∧ l.kind = written.kind ∧
      l.names = written.names ∧ l.line = written.line ∧ l.isExternal = written.isExternal

theorem FileNode.isExtracted_of_mem_resolvedLinks {path content : Text} {files : Snapshot}
    {l : Link} (h : l ∈ resolvedLinks path content files) : l.IsExtracted path content files := by
  obtain ⟨written, hWritten, rfl⟩ := List.mem_map.mp h
  exact ⟨written, hWritten, rfl, rfl, rfl, rfl, rfl⟩

/-- A file of a snapshot that is analyzed with its own text is the node that the graph has of it,
without repeated links. -/
theorem source_agrees_with_node {files : Snapshot} {p content : Text} (owner repository : Text)
    (h : files.get? p = some content) :
    ∃ n, (Graph.ofSnapshot files).nodes.get? p = some n ∧
      (Request.analyze ⟨p, content, some files, owner, repository⟩).source.IsWithoutRepetitions n ∧
      ∀ l ∈ (Request.analyze ⟨p, content, some files, owner, repository⟩).source.links,
        l.IsExtracted p content files := by
  have hLinks : (Request.analyze ⟨p, content, some files, owner, repository⟩).source.links =
      firstsBy Link.target (FileNode.resolvedLinks p content files) :=
    FileNode.links_withoutRepeatedLinks (FileNode.ofFile p content files)
  refine ⟨_, Graph.get?_nodes_of_get? h, ⟨rfl, rfl, rfl, rfl, rfl, rfl, hLinks, ?_⟩, ?_⟩
  · intro l hl l' hl' hTarget
    rw [hLinks] at hl
    exact rel_of_mem_firstsBy (r := fun l l' : Link => l.line ≤ l'.line)
      (FileNode.pairwise_line_resolvedLinks p content files) (fun l => Nat.le_refl l.line) hl hl'
      hTarget
  · intro l hl
    rw [hLinks] at hl
    exact FileNode.isExtracted_of_mem_resolvedLinks (mem_of_mem_firstsBy hl)

/-- In the circle of two files, one file links to the other twice and has the first of the links. -/
theorem source_agrees_with_node_in_circle :
    circularSnapshot.get? "src/a.ts" = some circularText ∧
    (⟨"src/b.ts", .default, ["b"], 1, false⟩ : Link) ∈ circularRequest.analyze.source.links ∧
    Link.IsExtracted "src/a.ts" circularText circularSnapshot
      ⟨"src/b.ts", .default, ["b"], 1, false⟩ ∧
    ∃ n, (Graph.ofSnapshot circularSnapshot).nodes.get? "src/a.ts" = some n ∧
      circularRequest.analyze.source.IsWithoutRepetitions n := by
  have hText : circularSnapshot.get? "src/a.ts" = some circularText := by decide
  have hLink : (⟨"src/b.ts", .default, ["b"], 1, false⟩ : Link) ∈
      circularRequest.analyze.source.links := by decide +kernel
  obtain ⟨n, hn, hAgrees, hExtracted⟩ := source_agrees_with_node [] [] hText
  exact ⟨hText, hLink, hExtracted _ hLink, n, hn, hAgrees⟩

end DependencyMap
