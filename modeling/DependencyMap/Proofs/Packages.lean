import DependencyMap.Proofs.Analysis
import DependencyMap.Proofs.Resolution

/-!
# Which imports become edges between files

The graph knows files by their paths alone. An import that resolves to a file is an edge to it, and
so is an import of a package that is spelled exactly like the path of a file: the verdict that it is
a package is not kept. `edge_iff_confirmed_or_spelled` says that there are no other edges, for the
dependencies, the inbound counts and the dependents; `package_spelled_like_file_is_edge` is the
smallest repository in which the second case occurs.
-/

namespace DependencyMap

namespace Snapshot

/-- Some import in the text at `source` resolves to the file at `p`, or is an import of a package
that is spelled like `p`. -/
def LeadsTo (files : Snapshot) (source content p : Text) : Prop :=
  ∃ l ∈ (Language.ofPath source).importsOf content,
    resolve source l.target files = .confirmed p ∨
      ((resolve source l.target files).isExternal ∧ l.target = p)

instance (files : Snapshot) (source content p : Text) :
    Decidable (files.LeadsTo source content p) :=
  inferInstanceAs (Decidable (∃ _ ∈ _, _))

theorem eq_package_iff_spelled {source target p : Text} {files : Snapshot} :
    resolve source target files = .package p ↔
      (resolve source target files).isExternal ∧ target = p := by
  constructor
  · intro h
    rw [h]
    exact ⟨rfl, (resolve_eq_package_iff.mp h).2⟩
  · rintro ⟨hExternal, rfl⟩
    cases hOutcome : resolve source target files with
    | package specifier => rw [(resolve_eq_package_iff.mp hOutcome).2]
    | confirmed path => rw [hOutcome] at hExternal; cases hExternal
    | unconfirmed path => rw [hOutcome] at hExternal; cases hExternal

/-- The targets of a file that are files themselves are what its imports lead to. -/
theorem mem_targets_iff_leadsTo {files : Snapshot} {source content p : Text}
    (h : files.contains p) :
    p ∈ (FileNode.ofFile source content files).targets ↔ files.LeadsTo source content p := by
  simp only [FileNode.mem_targets_ofFile, LeadsTo, path_resolve_eq_iff_of_contains h,
    eq_package_iff_spelled]

end Snapshot

theorem Request.isFile_iff_contains {r : Request} {files : Snapshot} (h : r.files = some files)
    {n : Node} (hn : n ∈ r.analyze.dependencies) :
    (∃ f, n = .file f) ↔ files.contains n.path := by
  rw [analyze_dependencies, mem_rankBy, List.mem_map] at hn
  obtain ⟨l, -, rfl⟩ := hn
  rw [path_linkedNode, ← Graph.get?_nodes_isSome, ← graph_of_some h, Graph.linkedNode]
  cases r.graph.nodes.get? l.target <;> simp

/-- The edges of the graph that end at files. A dependency is a file exactly when some import is
confirmed to be at its path, or imports a package that is spelled like it and there is a file of
that path. The inbound count of a file is the number of other files with such an import, and these
files are its dependents. -/
theorem edge_iff_confirmed_or_spelled (r : Request) (files : Snapshot) (h : r.files = some files) :
    (∀ n ∈ r.analyze.dependencies, (∃ f, n = .file f) ↔
      ∃ l ∈ (Language.ofPath r.path).importsOf r.content,
        resolve r.path l.target files = .confirmed n.path ∨
          ((resolve r.path l.target files).isExternal ∧ l.target = n.path ∧
            files.contains n.path)) ∧
    (∀ p, files.contains p →
      ((Graph.ofSnapshot files).inbound.get? p).getD 0 =
        files.entries.countP fun e => e.1 ≠ p ∧ files.LeadsTo e.1 e.2 p) ∧
    (files.contains r.path → ∀ q, q ∈ r.analyze.dependents.map FileNode.path ↔
      q ≠ r.path ∧ ∃ content, files.get? q = some content ∧ files.LeadsTo q content r.path) := by
  refine ⟨?dependencies, ?inbound, ?dependents⟩
  case dependencies =>
    intro n hn
    have hTarget : n.path ∈ (FileNode.ofFile r.path r.content files).targets := by
      have hPath := Request.mem_paths_dependencies.mp (List.mem_map_of_mem (f := Node.path) hn)
      rwa [Request.fileNode, Request.snapshot_of_some h] at hPath
    rw [Request.isFile_iff_contains h hn]
    constructor
    · intro hFile
      obtain ⟨l, hl, hLeads⟩ := (Snapshot.mem_targets_iff_leadsTo hFile).mp hTarget
      exact ⟨l, hl, hLeads.imp_right fun hSpelled => ⟨hSpelled.1, hSpelled.2, hFile⟩⟩
    · rintro ⟨l, -, hConfirmed | ⟨-, -, hFile⟩⟩
      · exact contains_of_resolve_eq_confirmed hConfirmed
      · exact hFile
  case inbound =>
    intro p hp
    rw [Graph.inbound_getD]
    refine List.countP_congr fun e _ => ?_
    simp only [decide_eq_true_eq, Snapshot.mem_targets_iff_leadsTo hp]
  case dependents =>
    intro hFile q
    rw [Request.mem_paths_dependents h]
    simp only [Snapshot.mem_targets_iff_leadsTo hFile]

/-- A repository with a file that is named like a package. -/
def spelledSnapshot : Snapshot :=
  .ofList [("a.ts", "import React from 'react'"), ("react", "")]

def spelledRequest : Request := ⟨"a.ts", "import React from 'react'", some spelledSnapshot, [], []⟩

theorem edge_iff_confirmed_or_spelled_react :
    spelledRequest.files = some spelledSnapshot ∧ spelledSnapshot.contains "react" ∧
    spelledSnapshot.contains spelledRequest.path ∧
    (((Graph.ofSnapshot spelledSnapshot).inbound.get? "react").getD 0 =
      spelledSnapshot.entries.countP fun e => e.1 ≠ ("react" : Text) ∧
        spelledSnapshot.LeadsTo e.1 e.2 "react") ∧
    (("react" : Text) ∈ spelledRequest.analyze.dependents.map FileNode.path ↔
      ("react" : Text) ≠ spelledRequest.path ∧
        ∃ content, spelledSnapshot.get? "react" = some content ∧
          spelledSnapshot.LeadsTo "react" content spelledRequest.path) := by
  have hReact : spelledSnapshot.contains "react" := by decide
  have hPath : spelledSnapshot.contains spelledRequest.path := by decide
  have h := edge_iff_confirmed_or_spelled spelledRequest spelledSnapshot rfl
  exact ⟨rfl, hReact, hPath, h.2.1 "react" hReact, h.2.2 hPath "react"⟩

/-- Not only confirmed imports are edges: the import of a package makes a full dependency and an
inbound reference, although no import of the repository is confirmed. -/
theorem package_spelled_like_file_is_edge :
    (∃ n ∈ spelledRequest.analyze.dependencies, n.path = "react" ∧
      ¬ ((∃ f, n = .file f) ↔
        ∃ l ∈ (Language.ofPath spelledRequest.path).importsOf spelledRequest.content,
          resolve spelledRequest.path l.target spelledSnapshot = .confirmed n.path)) ∧
    spelledSnapshot.contains "react" ∧
    ((Graph.ofSnapshot spelledSnapshot).inbound.get? "react").getD 0 ≠
      spelledSnapshot.entries.countP fun e => e.1 ≠ ("react" : Text) ∧
        ∃ l ∈ (Language.ofPath e.1).importsOf e.2,
          resolve e.1 l.target spelledSnapshot = .confirmed "react" := by
  refine ⟨?_, by decide, by decide +kernel⟩
  have hPath : ("react" : Text) ∈ spelledRequest.analyze.dependencies.map Node.path :=
    Request.mem_paths_dependencies.mpr (by decide +kernel)
  obtain ⟨n, hn, hReact⟩ := List.mem_map.mp hPath
  -- the dependency is a file, and yet nothing was confirmed
  refine ⟨n, hn, hReact, fun hIff => ?_⟩
  have hFile : ∃ f, n = .file f := (Request.isFile_iff_contains rfl hn).mpr (hReact ▸ by decide)
  have hConfirmed := hIff.mp hFile
  rw [hReact] at hConfirmed
  exact absurd hConfirmed (by decide +kernel)

end DependencyMap
