import DependencyMap.Proofs.Analysis
import DependencyMap.Proofs.Resolution

/-!
# Changing one file

Two graphs are compared: of a snapshot, and of the snapshot with one file put in or taken away.

* `adding_file_retargets_to_it`: a file at a new path draws links of other files to itself, where
  they are looked up at its path before they are found elsewhere, and changes nothing else. Read
  backwards, taking a file away changes no link that did not point to it.
* `editing_file_changes_scores`: a new text at an old path changes no link of another file, and
  moves the score of each by what that text alone adds and the old one added.

Links compare position by position, because imports are found without the snapshot. Scores compare
through `Graph.inbound_getD_insert`, which splits a count into what the changed file adds and what
the others add.
-/

namespace DependencyMap

/-! ### Links in a changed snapshot -/

/-- The link `l` of the file at `source`, which was written as `written`, and the same link `l'`
after a file was added to the snapshot at `k`. -/
structure Link.Retargeted (files : Snapshot) (source k : Text) (written l l' : Link) : Prop where
  kind_eq : l'.kind = l.kind
  names_eq : l'.names = l.names
  line_eq : l'.line = l.line
  isExternal_eq : l'.isExternal = l.isExternal
  target_eq : l'.target = l.target ∨ l'.target = k
  reached : l'.target ≠ l.target → files.ReachesFirst source written.target k

theorem Link.retargeted_resolvedTo (files : Snapshot) (source k text : Text) (written : Link) :
    Link.Retargeted files source k written
      (written.resolvedTo (resolve source written.target files).path)
      (written.resolvedTo (resolve source written.target (files.insert k text)).path) := by
  refine ⟨rfl, rfl, rfl, rfl, ?_, ?_⟩
  · rcases resolve_insert files source written.target k text with hSame | ⟨-, hFound⟩
    · exact Or.inl (congrArg Resolution.path hSame)
    · exact Or.inr (congrArg Resolution.path hFound)
  · intro hne
    rcases resolve_insert files source written.target k text with hSame | ⟨hFirst, -⟩
    · exact absurd (congrArg Resolution.path hSame) hne
    · exact hFirst

namespace FileNode

theorem getElem?_links_ofFile (path content : Text) (files : Snapshot) (i : Nat) :
    (ofFile path content files).links[i]? =
      (((Language.ofPath path).importsOf content)[i]?).map fun l =>
        l.resolvedTo (resolve path l.target files).path := by
  rw [ofFile, resolvedLinks, List.getElem?_map]

theorem length_links_ofFile (path content : Text) (files : Snapshot) :
    (ofFile path content files).links.length =
      ((Language.ofPath path).importsOf content).length := by
  rw [ofFile, resolvedLinks, List.length_map]

/-- The node of a file depends on which files there are, and not on their texts. -/
theorem ofFile_congr {path content : Text} {files files' : Snapshot}
    (h : ∀ p, files.contains p = files'.contains p) :
    ofFile path content files = ofFile path content files' := by
  simp only [ofFile, resolvedLinks, resolve_congr h]

/-- A new file takes no target of another file away from the paths of the others. -/
theorem mem_targets_of_mem_targets_insert {path content k text q : Text} {files : Snapshot}
    (hne : q ≠ k) (h : q ∈ (ofFile path content (files.insert k text)).targets) :
    q ∈ (ofFile path content files).targets := by
  rw [mem_targets_ofFile] at h ⊢
  obtain ⟨l, hl, hTarget⟩ := h
  rcases (Link.retargeted_resolvedTo files path k text l).target_eq with hSame | hNew
  · exact ⟨l, hl, hSame.symm.trans hTarget⟩
  · exact absurd (hTarget.symm.trans hNew) hne

/-- Position by position, the links of a file are those that were written, and a new file may have
drawn them to itself. -/
theorem retargeted_getElem?_links {path content k text : Text} {files : Snapshot} {i : Nat}
    {l l' : Link} (hl : (ofFile path content files).links[i]? = some l)
    (hl' : (ofFile path content (files.insert k text)).links[i]? = some l') :
    ∃ written, ((Language.ofPath path).importsOf content)[i]? = some written ∧
      Link.Retargeted files path k written l l' := by
  rw [getElem?_links_ofFile, Option.map_eq_some_iff] at hl hl'
  obtain ⟨written, hWritten, rfl⟩ := hl
  obtain ⟨written', hWritten', rfl⟩ := hl'
  rw [hWritten, Option.some.injEq] at hWritten'
  subst hWritten'
  exact ⟨written, hWritten, Link.retargeted_resolvedTo files path k text written⟩

/-- A link that did not point to a file stays when the file is taken away. -/
theorem getElem?_links_erase {path content k : Text} {files : Snapshot} {i : Nat} {l : Link}
    (hk : files.contains k) (hl : (ofFile path content files).links[i]? = some l)
    (hTarget : l.target ≠ k) : (ofFile path content (files.erase k)).links[i]? = some l := by
  obtain ⟨old, hOld⟩ := PathMap.contains_iff_get?.mp hk
  rw [getElem?_links_ofFile, Option.map_eq_some_iff] at hl
  obtain ⟨written, hWritten, rfl⟩ := hl
  -- the snapshot is the smaller one with the file put back
  have hBack := (Link.retargeted_resolvedTo (files.erase k) path k old written).target_eq
  rw [PathMap.insert_erase_of_get?_eq_some hOld] at hBack
  have hSame : (resolve path written.target files).path =
      (resolve path written.target (files.erase k)).path := hBack.resolve_right hTarget
  rw [getElem?_links_ofFile, hWritten, Option.map_some, hSame]

end FileNode

/-! ### Adding and taking away a file -/

/-- A new file adds at most one to the inbound count of another. -/
theorem Graph.inbound_getD_insert_le {files : Snapshot} {k q : Text} (text : Text)
    (hk : ¬ files.contains k) (hne : q ≠ k) :
    ((ofSnapshot (files.insert k text)).inbound.get? q).getD 0 ≤
      ((ofSnapshot files).inbound.get? q).getD 0 + 1 := by
  rw [inbound_getD_insert, PathMap.erase_of_not_contains hk, inbound_getD]
  have hOthers : (files.entries.countP fun e =>
        e.1 ≠ q ∧ q ∈ (FileNode.ofFile e.1 e.2 (files.insert k text)).targets) ≤
      files.entries.countP fun e => e.1 ≠ q ∧ q ∈ (FileNode.ofFile e.1 e.2 files).targets := by
    refine List.countP_mono_left fun e _ h => ?_
    simp only [decide_eq_true_eq] at h ⊢
    exact ⟨h.1, FileNode.mem_targets_of_mem_targets_insert hne h.2⟩
  split <;> omega

/-- A new file adds at most ten to the score of another. -/
theorem Graph.importance_insert_le {files : Snapshot} {k text q content : Text}
    (hk : ¬ files.contains k) (hne : q ≠ k) :
    ((ofSnapshot (files.insert k text)).scored
        (FileNode.ofFile q content (files.insert k text))).importance ≤
      ((ofSnapshot files).scored (FileNode.ofFile q content files)).importance + 10 := by
  have hInbound := inbound_getD_insert_le text hk hne
  rw [importance_scored_ofFile, importance_scored_ofFile]
  omega

/-- A file that is added draws links to itself and changes nothing else: another file keeps its
exports and its imports, each import points where it pointed or to the new file, and to the new file
only if it reaches that first; its score grows by ten at most. A file that is taken away leaves the
links as they are that did not point to it. -/
theorem adding_file_retargets_to_it :
    (∀ (files : Snapshot) (k text q content : Text), ¬ files.contains k →
      files.get? q = some content →
      ∃ n n', (Graph.ofSnapshot files).nodes.get? q = some n ∧
        (Graph.ofSnapshot (files.insert k text)).nodes.get? q = some n' ∧
        n'.exports = n.exports ∧ n'.links.length = n.links.length ∧
        (∀ (i : Nat) (l l' : Link), n.links[i]? = some l → n'.links[i]? = some l' →
          ∃ written, ((Language.ofPath q).importsOf content)[i]? = some written ∧
            Link.Retargeted files q k written l l') ∧
        n'.importance ≤ n.importance + 10) ∧
    (∀ (files : Snapshot) (k q content : Text), files.contains k →
      files.get? q = some content → q ≠ k →
      ∃ n n', (Graph.ofSnapshot files).nodes.get? q = some n ∧
        (Graph.ofSnapshot (files.erase k)).nodes.get? q = some n' ∧
        n'.exports = n.exports ∧ n'.links.length = n.links.length ∧
        ∀ (i : Nat) (l : Link), n.links[i]? = some l → l.target ≠ k → n'.links[i]? = some l) := by
  constructor
  · intro files k text q content hk hq
    have hne : q ≠ k := by
      rintro rfl
      exact hk (PathMap.contains_iff_get?.mpr ⟨content, hq⟩)
    have hq' : (files.insert k text).get? q = some content := by
      rw [PathMap.get?_insert, if_neg hne, hq]
    refine ⟨_, _, Graph.get?_nodes_of_get? hq, Graph.get?_nodes_of_get? hq', rfl, ?_, ?_, ?_⟩
    · simp only [Graph.scored_links, FileNode.length_links_ofFile]
    · intro i l l' hl hl'
      exact FileNode.retargeted_getElem?_links hl hl'
    · exact Graph.importance_insert_le hk hne
  · intro files k q content hk hq hne
    have hq' : (files.erase k).get? q = some content := by
      rw [PathMap.get?_erase, if_neg hne, hq]
    refine ⟨_, _, Graph.get?_nodes_of_get? hq, Graph.get?_nodes_of_get? hq', rfl, ?_, ?_⟩
    · simp only [Graph.scored_links, FileNode.length_links_ofFile]
    · intro i l hl hTarget
      exact FileNode.getElem?_links_erase hk hl hTarget

/-- Two files, one of which imports the other without saying which kind of file it is. -/
def siblings : Snapshot :=
  .ofList [("src/a.ts", "import b from './b'\nimport 'react'\n"), ("src/b.tsx", "import './a'\n")]

/-- A file that is found before its sibling draws the import to itself, and gives it back. -/
theorem adding_file_retargets_to_it_between_siblings :
    ¬ siblings.contains "src/b.ts" ∧
    siblings.get? "src/a.ts" = some "import b from './b'\nimport 'react'\n" ∧
    (resolve "src/a.ts" "./b" siblings = .confirmed "src/b.tsx" ∧
      resolve "src/a.ts" "./b" (siblings.insert "src/b.ts" []) = .confirmed "src/b.ts") ∧
    (∃ n n', (Graph.ofSnapshot siblings).nodes.get? "src/a.ts" = some n ∧
      (Graph.ofSnapshot (siblings.insert "src/b.ts" [])).nodes.get? "src/a.ts" = some n' ∧
      n'.links.length = n.links.length ∧ n'.importance ≤ n.importance + 10) ∧
    siblings.contains "src/b.tsx" ∧ ("src/a.ts" : Text) ≠ "src/b.tsx" ∧
    ∃ n n', (Graph.ofSnapshot siblings).nodes.get? "src/a.ts" = some n ∧
      (Graph.ofSnapshot (siblings.erase "src/b.tsx")).nodes.get? "src/a.ts" = some n' ∧
      ∀ (i : Nat) (l : Link), n.links[i]? = some l → l.target ≠ "src/b.tsx" →
        n'.links[i]? = some l := by
  have hNew : ¬ siblings.contains "src/b.ts" := by decide
  have hText : siblings.get? "src/a.ts" = some "import b from './b'\nimport 'react'\n" := by decide
  have hOld : siblings.contains "src/b.tsx" := by decide
  have hne : ("src/a.ts" : Text) ≠ "src/b.tsx" := by decide
  obtain ⟨hAdding, hTaking⟩ := adding_file_retargets_to_it
  obtain ⟨n, n', hn, hn', -, hLength, -, hImportance⟩ := hAdding _ _ [] _ _ hNew hText
  obtain ⟨m, m', hm, hm', -, -, hLinks⟩ := hTaking _ _ _ _ hOld hText hne
  exact ⟨hNew, hText, ⟨by decide, by decide⟩, ⟨n, n', hn, hn', hLength, hImportance⟩, hOld, hne,
    m, m', hm, hm', hLinks⟩

/-! ### Editing a file -/

/-- The inbound count of a path is what the other files add to it, which an edit leaves alone, and
what the edited file adds. -/
theorem Graph.inbound_getD_edit {files : Snapshot} {p : Text} (text q : Text)
    (hp : files.contains p) :
    ((ofSnapshot (files.insert p text)).inbound.get? q).getD 0 =
      ((files.erase p).entries.countP fun e =>
        e.1 ≠ q ∧ q ∈ (FileNode.ofFile e.1 e.2 files).targets) +
      if p ≠ q ∧ q ∈ (FileNode.ofFile p text files).targets then 1 else 0 := by
  simp only [inbound_getD_insert,
    FileNode.ofFile_congr (PathMap.contains_insert_of_contains text hp)]

/-- A new text adds to an inbound count what it adds, and takes away what the old one added. -/
theorem Graph.inbound_getD_edit_add {files : Snapshot} {p old : Text} (text q : Text)
    (hp : files.get? p = some old) :
    ((ofSnapshot (files.insert p text)).inbound.get? q).getD 0 +
        (if p ≠ q ∧ q ∈ (FileNode.ofFile p old files).targets then 1 else 0) =
      ((ofSnapshot files).inbound.get? q).getD 0 +
        if p ≠ q ∧ q ∈ (FileNode.ofFile p text files).targets then 1 else 0 := by
  have hFile : files.contains p := PathMap.contains_iff_get?.mpr ⟨old, hp⟩
  -- the snapshot as it was is itself an edit, with the old text
  have hNew := inbound_getD_edit text q hFile
  have hOld := inbound_getD_edit old q hFile
  rw [PathMap.insert_of_get?_eq_some hp] at hOld
  omega

/-- The inbound count of another path grows by one if the new text imports it, and falls by one if
the old text did. -/
theorem Graph.inbound_getD_edit_sub {files : Snapshot} {p old q : Text} (text : Text)
    (hp : files.get? p = some old) (hne : q ≠ p) :
    (((ofSnapshot (files.insert p text)).inbound.get? q).getD 0 : Int) -
        ((ofSnapshot files).inbound.get? q).getD 0 =
      (if q ∈ (FileNode.ofFile p text files).targets then 1 else 0) -
        if q ∈ (FileNode.ofFile p old files).targets then 1 else 0 := by
  have hCount := inbound_getD_edit_add text q hp
  simp only [ne_eq, hne.symm, not_false_eq_true, true_and] at hCount
  split at hCount <;> split at hCount <;> simp only [*, if_true, if_false] <;> omega

/-- What a file imports does not change the inbound count of its own path. -/
theorem Graph.inbound_getD_edit_self {files : Snapshot} {p : Text} (text : Text)
    (hp : files.contains p) :
    ((ofSnapshot (files.insert p text)).inbound.get? p).getD 0 =
      ((ofSnapshot files).inbound.get? p).getD 0 := by
  obtain ⟨old, hOld⟩ := PathMap.contains_iff_get?.mp hp
  have hCount := inbound_getD_edit_add text p hOld
  rwa [if_neg (by simp), if_neg (by simp)] at hCount

/-- A file that is edited changes no link and no export of another, and the score of another by ten
for being imported now and by ten less for having been imported before. Its own score changes by two
for each export more or less, whatever it imports. -/
theorem editing_file_changes_scores (files : Snapshot) {p old : Text} (text : Text)
    (hp : files.get? p = some old) :
    ∃ targets targets', (Graph.ofSnapshot files).targets.get? p = some targets ∧
      (Graph.ofSnapshot (files.insert p text)).targets.get? p = some targets' ∧
      (∀ q, q ≠ p → files.contains q →
        ∃ n n', (Graph.ofSnapshot files).nodes.get? q = some n ∧
          (Graph.ofSnapshot (files.insert p text)).nodes.get? q = some n' ∧
          n'.links = n.links ∧ n'.exports = n.exports ∧
          n'.importance - n.importance =
            10 * ((if q ∈ targets' then 1 else 0) - (if q ∈ targets then 1 else 0))) ∧
      ∃ n n', (Graph.ofSnapshot files).nodes.get? p = some n ∧
        (Graph.ofSnapshot (files.insert p text)).nodes.get? p = some n' ∧
        n'.importance - n.importance =
          2 * (((Language.ofPath p).exportsOf text).length -
            ((Language.ofPath p).exportsOf old).length) := by
  have hFile : files.contains p := PathMap.contains_iff_get?.mpr ⟨old, hp⟩
  have hSame := PathMap.contains_insert_of_contains text hFile
  have hp' : (files.insert p text).get? p = some text := by
    rw [PathMap.get?_insert, if_pos rfl]
  refine ⟨(FileNode.ofFile p old files).targets, (FileNode.ofFile p text files).targets,
    ?_, ?_, ?_, ?_⟩
  · rw [Graph.get?_targets, hp, Option.map_some]
  · rw [Graph.get?_targets, hp', Option.map_some, FileNode.ofFile_congr hSame]
  · intro q hne hq
    obtain ⟨content, hContent⟩ := PathMap.contains_iff_get?.mp hq
    have hContent' : (files.insert p text).get? q = some content := by
      rw [PathMap.get?_insert, if_neg hne, hContent]
    refine ⟨_, _, Graph.get?_nodes_of_get? hContent, Graph.get?_nodes_of_get? hContent',
      ?_, rfl, ?_⟩
    · rw [Graph.scored_links, Graph.scored_links, FileNode.ofFile_congr hSame]
    · have hInbound := Graph.inbound_getD_edit_sub text hp hne
      rw [Graph.importance_scored_ofFile, Graph.importance_scored_ofFile]
      omega
  · refine ⟨_, _, Graph.get?_nodes_of_get? hp, Graph.get?_nodes_of_get? hp', ?_⟩
    rw [Graph.importance_scored_ofFile, Graph.importance_scored_ofFile,
      Graph.inbound_getD_edit_self text hFile]
    omega

/-- Without its imports the first file of the circle takes ten from the score of the other. -/
theorem editing_file_changes_scores_in_circle :
    circularSnapshot.get? "src/a.ts" = some circularText ∧ circularSnapshot.contains "src/b.ts" ∧
    ∃ n n', (Graph.ofSnapshot circularSnapshot).nodes.get? "src/b.ts" = some n ∧
      (Graph.ofSnapshot (circularSnapshot.insert "src/a.ts" [])).nodes.get? "src/b.ts" = some n' ∧
      n'.links = n.links ∧ n'.importance - n.importance = -10 := by
  have hText : circularSnapshot.get? "src/a.ts" = some circularText := by decide
  have hText' : (circularSnapshot.insert "src/a.ts" []).get? "src/a.ts" = some [] := by decide
  have hFile : circularSnapshot.contains "src/b.ts" := by decide
  obtain ⟨targets, targets', hTargets, hTargets', hOthers, -⟩ :=
    editing_file_changes_scores circularSnapshot [] hText
  obtain ⟨n, n', hn, hn', hLinks, -, hImportance⟩ := hOthers "src/b.ts" (by decide) hFile
  rw [Graph.get?_targets, hText, Option.map_some, Option.some.injEq] at hTargets
  rw [Graph.get?_targets, hText', Option.map_some, Option.some.injEq] at hTargets'
  have hBefore : ("src/b.ts" : Text) ∈ targets := by
    rw [← hTargets]
    decide +kernel
  have hAfter : ("src/b.ts" : Text) ∉ targets' := by
    rw [← hTargets']
    decide +kernel
  rw [if_neg hAfter, if_pos hBefore] at hImportance
  exact ⟨hText, hFile, n, n', hn, hn', hLinks, hImportance⟩

end DependencyMap
