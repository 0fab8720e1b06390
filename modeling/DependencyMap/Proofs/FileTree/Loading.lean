import DependencyMap.FileTree.Loading
import DependencyMap.Proofs.FileTree.Removing
import DependencyMap.Proofs.PathMap
import DependencyMap.Proofs.Text.Segments
import DependencyMap.Proofs.Text.Utf8

/-!
# Which files are taken into a snapshot

`FileTree.Analyzable` says of a path and a text that the path is to be in a snapshot with that text,
in terms of what leads where in the tree and not of how it is walked. A snapshot holds just these
paths with these texts (`get?_files_loadSnapshot_iff` with `analyzable_iff`). Whether a path is
among them does not depend on a file elsewhere that is not taken in (`analyzable_remove_iff`): walks
that come to such a file end there, at a file that no snapshot has a text of. `loadSnapshot_exact`
puts this together.
-/

namespace DependencyMap

/-! ### Line endings -/

namespace Text

/-- The text with a line feed for each carriage return that a line feed follows, together with it,
and for each other carriage return. -/
def withLineFeeds : Text → Text
  | [] => []
  | [c] => [if c = '\r' then CodePoint.ofChar '\n' else c]
  | c :: d :: rest =>
    if c = '\r' ∧ d = '\n' then CodePoint.ofChar '\n' :: withLineFeeds rest
    else (if c = '\r' then CodePoint.ofChar '\n' else c) :: withLineFeeds (d :: rest)

def afterReturn : Text → Text
  | [] => []
  | c :: rest => if c = '\n' then rest else c :: rest

theorem withLineFeeds_return (t : Text) :
    withLineFeeds (CodePoint.ofChar '\r' :: t) =
      CodePoint.ofChar '\n' :: withLineFeeds (afterReturn t) := by
  cases t with
  | nil => rfl
  | cons d rest =>
    by_cases h : d = '\n' <;> simp [withLineFeeds, afterReturn, h]

theorem withLineFeeds_cons {c : CodePoint} (h : c ≠ '\r') (t : Text) :
    withLineFeeds (c :: t) = c :: withLineFeeds t := by
  cases t <;> simp [withLineFeeds, h]

theorem foldl_unifyStep (t : Text) (after : Bool) (before : Text) :
    (t.foldl unifyStep (after, before)).2.reverse =
      before.reverse ++ withLineFeeds (if after then afterReturn t else t) := by
  induction t generalizing after before with
  | nil => cases after <;> simp [withLineFeeds, afterReturn]
  | cons c t ih =>
    rw [List.foldl_cons, unifyStep]
    by_cases hReturn : c = '\r'
    · rw [if_pos hReturn, ih]
      simp [afterReturn, hReturn, withLineFeeds_return]
    by_cases hFeed : c = '\n' ∧ after = true
    · rw [if_neg hReturn, if_pos hFeed, ih]
      simp [afterReturn, hFeed.1, hFeed.2]
    · have hOn : (if after = true then afterReturn (c :: t) else c :: t) = c :: t := by
        split
        · rename_i hAfter
          simp only [hAfter, and_true] at hFeed
          rw [afterReturn, if_neg hFeed]
        · rfl
      rw [if_neg hReturn, if_neg hFeed, ih, hOn, withLineFeeds_cons hReturn]
      simp

theorem unifyNewlines_eq (t : Text) : unifyNewlines t = withLineFeeds t := by
  rw [unifyNewlines, foldl_unifyStep]
  rfl

end Text

theorem decodeFile_eq_ok_iff {bytes : Bytes} {t : Text} :
    decodeFile bytes = .ok t ↔ ∃ u, Utf8.encode u = .ok bytes ∧ t = u.withLineFeeds := by
  simp only [decodeFile, ← Utf8.decode_eq_ok_iff, ← Text.unifyNewlines_eq]
  cases Utf8.decode bytes <;> simp [Except.map, eq_comm]

/-! ### Paths and names -/

theorem slash_notMem_of_isName {name : Text} (h : isName name = true) :
    CodePoint.ofChar '/' ∉ name := by
  simp only [isName, Bool.and_eq_true, Bool.not_eq_true', List.elem_eq_mem, decide_eq_false_iff_not]
    at h
  exact h.2

theorem segments_ofSegments {names : List Text} (hNe : names ≠ [])
    (hNames : ∀ name ∈ names, isName name = true) : (Text.ofSegments names).segments = names :=
  Text.segments_ofSegments_of_notMem hNe fun name hName =>
    slash_notMem_of_isName (hNames name hName)

namespace FileTree

variable {tree : FileTree} {root inner : Place} {maxBytes : Int} {skipped : List Text} {p t : Text}

theorem isName_of_item?_eq_some {item : Item} (h : tree.item? (root ++ inner) = some item) :
    ∀ name ∈ inner, isName name = true := by
  intro name hName
  have hTop : root ++ inner ≠ [] := by
    intro hNil
    simp [(List.append_eq_nil_iff.mp hNil).2] at hName
  have hNamed := (tree.named _ ((item?_eq_some_iff hTop).mp h)).2
  exact List.all_eq_true.mp hNamed name (List.mem_append_right _ hName)

/-! ### The files that are loaded -/

def visitedFile? (tree : FileTree) (root : Place) (skipped : List Text) (e : Place × Item) :
    Option Place :=
  let inner := e.1.drop root.length
  if root.isPrefixOf e.1 && !inner.isEmpty && tree.isVisited root skipped inner &&
      tree.isFileLike e.1 e.2 then some inner
  else none

theorem filesBelow_eq : tree.filesBelow root skipped =
    (tree.items.filterMap (tree.visitedFile? root skipped)).mergeSort loadsBefore := rfl

theorem visitedFile?_eq_some_iff {e : Place × Item} :
    tree.visitedFile? root skipped e = some inner ↔ e.1 = root ++ inner ∧ inner ≠ [] ∧
      tree.isVisited root skipped inner = true ∧ tree.isFileLike e.1 e.2 = true := by
  obtain ⟨place, item⟩ := e
  simp only [visitedFile?]
  constructor
  · intro h
    split at h
    · rename_i hAll
      cases h
      simp only [Bool.and_eq_true, List.isPrefixOf_iff_prefix, Bool.not_eq_true',
        List.isEmpty_eq_false_iff] at hAll
      obtain ⟨⟨⟨hPrefix, hNe⟩, hVisited⟩, hFile⟩ := hAll
      exact ⟨(List.prefix_iff_eq_append.mp hPrefix).symm, hNe, hVisited, hFile⟩
    · cases h
  · rintro ⟨rfl, hNe, hVisited, hFile⟩
    simp [hNe, hVisited, hFile]

theorem mem_filesBelow_iff :
    inner ∈ tree.filesBelow root skipped ↔ inner ≠ [] ∧ tree.isVisited root skipped inner = true ∧
      ∃ item, tree.item? (root ++ inner) = some item ∧
        tree.isFileLike (root ++ inner) item = true := by
  simp only [filesBelow_eq, List.mem_mergeSort, List.mem_filterMap, visitedFile?_eq_some_iff]
  constructor
  · rintro ⟨⟨place, item⟩, hItem, rfl, hNe, hVisited, hFile⟩
    exact ⟨hNe, hVisited, item, (item?_eq_some_iff (by simp [hNe])).mpr hItem, hFile⟩
  · rintro ⟨hNe, hVisited, item, hItem, hFile⟩
    exact ⟨(root ++ inner, item), (item?_eq_some_iff (by simp [hNe])).mp hItem, rfl, hNe, hVisited,
      hFile⟩

theorem nodup_filesBelow : (tree.filesBelow root skipped).Nodup := by
  rw [filesBelow_eq, (List.mergeSort_perm _ _).nodup_iff]
  have hPlaces : tree.items.Pairwise fun e e' => e.1 ≠ e'.1 := List.pairwise_map.mp tree.distinct
  refine List.pairwise_filterMap.mpr (hPlaces.imp fun hNe inner hInner inner' hInner' hSame => ?_)
  have hPlace := (visitedFile?_eq_some_iff.mp hInner).1
  have hPlace' := (visitedFile?_eq_some_iff.mp hInner').1
  exact hNe (hPlace.trans (hSame ▸ hPlace'.symm))

theorem isName_of_mem_filesBelow (h : inner ∈ tree.filesBelow root skipped) :
    ∀ name ∈ inner, isName name = true := by
  obtain ⟨-, -, item, hItem, -⟩ := mem_filesBelow_iff.mp h
  exact isName_of_item?_eq_some hItem

def loaded? (tree : FileTree) (root : Place) (maxBytes : Int) (inner : Place) :
    Option (Text × Text) :=
  match tree.readFile (root ++ inner) maxBytes with
  | .content t => some (Text.ofSegments inner, t)
  | _ => none

theorem loaded?_eq_some_iff : tree.loaded? root maxBytes inner = some (p, t) ↔
    p = Text.ofSegments inner ∧ tree.readFile (root ++ inner) maxBytes = .content t := by
  rw [loaded?]
  cases tree.readFile (root ++ inner) maxBytes <;> simp [eq_comm]

def loadedEntries (tree : FileTree) (root : Place) (maxBytes : Int) (skipped : List Text) :
    List (Text × Text) :=
  ((tree.filesBelow root skipped).filter fun inner =>
    Language.ofPath (Text.ofSegments inner) ≠ .unknown).filterMap (tree.loaded? root maxBytes)

theorem files_loadSnapshot : (tree.loadSnapshot root maxBytes skipped).files =
    .ofList (tree.loadedEntries root maxBytes skipped) := by
  simp only [loadSnapshot, loadedEntries, List.filterMap_map]
  congr 2

theorem mem_loadedEntries_iff : (p, t) ∈ tree.loadedEntries root maxBytes skipped ↔
    p.segments ∈ tree.filesBelow root skipped ∧ Language.ofPath p ≠ .unknown ∧
      tree.readFile (root ++ p.segments) maxBytes = .content t := by
  simp only [loadedEntries, List.mem_filterMap, List.mem_filter, loaded?_eq_some_iff,
    decide_eq_true_eq]
  constructor
  · rintro ⟨inner, ⟨hInner, hKnown⟩, rfl, hRead⟩
    rw [segments_ofSegments (mem_filesBelow_iff.mp hInner).1 (isName_of_mem_filesBelow hInner)]
    exact ⟨hInner, hKnown, hRead⟩
  · rintro ⟨hInner, hKnown, hRead⟩
    rw [← Text.ofSegments_segments p] at hKnown
    exact ⟨p.segments, ⟨hInner, hKnown⟩, (Text.ofSegments_segments p).symm, hRead⟩

theorem nodup_paths_loadedEntries :
    ((tree.loadedEntries root maxBytes skipped).map (·.1)).Nodup := by
  refine List.pairwise_map.mpr (List.pairwise_filterMap.mpr ?_)
  refine (nodup_filesBelow.filter _).imp_of_mem fun {inner inner'} hInner hInner' hNe => ?_
  rintro ⟨q, t⟩ hEntry ⟨q', t'⟩ hEntry' rfl
  have hMem := List.mem_of_mem_filter hInner
  have hMem' := List.mem_of_mem_filter hInner'
  have hPath := (loaded?_eq_some_iff.mp hEntry).1.symm.trans (loaded?_eq_some_iff.mp hEntry').1
  apply hNe
  rw [← segments_ofSegments (mem_filesBelow_iff.mp hMem).1 (isName_of_mem_filesBelow hMem), hPath,
    segments_ofSegments (mem_filesBelow_iff.mp hMem').1 (isName_of_mem_filesBelow hMem')]

/-- What the snapshot holds at a path. -/
theorem get?_files_loadSnapshot_iff :
    (tree.loadSnapshot root maxBytes skipped).files.get? p = some t ↔
      p.segments ∈ tree.filesBelow root skipped ∧ Language.ofPath p ≠ .unknown ∧
        tree.readFile (root ++ p.segments) maxBytes = .content t := by
  rw [files_loadSnapshot, PathMap.get?_ofList nodup_paths_loadedEntries, mem_loadedEntries_iff]

/-! ### Which files these are -/

/-- The file at a place has no more bytes than allowed, and they are those of the text. -/
def Legible (tree : FileTree) (maxBytes : Int) (place : Place) (u : Text) : Prop :=
  ∃ bytes, tree.item? place = some (.file bytes) ∧ (bytes.length : Int) ≤ maxBytes ∧
    Utf8.encode u = .ok bytes

/-- The path names a file below `root` that is to be analyzed, and `t` is its text. -/
structure Analyzable (tree : FileTree) (root : Place) (maxBytes : Int) (skipped : List Text)
    (p t : Text) : Prop where
  /-- The path is written as a way of names. -/
  named : ∀ name ∈ p.segments, isName name = true
  /-- No directory on the way is a symbolic link. -/
  unlinked : ∀ n, 0 < n → n < p.segments.length → ∀ target,
    tree.item? (root ++ p.segments.take n) ≠ some (.link target)
  /-- None of them has a name that is skipped. -/
  entered : ∀ name ∈ p.segments.dropLast, name ∉ skipped
  known : Language.ofPath p ≠ .unknown
  /-- The path leads to a file, and `t` is what it holds but for the line endings. -/
  content : ∃ file links u, tree.Leads root 0 p.segments file links ∧
    tree.Legible maxBytes file u ∧ t = u.withLineFeeds

theorem isVisited_concat_iff {way : List Text} {name : Text} :
    tree.isVisited root skipped (way ++ [name]) = true ↔
      (∀ n ≤ way.length, tree.isDirectory (root ++ way.take n) = true) ∧
        ∀ d ∈ way, d ∉ skipped := by
  simp only [isVisited, List.all_eq_true, List.mem_range, List.length_append, List.length_singleton,
    Nat.lt_succ_iff, Bool.and_eq_true, Bool.not_eq_true', List.contains_eq_mem,
    decide_eq_false_iff_not]
  constructor
  · intro h
    refine ⟨fun n hn => ?_, fun d hd => ?_⟩
    · rw [← List.take_append_of_le_length hn]
      exact (h n hn).1
    · refine (h way.length (Nat.le_refl _)).2 d ?_
      rwa [List.take_left']
      rfl
  · rintro ⟨hDirectories, hEntered⟩ n hn
    rw [List.take_append_of_le_length hn]
    exact ⟨hDirectories n hn, fun d hd => hEntered d (List.mem_of_mem_take hd)⟩

theorem isFileLike_eq {place dest : Place} {item : Item} (hItem : tree.item? place = some item)
    (hStands : tree.StandsFor place dest) :
    tree.isFileLike place item = !tree.isDirectory dest := by
  cases item with
  | link target => simp only [isFileLike, standsFor_eq_ok_iff.mpr hStands]
  | file bytes =>
    cases hStands with
    | itself hSame hLink hDest => simp [isFileLike, hDest, isDirectory, hItem]
    | link hLink => simp [hItem] at hLink
  | directory =>
    cases hStands with
    | itself hSame hLink hDest => simp [isFileLike, hDest, isDirectory, hItem]
    | link hLink => simp [hItem] at hLink

theorem readFile_eq_content_iff {place : Place} : tree.readFile place maxBytes = .content t ↔
    ∃ dest, tree.StandsFor place dest ∧ ((tree.bytes? dest).getD []).length ≤ maxBytes ∧
      ∃ u, Utf8.encode u = .ok ((tree.bytes? dest).getD []) ∧ t = u.withLineFeeds := by
  simp only [← standsFor_eq_ok_iff, readFile, ← decodeFile_eq_ok_iff]
  cases tree.standsFor place with
  | error fault => simp
  | ok dest =>
    simp only [Except.ok.injEq, exists_eq_left']
    generalize (tree.bytes? dest).getD [] = bytes
    by_cases hSize : maxBytes < bytes.length
    · simp [hSize, Int.not_le.mpr hSize]
    · cases decodeFile bytes <;> simp [hSize, Int.not_lt.mp hSize]

/-- What is loaded from a place is the text of a legible file. -/
theorem isFileLike_and_readFile_iff {place : Place} :
    (∃ item, tree.item? place = some item ∧ tree.isFileLike place item = true) ∧
        tree.readFile place maxBytes = .content t ↔
      ∃ dest u, tree.StandsFor place dest ∧ tree.Legible maxBytes dest u ∧
        t = u.withLineFeeds := by
  rw [readFile_eq_content_iff]
  constructor
  · rintro ⟨⟨item, hItem, hFile⟩, dest, hStands, hSize, u, hBytes, rfl⟩
    rw [isFileLike_eq hItem hStands, Bool.not_eq_true'] at hFile
    rcases hStands.directory_or_file with hDirectory | ⟨bytes, hDest⟩
    · simp [hFile] at hDirectory
    · simp only [bytes?, hDest, Option.getD_some] at hSize hBytes
      exact ⟨dest, u, hStands, ⟨bytes, hDest, hSize, hBytes⟩, rfl⟩
  · rintro ⟨dest, u, hStands, ⟨bytes, hDest, hSize, hBytes⟩, rfl⟩
    refine ⟨?_, dest, hStands, by simpa [bytes?, hDest] using hSize, u,
      by simpa [bytes?, hDest] using hBytes, rfl⟩
    obtain ⟨item, hItem⟩ : ∃ item, tree.item? place = some item := by
      cases hStands with
      | itself hItem => exact ⟨_, hItem⟩
      | link hItem => exact ⟨_, hItem⟩
    exact ⟨item, hItem, by simp [isFileLike_eq hItem hStands, isDirectory, hDest]⟩

theorem analyzable_iff : tree.Analyzable root maxBytes skipped p t ↔
    p.segments ∈ tree.filesBelow root skipped ∧ Language.ofPath p ≠ .unknown ∧
      tree.readFile (root ++ p.segments) maxBytes = .content t := by
  obtain ⟨way, name, hWay⟩ : ∃ way name, p.segments = way ++ [name] :=
    ⟨_, _, (List.dropLast_concat_getLast (List.splitOn_ne_nil _ _)).symm⟩
  have hTake (n : Nat) (hn : n ≤ way.length) : p.segments.take n = way.take n := by
    rw [hWay, List.take_append_of_le_length hn]
  have hPlace : root ++ way ++ [name] = root ++ p.segments := by rw [hWay, List.append_assoc]
  constructor
  · intro h
    have hNames : ∀ n ∈ way, isName n = true := fun n hn => h.named n (by simp [hWay, hn])
    have hLast : isName name = true := h.named name (by simp [hWay])
    have hUnlinked : ∀ n, 0 < n → n ≤ way.length → ∀ target,
        tree.item? (root ++ way.take n) ≠ some (.link target) := fun n hPos hn => by
      rw [← hTake n hn]
      exact h.unlinked n hPos (by simp [hWay]; omega)
    obtain ⟨file, links, u, hWalk, hLegible, hText⟩ := h.content
    obtain ⟨hDirectories, hEnd⟩ := (leads_concat_iff hNames hUnlinked).mp ⟨links, hWay ▸ hWalk⟩
    obtain ⟨-, hStands⟩ := (leads_singleton_iff hLast).mp hEnd
    rw [hPlace] at hStands
    obtain ⟨hFile, hRead⟩ :=
      isFileLike_and_readFile_iff.mpr ⟨file, u, hStands, hLegible, hText⟩
    refine ⟨mem_filesBelow_iff.mpr ⟨by simp [hWay], ?_, hFile⟩, h.known, hRead⟩
    rw [hWay, isVisited_concat_iff]
    exact ⟨hDirectories, fun d hd => h.entered d (by simp [hWay, hd])⟩
  · rintro ⟨hMem, hKnown, hRead⟩
    have hNamed := isName_of_mem_filesBelow hMem
    obtain ⟨-, hVisited, hFile⟩ := mem_filesBelow_iff.mp hMem
    rw [hWay, isVisited_concat_iff] at hVisited
    obtain ⟨hDirectories, hEntered⟩ := hVisited
    have hUnlinked : ∀ n, 0 < n → n ≤ way.length → ∀ target,
        tree.item? (root ++ way.take n) ≠ some (.link target) := fun n _ hn target hLink => by
      have hDirectory := hDirectories n hn
      simp [isDirectory, hLink] at hDirectory
    obtain ⟨file, u, hStands, hLegible, hText⟩ := isFileLike_and_readFile_iff.mp ⟨hFile, hRead⟩
    rw [← hPlace] at hStands
    have hBase : tree.isDirectory (root ++ way) = true := by
      simpa using hDirectories way.length (Nat.le_refl _)
    obtain ⟨links, hWalk⟩ := (leads_concat_iff (fun n hn => hNamed n (by simp [hWay, hn]))
      hUnlinked).mpr ⟨hDirectories, (leads_singleton_iff (hNamed name (by simp [hWay]))).mpr
        ⟨hBase, hStands⟩⟩
    exact
      { named := hNamed
        unlinked := fun n hPos hn => by
          have hLe : n ≤ way.length := by
            simp [hWay] at hn
            omega
          rw [hTake n hLe]
          exact hUnlinked n hPos hLe
        entered := by simpa [hWay] using hEntered
        known := hKnown
        content := ⟨file, links, u, hWay ▸ hWalk, hLegible, hText⟩ }

theorem Analyzable.isDirectory_take (h : tree.Analyzable root maxBytes skipped p t) {n : Nat}
    (hn : n < p.segments.length) : tree.isDirectory (root ++ p.segments.take n) = true := by
  have hVisited := (mem_filesBelow_iff.mp (analyzable_iff.mp h).1).2.1
  rw [isVisited, List.all_eq_true] at hVisited
  have hHere := hVisited n (List.mem_range.mpr hn)
  rw [Bool.and_eq_true] at hHere
  exact hHere.1

/-! ### Files that are passed over -/

/-- What stands at the place is a file that is not taken in, because nothing is reached there, or
because what is reached is too large or not UTF-8. -/
def Unusable (tree : FileTree) (maxBytes : Int) (place : Place) : Prop :=
  ∀ dest, tree.StandsFor place dest →
    ∃ bytes, tree.item? dest = some (.file bytes) ∧
      (maxBytes < bytes.length ∨ ∀ u, Utf8.encode u ≠ .ok bytes)

variable {place : Place}

theorem Unusable.isDirectory_eq_false (h : tree.Unusable maxBytes place) :
    tree.isDirectory place = false := by
  by_contra hNot
  rw [Bool.not_eq_false, isDirectory, decide_eq_true_eq] at hNot
  obtain ⟨bytes, hFile, -⟩ := h place (.itself hNot rfl rfl)
  simp [hNot] at hFile

theorem Unusable.not_legible (h : tree.Unusable maxBytes place) {dest : Place} {u : Text}
    (hStands : tree.StandsFor place dest) : ¬ tree.Legible maxBytes dest u := by
  rintro ⟨bytes, hItem, hSize, hBytes⟩
  obtain ⟨bytes', hFile, hFault⟩ := h dest hStands
  obtain rfl : bytes = bytes' := by simpa [hItem] using hFile
  rcases hFault with hLarge | hUndecodable
  · omega
  · exact hUndecodable u hBytes

/-- A file that is not taken in takes no other one with it and lends none its text. -/
theorem analyzable_remove_iff (h : tree.Unusable maxBytes place) :
    (tree.remove place).Analyzable root maxBytes skipped p t ↔
      tree.Analyzable root maxBytes skipped p t := by
  have hDirectory := h.isDirectory_eq_false
  constructor
  · intro hLeft
    obtain ⟨file, links, u, hWalk, ⟨bytes, hItem, hSize, hBytes⟩, hText⟩ := hLeft.content
    refine
      { named := hLeft.named, unlinked := fun n _ hn target hLink => ?_
        entered := hLeft.entered, known := hLeft.known
        content := ⟨file, links, u, hWalk.of_remove hDirectory,
          ⟨bytes, item?_of_remove hDirectory hItem, hSize, hBytes⟩, hText⟩ }
    -- what is a directory in what is left is one in the whole tree, and no link
    have hHere := hLeft.isDirectory_take hn
    rw [isDirectory_remove hDirectory, isDirectory, hLink] at hHere
    cases hHere
  · intro hWhole
    obtain ⟨file, links, u, hWalk, hLegible, hText⟩ := hWhole.content
    obtain ⟨bytes, hItem, hSize, hBytes⟩ := id hLegible
    have hApart : ∀ d, tree.StandsFor place d → tree.isDirectory d = false ∧ d ≠ file := by
      intro d hStands
      obtain ⟨bytes', hFile, -⟩ := h d hStands
      refine ⟨by simp [isDirectory, hFile], ?_⟩
      rintro rfl
      exact h.not_legible hStands hLegible
    refine
      { named := hWhole.named
        unlinked := fun n hPos hn target hLink =>
          hWhole.unlinked n hPos hn target (item?_of_remove hDirectory hLink)
        entered := hWhole.entered, known := hWhole.known
        content := ⟨file, links, u, hWalk.remove hDirectory hApart,
          ⟨bytes, ?_, hSize, hBytes⟩, hText⟩ }
    rw [item?_remove_of_ne hDirectory, hItem]
    rintro rfl
    exact (hApart file (.itself hItem rfl rfl)).2 rfl

/-- A snapshot holds the files that are to be analyzed with their texts, and no others; its paths
increase; and without a file that is not taken in it is the same. -/
theorem loadSnapshot_exact (tree : FileTree) (root : Place) (maxBytes : Int)
    (skipped : List Text) :
    (∀ p t, (tree.loadSnapshot root maxBytes skipped).files.get? p = some t ↔
      tree.Analyzable root maxBytes skipped p t) ∧
    (tree.loadSnapshot root maxBytes skipped).files.paths.Pairwise (· < ·) ∧
    ∀ place, tree.Unusable maxBytes place →
      ((tree.remove place).loadSnapshot root maxBytes skipped).files =
        (tree.loadSnapshot root maxBytes skipped).files := by
  have hIff (tree : FileTree) (p t : Text) :
      (tree.loadSnapshot root maxBytes skipped).files.get? p = some t ↔
        tree.Analyzable root maxBytes skipped p t := by
    rw [get?_files_loadSnapshot_iff, analyzable_iff]
  refine ⟨hIff tree, List.pairwise_map.mpr (PathMap.sorted _), fun place hUnusable => ?_⟩
  refine PathMap.ext_get? fun p => Option.ext fun t => ?_
  rw [hIff, hIff, analyzable_remove_iff hUnusable]

/-- A file with a carriage return in a directory, a link to it, and a file that is not UTF-8. -/
def linkedTree : FileTree :=
  ((empty.add ["src", "a.ts"] (.file [0x78, 0x0D])).add ["b.ts"] (.link "src/./a.ts")).add
    ["c.ts"] (.file [0xFF])

theorem loadSnapshot_exact_linkedTree :
    linkedTree.Analyzable [] 10 [] "b.ts" "x\n" ∧ linkedTree.Unusable 10 ["c.ts"] ∧
      ((linkedTree.remove ["c.ts"]).loadSnapshot [] 10 []).files =
        (linkedTree.loadSnapshot [] 10 []).files := by
  have hExact := loadSnapshot_exact linkedTree [] 10 []
  have hFound : linkedTree.Analyzable [] 10 [] "b.ts" "x\n" := by
    refine analyzable_iff.mpr ⟨mem_filesBelow_iff.mpr ⟨by decide, by decide, ?_⟩, ?_, ?_⟩
    · exact ⟨.link "src/./a.ts", by decide +kernel, by decide +kernel⟩
    · decide +kernel
    · decide +kernel
  have hFile : linkedTree.item? ["c.ts"] = some (.file [0xFF]) := by decide
  have hUnusable : linkedTree.Unusable 10 ["c.ts"] := by
    intro dest hStands
    cases hStands with
    | itself hItem hLink hSame =>
      refine ⟨[0xFF], hSame ▸ hFile, Or.inr fun u hEncode => ?_⟩
      have hDecode := Utf8.decode_eq_ok_iff.mpr hEncode
      cases hDecode
    | link hItem => simp [hFile] at hItem
  exact ⟨hFound, hUnusable, hExact.2.2 _ hUnusable⟩

end FileTree

end DependencyMap
