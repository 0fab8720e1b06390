import DependencyMap.FileTree.Resolving
import DependencyMap.PathMap
import DependencyMap.Settings
import DependencyMap.Source.Language

/-!
# Loading snapshots

A snapshot takes in every file below a directory that has a known language, is not too large and is
UTF-8. Directories of certain names are left out with all they hold, and symbolic links to
directories are not followed; a link to a file counts as a file. What is passed over is logged, file
by file: those of a directory come before those of its subdirectories.
-/

namespace DependencyMap

/-- What a file comes to. -/
inductive FileOutcome
  | oversized
  | unreachable (fault : PathFault)
  | undecodable (fault : Utf8.DecodeFault)
  | content (t : Text)
deriving DecidableEq

/-- The text of a file's bytes. -/
def decodeFile (bytes : Bytes) : Except Utf8.DecodeFault Text :=
  (Utf8.decode bytes).map Text.unifyNewlines

/-- Whether a file comes before another in the order of loading. -/
def loadsBefore : (a b : Place) → Bool
  | [], _ => true
  | _ :: _, [] => false
  | [a], [b] => decide (a ≤ b)
  | [_], _ :: _ :: _ => true
  | _ :: _ :: _, [_] => false
  | a :: as, b :: bs => if a = b then loadsBefore as bs else decide (a < b)

namespace FileTree

/-- Whether what stands at a place is a file or a link to none but a directory. -/
def isFileLike (tree : FileTree) (place : Place) (item : Item) : Bool :=
  match item with
  | .file _ => true
  | .directory => false
  | .link _ =>
    match tree.standsFor place with
    | .ok target => !tree.isDirectory target
    | .error _ => true

/-- Whether the directories on the way to a place below `root` are all entered. -/
def isVisited (tree : FileTree) (root : Place) (skipped : List Text) (inner : Place) : Bool :=
  (List.range inner.length).all fun n =>
    tree.isDirectory (root ++ inner.take n) &&
      (inner.take n).all fun name => !skipped.contains name

/-- The files below `root`, by their places in it, in the order of loading. -/
def filesBelow (tree : FileTree) (root : Place) (skipped : List Text) : List Place :=
  let inner := tree.items.filterMap fun (place, item) =>
    let inner := place.drop root.length
    if root.isPrefixOf place && !inner.isEmpty && tree.isVisited root skipped inner &&
        tree.isFileLike place item then some inner
    else none
  inner.mergeSort loadsBefore

/-- What the file at a place comes to. -/
def readFile (tree : FileTree) (place : Place) (maxBytes : Int) : FileOutcome :=
  match tree.standsFor place with
  | .error fault => .unreachable fault
  | .ok target =>
    let bytes := (tree.bytes? target).getD []
    if maxBytes < bytes.length then .oversized
    else
      match decodeFile bytes with
      | .error fault => .undecodable fault
      | .ok t => .content t

end FileTree

/-- A snapshot and what was logged while it was loaded. -/
structure LoadedSnapshot where
  files : Snapshot
  log : List LogRecord

/-- What is logged of a file that is passed over. -/
def passedOver? (path shown : Text) : FileOutcome → Option LogRecord
  | .content _ => none
  | .oversized => some ⟨.debug, "Skipping oversized file " ++ path⟩
  | .unreachable fault =>
    some ⟨.debug, "Skipping unreadable file " ++ path ++ ": " ++ fault.message shown⟩
  | .undecodable fault =>
    some ⟨.debug, "Skipping unreadable file " ++ path ++ ": " ++ fault.message⟩

/-- Loads the snapshot of the directory at `root`. -/
def FileTree.loadSnapshot (tree : FileTree) (root : Place) (maxBytes : Int) (skipped : List Text) :
    LoadedSnapshot :=
  let places := (tree.filesBelow root skipped).filter fun inner =>
    Language.ofPath (Text.ofSegments inner) ≠ .unknown
  let outcomes := places.map fun inner =>
    (Text.ofSegments inner, (Place.toPath (root ++ inner)).quoted,
      tree.readFile (root ++ inner) maxBytes)
  let contents := outcomes.filterMap fun (path, _, outcome) =>
    match outcome with
    | .content t => some (path, t)
    | _ => none
  { files := .ofList contents
    log := outcomes.filterMap (fun (path, shown, outcome) => passedOver? path shown outcome) ++
      [⟨.info, "Loaded " ++ natText contents.length ++ " files from " ++ Place.toPath root⟩] }

end DependencyMap
