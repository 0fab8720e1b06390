import DependencyMap.Command.Run

/-!
The command line program. Reads the settings, and of the files what the words of the command line
lead to; then carries the command out and prints what it comes to. A link is read with the place it
stands for, so that one that stands for none is not seen.
-/

namespace DependencyMap

namespace Program

/-- The names on the way to an absolute path. -/
def placeOf (path : String) : Place :=
  (Text.ofString path).segments.filter fun name => !name.isEmpty

/-- Adds what stands at a place to the tree, and finds the place it stands for. -/
def readItem (tree : FileTree) (place : Place) : IO (FileTree × Place) := do
  try
    let path ← IO.FS.realPath place.toPath.toString
    let target := placeOf path.toString
    let item ← if ← path.isDir then pure Item.directory
      else pure (Item.file (← IO.FS.readBinFile path).toList)
    let tree := if target = place then tree else tree.add place (.link target.toPath)
    return (tree.add target item, target)
  catch _ => return (tree, place)

/-- Adds what stands on the way of a path from a place, and finds where it ends. -/
def readWay (tree : FileTree) (base : Place) (path : Text) : IO (FileTree × Place) := do
  let mut state := (tree, pathStart base path)
  for name in path.segments do
    if name = Text.ofString ".." then state := (state.1, state.2.dropLast)
    else if name ≠ [] ∧ name ≠ Text.ofString "." then
      state ← readItem state.1 (state.2 ++ [name])
  return state

/-- Adds what stands below a directory, except below directories that are skipped. -/
def readBelow (skipped : List Text) : (depth : Nat) → FileTree → Place → IO FileTree
  | 0, tree, _ => return tree
  | depth + 1, tree, place => do
    let mut tree := tree
    for entry in ← (← IO.FS.realPath place.toPath.toString).readDir do
      let name := Text.ofString entry.fileName
      let inner := place ++ [name]
      tree := (← readItem tree inner).1
      if tree.isDirectory inner && !skipped.contains name then
        tree ← readBelow skipped depth tree inner
    return tree

/-- No path that a file system knows passes through more directories. -/
def maxDepth : Nat := 4096

/-- The files that the words of a command line lead to. -/
def readWords (skipped : List Text) (base : Place) (words : List Text) : IO FileTree := do
  let mut tree := FileTree.empty.add base .directory
  for word in words do
    let (read, place) ← readWay tree base word
    tree := read
    if tree.isDirectory place then
      tree ← readBelow skipped maxDepth tree place
      for path in words do
        tree := (← readWay tree place path).1
  return tree

/-- What stands where the settings file is looked for. -/
def readSource : IO Settings.Source := do
  let home ← match ← IO.getEnv "BRIDGE_HOME" with
    | some home => pure home
    | none => pure (((← IO.getEnv "HOME").getD "") ++ "/.bridge-analyzer")
  let (tree, place) ← readItem .empty (placeOf (home ++ "/config.toml"))
  return match tree.item? place with
    | some (.file bytes) => .file bytes
    | some .directory => .directory
    | _ => .absent

def readSettings : IO (Except Settings.Fault (Settings × List LogRecord)) := do
  let environment : Settings.Environment :=
    ⟨(← IO.getEnv "PORT").map Text.ofString, (← IO.getEnv "BRIDGE_HOST").map Text.ofString⟩
  return Settings.load (← readSource) environment

end Program

end DependencyMap

open DependencyMap

def main (args : List String) : IO UInt32 := do
  match ← Program.readSettings with
  | .error fault =>
    IO.eprintln fault.message.toString
    return 1
  | .ok (settings, log) =>
    for record in log do
      IO.eprintln record.message.toString
    let words := args.map Text.ofString
    let here := Program.placeOf (← IO.currentDir).toString
    let tree ← Program.readWords settings.skippedDirectories here words
    match Command.run ⟨tree, here, FileTree.maxLinks, Nat.le_refl _, settings⟩ words with
    | .error fault =>
      IO.eprintln (fault.message?.getD Command.usage).toString
      return if fault.isUsage then 2 else 1
    | .ok output =>
      IO.print output.written.toString
      for shown in output.shown do
        IO.println shown.plain.toString
      return 0
