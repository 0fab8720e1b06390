import DependencyMap.PathMap
import DependencyMap.Source.Language

/-!
# Resolving specifiers

A package specifier names nothing in the repository and is left as it is. Any other specifier is
put together with the directory of the importing file, cleaned of doubled slashes, and looked up in
the snapshot: as it is, then with each file extension, then as a directory with an index file.
-/

namespace DependencyMap

inductive Resolution
  /-- A package, outside the repository. -/
  | package (specifier : Text)
  /-- A file of the snapshot. -/
  | confirmed (path : Text)
  /-- A path of the repository at which the snapshot has no file. -/
  | unconfirmed (path : Text)
deriving DecidableEq

namespace Resolution

def path : Resolution → Text
  | .package specifier => specifier
  | .confirmed path => path
  | .unconfirmed path => path

def isExternal : Resolution → Bool
  | .package _ => true
  | _ => false

def isConfirmed : Resolution → Bool
  | .confirmed _ => true
  | _ => false

end Resolution

/-- What is tried after a path, in this order. -/
def probeEndings : List Text :=
  ["", ".ts", ".tsx", ".js", ".jsx", "/index.ts", "/index.tsx", "/index.js", "/index.jsx"]

/-- The specifier with the alias of the source directory written out. -/
def expandAlias (target : Text) : Text :=
  if target.startsWith "@/" then "src/" ++ target.drop 2 else target

/-- A relative specifier seen from a directory. One that climbs above the root gives nothing; one
that is not relative is left as it is. -/
def joinRelative (directory target : Text) : Text :=
  if target.startsWith "./" then directory ++ "/" ++ target.drop 2
  else if target.startsWith "../" then
    let steps := target.segments
    let climbs := (steps.takeWhile fun step : Text => step = "..").length
    let directories := directory.segments
    if climbs > directories.length then []
    else Text.ofSegments (directories.take (directories.length - climbs)) ++ "/" ++
      Text.ofSegments (steps.drop climbs)
  else target

/-- Writes one slash for each pair of slashes, from left to right. -/
def halveSlashes : Text → Text
  | [] => []
  | [c] => [c]
  | c :: d :: rest =>
    if c = '/' ∧ d = '/' then '/' :: halveSlashes rest else c :: halveSlashes (d :: rest)

def dropLeadingSlash : Text → Text
  | [] => []
  | c :: rest => if c = '/' then rest else c :: rest

def cleanPath (path : Text) : Text := dropLeadingSlash (halveSlashes path)

/-- The path that a specifier stands for, before the snapshot is asked. -/
def probedPath (source target : Text) : Text :=
  cleanPath (joinRelative source.beforeLastSlash (expandAlias target))

/-- Resolves a specifier in the file at `source`. -/
def resolve (source target : Text) (files : Snapshot) : Resolution :=
  if isPackageSpecifier target then .package target
  else
    let path := probedPath source target
    match (probeEndings.map fun ending => path ++ ending).find? files.contains with
    | some candidate => .confirmed candidate
    | none => .unconfirmed path

end DependencyMap
