import DependencyMap.Analysis
import DependencyMap.Json.Value

/-!
# Requests and analyses as JSON

An analysis request is an object whose members have fixed types. A missing path or content is empty,
missing or null files mean that there is no snapshot, and an owner or repository that is empty in
any way is empty text. Of several faults the first in the order of `RequestFault` is reported.

An analysis is sent and printed as an object whose members come in a fixed order.
-/

namespace DependencyMap

/-! ### Requests -/

open Json

/-- Why a JSON value is no request. -/
inductive RequestFault
  | notAnObject
  | pathNotText
  | contentNotText
  | filesNotAnObject
  | fileNotText
  | ownerNotText
deriving DecidableEq

namespace RequestFault

def message : RequestFault → Text
  | .notAnObject => "request body must be a JSON object"
  | .pathNotText => "'filePath' must be a string"
  | .contentNotText => "'fileContent' must be a string"
  | .filesNotAnObject => "'repoFiles' must be an object of path -> content"
  | .fileNotText => "'repoFiles' keys and values must be strings"
  | .ownerNotText => "'owner' and 'repo' must be strings"

end RequestFault

/-- A member that has to be text if it is there. -/
def textMember? (members : Members Value) (name : Text) : Option Text :=
  match Members.get? members name with
  | none => some []
  | some (.text t) => some t
  | some _ => none

/-- A member that has to be text unless it is empty in some way. -/
def labelMember? (members : Members Value) (name : Text) : Option Text :=
  match Members.get? members name with
  | none => some []
  | some (.text t) => some t
  | some v => if v.isEmptyLike then some [] else none

/-- The members of an object whose values are all text. -/
def textEntries? (members : Members Value) : Option (List (Text × Text)) :=
  members.mapM fun (name, v) =>
    match v with
    | .text t => some (name, t)
    | _ => none

/-- The snapshot of a request, if its files are given. -/
def snapshotMember (members : Members Value) : Except RequestFault (Option Snapshot) :=
  match Members.get? members "repoFiles" with
  | none | some .null => .ok none
  | some (.object files) =>
    match textEntries? files with
    | some entries => .ok (some (.ofList entries))
    | none => .error .fileNotText
  | some _ => .error .filesNotAnObject

namespace Request

def ofJson (v : Value) : Except RequestFault Request :=
  match v with
  | .object members =>
    match textMember? members "filePath" with
    | none => .error .pathNotText
    | some path =>
      match textMember? members "fileContent" with
      | none => .error .contentNotText
      | some content =>
        match snapshotMember members with
        | .error fault => .error fault
        | .ok files =>
          match labelMember? members "owner", labelMember? members "repo" with
          | some owner, some repository => .ok { path, content, files, owner, repository }
          | _, _ => .error .ownerNotText
  | _ => .error .notAnObject

/-- The object that stands for a request. -/
def toJson (r : Request) : Value :=
  .object [
    ("filePath", .text r.path),
    ("fileContent", .text r.content),
    ("repoFiles", match r.files with
      | none => .null
      | some files => .object (files.entries.map fun (path, content) => (path, .text content))),
    ("owner", .text r.owner),
    ("repo", .text r.repository)]

end Request

/-! ### Analyses -/

namespace ImportKind

def name : ImportKind → Text
  | .default => "default"
  | .named => "named"
  | .wildcard => "namespace"
  | .sideEffect => "sideEffect"

end ImportKind

namespace Link

def toJson (l : Link) : Value :=
  .object [
    ("targetPath", .text l.target),
    ("importType", .text l.kind.name),
    ("importNames", .array (l.names.map .text)),
    ("lineNumber", .integer l.line),
    ("isExternal", .bool l.isExternal)]

end Link

namespace Node

def toJson (n : Node) : Value :=
  .object [
    ("path", .text n.path),
    ("name", .text n.name),
    ("type", .text n.roleName),
    ("importance", .integer n.importance),
    ("dependencies", .array (n.links.map Link.toJson)),
    ("exports", .array (n.exports.map .text)),
    ("language", .text n.language.name)]

end Node

namespace Analysis

def toJson (a : Analysis) : Value :=
  .object [
    ("sourceFile", (Node.file a.source).toJson),
    ("dependencies", .array (a.dependencies.map Node.toJson)),
    ("dependents", .array (a.dependents.map fun n => (Node.file n).toJson)),
    ("totalNodes", .integer a.totalNodes),
    ("totalEdges", .integer a.totalEdges)]

end Analysis

end DependencyMap
