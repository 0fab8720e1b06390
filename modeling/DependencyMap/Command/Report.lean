import DependencyMap.Number.Numeral
import DependencyMap.Wire

/-!
# Reports

What the command line shows of an analysis: a panel about the file, a table of its imports if it has
any, and tables of its dependencies and dependents, which are cut to a number of rows.
-/

namespace DependencyMap

namespace Command

/-- Something that is shown. Words in square brackets in a text set its style. -/
inductive Shown
  | text (t : Text)
  | panel (title content : Text)
  | table (title : Text) (columns : List Text) (rows : List (List Text))
deriving DecidableEq

def joinLines (lines : List Text) : Text := (Text.ofString "\n").intercalate lines

/-- What is shown where neither boxes nor columns can be drawn: a title comes before its content,
and cells are divided by tabs. -/
def Shown.plain : Shown → Text
  | .text t => t
  | .panel title content => joinLines [title, content]
  | .table title columns rows =>
    joinLines (title :: (columns :: rows).map fun cells => (Text.ofString "\t").intercalate cells)

def sourcePanel (a : Analysis) : Shown :=
  let source := a.source
  .panel source.path (joinLines [
    "[bold]" ++ source.name ++ "[/bold]  (" ++ source.role.name ++ ", " ++ source.language.name ++
      ")",
    "Importance: " ++ intText source.importance,
    "Exports: " ++ (if source.exports.isEmpty then Text.ofString "—" else .listed source.exports),
    "Nodes: " ++ natText a.totalNodes ++ " | Edges: " ++ natText a.totalEdges])

def importRow (l : Link) : List Text :=
  [natText l.line, l.kind.name, l.target, .listed l.names, if l.isExternal then "yes" else ""]

def importTable (links : List Link) : Shown :=
  .table "Imports" ["Line", "Kind", "Target", "Names", "External"] (links.map importRow)

def nodeRow (n : Node) : List Text :=
  [intText n.importance, n.path, n.roleName, n.language.name, natText n.exports.length]

def nodeTable (title : Text) (nodes : List Node) (limit : Nat) : Shown :=
  .table title ["Importance", "Path", "Type", "Language", "Exports"]
    ((nodes.take limit).map nodeRow)

/-- The report on an analysis, with at most `limit` rows in each table of nodes. -/
def report (a : Analysis) (limit : Nat) : List Shown :=
  [sourcePanel a] ++ (if a.source.links.isEmpty then [] else [importTable a.source.links]) ++
    [nodeTable "Dependencies" a.dependencies limit,
      nodeTable "Dependents" (a.dependents.map Node.file) limit]

end Command

end DependencyMap
