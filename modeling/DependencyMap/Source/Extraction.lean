import DependencyMap.Source.Catalogue
import DependencyMap.Source.Language

/-!
# Extracting imports and exports

The imports of a text come line by line: on each line first the groups that begin there and then
the matches of the line rules, rule by rule and from left to right. The exports come rule by rule,
and a name is listed only where it occurs first.
-/

namespace DependencyMap

/-- The nonempty names between commas, without white space around them. -/
def splitNames (t : Text) : List Text :=
  ((t.splitOn (CodePoint.ofChar ',')).map Text.strip).filter fun name => !name.isEmpty

/-- The entry on a line of a group, without white space and quotes around it. -/
def groupEntry (line : Text) : Text := line.strip.stripWhere fun c => c = '"'

/-- The last entry of a group that is neither empty nor a comment. -/
def lastGroupEntry? (body : Text) : Option Text :=
  (((body.splitOn (CodePoint.ofChar '\n')).map groupEntry).filter fun entry =>
    !entry.isEmpty && !entry.startsWith "//").getLast?

/-- The lines of a text. A carriage return stays in its line. -/
def sourceLines (content : Text) : List Text := content.splitOn (CodePoint.ofChar '\n')

namespace ImportForm

/-- The kind, names and target of an import, from the parts that were kept. -/
def describe? (form : ImportForm) (m : Match) : Option (ImportKind × List Text × Text) :=
  let target? := m.part? .target
  match form with
  | .bindings =>
    match m.part? .names, m.part? .binding with
    | some names, _ => target?.map (.named, splitNames names, ·)
    | none, some name => target?.map (.default, [name], ·)
    | none, none => target?.map (.sideEffect, [], ·)
  | .wildcard => target?.map (.wildcard, (m.part? .binding).toList, ·)
  | .bare => target?.map (.sideEffect, [], ·)
  | .members => target?.map (.named, splitNames ((m.part? .names).getD []), ·)
  | .whole => target?.map (.default, [], ·)
  | .group => ((m.part? .body).bind lastGroupEntry?).map (.default, [], ·)

end ImportForm

namespace Language

/-- The link of a match on the given line. -/
def link? (language : Language) (form : ImportForm) (line : Nat) (m : Match) : Option Link :=
  (form.describe? m).map fun (kind, names, target) =>
    { target, kind, names, line, isExternal := language.isExternal target }

/-- The links that the line rules find on one line. -/
def linksOnLine (language : Language) (line : Nat) (t : Text) : List Link :=
  language.lineImports.flatMap fun r => (r.rule.matchesIn t).filterMap (language.link? r.form line)

/-- The links that the group rules find, each at the line where its group begins. -/
def groupLinks (language : Language) (content : Text) : List Link :=
  language.groupImports.flatMap fun r =>
    (r.rule.matchesIn content).filterMap fun m => language.link? r.form (m.line content) m

/-- Every import of a text, in the order of its lines. -/
def importsOf (language : Language) (content : Text) : List Link :=
  let groups := language.groupLinks content
  ((sourceLines content).zipIdx 1).flatMap fun (t, line) =>
    (groups.filter fun l => l.line = line) ++ language.linksOnLine line t

/-- The names that the export rules find, with repetitions. -/
def exportOccurrences (language : Language) (content : Text) : List Text :=
  language.exportRules.flatMap fun rule =>
    (rule.matchesIn content).flatMap fun m => splitNames ((m.part? .names).getD [])

/-- Every exported name, at its first place. -/
def exportsOf (language : Language) (content : Text) : List Text :=
  (language.exportOccurrences content).eraseDups

end Language

end DependencyMap
