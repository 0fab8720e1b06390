import DependencyMap.Source.Extraction

/-!
# Go source texts and how they are printed

The imports of a Go source text as data: a single import of a path, or a group, which has one entry
to a line and may also hold lines that are blank or comments. `GoPart.sourceText` prints the parts
of a text one below the other, and `GoPart.links` lists the links that they stand for. Of a group
only the last path is linked, at the line where the group begins.
-/

namespace DependencyMap

structure Indentation where
  text : Text
  isBlank : ∀ c ∈ text, c.isBlank
  noBreak : CodePoint.ofChar '\n' ∉ text

/-- What may stand between the marks of an import. -/
structure GoPath where
  text : Text
  ne_nil : text ≠ []
  noMark : CodePoint.ofChar '"' ∉ text
  noOpening : CodePoint.ofChar '(' ∉ text
  noClosing : CodePoint.ofChar ')' ∉ text
  noBreak : CodePoint.ofChar '\n' ∉ text

namespace GoPath

def quoted (p : GoPath) : Text := CodePoint.ofChar '"' :: (p.text ++ [CodePoint.ofChar '"'])

end GoPath

inductive GroupLine
  | blank (indentation : Indentation)
  | comment (indentation : Indentation) (t : Text) (noBreak : CodePoint.ofChar '\n' ∉ t)
      (noClosing : CodePoint.ofChar ')' ∉ t) (noImport : ¬ ("import" : Text) <:+: t)
  | path (indentation : Indentation) (p : GoPath) (notComment : ¬ ("//" : Text) <+: p.text)

namespace GroupLine

def text : GroupLine → Text
  | .blank indentation => indentation.text
  | .comment indentation t _ _ _ => indentation.text ++ (("//" : Text) ++ t)
  | .path indentation p _ => indentation.text ++ p.quoted

def path? : GroupLine → Option Text
  | .path _ p _ => some p.text
  | _ => none

def bodyText (lines : List GroupLine) : Text :=
  CodePoint.ofChar '\n' :: lines.flatMap fun l => l.text ++ [CodePoint.ofChar '\n']

end GroupLine

/-- A part of a source text: an import, a group of imports, or a line in which nothing is
imported. -/
inductive GoPart
  | noise (t : Text) (noBreak : CodePoint.ofChar '\n' ∉ t) (noImport : ¬ ("import" : Text) <:+: t)
  | single (p : GoPath)
  | group (lines : List GroupLine)

namespace GoPart

def text : GoPart → Text
  | .noise t _ _ => t
  | .single p => ("import " : Text) ++ p.quoted
  | .group lines => ("import (" : Text) ++ (GroupLine.bodyText lines ++ [CodePoint.ofChar ')'])

def height : GoPart → Nat
  | .group lines => lines.length + 2
  | _ => 1

def target? : GoPart → Option Text
  | .noise _ _ _ => none
  | .single p => some p.text
  | .group lines => (lines.filterMap GroupLine.path?).getLast?

def link? (part : GoPart) (line : Nat) : Option Link :=
  part.target?.map fun target =>
    { target, kind := .default, names := [], line, isExternal := CodePoint.ofChar '/' ∈ target }

def sourceText (parts : List GoPart) : Text :=
  [CodePoint.ofChar '\n'].intercalate (parts.map text)

def links : (line : Nat) → List GoPart → List Link
  | _, [] => []
  | line, part :: parts => (part.link? line).toList ++ links (line + part.height) parts

end GoPart

end DependencyMap
