import DependencyMap.Source.Extraction

/-!
# Import statements and how they are printed

The import statements of JavaScript and TypeScript as data: what they bind, the target, the marks
around it and whether a semicolon follows. `ImportStatement.text` prints one on a line of its own,
and `ImportStatement.link` is the link that it stands for. A source text is a list of lines, each of
which is such a statement or mentions no import at all.
-/

namespace DependencyMap

structure Word where
  text : Text
  ne_nil : text ≠ []
  isWord : ∀ c ∈ text, c.isWord

inductive ImportedName
  | plain (name : Word)
  | renamed (name binding : Word)

namespace ImportedName

def text : ImportedName → Text
  | .plain name => name.text
  | .renamed name binding => name.text ++ " as " ++ binding.text

def listText : ImportedName → List ImportedName → Text
  | n, [] => n.text
  | n, m :: ns => n.text ++ ", " ++ listText m ns

/-- The list with a space on either side, as it stands between braces. -/
def innerText (n : ImportedName) (ns : List ImportedName) : Text :=
  (" " : Text) ++ (listText n ns ++ " ")

def bracedText (n : ImportedName) (ns : List ImportedName) : Text :=
  CodePoint.ofChar '{' :: (innerText n ns ++ [CodePoint.ofChar '}'])

end ImportedName

inductive ImportBinding
  | default (name : Word)
  | named (first : ImportedName) (others : List ImportedName)
  | both (name : Word) (first : ImportedName) (others : List ImportedName)

namespace ImportBinding

def text : ImportBinding → Text
  | .default name => name.text
  | .named first others => ImportedName.bracedText first others
  | .both name first others => name.text ++ ", " ++ ImportedName.bracedText first others

/-- Names in braces are all that a link lists, also beside a default export. -/
def described : ImportBinding → ImportKind × List Text
  | .default name => (.default, [name.text])
  | .named first others => (.named, (first :: others).map ImportedName.text)
  | .both _ first others => (.named, (first :: others).map ImportedName.text)

end ImportBinding

inductive ImportHead
  | bindings (typeOnly : Bool) (binding : ImportBinding)
  | wildcard (name : Word)
  | bare

namespace ImportHead

def text : ImportHead → Text
  | .bindings true binding => "type " ++ binding.text ++ " from "
  | .bindings false binding => binding.text ++ " from "
  | .wildcard name => "* as " ++ name.text ++ " from "
  | .bare => []

def described : ImportHead → ImportKind × List Text
  | .bindings _ binding => binding.described
  | .wildcard name => (.wildcard, [name.text])
  | .bare => (.sideEffect, [])

/-- Whether the language has statements of this form. Only TypeScript has imports of types, and
there a default export that is called `type` cannot be told from them. -/
def AllowedIn (language : Language) : ImportHead → Prop
  | .bindings true _ => language = .typescript
  | .bindings false (.default name) => language = .typescript → name.text ≠ "type"
  | _ => True

end ImportHead

inductive QuotationMark
  | single
  | double

def QuotationMark.sign : QuotationMark → CodePoint
  | .single => '\''
  | .double => '"'

/-- What may stand between quotation marks on one line. -/
structure ImportTarget where
  text : Text
  ne_nil : text ≠ []
  noMark : ∀ mark : QuotationMark, mark.sign ∉ text
  noBreak : CodePoint.ofChar '\n' ∉ text

structure ImportStatement where
  head : ImportHead
  target : ImportTarget
  mark : QuotationMark
  terminated : Bool

namespace ImportStatement

def ending (s : ImportStatement) : Text := if s.terminated then ";" else []

def text (s : ImportStatement) : Text :=
  "import " ++ s.head.text ++ s.mark.sign :: (s.target.text ++ s.mark.sign :: s.ending)

def link (s : ImportStatement) (line : Nat) : Link where
  target := s.target.text
  kind := s.head.described.1
  names := s.head.described.2
  line := line
  isExternal := ∀ beginning ∈ [".", "@/", "~/"], ¬ (beginning : Text) <+: s.target.text

end ImportStatement

inductive ImportLine
  | noise (t : Text) (noBreak : CodePoint.ofChar '\n' ∉ t) (noImport : ¬ ("import" : Text) <:+: t)
      (noRequire : ¬ ("require(" : Text) <:+: t)
  | statement (s : ImportStatement)

namespace ImportLine

def text : ImportLine → Text
  | .noise t _ _ _ => t
  | .statement s => s.text

def AllowedIn (language : Language) : ImportLine → Prop
  | .noise _ _ _ _ => True
  | .statement s => s.head.AllowedIn language

def sourceText (lines : List ImportLine) : Text :=
  [CodePoint.ofChar '\n'].intercalate (lines.map text)

def links : (line : Nat) → List ImportLine → List Link
  | _, [] => []
  | line, .noise _ _ _ _ :: lines => links (line + 1) lines
  | line, .statement s :: lines => s.link line :: links (line + 1) lines

end ImportLine

end DependencyMap
