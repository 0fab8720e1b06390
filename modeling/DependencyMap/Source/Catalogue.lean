import DependencyMap.Pattern.Basic
import DependencyMap.Source.Language
import DependencyMap.Text.Word

/-!
# The catalogue of import and export rules

For each language, the rules that recognise imports on one line, those that recognise a group of
imports anywhere in the text, and those that recognise exported names. Rules are tried in the order
of the catalogue, and every one of them is tried everywhere.
-/

namespace DependencyMap

/-- How the parts that an import rule keeps make up a link. -/
inductive ImportForm
  /-- A default binding or a list of names, or both, or neither. -/
  | bindings
  /-- The whole module under one name. -/
  | wildcard
  /-- A target that is loaded and binds nothing. -/
  | bare
  /-- A target and the names taken from it. -/
  | members
  /-- A target that is bound under its own name. -/
  | whole
  /-- A group of targets, one to a line. -/
  | group
deriving DecidableEq

structure ImportRule where
  form : ImportForm
  rule : Rule

namespace ImportRule

def atLineStart (form : ImportForm) (parts : List Pattern) : ImportRule :=
  ⟨form, ⟨true, .sequence parts⟩⟩

def anywhere (form : ImportForm) (parts : List Pattern) : ImportRule :=
  ⟨form, ⟨false, .sequence parts⟩⟩

end ImportRule

namespace Pattern

def blanks : Pattern := .many CodePoint.isBlank

def blanks1 : Pattern := many1 CodePoint.isBlank

def word1 : Pattern := many1 CodePoint.isWord

def sign (c : Char) : Pattern := .one fun d => d = c

/-- One code point or more, none of them among `stops`. -/
def upTo1 (stops : List Char) : Pattern := many1 fun d => stops.all fun c => d ≠ c

def quote : Pattern := .one fun d => d = '\'' || d = '"'

/-- A target between quotes; the quotes need not be of one kind. -/
def quotedTarget : Pattern := .sequence [quote, .keep .target (upTo1 ['\'', '"']), quote]

/-- The names between braces. -/
def bracedNames : Pattern := .sequence [sign '{', .keep .names (upTo1 ['}']), sign '}']

/-- What may stand between `import` and `from`: a name, names in braces, or both with a comma
between them, which may be missing. -/
def importClause : Pattern :=
  .sequence [
    .optional (.sequence [.keep .binding word1, .optional (.sequence [blanks, sign ',', blanks])]),
    .optional bracedNames]

/-- A name after words that are separated from each other and from it by white space. -/
def declared (words : List Text) (name : Pattern) : Pattern :=
  .sequence ((words.map fun w => .sequence [.text w, blanks1]) ++ [.keep .names name])

/-- A word that begins with a capital of ASCII. -/
def capitalized : Pattern :=
  .sequence [.one (CodePoint.inRanges [(65, 90)]), .many CodePoint.isWord]

end Pattern

open Pattern

/-- Imports from a quoted target that TypeScript and JavaScript share. -/
def moduleImports : List ImportRule := [
  .atLineStart .wildcard
    [.text "import", blanks1, sign '*', blanks1, .text "as", blanks1, .keep .binding word1, blanks1,
      .text "from", blanks, quotedTarget],
  .atLineStart .bare [.text "import", blanks1, quotedTarget],
  .anywhere .bare [.text "import(", quotedTarget, sign ')'],
  .anywhere .bare [.text "require(", quotedTarget, sign ')']]

/-- An exported declaration, introduced by one of the keywords. -/
def declarationExport (keywords : List Text) : Rule :=
  ⟨true, .sequence [.text "export", blanks1, .optional (.sequence [.text "default", blanks1]),
    .optional (.sequence [.text "async", blanks1]), .oneOf keywords, blanks1,
    .keep .names word1]⟩

def listExport : Rule := ⟨true, .sequence [.text "export", blanks1, bracedNames]⟩

def javascriptKeywords : List Text := ["function", "class", "const", "let", "var"]

def typescriptKeywords : List Text :=
  ["function", "class", "const", "let", "var", "interface", "type", "enum"]

namespace Language

/-- The rules for imports that stand on one line. -/
def lineImports : Language → List ImportRule
  | .typescript =>
    .atLineStart .bindings
      [.text "import", blanks1, .optional (.sequence [.text "type", blanks1]), importClause, blanks,
        .text "from", blanks, quotedTarget] :: moduleImports
  | .javascript =>
    .atLineStart .bindings
      [.text "import", blanks1, importClause, blanks, .text "from", blanks, quotedTarget] ::
        moduleImports
  | .python => [
    .atLineStart .members
      [.text "from", blanks1, .keep .target (many1 fun c => c = '.' || c.isWord), blanks1,
        .text "import", blanks1, .keep .names (upTo1 ['\n'])],
    .atLineStart .whole
      [.text "import", blanks1, .keep .target (many1 fun c => c = '.' || c.isWord)]]
  | .go => [
    .anywhere .whole
      [.text "import", blanks1, sign '"', .keep .target (upTo1 ['"']), sign '"']]
  | .rust => [
    .atLineStart .whole [.text "use", blanks1, .keep .target (upTo1 [';']), sign ';'],
    .atLineStart .whole [.text "mod", blanks1, .keep .target word1, sign ';']]
  | .css | .json | .unknown => []

/-- The rules for groups of imports, which may go over several lines. -/
def groupImports : Language → List ImportRule
  | .go => [
    .anywhere .group
      [.text "import", blanks, sign '(', .keep .body (.many fun c => c ≠ ')'), sign ')']]
  | _ => []

/-- The rules for exported names. -/
def exportRules : Language → List Rule
  | .typescript => [declarationExport typescriptKeywords, listExport]
  | .javascript => [declarationExport javascriptKeywords, listExport]
  | .python => [
    ⟨true, .sequence [declared ["def"] word1, blanks, sign '(']⟩,
    ⟨true, declared ["class"] word1⟩,
    ⟨true, .sequence [.keep .names word1, blanks, sign '=']⟩]
  | .go => ["func", "type", "var", "const"].map fun keyword : String =>
    ⟨true, declared [keyword] capitalized⟩
  | .rust => ["fn", "struct", "enum", "trait"].map fun keyword : String =>
    ⟨true, declared ["pub", keyword] word1⟩
  | .css | .json | .unknown => []

end Language

end DependencyMap
