import DependencyMap.Text.Basic

/-!
# Languages, roles of files, and links

A file's language is read off the ending of its name, and its role off the directories it stands
in and, where these say nothing, its name.

A link is one import as it stands in a file. Its target is the specifier as written until it is
resolved; whether it leaves the repository is decided from the specifier alone, by the rule of the
importing file's language, and stays as it was when the target is resolved.
-/

namespace DependencyMap

inductive Language
  | typescript
  | javascript
  | python
  | go
  | rust
  | css
  | json
  | unknown
deriving DecidableEq

namespace Language

def name : Language → Text
  | .typescript => "typescript"
  | .javascript => "javascript"
  | .python => "python"
  | .go => "go"
  | .rust => "rust"
  | .css => "css"
  | .json => "json"
  | .unknown => "unknown"

/-- The language with the given name; every other name is an unknown language. -/
def ofName (t : Text) : Language :=
  ([.typescript, .javascript, .python, .go, .rust, .css, .json].find? fun l => l.name = t).getD
    .unknown

/-- The language that each ending, after the last dot of a name, stands for. -/
def ofEnding : List (String × Language) := [
  ("ts", .typescript), ("tsx", .typescript),
  ("js", .javascript), ("jsx", .javascript), ("mjs", .javascript),
  ("py", .python), ("go", .go), ("rs", .rust),
  ("css", .css), ("scss", .css), ("sass", .css), ("json", .json)]

/-- The language of a file. Capitals in the ending count as small letters, and a name without a
dot has no ending. -/
def ofPath (path : Text) : Language :=
  match (path.lastSegment.map CodePoint.toLower).splitOn (CodePoint.ofChar '.') with
  | _ :: piece :: pieces =>
    let ending := (piece :: pieces).getLastD []
    ((ofEnding.find? fun entry => (entry.1 : Text) = ending).map (·.2)).getD .unknown
  | _ => .unknown

end Language

/-- What a file is for. -/
inductive Role
  | component
  | utility
  | type
  | api
  | page
  | config
  | style
  | file
deriving DecidableEq

namespace Role

def name : Role → Text
  | .component => "component"
  | .utility => "utility"
  | .type => "type"
  | .api => "api"
  | .page => "page"
  | .config => "config"
  | .style => "style"
  | .file => "file"

/-- The role of a file, by the first rule that holds. Directories come before endings, so a
configuration file among the components is a component. -/
def ofPath (path : Text) : Role :=
  let within (directory : String) : Bool := path.contains directory
  let named (endings : List String) : Bool := endings.any fun e => path.lastSegment.endsWith e
  if within "/components/" then .component
  else if within "/lib/" || within "/utils/" then .utility
  else if within "/types/" then .type
  else if within "/api/" then .api
  else if within "/app/" && named ["page.tsx", "page.ts"] then .page
  else if named [".config.ts", ".config.js", ".json"] then .config
  else if named [".css", ".scss"] then .style
  else .file

end Role

/-! ### Links -/

/-- What an import binds: the default export, a list of names, the whole module under one name, or
nothing at all. -/
inductive ImportKind
  | default
  | named
  | wildcard
  | sideEffect
deriving DecidableEq

structure Link where
  target : Text
  kind : ImportKind
  names : List Text
  line : Nat
  isExternal : Bool
deriving DecidableEq

namespace Link

/-- The same import with its target resolved to `path`. -/
def resolvedTo (l : Link) (path : Text) : Link := { l with target := path }

end Link

/-- Whether a specifier is written without one of the beginnings that stay in the repository: a
dot, or the aliases of the source directory and of the root. -/
def isPackageSpecifier (target : Text) : Bool :=
  !([".", "@/", "~/"].any fun beginning : String => target.startsWith beginning)

/-- Whether a target of an import leaves the repository, by the rule of the language. -/
def Language.isExternal (language : Language) (target : Text) : Bool :=
  match language with
  | .typescript | .javascript => isPackageSpecifier target
  | .python => !target.startsWith "."
  | .go => target.contains "/"
  | .rust => !(["crate::", "self::", "super::"].any fun root : String => target.startsWith root)
  | .css | .json | .unknown => true

end DependencyMap
