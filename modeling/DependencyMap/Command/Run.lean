import DependencyMap.Command.Options
import DependencyMap.Command.Report
import DependencyMap.FileTree.Loading
import DependencyMap.Http.Service
import DependencyMap.Json.Value
import DependencyMap.Number.Lenient
import DependencyMap.Settings

/-!
# The command line

Two commands: `analyze` reports on one file of a repository, and `serve` runs the service. Options
of the program itself come before the command. Faults in how options are written come first, then
those of their values, then those of the arguments in order, then superfluous arguments.
-/

namespace DependencyMap

namespace Command

/-- Why a command is not carried out. -/
inductive Fault
  | noArguments
  | options (fault : OptionFault)
  | noCommand
  | unknownCommand
  | missingArgument
  | superfluousArgument
  /-- A value that is no integer, or too small. -/
  | badNumber
  /-- A repository that is no directory. -/
  | badRepository
  /-- A path that is no file strictly inside the repository at the given place. -/
  | notInside (path : Text) (root : Place)
  /-- A file that is not UTF-8. -/
  | undecodable (path : Text) (fault : Utf8.DecodeFault)
  /-- A path that cannot be resolved. -/
  | unresolved (fault : ResolveFault)
  /-- A place with a name that is too long, or with a path that is. -/
  | nameTooLong (place : Place)
deriving DecidableEq

namespace Fault

/-- The fault in words, where it has some of its own. -/
def message? : Fault → Option Text
  | .notInside path root =>
    some ("Invalid value: '" ++ path ++ "' is not a file inside " ++ root.toPath ++ ".")
  | .undecodable path fault =>
    some ("Invalid value: Cannot read '" ++ path ++ "': " ++ fault.message)
  | .unresolved (.linkLoop place) => some ("Symlink loop from " ++ place.toPath.quoted)
  | .nameTooLong place => some (PathFault.nameTooLong.message place.toPath.quoted)
  | _ => none

/-- Whether a fault is told to the user as one of what was asked for. The others end the program. -/
def isUsage : Fault → Bool
  | .unresolved _ | .nameTooLong _ => false
  | _ => true

end Fault

/-- Where the service is started. -/
structure Serving where
  host : Text
  port : Int
deriving DecidableEq

/-- What a command writes, what it shows, and where it starts the service. -/
structure Output where
  written : Text
  shown : List Shown
  served : Option Serving

/-- What a command works with: the files, the place where it is run, how many links may lead through
one another when a path is resolved, and the settings. -/
structure Surroundings where
  tree : FileTree
  workingPlace : Place
  linkRoom : Nat
  /-- There is room for all links on the way to what can be reached. -/
  maxLinks_le : FileTree.maxLinks ≤ linkRoom
  settings : Settings

def versionText : Text := "bridge-analyzer v0.1.0\n"

/-- What is said of a fault that has no words of its own. -/
def usage : Text :=
  "Usage: bridge [-V] [-v] analyze REPO FILE [--json] [--no-snapshot] [-n ROWS]\n" ++
  Text.ofString "       bridge [-V] [-v] serve [--host HOST] [-p PORT]"

def helpRule : OptionRule := ⟨"help", none, false⟩

def programRules : List OptionRule := [
  ⟨"version", some 'V', false⟩, ⟨"verbose", some 'v', false⟩, helpRule]

def analyzeRules : List OptionRule := [
  ⟨"no-snapshot", none, false⟩, ⟨"json", none, false⟩, ⟨"limit", some 'n', true⟩, helpRule]

def serveRules : List OptionRule := [
  ⟨"host", none, true⟩, ⟨"port", some 'p', true⟩, helpRule]

def split (rules : List OptionRule) (mixed : Bool) (words : List Text) : Except Fault Words :=
  (splitWords rules mixed words).mapError .options

/-- The integer value of an option, or the default if it is not given. -/
def integerOption (w : Words) (name : Text) (default : Int) : Except Fault Int :=
  match w.value? name with
  | none => .ok default
  | some t =>
    match Lenient.integer? t with
    | some n => .ok n
    | none => .error .badNumber

def nothing : Output := ⟨[], [], none⟩

/-! ## Analyzing -/

/-- What `analyze` is asked to do. -/
structure AnalyzeOrder where
  repository : Text
  path : Text
  withSnapshot : Bool
  asJson : Bool
  limit : Nat

/-- Whether a path leads to a directory. -/
def leadsToDirectory (s : Surroundings) (path : Text) : Bool :=
  match s.tree.reach s.workingPlace path with
  | .ok place => s.tree.isDirectory place
  | .error _ => false

def readAnalyzeOrder (s : Surroundings) (w : Words) : Except Fault AnalyzeOrder := do
  let limit ← integerOption w "limit" 20
  if limit < 1 then .error .badNumber
  else
    match w.arguments with
    | [] => .error .missingArgument
    | repository :: others =>
      if !leadsToDirectory s repository then .error .badRepository
      else
        match others with
        | [] => .error .missingArgument
        | path :: others =>
          if !others.isEmpty then .error .superfluousArgument
          else .ok ⟨repository, path, !w.has "no-snapshot", w.has "json", limit.toNat⟩

def resolve (s : Surroundings) (base : Place) (path : Text) : Except Fault Place :=
  (s.tree.resolve s.linkRoom base path).mapError .unresolved

/-- The place of the file that `path` names in the repository at `root`, and the bytes that are
found there. -/
def targetFile (s : Surroundings) (root : Place) (path : Text) : Except Fault (Place × Bytes) := do
  let target ← resolve s root path
  match s.tree.reach [] target.toPath with
  | .error .nameTooLong => .error (.nameTooLong target)
  | .error _ => .error (.notInside path root)
  | .ok place =>
    match s.tree.bytes? place with
    | none => .error (.notInside path root)
    | some bytes =>
      if target.isBelow root then .ok (target, bytes) else .error (.notInside path root)

/-- The request to analyze the file that an order names. -/
def analysisRequest (s : Surroundings) (order : AnalyzeOrder) : Except Fault Request := do
  let root ← resolve s s.workingPlace order.repository
  let (target, bytes) ← targetFile s root order.path
  match decodeFile bytes with
  | .error fault => .error (.undecodable order.path fault)
  | .ok content =>
    let files := if order.withSnapshot then
        some (s.tree.loadSnapshot root s.settings.maxFileBytes
          s.settings.skippedDirectories).files
      else none
    .ok {
      path := Text.ofSegments (target.drop root.length)
      content, files
      owner := []
      repository := root.getLastD [] }

/-- What is written of an analysis that is asked for as JSON. -/
def writtenJson (a : Analysis) : Text := a.toJson.toIndented ++ "\n"

def analyze (s : Surroundings) (w : Words) : Except Fault Output := do
  let order ← readAnalyzeOrder s w
  let request ← analysisRequest s order
  let analysis := request.analyze
  if order.asJson then .ok { nothing with written := writtenJson analysis }
  else .ok { nothing with shown := report analysis order.limit }

/-! ## Serving -/

def serviceTexts (serving : Serving) : List Shown := [
  .text "\n[bold green]🔗 Bridge analyzer[/bold green]",
  .text ("   Endpoint: http://" ++ serving.host ++ ":" ++ intText serving.port ++
    Http.Endpoint.path .analyze),
  .text "\n   [dim]Press Ctrl+C to stop the server[/dim]\n",
  .text "\n[dim]Server stopped.[/dim]"]

def serve (s : Surroundings) (w : Words) : Except Fault Output := do
  let port ← integerOption w "port" s.settings.port
  if !w.arguments.isEmpty then .error .superfluousArgument
  else
    let serving : Serving := ⟨(w.value? "host").getD s.settings.host.plain, port⟩
    .ok { nothing with shown := serviceTexts serving, served := some serving }

/-! ## The program -/

def runCommand (s : Surroundings) (rules : List OptionRule) (words : List Text)
    (act : Surroundings → Words → Except Fault Output) : Except Fault Output := do
  let w ← split rules true words
  if w.has "help" then .ok nothing else act s w

/-- Reads the words of the program itself. Where the version or help is asked for, the first of
these is all there is to do; otherwise it goes on with the arguments. -/
def withArguments (words : List Text) (next : List Text → Except Fault Output) :
    Except Fault Output := do
  let w ← split programRules false words
  match w.options.find? fun g => (["version", "help"] : List Text).contains g.name with
  | some g =>
    .ok { nothing with written := if g.name = Text.ofString "version" then versionText else [] }
  | none => next w.arguments

/-- Carries out a command line. The words that begin with an unknown command are read as words of
the program once more, because two hyphens in front may have kept options from being seen. -/
def run (s : Surroundings) (words : List Text) : Except Fault Output :=
  if words.isEmpty then .error .noArguments
  else
    withArguments words fun arguments =>
      match arguments with
      | [] => .error .noCommand
      | command :: rest =>
        if command = "analyze" then runCommand s analyzeRules rest analyze
        else if command = "serve" then runCommand s serveRules rest serve
        else withArguments arguments fun _ => .error .unknownCommand

end Command

end DependencyMap
