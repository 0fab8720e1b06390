import DependencyMap.Text.Utf8
import DependencyMap.Toml.Document

/-!
# Settings

Where the service listens and what a snapshot takes in. The environment comes before the file, and
the file before the defaults. A value that is no integer where one is needed is replaced by the
default, with a warning; a file that cannot be read counts as empty, with a warning. Not mended are
a file that is not UTF-8, a misstep in reading it, an infinite number where an integer is needed,
and the name of a directory that is a moment in a zone a day or more away or has an integer of more
than 4300 digits. Only `load` says how the text of a file is read; the rest takes any reader.
-/

namespace DependencyMap

/-! ### Log records -/

inductive Level
  | debug
  | info
  | warning
deriving DecidableEq

namespace Level

def name : Level → Text
  | .debug => "DEBUG"
  | .info => "INFO"
  | .warning => "WARNING"

end Level

structure LogRecord where
  level : Level
  message : Text
deriving DecidableEq

/-! ### Settings -/

structure Settings where
  host : Toml.Value
  port : Int
  maxFileBytes : Int
  /-- The names of directories that a snapshot leaves out, each once and in order. -/
  skippedDirectories : List Text

namespace Settings

def defaultHost : Text := "127.0.0.1"

def defaultPort : Int := 8080

def defaultMaxFileBytes : Int := 524288

/-- The directories that are always left out. -/
def alwaysSkipped : List Text := [
  ".git", ".hg", ".svn", "node_modules", ".next", ".venv", "venv", "__pycache__", ".tox",
  ".pytest_cache", ".mypy_cache", ".ruff_cache", "build", "dist", "target", "vendor", "coverage",
  ".turbo"]

/-- What stands where the settings file is looked for. -/
inductive Source
  | absent
  | directory
  | file (bytes : Bytes)

/-- The environment, of which only the port and the host count. -/
structure Environment where
  port : Option Text
  host : Option Text

/-- Why there are no settings. -/
inductive Fault
  | undecodable (fault : Utf8.DecodeFault)
  | misstep (m : Toml.Misstep)
  | infinite
  | distantZone
  | longInteger
deriving DecidableEq

/-- The fault in words. -/
def Fault.message : Fault → Text
  | .undecodable fault => fault.message
  | .misstep m => m.message
  | .infinite => "cannot convert float infinity to integer"
  | .distantZone =>
    "offset must be a timedelta strictly between -timedelta(hours=24) and timedelta(hours=24)."
  | .longInteger =>
    "Exceeds the limit (4300 digits) for integer string conversion; " ++
      "use sys.set_int_max_str_digits() to increase the limit"

def warning (message : Text) : LogRecord := ⟨.warning, message⟩

def unreadable : LogRecord := warning "Ignoring unreadable config"

/-- A reader of TOML. -/
abbrev Reader := Text → Except Toml.Fault (Members Toml.Value)

/-- The members of the settings file, and what is logged about it. -/
def readSource (read : Reader) : Source → Except Fault (Members Toml.Value × List LogRecord)
  | .absent => .ok ([], [])
  | .directory => .ok ([], [unreadable])
  | .file bytes =>
    match Utf8.decode bytes with
    | .error fault => .error (.undecodable fault)
    | .ok t =>
      match read t.unifyNewlines with
      | .ok members => .ok (members, [])
      | .error .malformed => .ok ([], [unreadable])
      | .error (.misstep m) => .error (.misstep m)

/-- A section of the file. What is not a table counts as an empty one. -/
def section? (members : Members Toml.Value) (name : Text) : Members Toml.Value × List LogRecord :=
  match members.get? name with
  | none => ([], [])
  | some (.table _ inner) => (inner, [])
  | some _ => ([], [warning ("Ignoring non-table [" ++ name ++ "] in config")])

/-- What a value is as an integer. -/
inductive Conversion
  | integer (n : Int)
  | invalid
  | infinite
deriving DecidableEq

/-- A double loses its fraction, a truth value is one or zero, and a text is read as a numeral. -/
def convert : Toml.Value → Conversion
  | .integer n => .integer n
  | .bool b => .integer (if b then 1 else 0)
  | .text t =>
    match Numeral.integer? t with
    | some n => .integer n
    | none => .invalid
  | .real (.finite negative mantissa exponent) =>
    .integer (Binary64.truncate negative mantissa exponent)
  | .real (.infinite _) => .infinite
  | .real .nan => .invalid
  | .moment _ | .array _ | .table _ _ => .invalid

/-- The integer of a value, or the default with a warning. -/
def integerOr (v : Toml.Value) (default : Int) (name : Text) :
    Except Fault (Int × List LogRecord) :=
  match convert v with
  | .integer n => .ok (n, [])
  | .invalid =>
    .ok (default, [warning ("Invalid " ++ name ++ " " ++ v.shown ++ ", using " ++ intText default)])
  | .infinite => .error .infinite

/-- The first of a preferred text that is not empty, a value that is not empty, and the default. -/
def choose (preferred : Option Text) (value : Option Toml.Value) (default : Toml.Value) :
    Toml.Value :=
  let own : Toml.Value :=
    match value with
    | some v => if v.isEmptyLike then default else v
    | none => default
  match preferred with
  | some t => if t.isEmpty then own else .text t
  | none => own

/-- The name of a directory that a value stands for. -/
def directoryName (v : Toml.Value) : Except Fault Text :=
  match v with
  | .moment m => if m.isWithinDay then .ok m.plain else .error .distantZone
  | v => if v.isWritable then .ok v.plain else .error .longInteger

/-- Further directories to leave out. -/
def furtherSkipped : Option Toml.Value → Except Fault (List Text)
  | some (.array items) => items.mapM directoryName
  | _ => .ok []

/-- Texts in order, each once. -/
def sortedDistinct (l : List Text) : List Text :=
  (l.mergeSort fun a b => decide (a ≤ b)).eraseDups

/-- The settings that a source and an environment make, and what is logged about them. -/
def loadWith (read : Reader) (source : Source) (environment : Environment) :
    Except Fault (Settings × List LogRecord) := do
  let (members, readLog) ← readSource read source
  let (server, serverLog) := section? members "server"
  let (snapshot, snapshotLog) := section? members "snapshot"
  let (port, portLog) ← integerOr
    (choose environment.port (server.get? "port") (.integer defaultPort)) defaultPort "port"
  let (maxFileBytes, limitLog) ← integerOr
    ((snapshot.get? "max_file_bytes").getD (.integer defaultMaxFileBytes)) defaultMaxFileBytes
    "max_file_bytes"
  let further ← furtherSkipped (snapshot.get? "skip_dirs")
  let settings : Settings :=
    { host := choose environment.host (server.get? "host") (.text defaultHost)
      port, maxFileBytes
      skippedDirectories := sortedDistinct (alwaysSkipped ++ further) }
  .ok (settings, readLog ++ serverLog ++ snapshotLog ++ portLog ++ limitLog)

def load (source : Source) (environment : Environment) :
    Except Fault (Settings × List LogRecord) :=
  loadWith Toml.read source environment

/-- The settings without a file and an environment. -/
def default : Settings :=
  ⟨.text defaultHost, defaultPort, defaultMaxFileBytes, sortedDistinct alwaysSkipped⟩

end Settings

end DependencyMap
