import DependencyMap.Settings
import DependencyMap.Proofs.Text.Utf8

/-!
# What a bad setting costs

Loading is described by one equivalence, `loadWith_eq_ok_iff`: there are settings exactly when the
source yields members and these are `Loadable`, and each setting is then made from its own value
alone (`ofMembers`). A value that is no integer costs its own setting and nothing else, and a file
that is no TOML costs what a missing file costs. Four things cost everything: a file that is not
UTF-8, a misstep in reading it, an infinite number where an integer is needed, and a further
directory without a name. Of the reader nothing is assumed.
-/

namespace DependencyMap

theorem bind_eq_ok_iff {ε α β : Type} {x : Except ε α} {f : α → Except ε β} {b : β} :
    (x >>= f) = .ok b ↔ ∃ a, x = .ok a ∧ f a = .ok b := by
  cases x <;> simp [bind, Except.bind]

def Toml.Value.isNameable : Toml.Value → Bool
  | .moment m => m.isWithinDay
  | v => v.isWritable

namespace Settings

variable {read : Reader} {source : Source} {environment : Environment}
  {members : Members Toml.Value} {s : Settings} {log : List LogRecord}

/-! ## What values are taken for -/

def integerOrDefault (v : Toml.Value) (default : Int) : Int :=
  match convert v with
  | .integer n => n
  | .invalid | .infinite => default

def integerWarnings (v : Toml.Value) (default : Int) (name : Text) : List LogRecord :=
  if convert v = .invalid then
    [warning ("Invalid " ++ name ++ " " ++ v.shown ++ ", using " ++ intText default)]
  else []

theorem integerOr_eq_ok_iff {v : Toml.Value} {default n : Int} {name : Text} :
    integerOr v default name = .ok (n, log) ↔
      convert v ≠ .infinite ∧ n = integerOrDefault v default ∧
        log = integerWarnings v default name := by
  unfold integerOr integerOrDefault integerWarnings
  cases convert v <;> simp [eq_comm]

theorem directoryName_eq_ok_iff {v : Toml.Value} {name : Text} :
    directoryName v = .ok name ↔ v.isNameable ∧ name = v.plain := by
  cases v with
  | moment m =>
    cases h : m.isWithinDay <;>
      simp [directoryName, Toml.Value.isNameable, Toml.Value.plain, h, eq_comm]
  | _ =>
    simp only [directoryName, Toml.Value.isNameable]
    split <;> simp [*, eq_comm]

theorem mapM_directoryName_eq_ok_iff {items : List Toml.Value} {names : List Text} :
    items.mapM directoryName = .ok names ↔
      (∀ v ∈ items, v.isNameable) ∧ names = items.map Toml.Value.plain := by
  induction items generalizing names with
  | nil =>
    constructor
    · intro h
      cases h
      exact ⟨by simp, rfl⟩
    · rintro ⟨-, rfl⟩
      rfl
  | cons v items ih =>
    simp only [List.mapM_cons, bind_eq_ok_iff, directoryName_eq_ok_iff, ih, pure, Except.pure,
      Except.ok.injEq, List.forall_mem_cons, List.map_cons]
    constructor
    · rintro ⟨_, ⟨hv, rfl⟩, _, ⟨hItems, rfl⟩, rfl⟩
      exact ⟨⟨hv, hItems⟩, rfl⟩
    · rintro ⟨⟨hv, hItems⟩, rfl⟩
      exact ⟨_, ⟨hv, rfl⟩, _, ⟨hItems, rfl⟩, rfl⟩

/-! ## The members of a source -/

/-- The members that a source stands for, and what is logged about it. A missing file stands for
none, and so does one that is no TOML; one that is not UTF-8 or makes the reader misstep stands for
nothing at all. -/
inductive Source.Yields (read : Reader) : Source → Members Toml.Value → List LogRecord → Prop
  | absent : Yields read .absent [] []
  | directory : Yields read .directory [] [unreadable]
  | malformed {bytes : Bytes} {t : Text} (hText : Utf8.decode bytes = .ok t)
      (hRead : read t.unifyNewlines = .error .malformed) : Yields read (.file bytes) [] [unreadable]
  | parsed {bytes : Bytes} {t : Text} {members : Members Toml.Value}
      (hText : Utf8.decode bytes = .ok t) (hRead : read t.unifyNewlines = .ok members) :
      Yields read (.file bytes) members []

theorem readSource_eq_ok_iff : readSource read source = .ok (members, log) ↔
    source.Yields read members log := by
  constructor
  · intro h
    cases source with
    | absent => cases h; exact .absent
    | directory => cases h; exact .directory
    | file bytes =>
      simp only [readSource] at h
      split at h
      · cases h
      · next t hText =>
        split at h
        · next hRead => cases h; exact .parsed hText hRead
        · next hRead => cases h; exact .malformed hText hRead
        · cases h
  · rintro (_ | _ | ⟨hText, hRead⟩ | ⟨hText, hRead⟩)
    · rfl
    · rfl
    · simp only [readSource, hText, hRead]
    · simp only [readSource, hText, hRead]

theorem Source.Yields.unique {members' : Members Toml.Value} {log' : List LogRecord}
    (h : source.Yields read members log) (h' : source.Yields read members' log') :
    members' = members ∧ log' = log := by
  rw [← readSource_eq_ok_iff] at h h'
  rw [h] at h'
  cases h'
  exact ⟨rfl, rfl⟩

/-- A source that is not read: there is no file, or one that is text but no TOML. -/
def Source.IsUnread (read : Reader) (source : Source) : Prop :=
  source = .absent ∨ source = .directory ∨
    ∃ bytes t, source = .file bytes ∧ Utf8.decode bytes = .ok t ∧
      read t.unifyNewlines = .error .malformed

theorem Source.IsUnread.exists_yields (h : source.IsUnread read) :
    ∃ log, source.Yields read [] log := by
  obtain rfl | rfl | ⟨bytes, t, rfl, hText, hRead⟩ := h
  · exact ⟨_, .absent⟩
  · exact ⟨_, .directory⟩
  · exact ⟨_, .malformed hText hRead⟩

/-! ## Each setting and its own value -/

def inSection (members : Members Toml.Value) (sectionName name : Text) : Option Toml.Value :=
  (section? members sectionName).1.get? name

def hostValue (members : Members Toml.Value) (environment : Environment) : Toml.Value :=
  choose environment.host (inSection members "server" "host") (.text defaultHost)

def portValue (members : Members Toml.Value) (environment : Environment) : Toml.Value :=
  choose environment.port (inSection members "server" "port") (.integer defaultPort)

def limitValue (members : Members Toml.Value) : Toml.Value :=
  (inSection members "snapshot" "max_file_bytes").getD (.integer defaultMaxFileBytes)

/-- The further directories; what is not a list of them counts as empty. -/
def furtherItems (members : Members Toml.Value) : List Toml.Value :=
  match inSection members "snapshot" "skip_dirs" with
  | some (.array items) => items
  | _ => []

def ofMembers (members : Members Toml.Value) (environment : Environment) : Settings where
  host := hostValue members environment
  port := integerOrDefault (portValue members environment) defaultPort
  maxFileBytes := integerOrDefault (limitValue members) defaultMaxFileBytes
  skippedDirectories :=
    sortedDistinct (alwaysSkipped ++ (furtherItems members).map Toml.Value.plain)

def warnings (members : Members Toml.Value) (environment : Environment) : List LogRecord :=
  (section? members "server").2 ++ (section? members "snapshot").2 ++
    integerWarnings (portValue members environment) defaultPort "port" ++
    integerWarnings (limitValue members) defaultMaxFileBytes "max_file_bytes"

/-- Whether no value costs more than its own setting. -/
structure Loadable (members : Members Toml.Value) (environment : Environment) : Prop where
  port_ne_infinite : convert (portValue members environment) ≠ .infinite
  limit_ne_infinite : convert (limitValue members) ≠ .infinite
  nameable : ∀ v ∈ furtherItems members, v.isNameable

theorem furtherSkipped_eq_ok_iff {names : List Text} :
    furtherSkipped (inSection members "snapshot" "skip_dirs") = .ok names ↔
      (∀ v ∈ furtherItems members, v.isNameable) ∧
        names = (furtherItems members).map Toml.Value.plain := by
  rw [← mapM_directoryName_eq_ok_iff]
  unfold furtherSkipped furtherItems
  cases inSection members "snapshot" "skip_dirs" with
  | none => exact Iff.rfl
  | some v => cases v <;> exact Iff.rfl

theorem loadWith_eq_ok_iff : loadWith read source environment = .ok (s, log) ↔
    ∃ members readLog, source.Yields read members readLog ∧ Loadable members environment ∧
      s = ofMembers members environment ∧ log = readLog ++ warnings members environment := by
  simp only [loadWith, bind_eq_ok_iff, Prod.exists, readSource_eq_ok_iff, integerOr_eq_ok_iff]
  constructor
  · rintro ⟨members, readLog, hYields, _, _, ⟨hPort, rfl, rfl⟩, _, _, ⟨hLimit, rfl, rfl⟩, names,
      hNames, hLoaded⟩
    obtain ⟨hNameable, rfl⟩ := furtherSkipped_eq_ok_iff.mp hNames
    cases hLoaded
    refine ⟨members, readLog, hYields, ⟨hPort, hLimit, hNameable⟩, rfl, ?_⟩
    simp only [warnings, portValue, limitValue, inSection, List.append_assoc]
  · rintro ⟨members, readLog, hYields, ⟨hPort, hLimit, hNameable⟩, rfl, rfl⟩
    refine ⟨members, readLog, hYields, _, _, ⟨hPort, rfl, rfl⟩, _, _, ⟨hLimit, rfl, rfl⟩, _,
      furtherSkipped_eq_ok_iff.mpr ⟨hNameable, rfl⟩, ?_⟩
    simp only [warnings, List.append_assoc]
    rfl

theorem Source.Yields.loadWith_eq_ok_iff {readLog : List LogRecord}
    (h : source.Yields read members readLog) : loadWith read source environment = .ok (s, log) ↔
      Loadable members environment ∧ s = ofMembers members environment ∧
        log = readLog ++ warnings members environment := by
  rw [Settings.loadWith_eq_ok_iff]
  constructor
  · rintro ⟨members', readLog', h', hLoaded⟩
    obtain ⟨rfl, rfl⟩ := h.unique h'
    exact hLoaded
  · exact fun hLoaded => ⟨members, readLog, h, hLoaded⟩

theorem loadable_nil (environment : Environment) : Loadable [] environment where
  port_ne_infinite := by
    -- The port is a text of the environment or the default, and neither is a double.
    obtain ⟨_ | t, _⟩ := environment
    · simp [portValue, choose, inSection, section?, Members.get?, convert]
    · cases h : t.isEmpty <;> cases hInteger : Numeral.integer? t <;>
        simp [portValue, choose, inSection, section?, Members.get?, convert, h, hInteger]
  limit_ne_infinite := by simp [limitValue, inSection, section?, Members.get?, convert]
  nameable := by simp [furtherItems, inSection, section?, Members.get?]

/-- Settings made of two pairs of members and environment are alike wherever the values that they
are made of are. -/
structure Alike (members members' : Members Toml.Value) (environment environment' : Environment)
    (s s' : Settings) : Prop where
  host : hostValue members environment = hostValue members' environment' → s.host = s'.host
  port : portValue members environment = portValue members' environment' → s.port = s'.port
  maxFileBytes : limitValue members = limitValue members' → s.maxFileBytes = s'.maxFileBytes
  skippedDirectories : furtherItems members = furtherItems members' →
    s.skippedDirectories = s'.skippedDirectories

theorem alike_ofMembers (members members' : Members Toml.Value)
    (environment environment' : Environment) :
    Alike members members' environment environment' (ofMembers members environment)
      (ofMembers members' environment') where
  host h := h
  port h := by simp only [ofMembers, h]
  maxFileBytes h := by simp only [ofMembers, h]
  skippedDirectories h := by simp only [ofMembers, h]

theorem mem_sortedDistinct {t : Text} {l : List Text} : t ∈ sortedDistinct l ↔ t ∈ l := by
  rw [sortedDistinct, List.mem_eraseDups, List.mem_mergeSort]

/-- There are settings exactly when the source yields members whose values are loadable. A source
that is not read has the settings of a missing file. Settings are made of the values in the file and
the environment: a port or a limit that is no integer takes its default, the directories that are
always left out are among those left out, and no setting depends on the value of another. -/
theorem load_spares_other_values (read : Reader) (source : Source) (environment : Environment) :
    ((∃ s log, loadWith read source environment = .ok (s, log)) ↔
      ∃ members log, source.Yields read members log ∧ Loadable members environment) ∧
    (source.IsUnread read → ∃ s log log', loadWith read source environment = .ok (s, log) ∧
      loadWith read .absent environment = .ok (s, log')) ∧
    ∀ members readLog s log, source.Yields read members readLog →
      loadWith read source environment = .ok (s, log) →
      s = ofMembers members environment ∧
      (convert (portValue members environment) = .invalid → s.port = defaultPort) ∧
      (convert (limitValue members) = .invalid → s.maxFileBytes = defaultMaxFileBytes) ∧
      alwaysSkipped ⊆ s.skippedDirectories ∧
      ∀ source' members' readLog' environment' s' log', source'.Yields read members' readLog' →
        loadWith read source' environment' = .ok (s', log') →
        Alike members members' environment environment' s s' := by
  refine ⟨?returns, ?unread, ?spares⟩
  case returns =>
    constructor
    · rintro ⟨s, log, hLoad⟩
      obtain ⟨members, readLog, hYields, hLoadable, -⟩ := loadWith_eq_ok_iff.mp hLoad
      exact ⟨members, readLog, hYields, hLoadable⟩
    · rintro ⟨members, readLog, hYields, hLoadable⟩
      exact ⟨_, _, hYields.loadWith_eq_ok_iff.mpr ⟨hLoadable, rfl, rfl⟩⟩
  case unread =>
    intro hUnread
    obtain ⟨readLog, hYields⟩ := hUnread.exists_yields
    have hLoadable := loadable_nil environment
    exact ⟨_, _, _, hYields.loadWith_eq_ok_iff.mpr ⟨hLoadable, rfl, rfl⟩,
      Source.Yields.absent.loadWith_eq_ok_iff.mpr ⟨hLoadable, rfl, rfl⟩⟩
  case spares =>
    intro members readLog s log hYields hLoad
    obtain ⟨-, rfl, -⟩ := hYields.loadWith_eq_ok_iff.mp hLoad
    refine ⟨rfl, fun h => ?_, fun h => ?_, fun t ht => ?_, ?alike⟩
    · simp only [ofMembers, integerOrDefault, h]
    · simp only [ofMembers, integerOrDefault, h]
    · exact mem_sortedDistinct.mpr (List.mem_append_left _ ht)
    case alike =>
      intro source' members' readLog' environment' s' log' hYields' hLoad'
      obtain ⟨-, rfl, -⟩ := hYields'.loadWith_eq_ok_iff.mp hLoad'
      exact alike_ofMembers members members' environment environment'

/-! ## Files that spoil a value, and files that spoil everything -/

def fault? {ε α : Type} : Except ε α → Option ε
  | .error e => some e
  | .ok _ => none

theorem fault?_eq_some_iff {ε α : Type} {x : Except ε α} {e : ε} :
    fault? x = some e ↔ x = .error e := by
  cases x <;> simp [fault?]

theorem fault?_eq_none_iff {ε α : Type} {x : Except ε α} : fault? x = none ↔ ∃ a, x = .ok a := by
  cases x <;> simp [fault?]

/-- What holds of the members that a reading has as its result holds of those that the source
yields. -/
theorem Source.Yields.of_all {P : Members Toml.Value → Prop} [DecidablePred P]
    (h : source.Yields read members log)
    (hAll : (readSource read source).toOption.all (fun r => P r.1)) : P members := by
  rw [readSource_eq_ok_iff.mpr h] at hAll
  simpa [Except.toOption] using hAll

def fileOf (t : Text) : Source := .file (Utf8.encodeLoosely t)

def noEnvironment : Environment := ⟨none, none⟩

def portInWords : Source :=
  fileOf "[server]\nhost = \"h\"\nport = \"http\"\n[snapshot]\nmax_file_bytes = 4096\n"

def notToml : Source := fileOf "[[[ not toml"

theorem load_spares_other_values_portInWords :
    (∃ s log, loadWith Toml.read portInWords noEnvironment = .ok (s, log) ∧
      s.port = 8080 ∧ s.maxFileBytes = 4096 ∧ s.host.plain = "h" ∧
      (".git" : Text) ∈ s.skippedDirectories) ∧
    ∃ s log log', loadWith Toml.read notToml noEnvironment = .ok (s, log) ∧
      loadWith Toml.read .absent noEnvironment = .ok (s, log') := by
  constructor
  · obtain ⟨hReturns, -, hSpares⟩ := load_spares_other_values Toml.read portInWords noEnvironment
    obtain ⟨⟨s, log⟩, hLoad⟩ := fault?_eq_none_iff.mp
      (by decide +kernel : fault? (loadWith Toml.read portInWords noEnvironment) = none)
    obtain ⟨members, readLog, hYields, -⟩ := hReturns.mp ⟨s, log, hLoad⟩
    obtain ⟨hPort, hLimit, hHost⟩ := hYields.of_all
      (P := fun members => convert (portValue members noEnvironment) = .invalid ∧
        convert (limitValue members) = .integer 4096 ∧
        (hostValue members noEnvironment).plain = "h")
      (by decide +kernel)
    obtain ⟨hMade, hDefault, -, hSkipped, -⟩ := hSpares _ _ _ _ hYields hLoad
    refine ⟨s, log, hLoad, hDefault hPort, ?_, ?_, hSkipped (by decide)⟩
    · simp only [hMade, ofMembers, integerOrDefault, hLimit]
    · rw [hMade]
      exact hHost
  · obtain ⟨-, hUnread, -⟩ := load_spares_other_values Toml.read notToml noEnvironment
    have hText : Utf8.decode (Utf8.encodeLoosely "[[[ not toml") = .ok "[[[ not toml" :=
      Utf8.decode_eq_ok_iff.mpr rfl
    exact hUnread (.inr (.inr ⟨_, _, rfl, hText, fault?_eq_some_iff.mp (by decide +kernel)⟩))

/-- A file that is not UTF-8, one with an infinite limit, and one that makes the reader misstep. -/
theorem odd_files_have_no_settings :
    load (.file [0xFF]) noEnvironment =
      .error (.undecodable ⟨.invalidStart, 0xFF, 0, 1⟩) ∧
    load (fileOf "[snapshot]\nmax_file_bytes = -inf\n") noEnvironment = .error .infinite ∧
    load (fileOf "[server]\nport = 1\n[[server]]\n") noEnvironment =
      .error (.misstep (.notGrowing .table)) := by
  refine ⟨fault?_eq_some_iff.mp ?_, fault?_eq_some_iff.mp ?_, fault?_eq_some_iff.mp ?_⟩ <;>
    decide +kernel

end Settings

end DependencyMap
