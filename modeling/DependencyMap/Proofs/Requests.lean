import DependencyMap.Proofs.Payload

/-!
# Which values are requests

`Request.IsReadFrom` says of each member of an object what it is read as; reading an object gives
just the request of which this holds (`Request.ofJson_eq_ok_iff`), and there is one when the members
that are given have the types that are read (`Request.exists_isReadFrom_iff`). For an owner and a
repository this is more than text and null (`IsLabel`): false, zero and whatever is empty will do
(`PassesForLabel`), so that a number passes for an owner (`zero_passes_for_owner`).
-/

namespace DependencyMap

open Json

variable {members : Members Value} {name t : Text} {v : Value} {r : Request}

/-! ### Single members -/

/-- What a member that has to be text is read as. -/
inductive ReadsText : Option Value → Text → Prop
  | absent : ReadsText none []
  | text {t : Text} : ReadsText (some (.text t)) t

/-- What a member that has to be text is read as if anything empty will do as well. -/
inductive ReadsLabel : Option Value → Text → Prop
  | absent : ReadsLabel none []
  | text {t : Text} : ReadsLabel (some (.text t)) t
  | emptyLike {v : Value} : v.isEmptyLike = true → ReadsLabel (some v) []

inductive ReadsFiles : Option Value → Option Snapshot → Prop
  | absent : ReadsFiles none none
  | null : ReadsFiles (some .null) none
  | object {items : Members Value} {entries : List (Text × Text)} :
      items = entries.map fileMember →
      ReadsFiles (some (.object items)) (some (.ofList entries))

theorem textMember?_eq_some_iff :
    textMember? members name = some t ↔ ReadsText (Members.get? members name) t := by
  rw [textMember?]
  cases Members.get? members name with
  | none =>
    constructor
    · rintro ⟨⟩
      exact .absent
    · rintro ⟨⟩
      rfl
  | some v =>
    constructor
    · intro h
      cases v with
      | text u =>
        cases h
        exact .text
      | _ => cases h
    · rintro ⟨⟩
      rfl

theorem labelMember?_eq_some_iff :
    labelMember? members name = some t ↔ ReadsLabel (Members.get? members name) t := by
  rw [labelMember?]
  cases Members.get? members name with
  | none =>
    constructor
    · rintro ⟨⟩
      exact .absent
    · rintro ⟨⟩
      rfl
  | some v =>
    cases v with
    | text u =>
      constructor
      · rintro ⟨⟩
        exact .text
      · intro h
        cases h with
        | text => rfl
        | emptyLike hEmpty => exact congrArg some (List.isEmpty_iff.mp hEmpty)
    | _ =>
      simp only [Option.ite_none_right_eq_some, Option.some.injEq]
      constructor
      · rintro ⟨hEmpty, rfl⟩
        exact .emptyLike hEmpty
      · rintro (_ | _ | hEmpty)
        exact ⟨hEmpty, rfl⟩

theorem snapshotMember_eq_ok_iff {files : Option Snapshot} :
    snapshotMember members = .ok files ↔
      ReadsFiles (Members.get? members "repoFiles") files := by
  rw [snapshotMember]
  cases Members.get? members "repoFiles" with
  | none =>
    constructor
    · rintro ⟨⟩
      exact .absent
    · rintro ⟨⟩
      rfl
  | some v =>
    cases v with
    | null =>
      constructor
      · rintro ⟨⟩
        exact .null
      · rintro ⟨⟩
        rfl
    | object items =>
      have hRead : ReadsFiles (some (.object items)) files ↔
          ∃ entries, textEntries? items = some entries ∧ some (.ofList entries) = files := by
        constructor
        · rintro (_ | _ | hItems)
          exact ⟨_, textEntries?_eq_some_iff.mpr hItems, rfl⟩
        · rintro ⟨entries, hEntries, rfl⟩
          exact .object (textEntries?_eq_some_iff.mp hEntries)
      rw [hRead]
      cases hEntries : textEntries? items with
      | some entries => simp [hEntries]
      | none => simp [hEntries]
    | _ =>
      constructor
      · rintro ⟨⟩
      · rintro ⟨⟩

/-! ### Objects -/

structure Request.IsReadFrom (r : Request) (members : Members Value) : Prop where
  path : ReadsText (Members.get? members "filePath") r.path
  content : ReadsText (Members.get? members "fileContent") r.content
  files : ReadsFiles (Members.get? members "repoFiles") r.files
  owner : ReadsLabel (Members.get? members "owner") r.owner
  repository : ReadsLabel (Members.get? members "repo") r.repository

def IsLabel (v : Value) : Prop := v = .null ∨ ∃ t, v = .text t

def PassesForLabel (v : Value) : Prop := v.isEmptyLike = true ∨ ∃ t, v = .text t

/-- The members of a request that are given have their types, where `label` is that of an owner and
of a repository. -/
structure AreTyped (label : Value → Prop) (members : Members Value) : Prop where
  path : ∀ v, Members.get? members "filePath" = some v → ∃ t, v = .text t
  content : ∀ v, Members.get? members "fileContent" = some v → ∃ t, v = .text t
  files : ∀ v, Members.get? members "repoFiles" = some v →
    v = .null ∨ ∃ items, v = .object items ∧ ∀ m ∈ items, ∃ t, m.2 = .text t
  owner : ∀ v, Members.get? members "owner" = some v → label v
  repository : ∀ v, Members.get? members "repo" = some v → label v

/-- An owner or a repository that is empty in some way is null or a text. -/
def AreLabelsPlain (members : Members Value) : Prop :=
  ∀ name ∈ ([Text.ofString "owner", Text.ofString "repo"] : List Text), ∀ v,
    Members.get? members name = some v → v.isEmptyLike = true → IsLabel v

theorem IsLabel.passesForLabel (h : IsLabel v) : PassesForLabel v := by
  rcases h with rfl | hText
  · exact Or.inl rfl
  · exact Or.inr hText

theorem areTyped_passesForLabel_iff (h : AreLabelsPlain members) :
    AreTyped PassesForLabel members ↔ AreTyped IsLabel members := by
  have hPlain : ∀ name ∈ ([Text.ofString "owner", Text.ofString "repo"] : List Text), ∀ v,
      Members.get? members name = some v → PassesForLabel v → IsLabel v := by
    rintro name hName v hv (hEmpty | hText)
    · exact h name hName v hv hEmpty
    · exact Or.inr hText
  constructor
  · intro hTyped
    exact
      { hTyped with
        owner := fun v hv => hPlain _ (by simp) v hv (hTyped.owner v hv)
        repository := fun v hv => hPlain _ (by simp) v hv (hTyped.repository v hv) }
  · intro hTyped
    exact
      { hTyped with
        owner := fun v hv => (hTyped.owner v hv).passesForLabel
        repository := fun v hv => (hTyped.repository v hv).passesForLabel }

theorem Request.ofJson_object_eq_ok_iff :
    Request.ofJson (.object members) = .ok r ↔ r.IsReadFrom members := by
  constructor
  · intro h
    simp only [ofJson] at h
    split at h
    · cases h
    rename_i path hPath
    split at h
    · cases h
    rename_i content hContent
    split at h
    · cases h
    rename_i files hFiles
    split at h
    · rename_i owner repository hOwner hRepository
      cases h
      exact
        { path := textMember?_eq_some_iff.mp hPath
          content := textMember?_eq_some_iff.mp hContent
          files := snapshotMember_eq_ok_iff.mp hFiles
          owner := labelMember?_eq_some_iff.mp hOwner
          repository := labelMember?_eq_some_iff.mp hRepository }
    · cases h
  · intro h
    simp only [ofJson, textMember?_eq_some_iff.mpr h.path, textMember?_eq_some_iff.mpr h.content,
      snapshotMember_eq_ok_iff.mpr h.files, labelMember?_eq_some_iff.mpr h.owner,
      labelMember?_eq_some_iff.mpr h.repository]

theorem Request.ofJson_eq_ok_iff : Request.ofJson v = .ok r ↔
    ∃ members, v = .object members ∧ r.IsReadFrom members := by
  cases v with
  | object members => simp [Request.ofJson_object_eq_ok_iff]
  | _ => simp [ofJson]

theorem exists_readsText_iff {o : Option Value} :
    (∃ t, ReadsText o t) ↔ ∀ v, o = some v → ∃ t, v = .text t := by
  constructor
  · rintro ⟨t, h⟩ v rfl
    cases h
    exact ⟨t, rfl⟩
  · intro h
    cases o with
    | none => exact ⟨[], .absent⟩
    | some v =>
      obtain ⟨t, rfl⟩ := h v rfl
      exact ⟨t, .text⟩

theorem exists_readsLabel_iff {o : Option Value} :
    (∃ t, ReadsLabel o t) ↔ ∀ v, o = some v → PassesForLabel v := by
  constructor
  · rintro ⟨t, h⟩ v rfl
    cases h with
    | text => exact Or.inr ⟨t, rfl⟩
    | emptyLike hEmpty => exact Or.inl hEmpty
  · intro h
    cases o with
    | none => exact ⟨[], .absent⟩
    | some v =>
      rcases h v rfl with hEmpty | ⟨t, rfl⟩
      · exact ⟨[], .emptyLike hEmpty⟩
      · exact ⟨t, .text⟩

/-- An object whose values are all texts is written from texts. -/
theorem exists_eq_map_fileMember {items : Members Value} (h : ∀ m ∈ items, ∃ t, m.2 = .text t) :
    ∃ entries : List (Text × Text), items = entries.map fileMember := by
  have hRange : items ∈ Set.range (List.map fileMember) := by
    rw [Set.range_list_map]
    rintro ⟨name, v⟩ hm
    obtain ⟨t, rfl⟩ := h _ hm
    exact ⟨(name, t), rfl⟩
  obtain ⟨entries, rfl⟩ := hRange
  exact ⟨entries, rfl⟩

theorem exists_readsFiles_iff {o : Option Value} :
    (∃ files, ReadsFiles o files) ↔ ∀ v, o = some v →
      v = .null ∨ ∃ items, v = .object items ∧ ∀ m ∈ items, ∃ t, m.2 = .text t := by
  constructor
  · rintro ⟨files, h⟩ v rfl
    cases h with
    | null => exact Or.inl rfl
    | object hItems =>
      refine Or.inr ⟨_, rfl, fun m hm => ?_⟩
      rw [hItems] at hm
      obtain ⟨e, -, rfl⟩ := List.mem_map.mp hm
      exact ⟨e.2, rfl⟩
  · intro h
    cases o with
    | none => exact ⟨none, .absent⟩
    | some v =>
      rcases h v rfl with rfl | ⟨items, rfl, hTexts⟩
      · exact ⟨none, .null⟩
      · obtain ⟨entries, hItems⟩ := exists_eq_map_fileMember hTexts
        exact ⟨some (.ofList entries), .object hItems⟩

theorem Request.exists_isReadFrom_iff :
    (∃ r : Request, r.IsReadFrom members) ↔ AreTyped PassesForLabel members := by
  constructor
  · rintro ⟨r, h⟩
    exact
      { path := exists_readsText_iff.mp ⟨_, h.path⟩
        content := exists_readsText_iff.mp ⟨_, h.content⟩
        files := exists_readsFiles_iff.mp ⟨_, h.files⟩
        owner := exists_readsLabel_iff.mp ⟨_, h.owner⟩
        repository := exists_readsLabel_iff.mp ⟨_, h.repository⟩ }
  · intro h
    obtain ⟨path, hPath⟩ := exists_readsText_iff.mpr h.path
    obtain ⟨content, hContent⟩ := exists_readsText_iff.mpr h.content
    obtain ⟨files, hFiles⟩ := exists_readsFiles_iff.mpr h.files
    obtain ⟨owner, hOwner⟩ := exists_readsLabel_iff.mpr h.owner
    obtain ⟨repository, hRepository⟩ := exists_readsLabel_iff.mpr h.repository
    exact ⟨⟨path, content, files, owner, repository⟩,
      ⟨hPath, hContent, hFiles, hOwner, hRepository⟩⟩

/-- Of files with distinct paths just the texts that are given are read. -/
theorem Request.IsReadFrom.get?_files {items : Members Value} (h : r.IsReadFrom members)
    (hFiles : Members.get? members "repoFiles" = some (.object items))
    (hDistinct : (items.map (·.1)).Nodup) :
    ∃ files, r.files = some files ∧ ∀ p t, files.get? p = some t ↔ (p, .text t) ∈ items := by
  have hRead := h.files
  rw [hFiles] at hRead
  generalize hEq : r.files = files at hRead
  obtain _ | _ | hItems := hRead
  rename_i entries
  subst hItems
  rw [List.map_map] at hDistinct
  refine ⟨_, rfl, fun p t => ?_⟩
  rw [@PathMap.get?_ofList _ entries hDistinct]
  exact (List.mem_map_of_injective fileMember_injective).symm

/-! ### All requests -/

/-- A request is what the object that stands for it is read as. -/
theorem Request.isReadFrom_toJson (r : Request) : ∃ members, r.toJson = .object members ∧
    r.IsReadFrom members := by
  refine ⟨_, rfl, ?_⟩
  exact
    { path := .text
      content := .text
      files := by
        cases hFiles : r.files with
        | none => exact .null
        | some files =>
          have hObject := ReadsFiles.object (@rfl _ (files.entries.map fileMember))
          rwa [PathMap.ofList_entries] at hObject
      owner := .text
      repository := .text }

/-- A value is read as a request just if it is an object whose given members have the types that are
read. These are the types that are asked for, unless the owner or the repository is empty but
neither null nor a text. Each member of the request is what the object gives for it, and every
request is read from the object that stands for it. -/
theorem Request.ofJson_reads (v : Value) :
    ((∃ r, ofJson v = .ok r) ↔ ∃ members, v = .object members ∧ AreTyped PassesForLabel members) ∧
    ((∃ fault, ofJson v = .error fault) ↔
      ¬ ∃ members, v = .object members ∧ AreTyped PassesForLabel members) ∧
    ((∀ members, v = .object members → AreLabelsPlain members) →
      ((∃ r, ofJson v = .ok r) ↔ ∃ members, v = .object members ∧ AreTyped IsLabel members)) ∧
    (∀ members r, v = .object members → (ofJson v = .ok r ↔ r.IsReadFrom members)) ∧
    (∀ members items r, v = .object members →
      Members.get? members "repoFiles" = some (.object items) → (items.map (·.1)).Nodup →
      ofJson v = .ok r →
      ∃ files, r.files = some files ∧ ∀ p t, files.get? p = some t ↔ (p, .text t) ∈ items) ∧
    ∀ r, ofJson r.toJson = .ok r := by
  have hAccepts : (∃ r, ofJson v = .ok r) ↔
      ∃ members, v = .object members ∧ AreTyped PassesForLabel members := by
    simp only [ofJson_eq_ok_iff, ← exists_isReadFrom_iff]
    constructor
    · rintro ⟨r, members, hv, h⟩
      exact ⟨members, hv, r, h⟩
    · rintro ⟨members, hv, r, h⟩
      exact ⟨r, members, hv, h⟩
  have hRefuses : (∃ fault, ofJson v = .error fault) ↔ ¬ ∃ r, ofJson v = .ok r := by
    cases ofJson v with
    | ok r => simp
    | error fault => simp
  refine ⟨hAccepts, hRefuses.trans (not_congr hAccepts), fun hPlain => ?_, ?_, ?_,
    fun r => ofJson_eq_ok_iff.mpr r.isReadFrom_toJson⟩
  · rw [hAccepts]
    refine exists_congr fun members => and_congr_right fun hv => ?_
    exact areTyped_passesForLabel_iff (hPlain members hv)
  · rintro members r rfl
    exact ofJson_object_eq_ok_iff
  · rintro members items r rfl hFiles hDistinct h
    exact (ofJson_object_eq_ok_iff.mp h).get?_files hFiles hDistinct

def unownedMembers : Members Value :=
  [("repoFiles", .object [("a.ts", .text "x")]), ("owner", .null)]

theorem Request.ofJson_reads_unownedMembers :
    AreLabelsPlain unownedMembers ∧ AreTyped IsLabel unownedMembers ∧
    ∃ files : Snapshot, Request.ofJson (.object unownedMembers) = .ok ⟨[], [], some files, [], []⟩ ∧
      ∀ p t, files.get? p = some t ↔
        (p, Value.text t) ∈ [(Text.ofString "a.ts", Value.text "x")] := by
  have hRead : Request.ofJson (.object unownedMembers) =
      .ok ⟨[], [], some (.ofList [("a.ts", "x")]), [], []⟩ := rfl
  have hPlain : AreLabelsPlain unownedMembers := by
    intro name hName v hv _
    rcases List.mem_pair.mp hName with rfl | rfl
    · obtain rfl : Value.null = v := Option.some.inj hv
      exact Or.inl rfl
    · cases hv
  obtain ⟨-, -, hAccepts, -, hFiles, -⟩ := Request.ofJson_reads (.object unownedMembers)
  obtain ⟨members, hMembers, hTyped⟩ := (hAccepts fun members hMembers => by
    cases hMembers
    exact hPlain).mp ⟨_, hRead⟩
  cases hMembers
  obtain ⟨files, hSome, hGet⟩ := hFiles _ [("a.ts", .text "x")] _ rfl rfl
    (List.nodup_singleton _) hRead
  cases hSome
  exact ⟨hPlain, hTyped, _, hRead, hGet⟩

/-- A number for an owner is no fault as long as it is zero: the request is then read as if it had
none. -/
theorem Request.zero_passes_for_owner :
    ¬ IsLabel (.integer 0) ∧
    Request.ofJson (.object [("filePath", .text "a"), ("owner", .integer 0)]) =
      .ok ⟨"a", [], none, [], []⟩ ∧
    Request.ofJson (.object [("filePath", .text "a"), ("owner", .integer 7)]) =
      .error .ownerNotText := by
  refine ⟨?_, rfl, rfl⟩
  rintro (hNull | ⟨t, hText⟩)
  · cases hNull
  · cases hText

end DependencyMap
