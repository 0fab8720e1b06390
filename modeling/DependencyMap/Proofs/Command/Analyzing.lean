import DependencyMap.Command.Run
import DependencyMap.Proofs.FileTree.Resolving
import DependencyMap.Proofs.Settings

/-!
# Which files the command line analyzes

A command line that asks to analyze a file (`AsksToAnalyze`) comes to nothing but the request to do
so (`run_eq`). If the path meets no circle of links and is not too long (`ComesTo`), there is such a
request just if the canonical place of the path is that of a file strictly below the repository
(`LeadsInside`, `analysisRequest_eq_notInside`), whose bytes are UTF-8 (`analysisRequest_eq`). The
request names the file by the way to it from the repository, through no link. A snapshot that holds
the path hence holds what stands at the very same place (`LeadsInside.eq_of_get?_loadSnapshot`).

Where links lead in a circle, what is left of the path may name a link out of the repository, and
the file behind it is analyzed (`analyzes_linkOut_behind_circle`).
-/

namespace DependencyMap

namespace Command

variable {s : Surroundings} {words : List Text} {order : AnalyzeOrder}
  {root inner target : Place} {path : Text} {bytes : Bytes}

/-! ### What is asked for -/

/-- The words ask for the command `analyze`, without asking for the version or help, and `order` is
what is asked for. -/
def AsksToAnalyze (s : Surroundings) (words : List Text) (order : AnalyzeOrder) : Prop :=
  ∃ program rest given, split programRules false words = .ok program ∧
    program.has "version" = false ∧ program.has "help" = false ∧
    program.arguments = Text.ofString "analyze" :: rest ∧
    split analyzeRules true rest = .ok given ∧ given.has "help" = false ∧
    readAnalyzeOrder s given = .ok order

def AnalyzeOrder.output (order : AnalyzeOrder) (a : Analysis) : Output :=
  if order.asJson then { nothing with written := writtenJson a }
  else { nothing with shown := report a order.limit }

def AnalyzeOrder.snapshot (order : AnalyzeOrder) (s : Surroundings) (root : Place) :
    Option Snapshot :=
  if order.withSnapshot then
    some (s.tree.loadSnapshot root s.settings.maxFileBytes s.settings.skippedDirectories).files
  else none

/-- Whatever its name, a repository and a file in it can be asked for. -/
theorem asksToAnalyze_arguments (path : Text) {repository : Text}
    (h : leadsToDirectory s repository = true) :
    AsksToAnalyze s ["analyze", "--", repository, path] ⟨repository, path, true, false, 20⟩ := by
  refine ⟨⟨[], ["analyze", "--", repository, path]⟩, ["--", repository, path],
    ⟨[], [repository, path]⟩, rfl, rfl, rfl, rfl, rfl, rfl, ?_⟩
  have hLimit : integerOption ⟨[], [repository, path]⟩ "limit" 20 = .ok 20 := rfl
  simp only [readAnalyzeOrder, hLimit, h]
  rfl

theorem leadsToDirectory_of_readAnalyzeOrder {given : Words}
    (h : readAnalyzeOrder s given = .ok order) : leadsToDirectory s order.repository = true := by
  obtain ⟨limit, -, h⟩ := bind_eq_ok_iff.mp h
  split at h
  · cases h
  split at h
  · cases h
  split at h
  · cases h
  rename_i hDirectory
  split at h
  · cases h
  split at h
  · cases h
  · cases h
    simpa using hDirectory

/-- The repository is a directory, and it is resolved to the place of that. -/
theorem AsksToAnalyze.exists_root (h : AsksToAnalyze s words order) :
    ∃ root, s.tree.reach s.workingPlace order.repository = .ok root ∧
      s.tree.isDirectory root = true ∧
      resolve s s.workingPlace order.repository = .ok root := by
  obtain ⟨program, rest, given, -, -, -, -, -, -, hOrder⟩ := h
  have hDirectory := leadsToDirectory_of_readAnalyzeOrder hOrder
  rw [leadsToDirectory] at hDirectory
  cases hReach : s.tree.reach s.workingPlace order.repository with
  | error fault =>
    rw [hReach] at hDirectory
    cases hDirectory
  | ok root =>
    rw [hReach] at hDirectory
    refine ⟨root, rfl, hDirectory, ?_⟩
    rw [resolve, FileTree.resolve_eq_of_reach s.maxLinks_le hReach hDirectory]
    rfl

theorem withArguments_eq {program : Words} {next : List Text → Except Fault Output}
    (hProgram : split programRules false words = .ok program)
    (hVersion : program.has "version" = false) (hHelp : program.has "help" = false) :
    withArguments words next = next program.arguments := by
  have hFind : (program.options.find? fun g =>
      (["version", "help"] : List Text).contains g.name) = none := by
    simp only [Words.has, List.any_eq_false, decide_eq_true_eq] at hVersion hHelp
    refine List.find?_eq_none.mpr fun g hg => ?_
    simp [hVersion g hg, hHelp g hg]
  rw [withArguments, hProgram]
  simp only [bind, Except.bind, hFind]

/-- What is asked for is all that is carried out. -/
theorem run_eq (h : AsksToAnalyze s words order) :
    run s words = (analysisRequest s order).map fun request => order.output request.analyze := by
  obtain ⟨program, rest, given, hProgram, hVersion, hHelp, hArguments, hGiven, hNoHelp, hOrder⟩ := h
  have hWords : words.isEmpty = false := by
    cases words with
    | nil =>
      cases hProgram
      cases hArguments
    | cons => rfl
  have hRun : run s words = analyze s given := by
    rw [run, hWords, withArguments_eq hProgram hVersion hHelp, hArguments]
    simp [runCommand, hGiven, hNoHelp, bind, Except.bind]
  rw [hRun, analyze, hOrder]
  simp only [bind, Except.bind]
  cases analysisRequest s order with
  | error fault => rfl
  | ok request =>
    simp only [Except.map, AnalyzeOrder.output]
    split <;> rfl

/-! ### The file -/

/-- The path has a canonical place, which can be looked up: it meets no circle of links, there is
room for the links that it meets, and no name on the way that there is to the place is too long, nor
is its path. -/
structure ComesTo (s : Surroundings) (root : Place) (path : Text) (target : Place) : Prop where
  canonical : s.tree.canonical s.linkRoom root path = .ok target
  short : s.tree.reach [] target.toPath ≠ .error .nameTooLong

/-- The path leads to a file strictly below `root`, by the way `inner`, and `bytes` is what it
holds. -/
structure LeadsInside (s : Surroundings) (root : Place) (path : Text) (inner : Place)
    (bytes : Bytes) : Prop where
  below : inner ≠ []
  place : s.tree.canonical s.linkRoom root path = .ok (root ++ inner)
  file : s.tree.item? (root ++ inner) = some (.file bytes)

theorem bytes?_eq_some_iff {tree : FileTree} {place : Place} :
    tree.bytes? place = some bytes ↔ tree.item? place = some (.file bytes) := by
  rw [FileTree.bytes?]
  cases tree.item? place with
  | none => simp
  | some item => cases item <;> simp

theorem isBelow_iff (hNamed : ∀ name ∈ target, isName name = true) :
    target.isBelow root = true ↔ ∃ inner, inner ≠ [] ∧ target = root ++ inner := by
  have hFirst : target.head? ≠ some [] := fun hHead =>
    absurd (hNamed [] (List.mem_of_mem_head? hHead)) (by decide)
  simp only [Place.isBelow, Bool.and_eq_true, List.isPrefixOf_iff_prefix, decide_eq_true_eq,
    and_iff_left hFirst]
  constructor
  · rintro ⟨⟨inner, rfl⟩, hLength⟩
    refine ⟨inner, ?_, rfl⟩
    rintro rfl
    simp at hLength
  · rintro ⟨inner, hNe, rfl⟩
    exact ⟨List.prefix_append root inner, by simp [List.length_pos_iff.mpr hNe]⟩

theorem isStraight_of_isDirectory (h : s.tree.isDirectory root = true) :
    s.tree.IsStraight root := .of_item? (of_decide_eq_true h) rfl

/-- What is looked up at the canonical place of a path is what stands there itself. -/
theorem targetFile_eq (hRoot : s.tree.isDirectory root = true) (h : ComesTo s root path target) :
    targetFile s root path =
      match s.tree.bytes? target with
      | none => .error (.notInside path root)
      | some bytes =>
        if target.isBelow root then .ok (target, bytes) else .error (.notInside path root) := by
  have hStraight := FileTree.canonical_isStraight (isStraight_of_isDirectory hRoot) h.canonical
  have hResolve : resolve s root path = .ok target := by
    rw [resolve, FileTree.resolve_eq_of_canonical (isStraight_of_isDirectory hRoot) h.canonical]
    rfl
  have hShort := h.short
  simp only [targetFile, hResolve, bind, Except.bind]
  cases hReach : s.tree.reach [] target.toPath with
  | ok place =>
    obtain rfl := (hStraight.reach_eq_ok_iff.mp hReach).1
    rfl
  | error fault =>
    -- nothing stands there, because it would have been reached
    have hNone : s.tree.bytes? target = none := by
      refine Option.eq_none_iff_forall_ne_some.mpr fun bytes hBytes => ?_
      have hLength : target.toPath.pathLength ≤ FileTree.maxPathLength := by
        refine Nat.le_of_not_lt fun hLong => hShort ?_
        have hNe : ¬ target.toPath.isEmpty = true := Bool.false_ne_true
        rw [FileTree.reach, if_neg hNe, if_pos hLong]
      rw [hStraight.reach_eq_ok_iff.mpr ⟨rfl, ⟨_, bytes?_eq_some_iff.mp hBytes⟩, hLength⟩] at hReach
      cases hReach
    rw [hNone]
    cases fault with
    | nameTooLong => exact absurd hReach hShort
    | _ => rfl

theorem targetFile_of_leadsInside (hRoot : s.tree.isDirectory root = true)
    (hTarget : ComesTo s root path target) (h : LeadsInside s root path inner bytes) :
    targetFile s root path = .ok (root ++ inner, bytes) := by
  obtain rfl : target = root ++ inner := Except.ok.inj (hTarget.canonical.symm.trans h.place)
  have hBelow : (root ++ inner).isBelow root = true :=
    (isBelow_iff (@FileTree.isName_of_item?_eq_some s.tree [] _ _ h.file)).mpr ⟨inner, h.below, rfl⟩
  rw [targetFile_eq hRoot hTarget, bytes?_eq_some_iff.mpr h.file]
  exact if_pos hBelow

theorem targetFile_of_not_leadsInside (hRoot : s.tree.isDirectory root = true)
    (hTarget : ComesTo s root path target)
    (h : ∀ inner bytes, ¬ LeadsInside s root path inner bytes) :
    targetFile s root path = .error (.notInside path root) := by
  rw [targetFile_eq hRoot hTarget]
  cases hBytes : s.tree.bytes? target with
  | none => rfl
  | some bytes =>
    have hFile := bytes?_eq_some_iff.mp hBytes
    refine if_neg fun hBelow => ?_
    obtain ⟨inner, hNe, rfl⟩ :=
      (isBelow_iff (@FileTree.isName_of_item?_eq_some s.tree [] _ _ hFile)).mp hBelow
    exact h inner bytes ⟨hNe, hTarget.canonical, hFile⟩

def AnalyzeOrder.IsFor (order : AnalyzeOrder) (s : Surroundings) (root : Place) : Prop :=
  resolve s s.workingPlace order.repository = .ok root ∧ s.tree.isDirectory root = true

theorem analysisRequest_eq (hRoot : order.IsFor s root) (hTarget : ComesTo s root order.path target)
    (h : LeadsInside s root order.path inner bytes) :
    analysisRequest s order =
      match decodeFile bytes with
      | .error f => .error (.undecodable order.path f)
      | .ok content => .ok ⟨Text.ofSegments inner, content, order.snapshot s root, [],
          root.getLastD []⟩ := by
  have hFile := targetFile_of_leadsInside hRoot.2 hTarget h
  cases hContent : decodeFile bytes <;>
    simp only [analysisRequest, hRoot.1, hFile, hContent, bind, Except.bind, List.drop_left,
      AnalyzeOrder.snapshot]

theorem analysisRequest_eq_notInside (hRoot : order.IsFor s root)
    (hTarget : ComesTo s root order.path target)
    (h : ∀ inner bytes, ¬ LeadsInside s root order.path inner bytes) :
    analysisRequest s order = .error (.notInside order.path root) := by
  simp only [analysisRequest, hRoot.1, targetFile_of_not_leadsInside hRoot.2 hTarget h, bind,
    Except.bind]

namespace LeadsInside

theorem isName (h : LeadsInside s root path inner bytes) :
    ∀ name ∈ inner, isName name = true :=
  FileTree.isName_of_item?_eq_some h.file

theorem segments_ofSegments (h : LeadsInside s root path inner bytes) :
    (Text.ofSegments inner).segments = inner :=
  DependencyMap.segments_ofSegments h.below h.isName

theorem ofSegments_ne_nil (h : LeadsInside s root path inner bytes) :
    Text.ofSegments inner ≠ [] := by
  intro hNil
  have hSegments := h.segments_ofSegments
  rw [hNil] at hSegments
  have hEmpty : ([] : Text) ∈ inner := hSegments ▸ List.mem_singleton_self []
  exact absurd (h.isName [] hEmpty) (by decide)

theorem bytes_unique {inner' : Place} {bytes' : Bytes} (h : LeadsInside s root path inner bytes)
    (h' : LeadsInside s root path inner' bytes') : bytes = bytes' := by
  have hSame : root ++ inner = root ++ inner' := Except.ok.inj (h.place.symm.trans h'.place)
  have hFile := h.file
  rw [hSame, h'.file] at hFile
  cases hFile
  rfl

theorem up_notMem (h : LeadsInside s root path inner bytes) : Text.ofString ".." ∉ inner :=
  fun hUp => absurd (h.isName _ hUp) (by decide)

/-- What a snapshot holds at the path of the file is the text of the file. -/
theorem eq_of_get?_loadSnapshot (h : LeadsInside s root path inner bytes) {content t : Text}
    {maxBytes : Int} {skipped : List Text} (hContent : decodeFile bytes = .ok content)
    (hGet : (s.tree.loadSnapshot root maxBytes skipped).files.get? (Text.ofSegments inner) =
      some t) : t = content := by
  obtain ⟨-, -, hRead⟩ := FileTree.get?_files_loadSnapshot_iff.mp hGet
  rw [h.segments_ofSegments] at hRead
  obtain ⟨dest, hStands, -, u, hBytes, ht⟩ := FileTree.readFile_eq_content_iff.mp hRead
  -- the file is no link, and so stands for itself
  obtain rfl : dest = root ++ inner := hStands.unique (.itself h.file rfl rfl)
  rw [bytes?_eq_some_iff.mpr h.file, Option.getD_some] at hBytes
  have hText := decodeFile_eq_ok_iff.mpr ⟨u, hBytes, ht⟩
  rw [hText] at hContent
  injection hContent

end LeadsInside

/-- The request is to analyze the file to which the path of the order leads. -/
structure IsRequestFor (s : Surroundings) (order : AnalyzeOrder) (root : Place)
    (request : Request) : Prop where
  /-- The path of the request is the way to the file, and its text is what the file holds. -/
  file : ∃ bytes u, LeadsInside s root order.path request.path.segments bytes ∧
    Utf8.encode u = .ok bytes ∧ request.content = u.withLineFeeds
  path_ne_nil : request.path ≠ []
  up_notMem : Text.ofString ".." ∉ request.path.segments
  files : request.files = if order.withSnapshot then
      some (s.tree.loadSnapshot root s.settings.maxFileBytes s.settings.skippedDirectories).files
    else none
  /-- A snapshot that has the path has the text. -/
  consistent : ∀ files t, request.files = some files → files.get? request.path = some t →
    t = request.content

theorem isRequestFor_of_decodeFile {content : Text}
    (h : LeadsInside s root order.path inner bytes) (hContent : decodeFile bytes = .ok content) :
    IsRequestFor s order root
      ⟨Text.ofSegments inner, content, order.snapshot s root, [], root.getLastD []⟩ := by
  obtain ⟨u, hBytes, hText⟩ := decodeFile_eq_ok_iff.mp hContent
  refine
    { file := ⟨bytes, u, ?_, hBytes, hText⟩
      path_ne_nil := h.ofSegments_ne_nil
      up_notMem := ?_
      files := rfl
      consistent := fun files t hFiles hGet => ?_ }
  · rwa [h.segments_ofSegments]
  · rw [h.segments_ofSegments]
    exact h.up_notMem
  · simp only [AnalyzeOrder.snapshot] at hFiles
    split at hFiles
    · cases hFiles
      exact h.eq_of_get?_loadSnapshot hContent hGet
    · cases hFiles

/-! ### All command lines -/

/-- A file inside the repository is analyzed just if it is UTF-8. -/
theorem run_of_leadsInside (h : AsksToAnalyze s words order) (hRoot : order.IsFor s root)
    (hTarget : ComesTo s root order.path target)
    (hInside : LeadsInside s root order.path inner bytes) :
    (∃ u request, Utf8.encode u = .ok bytes ∧ IsRequestFor s order root request ∧
      run s words = .ok (order.output request.analyze)) ∨
    ∃ f, Utf8.decode bytes = .error f ∧ run s words = .error (.undecodable order.path f) := by
  rw [run_eq h, analysisRequest_eq hRoot hTarget hInside]
  cases hDecode : decodeFile bytes with
  | ok content =>
    obtain ⟨u, hBytes, -⟩ := decodeFile_eq_ok_iff.mp hDecode
    exact Or.inl ⟨u, _, hBytes, isRequestFor_of_decodeFile hInside hDecode, rfl⟩
  | error f =>
    refine Or.inr ⟨f, ?_, rfl⟩
    rw [decodeFile] at hDecode
    cases hUtf8 : Utf8.decode bytes with
    | ok u =>
      rw [hUtf8] at hDecode
      cases hDecode
    | error f' =>
      rw [hUtf8] at hDecode
      cases hDecode
      rfl

/-- What becomes of a command line that asks to analyze a file, if the path of the file comes to a
place. It succeeds just if this is the place of a file strictly below the repository and the bytes
of the file are UTF-8; otherwise it ends with the fault that says which of the two is not so. If it
succeeds, what is put out is what comes of the request for the file. If the path leads to anything,
the place is that of what it leads to. -/
theorem analyzes_only_inside (s : Surroundings) (words : List Text) (order : AnalyzeOrder)
    (h : AsksToAnalyze s words order) :
    ∃ root, s.tree.reach s.workingPlace order.repository = .ok root ∧
      s.tree.isDirectory root = true ∧
      (∀ target, s.tree.reach root order.path = .ok target →
        s.tree.canonical s.linkRoom root order.path = .ok target) ∧
      ∀ target, ComesTo s root order.path target →
        ((∃ output, run s words = .ok output) ↔
          ∃ inner bytes u, LeadsInside s root order.path inner bytes ∧
            Utf8.encode u = .ok bytes) ∧
        (∀ output, run s words = .ok output →
          ∃ request, IsRequestFor s order root request ∧
            output = order.output request.analyze) ∧
        ∀ fault, run s words = .error fault →
          (fault = .notInside order.path root ∧
            ∀ inner bytes, ¬ LeadsInside s root order.path inner bytes) ∨
          ∃ inner bytes f, LeadsInside s root order.path inner bytes ∧
            Utf8.decode bytes = .error f ∧ fault = .undecodable order.path f := by
  obtain ⟨root, hReach, hDirectory, hResolve⟩ := h.exists_root
  have hRoot : order.IsFor s root := ⟨hResolve, hDirectory⟩
  refine ⟨root, hReach, hDirectory, fun _ => FileTree.canonical_eq_of_reach s.maxLinks_le,
    fun target hTarget => ?_⟩
  by_cases hInside : ∃ inner bytes, LeadsInside s root order.path inner bytes
  · obtain ⟨inner, bytes, hInside⟩ := hInside
    rcases run_of_leadsInside h hRoot hTarget hInside with ⟨u, request, hBytes, hRequest, hRun⟩ |
      ⟨f, hDecode, hRun⟩
    · rw [hRun]
      refine ⟨iff_of_true ⟨_, rfl⟩ ⟨inner, bytes, u, hInside, hBytes⟩, fun output hOutput => ?_,
        fun fault hFault => ?_⟩
      · cases hOutput
        exact ⟨request, hRequest, rfl⟩
      · cases hFault
    · rw [hRun]
      refine ⟨iff_of_false ?_ ?_, fun output hOutput => ?_, fun fault hFault => ?_⟩
      · rintro ⟨output, hOutput⟩
        cases hOutput
      · rintro ⟨inner', bytes', u, hInside', hBytes⟩
        obtain rfl := hInside.bytes_unique hInside'
        rw [Utf8.decode_eq_ok_iff.mpr hBytes] at hDecode
        cases hDecode
      · cases hOutput
      · cases hFault
        exact Or.inr ⟨inner, bytes, f, hInside, hDecode, rfl⟩
  · have hOutside : ∀ inner bytes, ¬ LeadsInside s root order.path inner bytes :=
      fun inner bytes hHere => hInside ⟨inner, bytes, hHere⟩
    rw [run_eq h, analysisRequest_eq_notInside hRoot hTarget hOutside]
    refine ⟨iff_of_false ?_ ?_, fun output hOutput => ?_, fun fault hFault => ?_⟩
    · rintro ⟨output, hOutput⟩
      cases hOutput
    · rintro ⟨inner, bytes, -, hHere, -⟩
      exact hOutside inner bytes hHere
    · cases hOutput
    · cases hFault
      exact Or.inl ⟨rfl, hOutside⟩

/-- A repository with a link out of it, to a directory with a link back into it. -/
def linkedSurroundings : Surroundings where
  tree := ((FileTree.empty.add ["r", "a.ts"] (.file [0x78])).add ["r", "out"] (.link "../o")).add
    ["o", "back"] (.link "../r")
  workingPlace := []
  linkRoom := 900
  maxLinks_le := by decide
  settings := .default

theorem analyzes_only_inside_thereAndBack :
    AsksToAnalyze linkedSurroundings ["analyze", "--", "r", "out/back/./a.ts"]
        ⟨"r", "out/back/./a.ts", true, false, 20⟩ ∧
      ∃ output, run linkedSurroundings ["analyze", "--", "r", "out/back/./a.ts"] = .ok output := by
  have hDirectory : leadsToDirectory linkedSurroundings "r" = true := by decide +kernel
  have hAsks := asksToAnalyze_arguments "out/back/./a.ts" hDirectory
  refine ⟨hAsks, ?_⟩
  obtain ⟨root, hReach, -, -, hAll⟩ := analyzes_only_inside _ _ _ hAsks
  have hRoot : linkedSurroundings.tree.reach [] "r" = .ok ["r"] := by decide +kernel
  obtain rfl : root = ["r"] := Except.ok.inj (hReach.symm.trans hRoot)
  have hTarget : ComesTo linkedSurroundings ["r"] "out/back/./a.ts" ["r", "a.ts"] :=
    ⟨by decide +kernel, by decide +kernel⟩
  refine (hAll _ hTarget).1.mpr ⟨["a.ts"], [0x78], "x", ⟨by simp, ?_, ?_⟩, ?_⟩
  · decide +kernel
  · decide +kernel
  · decide +kernel

/-- A repository with a link to itself, and a link to a file outside. -/
def circledSurroundings : Surroundings where
  tree := ((FileTree.empty.add ["o", "a.ts"] (.file [0x78])).add ["r", "l.ts"]
    (.link "../o/a.ts")).add ["r", "self.ts"] (.link "self.ts")
  workingPlace := []
  linkRoom := 900
  maxLinks_le := by decide
  settings := .default

/-- A path that goes through a circle of links leads to nothing. But what is left of it names a link
out of the repository, and the file behind that is analyzed. A path that ends in the circle is no
usage fault. -/
theorem analyzes_linkOut_behind_circle :
    circledSurroundings.tree.reach ["r"] "self.ts/../l.ts" = .error .tooManyLinks ∧
      circledSurroundings.tree.reach ["r"] "l.ts" = .ok ["o", "a.ts"] ∧
      (∃ output, run circledSurroundings ["analyze", "--", "r", "self.ts/../l.ts"] = .ok output) ∧
      run circledSurroundings ["analyze", "--", "r", "self.ts"] =
        .error (.unresolved (.linkLoop ["r", "self.ts"])) := by
  have hDirectory : leadsToDirectory circledSurroundings "r" = true := by decide +kernel
  have hRoot : resolve circledSurroundings circledSurroundings.workingPlace "r" = .ok ["r"] := by
    decide +kernel
  have hThrough : targetFile circledSurroundings ["r"] "self.ts/../l.ts" =
      .ok (["r", "l.ts"], [0x78]) := by
    decide +kernel
  have hInto : targetFile circledSurroundings ["r"] "self.ts" =
      .error (.unresolved (.linkLoop ["r", "self.ts"])) := by
    decide +kernel
  have hContent : decodeFile [0x78] = .ok "x" := by decide +kernel
  refine ⟨by decide +kernel, by decide +kernel, ?_, ?_⟩
  · rw [run_eq (asksToAnalyze_arguments "self.ts/../l.ts" hDirectory)]
    simp only [analysisRequest, hRoot, hThrough, hContent, bind, Except.bind, Except.map]
    exact ⟨_, rfl⟩
  · rw [run_eq (asksToAnalyze_arguments "self.ts" hDirectory)]
    simp only [analysisRequest, hRoot, hInto, bind, Except.bind, Except.map]

end Command

end DependencyMap
