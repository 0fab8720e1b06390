import DependencyMap.Proofs.Imports.Joining
import DependencyMap.Proofs.Imports.Typescript
import DependencyMap.Proofs.Text.Returns

/-!
# Imports of names in Python

An import of names from a module reads its list of names to the end of the line, also where nothing
but white space stands there, and then names nothing (`Link.isIdle`). `ImportsFrom` says of a line
that it imports a list which begins with another sign. Such a line is read in just this way
(`read?_of_importsFrom`); every other line has idle links only
(`filter_linksOf_membersRule_eq_nil`). A carriage return behind the line makes therefore no
difference but for idle links
(`filter_linksOf_membersRule_concat`).
-/

namespace DependencyMap

open Pattern

namespace Python

def isModuleSign (c : CodePoint) : Bool := c = '.' || c.isWord

def membersRule : ImportRule :=
  .atLineStart .members [.text "from", blanks1, .keep .target (many1 isModuleSign), blanks1,
    .text "import", blanks1, .keep .names (upTo1 ['\n'])]

def wholeRule : ImportRule :=
  .atLineStart .whole [.text "import", blanks1, .keep .target (many1 isModuleSign)]

theorem lineImports_eq : Language.python.lineImports = [membersRule, wholeRule] := rfl

def ImportsFrom (t target list : Text) : Prop :=
  ∃ s₁ s₂ s₃, IsGap s₁ ∧ IsGap s₂ ∧ IsGap s₃ ∧ target ≠ [] ∧ (∀ c ∈ target, isModuleSign c) ∧
    list ≠ [] ∧ Stops CodePoint.isBlank list ∧
    t = ("from" : Text) ++ (s₁ ++ (target ++ (s₂ ++ (("import" : Text) ++ (s₃ ++ list)))))

variable {t target list : Text}

theorem isBlank_eq_false_of_isModuleSign {c : CodePoint} (h : isModuleSign c) :
    c.isBlank = false := by
  rw [isModuleSign, Bool.or_eq_true, decide_eq_true_eq] at h
  rcases h with rfl | h
  · decide
  · exact CodePoint.isBlank_eq_false_of_isWord h

theorem stops_isBlank_target (hne : target ≠ []) (hTarget : ∀ c ∈ target, isModuleSign c)
    (u : Text) : Stops CodePoint.isBlank (target ++ u) := by
  intro c hc
  rw [List.head?_append_of_ne_nil _ hne] at hc
  exact isBlank_eq_false_of_isModuleSign (hTarget c (List.mem_of_mem_head? hc))

theorem stops_isModuleSign_gap {s : Text} (hs : IsGap s) (u : Text) :
    Stops isModuleSign (s ++ u) := by
  intro c hc
  rw [List.head?_append_of_ne_nil _ hs.1] at hc
  have hBlank := hs.2 c (List.mem_of_mem_head? hc)
  rw [Bool.eq_false_iff]
  intro hSign
  rw [isBlank_eq_false_of_isModuleSign hSign] at hBlank
  cases hBlank

/-- A list of names is read to the end of the line. -/
theorem read?_of_importsFrom (hLine : CodePoint.ofChar '\n' ∉ t) (h : ImportsFrom t target list) :
    ∃ r, membersRule.rule.body.read? t = some r ∧
      r.parts = [(.names, list), (.target, target)] := by
  obtain ⟨s₁, s₂, s₃, hs₁, hs₂, hs₃, hne, hTarget, hList, hStop, hText⟩ := h
  have hInside : ∀ c ∈ list, ['\n'].all fun d : Char => decide (c ≠ d) := by
    intro c hc
    have hBreak : c ≠ CodePoint.ofChar '\n' := by
      rintro rfl
      apply hLine
      rw [hText]
      simp [hc]
    rw [List.all_cons, List.all_nil, Bool.and_true]
    exact decide_eq_true hBreak
  have hImport (u : Text) : Stops CodePoint.isBlank (("import" : Text) ++ u) :=
    stops_cons.mpr (by decide)
  refine ⟨⟨0 + 4 + s₁.length + target.length + s₂.length + 6 + s₃.length + list.length, [],
    [⟨.names, list ++ [], list.length⟩, ⟨.target, target ++ (s₂ ++ (("import" : Text) ++
      (s₃ ++ (list ++ [])))), target.length⟩]⟩, ?_, by simp [Reading.parts, Kept.content]⟩
  rw [hText, ← List.append_nil (s₃ ++ list), List.append_assoc]
  apply run_keyword_append hs₁ (stops_isBlank_target hne hTarget _)
  rw [run_sequence_cons, run_keep]
  apply run_many1_append hne hTarget (stops_isModuleSign_gap hs₂ _)
  rw [run_sequence_cons, blanks1]
  apply run_many1_append hs₂.1 hs₂.2 (hImport _)
  apply run_keyword_append hs₃ (by rwa [List.append_nil])
  rw [run_sequence_cons, run_keep, upTo1]
  apply run_many1_append hList hInside (stops_nil _)
  rw [Nat.add_sub_cancel_left, Nat.add_sub_cancel_left]
  rfl

/-- What is read of a line, and where it stands. -/
theorem parts_of_read? {r : Reading} (h : membersRule.rule.body.read? t = some r) :
    ∃ target names s₁ s₂ s₃, r.parts = [(.names, names), (.target, target)] ∧ IsGap s₁ ∧ IsGap s₂ ∧
      IsGap s₃ ∧ target ≠ [] ∧ (∀ c ∈ target, isModuleSign c) ∧
      t = ("from" : Text) ++ (s₁ ++ (target ++ (s₂ ++ (("import" : Text) ++
        (s₃ ++ (names ++ r.rest)))))) := by
  obtain ⟨w, hTakes, hText, -⟩ := takes_of_read? h
  generalize r.parts = ks at hTakes ⊢
  obtain ⟨_, _, _, _, ⟨rfl, rfl⟩, hTail, rfl, rfl⟩ := hTakes
  obtain ⟨s₁, _, _, _, hs₁, hTail, rfl, rfl⟩ := hTail
  obtain ⟨target, _, _, _, ⟨_, hTarget, rfl⟩, hTail, rfl, rfl⟩ := hTail
  obtain ⟨s₂, _, _, _, hs₂, hTail, rfl, rfl⟩ := hTail
  obtain ⟨_, _, _, _, ⟨rfl, rfl⟩, hTail, rfl, rfl⟩ := hTail
  obtain ⟨s₃, _, _, _, hs₃, hTail, rfl, rfl⟩ := hTail
  obtain ⟨names, _, _, _, ⟨_, hNames, rfl⟩, ⟨rfl, rfl⟩, rfl, rfl⟩ := hTail
  obtain ⟨hne₁, hBlank₁, rfl⟩ := takes_many1.mp hs₁
  obtain ⟨hne₂, hBlank₂, rfl⟩ := takes_many1.mp hs₂
  obtain ⟨hne₃, hBlank₃, rfl⟩ := takes_many1.mp hs₃
  obtain ⟨hne, hSigns, rfl⟩ := takes_many1.mp hTarget
  obtain ⟨-, -, rfl⟩ := takes_many1.mp hNames
  refine ⟨target, names, s₁, s₂, s₃, rfl, ⟨hne₁, hBlank₁⟩, ⟨hne₂, hBlank₂⟩, ⟨hne₃, hBlank₃⟩, hne,
    hSigns, ?_⟩
  rw [hText]
  simp

theorem ImportsFrom.concat_return (h : ImportsFrom t target list) :
    ImportsFrom (t ++ [CodePoint.ofChar '\r']) target (list ++ [CodePoint.ofChar '\r']) := by
  obtain ⟨s₁, s₂, s₃, hs₁, hs₂, hs₃, hne, hTarget, hList, hStop, rfl⟩ := h
  refine ⟨s₁, s₂, s₃, hs₁, hs₂, hs₃, hne, hTarget, by simp, ?_, by simp⟩
  intro c hc
  rw [List.head?_append_of_ne_nil _ hList] at hc
  exact hStop c hc

theorem ImportsFrom.of_concat_return
    (h : ImportsFrom (t ++ [CodePoint.ofChar '\r']) target list) :
    ∃ list', ImportsFrom t target list' := by
  obtain ⟨s₁, s₂, s₃, hs₁, hs₂, hs₃, hne, hTarget, hList, hStop, hText⟩ := h
  obtain ⟨list, c, rfl⟩ := (List.eq_nil_or_concat' list).resolve_left hList
  have hEnd : t ++ [CodePoint.ofChar '\r'] = (("from" : Text) ++ (s₁ ++ (target ++ (s₂ ++
      (("import" : Text) ++ (s₃ ++ list)))))) ++ [c] := by
    rw [hText]
    simp
  obtain ⟨ht, hSign⟩ := List.append_inj' hEnd rfl
  obtain ⟨rfl, -⟩ := List.cons_eq_cons.mp hSign
  have hNames : list ≠ [] := by
    rintro rfl
    exact absurd (stops_cons.mp hStop) (by decide)
  refine ⟨list, s₁, s₂, s₃, hs₁, hs₂, hs₃, hne, hTarget, hNames, ?_, ht⟩
  intro c hc
  apply hStop c
  rw [List.head?_append_of_ne_nil _ hNames]
  exact hc

theorem splitNames_eq_nil_of_blank (h : ∀ c ∈ list, c.isBlank) : splitNames list = [] := by
  apply List.eq_nil_iff_forall_not_mem.mpr
  intro name hName
  obtain ⟨hne, hTrimmed, -, hInfix⟩ := mem_splitNames hName
  cases name with
  | nil => exact hne rfl
  | cons c name =>
    have hBlank := h c (hInfix.mem List.mem_cons_self)
    rw [hTrimmed.head c rfl] at hBlank
    cases hBlank

/-- On a line that imports no list the names that are read are white space. -/
theorem isBlank_of_not_importsFrom {r : Reading}
    (h : ∀ target list, ¬ ImportsFrom t target list)
    (hRead : membersRule.rule.body.read? t = some r) :
    ∃ target names, r.parts = [(.names, names), (.target, target)] ∧
      ∀ c ∈ names, c.isBlank := by
  obtain ⟨target, names, s₁, s₂, s₃, hParts, hs₁, hs₂, hs₃, hne, hTarget, hText⟩ :=
    parts_of_read? hRead
  refine ⟨target, names, hParts, ?_⟩
  have hBlank : ∀ c ∈ (names ++ r.rest).takeWhile CodePoint.isBlank, c.isBlank :=
    List.all_eq_true.mp List.all_takeWhile
  have hWhole : (names ++ r.rest).takeWhile CodePoint.isBlank ++
      (names ++ r.rest).dropWhile CodePoint.isBlank = names ++ r.rest :=
    List.takeWhile_append_dropWhile
  -- what follows the white space behind `import` would be a list
  by_contra hNot
  have hRest : (names ++ r.rest).dropWhile CodePoint.isBlank ≠ [] := by
    intro hNil
    rw [hNil, List.append_nil] at hWhole
    rw [hWhole] at hBlank
    exact hNot fun c hc => hBlank c (List.mem_append_left _ hc)
  apply h target ((names ++ r.rest).dropWhile CodePoint.isBlank)
  refine ⟨s₁, s₂, s₃ ++ (names ++ r.rest).takeWhile CodePoint.isBlank, hs₁, hs₂, ?_, hne, hTarget,
    hRest, fun c => Text.of_mem_head?_dropWhile, ?_⟩
  · refine ⟨by simp [hs₃.1], fun c hc => ?_⟩
    rcases List.mem_append.mp hc with hc | hc
    · exact hs₃.2 c hc
    · exact hBlank c hc
  · rw [List.append_assoc, hWhole]
    exact hText

/-! ### Links -/

/-- On one line the rule has one link at most. -/
theorem linksOf_membersRule (hLine : CodePoint.ofChar '\n' ∉ t) (line : Nat) :
    Language.python.linksOf membersRule line t =
      (membersRule.rule.body.read? t).toList.filterMap
        fun r => Language.python.link? .members line ⟨0, r⟩ := by
  rw [Language.linksOf, Rule.matchesIn_eq_toList_of_anchored rfl rfl hLine]
  cases membersRule.rule.body.read? t <;> rfl

theorem link?_members {r : Reading} {names : Text} (line : Nat)
    (h : r.parts = [(.names, names), (.target, target)]) :
    Language.python.link? .members line ⟨0, r⟩ =
      some ⟨target, .named, splitNames names, line, Language.python.isExternal target⟩ := by
  simp [Language.link?, ImportForm.describe?, Match.part?, Reading.part?_eq_find?, h]

theorem linksOf_of_importsFrom (hLine : CodePoint.ofChar '\n' ∉ t) (h : ImportsFrom t target list)
    (line : Nat) : Language.python.linksOf membersRule line t =
      [⟨target, .named, splitNames list, line, Language.python.isExternal target⟩] := by
  obtain ⟨r, hRead, hParts⟩ := read?_of_importsFrom hLine h
  rw [linksOf_membersRule hLine, hRead, Option.toList_some, List.filterMap_cons,
    link?_members line hParts]
  rfl

end Python

/-- The link is an import of names that names none. -/
def Link.isIdle (l : Link) : Bool := l.kind = .named ∧ l.names = []

namespace Python

variable {t : Text}

theorem filter_linksOf_membersRule_eq_nil (hLine : CodePoint.ofChar '\n' ∉ t)
    (h : ∀ target list, ¬ ImportsFrom t target list) (line : Nat) :
    (Language.python.linksOf membersRule line t).filter (fun l => !l.isIdle) = [] := by
  rw [linksOf_membersRule hLine]
  cases hRead : membersRule.rule.body.read? t with
  | none => rfl
  | some r =>
    obtain ⟨target, names, hParts, hBlank⟩ := isBlank_of_not_importsFrom h hRead
    rw [Option.toList_some, List.filterMap_cons, link?_members line hParts,
      splitNames_eq_nil_of_blank hBlank]
    rfl

/-- A carriage return behind a line makes no difference but for idle links. -/
theorem filter_linksOf_membersRule_concat (hLine : CodePoint.ofChar '\n' ∉ t) (line : Nat) :
    (Language.python.linksOf membersRule line (t ++ [CodePoint.ofChar '\r'])).filter
        (fun l => !l.isIdle) =
      (Language.python.linksOf membersRule line t).filter fun l => !l.isIdle := by
  have hLonger : CodePoint.ofChar '\n' ∉ t ++ [CodePoint.ofChar '\r'] := by
    rw [List.mem_append, List.mem_singleton, not_or]
    exact ⟨hLine, by decide⟩
  by_cases h : ∃ target list, ImportsFrom t target list
  · obtain ⟨target, list, hFrom⟩ := h
    rw [linksOf_of_importsFrom hLonger hFrom.concat_return, linksOf_of_importsFrom hLine hFrom,
      splitNames_concat (by decide)]
  · have hNone : ∀ target list, ¬ ImportsFrom t target list := by simpa using h
    rw [filter_linksOf_membersRule_eq_nil hLine hNone, filter_linksOf_membersRule_eq_nil hLonger]
    intro target list hFrom
    obtain ⟨list', hShort⟩ := hFrom.of_concat_return
    exact hNone target list' hShort

end Python

end DependencyMap
