import DependencyMap.Proofs.Imports.Joining
import DependencyMap.Proofs.Imports.Reading
import DependencyMap.Proofs.Pattern.Keeping

/-!
# What every extracted link is like

`Link.WellFormed` says of a link of a text that its target and its names stand on the lines of the
text, that its names are those that an import of its kind has, and of which signs its target is.
Every link that extraction finds is like this, whatever the text, and the links come in the order of
their lines (`importsOf_wellFormed`).

Two things are known of each rule of the catalogue: inside which patterns it keeps its parts
(`exists_signs_of_mem_lineImports`), and how its form describes a link by them
(`ImportForm.Describes`). The rest is said of the lines of a text: what has no line break and stands
somewhere in the text stands on the line that is told by the breaks before it
(`exists_line_of_append`).
-/

namespace DependencyMap

open Pattern

/-! ### The lines of a text -/

theorem sourceLines_append_of_notMem {piece : Text} (h : CodePoint.ofChar '\n' ∉ piece) (t : Text) :
    sourceLines (piece ++ t) = (sourceLines t).modifyHead (piece ++ ·) := by
  induction piece with
  | nil =>
    rw [List.nil_append]
    cases sourceLines t <;> rfl
  | cons c piece ih =>
    obtain ⟨hc, hPiece⟩ := not_or.mp (mt List.mem_cons.mpr h)
    rw [List.cons_append, sourceLines, Text.splitOn_cons_of_ne (Ne.symm hc), ← sourceLines,
      ih hPiece, List.modifyHead_modifyHead]
    rfl

/-- A piece without a line break stands on the line that the breaks before it tell. -/
theorem exists_line_of_append {piece : Text} (hPiece : CodePoint.ofChar '\n' ∉ piece)
    (before after : Text) :
    ∃ t, (sourceLines (before ++ (piece ++ after)))[before.count (CodePoint.ofChar '\n')]? =
      some t ∧ piece <:+: t := by
  induction before with
  | nil =>
    rw [List.nil_append, sourceLines_append_of_notMem hPiece]
    cases hLines : sourceLines after with
    | nil => exact absurd hLines (List.splitOn_ne_nil _ _)
    | cons first others => exact ⟨piece ++ first, rfl, (List.prefix_append piece first).isInfix⟩
  | cons c before ih =>
    obtain ⟨t, ht, hInfix⟩ := ih
    rw [List.cons_append, sourceLines]
    by_cases hc : c = CodePoint.ofChar '\n'
    · subst hc
      rw [Text.splitOn_cons_self, List.count_cons_self, List.getElem?_cons_succ]
      exact ⟨t, ht, hInfix⟩
    · rw [Text.splitOn_cons_of_ne hc, List.count_cons_of_ne hc, List.getElem?_modifyHead,
        ← sourceLines, ht]
      split
      · exact ⟨c :: t, rfl, hInfix.trans (List.suffix_cons c t).isInfix⟩
      · exact ⟨t, rfl, hInfix⟩

/-! ### Links and the parts that they are made of -/

namespace ImportForm

/-- How a form describes a link by the parts of a match. -/
inductive Describes (m : Match) : ImportForm → ImportKind → List Text → Text → Prop
  | names {names target : Text} (hNames : m.part? .names = some names)
    (hTarget : m.part? .target = some target) :
    Describes m .bindings .named (splitNames names) target
  | binding {name target : Text} (hName : m.part? .binding = some name)
    (hTarget : m.part? .target = some target) : Describes m .bindings .default [name] target
  | unbound {target : Text} (hTarget : m.part? .target = some target) :
    Describes m .bindings .sideEffect [] target
  | wildcard {target : Text} (hTarget : m.part? .target = some target) :
    Describes m .wildcard .wildcard (m.part? .binding).toList target
  | bare {target : Text} (hTarget : m.part? .target = some target) :
    Describes m .bare .sideEffect [] target
  | members {target : Text} (hTarget : m.part? .target = some target) :
    Describes m .members .named (splitNames ((m.part? .names).getD [])) target
  | whole {target : Text} (hTarget : m.part? .target = some target) :
    Describes m .whole .default [] target
  | group {body target : Text} (hBody : m.part? .body = some body)
    (hTarget : lastGroupEntry? body = some target) : Describes m .group .default [] target

theorem describes_of_describe? {form : ImportForm} {m : Match} {kind : ImportKind}
    {names : List Text} {target : Text} (h : form.describe? m = some (kind, names, target)) :
    Describes m form kind names target := by
  cases form with
  | bindings =>
    cases hNames : m.part? .names with
    | some ns =>
      simp only [describe?, hNames, Option.map_eq_some_iff, Prod.mk.injEq] at h
      obtain ⟨_, hTarget, rfl, rfl, rfl⟩ := h
      exact .names hNames hTarget
    | none =>
      cases hName : m.part? .binding with
      | some name =>
        simp only [describe?, hNames, hName, Option.map_eq_some_iff, Prod.mk.injEq] at h
        obtain ⟨_, hTarget, rfl, rfl, rfl⟩ := h
        exact .binding hName hTarget
      | none =>
        simp only [describe?, hNames, hName, Option.map_eq_some_iff, Prod.mk.injEq] at h
        obtain ⟨_, hTarget, rfl, rfl, rfl⟩ := h
        exact .unbound hTarget
  | wildcard =>
    simp only [describe?, Option.map_eq_some_iff, Prod.mk.injEq] at h
    obtain ⟨_, hTarget, rfl, rfl, rfl⟩ := h
    exact .wildcard hTarget
  | bare =>
    simp only [describe?, Option.map_eq_some_iff, Prod.mk.injEq] at h
    obtain ⟨_, hTarget, rfl, rfl, rfl⟩ := h
    exact .bare hTarget
  | members =>
    simp only [describe?, Option.map_eq_some_iff, Prod.mk.injEq] at h
    obtain ⟨_, hTarget, rfl, rfl, rfl⟩ := h
    exact .members hTarget
  | whole =>
    simp only [describe?, Option.map_eq_some_iff, Prod.mk.injEq] at h
    obtain ⟨_, hTarget, rfl, rfl, rfl⟩ := h
    exact .whole hTarget
  | group =>
    simp only [describe?, Option.map_eq_some_iff, Option.bind_eq_some_iff, Prod.mk.injEq] at h
    obtain ⟨_, ⟨body, hBody, hTarget⟩, rfl, rfl, rfl⟩ := h
    exact .group hBody hTarget

/-- Only the target of a group is found by another way than being kept. -/
theorem Describes.part?_target {form : ImportForm} {m : Match} {kind : ImportKind}
    {names : List Text} {target : Text} (h : form.Describes m kind names target)
    (hForm : form ≠ .group) : m.part? .target = some target := by
  cases h with
  | names _ hTarget | binding _ hTarget => exact hTarget
  | unbound hTarget | wildcard hTarget | bare hTarget => exact hTarget
  | members hTarget | whole hTarget => exact hTarget
  | group _ _ => exact absurd rfl hForm

end ImportForm

namespace Language

def bindsDefaults : Language → Bool
  | .typescript | .javascript => true
  | _ => false

def allowsInTarget : Language → CodePoint → Bool
  | .typescript, c | .javascript, c => !isQuote c
  | .python, c => c = '.' || c.isWord
  | .rust, c => c ≠ ';'
  | _, _ => true

def usesForm : Language → ImportForm → Bool
  | .typescript, form | .javascript, form => form = .bindings || form = .wildcard || form = .bare
  | .python, form => form = .members || form = .whole
  | .go, form | .rust, form => form = .whole
  | _, _ => false

variable {language : Language} {r : ImportRule}

theorem usesForm_of_mem_lineImports (h : r ∈ language.lineImports) :
    language.usesForm r.form := by
  revert r
  cases language <;> simp [lineImports, moduleImports, ImportRule.atLineStart, ImportRule.anywhere,
    usesForm]

/-- A target is a run of signs that the language allows in it. -/
theorem exists_signs_of_mem_lineImports (h : r ∈ language.lineImports) :
    ∃ p, r.rule.body.keptUnder .target = [many1 p] ∧ ∀ c, p c → language.allowsInTarget c := by
  cases language with
  | typescript | javascript =>
    simp only [lineImports, moduleImports, List.mem_cons, List.not_mem_nil, or_false] at h
    rcases h with rfl | rfl | rfl | rfl | rfl
    all_goals exact ⟨fun c => !isQuote c, congrArg (fun q => [q]) upTo1_marks_eq, fun c hc => hc⟩
  | python =>
    simp only [lineImports, List.mem_cons, List.not_mem_nil, or_false] at h
    rcases h with rfl | rfl
    all_goals exact ⟨_, rfl, fun c hc => hc⟩
  | go =>
    obtain rfl := List.mem_singleton.mp h
    exact ⟨_, rfl, fun c _ => rfl⟩
  | rust =>
    simp only [lineImports, List.mem_cons, List.not_mem_nil, or_false] at h
    rcases h with rfl | rfl
    · refine ⟨_, rfl, fun c hc => ?_⟩
      rwa [List.all_cons, List.all_nil, Bool.and_true] at hc
    · refine ⟨_, rfl, fun c hc => decide_eq_true ?_⟩
      exact CodePoint.ne_of_isWord hc (by decide)
  | css | json | unknown => cases h

theorem eq_word1_of_mem_lineImports (h : r ∈ language.lineImports) :
    ∀ q ∈ r.rule.body.keptUnder .binding, q = word1 := by
  intro q hq
  cases language with
  | typescript | javascript =>
    simp only [lineImports, moduleImports, List.mem_cons, List.not_mem_nil, or_false] at h
    rcases h with rfl | rfl | rfl | rfl | rfl
    · exact List.mem_singleton.mp hq
    · exact List.mem_singleton.mp hq
    all_goals cases hq
  | python | rust =>
    simp only [lineImports, List.mem_cons, List.not_mem_nil, or_false] at h
    rcases h with rfl | rfl
    all_goals cases hq
  | go =>
    obtain rfl := List.mem_singleton.mp h
    cases hq
  | css | json | unknown => cases h

/-- An import of a whole module keeps the name under which it binds it. -/
theorem keeps_binding_of_mem_lineImports (h : r ∈ language.lineImports) :
    r.form = .wildcard → r.rule.body.keeps .binding := by
  revert r
  cases language <;> simp [lineImports, moduleImports, ImportRule.atLineStart, ImportRule.anywhere,
    Pattern.sequence, keeps]

def allowsNames (language : Language) (names : List Text) : ImportKind → Prop
  | .sideEffect => names = []
  | .wildcard => ∃ name : Word, names = [name.text]
  | .default => if language.bindsDefaults then ∃ name : Word, names = [name.text] else names = []
  | .named => ∀ name ∈ names, name ≠ [] ∧ name.Trimmed ∧ CodePoint.ofChar ',' ∉ name

end Language

/-! ### Matches on a line -/

namespace Language

variable {language : Language} {r : ImportRule} {m : Match} {t target u : Text}

theorem target_of_part? (hr : r ∈ language.lineImports) (hm : m ∈ r.rule.matchesIn t)
    (hPart : m.part? .target = some target) :
    target ≠ [] ∧ (∀ c ∈ target, language.allowsInTarget c) ∧ target <:+: t := by
  obtain ⟨p, hKept, hAllows⟩ := exists_signs_of_mem_lineImports hr
  obtain ⟨q, hq, ks, hTakes⟩ := Rule.exists_keptUnder_of_part? hm hPart
  rw [hKept] at hq
  obtain rfl := List.mem_singleton.mp hq
  obtain ⟨hne, hSigns, -⟩ := takes_many1.mp hTakes
  exact ⟨hne, fun c hc => hAllows c (hSigns c hc), Rule.infix_of_part? hm hPart⟩

theorem binding_of_part? (hr : r ∈ language.lineImports) (hm : m ∈ r.rule.matchesIn t)
    (hPart : m.part? .binding = some u) : ∃ name : Word, u = name.text ∧ u <:+: t := by
  obtain ⟨q, hq, ks, hTakes⟩ := Rule.exists_keptUnder_of_part? hm hPart
  obtain rfl := eq_word1_of_mem_lineImports hr q hq
  obtain ⟨hne, hWord, -⟩ := takes_many1.mp hTakes
  exact ⟨⟨u, hne, hWord⟩, rfl, Rule.infix_of_part? hm hPart⟩

theorem names_of_part? (hm : m ∈ r.rule.matchesIn t) {name : Text}
    (hName : name ∈ splitNames ((m.part? .names).getD [])) :
    (name ≠ [] ∧ name.Trimmed ∧ CodePoint.ofChar ',' ∉ name) ∧ name <:+: t := by
  obtain ⟨hne, hTrimmed, hComma, hInfix⟩ := mem_splitNames hName
  refine ⟨⟨hne, hTrimmed, hComma⟩, ?_⟩
  cases hPart : m.part? .names with
  | none =>
    rw [hPart] at hInfix
    exact absurd (List.infix_nil.mp hInfix) hne
  | some names =>
    rw [hPart] at hInfix
    exact hInfix.trans (Rule.infix_of_part? hm hPart)

/-- The names that a match describes are those of an import of its kind. -/
theorem allowsNames_of_describes (hr : r ∈ language.lineImports) (hm : m ∈ r.rule.matchesIn t)
    {kind : ImportKind} {names : List Text} (h : r.form.Describes m kind names target) :
    language.allowsNames names kind ∧ ∀ name ∈ names, name <:+: t := by
  obtain ⟨form, rule⟩ := r
  have hForm : language.usesForm form := usesForm_of_mem_lineImports hr
  cases h with
  | names hNames _ =>
    have hPart := congrArg (fun part => part.getD []) hNames
    exact ⟨fun name hName => (names_of_part? hm (hPart ▸ hName)).1,
      fun name hName => (names_of_part? hm (hPart ▸ hName)).2⟩
  | binding hName _ =>
    obtain ⟨name, rfl, hInfix⟩ := binding_of_part? hr hm hName
    have hBinds : language.bindsDefaults := by
      cases language <;> first | rfl | cases hForm
    rw [allowsNames, if_pos hBinds]
    exact ⟨⟨name, rfl⟩, List.forall_mem_singleton.mpr hInfix⟩
  | unbound _ | bare _ => exact ⟨rfl, List.forall_mem_nil _⟩
  | wildcard _ =>
    obtain ⟨u, hu⟩ := Rule.exists_part?_of_keeps (keeps_binding_of_mem_lineImports hr rfl) hm
    obtain ⟨name, rfl, hInfix⟩ := binding_of_part? hr hm hu
    rw [Match.part?] at hu ⊢
    rw [hu]
    exact ⟨⟨name, rfl⟩, List.forall_mem_singleton.mpr hInfix⟩
  | members _ =>
    exact ⟨fun name hName => (names_of_part? hm hName).1,
      fun name hName => (names_of_part? hm hName).2⟩
  | whole _ =>
    have hBinds : ¬ language.bindsDefaults := by
      cases language <;> first | exact Bool.false_ne_true | cases hForm
    rw [allowsNames, if_neg hBinds]
    exact ⟨rfl, List.forall_mem_nil _⟩
  | group _ _ => cases language <;> cases hForm

end Language

/-! ### Well-formed links -/

/-- What is true of a link of a language wherever it stands. -/
structure Link.Fits (language : Language) (l : Link) : Prop where
  target_ne_nil : l.target ≠ []
  allowsInTarget : ∀ c ∈ l.target, language.allowsInTarget c
  allowsNames : language.allowsNames l.names l.kind
  isExternal_eq : l.isExternal = language.isExternal l.target

/-- A link of a text: besides what is true of it everywhere, its names stand on its line, and so
does its target, which for a group may stand on a later line. -/
structure Link.WellFormed (language : Language) (content : Text) (l : Link) : Prop
    extends l.Fits language where
  line_pos : 1 ≤ l.line
  line_le : l.line ≤ content.count (CodePoint.ofChar '\n') + 1
  names_on_line : ∃ t, (sourceLines content)[l.line - 1]? = some t ∧ ∀ name ∈ l.names, name <:+: t
  target_on_line : ∃ n t, (sourceLines content)[n - 1]? = some t ∧ l.target <:+: t ∧
    (n = l.line ∨ language = .go ∧ l ∈ language.groupLinks content ∧ l.line ≤ n)

namespace Language

variable {language : Language} {content t : Text} {l : Link} {line : Nat}

theorem fits_of_mem_linksOnLine (h : l ∈ language.linksOnLine line t) :
    l.Fits language ∧ l.line = line ∧ l.target <:+: t ∧ ∀ name ∈ l.names, name <:+: t := by
  obtain ⟨r, hr, hLink⟩ := List.mem_flatMap.mp h
  obtain ⟨m, hm, hLink⟩ := List.mem_filterMap.mp hLink
  obtain ⟨⟨kind, names, target⟩, hDescribe, rfl⟩ := Option.map_eq_some_iff.mp hLink
  have hDescribes := ImportForm.describes_of_describe? hDescribe
  have hForm : r.form ≠ .group := by
    intro hGroup
    have hUses := usesForm_of_mem_lineImports hr
    rw [hGroup] at hUses
    cases language <;> cases hUses
  obtain ⟨hNames, hNamesInfix⟩ := allowsNames_of_describes hr hm hDescribes
  obtain ⟨hne, hSigns, hInfix⟩ := target_of_part? hr hm (hDescribes.part?_target hForm)
  exact ⟨⟨hne, hSigns, hNames, rfl⟩, rfl, hInfix, hNamesInfix⟩

/-! ### Groups -/

theorem lastGroupEntry?_eq_some {body target : Text} (h : lastGroupEntry? body = some target) :
    target ≠ [] ∧ CodePoint.ofChar '\n' ∉ target ∧ target <:+: body := by
  obtain ⟨hMem, hKept⟩ := List.mem_filter.mp (List.mem_of_getLast? h)
  obtain ⟨piece, hPiece, rfl⟩ := List.mem_map.mp hMem
  have hInfix : groupEntry piece <:+: piece :=
    (Text.stripWhere_infix _ _).trans (Text.stripWhere_infix _ _)
  rw [Bool.and_eq_true] at hKept
  refine ⟨by simpa using hKept.1, ?_, hInfix.trans (Text.infix_of_mem_splitOn hPiece)⟩
  intro hBreak
  exact Text.notMem_of_mem_splitOn hPiece (hInfix.mem hBreak)

/-- The entry of a group stands on the line on which the group begins or on a later one. -/
theorem fits_of_mem_groupLinks (h : l ∈ language.groupLinks content) :
    l.Fits language ∧ l.names = [] ∧ language = .go ∧
      ∃ n t, (sourceLines content)[n - 1]? = some t ∧ l.target <:+: t ∧ l.line ≤ n := by
  obtain ⟨r, hr, hLink⟩ := List.mem_flatMap.mp h
  obtain ⟨m, hm, hLink⟩ := List.mem_filterMap.mp hLink
  obtain ⟨⟨kind, names, target⟩, hDescribe, rfl⟩ := Option.map_eq_some_iff.mp hLink
  obtain ⟨rfl, hForm⟩ := group_of_mem_groupImports hr
  have hDescribes := ImportForm.describes_of_describe? hDescribe
  rw [hForm] at hDescribes
  cases hDescribes with
  | group hBody hTarget =>
    obtain ⟨hne, hBreak, hInfix⟩ := lastGroupEntry?_eq_some hTarget
    obtain ⟨before, after, hDrop⟩ := hInfix.trans (Rule.infix_drop_of_part? hm hBody)
    obtain ⟨t, ht, hTargetInfix⟩ :=
      exists_line_of_append hBreak (content.take m.offset ++ before) after
    have hContent : content.take m.offset ++ before ++ (target ++ after) = content := by
      rw [List.append_assoc, ← List.append_assoc before, hDrop, List.take_append_drop]
    rw [hContent, List.count_append] at ht
    refine ⟨⟨hne, fun c _ => rfl, rfl, rfl⟩, rfl, rfl, _ + 1, t, ht, hTargetInfix, ?_⟩
    exact Nat.succ_le_succ (Nat.le_add_right _ _)

end Language

/-! ### The imports of a text -/

namespace Language

variable {language : Language} {content t : Text} {l : Link} {line : Nat}

theorem wellFormed_of_mem (ht : (sourceLines content)[line - 1]? = some t) (hFirst : 1 ≤ line)
    (h : l ∈ language.groupsOnLine content line ++ language.linksOnLine line t) :
    l.line = line ∧ l.WellFormed language content := by
  have hLast : line ≤ content.count (CodePoint.ofChar '\n') + 1 := by
    obtain ⟨hLt, -⟩ := List.getElem?_eq_some_iff.mp ht
    rw [length_sourceLines, lineCount] at hLt
    omega
  rcases List.mem_append.mp h with h | h
  · obtain ⟨hGroup, hLine⟩ := List.mem_filter.mp h
    obtain rfl : l.line = line := of_decide_eq_true hLine
    obtain ⟨hFits, hNames, hGo, n, t', ht', hTarget, hLater⟩ := fits_of_mem_groupLinks hGroup
    refine ⟨rfl, hFits, hFirst, hLast, ⟨t, ht, ?_⟩, n, t', ht', hTarget,
      Or.inr ⟨hGo, hGroup, hLater⟩⟩
    rw [hNames]
    exact List.forall_mem_nil _
  · obtain ⟨hFits, rfl, hTarget, hNames⟩ := fits_of_mem_linksOnLine h
    exact ⟨rfl, hFits, hFirst, hLast, ⟨t, ht, hNames⟩, l.line, t, ht, hTarget, Or.inl rfl⟩

theorem pairwise_line_importsOf (language : Language) (content : Text) :
    (language.importsOf content).Pairwise fun l l' => l.line ≤ l'.line := by
  have hLine (e : Text × Nat) (he : e ∈ (sourceLines content).zipIdx 1) (l : Link)
      (hl : l ∈ language.groupsOnLine content e.2 ++ language.linksOnLine e.2 e.1) :
      l.line = e.2 := by
    obtain ⟨hFirst, ht⟩ := List.mem_zipIdx_iff_le_and_getElem?_sub.mp he
    exact (wellFormed_of_mem ht hFirst hl).1
  have hOrder : ((sourceLines content).zipIdx 1).Pairwise fun e e' => e.2 < e'.2 := by
    rw [← List.pairwise_map (f := Prod.snd), List.zipIdx_map_snd]
    exact List.pairwise_lt_range'
  rw [importsOf_eq, List.pairwise_flatMap]
  refine ⟨fun e he => ?_, hOrder.imp_of_mem ?_⟩
  · apply List.pairwise_of_forall_mem_list
    intro l hl l' hl'
    exact Nat.le_of_eq ((hLine e he l hl).trans (hLine e he l' hl').symm)
  · intro e e' he he' hLt l hl l' hl'
    rw [hLine e he l hl, hLine e' he' l' hl']
    exact Nat.le_of_lt hLt

end Language

/-- Every import of a text is a well-formed link of it, and the imports come in the order of their
lines. -/
theorem importsOf_wellFormed (language : Language) (content : Text) :
    (language.importsOf content).Pairwise (fun l l' => l.line ≤ l'.line) ∧
      ∀ l ∈ language.importsOf content, l.WellFormed language content := by
  refine ⟨language.pairwise_line_importsOf content, fun l hl => ?_⟩
  rw [Language.importsOf_eq] at hl
  obtain ⟨e, he, hl⟩ := List.mem_flatMap.mp hl
  obtain ⟨hFirst, ht⟩ := List.mem_zipIdx_iff_le_and_getElem?_sub.mp he
  exact (Language.wellFormed_of_mem ht hFirst hl).2

/-- A group whose last entry stands on its third line, and an import after it. -/
def groupThenImportText : Text := "import (\n\"fmt\"\n\"net/http\"\n)\nimport \"os\""

theorem importsOf_wellFormed_groupThenImportText :
    (⟨"net/http", .default, [], 1, true⟩ : Link) ∈ Language.go.importsOf groupThenImportText ∧
    Link.WellFormed .go groupThenImportText ⟨"net/http", .default, [], 1, true⟩ ∧
    (Language.go.importsOf groupThenImportText).Pairwise fun l l' => l.line ≤ l'.line := by
  have hMem : (⟨"net/http", .default, [], 1, true⟩ : Link) ∈
      Language.go.importsOf groupThenImportText := by decide +kernel
  obtain ⟨hOrder, hLinks⟩ := importsOf_wellFormed .go groupThenImportText
  exact ⟨hMem, hLinks _ hMem, hOrder⟩

end DependencyMap
