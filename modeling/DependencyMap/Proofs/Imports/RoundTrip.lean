import DependencyMap.Proofs.Imports.Reading

/-!
# Extracting printed imports

`importsOf_sourceText`: of a source text that is printed line by line from import statements and
noise, extraction gives the link of each statement, on its line and in order, and nothing else.

The proof is a line lemma for statements (`ImportStatement.linksOnLine_text`), one for noise
(`linksOnLine_noise`), and an induction over the lines in which the number of the first line is
arbitrary.
-/

namespace DependencyMap

open Pattern

/-! ### Signs before the target -/

/-- The signs other than word characters that are printed up to the first mark of a target. -/
def openingSigns : Text := [' ', ',', '*', '{', '}', '\'', '"'].map CodePoint.ofChar

def IsOpening (t : Text) : Prop := ∀ c ∈ t, c.isWord ∨ c ∈ openingSigns

instance (t : Text) : Decidable (IsOpening t) := inferInstanceAs (Decidable (∀ _ ∈ _, _))

theorem IsOpening.append {s t : Text} (hs : IsOpening s) (ht : IsOpening t) :
    IsOpening (s ++ t) := by
  intro c hc
  rcases List.mem_append.mp hc with hc | hc
  · exact hs c hc
  · exact ht c hc

theorem Word.isOpening (w : Word) : IsOpening w.text := fun c hc => Or.inl (w.isWord c hc)

theorem ImportedName.isOpening_bracedText (n : ImportedName) (ns : List ImportedName) :
    IsOpening (bracedText n ns) := by
  have hInner : IsOpening (innerText n ns) := by
    intro c hc
    rcases mem_innerText hc with hWord | rfl | rfl
    · exact Or.inl hWord
    · exact Or.inr (by decide)
    · exact Or.inr (by decide)
  have hOpen : IsOpening [CodePoint.ofChar '{'] := by decide
  exact hOpen.append (hInner.append (by decide))

theorem ImportBinding.isOpening_text : ∀ b : ImportBinding, IsOpening b.text
  | .default name => name.isOpening
  | .named first others => ImportedName.isOpening_bracedText first others
  | .both name first others =>
    (name.isOpening.append (by decide)).append (ImportedName.isOpening_bracedText first others)

theorem ImportHead.isOpening_text : ∀ head : ImportHead, IsOpening head.text
  | .bindings true b =>
    have hType : IsOpening ("type " : Text) := by decide
    (hType.append b.isOpening_text).append (by decide)
  | .bindings false b => b.isOpening_text.append (by decide)
  | .wildcard name =>
    have hAs : IsOpening ("* as " : Text) := by decide
    (hAs.append name.isOpening).append (by decide)
  | .bare => by decide

namespace ImportStatement

def opening (s : ImportStatement) : Text := "import " ++ (s.head.text ++ [s.mark.sign])

theorem text_eq_opening_append (s : ImportStatement) :
    s.text = s.opening ++ (s.target.text ++ s.mark.sign :: s.ending) := by
  rw [text_eq, quotedText, opening, List.append_assoc, List.append_assoc, List.singleton_append]

theorem isOpening_opening (s : ImportStatement) : IsOpening s.opening := by
  have hImport : IsOpening ("import " : Text) := by decide
  have hMark : IsOpening [s.mark.sign] := by cases s.mark <;> decide
  exact hImport.append (s.head.isOpening_text.append hMark)

theorem notMem_opening {s : ImportStatement} {c : CodePoint} (hWord : c.isWord = false)
    (hSign : c ∉ openingSigns) : c ∉ s.opening := by
  intro h
  rcases s.isOpening_opening c h with hc | hc
  · rw [hWord] at hc
    cases hc
  · exact hSign hc

theorem notMem_ending {s : ImportStatement} {c : CodePoint} (h : c ≠ ';') : c ∉ s.ending := by
  have hSemicolon : ∀ c ∈ (";" : Text), c = CodePoint.ofChar ';' := by decide
  intro hc
  rw [ending] at hc
  split at hc
  · exact h (hSemicolon c hc)
  · cases hc

theorem text_ne_nil (s : ImportStatement) : s.text ≠ [] := by
  rw [s.text_eq]
  exact List.append_ne_nil_of_left_ne_nil (by decide) _

theorem noBreak (s : ImportStatement) : CodePoint.ofChar '\n' ∉ s.text := by
  have hMark : CodePoint.ofChar '\n' ≠ s.mark.sign := by cases s.mark <;> decide
  rw [text_eq_opening_append, List.mem_append, List.mem_append, List.mem_cons]
  rintro (h | h | h | h)
  · exact notMem_opening (by decide) (by decide) h
  · exact s.target.noBreak h
  · exact hMark h
  · exact notMem_ending (by decide) h

end ImportStatement

/-! ### The links of one line -/

theorem describe?_bindings (mark : QuotationMark) (target : ImportTarget) (k : Nat)
    (rest after : Text) (b : ImportBinding) :
    ImportForm.bindings.describe?
      ⟨0, ⟨k, rest, targetKept mark target rest :: bindingKept b after⟩⟩ =
      some (b.described.1, b.described.2, target.text) := by
  cases b <;>
    simp [ImportForm.describe?, Match.part?, Reading.part?, Kept.content, targetKept, bindingKept,
      ImportBinding.described, ImportedName.splitNames_innerText]

theorem describe?_wildcard (mark : QuotationMark) (target : ImportTarget) (k : Nat)
    (rest after : Text) (name : Word) :
    ImportForm.wildcard.describe?
      ⟨0, ⟨k, rest, [targetKept mark target rest,
        ⟨.binding, name.text ++ after, name.text.length⟩]⟩⟩ =
      some (.wildcard, [name.text], target.text) := by
  simp [ImportForm.describe?, Match.part?, Reading.part?, Kept.content, targetKept]

theorem describe?_bare (mark : QuotationMark) (target : ImportTarget) (k : Nat) (rest : Text) :
    ImportForm.bare.describe? ⟨0, ⟨k, rest, [targetKept mark target rest]⟩⟩ =
      some (.sideEffect, [], target.text) := by
  simp [ImportForm.describe?, Match.part?, Reading.part?, Kept.content, targetKept]

theorem isExternal_eq {language : Language}
    (hLanguage : language = .javascript ∨ language = .typescript) (target : Text) :
    language.isExternal target =
      decide (∀ beginning ∈ [".", "@/", "~/"], ¬ (beginning : Text) <+: target) := by
  have hPackage : language.isExternal target = isPackageSpecifier target := by
    rcases hLanguage with rfl | rfl <;> rfl
  rw [hPackage, isPackageSpecifier, Bool.eq_iff_iff]
  simp [Text.startsWith, ← Bool.not_eq_true, List.isPrefixOf_iff_prefix]

theorem link?_of_describe? {language : Language}
    (hLanguage : language = .javascript ∨ language = .typescript) {form : ImportForm} {m : Match}
    {s : ImportStatement} (line : Nat)
    (h : form.describe? m = some (s.head.described.1, s.head.described.2, s.target.text)) :
    language.link? form line m = some (s.link line) := by
  rw [Language.link?, h, Option.map_some, ImportStatement.link]
  simp only [isExternal_eq hLanguage]

namespace ImportStatement

theorem matchesIn_callRule (s : ImportStatement) (name : Text) :
    (callRule (name ++ [CodePoint.ofChar '('])).rule.matchesIn s.text = [] := by
  have hTarget : s.target.text.countP isQuote = 0 := by
    rw [List.countP_eq_zero]
    intro c hc hQuote
    obtain ⟨mark, rfl⟩ := isQuote_iff.mp hQuote
    exact s.target.noMark mark hc
  have hEnding : s.ending.countP isQuote = 0 := by
    rw [ending]
    cases s.terminated <;> decide
  rw [text_eq_opening_append]
  refine matchesIn_callRule_eq_nil (notMem_opening (by decide) (by decide)) ?_
  -- of the two marks only the closing one follows the target
  rw [List.countP_append, List.countP_cons, hTarget, hEnding]
  split <;> omega

section Rules

variable {language : Language} {s : ImportStatement} {rule : ImportRule} (line : Nat)

theorem links_of_read?_eq_some (hLanguage : language = .javascript ∨ language = .typescript)
    (hRule : rule.rule.anchored = true) {r : Reading} (hRead : rule.rule.body.read? s.text = some r)
    (hDescribe : rule.form.describe? ⟨0, r⟩ =
      some (s.head.described.1, s.head.described.2, s.target.text)) :
    (rule.rule.matchesIn s.text).filterMap (language.link? rule.form line) = [s.link line] := by
  have hLink := link?_of_describe? hLanguage line hDescribe
  rw [Rule.matchesIn_of_anchored hRule s.text_ne_nil s.noBreak, hRead, Option.map_some,
    Option.toList_some, List.filterMap_cons_some hLink, List.filterMap_nil]

theorem links_of_read?_eq_none (hRule : rule.rule.anchored = true)
    (hRead : rule.rule.body.read? s.text = none) :
    (rule.rule.matchesIn s.text).filterMap (language.link? rule.form line) = [] := by
  rw [Rule.matchesIn_of_anchored hRule s.text_ne_nil s.noBreak, hRead, Option.map_none,
    Option.toList_none, List.filterMap_nil]

end Rules

/-- Only the rules for statements find links on a printed statement. -/
theorem linksOnLine_eq {language : Language}
    (hLanguage : language = .javascript ∨ language = .typescript) (s : ImportStatement)
    (line : Nat) :
    language.linksOnLine line s.text = [bindingsRule language, wildcardRule, bareRule].flatMap
      fun r => (r.rule.matchesIn s.text).filterMap (language.link? r.form line) := by
  have hDynamic : (callRule "import(").rule.matchesIn s.text = [] := s.matchesIn_callRule "import"
  have hRequire : (callRule "require(").rule.matchesIn s.text = [] :=
    s.matchesIn_callRule "require"
  simp only [Language.linksOnLine, lineImports_eq hLanguage, List.flatMap_cons, List.flatMap_nil,
    hDynamic, hRequire, List.filterMap_nil, List.append_nil]

/-- On a printed statement extraction finds its link and no other. -/
theorem linksOnLine_text {language : Language}
    (hLanguage : language = .javascript ∨ language = .typescript) (s : ImportStatement)
    (hAllowed : s.head.AllowedIn language) (line : Nat) :
    language.linksOnLine line s.text = [s.link line] := by
  rw [linksOnLine_eq hLanguage, List.flatMap_cons, List.flatMap_cons, List.flatMap_cons,
    List.flatMap_nil, List.append_nil]
  cases hHead : s.head with
  | bindings typeOnly b =>
    have hText : s.text = ("import " : Text) ++
        ((ImportHead.bindings typeOnly b).text ++ quotedText s.mark s.target s.ending) := by
      rw [text_eq, hHead]
    obtain ⟨k, hk⟩ := read?_bindingsRule s.mark s.target s.ending hLanguage (hHead ▸ hAllowed)
    have hBlank (t : Text) : Stops CodePoint.isBlank ((ImportHead.bindings typeOnly b).text ++ t) :=
      ImportHead.stops_bindings typeOnly b (fun _ => CodePoint.isBlank_eq_false_of_isWord)
        (by decide) t
    have hWildcard : wildcardRule.rule.body.read? s.text = none := by
      rw [hText]
      exact read?_wildcardRule_eq_none (hBlank _)
        (ImportHead.stops_bindings typeOnly b
          (fun c hc => decide_eq_false (CodePoint.ne_of_isWord hc (by decide))) (by decide) _)
    have hBare : bareRule.rule.body.read? s.text = none := by
      rw [hText]
      exact read?_bareRule_eq_none (hBlank _)
        (ImportHead.stops_bindings typeOnly b (fun _ => isQuote_eq_false_of_isWord) (by decide) _)
    rw [links_of_read?_eq_some line hLanguage rfl (hText ▸ hk)
        (hHead ▸ describe?_bindings s.mark s.target k s.ending _ b),
      links_of_read?_eq_none line rfl hWildcard, links_of_read?_eq_none line rfl hBare]
    rfl
  | wildcard name =>
    have hText : s.text = ("import " : Text) ++
        ((ImportHead.wildcard name).text ++ quotedText s.mark s.target s.ending) := by
      rw [text_eq, hHead]
    obtain ⟨k, hk⟩ := read?_wildcardRule s.mark s.target s.ending name
    have hBindings : (bindingsRule language).rule.body.read? s.text = none := by
      rw [hText]
      exact read?_bindingsRule_eq_none (c := '*') (by decide) (by decide) (by decide)
    have hBare : bareRule.rule.body.read? s.text = none := by
      rw [hText]
      exact read?_bareRule_eq_none (t := CodePoint.ofChar '*' :: _) (stops_cons.mpr (by decide))
        (stops_cons.mpr (by decide))
    rw [links_of_read?_eq_none line rfl hBindings,
      links_of_read?_eq_some line hLanguage rfl (hText ▸ hk)
        (hHead ▸ describe?_wildcard s.mark s.target k s.ending _ name),
      links_of_read?_eq_none line rfl hBare]
    rfl
  | bare =>
    have hText : s.text = ("import " : Text) ++ quotedText s.mark s.target s.ending := by
      rw [text_eq, hHead]
      rfl
    have hSign : s.mark.sign.isWord = false := by cases s.mark <;> decide
    obtain ⟨k, hk⟩ := read?_bareRule s.mark s.target s.ending
    have hBindings : (bindingsRule language).rule.body.read? s.text = none := by
      rw [hText]
      exact read?_bindingsRule_eq_none hSign s.mark.isBlank_sign (by cases s.mark <;> decide)
    have hWildcard : wildcardRule.rule.body.read? s.text = none := by
      rw [hText]
      exact read?_wildcardRule_eq_none (stops_cons.mpr s.mark.isBlank_sign)
        (stops_cons.mpr (by cases s.mark <;> decide))
    rw [links_of_read?_eq_none line rfl hBindings, links_of_read?_eq_none line rfl hWildcard,
      links_of_read?_eq_some line hLanguage rfl (hText ▸ hk)
        (hHead ▸ describe?_bare s.mark s.target k s.ending)]
    rfl

end ImportStatement

/-- Where neither `import` nor `require(` occurs, no link is found. -/
theorem linksOnLine_noise {language : Language}
    (hLanguage : language = .javascript ∨ language = .typescript) {t : Text}
    (hImport : ¬ ("import" : Text) <:+: t) (hRequire : ¬ ("require(" : Text) <:+: t) (line : Nat) :
    language.linksOnLine line t = [] := by
  have hPrefix : ("import" : Text) <+: "import(" := by decide
  have hCall : ¬ ("import(" : Text) <:+: t := fun h => hImport (hPrefix.isInfix.trans h)
  have hBindings : (bindingsRule language).rule.matchesIn t = [] :=
    matchesIn_eq_nil_of_not_infix hImport
  have hWildcard : wildcardRule.rule.matchesIn t = [] := matchesIn_eq_nil_of_not_infix hImport
  have hBare : bareRule.rule.matchesIn t = [] := matchesIn_eq_nil_of_not_infix hImport
  have hDynamic : (callRule "import(").rule.matchesIn t = [] := matchesIn_eq_nil_of_not_infix hCall
  have hRequired : (callRule "require(").rule.matchesIn t = [] :=
    matchesIn_eq_nil_of_not_infix hRequire
  simp only [Language.linksOnLine, lineImports_eq hLanguage, List.flatMap_cons, List.flatMap_nil,
    hBindings, hWildcard, hBare, hDynamic, hRequired, List.filterMap_nil, List.append_nil]

/-! ### The links of a source text -/

theorem groupLinks_eq_nil {language : Language}
    (hLanguage : language = .javascript ∨ language = .typescript) (content : Text) :
    language.groupLinks content = [] := by
  rcases hLanguage with rfl | rfl <;> rfl

theorem ImportLine.noBreak_text : ∀ l : ImportLine, CodePoint.ofChar '\n' ∉ l.text
  | .noise _ noBreak _ _ => noBreak
  | .statement s => s.noBreak

theorem sourceLines_sourceText {lines : List ImportLine} (hne : lines ≠ []) :
    sourceLines (ImportLine.sourceText lines) = lines.map ImportLine.text := by
  refine List.splitOn_intercalate _ (fun t ht => ?_) (by simpa using hne)
  obtain ⟨l, -, rfl⟩ := List.mem_map.mp ht
  exact l.noBreak_text

/-- Line by line, wherever the first of the lines stands. -/
theorem flatMap_linksOnLine {language : Language}
    (hLanguage : language = .javascript ∨ language = .typescript) {lines : List ImportLine}
    (hLines : ∀ l ∈ lines, l.AllowedIn language) (first : Nat) :
    ((lines.map ImportLine.text).zipIdx first).flatMap
      (fun (t, line) => language.linksOnLine line t) = ImportLine.links first lines := by
  induction lines generalizing first with
  | nil => rfl
  | cons l lines ih =>
    have hTail : ∀ m ∈ lines, m.AllowedIn language :=
      fun m hm => hLines m (List.mem_cons_of_mem _ hm)
    rw [List.map_cons, List.zipIdx_cons, List.flatMap_cons, ih hTail]
    cases l with
    | noise t noBreak noImport noRequire =>
      have hNone := linksOnLine_noise hLanguage noImport noRequire first
      show language.linksOnLine first t ++ _ = _
      rw [hNone, List.nil_append, ImportLine.links]
    | statement s =>
      have hOne := s.linksOnLine_text hLanguage (hLines _ List.mem_cons_self) first
      show language.linksOnLine first s.text ++ _ = _
      rw [hOne, List.singleton_append, ImportLine.links]

/-- The imports of a printed source text are the links of its statements, in order and each on the
line where its statement stands. -/
theorem importsOf_sourceText {language : Language}
    (hLanguage : language = .javascript ∨ language = .typescript) {lines : List ImportLine}
    (hLines : ∀ l ∈ lines, l.AllowedIn language) :
    language.importsOf (ImportLine.sourceText lines) = ImportLine.links 1 lines := by
  cases lines with
  | nil =>
    -- no lines are printed as one line that is empty
    have hNone := linksOnLine_noise (t := []) hLanguage (by decide) (by decide) 1
    simp only [Language.importsOf, groupLinks_eq_nil hLanguage, List.filter_nil, List.nil_append]
    exact (List.append_nil _).trans hNone
  | cons l lines =>
    rw [← flatMap_linksOnLine hLanguage hLines, ← sourceLines_sourceText (List.cons_ne_nil l lines)]
    simp only [Language.importsOf, groupLinks_eq_nil hLanguage, List.filter_nil, List.nil_append]

/-- Lines in which the names and targets look like parts of other statements. -/
def confusingLines : List ImportLine :=
  let typeWord : Word := ⟨"type", by decide, by decide⟩
  let fromWord : Word := ⟨"from", by decide, by decide⟩
  let asWord : Word := ⟨"as", by decide, by decide⟩
  let call : ImportTarget :=
    ⟨"import(x)", by decide, by intro mark; cases mark <;> decide, by decide⟩
  let clause : ImportTarget :=
    ⟨"./a from b", by decide, by intro mark; cases mark <;> decide, by decide⟩
  [.statement ⟨.bindings true (.default typeWord), call, .single, true⟩,
    .noise "// from here on" (by decide) (by decide +kernel) (by decide +kernel),
    .statement ⟨.bindings false (.both typeWord (.renamed asWord fromWord) [.plain typeWord]),
      clause, .double, false⟩,
    .statement ⟨.bindings false (.default fromWord), call, .double, false⟩,
    .statement ⟨.wildcard asWord, clause, .single, true⟩,
    .statement ⟨.bare, call, .double, true⟩]

theorem importsOf_confusingLines :
    (∀ l ∈ confusingLines, l.AllowedIn .typescript) ∧
      Language.typescript.importsOf (ImportLine.sourceText confusingLines) =
        [⟨"import(x)", .default, ["type"], 1, true⟩,
          ⟨"./a from b", .named, ["as as from", "type"], 3, false⟩,
          ⟨"import(x)", .default, ["from"], 4, true⟩,
          ⟨"./a from b", .wildcard, ["as"], 5, false⟩,
          ⟨"import(x)", .sideEffect, [], 6, true⟩] := by
  have hAllowed : ∀ l ∈ confusingLines, l.AllowedIn .typescript := by
    have hName : ("from" : Text) ≠ "type" := by decide
    simp [confusingLines, ImportLine.AllowedIn, ImportHead.AllowedIn, hName]
  have hLinks : ImportLine.links 1 confusingLines =
      [⟨"import(x)", .default, ["type"], 1, true⟩,
        ⟨"./a from b", .named, ["as as from", "type"], 3, false⟩,
        ⟨"import(x)", .default, ["from"], 4, true⟩,
        ⟨"./a from b", .wildcard, ["as"], 5, false⟩,
        ⟨"import(x)", .sideEffect, [], 6, true⟩] := by decide
  refine ⟨hAllowed, ?_⟩
  rw [← hLinks]
  exact importsOf_sourceText (Or.inr rfl) hAllowed

end DependencyMap
