import DependencyMap.Proofs.Imports.RoundTrip
import DependencyMap.Proofs.Imports.TypeOnly
import DependencyMap.Proofs.Text.Segments
import Mathlib.Data.List.Flatten

/-!
# The same text in TypeScript and in JavaScript

The catalogues of the two languages differ in the rule for bindings, where TypeScript may read
`type` and white space before the binding, and tries this first. The outcomes of its rule are
therefore those of JavaScript with the outcomes of an import of types before them, at each place
where the white space behind `import` may end (`outcomes_typescript`). Where both kinds of outcomes
exist the line binds the name `type` (`bindsType_of_mem_outcomes`), so on every other line
JavaScript has no reading or both languages have the same.

`typescript_importsOf_javascript` says what this means for the imports of a text.
-/

namespace DependencyMap

open Pattern

section Outcomes

variable {t word w rest target : Text} {m m' r r' : Reading} {ks : List (Slot × Text)}

def keyword (word : Text) : Pattern := sequence [.text word, blanks1]

theorem outcomes_javascript (r : Reading) : (bindingsRule .javascript).rule.body.outcomes r =
    ((keyword "import").outcomes r).flatMap clausePattern.outcomes :=
  outcomes_sequence_append [.text "import", blanks1] _ r

theorem outcomes_typescript (r : Reading) : (bindingsRule .typescript).rule.body.outcomes r =
    ((keyword "import").outcomes r).flatMap fun m =>
      ((keyword "type").outcomes m).flatMap clausePattern.outcomes ++ clausePattern.outcomes m := by
  have hBody := outcomes_sequence_append [.text "import", blanks1]
    (typeMark .typescript ++ [importClause, blanks, .text "from", blanks, quotedTarget]) r
  refine hBody.trans (List.flatMap_congr fun m _ => ?_)
  show ((keyword "type").outcomes m ++ [m]).flatMap clausePattern.outcomes = _
  rw [List.flatMap_append, List.flatMap_singleton]

theorem exists_gap_of_mem_outcomes (h : m ∈ (keyword word).outcomes r) :
    ∃ s, IsGap s ∧ r.rest = word ++ (s ++ m.rest) := by
  obtain ⟨_, _, hTakes, hRest, -⟩ := takes_of_mem_outcomes h
  obtain ⟨_, _, _, _, ⟨rfl, rfl⟩, ⟨s, _, _, _, hBlanks, ⟨rfl, rfl⟩, rfl, rfl⟩, rfl, rfl⟩ := hTakes
  obtain ⟨hne, hBlank, rfl⟩ := takes_many1.mp hBlanks
  exact ⟨s, ⟨hne, hBlank⟩, by rw [hRest]; simp⟩

theorem exists_clause_of_mem_outcomes (h : r ∈ clausePattern.outcomes m) :
    ∃ w ks, Clause w ks ∧ m.rest = w ++ r.rest := by
  obtain ⟨w, ks, hTakes, hRest, -⟩ := takes_of_mem_outcomes h
  exact ⟨w, ks, takes_clausePattern hTakes, hRest⟩

theorem typeMarked_of_mem_outcomes (hm : m ∈ (keyword "import").outcomes (.start t))
    (hm' : m' ∈ (keyword "type").outcomes m) : TypeMarked t := by
  obtain ⟨s₁, hs₁, hImport⟩ := exists_gap_of_mem_outcomes hm
  obtain ⟨s₂, hs₂, hType⟩ := exists_gap_of_mem_outcomes hm'
  refine ⟨s₁, s₂, m'.rest, hs₁, hs₂, ?_⟩
  rw [← hType]
  exact hImport

/-- A line that can be read both as an import of types and without it binds the name `type`. -/
theorem bindsType_of_mem_outcomes (hm : m ∈ (keyword "import").outcomes (.start t))
    (hm' : m' ∈ (keyword "type").outcomes m) (hr : r ∈ clausePattern.outcomes m')
    {m₀ : Reading} (hm₀ : m₀ ∈ (keyword "import").outcomes (.start t))
    (hr' : r' ∈ clausePattern.outcomes m₀) : ∃ target, BindsType t target := by
  obtain ⟨s₁, hs₁, hImport⟩ := exists_gap_of_mem_outcomes hm
  obtain ⟨s₂, hs₂, hType⟩ := exists_gap_of_mem_outcomes hm'
  obtain ⟨w, ks, hClause, hRest⟩ := exists_clause_of_mem_outcomes hr
  obtain ⟨s₀, hs₀, hImport₀⟩ := exists_gap_of_mem_outcomes hm₀
  obtain ⟨w₀, ks₀, hClause₀, hRest₀⟩ := exists_clause_of_mem_outcomes hr'
  have hStop (u : Text) : Stops CodePoint.isBlank (("type" : Text) ++ u) :=
    stops_cons.mpr (by decide)
  have hHere : s₀ ++ m₀.rest = s₁ ++ (("type" : Text) ++ (s₂ ++ m'.rest)) := by
    rw [← hType]
    exact List.append_cancel_left (hImport₀.symm.trans hImport)
  obtain ⟨more, rfl, hMore⟩ := exists_append_of_stops hs₀.2 (hStop _) hHere
  have hBlank : ∀ c ∈ more, c.isBlank := fun c hc => hs₁.2 c (List.mem_append_right _ hc)
  rcases hClause₀.at_type hBlank (hs₂.stops_isWord _) (hRest₀.symm.trans hMore) with
    ⟨s', v, target, hs', hv, hFrom, -⟩ | ⟨u, hBrace⟩ | ⟨s', u, hs', hComma⟩
  · refine ⟨target, _, s', v, r'.rest, hs₁, ⟨?_, hs'⟩, hv, ?_⟩
    · rintro rfl
      obtain ⟨v', rfl⟩ := hv.eq_cons
      exact absurd (hs₂.isBlank_of_append_eq hFrom) (by decide)
    · rw [← hFrom, ← hType]
      exact hImport
  · exact absurd (hs₂.isBlank_of_append_eq hBrace) (by decide)
  · obtain ⟨more', rfl, hMore'⟩ := exists_append_of_stops hs₂.2 (stops_cons.mpr (by decide)) hComma
    have hBlank' : ∀ c ∈ more', c.isBlank := fun c hc => hs' c (List.mem_append_right _ hc)
    exact absurd (hRest.symm.trans hMore') (hClause.append_ne_comma hBlank')

/-- Where an import of types cannot be read both languages read the same. -/
theorem read?_typescript_of_eq_nil
    (h : ∀ m ∈ (keyword "import").outcomes (.start t),
      ((keyword "type").outcomes m).flatMap clausePattern.outcomes = []) :
    (bindingsRule .typescript).rule.body.read? t =
      (bindingsRule .javascript).rule.body.read? t := by
  rw [read?_eq_head?, read?_eq_head?, outcomes_typescript, outcomes_javascript]
  congr 1
  exact List.flatMap_congr fun m hm => by rw [h m hm, List.nil_append]

/-- What JavaScript reads is read in TypeScript too, unless the line binds the name `type`. -/
theorem read?_typescript_of_not_bindsType (h : ∀ target, ¬ BindsType t target) :
    (bindingsRule .javascript).rule.body.read? t = none ∨
      (bindingsRule .typescript).rule.body.read? t =
        (bindingsRule .javascript).rule.body.read? t := by
  by_cases hNone : ∀ m ∈ (keyword "import").outcomes (.start t),
      ((keyword "type").outcomes m).flatMap clausePattern.outcomes = []
  · exact Or.inr (read?_typescript_of_eq_nil hNone)
  · -- the line can be read as an import of types, so it cannot be read without it
    simp only [not_forall, List.flatMap_eq_nil_iff] at hNone
    obtain ⟨m, hm, m', hm', hOutcomes⟩ := hNone
    obtain ⟨r, hr⟩ := List.exists_mem_of_ne_nil _ hOutcomes
    have hEmpty : (bindingsRule .javascript).rule.body.outcomes (.start t) = [] := by
      rw [outcomes_javascript, List.flatMap_eq_nil_iff]
      refine fun m₀ hm₀ => List.eq_nil_iff_forall_not_mem.mpr fun r' hr' => ?_
      obtain ⟨target, hBinds⟩ := bindsType_of_mem_outcomes hm hm' hr hm₀ hr'
      exact h target hBinds
    exact Or.inl (by rw [read?_eq_head?, hEmpty, List.head?_nil])

theorem read?_typescript_of_not_typeMarked (h : ¬ TypeMarked t) :
    (bindingsRule .typescript).rule.body.read? t =
      (bindingsRule .javascript).rule.body.read? t := by
  refine read?_typescript_of_eq_nil fun m hm => ?_
  have hNone : (keyword "type").outcomes m = [] :=
    List.eq_nil_iff_forall_not_mem.mpr fun m' hm' => h (typeMarked_of_mem_outcomes hm hm')
  rw [hNone, List.flatMap_nil]

theorem run_keyword_append {α : Type} {s : Text} {n : Nat} {kept : List Kept}
    {parts : List Pattern} {next : Reading → Option α} {a : α} (hs : IsGap s)
    (hStop : Stops CodePoint.isBlank rest)
    (hNext : (sequence parts).run ⟨n + word.length + s.length, rest, kept⟩ next = some a) :
    (sequence (.text word :: blanks1 :: parts)).run ⟨n, word ++ (s ++ rest), kept⟩ next =
      some a := by
  rw [run_sequence_cons, run_text_append, run_sequence_cons]
  exact run_many1_append hs.1 hs.2 hStop hNext

/-- Without the mark the name `type` is read as a binding. -/
theorem read?_javascript_of_bindsType (h : BindsType t target) :
    ∃ r, (bindingsRule .javascript).rule.body.read? t = some r ∧
      r.parts = [(.target, target), (.binding, "type")] := by
  obtain ⟨s₁, s₂, v, rest, hs₁, hs₂, hv, rfl⟩ := h
  have hBegins : ("type" : Text) ++ (s₂ ++ (v ++ rest)) =
      (("type" : Text) ++ (s₂ ++ v)) ++ rest := by
    rw [List.append_assoc, List.append_assoc]
  obtain ⟨r, hr⟩ := exists_run
    (r := ⟨0 + ("import" : Text).length + s₁.length, ("type" : Text) ++ (s₂ ++ (v ++ rest)), []⟩)
    (hv.takes_bound ⟨"type", by decide, by decide⟩ hs₂.2) hBegins
  refine ⟨r, run_keyword_append hs₁ (stops_cons.mpr (by decide)) hr, ?_⟩
  obtain ⟨w, ks, hTakes, hRest, -, hParts⟩ := takes_of_run hr
  obtain ⟨x, hx⟩ := hv.eq_cons
  rw [hx, List.cons_append] at hRest
  rw [hParts]
  rcases (takes_clausePattern hTakes).at_type (s := []) (by simp) (hs₂.stops_isWord _)
    hRest.symm with ⟨s', v', target', hs', hv', hFrom, rfl⟩ | ⟨u, hBrace⟩ | ⟨s', u, hs', hComma⟩
  · obtain ⟨x', hx'⟩ := hv'.eq_cons
    rw [hx', List.cons_append] at hFrom
    obtain ⟨-, -, hSame⟩ := sign_eq_of_append_eq hs₂.2 hs' (by decide) (by decide) hFrom
    have hSigns : v ++ rest = v' ++ r.rest := by
      rw [hx, hx', List.cons_append, hSame]
      rfl
    rw [hv.unique hv' hSigns]
    rfl
  · exact absurd (hs₂.isBlank_of_append_eq hBrace) (by decide)
  · exact absurd (sign_eq_of_append_eq hs₂.2 hs' (by decide) (by decide) hComma).2.1 (by decide)

/-- In TypeScript the name `type` is read as a mark. -/
theorem read?_typescript_of_bindsType (h : BindsType t target) :
    ∃ r, (bindingsRule .typescript).rule.body.read? t = some r ∧
      r.parts = [(.target, target)] := by
  obtain ⟨s₁, s₂, v, rest, hs₁, hs₂, hv, rfl⟩ := h
  obtain ⟨v', hFrom⟩ := hv.eq_cons
  have hStop : Stops CodePoint.isBlank (v ++ rest) := by
    rw [hFrom]
    exact stops_cons.mpr (by decide)
  obtain ⟨r, hr⟩ := exists_run
    (r := ⟨0 + ("import" : Text).length + s₁.length + ("type" : Text).length + s₂.length, v ++ rest,
      []⟩) hv.takes_unbound rfl
  refine ⟨r, run_keyword_append hs₁ (stops_cons.mpr (by decide)) ?_, ?_⟩
  · rw [typeMark, List.singleton_append, run_sequence_cons]
    exact run_optional_of_some (run_keyword_append hs₂ hStop hr)
  · obtain ⟨w, ks, hTakes, hRest, -, hParts⟩ := takes_of_run hr
    rw [hParts, (takes_clausePattern hTakes).eq_target_of_from hv hRest.symm]
    rfl

end Outcomes

/-! ### The links of a line -/

namespace Language

def bindingLinks (language : Language) (line : Nat) (t : Text) : List Link :=
  ((bindingsRule language).rule.matchesIn t).filterMap (language.link? .bindings line)

def sharedLinks (line : Nat) (t : Text) : List Link :=
  moduleImports.flatMap fun r =>
    (r.rule.matchesIn t).filterMap (Language.javascript.link? r.form line)

theorem linksOnLine_javascript (line : Nat) (t : Text) :
    javascript.linksOnLine line t = javascript.bindingLinks line t ++ sharedLinks line t := rfl

theorem linksOnLine_typescript (line : Nat) (t : Text) :
    typescript.linksOnLine line t = typescript.bindingLinks line t ++ sharedLinks line t := rfl

variable {t target : Text}

theorem bindingLinks_eq (language : Language) (hLine : CodePoint.ofChar '\n' ∉ t) (line : Nat) :
    language.bindingLinks line t = ((bindingsRule language).rule.body.read? t).toList.filterMap
      fun r => language.link? .bindings line ⟨0, r⟩ := by
  rw [bindingLinks, Rule.matchesIn_eq_toList_of_anchored rfl rfl hLine]
  cases (bindingsRule language).rule.body.read? t <;> rfl

/-- A line that is not marked has the same links in both languages. -/
theorem linksOnLine_of_not_typeMarked (hLine : CodePoint.ofChar '\n' ∉ t) (h : ¬ TypeMarked t)
    (line : Nat) : typescript.linksOnLine line t = javascript.linksOnLine line t := by
  rw [linksOnLine_typescript, linksOnLine_javascript, bindingLinks_eq _ hLine,
    bindingLinks_eq _ hLine, read?_typescript_of_not_typeMarked h]
  rfl

/-- On a line that does not bind the name `type` the links of JavaScript stay in TypeScript. -/
theorem linksOnLine_of_not_bindsType (hLine : CodePoint.ofChar '\n' ∉ t)
    (h : ∀ target, ¬ BindsType t target) (line : Nat) :
    (javascript.linksOnLine line t).Sublist (typescript.linksOnLine line t) := by
  rw [linksOnLine_typescript, linksOnLine_javascript]
  refine List.Sublist.append_right ?_ _
  rw [bindingLinks_eq _ hLine, bindingLinks_eq _ hLine]
  rcases read?_typescript_of_not_bindsType h with hNone | hSame
  · rw [hNone]
    exact List.nil_sublist _
  · rw [hSame]
    exact List.Sublist.refl _

/-- A line that binds the name `type` has one link that differs. -/
theorem linksOnLine_of_bindsType (hLine : CodePoint.ofChar '\n' ∉ t) (h : BindsType t target)
    (line : Nat) :
    javascript.linksOnLine line t =
      ⟨target, .default, ["type"], line, isPackageSpecifier target⟩ :: sharedLinks line t ∧
    typescript.linksOnLine line t =
      ⟨target, .sideEffect, [], line, isPackageSpecifier target⟩ :: sharedLinks line t := by
  constructor
  · obtain ⟨r, hRead, hParts⟩ := read?_javascript_of_bindsType h
    rw [linksOnLine_javascript, bindingLinks_eq _ hLine, hRead]
    simp [link?, ImportForm.describe?, Match.part?, Reading.part?_eq_find?, hParts, isExternal]
  · obtain ⟨r, hRead, hParts⟩ := read?_typescript_of_bindsType h
    rw [linksOnLine_typescript, bindingLinks_eq _ hLine, hRead]
    simp [link?, ImportForm.describe?, Match.part?, Reading.part?_eq_find?, hParts, isExternal]

/-! ### The links of a text -/

variable {language : Language} {l : Link} {line : Nat}

theorem line_of_mem_linksOnLine (h : l ∈ language.linksOnLine line t) : l.line = line := by
  obtain ⟨r, -, h⟩ := List.mem_flatMap.mp h
  obtain ⟨m, -, h⟩ := List.mem_filterMap.mp h
  obtain ⟨-, -, rfl⟩ := Option.map_eq_some_iff.mp h
  rfl

def importsAt (language : Language) (content : Text) (line : Nat) : List Link :=
  (language.importsOf content).filter fun l => l.line = line

theorem importsOf_eq_flatMap (h : language.groupImports = []) (content : Text) :
    language.importsOf content = ((sourceLines content).zipIdx 1).flatMap fun (t, line) =>
      language.linksOnLine line t := by
  simp only [importsOf, groupLinks, h, List.flatMap_nil, List.filter_nil, List.nil_append]

theorem filter_flatMap_linksOnLine {lines : List Text} {n : Nat} (h : lines[n]? = some t)
    (first : Nat) :
    (((lines.zipIdx first).flatMap fun (t, line) => language.linksOnLine line t).filter
      fun l => l.line = first + n) = language.linksOnLine (first + n) t := by
  induction lines generalizing first n with
  | nil => cases h
  | cons line lines ih =>
    rw [List.zipIdx_cons, List.flatMap_cons, List.filter_append]
    cases n with
    | zero =>
      obtain rfl : line = t := Option.some.inj h
      have hHere : (language.linksOnLine first line).filter (fun l => l.line = first + 0) =
          language.linksOnLine first line :=
        List.filter_eq_self.mpr fun l hl => decide_eq_true (line_of_mem_linksOnLine hl)
      have hLater : (((lines.zipIdx (first + 1)).flatMap fun (t, line) =>
          language.linksOnLine line t).filter fun l => l.line = first + 0) = [] := by
        refine List.filter_eq_nil_iff.mpr fun l hl => ?_
        obtain ⟨e, he, hl⟩ := List.mem_flatMap.mp hl
        have hFirst := (List.mem_zipIdx he).1
        rw [decide_eq_true_eq, line_of_mem_linksOnLine hl]
        omega
      rw [hHere, hLater, List.append_nil]
      rfl
    | succ n =>
      have hHere : (language.linksOnLine first line).filter (fun l => l.line = first + (n + 1)) =
          [] := by
        refine List.filter_eq_nil_iff.mpr fun l hl => ?_
        rw [decide_eq_true_eq, line_of_mem_linksOnLine hl]
        omega
      have hNext : first + (n + 1) = first + 1 + n := by omega
      rw [hHere, List.nil_append, hNext]
      exact ih h (first + 1)

theorem importsAt_eq (h : language.groupImports = []) {content : Text} {n : Nat}
    (hLine : (sourceLines content)[n]? = some t) :
    language.importsAt content (n + 1) = language.linksOnLine (n + 1) t := by
  rw [importsAt, importsOf_eq_flatMap h, Nat.add_comm n 1]
  exact filter_flatMap_linksOnLine hLine 1

/-- Every import stands on a line of the text. -/
theorem exists_line_of_mem_importsOf (h : language.groupImports = []) {content : Text}
    (hl : l ∈ language.importsOf content) :
    ∃ n t, (sourceLines content)[n]? = some t ∧ l.line = n + 1 := by
  rw [importsOf_eq_flatMap h] at hl
  obtain ⟨e, he, hl⟩ := List.mem_flatMap.mp hl
  obtain ⟨hFirst, hAt⟩ := List.mem_zipIdx_iff_le_and_getElem?_sub.mp he
  refine ⟨e.2 - 1, e.1, hAt, ?_⟩
  rw [line_of_mem_linksOnLine hl]
  omega

/-- Imports of a text in TypeScript and in JavaScript. Unless a line binds the name `type`, those of
JavaScript are among those of TypeScript in the same order. What TypeScript has besides stands on
lines that are marked as imports of types; on the other lines both have the same. Where a line binds
the name `type` that binding is lost, and everything else on the line is the same. -/
theorem typescript_importsOf_javascript (content : Text) :
    ((∀ t ∈ sourceLines content, ∀ target, ¬ BindsType t target) →
      (javascript.importsOf content).Sublist (typescript.importsOf content)) ∧
    (∀ l ∈ typescript.importsOf content, l ∉ javascript.importsOf content →
      ∃ t, (sourceLines content)[l.line - 1]? = some t ∧ TypeMarked t) ∧
    ∀ n t, (sourceLines content)[n]? = some t →
      (¬ TypeMarked t →
        typescript.importsAt content (n + 1) = javascript.importsAt content (n + 1)) ∧
      ((∀ target, ¬ BindsType t target) →
        (javascript.importsAt content (n + 1)).Sublist (typescript.importsAt content (n + 1))) ∧
      ∀ target, BindsType t target → ∃ others,
        javascript.importsAt content (n + 1) =
          ⟨target, .default, ["type"], n + 1, isPackageSpecifier target⟩ :: others ∧
        typescript.importsAt content (n + 1) =
          ⟨target, .sideEffect, [], n + 1, isPackageSpecifier target⟩ :: others := by
  have hNoBreak {n : Nat} {t : Text} (ht : (sourceLines content)[n]? = some t) :
      CodePoint.ofChar '\n' ∉ t := Text.notMem_of_mem_splitOn (List.mem_of_getElem? ht)
  refine ⟨fun h => ?_, fun l hl hNot => ?_, fun n t ht => ?_⟩
  · rw [importsOf_eq_flatMap rfl, importsOf_eq_flatMap rfl]
    refine List.Sublist.flatMap_right _ fun e he => ?_
    have hMem : e.1 ∈ sourceLines content := List.fst_mem_of_mem_zipIdx he
    exact linksOnLine_of_not_bindsType (Text.notMem_of_mem_splitOn hMem) (h e.1 hMem) e.2
  · obtain ⟨n, t, ht, hn⟩ := exists_line_of_mem_importsOf rfl hl
    refine ⟨t, by rwa [hn], ?_⟩
    by_contra hMarked
    have hHere : l ∈ typescript.importsAt content (n + 1) :=
      List.mem_filter.mpr ⟨hl, decide_eq_true hn⟩
    rw [importsAt_eq rfl ht, linksOnLine_of_not_typeMarked (hNoBreak ht) hMarked,
      ← importsAt_eq rfl ht] at hHere
    exact hNot (List.mem_filter.mp hHere).1
  · rw [importsAt_eq rfl ht, importsAt_eq rfl ht]
    refine ⟨fun h => linksOnLine_of_not_typeMarked (hNoBreak ht) h _,
      fun h => linksOnLine_of_not_bindsType (hNoBreak ht) h _, fun target h => ?_⟩
    exact ⟨sharedLinks (n + 1) t, linksOnLine_of_bindsType (hNoBreak ht) h (n + 1)⟩

def typedText : Text := "import type { A } from './a'\nimport d from './d'"

def boundText : Text := "import type from './b'; require('c')"

theorem typescript_importsOf_javascript_typedText :
    (javascript.importsOf typedText).Sublist (typescript.importsOf typedText) ∧
    (∃ t, (sourceLines typedText)[0]? = some t ∧ TypeMarked t) ∧
    typescript.importsAt typedText 2 = javascript.importsAt typedText 2 ∧
    ∃ others,
      javascript.importsAt boundText 1 =
        ⟨"./b", .default, ["type"], 1, false⟩ :: others ∧
      typescript.importsAt boundText 1 = ⟨"./b", .sideEffect, [], 1, false⟩ :: others := by
  have hPlain : ¬ TypeMarked "import d from './d'" := fun h =>
    absurd h.isInfix (by decide +kernel)
  have hTypes (target : Text) : ¬ BindsType "import type { A } from './a'" target := by
    intro h
    obtain ⟨r, hRead, -⟩ := read?_javascript_of_bindsType h
    have hNone : ((bindingsRule .javascript).rule.body.read?
        "import type { A } from './a'").isSome = false := by decide +kernel
    rw [hRead] at hNone
    cases hNone
  have hBinds : BindsType boundText "./b" :=
    ⟨" ", " ", "from './b'", "; require('c')", by decide, by decide,
      ⟨" ", '\'', '\'', by decide, by decide, by decide, by decide, by decide, by decide⟩,
      by decide⟩
  obtain ⟨hKept, hAdded, hLines⟩ := typescript_importsOf_javascript typedText
  refine ⟨hKept ?_, ?_, (hLines 1 "import d from './d'" (by decide)).1 hPlain,
    ((typescript_importsOf_javascript boundText).2.2 0 boundText (by decide)).2.2 "./b" hBinds⟩
  · have hTexts : sourceLines typedText =
        ["import type { A } from './a'", "import d from './d'"] := by decide
    rw [hTexts]
    refine List.forall_mem_cons.mpr ⟨hTypes, List.forall_mem_singleton.mpr fun target h => ?_⟩
    exact hPlain h.typeMarked
  · exact hAdded ⟨"./a", .named, ["A"], 1, false⟩ (by decide +kernel) (by decide +kernel)

/-- An import that binds the name `type` is lost in TypeScript. -/
theorem type_binding_is_lost :
    ¬ ∀ content, ∀ l ∈ javascript.importsOf content,
      l ∈ typescript.importsOf content := by
  intro h
  have hLink := h "import type from './x'" ⟨"./x", .default, ["type"], 1, false⟩
    (by decide +kernel)
  revert hLink
  decide +kernel

end Language

end DependencyMap
