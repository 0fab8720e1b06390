import DependencyMap.Proofs.Imports.GoReading
import DependencyMap.Proofs.Imports.Joining
import DependencyMap.Proofs.Pattern.Matching

/-!
# Extracting Go imports

`importsOf_goText`: of a Go source text that is printed from single imports, groups and other lines,
extraction gives the link of each part, on its line and in order, and nothing else.

Each part is read alone (`GoPart.importsOf_text`), and since no group goes over the end of a part
(`GoPart.groupsApart_text`), the imports of the text are those of its parts. In a group the last
line that is neither blank nor a comment gives the link (`GroupLine.lastEntry_bodyText`).
-/

namespace DependencyMap

open Pattern

namespace GroupLine

/-! ### The entries of a group -/

theorem groupEntry_blank (i : Indentation) : groupEntry i.text = [] := by
  rw [groupEntry, Text.strip, Text.stripWhere_eq_nil i.isBlank]
  rfl

theorem prefix_groupEntry_comment (i : Indentation) (t : Text) :
    ("//" : Text) <+: groupEntry (i.text ++ (("//" : Text) ++ t)) := by
  obtain ⟨t', hStrip⟩ := Text.prefix_stripWhere (t := t) i.isBlank
    (w := ("//" : Text)) (by decide) (by decide)
  rw [groupEntry, Text.strip, ← hStrip]
  exact Text.prefix_stripWhere (l := []) (by simp) (by decide) (by decide)

theorem groupEntry_path (i : Indentation) (p : GoPath) :
    groupEntry (i.text ++ p.quoted) = p.text := by
  have hMark {c : CodePoint} (hc : c ∈ p.text) : decide (c = CodePoint.ofChar '"') = false := by
    rw [decide_eq_false_iff_not]
    rintro rfl
    exact p.noMark hc
  have hStrip : Text.strip (i.text ++ (p.quoted ++ [])) = p.quoted := by
    refine Text.strip_padded ⟨?_, ?_⟩ (List.cons_ne_nil _ _) i.isBlank (by simp)
    · simp only [GoPath.quoted, List.head?_cons, Option.mem_def, Option.some.injEq, forall_eq']
      decide
    · simp only [GoPath.quoted, ← List.cons_append, List.getLast?_concat, Option.mem_def,
        Option.some.injEq, forall_eq']
      decide
  rw [List.append_nil] at hStrip
  rw [groupEntry, hStrip]
  exact Text.stripWhere_padded (l := [CodePoint.ofChar '"']) (r := [CodePoint.ofChar '"'])
    (fun c hc => hMark (List.mem_of_mem_head? hc))
    (fun c hc => hMark (List.mem_of_mem_getLast? hc)) p.ne_nil (by decide) (by decide)

/-- Blank lines and comments are passed over, and of the other lines the paths are left. -/
theorem filter_groupEntry (lines : List GroupLine) :
    ((lines.map text).map groupEntry).filter
      (fun entry => !entry.isEmpty && !entry.startsWith "//") = lines.filterMap path? := by
  induction lines with
  | nil => rfl
  | cons l lines ih =>
    rw [List.map_cons, List.map_cons, List.filter_cons, ih]
    cases l with
    | blank i =>
      rw [text, groupEntry_blank]
      rfl
    | comment i t _ _ _ =>
      have hBegins : (groupEntry (i.text ++ (("//" : Text) ++ t))).startsWith "//" = true :=
        List.isPrefixOf_iff_prefix.mpr (prefix_groupEntry_comment i t)
      rw [text, hBegins, Bool.not_true, Bool.and_false]
      rfl
    | path i p notComment =>
      have hBegins : p.text.startsWith "//" = false := by
        rw [Bool.eq_false_iff]
        exact fun h => notComment (List.isPrefixOf_iff_prefix.mp h)
      have hEmpty : p.text.isEmpty = false := by simpa using p.ne_nil
      rw [text, groupEntry_path, hBegins, hEmpty]
      rfl

/-- The last entry of a printed group is its last path. -/
theorem lastEntry_bodyText (lines : List GroupLine) :
    lastGroupEntry? (bodyText lines) = (lines.filterMap path?).getLast? := by
  have hLines : (bodyText lines).splitOn (CodePoint.ofChar '\n') =
      [] :: (lines.map text ++ [[]]) := by
    have hRest := sourceLines_flatMap lines (List.not_mem_nil (a := CodePoint.ofChar '\n'))
    rw [List.append_nil] at hRest
    rw [← hRest]
    exact List.splitOn_append_cons_self_of_not_mem (List.not_mem_nil (a := CodePoint.ofChar '\n')) _
  have hNothing : groupEntry [] = [] := rfl
  unfold lastGroupEntry?
  rw [hLines, List.map_cons, List.map_append, List.map_cons, List.map_nil, hNothing,
    List.filter_cons, List.filter_append, filter_groupEntry]
  simp

end GroupLine

/-! ### The links of one part -/

theorem linksOnLine_go (line : Nat) (t : Text) : Language.go.linksOnLine line t =
    (singleRule.rule.matchesIn t).filterMap (Language.go.link? .whole line) := by
  rw [Language.linksOnLine, lineImports_go, List.flatMap_singleton]
  rfl

theorem groupLinks_go (content : Text) : Language.go.groupLinks content =
    (groupRule.rule.matchesIn content).filterMap fun m =>
      Language.go.link? .group (m.line content) m := by
  rw [Language.groupLinks, groupImports_go, List.flatMap_singleton]
  rfl

theorem Text.contains_singleton (t : Text) (c : CodePoint) : t.contains [c] = decide (c ∈ t) := by
  induction t with
  | nil => rfl
  | cons d t ih =>
    have hHere : [c].isPrefixOf (d :: t) = decide (c = d) := by
      rw [List.isPrefixOf, List.isPrefixOf, Bool.and_true]
      rfl
    rw [contains, ih, hHere]
    simp only [List.mem_cons, Bool.decide_or]

theorem isExternal_go (target : Text) :
    Language.go.isExternal target = decide (CodePoint.ofChar '/' ∈ target) :=
  Text.contains_singleton target (CodePoint.ofChar '/')

/-- The imports of a line in which no group is found. -/
theorem importsOf_line {t : Text} (hLine : CodePoint.ofChar '\n' ∉ t)
    (hGroups : groupRule.rule.matchesIn t = []) :
    Language.go.importsOf t = Language.go.linksOnLine 1 t := by
  have hLines : sourceLines t = [t] := List.splitOn_eq_singleton hLine
  simp [Language.importsOf, hLines, groupLinks_go, hGroups]

/-- The imports of a text that are all in groups on its first line. -/
theorem importsOf_eq_groupLinks {language : Language} {content : Text}
    (hLines : ∀ t ∈ sourceLines content, ∀ line, language.linksOnLine line t = [])
    (hGroups : ∀ l ∈ language.groupLinks content, l.line = 1) :
    language.importsOf content = language.groupLinks content := by
  have hFirst : language.groupsOnLine content 1 = language.groupLinks content :=
    List.filter_eq_self.mpr fun l hl => decide_eq_true (hGroups l hl)
  rw [Language.importsOf_eq]
  cases hTexts : sourceLines content with
  | nil => exact absurd hTexts (List.splitOn_ne_nil _ _)
  | cons first others =>
    rw [hTexts] at hLines
    have hOthers : ((others.zipIdx (1 + 1)).flatMap fun e =>
        language.groupsOnLine content e.2 ++ language.linksOnLine e.2 e.1) = [] := by
      refine List.flatMap_eq_nil_iff.mpr fun e he => List.append_eq_nil_iff.mpr ⟨?_, ?_⟩
      · refine List.filter_eq_nil_iff.mpr fun l hl => ?_
        have hLater := (List.mem_zipIdx he).1
        rw [decide_eq_true_eq, hGroups l hl]
        omega
      · exact hLines e.1 (List.mem_cons_of_mem _ (List.fst_mem_of_mem_zipIdx he)) e.2
    rw [List.zipIdx_cons, List.flatMap_cons]
    show language.groupsOnLine content 1 ++ language.linksOnLine 1 first ++
      (others.zipIdx (1 + 1)).flatMap (fun e =>
        language.groupsOnLine content e.2 ++ language.linksOnLine e.2 e.1) = _
    rw [hOthers, hFirst, hLines first List.mem_cons_self, List.append_nil, List.append_nil]

namespace GoPart

theorem ne_nil_text_single (p : GoPath) : (GoPart.single p).text ≠ [] :=
  List.append_ne_nil_of_left_ne_nil (by decide) _

theorem noBreak_text_single (p : GoPath) : CodePoint.ofChar '\n' ∉ (GoPart.single p).text := by
  rw [text, GoPath.quoted, List.mem_append, List.mem_cons, List.mem_append, not_or, not_or, not_or]
  exact ⟨by decide, by decide, p.noBreak, by decide⟩

theorem importsOf_noise {t : Text} (noBreak : CodePoint.ofChar '\n' ∉ t)
    (noImport : ¬ ("import" : Text) <:+: t) : Language.go.importsOf t = [] := by
  have hSingle : singleRule.rule.matchesIn t = [] := matchesIn_eq_nil_of_not_infix noImport
  have hGroup : groupRule.rule.matchesIn t = [] := matchesIn_eq_nil_of_not_infix noImport
  rw [importsOf_line noBreak hGroup, linksOnLine_go, hSingle, List.filterMap_nil]

theorem read?_groupRule_of_single (p : GoPath) {s : Text} (hne : s ≠ [])
    (hs : s <:+ (GoPart.single p).text) (b : Text) :
    groupRule.rule.body.read? (s ++ CodePoint.ofChar '\n' :: b) = none := by
  have hText : (GoPart.single p).text =
      (("import " : Text) ++ CodePoint.ofChar '"' :: p.text) ++ [CodePoint.ofChar '"'] := by
    simp [text, GoPath.quoted]
  refine read?_groupRule_of_mark ?_ hne (hText ▸ hs) b
  rw [List.mem_append, List.mem_cons, not_or, not_or]
  exact ⟨by decide, by decide, p.noOpening⟩

theorem importsOf_single (p : GoPath) : Language.go.importsOf (GoPart.single p).text =
    [⟨p.text, .default, [], 1, CodePoint.ofChar '/' ∈ p.text⟩] := by
  obtain ⟨r, hRead, hTaken, hParts⟩ := read?_singleRule p []
  rw [List.append_nil] at hRead
  have hNoGroup : groupRule.rule.matchesIn (GoPart.single p).text = [] :=
    Rule.matchesIn_eq_nil fun s hs => by
      by_cases hne : s = []
      · subst hne
        rfl
      · exact read?_eq_none_of_append (read?_groupRule_of_single p hne hs [])
  rw [importsOf_line (noBreak_text_single p) hNoGroup, linksOnLine_go,
    Rule.matchesIn_eq_singleton (ne_nil_text_single p) hRead hTaken]
  simp [Language.link?, ImportForm.describe?, Match.part?, Reading.part?_eq_find?, hParts,
    isExternal_go]

theorem sourceLines_group (lines : List GroupLine) :
    sourceLines (GoPart.group lines).text =
      ("import (" : Text) :: (lines.map GroupLine.text ++ [(")" : Text)]) := by
  have hText : (GoPart.group lines).text = ("import (" : Text) ++ CodePoint.ofChar '\n' ::
      ((lines.flatMap fun l => l.text ++ [CodePoint.ofChar '\n']) ++ (")" : Text)) := by
    rw [text, GroupLine.bodyText, List.cons_append]
    rfl
  have hFirst : CodePoint.ofChar '\n' ∉ ("import (" : Text) := by decide
  rw [hText, sourceLines, List.splitOn_append_cons_self_of_not_mem hFirst]
  exact congrArg _ (GroupLine.sourceLines_flatMap lines (by decide))

/-- No single import stands on a line of a group. -/
theorem linksOnLine_group {lines : List GroupLine} {t : Text}
    (h : t ∈ sourceLines (GoPart.group lines).text) (line : Nat) :
    Language.go.linksOnLine line t = [] := by
  have hNone : singleRule.rule.matchesIn t = [] := by
    have hSigns {t : Text} (hCount : t.count (CodePoint.ofChar '"') ≤ 1) :
        singleRule.rule.matchesIn t = [] :=
      matchesIn_singleRule_eq_nil fun s hs _ => Nat.le_trans (hs.sublist.count_le _) hCount
    rw [sourceLines_group] at h
    rcases List.mem_cons.mp h with rfl | h
    · exact hSigns (by decide)
    rcases List.mem_append.mp h with h | h
    · obtain ⟨l, -, rfl⟩ := List.mem_map.mp h
      exact l.matchesIn_singleRule
    · obtain rfl := List.mem_singleton.mp h
      exact hSigns (by decide)
  rw [linksOnLine_go, hNone, List.filterMap_nil]

theorem groupLinks_group (lines : List GroupLine) :
    Language.go.groupLinks (GoPart.group lines).text = ((GoPart.group lines).link? 1).toList := by
  obtain ⟨r, hRead, hTaken, hParts⟩ := read?_groupRule lines []
  rw [List.append_nil] at hRead
  have hne : (GoPart.group lines).text ≠ [] := List.append_ne_nil_of_left_ne_nil (by decide) _
  have hLink : Language.go.link? .group 1 ⟨0, r⟩ = (GoPart.group lines).link? 1 := by
    simp [Language.link?, ImportForm.describe?, Match.part?, Reading.part?_eq_find?, hParts,
      isExternal_go, GroupLine.lastEntry_bodyText, link?, target?, Function.comp_def]
  have hLine : (Match.mk 0 r).line (GoPart.group lines).text = 1 := rfl
  rw [groupLinks_go, Rule.matchesIn_eq_singleton hne hRead hTaken, List.filterMap_cons, hLine,
    hLink]
  cases (GoPart.group lines).link? 1 <;> rfl

theorem importsOf_group (lines : List GroupLine) :
    Language.go.importsOf (GoPart.group lines).text = ((GoPart.group lines).link? 1).toList := by
  rw [← groupLinks_group]
  refine importsOf_eq_groupLinks (fun t ht line => linksOnLine_group ht line) fun l hl => ?_
  rw [groupLinks_group, Option.mem_toList, link?] at hl
  obtain ⟨target, -, rfl⟩ := Option.map_eq_some_iff.mp hl
  rfl

/-- The imports of a part that stands alone. -/
theorem importsOf_text (part : GoPart) :
    Language.go.importsOf part.text = (part.link? 1).toList := by
  cases part with
  | noise t noBreak noImport => exact importsOf_noise noBreak noImport
  | single p => exact importsOf_single p
  | group lines => exact importsOf_group lines

theorem lineCount_text (part : GoPart) : lineCount part.text = part.height := by
  rw [← length_sourceLines]
  cases part with
  | noise t noBreak noImport =>
    rw [text, sourceLines, List.splitOn_eq_singleton noBreak]
    rfl
  | single p =>
    rw [sourceLines, List.splitOn_eq_singleton (noBreak_text_single p)]
    rfl
  | group lines =>
    rw [sourceLines_group]
    simp [height]

/-- No group goes over the end of a part. -/
theorem groupsApart_text (part : GoPart) (b : Text) : Language.go.GroupsApart part.text b := by
  intro r hr
  rw [groupImports_go] at hr
  obtain rfl := List.mem_singleton.mp hr
  cases part with
  | noise t noBreak noImport =>
    exact Rule.apart_of_read?_eq_none fun s _ hs => read?_groupRule_of_noImport noImport hs b
  | single p =>
    exact Rule.apart_of_read?_eq_none fun s hne hs => read?_groupRule_of_single p hne hs b
  | group lines =>
    obtain ⟨r, hRead, hTaken, -⟩ := read?_groupRule lines (CodePoint.ofChar '\n' :: b)
    exact Rule.apart_of_read?_eq_some hRead hTaken

theorem link?_add (part : GoPart) (line n : Nat) :
    part.link? (line + n) = (part.link? line).map (Link.later n) := by
  rw [link?, link?, Option.map_map]
  rfl

theorem links_add (parts : List GoPart) (line n : Nat) :
    links (line + n) parts = (links line parts).map (Link.later n) := by
  induction parts generalizing line with
  | nil => rfl
  | cons part parts ih =>
    have hNext : line + n + part.height = line + part.height + n := by omega
    rw [links, links, hNext, ih, link?_add, List.map_append, Option.toList_map]

end GoPart

/-- The imports of a printed Go text are the links of its parts, in order and each on the line where
its part begins. -/
theorem importsOf_goText (parts : List GoPart) :
    Language.go.importsOf (GoPart.sourceText parts) = GoPart.links 1 parts := by
  induction parts with
  | nil => rfl
  | cons part parts ih =>
    cases parts with
    | nil =>
      have hText : GoPart.sourceText [part] = part.text := List.intercalate_singleton
      rw [hText, part.importsOf_text]
      exact (List.append_nil _).symm
    | cons next others =>
      have hText : GoPart.sourceText (part :: next :: others) =
          part.text ++ CodePoint.ofChar '\n' :: GoPart.sourceText (next :: others) := by
        simp [GoPart.sourceText, List.intercalate_cons_cons]
      rw [hText, Language.importsOf_append_line_of_groupsApart (part.groupsApart_text _), ih,
        part.importsOf_text, part.lineCount_text, ← GoPart.links_add]
      rfl

/-- Paths that speak of imports, a group without paths, and a group that ends with a comment. -/
def confusingParts : List GoPart :=
  let margin : Indentation := ⟨"\t", by decide, by decide⟩
  let keyword : GoPath :=
    ⟨"a/import ", by decide, by decide, by decide, by decide, by decide⟩
  let plain : GoPath := ⟨"os", by decide, by decide, by decide, by decide, by decide⟩
  [.noise "package a // (" (by decide) (by decide +kernel), .single keyword,
    .group [.blank margin, .comment margin " none" (by decide) (by decide) (by decide +kernel)],
    .group [.path margin plain (by decide), .path margin keyword (by decide),
      .comment margin "\"fmt\"" (by decide) (by decide) (by decide +kernel)],
    .single plain]

example : Language.go.importsOf (GoPart.sourceText confusingParts) =
    [⟨"a/import ", .default, [], 2, true⟩, ⟨"a/import ", .default, [], 7, true⟩,
      ⟨"os", .default, [], 12, false⟩] := by decide +kernel

end DependencyMap
