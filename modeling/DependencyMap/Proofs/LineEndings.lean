import DependencyMap.Proofs.Imports.Joining
import DependencyMap.Proofs.Imports.Python
import DependencyMap.Proofs.Pattern.Returns

/-!
# Line endings

The imports and the exports of a text with a carriage return before each line break are those of the
text without (`extraction_withReturns`). So a text that comes with a request, whose line endings
stay, counts like the file from which it was taken, whose line endings are unified when it is read
(`decodeFile_withReturns`).

Exports and groups are searched in the whole text, by rules that overlook carriage returns. For the
rules on one line the carriage return stands at the end of the line, where only one of them takes
it: the names that Python imports from a module go up to the end of the line. They are trimmed, so
this makes a difference only where no name stands there.
-/

namespace DependencyMap

open Pattern Text

/-! ### Exports -/

namespace Language

theorem overlooksReturns_exportRules (language : Language) :
    ∀ rule ∈ language.exportRules, rule.overlooksReturns := by
  cases language <;> decide +kernel

theorem overlooksReturns_groupImports (language : Language) :
    ∀ r ∈ language.groupImports, r.rule.overlooksReturns := by
  cases language <;> decide +kernel

/-- No match on one line ends with a carriage return, but for the names of an import in Python. -/
theorem mayEnd_lineImports {language : Language} (h : language ≠ .python) :
    ∀ r ∈ language.lineImports,
      r.rule.body.nullable = false ∧ r.rule.body.mayEnd '\r' = false := by
  cases language with
  | python => exact absurd rfl h
  | _ => decide +kernel

theorem exportOccurrences_withReturns (language : Language) (content : Text) :
    language.exportOccurrences (withReturns content) =
      (language.exportOccurrences content).map withReturns := by
  let names (s : Sighting) : List Text := splitNames ((s.part? .names).getD [])
  have hNames (s : Sighting) : names s.withReturns = (names s).map withReturns := by
    show splitNames ((s.withReturns.part? .names).getD []) = _
    rw [s.part?_withReturns, ← splitNames_withReturns]
    cases s.part? .names <;> rfl
  have hRule (rule : Rule) (t : Text) :
      ((rule.matchesIn t).flatMap fun m => splitNames ((m.part? .names).getD [])) =
        ((rule.matchesIn t).map (Match.sighting t)).flatMap names := by
    rw [List.flatMap_map]
    exact List.flatMap_congr fun m _ => by rw [← m.part?_sighting t]
  rw [exportOccurrences, exportOccurrences, List.map_flatMap]
  refine List.flatMap_congr fun rule hRuleMem => ?_
  have hOverlooks := language.overlooksReturns_exportRules rule hRuleMem
  rw [hRule, hRule, Rule.sightings_withReturns hOverlooks, List.flatMap_map, List.flatMap_map,
    List.map_flatMap]
  exact List.flatMap_congr fun m _ => hNames (m.sighting content)

end Language

/-- Where different elements stay different, the same ones are repetitions. -/
theorem eraseDups_map {α β : Type} [BEq α] [LawfulBEq α] [BEq β] [LawfulBEq β] {f : α → β}
    (hf : ∀ {a b}, f a = f b → a = b) (l : List α) : (l.map f).eraseDups = l.eraseDups.map f := by
  induction hn : l.length using Nat.strongRecOn generalizing l with
  | ind n ih =>
    cases l with
    | nil => rfl
    | cons a l =>
      have hShorter : (l.filter fun b => !b == a).length < n := by
        rw [← hn, List.length_cons]
        exact Nat.lt_succ_of_le (List.length_filter_le _ _)
      have hSame : (fun b => !b == f a) ∘ f = fun b => !b == a := by
        funext b
        rw [Function.comp_apply, Bool.not_inj_iff, Bool.eq_iff_iff, beq_iff_eq, beq_iff_eq]
        exact ⟨hf, congrArg f⟩
      rw [List.map_cons, List.eraseDups_cons, List.filter_map, hSame, ih _ hShorter _ rfl,
        List.eraseDups_cons, List.map_cons]

theorem Language.exportsOf_withReturns (language : Language) (content : Text) :
    language.exportsOf (withReturns content) = (language.exportsOf content).map withReturns := by
  rw [exportsOf, exportOccurrences_withReturns, eraseDups_map withReturns_injective, exportsOf]

/-! ### Groups of imports -/

namespace Language

variable {language : Language}

def groupLink? (language : Language) (s : Sighting) : Option Link :=
  ((s.part? .body).bind lastGroupEntry?).map fun target =>
    ⟨target, .default, [], s.line, language.isExternal target⟩

theorem groupLink?_withReturns (s : Sighting) :
    language.groupLink? s.withReturns = language.groupLink? s := by
  rw [groupLink?, s.part?_withReturns, s.line_withReturns, groupLink?]
  cases s.part? .body with
  | none => rfl
  | some body => rw [Option.map_some, Option.bind_some, lastGroupEntry?_withReturns]; rfl

theorem groupsOf_eq {r : ImportRule} (h : r ∈ language.groupImports) (content : Text) :
    language.groupsOf r content =
      ((r.rule.matchesIn content).map (Match.sighting content)).filterMap language.groupLink? := by
  rw [groupsOf, List.filterMap_map]
  refine List.filterMap_congr fun m _ => ?_
  rw [(group_of_mem_groupImports h).2, link?, ImportForm.describe?, Function.comp_apply,
    groupLink?, m.part?_sighting, Option.map_map]
  rfl

theorem groupLinks_withReturns (content : Text) :
    language.groupLinks (withReturns content) = language.groupLinks content := by
  rw [groupLinks_eq, groupLinks_eq]
  refine List.flatMap_congr fun r hr => ?_
  rw [groupsOf_eq hr, groupsOf_eq hr,
    Rule.sightings_withReturns (language.overlooksReturns_groupImports r hr), List.filterMap_map,
    List.filterMap_map]
  exact List.filterMap_congr fun m _ => groupLink?_withReturns (m.sighting content)

/-! ### Imports on one line -/

/-- A sign with which no match ends makes no difference at the end of a line. -/
theorem linksOf_concat {r : ImportRule} {c : CodePoint}
    (h : r.rule.body.nullable = false ∧ r.rule.body.mayEnd c = false) (line : Nat) (t : Text) :
    language.linksOf r line (t ++ [c]) = language.linksOf r line t := by
  rw [linksOf, Rule.matchesIn_concat h.1 h.2, List.filterMap_map]
  refine List.filterMap_congr fun m hm => ?_
  exact language.link?_extend r.form line (Rule.bounds_of_mem_scan hm).2.2 [c]

theorem linksOnLine_concat_return (h : language ≠ .python) (line : Nat) (t : Text) :
    language.linksOnLine line (t ++ [CodePoint.ofChar '\r']) = language.linksOnLine line t := by
  rw [linksOnLine_eq, linksOnLine_eq]
  exact List.flatMap_congr fun r hr => linksOf_concat (mayEnd_lineImports h r hr) line t

/-- What makes no difference at the end of a line makes none to the links of the text. -/
theorem flatMap_sourceLines_withReturns {f : Nat → Text → List Link}
    (hf : ∀ line t, CodePoint.ofChar '\n' ∉ t → f line (t ++ [CodePoint.ofChar '\r']) = f line t)
    (content : Text) :
    (((sourceLines (withReturns content)).zipIdx 1).flatMap fun (t, line) => f line t) =
      ((sourceLines content).zipIdx 1).flatMap fun (t, line) => f line t := by
  have hLines (lines : List Text) : ((lines.zipIdx 1).flatMap fun (t, line) => f line t) =
      (((lines.map fun t line => f line t).zipIdx 1).flatMap fun (g, line) => g line) := by
    rw [List.zipIdx_map, List.flatMap_map]
    rfl
  rw [hLines, hLines, map_sourceLines_withReturns fun t ht => funext fun line => hf line t ht]

theorem groupsOnLine_withReturns (content : Text) (line : Nat) :
    language.groupsOnLine (withReturns content) line = language.groupsOnLine content line := by
  rw [groupsOnLine, groupLinks_withReturns, groupsOnLine]

theorem importsOf_withReturns (h : language ≠ .python) (content : Text) :
    language.importsOf (withReturns content) = language.importsOf content := by
  rw [importsOf_eq, importsOf_eq]
  simp only [groupsOnLine_withReturns]
  apply flatMap_sourceLines_withReturns (f := fun line t =>
    language.groupsOnLine content line ++ language.linksOnLine line t)
  intro line t _
  rw [linksOnLine_concat_return h]

theorem filter_linksOnLine_python {t : Text} (hLine : CodePoint.ofChar '\n' ∉ t) (line : Nat) :
    (python.linksOnLine line (t ++ [CodePoint.ofChar '\r'])).filter (fun l => !l.isIdle) =
      (python.linksOnLine line t).filter fun l => !l.isIdle := by
  have hWhole : Python.wholeRule.rule.body.nullable = false ∧
      Python.wholeRule.rule.body.mayEnd '\r' = false := by decide +kernel
  have hRules (t : Text) : python.linksOnLine line t =
      python.linksOf Python.membersRule line t ++ python.linksOf Python.wholeRule line t := by
    rw [linksOnLine_eq, Python.lineImports_eq, List.flatMap_cons, List.flatMap_singleton]
  rw [hRules, hRules, List.filter_append, List.filter_append,
    Python.filter_linksOf_membersRule_concat hLine, linksOf_concat hWhole]

theorem filter_importsOf_python_withReturns (content : Text) :
    (python.importsOf (withReturns content)).filter (fun l => !l.isIdle) =
      (python.importsOf content).filter fun l => !l.isIdle := by
  rw [importsOf_eq, importsOf_eq, List.filter_flatMap, List.filter_flatMap]
  simp only [groupsOnLine_withReturns]
  apply flatMap_sourceLines_withReturns (f := fun line t =>
    (python.groupsOnLine content line ++ python.linksOnLine line t).filter fun l => !l.isIdle)
  intro line t hLine
  rw [List.filter_append, filter_linksOnLine_python hLine, List.filter_append]

end Language

/-- A file that has carriage returns before its line breaks is read as the text without them. -/
theorem decodeFile_withReturns {content : Text} {bytes : Bytes}
    (hReturn : CodePoint.ofChar '\r' ∉ content)
    (hBytes : Utf8.encode (withReturns content) = .ok bytes) : decodeFile bytes = .ok content :=
  decodeFile_eq_ok_iff.mpr ⟨_, hBytes, (withLineFeeds_withReturns hReturn).symm⟩

/-- Carriage returns before the line breaks of a text make no difference to its imports, but for
imports in Python that name nothing, and none to its exports but that a name which goes over several
lines has them too. -/
theorem extraction_withReturns (content : Text) :
    (∀ language : Language, language ≠ .python →
      language.importsOf (withReturns content) = language.importsOf content) ∧
    ((Language.python.importsOf (withReturns content)).filter (fun l => !l.isIdle) =
      (Language.python.importsOf content).filter fun l => !l.isIdle) ∧
    ∀ language : Language,
      language.exportsOf (withReturns content) = (language.exportsOf content).map withReturns ∧
      (language.exportsOf (withReturns content)).length = (language.exportsOf content).length := by
  refine ⟨fun language h => Language.importsOf_withReturns h content,
    Language.filter_importsOf_python_withReturns content, fun language => ?_⟩
  have hExports := language.exportsOf_withReturns content
  exact ⟨hExports, by rw [hExports, List.length_map]⟩

def groupAndFunctionText : Text := "import (\n\"fmt\"\n)\nfunc Run() \x7b\x7d"

theorem extraction_withReturns_groupAndFunctionText :
    Language.go ≠ .python ∧
    Language.go.importsOf (withReturns groupAndFunctionText) =
      [⟨"fmt", .default, [], 1, false⟩] ∧
    Language.go.exportsOf (withReturns groupAndFunctionText) = ["Run"] := by
  have hGo : Language.go ≠ .python := by decide
  obtain ⟨hImports, -, hExports⟩ := extraction_withReturns groupAndFunctionText
  refine ⟨hGo, ?_, ?_⟩
  · rw [hImports .go hGo]
    decide +kernel
  · rw [(hExports .go).1]
    decide +kernel

/-- A carriage return may stand where the names should be. -/
example : Language.python.importsOf "from a import \nimport b" = [⟨"b", .default, [], 2, true⟩] ∧
    Language.python.importsOf (withReturns "from a import \nimport b") =
      [⟨"a", .named, [], 1, true⟩, ⟨"b", .default, [], 2, true⟩] := by decide +kernel

end DependencyMap
