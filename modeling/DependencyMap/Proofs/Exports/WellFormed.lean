import DependencyMap.Proofs.Exports.RoundTrip
import DependencyMap.Proofs.FirstPlaces
import DependencyMap.Proofs.Pattern.Keeping

/-!
# What every exported name is like

`ExportedName` says of a name that it is trimmed, has no comma and stands in the text, and of which
signs it is in the languages whose rules keep a single word. Every name that extraction lists is
like this, and the list is what the rules capture, one after the other, cut at the commas, each name
at its first place (`exportsOf_wellFormed`).
-/

namespace DependencyMap

open Pattern

structure ExportedName (language : Language) (content name : Text) : Prop where
  ne_nil : name ≠ []
  trimmed : name.Trimmed
  noComma : CodePoint.ofChar ',' ∉ name
  inContent : name <:+: content
  isWord : language ≠ .typescript → language ≠ .javascript → ∀ c ∈ name, c.isWord
  isCapital : language = .go →
    ∃ c ∈ name.head?, CodePoint.ofChar 'A' ≤ c ∧ c ≤ CodePoint.ofChar 'Z'

theorem CodePoint.inRanges_capitals {c : CodePoint} :
    c.inRanges [(65, 90)] ↔ ofChar 'A' ≤ c ∧ c ≤ ofChar 'Z' := by
  simp only [inRanges, List.any_cons, List.any_nil, Bool.or_false, Bool.and_eq_true,
    decide_eq_true_eq]
  rfl

theorem CodePoint.isWord_of_capital {c : CodePoint} (h : c.inRanges [(65, 90)]) : c.isWord := by
  have hAscii : c.value < 0x80 := Nat.lt_of_le_of_lt (inRanges_capitals.mp h).2 (by decide)
  rw [isWord, if_pos hAscii]
  exact List.any_eq_true.mpr ⟨(65, 90), by decide, by simpa [inRanges] using h⟩

theorem takes_capitalized {w : Text} {ks : List (Slot × Text)} (h : capitalized.Takes w ks) :
    ∃ c rest, w = c :: rest ∧ c.inRanges [(65, 90)] ∧ ∀ d ∈ w, d.isWord := by
  simp only [capitalized, takes_sequence_cons, takes_one, takes_many, takes_sequence_nil] at h
  obtain ⟨_, _, _, _, ⟨⟨c, hc, rfl⟩, -⟩, ⟨rest, _, _, _, ⟨hRest, -⟩, ⟨rfl, -⟩, rfl, -⟩, rfl, -⟩ := h
  rw [List.append_nil]
  exact ⟨c, rest, rfl, hc, List.forall_mem_cons.mpr ⟨CodePoint.isWord_of_capital hc, hRest⟩⟩

namespace Language

variable {language : Language} {rule : Rule} {m : Match} {content name captured : Text}

/-- Outside JavaScript and TypeScript a rule captures one word, and in Go one that begins with a
capital. -/
theorem keptUnder_names_exportRules (hTypescript : language ≠ .typescript)
    (hJavascript : language ≠ .javascript) (h : rule ∈ language.exportRules) :
    rule.body.keptUnder .names = [if language = .go then capitalized else word1] := by
  cases language with
  | typescript => exact absurd rfl hTypescript
  | javascript => exact absurd rfl hJavascript
  | python =>
    simp only [exportRules, List.mem_cons, List.not_mem_nil, or_false] at h
    rcases h with rfl | rfl | rfl
    all_goals rfl
  | go | rust =>
    obtain ⟨keyword, -, rfl⟩ := List.mem_map.mp h
    rfl
  | css | json | unknown => cases h

theorem word_of_captured (hTypescript : language ≠ .typescript)
    (hJavascript : language ≠ .javascript) (hRule : rule ∈ language.exportRules)
    (hm : m ∈ rule.matchesIn content) (hPart : m.part? .names = some captured) :
    ∃ word : Word, captured = word.text ∧ (language = .go →
      ∃ c ∈ captured.head?, CodePoint.ofChar 'A' ≤ c ∧ c ≤ CodePoint.ofChar 'Z') := by
  obtain ⟨q, hq, ks, hTakes⟩ := Rule.exists_keptUnder_of_part? hm hPart
  rw [keptUnder_names_exportRules hTypescript hJavascript hRule, List.mem_singleton] at hq
  subst hq
  by_cases hGo : language = .go
  · rw [if_pos hGo] at hTakes
    obtain ⟨c, rest, rfl, hc, hWord⟩ := takes_capitalized hTakes
    refine ⟨⟨c :: rest, List.cons_ne_nil c rest, hWord⟩, rfl, fun _ => ⟨c, rfl, ?_⟩⟩
    exact CodePoint.inRanges_capitals.mp hc
  · rw [if_neg hGo] at hTakes
    obtain ⟨hne, hWord, -⟩ := takes_many1.mp hTakes
    exact ⟨⟨captured, hne, hWord⟩, rfl, fun h => absurd h hGo⟩

def captures (language : Language) (content : Text) : List Text :=
  language.exportRules.flatMap fun rule =>
    (rule.matchesIn content).filterMap fun m => m.part? .names

theorem exportOccurrences_eq_flatMap (language : Language) (content : Text) :
    language.exportOccurrences content = (language.captures content).flatMap splitNames := by
  rw [exportOccurrences, captures, List.flatMap_assoc]
  refine List.flatMap_congr fun rule _ => ?_
  induction rule.matchesIn content with
  | nil => rfl
  | cons m ms ih =>
    rw [List.flatMap_cons, ih, List.filterMap_cons]
    cases m.part? .names with
    | none => rfl
    | some captured => rfl

theorem exportedName_of_mem (h : name ∈ language.exportsOf content) :
    ExportedName language content name := by
  rw [exportsOf, List.mem_eraseDups, exportOccurrences_eq_flatMap, captures,
    List.flatMap_assoc] at h
  obtain ⟨rule, hRule, h⟩ := List.mem_flatMap.mp h
  obtain ⟨captured, hCaptured, hName⟩ := List.mem_flatMap.mp h
  obtain ⟨m, hm, hPart⟩ := List.mem_filterMap.mp hCaptured
  obtain ⟨hne, hTrimmed, hComma, hIn⟩ := mem_splitNames hName
  refine ⟨hne, hTrimmed, hComma, hIn.trans (Rule.infix_of_part? hm hPart), ?_, ?_⟩
  · intro hTypescript hJavascript c hc
    obtain ⟨word, rfl, -⟩ := word_of_captured hTypescript hJavascript hRule hm hPart
    exact word.isWord c (hIn.mem hc)
  · rintro rfl
    obtain ⟨word, rfl, hCapital⟩ := word_of_captured (by decide) (by decide) hRule hm hPart
    rw [word.splitNames_text, List.mem_singleton] at hName
    subst hName
    exact hCapital rfl

end Language

/-- The exports of a text are names without repetitions, each well formed: what the rules of the
language capture, cut at the commas, each name at its first place. -/
theorem exportsOf_wellFormed (language : Language) (content : Text) :
    (language.exportsOf content).Nodup ∧
    (∀ name ∈ language.exportsOf content, ExportedName language content name) ∧
    language.exportsOf content =
      firstsBy id ((language.captures content).flatMap splitNames) := by
  refine ⟨nodup_eraseDups _, fun _ => Language.exportedName_of_mem, ?_⟩
  rw [← Language.exportOccurrences_eq_flatMap, ← eraseDups_eq_firstsBy, Language.exportsOf]

/-- A text with a name that is exported twice, and two names that are not exported. -/
def repeatedNameText : Text := "func Run()\nfunc stop()\ntype Run struct\nvar\nState, Other = 1, 2"

theorem exportsOf_wellFormed_repeatedNameText :
    ("State" : Text) ∈ Language.go.exportsOf repeatedNameText ∧
    ExportedName .go repeatedNameText "State" ∧
    Language.go.exportsOf repeatedNameText =
      firstsBy id ((["Run", "Run", "State"] : List Text).flatMap splitNames) := by
  have hMem : ("State" : Text) ∈ Language.go.exportsOf repeatedNameText := by decide +kernel
  have hCaptures : Language.go.captures repeatedNameText = ["Run", "Run", "State"] := by
    decide +kernel
  obtain ⟨-, hNames, hFirsts⟩ := exportsOf_wellFormed .go repeatedNameText
  rw [hCaptures] at hFirsts
  exact ⟨hMem, hNames _ hMem, hFirsts⟩

end DependencyMap
