import DependencyMap.Graph.Node
import DependencyMap.Proofs.Exports.WellFormed
import DependencyMap.Proofs.FirstPlaces
import DependencyMap.Proofs.Imports.TypeOnly
import DependencyMap.Proofs.Names
import DependencyMap.Proofs.Pattern.Completing
import Mathlib.Data.List.Flatten
import Mathlib.Data.List.Perm.Subperm

/-!
# Exports of a text with further lines

`exportsOf_subset_append_line`: what a text exports it also exports with further lines behind it.

The rules search the whole text, so a match may begin in the text and end only in the lines behind
it. It takes the place of no other match, because of each rule something tells whether it has been
read to the end (`Pattern.Completion`): the sign that closes it, or the keyword of a declaration
with a word behind it (`Declares`), which is the last of the words before the name.

The words of a text are its longest runs of word characters. A sign that is no word character
belongs to no word, so a text may be cut there and its words are those of the two parts
(`words_append_cons`).
-/

namespace DependencyMap

/-! ### Words -/

namespace Text

def words (t : Text) : List Text :=
  (t.splitOnP fun c => !c.isWord).filter fun piece => !piece.isEmpty

variable {s t w gap : Text} {c : CodePoint}

theorem words_append_cons (hc : c.isWord = false) (s t : Text) :
    words (s ++ c :: t) = words s ++ words t := by
  rw [words, List.splitOnP_append_cons s t (by rw [hc]; rfl), List.filter_append, words, words]

theorem words_cons_of_not (hc : c.isWord = false) (t : Text) : words (c :: t) = words t :=
  words_append_cons hc [] t

theorem words_of_isWord (hne : w ≠ []) (hw : ∀ c ∈ w, c.isWord) : words w = [w] := by
  rw [words, List.splitOnP_eq_singleton fun c hc => by simp [hw c hc]]
  simpa using hne

/-- A text with a word character has a word. -/
theorem words_ne_nil (hMem : c ∈ t) (hc : c.isWord) : words t ≠ [] := by
  induction t with
  | nil => cases hMem
  | cons d t ih =>
    cases hd : d.isWord with
    | false =>
      rw [words_cons_of_not hd]
      refine ih ((List.mem_cons.mp hMem).resolve_left ?_)
      rintro rfl
      rw [hc] at hd
      cases hd
    | true =>
      rw [words, List.splitOnP_cons_eq_if_modifyHead, if_neg (by simp [hd])]
      cases hPieces : t.splitOnP fun c => !c.isWord with
      | nil => exact absurd hPieces (List.splitOnP_ne_nil _ _)
      | cons piece pieces =>
        rw [List.modifyHead_cons, List.filter_cons_of_pos rfl]
        exact List.cons_ne_nil _ _

/-- A word with white space behind it stands before the words that follow. -/
theorem words_append_gap (hne : w ≠ []) (hw : ∀ c ∈ w, c.isWord) (hGap : gap ≠ [])
    (hBlank : ∀ c ∈ gap, c.isBlank) (t : Text) :
    words (w ++ (gap ++ t)) = w :: words t := by
  have hSkip (gap : Text) (hBlank : ∀ c ∈ gap, c.isBlank) : words (gap ++ t) = words t := by
    induction gap with
    | nil => rfl
    | cons c gap ih =>
      obtain ⟨hc, hGap⟩ := List.forall_mem_cons.mp hBlank
      rw [List.cons_append, words_cons_of_not (CodePoint.isWord_eq_false_of_isBlank hc), ih hGap]
  cases gap with
  | nil => exact absurd rfl hGap
  | cons c gap =>
    obtain ⟨hc, hRest⟩ := List.forall_mem_cons.mp hBlank
    rw [List.cons_append, words_append_cons (CodePoint.isWord_eq_false_of_isBlank hc),
      words_of_isWord hne hw, hSkip gap hRest, List.singleton_append]

end Text

open Pattern Text

/-! ### Declarations -/

/-- Words with white space behind each of them, and a name. -/
inductive Declares : (words : List Text) → Text → Prop
  | name {name : Text} (hne : name ≠ []) (hName : ∀ c ∈ name, c.isWord) : Declares [] name
  | word {word gap t : Text} {words : List Text} (hne : word ≠ []) (hWord : ∀ c ∈ word, c.isWord)
      (hGap : IsGap gap) (h : Declares words t) : Declares (word :: words) (word ++ (gap ++ t))

namespace Declares

variable {ws : List Text} {t : Text}

theorem words_eq (h : Declares ws t) : ∃ name, words t = ws ++ [name] := by
  induction h with
  | @name name hne hName => exact ⟨name, words_of_isWord hne hName⟩
  | word hne hWord hGap h ih =>
    obtain ⟨name, hWords⟩ := ih
    exact ⟨name, by rw [words_append_gap hne hWord hGap.1 hGap.2, hWords, List.cons_append]⟩

/-- A declaration ends with a word character. -/
theorem exists_concat (h : Declares ws t) : ∃ u c, t = u ++ [c] ∧ c.isWord := by
  induction h with
  | @name name hne hName =>
    obtain ⟨u, c, rfl⟩ := List.eq_nil_or_concat' name |>.resolve_left hne
    exact ⟨u, c, rfl, hName c (List.mem_append_right u List.mem_cons_self)⟩
  | @word word gap t words hne hWord hGap h ih =>
    obtain ⟨u, c, rfl, hc⟩ := ih
    exact ⟨word ++ (gap ++ u), c, by simp, hc⟩

/-- Behind the words before the name there is a sign that is no word character, and behind it the
name. -/
theorem exists_gap (h : Declares ws t) (hne : ws ≠ []) :
    ∃ s c u, t = s ++ c :: u ∧ c.isWord = false ∧ words s = ws ∧ ∃ d ∈ u, d.isWord := by
  induction h with
  | name _ _ => exact absurd rfl hne
  | @word word gap t ws hWordNe hWord hGap h ih =>
    cases ws with
    | nil =>
      obtain ⟨c, gap, rfl⟩ := List.exists_cons_of_ne_nil hGap.1
      obtain ⟨u, d, rfl, hd⟩ := h.exists_concat
      refine ⟨word, c, gap ++ (u ++ [d]), rfl, ?_, words_of_isWord hWordNe hWord, d, by simp, hd⟩
      exact CodePoint.isWord_eq_false_of_isBlank (hGap.2 c List.mem_cons_self)
    | cons next ws =>
      obtain ⟨s, c, u, rfl, hc, hWords, hName⟩ := ih (List.cons_ne_nil next ws)
      refine ⟨word ++ (gap ++ s), c, u, by simp, hc, ?_, hName⟩
      rw [words_append_gap hWordNe hWord hGap.1 hGap.2, hWords]

end Declares

/-- A text with one of the keywords and, apart from it, a word behind. -/
def HasDeclared (keywords : List Text) (t : Text) : Prop :=
  ∃ s c u, t = s ++ c :: u ∧ c.isWord = false ∧ (∃ k ∈ keywords, k ∈ words s) ∧ ∃ d ∈ u, d.isWord

/-- The pattern takes declarations only, and the last of the words before the name is the only one
that is a keyword. -/
def Pattern.Announces (keywords : List Text) (p : Pattern) : Prop :=
  ∀ w ks, p.Takes w ks → ∃ before keyword, Declares (before ++ [keyword]) w ∧
    keyword ∈ keywords ∧ ∀ word ∈ before, word ∉ keywords

namespace Pattern.Announces

variable {keywords : List Text} {p : Pattern}

/-- Before a line break within a declaration there is no keyword with a word behind it. -/
theorem not_hasDeclared (h : p.Announces keywords) {s u : Text} {ks : List (Slot × Text)}
    (hTakes : p.Takes (s ++ CodePoint.ofChar '\n' :: u) ks) : ¬ HasDeclared keywords s := by
  rintro ⟨x, c, y, rfl, hc, ⟨k, hKeyword, hk⟩, d, hd, hWord⟩
  obtain ⟨before, keyword, hDeclares, -, hBefore⟩ := h _ _ hTakes
  obtain ⟨name, hWords⟩ := hDeclares.words_eq
  obtain ⟨v, e, hLast, he⟩ := hDeclares.exists_concat
  -- the name stands behind the line break
  have hName : words u ≠ [] := by
    rcases List.eq_nil_or_concat' u with rfl | ⟨u, f, rfl⟩
    · obtain ⟨-, hSame⟩ := List.append_inj' hLast rfl
      obtain ⟨rfl, -⟩ := List.cons_eq_cons.mp hSame
      cases he
    · rw [← List.cons_append, ← List.append_assoc] at hLast
      obtain ⟨-, hSame⟩ := List.append_inj' hLast rfl
      obtain ⟨rfl, -⟩ := List.cons_eq_cons.mp hSame
      exact words_ne_nil (List.mem_append_right u List.mem_cons_self) he
  have hBehind : words y ≠ [] := words_ne_nil hd hWord
  rw [words_append_cons (by decide), words_append_cons hc] at hWords
  -- so two words follow the keyword, and it stands before the last of those before the name
  have hAll : words x <+: before ++ [keyword] ++ [name] :=
    ⟨words y ++ words u, by rw [← hWords, List.append_assoc]⟩
  have hEarlier : words x <+: before := by
    refine List.prefix_of_prefix_length_le hAll
      ⟨[keyword] ++ [name], (List.append_assoc ..).symm⟩ ?_
    have hLength := congrArg List.length hWords
    have hOne := List.length_pos_iff.mpr hBehind
    have hOther := List.length_pos_iff.mpr hName
    simp only [List.length_append, List.length_singleton] at hLength
    omega
  exact hBefore k (hEarlier.subset hk) hKeyword

theorem completion (h : p.Announces keywords) : Completion p (HasDeclared keywords) where
  of_takes hTakes := by
    obtain ⟨before, keyword, hDeclares, hKeyword, -⟩ := h _ _ hTakes
    obtain ⟨s, c, u, rfl, hc, hWords, hName⟩ := hDeclares.exists_gap (by simp)
    refine ⟨s, c, u, rfl, hc, ⟨keyword, hKeyword, ?_⟩, hName⟩
    rw [hWords]
    exact List.mem_append_right before List.mem_cons_self
  append := by
    rintro _ v ⟨s, c, u, rfl, hc, hKeyword, d, hd, hName⟩
    exact ⟨s, c, u ++ v, by simp, hc, hKeyword, d, List.mem_append_left v hd, hName⟩
  behind := by
    rintro _ v ⟨s, c, u, rfl, hc, ⟨k, hKeyword, hk⟩, hName⟩
    refine ⟨v ++ CodePoint.ofChar '\n' :: s, c, u, by simp, hc, ⟨k, hKeyword, ?_⟩, hName⟩
    rw [words_append_cons (by decide)]
    exact List.mem_append_right _ hk
  pending := h.not_hasDeclared

end Pattern.Announces

/-! ### The export rules -/

section Takes

variable {w : Text} {ks : List (Slot × Text)}

theorem mem_of_takes_oneOf {words : List Text} (h : (oneOf words).Takes w ks) : w ∈ words := by
  induction words generalizing w ks with
  | nil =>
    obtain ⟨⟨c, hc, -⟩, -⟩ := h
    cases hc
  | cons word words ih =>
    cases words with
    | nil =>
      obtain ⟨rfl, -⟩ := h
      exact List.mem_cons_self
    | cons next words =>
      rcases h with ⟨rfl, -⟩ | h
      · exact List.mem_cons_self
      · exact List.mem_cons_of_mem _ (ih h)

def Pattern.IsName (p : Pattern) : Prop := ∀ w ks, p.Takes w ks → w ≠ [] ∧ ∀ c ∈ w, c.isWord

theorem isName_word1 : word1.IsName := fun _ _ h => ⟨(takes_many1.mp h).1, (takes_many1.mp h).2.1⟩

theorem isName_capitalized : capitalized.IsName := by
  intro w ks h
  obtain ⟨c, rest, rfl, -, hWord⟩ := takes_capitalized h
  exact ⟨List.cons_ne_nil c rest, hWord⟩

theorem takes_spaced {word : Text} (h : (sequence [.text word, blanks1]).Takes w ks) :
    ∃ gap, IsGap gap ∧ w = word ++ gap := by
  obtain ⟨_, _, _, _, ⟨rfl, -⟩, ⟨gap, _, _, _, hGap, ⟨rfl, -⟩, rfl, -⟩, rfl, -⟩ := h
  obtain ⟨hne, hBlank, -⟩ := takes_many1.mp hGap
  exact ⟨gap, ⟨hne, hBlank⟩, by rw [List.append_nil]⟩

theorem declares_of_takes_declared {words : List Text} {name : Pattern} (hName : name.IsName)
    (hWords : ∀ word ∈ words, word ≠ [] ∧ ∀ c ∈ word, c.isWord)
    (h : (declared words name).Takes w ks) : Declares words w := by
  induction words generalizing w ks with
  | nil =>
    obtain ⟨t, _, _, _, ⟨ks', hTakes, -⟩, ⟨rfl, -⟩, rfl, -⟩ := h
    obtain ⟨hne, hWord⟩ := hName t ks' hTakes
    rw [List.append_nil]
    exact .name hne hWord
  | cons word words ih =>
    obtain ⟨⟨hne, hWord⟩, hTail⟩ := List.forall_mem_cons.mp hWords
    obtain ⟨_, _, t, ks', hFirst, hRest, rfl, -⟩ := h
    obtain ⟨gap, hGap, rfl⟩ := takes_spaced hFirst
    rw [List.append_assoc]
    exact .word hne hWord hGap (ih hTail hRest)

theorem announces_declared (before : List Text) {keyword : Text} {name : Pattern}
    (hName : name.IsName)
    (hWords : ∀ word ∈ before ++ [keyword], word ≠ [] ∧ ∀ c ∈ word, c.isWord)
    (hOther : keyword ∉ before) : (declared (before ++ [keyword]) name).Announces [keyword] := by
  intro w ks h
  refine ⟨before, keyword, declares_of_takes_declared hName hWords h, List.mem_cons_self, ?_⟩
  rintro word hWord hKeyword
  obtain rfl := List.mem_singleton.mp hKeyword
  exact hOther hWord

/-- A word that may be missing, before a declaration. -/
theorem declares_of_takes_mark {word t : Text} {words : List Text} (hne : word ≠ [])
    (hWord : ∀ c ∈ word, c.isWord) (h : Declares words t)
    (hMark : (optional (sequence [.text word, blanks1])).Takes w ks) :
    ∃ marks, (∀ mark ∈ marks, mark = word) ∧ Declares (marks ++ words) (w ++ t) := by
  rcases takes_optional.mp hMark with hMark | ⟨rfl, -⟩
  · obtain ⟨gap, hGap, rfl⟩ := takes_spaced hMark
    refine ⟨[word], fun mark => List.mem_singleton.mp, ?_⟩
    rw [List.append_assoc]
    exact .word hne hWord hGap h
  · exact ⟨[], List.forall_mem_nil _, h⟩

theorem announces_declarationExport (language : Language) :
    (declarationExport language.declarationKeywords).body.Announces
      language.declarationKeywords := by
  rintro _ _ ⟨_, _, _, _, ⟨rfl, -⟩, ⟨gap, _, _, _, hGap, ⟨d, _, _, _, hDefault,
    ⟨a, _, _, _, hAsync, ⟨keyword, _, _, _, hKeyword, ⟨gap', _, _, _, hGap', hName, rfl, -⟩,
      rfl, -⟩, rfl, -⟩, rfl, -⟩, rfl, -⟩, rfl, -⟩
  have hKeywords := areKeywords_declarationKeywords language
  have hMem := mem_of_takes_oneOf hKeyword
  have hKnown : ∀ word ∈ (["export", "default", "async"] : List Text),
      word ∉ language.declarationKeywords := by cases language <;> decide
  obtain ⟨hGap, hBlank, -⟩ := takes_many1.mp hGap
  obtain ⟨hGap', hBlank', -⟩ := takes_many1.mp hGap'
  have hDeclared := Declares.word (hKeywords.ne_nil _ hMem) (hKeywords.isWord _ hMem)
    ⟨hGap', hBlank'⟩ (declares_of_takes_declared isName_word1 (List.forall_mem_nil _) hName)
  obtain ⟨asyncs, hAsyncs, hDeclared⟩ :=
    declares_of_takes_mark (by decide) (by decide) hDeclared hAsync
  obtain ⟨defaults, hDefaults, hDeclared⟩ :=
    declares_of_takes_mark (by decide) (by decide) hDeclared hDefault
  refine ⟨"export" :: (defaults ++ asyncs), keyword, ?_, hMem, ?_⟩
  · rw [List.cons_append, List.append_assoc]
    exact .word (by decide) (by decide) ⟨hGap, hBlank⟩ hDeclared
  · intro word hWord
    rw [List.mem_cons, List.mem_append] at hWord
    apply hKnown
    rcases hWord with rfl | hWord | hWord
    · exact List.mem_cons_self
    · rw [hDefaults word hWord]
      decide
    · rw [hAsyncs word hWord]
      decide

end Takes

namespace Language

/-- Of each export rule something tells whether it has been read to the end. -/
theorem exists_completion {language : Language} {rule : Rule} (h : rule ∈ language.exportRules) :
    rule.anchored = true ∧ ∃ done, Completion rule.body done := by
  have hClosed {sign : CodePoint} {rule : Rule} (h : EndsAt sign rule.body) :
      ∃ done, Completion rule.body done := ⟨_, h.completion⟩
  have hAnnounced {keywords : List Text} {rule : Rule} (h : rule.body.Announces keywords) :
      ∃ done, Completion rule.body done := ⟨_, h.completion⟩
  have hList : EndsAt '}' listExport.body :=
    .seq (by decide) (.seq (by decide) (.last (.seq (by decide) (.seq (by decide)
      (.last (.one_eq _))))))
  cases language with
  | typescript =>
    simp only [exportRules, List.mem_cons, List.not_mem_nil, or_false] at h
    rcases h with rfl | rfl
    · exact ⟨rfl, hAnnounced (announces_declarationExport .typescript)⟩
    · exact ⟨rfl, hClosed hList⟩
  | javascript =>
    simp only [exportRules, List.mem_cons, List.not_mem_nil, or_false] at h
    rcases h with rfl | rfl
    · exact ⟨rfl, hAnnounced (announces_declarationExport .javascript)⟩
    · exact ⟨rfl, hClosed hList⟩
  | python =>
    simp only [exportRules, List.mem_cons, List.not_mem_nil, or_false] at h
    rcases h with rfl | rfl | rfl
    · exact ⟨rfl, hClosed (.seq (by decide) (.seq (by decide) (.last (.one_eq '('))))⟩
    · exact ⟨rfl, hAnnounced (announces_declared [] isName_word1 (by decide) (by decide))⟩
    · exact ⟨rfl, hClosed (.seq (by decide) (.seq (by decide) (.last (.one_eq '='))))⟩
  | go =>
    simp only [exportRules, List.map_cons, List.map_nil, List.mem_cons, List.not_mem_nil,
      or_false] at h
    rcases h with rfl | rfl | rfl | rfl
    all_goals
      exact ⟨rfl, hAnnounced (announces_declared [] isName_capitalized (by decide) (by decide))⟩
  | rust =>
    simp only [exportRules, List.map_cons, List.map_nil, List.mem_cons, List.not_mem_nil,
      or_false] at h
    rcases h with rfl | rfl | rfl | rfl
    all_goals
      exact ⟨rfl, hAnnounced (announces_declared ["pub"] isName_word1 (by decide) (by decide))⟩
  | css | json | unknown => cases h

end Language

/-! ### Further lines -/

theorem Rule.namesIn_prefix_append_line {rule : Rule} {done : Text → Prop}
    (hRule : rule.anchored = true) (hDone : Completion rule.body done) (a b : Text) :
    rule.namesIn a <+: rule.namesIn (a ++ CodePoint.ofChar '\n' :: b) := by
  obtain ⟨more, hMore⟩ := map_extend_prefix_matchesIn hRule hDone a b
  refine ⟨more.flatMap fun m => splitNames ((m.part? .names).getD []), ?_⟩
  rw [← flatMap_extend_matchesIn rule a (CodePoint.ofChar '\n' :: b), namesIn, ← hMore,
    List.flatMap_append]

/-- The occurrences of exported names in a text stay, in their order, when lines follow it. -/
theorem Language.exportOccurrences_sublist_append_line (language : Language) (a b : Text) :
    (language.exportOccurrences a).Sublist
      (language.exportOccurrences (a ++ CodePoint.ofChar '\n' :: b)) := by
  refine List.Sublist.flatMap_right language.exportRules fun rule h => ?_
  obtain ⟨hRule, done, hDone⟩ := exists_completion h
  exact (rule.namesIn_prefix_append_line hRule hDone a b).sublist

/-- What a text exports it also exports when lines follow it. So the number of exports, and with it
the score of a file, never falls when a file grows at its end. -/
theorem exportsOf_subset_append_line (language : Language) (a b : Text) :
    language.exportsOf a ⊆ language.exportsOf (a ++ CodePoint.ofChar '\n' :: b) ∧
    (language.exportsOf a).length ≤
      (language.exportsOf (a ++ CodePoint.ofChar '\n' :: b)).length ∧
    ∀ (path : Text) (inbound : PathMap Nat),
      importance path (language.exportsOf a).length inbound ≤
        importance path (language.exportsOf (a ++ CodePoint.ofChar '\n' :: b)).length inbound := by
  have hSubset : language.exportsOf a ⊆
      language.exportsOf (a ++ CodePoint.ofChar '\n' :: b) := by
    intro name hName
    rw [Language.exportsOf, List.mem_eraseDups] at hName ⊢
    exact (language.exportOccurrences_sublist_append_line a b).subset hName
  have hLength : (language.exportsOf a).length ≤
      (language.exportsOf (a ++ CodePoint.ofChar '\n' :: b)).length :=
    (List.Nodup.subperm (nodup_eraseDups _) hSubset).length_le
  refine ⟨hSubset, hLength, fun path inbound => ?_⟩
  rw [importance, importance]
  omega

/-- Without a line break between them the second text may go on with a name of the first. -/
example : ¬ Language.typescript.exportsOf "export const a" ⊆
    Language.typescript.exportsOf "export const ab" := by decide +kernel

end DependencyMap
