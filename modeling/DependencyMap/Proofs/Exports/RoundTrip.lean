import DependencyMap.Proofs.Imports.Printing
import DependencyMap.Proofs.Imports.Reading
import DependencyMap.Proofs.Pattern.Signs

/-!
# Extracting printed exports

The exports of JavaScript and TypeScript as data: a declaration, with the words that may stand
before its keyword, or a list of names in braces. Each is printed at the beginning of a line, and
anything may follow it there, so long as the name of a declaration ends where it was printed to
end. The other lines of a source text do not begin with the word `export`.

`exportsOf_sourceText`: of a source text that is printed line by line from declarations, lists of
names and noise, extraction gives the declared names and then the listed ones, each at its first
place.

The rules search the whole text, but they begin at the start of a line and what they read of a
printed line ends on it (`Rule.ReadsLine`). Their matches are therefore found line by line
(`namesIn_sourceText`), and what remains is to read one line, whatever lines follow it.
-/

namespace DependencyMap

def Language.declarationKeywords : Language → List Text
  | .typescript => typescriptKeywords
  | .javascript => javascriptKeywords
  | _ => []

/-- An exported declaration of a name, and what follows the name on its line. -/
structure ExportDeclaration where
  isDefault : Bool
  isAsync : Bool
  keyword : Text
  name : Word
  tail : Text
  noBreak : CodePoint.ofChar '\n' ∉ tail
  nameEnds : ∀ c ∈ tail.head?, c.isWord = false

namespace ExportDeclaration

/-- A word that is printed with a space behind it, or nothing. -/
def mark (given : Bool) (word : Text) : Text := if given then word ++ " " else []

def head (d : ExportDeclaration) : Text :=
  mark d.isDefault "default" ++ (mark d.isAsync "async" ++ (d.keyword ++ " "))

def text (d : ExportDeclaration) : Text := "export " ++ (d.head ++ (d.name.text ++ d.tail))

end ExportDeclaration

/-- A list of exported names, and what follows it on its line. -/
structure ExportList where
  first : ImportedName
  others : List ImportedName
  tail : Text
  noBreak : CodePoint.ofChar '\n' ∉ tail

def ExportList.text (e : ExportList) : Text :=
  "export " ++ (ImportedName.bracedText e.first e.others ++ e.tail)

inductive ExportLine
  | noise (t : Text) (noBreak : CodePoint.ofChar '\n' ∉ t) (noExport : ¬ ("export" : Text) <+: t)
  | declaration (d : ExportDeclaration)
  | list (e : ExportList)

namespace ExportLine

def text : ExportLine → Text
  | .noise t _ _ => t
  | .declaration d => d.text
  | .list e => e.text

def AllowedIn (language : Language) : ExportLine → Prop
  | .declaration d => d.keyword ∈ language.declarationKeywords
  | _ => True

def declared : ExportLine → List Text
  | .declaration d => [d.name.text]
  | _ => []

def listed : ExportLine → List Text
  | .list e => (e.first :: e.others).map ImportedName.text
  | _ => []

def sourceText (lines : List ExportLine) : Text :=
  [CodePoint.ofChar '\n'].intercalate (lines.map text)

end ExportLine

open Pattern

/-! ### Rules that read line by line -/

namespace Rule

def namesIn (rule : Rule) (t : Text) : List Text :=
  (rule.matchesIn t).flatMap fun m => splitNames ((m.part? .names).getD [])

variable {rule : Rule} {a b t : Text} {names : List Text}

/-- More text behind the matches of a text leaves their names. -/
theorem flatMap_extend_matchesIn (rule : Rule) (t more : Text) :
    ((rule.matchesIn t).map (Match.extend more)).flatMap
      (fun m => splitNames ((m.part? .names).getD [])) = rule.namesIn t := by
  rw [List.flatMap_map, namesIn]
  refine List.flatMap_congr fun m hm => ?_
  have hPart : (m.extend more).part? .names = m.part? .names :=
    (bounds_of_mem_scan hm).2.2.part?_extend _ _
  rw [hPart]

theorem namesIn_append_line (hBreak : rule.body.read? (CodePoint.ofChar '\n' :: b) = none)
    (hApart : rule.Apart a b) :
    rule.namesIn (a ++ CodePoint.ofChar '\n' :: b) = rule.namesIn a ++ rule.namesIn b := by
  rw [namesIn, matchesIn_append_line hBreak hApart, List.flatMap_append,
    flatMap_extend_matchesIn, List.flatMap_map, namesIn]
  rfl

/-- Of the line `t` the rule reads the names, and nothing that stands behind the line. -/
def ReadsLine (rule : Rule) (t : Text) (names : List Text) : Prop :=
  ∀ rest, Stops CodePoint.isWord rest →
    (rule.body.read? (t ++ rest) = none ∧ names = []) ∨
      ∃ r, rule.body.read? (t ++ rest) = some r ∧ rest <:+ r.rest ∧
        splitNames ((r.part? .names).getD []) = names

variable (hRule : rule.anchored = true) (hLine : CodePoint.ofChar '\n' ∉ t)
  (hReads : rule.ReadsLine t names)

include hRule hLine hReads

theorem namesIn_of_readsLine (hNothing : rule.body.read? [] = none) : rule.namesIn t = names := by
  rw [namesIn, matchesIn_eq_toList_of_anchored hRule hNothing hLine]
  have hHere := hReads [] (stops_nil _)
  rw [List.append_nil] at hHere
  rcases hHere with ⟨hNone, rfl⟩ | ⟨r, hRead, -, hNames⟩
  · rw [hNone]
    rfl
  · rw [hRead, Option.map_some, Option.toList_some, List.flatMap_singleton]
    exact hNames

theorem apart_of_readsLine : rule.Apart t b := by
  apply apart_of_anchored hRule hLine
  intro r hRead
  rcases hReads (CodePoint.ofChar '\n' :: b) (stops_cons.mpr (by decide)) with
    ⟨hNone, -⟩ | ⟨r', hRead', hRest, -⟩
  · rw [hNone] at hRead
    cases hRead
  · obtain rfl : r' = r := Option.some.inj (hRead'.symm.trans hRead)
    rw [Pattern.read?_eq_head?] at hRead
    have hLength := (Pattern.length_of_mem_outcomes (List.mem_of_head? hRead)).2
    have hLeft := hRest.length_le
    simp only [Reading.start, List.length_append] at hLength
    omega

end Rule

/-- The rule finds the names of each line, line by line. -/
theorem namesIn_sourceText (rule : Rule) {names : ExportLine → List Text} {lines : List ExportLine}
    (hRule : rule.anchored = true) (hNothing : rule.body.read? [] = none)
    (hBreak : ∀ b, rule.body.read? (CodePoint.ofChar '\n' :: b) = none)
    (hLines : ∀ l ∈ lines, CodePoint.ofChar '\n' ∉ l.text ∧ rule.ReadsLine l.text (names l)) :
    rule.namesIn (ExportLine.sourceText lines) = lines.flatMap names := by
  induction lines with
  | nil =>
    show rule.namesIn [] = []
    rfl
  | cons l lines ih =>
    obtain ⟨⟨hLine, hReads⟩, hTail⟩ := List.forall_mem_cons.mp hLines
    rw [List.flatMap_cons, ← ih hTail]
    have hFirst := Rule.namesIn_of_readsLine hRule hLine hReads hNothing
    cases lines with
    | nil =>
      have hText : ExportLine.sourceText [l] = l.text := List.intercalate_singleton
      have hNone : rule.namesIn (ExportLine.sourceText []) = [] := rfl
      rw [hText, hFirst, hNone, List.append_nil]
    | cons next lines =>
      have hText : ExportLine.sourceText (l :: next :: lines) =
          l.text ++ CodePoint.ofChar '\n' :: ExportLine.sourceText (next :: lines) := by
        rw [ExportLine.sourceText, List.map_cons, List.map_cons, List.intercalate_cons_cons,
          List.append_assoc]
        rfl
      rw [hText, Rule.namesIn_append_line (hBreak _) (Rule.apart_of_readsLine hRule hLine hReads),
        hFirst]

/-! ### The words before a name -/

section Words

variable {α : Type} {n : Nat} {kept : List Kept} {next : Reading → Option α} {a : α}
  {word rest : Text}

theorem not_prefix_of_head?_ne {w t : Text} (hne : w ≠ []) (h : w.head? ≠ t.head?) :
    ¬ w <+: t := by
  rintro ⟨s, rfl⟩
  exact h (List.head?_append_of_ne_nil _ hne).symm

theorem stops_append {p : CodePoint → Bool} {s t : Text} (hs : Stops p s) (ht : Stops p t) :
    Stops p (s ++ t) := by
  cases s with
  | nil => exact ht
  | cons c s => exact hs

/-- A word that may be missing is read where it is printed, and passed over where it is not. -/
theorem run_mark (given : Bool) (hStop : Stops CodePoint.isBlank rest) (hNot : ¬ word <+: rest)
    (hNext : next ⟨n + (ExportDeclaration.mark given word).length, rest, kept⟩ = some a) :
    (optional (sequence [.text word, blanks1])).run
      ⟨n, ExportDeclaration.mark given word ++ rest, kept⟩ next = some a := by
  cases given with
  | true =>
    have hText : ExportDeclaration.mark true word ++ rest = word ++ CodePoint.ofChar ' ' :: rest :=
      List.append_assoc word " " rest
    have hLength : (ExportDeclaration.mark true word).length = word.length + 1 :=
      List.length_append
    apply run_optional_of_some
    rw [hText, run_word_space hStop, run_sequence_nil]
    rwa [hLength] at hNext
  | false =>
    have hNone : (sequence [.text word, blanks1]).run ⟨n, rest, kept⟩ next = none := by
      rw [run_sequence_cons]
      exact run_text_eq_none hNot
    exact (run_optional_of_none hNone).trans hNext

/-- Of several words the one is read that stands there. -/
theorem run_oneOf_of_mem {words : List Text} (hWord : word ∈ words)
    (hOnly : ∀ w ∈ words, w <+: word ++ rest → w = word)
    (hNext : next ⟨n + word.length, rest, kept⟩ = some a) :
    (oneOf words).run ⟨n, word ++ rest, kept⟩ next = some a := by
  have hHere : (text word).run ⟨n, word ++ rest, kept⟩ next = some a := by
    rw [run_text_append]
    exact hNext
  induction words with
  | nil => cases hWord
  | cons w words ih =>
    obtain ⟨hFirst, hOthers⟩ := List.forall_mem_cons.mp hOnly
    cases words with
    | nil =>
      obtain rfl := List.mem_singleton.mp hWord
      exact hHere
    | cons v words =>
      show (choice (text w) (oneOf (v :: words))).run _ next = some a
      by_cases hPrefix : w <+: word ++ rest
      · rw [run, hFirst hPrefix, hHere]
      · have hMem : word ∈ v :: words := by
          rcases List.mem_cons.mp hWord with rfl | hMem
          · exact absurd (List.prefix_append word rest) hPrefix
          · exact hMem
        rw [run, run_text_eq_none hPrefix]
        exact ih hMem hOthers

/-- What begins with a text and goes on with another sign begins with each of its beginnings. -/
theorem prefix_of_prefix_append_of_stops {p : CodePoint → Bool} {w t : Text} (hw : ∀ c ∈ w, p c)
    (hStop : Stops p rest) (h : w <+: t ++ rest) : w <+: t := by
  obtain ⟨s, hs⟩ := h
  rcases List.append_eq_append_iff.mp hs with ⟨more, rfl, -⟩ | ⟨more, rfl, hRest⟩
  · exact List.prefix_append w more
  · cases more with
    | nil => exact (List.append_nil t).symm ▸ List.prefix_rfl
    | cons c more =>
      have hc : p c = true := hw c (List.mem_append_right _ List.mem_cons_self)
      rw [hRest, List.cons_append, stops_cons, hc] at hStop
      cases hStop

end Words

/-! ### Reading a declaration -/

/-- What is true of the keywords of declarations: they are words, none of them is the beginning of
another, and they are told from the words before them by their first sign. -/
structure AreKeywords (keywords : List Text) : Prop where
  ne_nil : ∀ k ∈ keywords, k ≠ []
  isWord : ∀ k ∈ keywords, ∀ c ∈ k, c.isWord
  notDefault : ∀ k ∈ keywords, k.head? ≠ ("default" : Text).head?
  notAsync : ∀ k ∈ keywords, k.head? ≠ ("async" : Text).head?
  eq_of_prefix : ∀ k ∈ keywords, ∀ k' ∈ keywords, k <+: k' → k = k'

theorem areKeywords_declarationKeywords (language : Language) :
    AreKeywords language.declarationKeywords := by
  cases language <;> exact ⟨by decide, by decide, by decide, by decide, by decide⟩

namespace ExportDeclaration

variable {keywords : List Text} {rest : Text}

theorem text_append (d : ExportDeclaration) (rest : Text) :
    d.text ++ rest = ("export" : Text) ++ CodePoint.ofChar ' ' ::
      (mark d.isDefault "default" ++ (mark d.isAsync "async" ++
        (d.keyword ++ CodePoint.ofChar ' ' :: (d.name.text ++ (d.tail ++ rest))))) := by
  have hExport : ("export " : Text) = ("export" : Text) ++ [CodePoint.ofChar ' '] := rfl
  have hSpace : (" " : Text) = [CodePoint.ofChar ' '] := rfl
  simp [text, head, hExport, hSpace]

theorem stops_mark {p : CodePoint → Bool} {given : Bool} {word t : Text}
    (hWord : Stops p (word ++ " ")) (ht : Stops p t) : Stops p (mark given word ++ t) := by
  cases given with
  | true => exact stops_append hWord ht
  | false => exact ht

theorem head?_keyword (hKeywords : AreKeywords keywords) (d : ExportDeclaration)
    (hKeyword : d.keyword ∈ keywords) (t : Text) :
    (d.keyword ++ t).head? = d.keyword.head? :=
  List.head?_append_of_ne_nil _ (hKeywords.ne_nil _ hKeyword)

section Stops

variable {p : CodePoint → Bool} (hp : ∀ c : CodePoint, c.isWord → p c = false)
  (hKeywords : AreKeywords keywords) (d : ExportDeclaration) (hKeyword : d.keyword ∈ keywords)

include hp hKeywords hKeyword

theorem stops_keyword (t : Text) : Stops p (d.keyword ++ t) := by
  intro c hc
  rw [head?_keyword hKeywords d hKeyword] at hc
  exact hp c (hKeywords.isWord _ hKeyword c (List.mem_of_mem_head? hc))

theorem stops_async (t : Text) : Stops p (mark d.isAsync "async" ++ (d.keyword ++ t)) :=
  stops_mark (stops_cons.mpr (hp _ (by decide))) (stops_keyword hp hKeywords d hKeyword t)

/-- A declaration goes on with a word. -/
theorem stops_default (t : Text) :
    Stops p (mark d.isDefault "default" ++ (mark d.isAsync "async" ++ (d.keyword ++ t))) :=
  stops_mark (stops_cons.mpr (hp _ (by decide))) (stops_async hp hKeywords d hKeyword t)

end Stops

section Keyword

variable (hKeywords : AreKeywords keywords) (d : ExportDeclaration)
  (hKeyword : d.keyword ∈ keywords)

include hKeywords hKeyword

theorem not_prefix_async (t : Text) : ¬ ("async" : Text) <+: d.keyword ++ t := by
  apply not_prefix_of_head?_ne (by decide)
  rw [head?_keyword hKeywords d hKeyword]
  exact (hKeywords.notAsync _ hKeyword).symm

theorem not_prefix_default (t : Text) :
    ¬ ("default" : Text) <+: mark d.isAsync "async" ++ (d.keyword ++ t) := by
  apply not_prefix_of_head?_ne (by decide)
  cases d.isAsync with
  | true =>
    show some (CodePoint.ofChar 'd') ≠ some (CodePoint.ofChar 'a')
    decide
  | false =>
    show ("default" : Text).head? ≠ (d.keyword ++ t).head?
    rw [head?_keyword hKeywords d hKeyword]
    exact (hKeywords.notDefault _ hKeyword).symm

theorem eq_keyword_of_prefix (t : Text) {w : Text} (hw : w ∈ keywords)
    (hPrefix : w <+: d.keyword ++ CodePoint.ofChar ' ' :: t) : w = d.keyword := by
  apply hKeywords.eq_of_prefix w hw _ hKeyword
  exact prefix_of_prefix_append_of_stops (hKeywords.isWord w hw) (stops_cons.mpr (by decide))
    hPrefix

end Keyword

/-- Of a declaration the name is read, wherever the line of the declaration ends. -/
theorem read?_text (hKeywords : AreKeywords keywords) (d : ExportDeclaration)
    (hKeyword : d.keyword ∈ keywords) (hRest : Stops CodePoint.isWord rest) :
    ∃ k, (declarationExport keywords).body.read? (d.text ++ rest) =
      some ⟨k, d.tail ++ rest,
        [⟨.names, d.name.text ++ (d.tail ++ rest), d.name.text.length⟩]⟩ := by
  have hBlank : ∀ c : CodePoint, c.isWord → c.isBlank = false :=
    fun _ => CodePoint.isBlank_eq_false_of_isWord
  have hKeywordStop (t : Text) := stops_keyword hBlank hKeywords d hKeyword t
  have hAsyncStop (t : Text) := stops_async hBlank hKeywords d hKeyword t
  have hName : Stops CodePoint.isBlank (d.name.text ++ (d.tail ++ rest)) := by
    intro c hc
    rw [List.head?_append_of_ne_nil _ d.name.ne_nil] at hc
    exact d.name.trimmed.head c hc
  refine ⟨0 + 6 + 1 + (mark d.isDefault "default").length + (mark d.isAsync "async").length +
    d.keyword.length + 1 + d.name.text.length, ?_⟩
  rw [d.text_append, declarationExport, read?, Reading.start,
    run_word_space (stops_default hBlank hKeywords d hKeyword _), run_sequence_cons]
  apply run_mark d.isDefault (hAsyncStop _) (not_prefix_default hKeywords d hKeyword _)
  rw [run_sequence_cons]
  apply run_mark d.isAsync (hKeywordStop _) (not_prefix_async hKeywords d hKeyword _)
  rw [run_sequence_cons]
  apply run_oneOf_of_mem hKeyword fun w => eq_keyword_of_prefix hKeywords d hKeyword _
  rw [run_sequence_cons, blanks1, run_many1_single (by decide) hName, run_sequence_cons, run_keep,
    word1]
  apply run_many1_append d.name.ne_nil d.name.isWord (stops_append d.nameEnds hRest)
  rw [Nat.add_sub_cancel_left]
  rfl

theorem notMem_text {sign : CodePoint} (hKeywords : AreKeywords keywords) (d : ExportDeclaration)
    (hKeyword : d.keyword ∈ keywords) (hWord : sign.isWord = false) (hSpace : sign ≠ ' ')
    (hTail : sign ∉ d.tail) : sign ∉ d.text := by
  have hLetters {w : Text} (hw : ∀ c ∈ w, c.isWord) : sign ∉ w := by
    intro h
    rw [hw sign h] at hWord
    cases hWord
  have hMark {given : Bool} {word : Text} (hw : ∀ c ∈ word, c.isWord) :
      sign ∉ mark given word := by
    cases given with
    | true =>
      rw [mark, if_pos rfl, List.mem_append, not_or]
      exact ⟨hLetters hw, fun h => hSpace (List.mem_singleton.mp h)⟩
    | false => exact List.not_mem_nil
  have hText := d.text_append []
  rw [List.append_nil, List.append_nil] at hText
  simp only [hText, List.mem_append, List.mem_cons, not_or]
  exact ⟨hLetters (by decide), hSpace, hMark (by decide), hMark (by decide),
    hLetters (hKeywords.isWord _ hKeyword), hSpace, hLetters d.name.isWord, hTail⟩

end ExportDeclaration

/-! ### Reading a list -/

theorem ExportList.text_append (e : ExportList) (rest : Text) :
    e.text ++ rest = ("export" : Text) ++ CodePoint.ofChar ' ' ::
      (ImportedName.bracedText e.first e.others ++ (e.tail ++ rest)) := by
  have hExport : ("export " : Text) = ("export" : Text) ++ [CodePoint.ofChar ' '] := rfl
  simp [text, hExport]

theorem ExportList.read?_text (e : ExportList) (rest : Text) :
    ∃ k, listExport.body.read? (e.text ++ rest) = some ⟨k, e.tail ++ rest,
      [⟨.names, ImportedName.innerText e.first e.others ++ CodePoint.ofChar '}' :: (e.tail ++ rest),
        (ImportedName.innerText e.first e.others).length⟩]⟩ := by
  have hStop : Stops CodePoint.isBlank
      (ImportedName.bracedText e.first e.others ++ (e.tail ++ rest)) := stops_cons.mpr (by decide)
  refine ⟨0 + 6 + 1 + (ImportedName.bracedText e.first e.others).length, ?_⟩
  rw [e.text_append, listExport, read?, Reading.start, run_word_space hStop, run_sequence_cons]
  exact run_bracedNames e.first e.others _ rfl

/-! ### Lines that a rule does not read -/

theorem declarationExport_eq_none_of_brace (language : Language) (t : Text) :
    (declarationExport language.declarationKeywords).body.read?
      (("export" : Text) ++ CodePoint.ofChar ' ' :: CodePoint.ofChar '{' :: t) = none := by
  rw [declarationExport, read?, Reading.start, run_word_space (stops_cons.mpr (by decide))]
  cases language <;>
    exact run_eq_none_of_stops (by decide) (stops_cons.mpr (by decide +kernel))

theorem not_prefix_noise {t rest : Text} (h : ¬ ("export" : Text) <+: t)
    (hRest : Stops CodePoint.isWord rest) : ¬ ("export" : Text) <+: t ++ rest := by
  intro hPrefix
  exact h (prefix_of_prefix_append_of_stops (by decide) hRest hPrefix)

theorem Word.splitNames_text (w : Word) : splitNames w.text = [w.text] := by
  have hComma : CodePoint.ofChar ',' ∉ w.text := fun h => absurd (w.isWord _ h) (by decide)
  have hPadded := splitNames_padded (l := []) (r := []) w.trimmed w.ne_nil hComma (by simp)
    (by simp)
  rwa [List.append_nil, List.nil_append] at hPadded

theorem part?_names (k : Nat) (u rest tail : Text) :
    ((Reading.mk k tail [⟨.names, u ++ rest, u.length⟩]).part? .names).getD [] = u := by
  simp [Reading.part?, Kept.content]

namespace ExportLine

theorem noBreak_text {language : Language} (l : ExportLine) (h : l.AllowedIn language) :
    CodePoint.ofChar '\n' ∉ l.text := by
  cases l with
  | noise t noBreak _ => exact noBreak
  | declaration d =>
    exact d.notMem_text (areKeywords_declarationKeywords language) h (by decide) (by decide)
      d.noBreak
  | list e =>
    have hInside : CodePoint.ofChar '\n' ∉ ImportedName.innerText e.first e.others := by
      intro hMem
      rcases ImportedName.mem_innerText hMem with hWord | hSpace | hComma
      · exact absurd hWord (by decide)
      · exact absurd hSpace (by decide)
      · exact absurd hComma (by decide)
    simp only [text, ExportList.text, ImportedName.bracedText, List.mem_append, List.mem_cons,
      not_or]
    exact ⟨by decide, ⟨by decide, hInside, by decide⟩, e.noBreak⟩

/-- The rule for declarations reads the declared names. -/
theorem readsLine_declared {language : Language} (l : ExportLine) (h : l.AllowedIn language) :
    (declarationExport language.declarationKeywords).ReadsLine l.text l.declared := by
  intro rest hRest
  cases l with
  | noise t _ noExport =>
    exact Or.inl ⟨read?_sequence_text_eq_none (not_prefix_noise noExport hRest), rfl⟩
  | declaration d =>
    obtain ⟨k, hRead⟩ := d.read?_text (areKeywords_declarationKeywords language) h hRest
    refine Or.inr ⟨_, hRead, List.suffix_append _ _, ?_⟩
    rw [part?_names]
    exact d.name.splitNames_text
  | list e =>
    refine Or.inl ⟨?_, rfl⟩
    show (declarationExport language.declarationKeywords).body.read? (e.text ++ rest) = none
    rw [e.text_append]
    exact declarationExport_eq_none_of_brace language _

/-- The rule for lists reads the listed names. -/
theorem readsLine_listed {language : Language} (l : ExportLine) (h : l.AllowedIn language) :
    listExport.ReadsLine l.text l.listed := by
  intro rest hRest
  cases l with
  | noise t _ noExport =>
    exact Or.inl ⟨read?_sequence_text_eq_none (not_prefix_noise noExport hRest), rfl⟩
  | declaration d =>
    refine Or.inl ⟨?_, rfl⟩
    have hKeywords := areKeywords_declarationKeywords language
    have hBrace : ∀ c : CodePoint, c.isWord → decide (c = CodePoint.ofChar '{') = false :=
      fun c hc => decide_eq_false (CodePoint.ne_of_isWord hc (by decide))
    show listExport.body.read? (d.text ++ rest) = none
    have hWord (s : Text) :=
      d.stops_default (fun _ => CodePoint.isBlank_eq_false_of_isWord) hKeywords h s
    rw [d.text_append, listExport, read?, Reading.start, run_word_space (hWord _),
      run_sequence_cons]
    exact run_bracedNames_eq_none (d.stops_default hBrace hKeywords h _)
  | list e =>
    obtain ⟨k, hRead⟩ := e.read?_text rest
    refine Or.inr ⟨_, hRead, List.suffix_append _ _, ?_⟩
    rw [part?_names]
    exact ImportedName.splitNames_innerText e.first e.others

end ExportLine

/-! ### The exports of a source text -/

theorem exportOccurrences_eq {language : Language}
    (hLanguage : language = .javascript ∨ language = .typescript) (content : Text) :
    language.exportOccurrences content =
      (declarationExport language.declarationKeywords).namesIn content ++
        listExport.namesIn content := by
  rcases hLanguage with rfl | rfl
  all_goals
    rw [Language.exportOccurrences, Language.exportRules, List.flatMap_cons,
      List.flatMap_singleton]
    rfl

/-- The exports of a printed source text are the names that it declares and then those that it
lists, in the order of the lines, each at its first place. -/
theorem exportsOf_sourceText {language : Language}
    (hLanguage : language = .javascript ∨ language = .typescript) {lines : List ExportLine}
    (hLines : ∀ l ∈ lines, l.AllowedIn language) :
    language.exportsOf (ExportLine.sourceText lines) =
      (lines.flatMap ExportLine.declared ++ lines.flatMap ExportLine.listed).eraseDups := by
  have hNothing {parts : List Pattern} :
      (sequence (.text "export" :: parts)).read? [] = none :=
    read?_sequence_text_eq_none (by decide)
  have hBreak {parts : List Pattern} (b : Text) :
      (sequence (.text "export" :: parts)).read? (CodePoint.ofChar '\n' :: b) = none :=
    read?_sequence_text_eq_none (not_prefix_cons (by decide) (by decide) (by decide))
  have hDeclared := namesIn_sourceText (declarationExport language.declarationKeywords)
    rfl hNothing hBreak fun l hl =>
      ⟨l.noBreak_text (hLines l hl), l.readsLine_declared (hLines l hl)⟩
  have hListed := namesIn_sourceText listExport rfl hNothing hBreak fun l hl =>
    ⟨l.noBreak_text (hLines l hl), l.readsLine_listed (hLines l hl)⟩
  rw [Language.exportsOf, exportOccurrences_eq hLanguage, hDeclared, hListed]

/-- Lines in which the names and what follows them look like parts of other lines. -/
def confusingExports : List ExportLine :=
  let asyncWord : Word := ⟨"async", by decide, by decide⟩
  let enumWord : Word := ⟨"enum", by decide, by decide⟩
  let defaultWord : Word := ⟨"default", by decide, by decide⟩
  [.list ⟨.plain asyncWord, [.renamed enumWord defaultWord], " // export const x", by decide⟩,
    .noise " export const hidden = 1" (by decide) (by decide),
    .declaration ⟨true, true, "function", asyncWord, "() \x7b export \x7b", by decide, by decide⟩,
    .declaration ⟨false, false, "const", enumWord, " Level \x7b\x7d", by decide, by decide⟩,
    .declaration ⟨false, false, "type", defaultWord, "=1", by decide, by decide⟩]

theorem exportsOf_confusingExports :
    (∀ l ∈ confusingExports, l.AllowedIn .typescript) ∧
      Language.typescript.exportsOf (ExportLine.sourceText confusingExports) =
        ["async", "enum", "default", "enum as default"] := by
  have hAllowed : ∀ l ∈ confusingExports, l.AllowedIn .typescript := by
    simp [confusingExports, ExportLine.AllowedIn, Language.declarationKeywords, typescriptKeywords]
  refine ⟨hAllowed, ?_⟩
  rw [exportsOf_sourceText (Or.inr rfl) hAllowed]
  decide

end DependencyMap
