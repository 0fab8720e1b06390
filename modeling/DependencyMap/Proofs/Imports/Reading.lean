import DependencyMap.Proofs.Imports.Clause
import DependencyMap.Proofs.Pattern.Running

/-!
# Reading an import statement

Every rule of the catalogue is tried on every line. On a printed statement exactly one of them has a
match, the rule for the form of the statement, and that match describes the statement. The other two
rules for statements stop at the first sign after `import`. The rules for calls, which may match
anywhere, need an opening parenthesis before two marks, and on a printed line a parenthesis stands
inside the target, where only one mark is left.
-/

namespace DependencyMap

open Pattern

/-! ### The rules -/

/-- What TypeScript reads between `import` and a binding. -/
def typeMark : Language → List Pattern
  | .typescript => [.optional (.sequence [.text "type", blanks1])]
  | _ => []

def bindingsRule (language : Language) : ImportRule :=
  .atLineStart .bindings (.text "import" :: blanks1 :: (typeMark language ++
    [importClause, blanks, .text "from", blanks, quotedTarget]))

def wildcardRule : ImportRule :=
  .atLineStart .wildcard [.text "import", blanks1, sign '*', blanks1, .text "as", blanks1,
    .keep .binding word1, blanks1, .text "from", blanks, quotedTarget]

def bareRule : ImportRule := .atLineStart .bare [.text "import", blanks1, quotedTarget]

def callRule (opening : Text) : ImportRule :=
  .anywhere .bare [.text opening, quotedTarget, sign ')']

theorem lineImports_eq {language : Language}
    (hLanguage : language = .javascript ∨ language = .typescript) :
    language.lineImports =
      [bindingsRule language, wildcardRule, bareRule, callRule "import(", callRule "require("] := by
  rcases hLanguage with rfl | rfl <;> rfl

/-! ### The rule for bindings -/

section Bindings

variable (mark : QuotationMark) (target : ImportTarget) (rest : Text)

def quotedText : Text := mark.sign :: (target.text ++ mark.sign :: rest)

def targetKept : Kept := ⟨.target, target.text ++ mark.sign :: rest, target.text.length⟩

theorem run_binding (b : ImportBinding) (n : Nat) :
    ∃ k, (sequence [importClause, blanks, .text "from", blanks, quotedTarget]).run
      ⟨n, b.text ++ ((" from " : Text) ++ quotedText mark target rest), []⟩ some =
      some ⟨k, rest, targetKept mark target rest ::
        bindingKept b ((" from " : Text) ++ quotedText mark target rest)⟩ := by
  refine ⟨n + b.text.length + 1 + 4 + 1 + 1 + target.text.length + 1, ?_⟩
  rw [run_sequence_cons]
  refine run_importClause b _ ?_
  rw [List.append_nil, run_sequence_cons, blanks]
  refine run_many_append (w := [CodePoint.ofChar ' ']) (by decide) (stops_cons.mpr (by decide)) ?_
  exact run_fromWord mark target rest rfl

/-- A name other than `type` is not mistaken for the mark of an import of types; nor is that name
itself where no white space follows. -/
theorem run_type_eq_none {α : Type} {n : Nat} {kept : List Kept} {next : Reading → Option α}
    (name : Word) {c : CodePoint} {t : Text} (hc : c.isWord = false)
    (hName : name.text ≠ "type" ∨ c.isBlank = false) :
    (sequence [.text "type", blanks1]).run ⟨n, name.text ++ c :: t, kept⟩ next = none := by
  have hWord : ∀ c ∈ ("type" : Text), c.isWord := by decide
  rw [run_sequence_cons]
  by_cases hPrefix : ("type" : Text) <+: name.text ++ c :: t
  · obtain ⟨left, hLeft⟩ := hPrefix
    rw [← hLeft, run_text_append, run_sequence_cons, blanks1]
    refine run_many1_of_stops ?_
    rcases List.append_eq_append_iff.mp hLeft with ⟨more, hMore, hTail⟩ | ⟨more, hMore, hTail⟩
    · cases more with
      | nil =>
        rw [List.append_nil] at hMore
        rw [hTail, List.nil_append]
        exact stops_cons.mpr (hName.resolve_left fun hne => hne hMore)
      | cons d more =>
        rw [hTail, List.cons_append]
        have hd : d ∈ name.text := hMore ▸ List.mem_append_right _ List.mem_cons_self
        exact stops_cons.mpr (CodePoint.isBlank_eq_false_of_isWord (name.isWord d hd))
    · cases more with
      | nil =>
        rw [List.append_nil] at hMore
        rw [List.nil_append] at hTail
        rw [← hTail]
        exact stops_cons.mpr (hName.resolve_left fun hne => hne hMore.symm)
      | cons d more =>
        -- the sign after the name would be a letter of `type`
        obtain ⟨rfl, -⟩ := List.cons_eq_cons.mp (hTail.trans List.cons_append)
        have hd : c ∈ ("type" : Text) := hMore ▸ List.mem_append_right _ List.mem_cons_self
        rw [hWord c hd] at hc
        cases hc
  · exact run_text_eq_none hPrefix

theorem run_type_eq_none_of_allowed {α : Type} {n : Nat} {kept : List Kept}
    {next : Reading → Option α} (b : ImportBinding) (t : Text)
    (h : (ImportHead.bindings false b).AllowedIn .typescript) :
    (sequence [.text "type", blanks1]).run ⟨n, b.text ++ ((" from " : Text) ++ t), kept⟩ next =
      none := by
  cases b with
  | default name =>
    exact run_type_eq_none name (by decide) (Or.inl (h rfl))
  | named first others =>
    rw [run_sequence_cons]
    refine run_text_eq_none fun hPrefix => ?_
    obtain ⟨left, hLeft⟩ := hPrefix
    have hHead : some (CodePoint.ofChar 't') = some (CodePoint.ofChar '{') :=
      congrArg List.head? hLeft
    exact absurd hHead (by decide)
  | both name first others =>
    have hText : (ImportBinding.both name first others).text ++ ((" from " : Text) ++ t) =
        name.text ++ CodePoint.ofChar ',' :: ((" " : Text) ++
          (ImportedName.bracedText first others ++ ((" from " : Text) ++ t))) := by
      have hSign : (", " : Text) = CodePoint.ofChar ',' :: (" " : Text) := rfl
      simp [ImportBinding.text, hSign]
    rw [hText]
    exact run_type_eq_none name (by decide) (Or.inr (by decide))

theorem run_typeMark_false {language : Language}
    (hLanguage : language = .javascript ∨ language = .typescript) {b : ImportBinding}
    (hAllowed : (ImportHead.bindings false b).AllowedIn language) (n : Nat) :
    ∃ k, (sequence (typeMark language ++
      [importClause, blanks, .text "from", blanks, quotedTarget])).run
        ⟨n, b.text ++ ((" from " : Text) ++ quotedText mark target rest), []⟩ some =
      some ⟨k, rest, targetKept mark target rest ::
        bindingKept b ((" from " : Text) ++ quotedText mark target rest)⟩ := by
  rcases hLanguage with rfl | rfl
  · exact run_binding mark target rest b n
  · rw [typeMark, List.singleton_append, run_sequence_cons,
      run_optional_of_none (run_type_eq_none_of_allowed b _ hAllowed)]
    exact run_binding mark target rest b n

theorem run_typeMark_true (b : ImportBinding) (n : Nat)
    (hStop : ∀ t, Stops CodePoint.isBlank (b.text ++ t)) :
    ∃ k, (sequence (typeMark .typescript ++
      [importClause, blanks, .text "from", blanks, quotedTarget])).run
        ⟨n, ("type " : Text) ++ (b.text ++ ((" from " : Text) ++ quotedText mark target rest)), []⟩
          some =
      some ⟨k, rest, targetKept mark target rest ::
        bindingKept b ((" from " : Text) ++ quotedText mark target rest)⟩ := by
  obtain ⟨k, hk⟩ := run_binding mark target rest b (n + 4 + 1)
  have hText (t : Text) : ("type " : Text) ++ t = ("type" : Text) ++ CodePoint.ofChar ' ' :: t :=
    rfl
  refine ⟨k, ?_⟩
  rw [typeMark, List.singleton_append, run_sequence_cons]
  refine run_optional_of_some ?_
  rw [run_sequence_cons, hText, run_text_append, run_sequence_cons, blanks1,
    run_many1_single (by decide) (hStop _), run_sequence_nil]
  exact hk

end Bindings

/-! ### Heads of statements -/

theorem ImportBinding.stops_text (b : ImportBinding) {p : CodePoint → Bool}
    (hWord : ∀ c, c.isWord → p c = false) (hBrace : p '{' = false) (t : Text) :
    Stops p (b.text ++ t) := by
  have hName (name : Word) (t : Text) : Stops p (name.text ++ t) := by
    intro c hc
    rw [List.head?_append_of_ne_nil _ name.ne_nil] at hc
    exact hWord c (name.isWord c (List.mem_of_mem_head? hc))
  cases b with
  | default name => exact hName name t
  | named first others => exact stops_cons.mpr hBrace
  | both name first others =>
    rw [ImportBinding.text, List.append_assoc, List.append_assoc]
    exact hName name _

/-- A statement with a binding goes on with a word character or a brace. -/
theorem ImportHead.stops_bindings (typeOnly : Bool) (b : ImportBinding) {p : CodePoint → Bool}
    (hWord : ∀ c, c.isWord → p c = false) (hBrace : p '{' = false) (t : Text) :
    Stops p ((ImportHead.bindings typeOnly b).text ++ t) := by
  cases typeOnly with
  | false =>
    rw [ImportHead.text, List.append_assoc]
    exact b.stops_text hWord hBrace _
  | true => exact stops_cons.mpr (hWord 't' (by decide))

/-- What follows `import` is read by the other parts of a rule from its first sign on. -/
theorem read?_import {parts : List Pattern} {t : Text} (hStop : Stops CodePoint.isBlank t) :
    (sequence (.text "import" :: blanks1 :: parts)).read? (("import " : Text) ++ t) =
      (sequence parts).run ⟨7, t, []⟩ some := run_word_space hStop

theorem ImportStatement.text_eq (s : ImportStatement) :
    s.text = ("import " : Text) ++ (s.head.text ++ quotedText s.mark s.target s.ending) := by
  rw [text, quotedText, List.append_assoc]

theorem QuotationMark.isBlank_sign (mark : QuotationMark) : mark.sign.isBlank = false := by
  cases mark <;> decide

theorem not_prefix_cons {w t : Text} {c : CodePoint} (hne : w ≠ []) (hw : ∀ d ∈ w, d.isWord)
    (hc : c.isWord = false) : ¬ w <+: c :: t := by
  cases w with
  | nil => exact absurd rfl hne
  | cons d w =>
    rw [List.cons_prefix_cons]
    rintro ⟨rfl, -⟩
    rw [hw d List.mem_cons_self] at hc
    cases hc

/-- No binding begins with a sign that is neither a word character nor a brace. -/
theorem run_typeMark_eq_none {language : Language} {c : CodePoint} {t : Text} {n : Nat}
    (hWord : c.isWord = false) (hBlank : c.isBlank = false) (hBrace : c ≠ '{') :
    (sequence (typeMark language ++
      [importClause, blanks, .text "from", blanks, quotedTarget])).run ⟨n, c :: t, []⟩ some =
        none := by
  have hBinding : (sequence [importClause, blanks, .text "from", blanks, quotedTarget]).run
      ⟨n, c :: t, []⟩ some = none := by
    have hNoName : (sequence [.keep .binding word1,
        .optional (.sequence [blanks, sign ',', blanks])]).run ⟨n, c :: t, []⟩
          (fun r => (sequence [.optional bracedNames]).run r fun r =>
            (sequence [blanks, .text "from", blanks, quotedTarget]).run r some) = none := by
      rw [run_sequence_cons, run_keep, word1]
      exact run_many1_of_stops (stops_cons.mpr hWord)
    have hNoBrace : Stops (fun d => d = CodePoint.ofChar '{') (c :: t) :=
      stops_cons.mpr (decide_eq_false hBrace)
    rw [run_sequence_cons, importClause, run_sequence_cons, run_optional_of_none hNoName,
      run_sequence_cons, run_optional_of_none (run_bracedNames_eq_none hNoBrace),
      run_sequence_nil, run_sequence_cons, blanks, run_many_of_stops (stops_cons.mpr hBlank),
      run_sequence_cons]
    exact run_text_eq_none (not_prefix_cons (by decide) (by decide) hWord)
  cases language with
  | typescript =>
    have hNoType : (sequence [.text "type", blanks1]).run ⟨n, c :: t, []⟩
        (fun r => (sequence [importClause, blanks, .text "from", blanks, quotedTarget]).run r
          some) = none := by
      rw [run_sequence_cons]
      exact run_text_eq_none (not_prefix_cons (by decide) (by decide) hWord)
    rw [typeMark, List.singleton_append, run_sequence_cons, run_optional_of_none hNoType]
    exact hBinding
  | _ => exact hBinding

theorem run_quotedTarget_of_stops {α : Type} {t : Text} {n : Nat} {kept : List Kept}
    {next : Reading → Option α} (hStop : Stops isQuote t) :
    quotedTarget.run ⟨n, t, kept⟩ next = none := by
  rw [quotedTarget, run_sequence_cons, quote_eq, run_one_of_stops hStop]

/-! ### Which rule reads which statement -/

section Heads

variable (mark : QuotationMark) (target : ImportTarget) (rest : Text)

theorem read?_bindingsRule {language : Language}
    (hLanguage : language = .javascript ∨ language = .typescript) {typeOnly : Bool}
    {b : ImportBinding} (hAllowed : (ImportHead.bindings typeOnly b).AllowedIn language) :
    ∃ k, (bindingsRule language).rule.body.read?
        (("import " : Text) ++
          ((ImportHead.bindings typeOnly b).text ++ quotedText mark target rest)) =
      some ⟨k, rest, targetKept mark target rest ::
        bindingKept b ((" from " : Text) ++ quotedText mark target rest)⟩ := by
  have hWord : ∀ c : CodePoint, c.isWord → c.isBlank = false :=
    fun _ => CodePoint.isBlank_eq_false_of_isWord
  rw [bindingsRule, ImportRule.atLineStart,
    read?_import (ImportHead.stops_bindings typeOnly b hWord (by decide) _)]
  cases typeOnly with
  | false =>
    rw [ImportHead.text, List.append_assoc]
    exact run_typeMark_false mark target rest hLanguage hAllowed 7
  | true =>
    obtain rfl : language = .typescript := hAllowed
    rw [ImportHead.text, List.append_assoc, List.append_assoc]
    exact run_typeMark_true mark target rest b 7 (b.stops_text hWord (by decide))

theorem read?_wildcardRule (name : Word) :
    ∃ k, wildcardRule.rule.body.read?
        (("import " : Text) ++
          ((ImportHead.wildcard name).text ++ quotedText mark target rest)) =
      some ⟨k, rest, [targetKept mark target rest,
        ⟨.binding, name.text ++ ((" from " : Text) ++ quotedText mark target rest),
          name.text.length⟩]⟩ := by
  have hText : (ImportHead.wildcard name).text ++ quotedText mark target rest =
      CodePoint.ofChar '*' :: CodePoint.ofChar ' ' :: (("as" : Text) ++ CodePoint.ofChar ' ' ::
        (name.text ++ ((" from " : Text) ++ quotedText mark target rest))) := by
    rw [ImportHead.text, List.append_assoc, List.append_assoc]
    rfl
  have hName : Stops CodePoint.isBlank
      (name.text ++ ((" from " : Text) ++ quotedText mark target rest)) :=
    (ImportBinding.default name).stops_text (fun _ => CodePoint.isBlank_eq_false_of_isWord)
      (by decide) _
  have hAs (t : Text) : Stops CodePoint.isBlank (("as" : Text) ++ t) :=
    stops_cons.mpr (by decide)
  have hFrom : (" from " : Text) ++ quotedText mark target rest =
      CodePoint.ofChar ' ' :: (("from " : Text) ++ quotedText mark target rest) := rfl
  have hFromStop : Stops CodePoint.isBlank (("from " : Text) ++ quotedText mark target rest) :=
    stops_cons.mpr (by decide)
  refine ⟨7 + 1 + 1 + 2 + 1 + name.text.length + 1 + 4 + 1 + 1 + target.text.length + 1, ?_⟩
  rw [hText, wildcardRule, ImportRule.atLineStart, read?_import (stops_cons.mpr (by decide)),
    run_sequence_cons, sign, run_one_cons (by decide), run_sequence_cons, blanks1,
    run_many1_single (by decide) (hAs _), run_sequence_cons, run_text_append, run_sequence_cons,
    run_many1_single (by decide) hName, run_sequence_cons, run_keep, word1]
  refine run_many1_append name.ne_nil name.isWord (stops_cons.mpr (by decide)) ?_
  rw [run_sequence_cons, hFrom, run_many1_single (by decide) hFromStop, Nat.add_sub_cancel_left]
  exact run_fromWord mark target rest rfl

theorem read?_bareRule :
    ∃ k, bareRule.rule.body.read? (("import " : Text) ++ quotedText mark target rest) =
      some ⟨k, rest, [targetKept mark target rest]⟩ := by
  have hStop : Stops CodePoint.isBlank (quotedText mark target rest) :=
    stops_cons.mpr mark.isBlank_sign
  refine ⟨7 + 1 + target.text.length + 1, ?_⟩
  rw [bareRule, ImportRule.atLineStart, read?_import hStop, run_sequence_cons]
  exact run_quotedTarget mark target rest rfl

end Heads

/-! ### Rules that do not match -/

theorem isQuote_eq_false_of_isWord {c : CodePoint} (h : c.isWord) : isQuote c = false := by
  rw [isQuote, Bool.or_eq_false_iff, decide_eq_false_iff_not, decide_eq_false_iff_not]
  exact ⟨CodePoint.ne_of_isWord h (by decide), CodePoint.ne_of_isWord h (by decide)⟩

theorem read?_bindingsRule_eq_none {language : Language} {c : CodePoint} {t : Text}
    (hWord : c.isWord = false) (hBlank : c.isBlank = false) (hBrace : c ≠ '{') :
    (bindingsRule language).rule.body.read? (("import " : Text) ++ c :: t) = none := by
  rw [bindingsRule, ImportRule.atLineStart, read?_import (stops_cons.mpr hBlank)]
  exact run_typeMark_eq_none hWord hBlank hBrace

theorem read?_wildcardRule_eq_none {t : Text} (hBlank : Stops CodePoint.isBlank t)
    (hSign : Stops (fun d => d = CodePoint.ofChar '*') t) :
    wildcardRule.rule.body.read? (("import " : Text) ++ t) = none := by
  rw [wildcardRule, ImportRule.atLineStart, read?_import hBlank, run_sequence_cons, sign]
  exact run_one_of_stops hSign

theorem read?_bareRule_eq_none {t : Text} (hBlank : Stops CodePoint.isBlank t)
    (hSign : Stops isQuote t) : bareRule.rule.body.read? (("import " : Text) ++ t) = none := by
  rw [bareRule, ImportRule.atLineStart, read?_import hBlank, run_sequence_cons]
  exact run_quotedTarget_of_stops hSign

/-- What follows an occurrence of a sign lies after a beginning without that sign. -/
theorem suffix_of_append_cons_eq_append {α : Type} {c : α} {x y head tail : List α}
    (hHead : c ∉ head) (h : x ++ c :: y = head ++ tail) : y <:+ tail := by
  rcases List.append_eq_append_iff.mp h with ⟨more, rfl, hTail⟩ | ⟨more, -, hTail⟩
  · cases more with
    | nil =>
      rw [List.nil_append] at hTail
      exact hTail ▸ List.suffix_cons c y
    | cons d more =>
      -- the sign would stand in the beginning
      obtain ⟨rfl, -⟩ := List.cons_eq_cons.mp (hTail.trans List.cons_append)
      exact absurd (List.mem_append_right _ List.mem_cons_self) hHead
  · rw [hTail]
    exact (List.suffix_cons c y).trans (List.suffix_append more _)

/-- A call needs two marks after its parenthesis. -/
theorem matchesIn_callRule_eq_nil {name head tail : Text}
    (hHead : CodePoint.ofChar '(' ∉ head) (hTail : tail.countP isQuote ≤ 1) :
    (callRule (name ++ [CodePoint.ofChar '('])).rule.matchesIn (head ++ tail) = [] := by
  refine Rule.matchesIn_eq_nil fun s hs => ?_
  by_cases hPrefix : name ++ [CodePoint.ofChar '('] <+: s
  · obtain ⟨rest, rfl⟩ := hPrefix
    obtain ⟨before, hBefore⟩ := hs
    have hSplit : (before ++ name) ++ CodePoint.ofChar '(' :: rest = head ++ tail := by
      rw [← hBefore]
      simp
    have hSuffix := suffix_of_append_cons_eq_append hHead hSplit
    rw [callRule, ImportRule.anywhere, read?, run_sequence_cons, Reading.start, run_text_append,
      run_sequence_cons]
    exact run_quotedTarget_eq_none (Nat.le_trans hSuffix.sublist.countP_le hTail)
  · exact read?_sequence_text_eq_none hPrefix

/-- A rule that begins with a word has no match where the word does not occur. -/
theorem matchesIn_eq_nil_of_not_infix {anchored : Bool} {word t : Text} {parts : List Pattern}
    (h : ¬ word <:+: t) : (Rule.mk anchored (sequence (text word :: parts))).matchesIn t = [] := by
  refine Rule.matchesIn_eq_nil fun s hs => read?_sequence_text_eq_none fun hPrefix => ?_
  exact h (hPrefix.isInfix.trans hs.isInfix)

end DependencyMap
