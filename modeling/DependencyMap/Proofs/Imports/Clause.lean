import DependencyMap.Proofs.Imports.Printing
import DependencyMap.Proofs.Names
import DependencyMap.Proofs.Pattern.Running

/-!
# Reading the parts of an import statement

What stands between `import` and the end of a statement, read by the parts of the import patterns:
a target between its marks (`run_quotedTarget`), names in braces (`run_bracedNames`), and the
binding before `from` (`run_importClause`). Each lemma takes what follows and the continuation as
they come. The words and names print only word characters, blanks and commas, which is why the
longest run of each part ends where the part was printed to end.
-/

namespace DependencyMap

/-! ### Printed signs -/

theorem Word.trimmed (w : Word) : w.text.Trimmed where
  head := fun c hc => CodePoint.isBlank_eq_false_of_isWord (w.isWord c (List.mem_of_mem_head? hc))
  last := fun c hc =>
    CodePoint.isBlank_eq_false_of_isWord (w.isWord c (List.mem_of_mem_getLast? hc))

namespace ImportedName

theorem text_ne_nil (n : ImportedName) : n.text ≠ [] := by
  cases n with
  | plain name => exact name.ne_nil
  | renamed name binding =>
    intro h
    exact name.ne_nil (List.append_eq_nil_iff.mp (List.append_eq_nil_iff.mp h).1).1

theorem mem_text {n : ImportedName} {c : CodePoint} (h : c ∈ n.text) :
    c.isWord ∨ c = CodePoint.ofChar ' ' := by
  cases n with
  | plain name => exact Or.inl (name.isWord c h)
  | renamed name binding =>
    have hAs : ∀ c ∈ (" as " : Text), c.isWord ∨ c = CodePoint.ofChar ' ' := by decide
    rcases List.mem_append.mp h with h | h
    · rcases List.mem_append.mp h with h | h
      · exact Or.inl (name.isWord c h)
      · exact hAs c h
    · exact Or.inl (binding.isWord c h)

theorem trimmed (n : ImportedName) : n.text.Trimmed := by
  cases n with
  | plain name => exact name.trimmed
  | renamed name binding =>
    refine ⟨fun c hc => ?_, fun c hc => ?_⟩
    · rw [text, List.append_assoc, List.head?_append_of_ne_nil _ name.ne_nil] at hc
      exact name.trimmed.head c hc
    · rw [text, List.getLast?_append_of_ne_nil _ binding.ne_nil] at hc
      exact binding.trimmed.last c hc

theorem mem_listText {n : ImportedName} {ns : List ImportedName} {c : CodePoint}
    (h : c ∈ listText n ns) :
    c.isWord ∨ c = CodePoint.ofChar ' ' ∨ c = CodePoint.ofChar ',' := by
  have hComma : ∀ c ∈ (", " : Text), c = CodePoint.ofChar ' ' ∨ c = CodePoint.ofChar ',' := by
    decide
  induction ns generalizing n with
  | nil => exact (mem_text h).imp_right Or.inl
  | cons m ns ih =>
    rcases List.mem_append.mp h with h | h
    · rcases List.mem_append.mp h with h | h
      · exact (mem_text h).imp_right Or.inl
      · exact Or.inr (hComma c h)
    · exact ih h

theorem innerText_ne_nil (n : ImportedName) (ns : List ImportedName) : innerText n ns ≠ [] :=
  List.append_ne_nil_of_left_ne_nil (by decide) _

theorem mem_innerText {n : ImportedName} {ns : List ImportedName} {c : CodePoint}
    (h : c ∈ innerText n ns) :
    c.isWord ∨ c = CodePoint.ofChar ' ' ∨ c = CodePoint.ofChar ',' := by
  have hSpace : ∀ c ∈ (" " : Text), c = CodePoint.ofChar ' ' := by decide
  rcases List.mem_append.mp h with h | h
  · exact Or.inr (Or.inl (hSpace c h))
  rcases List.mem_append.mp h with h | h
  · exact mem_listText h
  · exact Or.inr (Or.inl (hSpace c h))

theorem innerText_cons (n m : ImportedName) (ns : List ImportedName) :
    innerText n (m :: ns) = ((" " : Text) ++ n.text) ++ CodePoint.ofChar ',' :: innerText m ns := by
  have hSign : (", " : Text) = CodePoint.ofChar ',' :: " " := rfl
  simp [innerText, listText, hSign]

/-- The names of a list are read back from it. -/
theorem splitNames_innerText (n : ImportedName) (ns : List ImportedName) :
    splitNames (innerText n ns) = (n :: ns).map text := by
  have hBlank : ∀ c ∈ (" " : Text), c.isBlank := by decide
  have hComma (m : ImportedName) : CodePoint.ofChar ',' ∉ m.text := by
    intro h
    rcases mem_text h with hWord | hSpace
    · exact absurd hWord (by decide)
    · exact absurd hSpace (by decide)
  induction ns generalizing n with
  | nil => exact splitNames_padded n.trimmed n.text_ne_nil (hComma n) hBlank hBlank
  | cons m ns ih =>
    have hNone : CodePoint.ofChar ',' ∉ (" " : Text) ++ n.text := by
      rw [List.mem_append, not_or]
      exact ⟨by decide, hComma n⟩
    have hFirst : splitNames ((" " : Text) ++ n.text) = [n.text] := by
      have hPadded :=
        splitNames_padded (r := []) n.trimmed n.text_ne_nil (hComma n) hBlank (by simp)
      rwa [List.append_nil] at hPadded
    rw [innerText_cons, splitNames_append_comma hNone, hFirst, ih]
    rfl

end ImportedName

/-! ### Running the parts -/

namespace Pattern

variable {α : Type} {n : Nat} {kept : List Kept} {next : Reading → Option α} {a : α}

/-- A word with one space behind it, where no more white space follows. -/
theorem run_word_space {word rest : Text} {parts : List Pattern}
    (hStop : Stops CodePoint.isBlank rest) :
    (sequence (.text word :: blanks1 :: parts)).run
        ⟨n, word ++ CodePoint.ofChar ' ' :: rest, kept⟩ next =
      (sequence parts).run ⟨n + word.length + 1, rest, kept⟩ next := by
  rw [run_sequence_cons, run_text_append, run_sequence_cons, blanks1,
    run_many1_single (by decide) hStop]

def isQuote (c : CodePoint) : Bool := c = '\'' || c = '"'

theorem quote_eq : quote = .one isQuote := rfl

theorem isQuote_sign (mark : QuotationMark) : isQuote mark.sign = true := by
  cases mark <;> decide

theorem isQuote_iff {c : CodePoint} : isQuote c = true ↔ ∃ mark : QuotationMark, mark.sign = c := by
  rw [isQuote, Bool.or_eq_true, decide_eq_true_eq, decide_eq_true_eq]
  constructor
  · rintro (rfl | rfl)
    · exact ⟨.single, rfl⟩
    · exact ⟨.double, rfl⟩
  · rintro ⟨mark, rfl⟩
    cases mark
    · exact Or.inl rfl
    · exact Or.inr rfl

theorem upTo1_marks_eq : upTo1 ['\'', '"'] = many1 fun c => !isQuote c := by
  rw [upTo1]
  congr 1
  funext c
  simp [isQuote]

/-- A target between two marks is read to its end, and kept. -/
theorem run_quotedTarget (mark : QuotationMark) (target : ImportTarget) (rest : Text)
    (hNext : next ⟨n + 1 + target.text.length + 1, rest,
      ⟨.target, target.text ++ mark.sign :: rest, target.text.length⟩ :: kept⟩ = some a) :
    quotedTarget.run ⟨n, mark.sign :: (target.text ++ mark.sign :: rest), kept⟩ next = some a := by
  have hInside : ∀ c ∈ target.text, (!isQuote c) = true := by
    intro c hc
    rw [Bool.not_eq_true', Bool.eq_false_iff]
    intro hQuote
    obtain ⟨mark, rfl⟩ := isQuote_iff.mp hQuote
    exact target.noMark mark hc
  rw [quotedTarget, run_sequence_cons, quote_eq, run_one_cons (isQuote_sign mark),
    run_sequence_cons, run_keep, upTo1_marks_eq]
  refine run_many1_append target.ne_nil hInside (stops_cons.mpr ?_) ?_
  · rw [isQuote_sign]
    rfl
  · rw [run_sequence_cons, run_one_cons (isQuote_sign mark), run_sequence_nil]
    simpa only [Nat.add_sub_cancel_left] using hNext

/-- Where fewer than two marks are left no target can be read. -/
theorem run_quotedTarget_eq_none {rest : Text} (h : rest.countP isQuote ≤ 1) :
    quotedTarget.run ⟨n, rest, kept⟩ next = none := by
  rw [quotedTarget, run_sequence_cons, quote_eq]
  cases rest with
  | nil => exact run_one_of_stops (stops_nil _)
  | cons c rest =>
    cases hc : isQuote c with
    | false => exact run_one_of_stops (stops_cons.mpr hc)
    | true =>
      rw [List.countP_cons, hc, if_pos rfl] at h
      have hNone : ∀ d ∈ rest, isQuote d = false := by
        intro d hd
        by_contra hQuote
        have hPos := List.countP_pos_iff.mpr ⟨d, hd, Bool.not_eq_false _ ▸ hQuote⟩
        omega
      rw [run_one_cons hc, run_sequence_cons, run_keep, upTo1]
      refine run_many1_eq_none fun m s hs => ?_
      rw [run_sequence_cons]
      refine run_one_of_stops fun d hd => ?_
      exact hNone d (hs.mem (List.mem_of_mem_head? hd))

theorem run_bracedNames (first : ImportedName) (others : List ImportedName) (rest : Text)
    (hNext : next ⟨n + (ImportedName.bracedText first others).length, rest,
      ⟨.names, ImportedName.innerText first others ++ CodePoint.ofChar '}' :: rest,
        (ImportedName.innerText first others).length⟩ :: kept⟩ = some a) :
    bracedNames.run ⟨n, ImportedName.bracedText first others ++ rest, kept⟩ next = some a := by
  have hText : ImportedName.bracedText first others ++ rest = CodePoint.ofChar '{' ::
      (ImportedName.innerText first others ++ CodePoint.ofChar '}' :: rest) := by
    simp [ImportedName.bracedText]
  have hLength : n + 1 + (ImportedName.innerText first others).length + 1 =
      n + (ImportedName.bracedText first others).length := by
    simp only [ImportedName.bracedText, List.length_cons, List.length_append, List.length_nil]
    omega
  have hInside : ∀ c ∈ ImportedName.innerText first others,
      (['}'].all fun d => decide (c ≠ CodePoint.ofChar d)) = true := by
    intro c hc
    simp only [List.all_cons, List.all_nil, Bool.and_true, decide_eq_true_eq]
    rcases ImportedName.mem_innerText hc with hWord | rfl | rfl
    · exact CodePoint.ne_of_isWord hWord (by decide)
    · decide
    · decide
  rw [bracedNames, run_sequence_cons, hText, sign, run_one_cons (by decide), run_sequence_cons,
    run_keep, upTo1]
  refine run_many1_append (ImportedName.innerText_ne_nil first others) hInside
    (stops_cons.mpr (by decide)) ?_
  rw [run_sequence_cons, sign, run_one_cons (by decide), run_sequence_nil]
  simpa only [Nat.add_sub_cancel_left, hLength] using hNext

def bindingKept : ImportBinding → (rest : Text) → List Kept
  | .default name, rest => [⟨.binding, name.text ++ rest, name.text.length⟩]
  | .named first others, rest =>
    [⟨.names, ImportedName.innerText first others ++ CodePoint.ofChar '}' :: rest,
      (ImportedName.innerText first others).length⟩]
  | .both name first others, rest =>
    [⟨.names, ImportedName.innerText first others ++ CodePoint.ofChar '}' :: rest,
      (ImportedName.innerText first others).length⟩,
      ⟨.binding, name.text ++ (", " ++ (ImportedName.bracedText first others ++ rest)),
        name.text.length⟩]

theorem run_comma_eq_none {rest : Text} :
    (sequence [blanks, sign ',', blanks]).run ⟨n, (" from " : Text) ++ rest, kept⟩ next = none := by
  have hFrom : (" from " : Text) ++ rest = CodePoint.ofChar ' ' :: (("from " : Text) ++ rest) := rfl
  have hStop : Stops CodePoint.isBlank (("from " : Text) ++ rest) := stops_cons.mpr (by decide)
  have hHead : Stops (fun d => d = CodePoint.ofChar ',') (("from " : Text) ++ rest) :=
    stops_cons.mpr (by decide)
  rw [run_sequence_cons, blanks, hFrom, run_many_cons (by decide), run_many_of_stops hStop,
    run_sequence_cons, sign, run_one_of_stops hHead, run_sequence_cons,
    run_one_of_stops (stops_cons.mpr (by decide))]
  rfl

theorem run_bracedNames_eq_none {rest : Text}
    (h : Stops (fun d => d = CodePoint.ofChar '{') rest) :
    bracedNames.run ⟨n, rest, kept⟩ next = none := by
  rw [bracedNames, run_sequence_cons, sign, run_one_of_stops h]

/-- A printed binding is read to its end where `from` follows. -/
theorem run_importClause (b : ImportBinding) (rest : Text)
    (hNext : next ⟨n + b.text.length, (" from " : Text) ++ rest,
      bindingKept b ((" from " : Text) ++ rest) ++ kept⟩ = some a) :
    importClause.run ⟨n, b.text ++ ((" from " : Text) ++ rest), kept⟩ next = some a := by
  have hNoBrace : Stops (fun d => d = CodePoint.ofChar '{') ((" from " : Text) ++ rest) :=
    stops_cons.mpr (by decide)
  rw [importClause, run_sequence_cons]
  cases b with
  | default name =>
    refine run_optional_of_some ?_
    rw [run_sequence_cons, run_keep, word1]
    refine run_many1_append name.ne_nil name.isWord (stops_cons.mpr (by decide)) ?_
    rw [run_sequence_cons, run_optional_of_none run_comma_eq_none, run_sequence_nil,
      run_sequence_cons, run_optional_of_none (run_bracedNames_eq_none hNoBrace),
      run_sequence_nil]
    simp only [Nat.add_sub_cancel_left]
    exact hNext
  | named first others =>
    have hNoWord : (sequence [.keep .binding word1,
        .optional (.sequence [blanks, sign ',', blanks])]).run
          ⟨n, ImportedName.bracedText first others ++ ((" from " : Text) ++ rest), kept⟩
          (fun r => (sequence [.optional bracedNames]).run r next) = none := by
      rw [run_sequence_cons, run_keep, word1]
      exact run_many1_of_stops (stops_cons.mpr (by decide))
    rw [ImportBinding.text, run_optional_of_none hNoWord, run_sequence_cons]
    exact run_optional_of_some (run_bracedNames first others _ hNext)
  | both name first others =>
    have hText : (ImportBinding.both name first others).text ++ ((" from " : Text) ++ rest) =
        name.text ++ (CodePoint.ofChar ',' :: ([CodePoint.ofChar ' '] ++
          (ImportedName.bracedText first others ++ ((" from " : Text) ++ rest)))) := by
      have hSign : (", " : Text) = [CodePoint.ofChar ',', CodePoint.ofChar ' '] := rfl
      simp [ImportBinding.text, hSign]
    have hLength : n + name.text.length + 1 + 1 + (ImportedName.bracedText first others).length =
        n + (ImportBinding.both name first others).text.length := by
      have hSign : (", " : Text).length = 2 := rfl
      simp only [ImportBinding.text, List.length_append, hSign]
      omega
    rw [hText]
    refine run_optional_of_some ?_
    rw [run_sequence_cons, run_keep, word1]
    refine run_many1_append name.ne_nil name.isWord (stops_cons.mpr (by decide)) ?_
    rw [run_sequence_cons]
    refine run_optional_of_some ?_
    rw [run_sequence_cons, blanks, run_many_of_stops (stops_cons.mpr (by decide)),
      run_sequence_cons, sign, run_one_cons (by decide), run_sequence_cons]
    refine run_many_append (by decide) (stops_cons.mpr (by decide)) ?_
    rw [run_sequence_nil, run_sequence_nil, run_sequence_cons]
    refine run_optional_of_some (run_bracedNames first others _ ?_)
    rw [run_sequence_nil]
    simp only [Nat.add_sub_cancel_left, List.length_singleton, hLength]
    exact hNext

/-- From `from` on a statement is read to the closing mark of its target. -/
theorem run_fromWord (mark : QuotationMark) (target : ImportTarget) (rest : Text)
    (hNext : next ⟨n + 4 + 1 + 1 + target.text.length + 1, rest,
      ⟨.target, target.text ++ mark.sign :: rest, target.text.length⟩ :: kept⟩ = some a) :
    (sequence [.text "from", blanks, quotedTarget]).run
      ⟨n, ("from " : Text) ++ mark.sign :: (target.text ++ mark.sign :: rest), kept⟩ next =
      some a := by
  have hFrom (t : Text) :
      ("from " : Text) ++ t = ("from" : Text) ++ ([CodePoint.ofChar ' '] ++ t) := rfl
  have hMark : mark.sign.isBlank = false := by cases mark <;> decide
  rw [hFrom, run_sequence_cons, run_text_append, run_sequence_cons]
  refine run_many_append (by decide) (stops_cons.mpr hMark) ?_
  rw [run_sequence_cons]
  exact run_quotedTarget mark target rest hNext

end Pattern

end DependencyMap
