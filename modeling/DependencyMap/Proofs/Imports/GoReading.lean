import DependencyMap.Proofs.Imports.GoSource
import DependencyMap.Proofs.Imports.Reading
import DependencyMap.Proofs.Pattern.Matching
import DependencyMap.Proofs.Pattern.Taking

/-!
# Reading Go imports

What the two rules for Go read and where they read nothing. The rule for groups takes a printed
group as a whole (`read?_groupRule`), and it begins neither in a line without the word `import` nor
in a single import, whatever text follows. The rule for single imports needs two marks behind the
word `import`, and no line of a group has them (`GroupLine.matchesIn_singleRule`).
-/

namespace DependencyMap

open Pattern

/-! ### The rules -/

def singleRule : ImportRule :=
  .anywhere .whole [.text "import", blanks1, sign '"', .keep .target (upTo1 ['"']), sign '"']

def groupRule : ImportRule :=
  .anywhere .group
    [.text "import", blanks, sign '(', .keep .body (.many fun c => c ≠ ')'), sign ')']

theorem lineImports_go : Language.go.lineImports = [singleRule] := rfl

theorem groupImports_go : Language.go.groupImports = [groupRule] := rfl

section Rules

variable {s t u w x y : Text} {c d : CodePoint} {ks : List (Slot × Text)}

theorem takes_sign {c : Char} : (sign c).Takes w ks ↔ w = [CodePoint.ofChar c] ∧ ks = [] := by
  simp [sign]

theorem takes_singleRule (h : singleRule.rule.body.Takes w ks) : ∃ s target,
    w = ("import" : Text) ++ (s ++ CodePoint.ofChar '"' :: (target ++ [CodePoint.ofChar '"'])) := by
  obtain ⟨_, _, _, _, ⟨rfl, rfl⟩, hTail, rfl, rfl⟩ := h
  obtain ⟨s, _, _, _, -, hTail, rfl, rfl⟩ := hTail
  obtain ⟨_, _, _, _, hOpening, hTail, rfl, rfl⟩ := hTail
  obtain ⟨target, _, _, _, -, hTail, rfl, rfl⟩ := hTail
  obtain ⟨_, _, _, _, hClosing, ⟨rfl, rfl⟩, rfl, rfl⟩ := hTail
  obtain ⟨rfl, rfl⟩ := takes_sign.mp hOpening
  obtain ⟨rfl, rfl⟩ := takes_sign.mp hClosing
  exact ⟨s, target, by simp⟩

theorem takes_groupRule (h : groupRule.rule.body.Takes w ks) : ∃ s rest,
    (∀ c ∈ s, c.isBlank) ∧ w = ("import" : Text) ++ (s ++ CodePoint.ofChar '(' :: rest) := by
  obtain ⟨_, _, _, _, ⟨rfl, rfl⟩, hTail, rfl, rfl⟩ := h
  obtain ⟨s, _, _, _, ⟨hs, rfl⟩, hTail, rfl, rfl⟩ := hTail
  obtain ⟨_, _, _, _, hOpening, -, rfl, rfl⟩ := hTail
  obtain ⟨rfl, rfl⟩ := takes_sign.mp hOpening
  exact ⟨s, _, hs, rfl⟩

/-- Two texts that go on with different signs differ, if neither holds the sign of the other. -/
theorem append_cons_ne_append_cons (hcd : c ≠ d) (hd : d ∉ s) (hc : c ∉ t) :
    s ++ c :: x ≠ t ++ d :: y := by
  intro h
  rcases List.append_eq_append_iff.mp h with ⟨more, rfl, hTail⟩ | ⟨more, rfl, hTail⟩
  · cases more with
    | nil => exact hcd (List.cons_eq_cons.mp hTail).1
    | cons e more =>
      obtain ⟨rfl, -⟩ := List.cons_eq_cons.mp (hTail.trans List.cons_append)
      exact hc (List.mem_append_right _ List.mem_cons_self)
  · cases more with
    | nil => exact hcd (List.cons_eq_cons.mp hTail).1.symm
    | cons e more =>
      obtain ⟨rfl, -⟩ := List.cons_eq_cons.mp (hTail.trans List.cons_append)
      exact hd (List.mem_append_right _ List.mem_cons_self)

theorem prefix_of_prefix_append_cons (hc : c ∉ w) (h : w <+: s ++ c :: t) : w <+: s := by
  obtain ⟨rest, hRest⟩ := h
  rcases List.append_eq_append_iff.mp hRest with ⟨more, rfl, -⟩ | ⟨more, rfl, hTail⟩
  · exact List.prefix_append _ _
  · cases more with
    | nil => simp
    | cons d more =>
      obtain ⟨rfl, -⟩ := List.cons_eq_cons.mp (hTail.trans List.cons_append)
      exact absurd (List.mem_append_right _ List.mem_cons_self) hc

/-- No group begins in a line without the word `import`. -/
theorem read?_groupRule_of_noImport (hNoImport : ¬ ("import" : Text) <:+: t) (hs : s <:+ t)
    (b : Text) : groupRule.rule.body.read? (s ++ CodePoint.ofChar '\n' :: b) = none := by
  refine read?_sequence_text_eq_none fun hPrefix => hNoImport ?_
  have hHere : ("import" : Text) <+: s := prefix_of_prefix_append_cons (by decide) hPrefix
  exact hHere.isInfix.trans hs.isInfix

/-- No group begins in a line without an opening parenthesis that ends with a mark. -/
theorem read?_groupRule_of_mark (hOpening : CodePoint.ofChar '(' ∉ t) (hne : s ≠ [])
    (hs : s <:+ t ++ [CodePoint.ofChar '"']) (b : Text) :
    groupRule.rule.body.read? (s ++ CodePoint.ofChar '\n' :: b) = none := by
  refine read?_eq_none fun w ks hTakes hPrefix => ?_
  obtain ⟨gap, rest, hGap, rfl⟩ := takes_groupRule hTakes
  obtain ⟨after, hAfter⟩ := hPrefix
  obtain rfl | ⟨x, rfl, hx⟩ := List.suffix_concat_iff.mp hs
  · exact hne rfl
  · have hNoMark : CodePoint.ofChar '"' ∉ ("import" : Text) ++ gap := by
      rw [List.mem_append, not_or]
      exact ⟨by decide, fun h => absurd (hGap _ h) (by decide)⟩
    have hNotOpening : CodePoint.ofChar '(' ∉ x := fun h => hOpening (hx.mem h)
    refine append_cons_ne_append_cons (x := rest ++ after) (y := CodePoint.ofChar '\n' :: b)
      (by decide) hNoMark hNotOpening ?_
    simpa using hAfter

/-- A single import needs two marks after the word `import`. -/
theorem matchesIn_singleRule_eq_nil
    (h : ∀ s, s <:+ t → ("import" : Text) <+: s → s.count (CodePoint.ofChar '"') ≤ 1) :
    singleRule.rule.matchesIn t = [] := by
  refine Rule.matchesIn_eq_nil fun s hs => read?_eq_none fun w ks hTakes hPrefix => ?_
  obtain ⟨gap, target, rfl⟩ := takes_singleRule hTakes
  have hCount := h s hs ((List.prefix_append _ _).trans hPrefix)
  have hMarks := hPrefix.sublist.count_le (CodePoint.ofChar '"')
  simp only [List.count_append, List.count_cons_self, List.count_nil] at hMarks
  omega

theorem read?_singleRule (p : GoPath) (rest : Text) :
    ∃ r, singleRule.rule.body.read? ((GoPart.single p).text ++ rest) = some r ∧
      r.taken = (GoPart.single p).text.length ∧ r.parts = [(.target, p.text)] := by
  have hText : (GoPart.single p).text ++ rest = ("import " : Text) ++
      CodePoint.ofChar '"' :: (p.text ++ CodePoint.ofChar '"' :: rest) := by
    simp [GoPart.text, GoPath.quoted]
  have hInside : ∀ c ∈ p.text, (['"'].all fun d => decide (c ≠ CodePoint.ofChar d)) = true := by
    intro c hc
    simp only [List.all_cons, List.all_nil, Bool.and_true, decide_eq_true_eq]
    rintro rfl
    exact p.noMark hc
  refine ⟨⟨7 + 1 + p.text.length + 1, rest, [⟨.target, p.text ++ CodePoint.ofChar '"' :: rest,
    p.text.length⟩]⟩, ?_, ?_, ?_⟩
  · rw [hText, singleRule, ImportRule.anywhere, read?_import (stops_cons.mpr (by decide)),
      run_sequence_cons, sign, run_one_cons (by decide), run_sequence_cons, run_keep, upTo1]
    refine run_many1_append p.ne_nil hInside (stops_cons.mpr (by decide)) ?_
    rw [run_sequence_cons, run_one_cons (by decide), run_sequence_nil,
      Nat.add_sub_cancel_left]
  · have hImport : ("import " : Text).length = 7 := rfl
    simp only [GoPart.text, GoPath.quoted, List.length_append, List.length_cons, List.length_nil,
      hImport]
    omega
  · simp [Reading.parts, Kept.content]

theorem GroupLine.notMem_closing_text (l : GroupLine) : CodePoint.ofChar ')' ∉ l.text := by
  have hBlank (i : Indentation) : CodePoint.ofChar ')' ∉ i.text :=
    fun h => absurd (i.isBlank _ h) (by decide)
  cases l with
  | blank i => exact hBlank i
  | comment i t _ noClosing _ =>
    rw [GroupLine.text, List.mem_append, List.mem_append, not_or, not_or]
    exact ⟨hBlank i, by decide, noClosing⟩
  | path i p _ =>
    rw [GroupLine.text, GoPath.quoted, List.mem_append, List.mem_cons, List.mem_append, not_or,
      not_or, not_or]
    exact ⟨hBlank i, by decide, p.noClosing, by decide⟩

theorem GroupLine.notMem_closing_bodyText (lines : List GroupLine) :
    CodePoint.ofChar ')' ∉ GroupLine.bodyText lines := by
  intro h
  rcases List.mem_cons.mp h with h | h
  · exact absurd h (by decide)
  · obtain ⟨l, -, h⟩ := List.mem_flatMap.mp h
    rcases List.mem_append.mp h with h | h
    · exact l.notMem_closing_text h
    · exact absurd (List.mem_singleton.mp h) (by decide)

theorem read?_groupRule (lines : List GroupLine) (rest : Text) :
    ∃ r, groupRule.rule.body.read? ((GoPart.group lines).text ++ rest) = some r ∧
      r.taken = (GoPart.group lines).text.length ∧
      r.parts = [(.body, GroupLine.bodyText lines)] := by
  have hText : (GoPart.group lines).text ++ rest = ("import" : Text) ++ ([CodePoint.ofChar ' '] ++
      CodePoint.ofChar '(' :: (GroupLine.bodyText lines ++ CodePoint.ofChar ')' :: rest)) := by
    have hImport : ("import (" : Text) = ("import" : Text) ++
        [CodePoint.ofChar ' ', CodePoint.ofChar '('] := rfl
    simp [GoPart.text, hImport]
  have hInside : ∀ c ∈ GroupLine.bodyText lines, decide (c ≠ CodePoint.ofChar ')') = true := by
    intro c hc
    rw [decide_eq_true_eq]
    rintro rfl
    exact GroupLine.notMem_closing_bodyText lines hc
  refine ⟨⟨0 + 6 + 1 + 1 + (GroupLine.bodyText lines).length + 1, rest, [⟨.body,
    GroupLine.bodyText lines ++ CodePoint.ofChar ')' :: rest,
    (GroupLine.bodyText lines).length⟩]⟩, ?_, ?_, ?_⟩
  · rw [hText, groupRule, ImportRule.anywhere, read?, run_sequence_cons, Reading.start,
      run_text_append, run_sequence_cons, blanks]
    refine run_many_append (by decide) (stops_cons.mpr (by decide)) ?_
    rw [run_sequence_cons, sign, run_one_cons (by decide), run_sequence_cons, run_keep]
    refine run_many_append hInside (stops_cons.mpr (by decide)) ?_
    rw [run_sequence_cons, sign, run_one_cons (by decide), run_sequence_nil,
      Nat.add_sub_cancel_left]
    rfl
  · have hImport : ("import (" : Text).length = 8 := rfl
    simp only [GoPart.text, List.length_append, List.length_cons, List.length_nil, hImport]
    omega
  · simp [Reading.parts, Kept.content]

end Rules

/-! ### The lines of a group -/

namespace GroupLine

theorem noBreak_text (l : GroupLine) : CodePoint.ofChar '\n' ∉ l.text := by
  cases l with
  | blank i => exact i.noBreak
  | comment i t noBreak _ _ =>
    rw [text, List.mem_append, List.mem_append, not_or, not_or]
    exact ⟨i.noBreak, by decide, noBreak⟩
  | path i p _ =>
    rw [text, GoPath.quoted, List.mem_append, List.mem_cons, List.mem_append, not_or, not_or,
      not_or]
    exact ⟨i.noBreak, by decide, p.noBreak, by decide⟩

theorem sourceLines_flatMap (lines : List GroupLine) {last : Text}
    (hLast : CodePoint.ofChar '\n' ∉ last) :
    sourceLines ((lines.flatMap fun l => l.text ++ [CodePoint.ofChar '\n']) ++ last) =
      lines.map text ++ [last] := by
  induction lines with
  | nil => exact List.splitOn_eq_singleton hLast
  | cons l lines ih =>
    rw [List.flatMap_cons, List.append_assoc, List.append_assoc, List.singleton_append,
      sourceLines, List.splitOn_append_cons_self_of_not_mem l.noBreak_text, ← sourceLines, ih]
    rfl

/-- The word `import` does not begin in the indentation. -/
theorem suffix_of_suffix_indented {i : Indentation} {s t : Text} (hs : s <:+ i.text ++ t)
    (hImport : ("import" : Text) <+: s) : s <:+ t := by
  obtain ⟨before, hBefore⟩ := hs
  rcases List.append_eq_append_iff.mp hBefore with ⟨more, hText, rfl⟩ | ⟨more, -, rfl⟩
  · cases more with
    | nil => exact List.suffix_rfl
    | cons c more =>
      obtain ⟨rest, hRest⟩ := hImport
      obtain rfl : CodePoint.ofChar 'i' = c := (List.cons_eq_cons.mp hRest).1
      have hMem : CodePoint.ofChar 'i' ∈ i.text :=
        hText ▸ List.mem_append_right _ List.mem_cons_self
      exact absurd (i.isBlank _ hMem) (by decide)
  · exact List.suffix_append more s

theorem suffix_of_suffix_sign {c : CodePoint} {s t : Text} (hc : c ≠ CodePoint.ofChar 'i')
    (hs : s <:+ c :: t) (hImport : ("import" : Text) <+: s) : s <:+ t := by
  rcases List.suffix_cons_iff.mp hs with rfl | hs
  · exact absurd (List.cons_prefix_cons.mp hImport).1.symm hc
  · exact hs

/-- No single import stands on a line of a group. -/
theorem matchesIn_singleRule (l : GroupLine) : singleRule.rule.matchesIn l.text = [] := by
  refine matchesIn_singleRule_eq_nil fun s hs hImport => ?_
  cases l with
  | blank i =>
    have hNothing : s <:+ [] := by
      refine suffix_of_suffix_indented (i := i) ?_ hImport
      rwa [List.append_nil]
    rw [List.suffix_nil.mp hNothing]
    exact Nat.zero_le 1
  | comment i t _ _ noImport =>
    have hSlash : CodePoint.ofChar '/' ≠ CodePoint.ofChar 'i' := by decide
    have hComment := suffix_of_suffix_indented hs hImport
    have hRest := suffix_of_suffix_sign hSlash hComment hImport
    have hText := suffix_of_suffix_sign hSlash hRest hImport
    exact absurd (hImport.isInfix.trans hText.isInfix) noImport
  | path i p _ =>
    have hRest := suffix_of_suffix_sign (by decide) (suffix_of_suffix_indented hs hImport) hImport
    refine Nat.le_trans (hRest.sublist.count_le _) ?_
    rw [List.count_append, List.count_eq_zero.mpr p.noMark]
    decide

end GroupLine

end DependencyMap
