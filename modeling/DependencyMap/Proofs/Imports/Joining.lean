import DependencyMap.Source.Extraction
import DependencyMap.Proofs.Pattern.Extending
import DependencyMap.Proofs.Pattern.Running

/-!
# Extracting imports from joined texts

`importsOf_append_line`: the imports of two texts with a line break between them are those of the
first, and then those of the second on lines that come later by as many as the first text has. Only
a group of imports can spoil this, where it begins in the first text and is closed in the second.

Links of one line move with it (`linksOnLine_add`). Groups are searched in the whole text, so for
them the matches of the whole are told apart by the place where they begin
(`groupsOf_append_line`), which is also the line under which they are listed.
-/

namespace DependencyMap

namespace Link

def later (n : Nat) (l : Link) : Link := { l with line := l.line + n }

@[simp] theorem line_later (n : Nat) (l : Link) : (l.later n).line = l.line + n := rfl

end Link

def lineCount (t : Text) : Nat := t.count (CodePoint.ofChar '\n') + 1

theorem sourceLines_append_line (a b : Text) :
    sourceLines (a ++ CodePoint.ofChar '\n' :: b) = sourceLines a ++ sourceLines b :=
  List.splitOn_append_cons_self a b

theorem length_sourceLines (t : Text) : (sourceLines t).length = lineCount t := by
  induction t with
  | nil => rfl
  | cons c t ih =>
    rw [sourceLines, List.splitOn_cons_eq_if_modifyHead]
    by_cases hc : c = CodePoint.ofChar '\n'
    · subst hc
      rw [if_pos (beq_self_eq_true _), List.length_cons, ← sourceLines, ih, lineCount, lineCount,
        List.count_cons_self]
    · rw [if_neg (by simpa using hc), List.length_modifyHead, ← sourceLines, ih, lineCount,
        lineCount, List.count_cons_of_ne hc]

namespace Match

theorem line_extend {m : Match} {t : Text} (u : Text) (h : m.offset ≤ t.length) :
    (m.extend u).line (t ++ u) = m.line t := by
  rw [line, line, extend, List.take_append_of_le_length h]

theorem line_moved (m : Match) (a b : Text) :
    (m.moved (a.length + 1)).line (a ++ CodePoint.ofChar '\n' :: b) = m.line b + lineCount a := by
  have hTake : (a ++ CodePoint.ofChar '\n' :: b).take (m.offset + (a.length + 1)) =
      a ++ CodePoint.ofChar '\n' :: b.take m.offset := by
    rw [Nat.add_comm, Nat.add_assoc, List.take_length_add_append, Nat.add_comm, List.take_succ_cons]
  rw [line, line, moved, hTake, List.count_append, List.count_cons_self, lineCount]
  omega

theorem line_le_lineCount (m : Match) (t : Text) : m.line t ≤ lineCount t :=
  Nat.succ_le_succ ((List.take_sublist m.offset t).count_le _)

theorem line_pos (m : Match) (t : Text) : 0 < m.line t := Nat.succ_pos _

end Match

theorem ImportForm.describe?_extend (form : ImportForm) {m : Match} (h : m.reading.Fits)
    (u : Text) : form.describe? (m.extend u) = form.describe? m := by
  simp only [describe?, Match.part?, Match.extend, h.part?_extend u]

namespace Language

variable (language : Language)

theorem link?_extend (form : ImportForm) (line : Nat) {m : Match} (h : m.reading.Fits) (u : Text) :
    language.link? form line (m.extend u) = language.link? form line m := by
  rw [link?, form.describe?_extend h u, link?]

/-- The line of a match is noted in its link and makes no other difference. -/
theorem link?_add (form : ImportForm) (line n : Nat) (m : Match) :
    language.link? form (line + n) m = (language.link? form line m).map (Link.later n) := by
  rw [link?, link?, Option.map_map]
  rfl

theorem link?_moved (form : ImportForm) (line n k : Nat) (m : Match) :
    language.link? form (line + n) (m.moved k) =
      (language.link? form line m).map (Link.later n) := language.link?_add form line n m

theorem linksOnLine_add (line n : Nat) (t : Text) :
    language.linksOnLine (line + n) t = (language.linksOnLine line t).map (Link.later n) := by
  simp only [linksOnLine, List.map_flatMap, List.map_filterMap, language.link?_add]

def linksOf (r : ImportRule) (line : Nat) (t : Text) : List Link :=
  (r.rule.matchesIn t).filterMap (language.link? r.form line)

theorem linksOnLine_eq (line : Nat) (t : Text) :
    language.linksOnLine line t = language.lineImports.flatMap fun r =>
      language.linksOf r line t := rfl

/-! ### Groups -/

def groupsOf (r : ImportRule) (content : Text) : List Link :=
  (r.rule.matchesIn content).filterMap fun m => language.link? r.form (m.line content) m

theorem groupLinks_eq (content : Text) :
    language.groupLinks content =
      language.groupImports.flatMap fun r => language.groupsOf r content := rfl

/-- No group of imports in the two texts with a line break between them begins in the first and
ends after it. -/
def GroupsApart (a b : Text) : Prop := ∀ r ∈ language.groupImports, r.rule.Apart a b

instance (a b : Text) : Decidable (language.GroupsApart a b) :=
  inferInstanceAs (Decidable (∀ _ ∈ _, _))

theorem groupImports_eq_nil {language : Language} (h : language ≠ .go) :
    language.groupImports = [] := by
  cases language <;> first | rfl | exact absurd rfl h

theorem group_of_mem_groupImports {language : Language} {r : ImportRule}
    (h : r ∈ language.groupImports) :
    language = .go ∧ r.form = .group := by
  cases language with
  | go =>
    obtain rfl := List.mem_singleton.mp h
    exact ⟨rfl, rfl⟩
  | _ => cases h

theorem groupsApart_of_ne_go {language : Language} (h : language ≠ .go) (a b : Text) :
    language.GroupsApart a b := by
  intro r hr
  rw [groupImports_eq_nil h] at hr
  cases hr

/-- No group begins with a line break. -/
theorem read?_lineBreak_eq_none {language : Language} {r : ImportRule}
    (h : r ∈ language.groupImports) (b : Text) :
    r.rule.body.read? (CodePoint.ofChar '\n' :: b) = none := by
  cases language with
  | go =>
    obtain rfl := List.mem_singleton.mp h
    refine Pattern.read?_sequence_text_eq_none fun hPrefix => ?_
    exact absurd (List.cons_prefix_cons.mp hPrefix).1 (by decide)
  | _ => cases h

theorem groupsOf_append_line {r : ImportRule} {a b : Text}
    (hBreak : r.rule.body.read? (CodePoint.ofChar '\n' :: b) = none) (hApart : r.rule.Apart a b) :
    language.groupsOf r (a ++ CodePoint.ofChar '\n' :: b) =
      language.groupsOf r a ++ (language.groupsOf r b).map (Link.later (lineCount a)) := by
  rw [groupsOf, Rule.matchesIn_append_line hBreak hApart, List.filterMap_append,
    List.filterMap_map, List.filterMap_map, groupsOf, groupsOf, List.map_filterMap]
  congr 1
  · refine List.filterMap_congr fun m hm => ?_
    obtain ⟨-, hOffset, hFits⟩ := Rule.bounds_of_mem_scan hm
    rw [Function.comp_apply, Match.line_extend _ (by omega), link?_extend _ _ _ hFits]
  · refine List.filterMap_congr fun m _ => ?_
    rw [Function.comp_apply, Match.line_moved, link?_moved]

theorem line_of_mem_groupsOf {r : ImportRule} {content : Text} {l : Link}
    (h : l ∈ language.groupsOf r content) : 0 < l.line ∧ l.line ≤ lineCount content := by
  obtain ⟨m, -, hLink⟩ := List.mem_filterMap.mp h
  rw [link?, Option.map_eq_some_iff] at hLink
  obtain ⟨-, -, rfl⟩ := hLink
  exact ⟨m.line_pos content, m.line_le_lineCount content⟩

def groupsOnLine (content : Text) (line : Nat) : List Link :=
  (language.groupLinks content).filter fun l => l.line = line

theorem groupsOnLine_eq (content : Text) (line : Nat) :
    language.groupsOnLine content line = language.groupImports.flatMap fun r =>
      (language.groupsOf r content).filter fun l => l.line = line := by
  rw [groupsOnLine, groupLinks_eq, List.filter_flatMap]

variable {language} {a b : Text}

theorem groupsOnLine_append_line_of_le (h : language.GroupsApart a b) {line : Nat}
    (hLine : line ≤ lineCount a) :
    language.groupsOnLine (a ++ CodePoint.ofChar '\n' :: b) line =
      language.groupsOnLine a line := by
  rw [groupsOnLine_eq, groupsOnLine_eq]
  refine List.flatMap_congr fun r hr => ?_
  have hLater : ((language.groupsOf r b).map (Link.later (lineCount a))).filter
      (fun l => l.line = line) = [] := by
    refine List.filter_eq_nil_iff.mpr fun l hl => ?_
    obtain ⟨k, hk, rfl⟩ := List.mem_map.mp hl
    have hPos := (language.line_of_mem_groupsOf hk).1
    rw [decide_eq_true_eq, Link.line_later]
    omega
  rw [groupsOf_append_line _ (read?_lineBreak_eq_none hr b) (h r hr), List.filter_append, hLater,
    List.append_nil]

theorem groupsOnLine_append_line_add (h : language.GroupsApart a b) {line : Nat}
    (hLine : 0 < line) :
    language.groupsOnLine (a ++ CodePoint.ofChar '\n' :: b) (line + lineCount a) =
      (language.groupsOnLine b line).map (Link.later (lineCount a)) := by
  rw [groupsOnLine_eq, groupsOnLine_eq, List.map_flatMap]
  refine List.flatMap_congr fun r hr => ?_
  have hEarlier : (language.groupsOf r a).filter (fun l => l.line = line + lineCount a) = [] := by
    refine List.filter_eq_nil_iff.mpr fun l hl => ?_
    have hLe := (language.line_of_mem_groupsOf hl).2
    rw [decide_eq_true_eq]
    omega
  have hSame : (fun l : Link => decide (l.line = line + lineCount a)) ∘ Link.later (lineCount a) =
      fun l => decide (l.line = line) := by
    funext l
    simp
  rw [groupsOf_append_line _ (read?_lineBreak_eq_none hr b) (h r hr), List.filter_append, hEarlier,
    List.nil_append, List.filter_map, hSame]

end Language

/-! ### Line by line -/

namespace Language

variable {language : Language} {a b : Text}

theorem importsOf_eq (language : Language) (content : Text) :
    language.importsOf content = ((sourceLines content).zipIdx 1).flatMap fun (t, line) =>
      language.groupsOnLine content line ++ language.linksOnLine line t := rfl

theorem importsOf_append_line_of_groupsApart (h : language.GroupsApart a b) :
    language.importsOf (a ++ CodePoint.ofChar '\n' :: b) =
      language.importsOf a ++ (language.importsOf b).map (Link.later (lineCount a)) := by
  rw [importsOf_eq, sourceLines_append_line, List.zipIdx_append, List.flatMap_append,
    length_sourceLines, importsOf_eq, importsOf_eq]
  congr 1
  · refine List.flatMap_congr fun e he => ?_
    have hLast := (List.mem_zipIdx he).2.1
    rw [length_sourceLines] at hLast
    have hLine : e.2 ≤ lineCount a := by omega
    simp only [groupsOnLine_append_line_of_le h hLine]
  · rw [Nat.add_comm, ← List.map_snd_add_zipIdx_eq_zipIdx, List.flatMap_map, List.map_flatMap]
    refine List.flatMap_congr fun e he => ?_
    have hFirst : 0 < e.2 := (List.mem_zipIdx he).1
    simp only [Prod.map, id_eq, List.map_append, ← linksOnLine_add,
      ← groupsOnLine_append_line_add h hFirst]

end Language

/-- The imports of two texts with a line break between them: those of the first, and those of the
second on later lines. For the languages without groups this holds of all texts, and for Go unless
a group begins in the first text and ends after it. -/
theorem importsOf_append_line (language : Language) (a b : Text)
    (h : language = .go → Language.go.GroupsApart a b) :
    language.importsOf (a ++ CodePoint.ofChar '\n' :: b) =
      language.importsOf a ++ (language.importsOf b).map (Link.later (lineCount a)) := by
  refine Language.importsOf_append_line_of_groupsApart ?_
  by_cases hGo : language = .go
  · subst hGo
    exact h rfl
  · exact Language.groupsApart_of_ne_go hGo a b

/-- A text that ends in the middle of an import, after a whole group. -/
def closedGroupText : Text := "package a\nimport (\n\"fmt\"\n\"os\"\n) // import"

/-- A text with a group that begins on its second line. -/
def laterGroupText : Text := "\"net\")\nimport (\"net/http\") import \"io\""

theorem importsOf_append_line_between_groups :
    Language.go.GroupsApart closedGroupText laterGroupText ∧
    Language.go.importsOf (closedGroupText ++ CodePoint.ofChar '\n' :: laterGroupText) =
      [⟨"os", .default, [], 2, false⟩] ++
        [(⟨"net/http", .default, [], 2, true⟩ : Link), ⟨"io", .default, [], 2, false⟩].map
          (Link.later 5) := by
  have hApart : Language.go.GroupsApart closedGroupText laterGroupText := by decide +kernel
  refine ⟨hApart, ?_⟩
  rw [importsOf_append_line .go closedGroupText laterGroupText fun _ => hApart]
  decide +kernel

/-- A group may also be opened by the first text and written in the second. -/
example : ¬ Language.go.GroupsApart "import" "(\"fmt\")" := by decide +kernel

end DependencyMap
