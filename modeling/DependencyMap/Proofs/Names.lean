import DependencyMap.Source.Extraction
import DependencyMap.Proofs.Text.Segments
import Mathlib.Data.List.Basic

/-!
# Words and lists of names

No word character is white space (`isBlank_eq_false_of_isWord`), so a name that begins and ends with
word characters is what is left when the white space around it is taken away (`strip_padded`). A
list of names is read piece by piece, from comma to comma (`splitNames_append_comma`), and the names
that are read are trimmed parts of the list without a comma (`mem_splitNames`).
-/

namespace DependencyMap

namespace CodePoint

def blankValues : List Nat :=
  List.range' 0x09 5 ++ List.range' 0x1C 5 ++ [0x85, 0xA0, 0x1680] ++ List.range' 0x2000 11 ++
    [0x2028, 0x2029, 0x202F, 0x205F, 0x3000]

theorem value_mem_blankValues {c : CodePoint} (h : c.isBlank) : c.value ∈ blankValues := by
  simp only [isBlank, inRanges, List.any_cons, List.any_nil, Bool.or_eq_true, Bool.and_eq_true,
    decide_eq_true_eq, Bool.or_false] at h
  simp only [blankValues, List.mem_append, List.mem_range'_1, List.mem_cons, List.not_mem_nil,
    or_false]
  omega

theorem isWord_eq_false_of_isBlank {c : CodePoint} (h : c.isBlank) : c.isWord = false := by
  -- there are few numbers of white space, so each is looked up among the word characters
  have hTable : ∀ v ∈ blankValues, ∀ hv : v < 0x110000,
      (⟨v, hv⟩ : CodePoint).isWord = false := by decide +kernel
  exact hTable c.value (value_mem_blankValues h) c.value_lt

theorem isBlank_eq_false_of_isWord {c : CodePoint} (h : c.isWord) : c.isBlank = false := by
  rw [Bool.eq_false_iff]
  intro hBlank
  rw [isWord_eq_false_of_isBlank hBlank] at h
  cases h

theorem ne_of_isWord {c d : CodePoint} (h : c.isWord) (hd : d.isWord = false) : c ≠ d := by
  rintro rfl
  rw [h] at hd
  cases hd

end CodePoint

namespace Text

structure Trimmed (t : Text) : Prop where
  head : ∀ c ∈ t.head?, c.isBlank = false
  last : ∀ c ∈ t.getLast?, c.isBlank = false

theorem dropWhile_append_of_head {p : CodePoint → Bool} {l t : Text} (hl : ∀ c ∈ l, p c)
    (ht : ∀ c ∈ t.head?, p c = false) : (l ++ t).dropWhile p = t := by
  rw [List.dropWhile_append_of_pos hl]
  cases t with
  | nil => rfl
  | cons c t => rw [List.dropWhile_cons_of_neg (by rw [ht c rfl]; decide)]

/-- What is taken away stands around what is left. -/
theorem stripWhere_padded {p : CodePoint → Bool} {l t r : Text} (hHead : ∀ c ∈ t.head?, p c = false)
    (hLast : ∀ c ∈ t.getLast?, p c = false) (hne : t ≠ []) (hl : ∀ c ∈ l, p c)
    (hr : ∀ c ∈ r, p c) : stripWhere p (l ++ (t ++ r)) = t := by
  have hBegins : ∀ c ∈ (t ++ r).head?, p c = false := by
    intro c hc
    rw [List.head?_append_of_ne_nil _ hne] at hc
    exact hHead c hc
  have hEnds : ∀ c ∈ t.reverse.head?, p c = false := by
    intro c hc
    rw [List.head?_reverse] at hc
    exact hLast c hc
  rw [stripWhere, dropWhile_append_of_head hl hBegins, List.reverse_append,
    dropWhile_append_of_head (fun c hc => hr c (List.mem_reverse.mp hc)) hEnds,
    List.reverse_reverse]

/-- White space around a trimmed text is what stripping takes away. -/
theorem strip_padded {l t r : Text} (ht : t.Trimmed) (hne : t ≠ []) (hl : ∀ c ∈ l, c.isBlank)
    (hr : ∀ c ∈ r, c.isBlank) : strip (l ++ (t ++ r)) = t :=
  stripWhere_padded ht.head ht.last hne hl hr

theorem stripWhere_eq_nil {p : CodePoint → Bool} {t : Text} (h : ∀ c ∈ t, p c) :
    stripWhere p t = [] := by
  have hNothing := dropWhile_append_of_head (t := []) h (by simp)
  rw [List.append_nil] at hNothing
  rw [stripWhere, hNothing]
  rfl

/-- A beginning of which nothing is taken away stays the beginning. -/
theorem prefix_stripWhere {p : CodePoint → Bool} {l w t : Text} (hl : ∀ c ∈ l, p c)
    (hw : ∀ c ∈ w, p c = false) (hne : w ≠ []) : w <+: stripWhere p (l ++ (w ++ t)) := by
  have hHead : ∀ c ∈ (w ++ t).head?, p c = false := by
    intro c hc
    rw [List.head?_append_of_ne_nil _ hne] at hc
    exact hw c (List.mem_of_mem_head? hc)
  have hLast : w.reverse.dropWhile p = w.reverse :=
    dropWhile_append_of_head (l := []) (by simp) fun c hc =>
      hw c (List.mem_reverse.mp (List.mem_of_mem_head? hc))
  rw [stripWhere, dropWhile_append_of_head hl hHead, List.reverse_append, List.dropWhile_append,
    hLast]
  split
  · simp
  · simp

theorem stripWhere_prefix_dropWhile (p : CodePoint → Bool) (t : Text) :
    stripWhere p t <+: t.dropWhile p := by
  rw [stripWhere, ← List.reverse_suffix, List.reverse_reverse]
  exact List.dropWhile_suffix p

theorem stripWhere_infix (p : CodePoint → Bool) (t : Text) : stripWhere p t <:+: t :=
  (stripWhere_prefix_dropWhile p t).isInfix.trans (List.dropWhile_suffix p).isInfix

theorem of_mem_head?_dropWhile {p : CodePoint → Bool} {t : Text} {c : CodePoint}
    (h : c ∈ (t.dropWhile p).head?) : p c = false := by
  have hNot := List.head?_dropWhile_not p t
  rw [Option.mem_def.mp h] at hNot
  simpa using hNot

/-- What is left when the white space at both ends is taken away. -/
theorem trimmed_strip (t : Text) : t.strip.Trimmed where
  head := by
    intro c hc
    obtain ⟨rest, hRest⟩ := stripWhere_prefix_dropWhile CodePoint.isBlank t
    apply of_mem_head?_dropWhile (t := t)
    have hne : t.stripWhere CodePoint.isBlank ≠ [] := List.ne_nil_of_mem (List.mem_of_mem_head? hc)
    rw [← hRest, List.head?_append_of_ne_nil _ hne]
    exact hc
  last := by
    intro c hc
    rw [strip, stripWhere, List.getLast?_reverse] at hc
    exact of_mem_head?_dropWhile hc

end Text

theorem splitNames_append_comma {s t : Text} (hs : CodePoint.ofChar ',' ∉ s) :
    splitNames (s ++ CodePoint.ofChar ',' :: t) = splitNames s ++ splitNames t := by
  rw [splitNames, List.splitOn_append_cons_self_of_not_mem hs, splitNames,
    List.splitOn_eq_singleton hs, splitNames, List.map_cons, List.filter_cons, List.map_cons,
    List.map_nil, List.filter_cons, List.filter_nil]
  split <;> rfl

/-- A single name with white space around it. -/
theorem splitNames_padded {l t r : Text} (ht : t.Trimmed) (hne : t ≠ [])
    (hComma : CodePoint.ofChar ',' ∉ t) (hl : ∀ c ∈ l, c.isBlank) (hr : ∀ c ∈ r, c.isBlank) :
    splitNames (l ++ (t ++ r)) = [t] := by
  have hBlank : ¬ (CodePoint.ofChar ',').isBlank := by decide
  have hNone : CodePoint.ofChar ',' ∉ l ++ (t ++ r) := by
    simp only [List.mem_append, not_or]
    exact ⟨fun h => hBlank (hl _ h), hComma, fun h => hBlank (hr _ h)⟩
  have hIsEmpty : t.isEmpty = false := by simpa using hne
  rw [splitNames, List.splitOn_eq_singleton hNone, List.map_cons, List.map_nil,
    Text.strip_padded ht hne hl hr, List.filter_cons, hIsEmpty]
  rfl

theorem mem_splitNames {t name : Text} (h : name ∈ splitNames t) :
    name ≠ [] ∧ name.Trimmed ∧ CodePoint.ofChar ',' ∉ name ∧ name <:+: t := by
  rw [splitNames, List.mem_filter, List.mem_map] at h
  obtain ⟨⟨piece, hPiece, rfl⟩, hne⟩ := h
  have hInfix : piece.strip <:+: piece := Text.stripWhere_infix _ _
  refine ⟨by simpa using hne, Text.trimmed_strip piece, ?_, ?_⟩
  · intro hComma
    exact Text.notMem_of_mem_splitOn hPiece (hInfix.mem hComma)
  · exact hInfix.trans (Text.infix_of_mem_splitOn hPiece)

end DependencyMap
