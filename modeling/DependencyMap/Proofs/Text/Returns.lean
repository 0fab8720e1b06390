import DependencyMap.Proofs.Names
import DependencyMap.Proofs.FileTree.Loading

/-!
# Carriage returns before line breaks

`Text.withReturns` puts a carriage return before each line break of a text. Reading a file takes it
away again (`withLineFeeds_withReturns`). Both signs are white space and neither is a comma, so
cutting a text at the commas and taking away the white space goes on in the same way
(`splitNames_withReturns`). The lines of the text stay what they are, but for a carriage return at
the end of each line that is not the last (`map_sourceLines_withReturns`).
-/

namespace DependencyMap

namespace Text

def withReturn (c : CodePoint) : Text :=
  if c = '\n' then [CodePoint.ofChar '\r', CodePoint.ofChar '\n'] else [c]

/-- A carriage return before each line break. -/
def withReturns (t : Text) : Text := t.flatMap withReturn

@[simp] theorem withReturns_nil : withReturns [] = [] := rfl

theorem withReturns_break (t : Text) : withReturns (CodePoint.ofChar '\n' :: t) =
    CodePoint.ofChar '\r' :: CodePoint.ofChar '\n' :: withReturns t := rfl

theorem withReturns_cons {c : CodePoint} (h : c ≠ '\n') (t : Text) :
    withReturns (c :: t) = c :: withReturns t := by
  rw [withReturns, List.flatMap_cons, withReturn, if_neg h]
  rfl

theorem withReturns_append (s t : Text) :
    withReturns (s ++ t) = withReturns s ++ withReturns t := List.flatMap_append

/-- No line break is the first sign any longer. -/
theorem withReturns_ne_break_cons (s t : Text) : withReturns s ≠ CodePoint.ofChar '\n' :: t := by
  intro h
  cases s with
  | nil => cases h
  | cons c s =>
    by_cases hc : c = '\n'
    · subst hc
      rw [withReturns_break] at h
      exact absurd (List.cons_eq_cons.mp h).1 (by decide)
    · rw [withReturns_cons hc] at h
      exact hc (List.cons_eq_cons.mp h).1

theorem withReturns_eq_nil_iff {t : Text} : withReturns t = [] ↔ t = [] := by
  cases t with
  | nil => simp
  | cons c t =>
    by_cases hc : c = '\n'
    · subst hc
      simp [withReturns_break]
    · simp [withReturns_cons hc]

theorem withReturns_injective {s t : Text} (h : withReturns s = withReturns t) : s = t := by
  induction s generalizing t with
  | nil => exact (withReturns_eq_nil_iff.mp h.symm).symm
  | cons c s ih =>
    cases t with
    | nil => exact withReturns_eq_nil_iff.mp h
    | cons d t =>
      by_cases hc : c = '\n' <;> by_cases hd : d = '\n'
      · subst hc hd
        rw [withReturns_break, withReturns_break, List.cons_inj_right, List.cons_inj_right] at h
        rw [ih h]
      · subst hc
        rw [withReturns_break, withReturns_cons hd] at h
        exact absurd (List.cons_eq_cons.mp h).2.symm (withReturns_ne_break_cons t _)
      · subst hd
        rw [withReturns_break, withReturns_cons hc] at h
        exact absurd (List.cons_eq_cons.mp h).2 (withReturns_ne_break_cons s _)
      · rw [withReturns_cons hc, withReturns_cons hd] at h
        obtain ⟨rfl, hTail⟩ := List.cons_eq_cons.mp h
        rw [ih hTail]

/-- A file with the carriage returns is read as the text without them. -/
theorem withLineFeeds_withReturns {t : Text} (h : CodePoint.ofChar '\r' ∉ t) :
    withLineFeeds (withReturns t) = t := by
  induction t with
  | nil => rfl
  | cons c t ih =>
    obtain ⟨hc, hTail⟩ := not_or.mp (mt List.mem_cons.mpr h)
    by_cases hBreak : c = '\n'
    · subst hBreak
      rw [withReturns_break, withLineFeeds_return, afterReturn, if_pos rfl, ih hTail]
    · rw [withReturns_cons hBreak, withLineFeeds_cons (Ne.symm hc), ih hTail]

theorem count_withReturns (t : Text) :
    (withReturns t).count (CodePoint.ofChar '\n') = t.count (CodePoint.ofChar '\n') := by
  induction t with
  | nil => rfl
  | cons c t ih =>
    by_cases hc : c = '\n'
    · subst hc
      rw [withReturns_break, List.count_cons_of_ne (by decide), List.count_cons_self, ih,
        List.count_cons_self]
    · rw [withReturns_cons hc, List.count_cons_of_ne hc, ih, List.count_cons_of_ne hc]

/-! ### Taking away and cutting -/

/-- Where other signs stand in the place of each sign, they are taken away with it. -/
theorem dropWhile_flatMap {p : CodePoint → Bool} {f : CodePoint → Text} (hne : ∀ c, f c ≠ [])
    (hSame : ∀ c, ∀ d ∈ f c, p d = p c) (t : Text) :
    (t.flatMap f).dropWhile p = (t.dropWhile p).flatMap f := by
  induction t with
  | nil => rfl
  | cons c t ih =>
    rw [List.flatMap_cons]
    by_cases hc : p c
    · rw [List.dropWhile_append_of_pos fun d hd => (hSame c d hd).trans hc, ih,
        List.dropWhile_cons_of_pos hc]
    · rw [List.dropWhile_cons_of_neg hc, List.flatMap_cons]
      cases hSigns : f c with
      | nil => exact absurd hSigns (hne c)
      | cons d s =>
        have hd : p d = p c := hSame c d (hSigns ▸ List.mem_cons_self)
        rw [List.cons_append, List.dropWhile_cons_of_neg (by rwa [hd])]

theorem withReturn_ne_nil (c : CodePoint) : withReturn c ≠ [] := by
  rw [withReturn]
  split <;> exact List.cons_ne_nil _ _

theorem eq_of_mem_withReturn {p : CodePoint → Bool} (h : p '\r' = p '\n') (c : CodePoint) :
    ∀ d ∈ withReturn c, p d = p c := by
  rw [withReturn]
  split
  · rename_i hc
    subst hc
    exact List.forall_mem_cons.mpr ⟨h, List.forall_mem_singleton.mpr rfl⟩
  · exact List.forall_mem_singleton.mpr rfl

theorem stripWhere_withReturns {p : CodePoint → Bool} (h : p '\r' = p '\n') (t : Text) :
    stripWhere p (withReturns t) = withReturns (stripWhere p t) := by
  have hEnd (c : CodePoint) : (List.reverse ∘ withReturn) c ≠ [] := by
    simpa using withReturn_ne_nil c
  have hEndSame (c : CodePoint) : ∀ d ∈ (List.reverse ∘ withReturn) c, p d = p c := fun d hd =>
    eq_of_mem_withReturn h c d (List.mem_reverse.mp hd)
  rw [stripWhere, withReturns, dropWhile_flatMap withReturn_ne_nil (eq_of_mem_withReturn h),
    List.reverse_flatMap, dropWhile_flatMap hEnd hEndSame, List.reverse_flatMap, stripWhere,
    withReturns]
  simp [Function.comp_def]

theorem splitOn_withReturns {sign : CodePoint} (hBreak : sign ≠ '\n') (hReturn : sign ≠ '\r')
    (t : Text) : (withReturns t).splitOn sign = (t.splitOn sign).map withReturns := by
  induction t with
  | nil => rfl
  | cons c t ih =>
    by_cases hc : c = '\n'
    · subst hc
      rw [withReturns_break, splitOn_cons_of_ne hReturn.symm, splitOn_cons_of_ne hBreak.symm,
        splitOn_cons_of_ne hBreak.symm, ih]
      cases t.splitOn sign <;> rfl
    · rw [withReturns_cons hc]
      by_cases hSign : c = sign
      · subst hSign
        rw [splitOn_cons_self, ih, splitOn_cons_self]
        rfl
      · rw [splitOn_cons_of_ne hSign, splitOn_cons_of_ne hSign, ih]
        cases t.splitOn sign with
        | nil => rfl
        | cons first others =>
          rw [List.map_cons, List.modifyHead_cons, List.modifyHead_cons, List.map_cons,
            withReturns_cons hc]

end Text

open Text

theorem splitNames_withReturns (t : Text) :
    splitNames (withReturns t) = (splitNames t).map withReturns := by
  have hStrip (s : Text) : (withReturns s).strip = withReturns s.strip :=
    stripWhere_withReturns (by decide) s
  have hEmpty (s : Text) : (withReturns s).isEmpty = s.isEmpty := by
    rw [Bool.eq_iff_iff, List.isEmpty_iff, List.isEmpty_iff, withReturns_eq_nil_iff]
  rw [splitNames, splitOn_withReturns (by decide) (by decide), List.map_map, splitNames]
  simp only [List.filter_map, List.map_map, Function.comp_def, hStrip, hEmpty]

/-! ### Pieces with a sign behind them -/

namespace Text

/-- Two lists of pieces without `mark` that differ in nothing but a `sign` behind some of the pieces
of the second. -/
def EndAlike (mark sign : CodePoint) : List Text → List Text → Prop :=
  List.Forall₂ fun s s' => mark ∉ s ∧ (s' = s ∨ s' = s ++ [sign])

variable {mark sign c : CodePoint} {pieces pieces' : List Text}

/-- What makes no difference between a piece and the piece with the sign behind it makes none
between the pieces of the two lists. -/
theorem EndAlike.map_eq {α : Type} {f : Text → α} (hf : ∀ s, mark ∉ s → f (s ++ [sign]) = f s)
    (h : EndAlike mark sign pieces pieces') : pieces'.map f = pieces.map f := by
  induction h with
  | nil => rfl
  | cons hHere _ ih =>
    obtain ⟨hMark, rfl | rfl⟩ := hHere
    · rw [List.map_cons, ih, List.map_cons]
    · rw [List.map_cons, hf _ hMark, ih, List.map_cons]

theorem EndAlike.modifyHead_cons (hc : c ≠ mark) (h : EndAlike mark sign pieces pieces') :
    EndAlike mark sign (pieces.modifyHead (c :: ·)) (pieces'.modifyHead (c :: ·)) := by
  cases h with
  | nil => exact .nil
  | cons hHere hOthers =>
    obtain ⟨hMark, hSame⟩ := hHere
    refine .cons ⟨List.not_mem_cons_of_ne_of_not_mem hc.symm hMark, ?_⟩ hOthers
    rcases hSame with rfl | rfl
    · exact Or.inl rfl
    · exact Or.inr rfl

theorem endAlike_splitOn_concat (h : sign ≠ mark) (t : Text) :
    EndAlike mark sign (t.splitOn mark) ((t ++ [sign]).splitOn mark) := by
  induction t with
  | nil =>
    rw [List.nil_append, splitOn_cons_of_ne h]
    exact .cons ⟨List.not_mem_nil, Or.inr rfl⟩ .nil
  | cons c t ih =>
    rw [List.cons_append]
    by_cases hc : c = mark
    · subst hc
      rw [splitOn_cons_self, splitOn_cons_self]
      exact .cons ⟨List.not_mem_nil, Or.inl rfl⟩ ih
    · rw [splitOn_cons_of_ne hc, splitOn_cons_of_ne hc]
      exact ih.modifyHead_cons hc

/-- The lines of the two texts, of which all but the last differ by a carriage return. -/
theorem endAlike_sourceLines_withReturns (t : Text) :
    EndAlike '\n' '\r' (sourceLines t) (sourceLines (withReturns t)) := by
  induction t with
  | nil => exact .cons ⟨List.not_mem_nil, Or.inl rfl⟩ .nil
  | cons c t ih =>
    rw [sourceLines, sourceLines]
    by_cases hc : c = '\n'
    · subst hc
      rw [withReturns_break, splitOn_cons_self, splitOn_cons_of_ne (by decide), splitOn_cons_self]
      exact .cons ⟨List.not_mem_nil, Or.inr rfl⟩ ih
    · rw [withReturns_cons hc, splitOn_cons_of_ne hc, splitOn_cons_of_ne hc]
      exact ih.modifyHead_cons hc

theorem stripWhere_concat {p : CodePoint → Bool} (h : p sign) (t : Text) :
    stripWhere p (t ++ [sign]) = stripWhere p t := by
  rw [stripWhere, stripWhere, List.dropWhile_append]
  split
  · rename_i hEmpty
    rw [List.isEmpty_iff.mp hEmpty, List.dropWhile_cons_of_pos h]
    rfl
  · rw [List.reverse_append, List.reverse_singleton, List.singleton_append,
      List.dropWhile_cons_of_pos h]

end Text

/-- White space behind a list of names makes no difference. -/
theorem splitNames_concat {c : CodePoint} (h : c.isBlank) (t : Text) :
    splitNames (t ++ [c]) = splitNames t := by
  have hComma : c ≠ ',' := by
    rintro rfl
    exact absurd h (by decide)
  have hStrip := (endAlike_splitOn_concat hComma t).map_eq fun s _ => stripWhere_concat h s
  exact congrArg (List.filter fun name => !name.isEmpty) hStrip

/-- What makes no difference between a line and the line with a carriage return behind it makes none
between the lines of the two texts. -/
theorem map_sourceLines_withReturns {α : Type} {f : Text → α}
    (hf : ∀ s, CodePoint.ofChar '\n' ∉ s → f (s ++ [CodePoint.ofChar '\r']) = f s) (t : Text) :
    (sourceLines (withReturns t)).map f = (sourceLines t).map f :=
  (endAlike_sourceLines_withReturns t).map_eq hf

theorem lastGroupEntry?_withReturns (body : Text) :
    lastGroupEntry? (withReturns body) = lastGroupEntry? body := by
  unfold lastGroupEntry?
  have hEntry := map_sourceLines_withReturns (f := groupEntry) (fun s _ =>
    congrArg (Text.stripWhere fun c => c = '"') (stripWhere_concat (by decide) s)) body
  rw [← sourceLines, hEntry]
  rfl

end DependencyMap
