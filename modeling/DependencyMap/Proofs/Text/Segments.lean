import DependencyMap.Text.Basic
import Mathlib.Data.List.Basic

/-!
# The segments of a path

A path is cut at its slashes, so what stands behind the last slash can be made longer or shorter
without a slash and the directories stay (`directories_append`). `under` puts a text below
directories, which is a slash between each two and none where there is no directory.
-/

namespace DependencyMap

namespace Text

variable {s t e : Text}

abbrev slash : CodePoint := CodePoint.ofChar '/'

def directories (t : Text) : List Text := t.segments.dropLast

/-- A path without an empty segment. -/
def IsProper (t : Text) : Prop := ∀ piece ∈ t.segments, piece ≠ []

instance (t : Text) : Decidable t.IsProper := inferInstanceAs (Decidable (∀ _ ∈ _, _))

theorem beforeLastSlash_eq (t : Text) : t.beforeLastSlash = ofSegments t.directories := rfl

theorem splitOn_cons_of_ne {c sign : CodePoint} (hc : c ≠ sign) (t : Text) :
    (c :: t).splitOn sign = (t.splitOn sign).modifyHead (c :: ·) := by
  rw [List.splitOn_cons_eq_if_modifyHead, if_neg (by simpa using hc)]

theorem splitOn_cons_self (sign : CodePoint) (t : Text) :
    (sign :: t).splitOn sign = [] :: t.splitOn sign := by
  rw [List.splitOn_cons_eq_if_modifyHead, if_pos (beq_self_eq_true sign)]

theorem notMem_of_mem_splitOn {t piece : Text} {sign : CodePoint} (h : piece ∈ t.splitOn sign) :
    sign ∉ piece := by
  induction t generalizing piece with
  | nil =>
    obtain rfl := List.mem_singleton.mp h
    exact List.not_mem_nil
  | cons c t ih =>
    by_cases hc : c = sign
    · subst hc
      rw [splitOn_cons_self] at h
      rcases List.mem_cons.mp h with rfl | h
      · exact List.not_mem_nil
      · exact ih h
    · rw [splitOn_cons_of_ne hc] at h
      cases hPieces : t.splitOn sign with
      | nil => exact absurd hPieces (List.splitOn_ne_nil _ _)
      | cons first others =>
        rw [hPieces] at h ih
        rcases List.mem_cons.mp h with rfl | h
        · intro hMem
          rcases List.mem_cons.mp hMem with hEq | hMem
          · exact hc hEq.symm
          · exact ih List.mem_cons_self hMem
        · exact ih (List.mem_cons_of_mem _ h)

theorem infix_of_mem_intercalate {piece mark : Text} {pieces : List Text} (h : piece ∈ pieces) :
    piece <:+: mark.intercalate pieces := by
  induction pieces with
  | nil => cases h
  | cons first others ih =>
    cases others with
    | nil =>
      obtain rfl := List.mem_singleton.mp h
      exact List.intercalate_singleton.symm ▸ List.infix_rfl
    | cons second others =>
      rw [List.intercalate_cons_cons, List.append_assoc]
      rcases List.mem_cons.mp h with rfl | h
      · exact (List.prefix_append _ _).isInfix
      · exact (ih h).trans ((List.suffix_append _ _).trans (List.suffix_append _ _)).isInfix

/-- The pieces between the occurrences of a sign are parts of the text. -/
theorem infix_of_mem_splitOn {t piece : Text} {sign : CodePoint} (h : piece ∈ t.splitOn sign) :
    piece <:+: t := by
  have hInfix : piece <:+: [sign].intercalate (t.splitOn sign) := infix_of_mem_intercalate h
  rwa [List.intercalate_splitOn] at hInfix

theorem segments_ne_nil (t : Text) : t.segments ≠ [] := List.splitOn_ne_nil _ _

theorem segments_slash_cons (t : Text) : segments (slash :: t) = [] :: t.segments :=
  splitOn_cons_self slash t

theorem segments_cons_of_ne {c : CodePoint} (h : c ≠ slash) (t : Text) :
    segments (c :: t) = t.segments.modifyHead (c :: ·) := splitOn_cons_of_ne h t

theorem segments_of_notMem (h : slash ∉ t) : t.segments = [t] := List.splitOn_eq_singleton h

theorem slash_notMem_of_mem_segments {piece : Text} (h : piece ∈ t.segments) : slash ∉ piece :=
  notMem_of_mem_splitOn h

theorem directories_slash_cons (t : Text) : directories (slash :: t) = [] :: t.directories := by
  rw [directories, segments_slash_cons, List.dropLast_cons_of_ne_nil t.segments_ne_nil, directories]

theorem directories_cons_of_ne {c : CodePoint} (h : c ≠ slash) (t : Text) :
    directories (c :: t) = t.directories.modifyHead (c :: ·) := by
  rw [directories, segments_cons_of_ne h, directories]
  cases t.segments with
  | nil => rfl
  | cons first others => cases others <;> rfl

/-- An ending without a slash changes no directory. -/
theorem directories_append (h : slash ∉ e) : directories (t ++ e) = t.directories := by
  induction t with
  | nil => rw [List.nil_append, directories, segments_of_notMem h]; rfl
  | cons c t ih =>
    rw [List.cons_append]
    by_cases hc : c = slash
    · subst hc
      rw [directories_slash_cons, directories_slash_cons, ih]
    · rw [directories_cons_of_ne hc, directories_cons_of_ne hc, ih]

/-- An ending without a slash is an ending of the part behind a slash. -/
theorem suffix_of_suffix_append_slash (he : slash ∉ e) (h : e <:+ s ++ slash :: t) : e <:+ t := by
  obtain ⟨before, hBefore⟩ := h
  rcases List.append_eq_append_iff.mp hBefore with ⟨more, -, rfl⟩ | ⟨more, -, hTail⟩
  · exact absurd (List.mem_append_right _ List.mem_cons_self) he
  · cases more with
    | nil =>
      rw [List.nil_append] at hTail
      exact absurd (hTail ▸ List.mem_cons_self) he
    | cons d more =>
      obtain ⟨-, rfl⟩ := List.cons_eq_cons.mp (hTail.trans List.cons_append)
      exact List.suffix_append more e

/-! ### Below directories -/

def under (names : List Text) (t : Text) : Text := ofSegments (names ++ [t])

theorem under_nil (t : Text) : under [] t = t := by
  rw [under, List.nil_append, ofSegments, List.intercalate_singleton]

theorem under_cons (name : Text) (names : List Text) (t : Text) :
    under (name :: names) t = name ++ slash :: under names t := by
  rw [under, ofSegments, List.cons_append, List.intercalate_cons_of_ne_nil (by simp),
    List.append_assoc, List.singleton_append]
  rfl

theorem under_of_ne_nil {names : List Text} (h : names ≠ []) (t : Text) :
    under names t = ofSegments names ++ slash :: t := by
  induction names with
  | nil => exact absurd rfl h
  | cons name names ih =>
    rw [under_cons]
    cases names with
    | nil => rw [under_nil, ofSegments, List.intercalate_singleton]
    | cons other names =>
      rw [ih (List.cons_ne_nil other names), ofSegments, ofSegments,
        List.intercalate_cons_of_ne_nil (List.cons_ne_nil other names)]
      simp

theorem under_append (names : List Text) (t e : Text) :
    under names (t ++ e) = under names t ++ e := by
  induction names with
  | nil => rw [under_nil, under_nil]
  | cons name names ih => rw [under_cons, under_cons, ih, List.append_assoc, List.cons_append]

/-- Cutting a path in two at a slash: the first segments, and the rest below them. -/
theorem under_take_drop {n : Nat} (h : n < t.segments.length) :
    under (t.segments.take n) (ofSegments (t.segments.drop n)) = t := by
  conv_rhs => rw [← ofSegments_segments t]
  generalize t.segments = pieces at h
  induction n generalizing pieces with
  | zero => rw [List.take_zero, List.drop_zero, under_nil]
  | succ n ih =>
    cases pieces with
    | nil => cases h
    | cons piece pieces =>
      have hShorter : n < pieces.length := Nat.lt_of_succ_lt_succ h
      have hne : pieces ≠ [] := List.ne_nil_of_length_pos (by omega)
      rw [List.take_succ_cons, List.drop_succ_cons, under_cons, ih pieces hShorter, ofSegments,
        ofSegments, List.intercalate_cons_of_ne_nil hne, List.append_assoc, List.singleton_append]

theorem suffix_of_suffix_under {names : List Text} (he : slash ∉ e) (h : e <:+ under names t) :
    e <:+ t := by
  induction names with
  | nil => rwa [under_nil] at h
  | cons name names ih =>
    rw [under_cons] at h
    exact ih (suffix_of_suffix_append_slash he h)

/-- Segments put together and cut again. -/
theorem segments_ofSegments_of_notMem {pieces : List Text} (hne : pieces ≠ [])
    (h : ∀ piece ∈ pieces, slash ∉ piece) : (ofSegments pieces).segments = pieces :=
  List.splitOn_intercalate slash h hne

end Text

end DependencyMap
