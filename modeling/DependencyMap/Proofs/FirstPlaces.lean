import Mathlib.Data.List.FinRange
import Mathlib.Data.List.Basic

/-!
# First places

`firstsBy key` keeps of a list the elements before which none with the same key stands. It is said
by places alone. Removing repetitions in one pass, with the keys that were seen before, comes to the
same (`firstsAfter_cons`), and so does the library's function (`eraseDups_eq_firstsBy`).
In a list that is in order, what is kept comes before everything with its key
(`rel_of_mem_firstsBy`).
-/

namespace DependencyMap

variable {α β : Type} [DecidableEq β]

/-- The elements before which none with the same key stands. -/
def firstsBy (key : α → β) (l : List α) : List α :=
  ((List.finRange l.length).filter fun i => ∀ j < i, key l[j] ≠ key l[i]).map l.get

/-- The same without the elements whose keys were seen before. -/
def firstsAfter (seen : List β) (key : α → β) (l : List α) : List α :=
  ((List.finRange l.length).filter fun i =>
    key l[i] ∉ seen ∧ ∀ j < i, key l[j] ≠ key l[i]).map l.get

variable {key : α → β} {seen : List β} {a b : α} {l : List α}

theorem firstsBy_eq_firstsAfter (key : α → β) (l : List α) :
    firstsBy key l = firstsAfter [] key l := by
  simp [firstsBy, firstsAfter]

/-! ### One element after the other -/

omit [DecidableEq β] in
/-- A place behind the first element is a first place if it is one among the places behind and the
first element has another key. -/
theorem isFirst_succ (i : Fin l.length) :
    (∀ j < i.succ, key (a :: l)[j] ≠ key (a :: l)[i.succ]) ↔
      key l[i] ≠ key a ∧ ∀ j < i, key l[j] ≠ key l[i] := by
  constructor
  · intro h
    exact ⟨(h 0 i.succ_pos).symm, fun j hj => h j.succ (Fin.succ_lt_succ_iff.mpr hj)⟩
  · rintro ⟨hFirst, hOthers⟩ j hj
    cases j using Fin.cases with
    | zero => exact hFirst.symm
    | succ j => exact hOthers j (Fin.succ_lt_succ_iff.mp hj)

theorem firstsAfter_congr {seen' : List β} (h : ∀ k, k ∈ seen ↔ k ∈ seen') (key : α → β)
    (l : List α) : firstsAfter seen key l = firstsAfter seen' key l := by
  simp only [firstsAfter, h]

theorem firstsAfter_cons (seen : List β) (key : α → β) (a : α) (l : List α) :
    firstsAfter seen key (a :: l) =
      if key a ∈ seen then firstsAfter seen key l else a :: firstsAfter (key a :: seen) key l := by
  let isKept (i : Fin (a :: l).length) : Bool :=
    decide (key (a :: l)[i] ∉ seen ∧ ∀ j < i, key (a :: l)[j] ≠ key (a :: l)[i])
  have hHere : isKept 0 = decide (key a ∉ seen) :=
    decide_eq_decide.mpr ⟨And.left, fun h => ⟨h, fun j hj => absurd hj (Fin.not_lt_zero j)⟩⟩
  have hBehind : isKept ∘ Fin.succ = fun i : Fin l.length =>
      decide (key l[i] ∉ key a :: seen ∧ ∀ j < i, key l[j] ≠ key l[i]) := by
    funext i
    refine decide_eq_decide.mpr ((and_congr_right fun _ => isFirst_succ i).trans ?_)
    rw [List.mem_cons, not_or, and_assoc, and_left_comm]
    rfl
  have hTail : (((List.finRange l.length).map Fin.succ).filter isKept).map (a :: l).get =
      firstsAfter (key a :: seen) key l := by
    rw [List.filter_map, hBehind, List.map_map]
    rfl
  show ((List.finRange (l.length + 1)).filter isKept).map (a :: l).get = _
  rw [List.finRange_succ, List.filter_cons, hHere]
  by_cases h : key a ∈ seen
  · rw [if_pos h, if_neg (by simpa using h), hTail]
    refine firstsAfter_congr (fun k => List.mem_cons.trans (or_iff_right_of_imp ?_)) key l
    rintro rfl
    exact h
  · rw [if_neg h, if_pos (by simpa using h), List.map_cons, hTail]
    rfl

/-- The library's function for removing repetitions keeps first places. -/
theorem eraseDups_eq_firstsBy {α : Type} [DecidableEq α] [BEq α] [LawfulBEq α] (l : List α) :
    l.eraseDups = firstsBy id l := by
  have hSeen (seen l : List α) : (l.filter (· ∉ seen)).eraseDups = firstsAfter seen id l := by
    induction l generalizing seen with
    | nil => rfl
    | cons a l ih =>
      rw [firstsAfter_cons, id_eq, List.filter_cons]
      by_cases h : a ∈ seen
      · rw [if_neg (by simpa using h), if_pos h, ih]
      · have hFilter : (l.filter (· ∉ seen)).filter (fun b => !b == a) =
            l.filter (· ∉ a :: seen) := by
          rw [List.filter_filter]
          refine List.filter_congr fun b _ => ?_
          simp [Bool.beq_eq_decide_eq]
        rw [if_pos (by simpa using h), if_neg h, List.eraseDups_cons, hFilter, ih]
  rw [firstsBy_eq_firstsAfter, ← hSeen, List.filter_eq_self.mpr (by simp)]

/-! ### What is kept -/

theorem mem_firstsBy {a : α} :
    a ∈ firstsBy key l ↔ ∃ i : Fin l.length, l[i] = a ∧ ∀ j < i, key l[j] ≠ key a := by
  simp only [firstsBy, List.mem_map, List.mem_filter, List.mem_finRange, true_and,
    decide_eq_true_eq]
  constructor
  · rintro ⟨i, hFirst, rfl⟩
    exact ⟨i, rfl, hFirst⟩
  · rintro ⟨i, rfl, hFirst⟩
    exact ⟨i, hFirst, rfl⟩

theorem mem_of_mem_firstsBy (h : a ∈ firstsBy key l) : a ∈ l := by
  obtain ⟨i, rfl, -⟩ := mem_firstsBy.mp h
  exact List.getElem_mem i.isLt

/-- No two elements with one key are kept. -/
theorem nodup_map_firstsBy (key : α → β) (l : List α) : ((firstsBy key l).map key).Nodup := by
  rw [firstsBy, List.map_map]
  refine List.Nodup.map_on ?_ ((List.nodup_finRange l.length).filter _)
  intro i hi j hj hKey
  rw [List.mem_filter, decide_eq_true_eq] at hi hj
  rcases lt_trichotomy i j with hLt | hEq | hGt
  · exact absurd hKey (hj.2 i hLt)
  · exact hEq
  · exact absurd hKey.symm (hi.2 j hGt)

theorem nodup_eraseDups {α : Type} [DecidableEq α] [BEq α] [LawfulBEq α] (l : List α) :
    l.eraseDups.Nodup := by
  have hKeys := nodup_map_firstsBy id l
  rwa [List.map_id, ← eraseDups_eq_firstsBy] at hKeys

/-- In a list that is in order, what is kept comes before everything else with its key. -/
theorem rel_of_mem_firstsBy {r : α → α → Prop} (hOrder : l.Pairwise r) (hRefl : ∀ a, r a a)
    (ha : a ∈ firstsBy key l) (hb : b ∈ l) (hKey : key b = key a) : r a b := by
  obtain ⟨i, rfl, hFirst⟩ := mem_firstsBy.mp ha
  obtain ⟨j, hj, rfl⟩ := List.mem_iff_getElem.mp hb
  rcases Nat.lt_trichotomy i j with hLt | hEq | hGt
  · exact List.pairwise_iff_getElem.mp hOrder i j i.isLt hj hLt
  · subst hEq
    exact hRefl _
  · exact absurd hKey (hFirst ⟨j, hj⟩ hGt)

end DependencyMap
