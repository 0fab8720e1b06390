import DependencyMap.Graph.Node
import Mathlib.Data.List.Nodup

/-!
# Ranking

`rankBy` loses nothing and adds nothing (`perm_rankBy`). What it puts in order may agree in
importance and path, and then keeps the order it had. Where no two paths agree, this cannot happen:
the order is strict (`pairwise_rankBy_of_nodup`), and so the ranking is the same in whatever order
things were found (`rankBy_eq_of_perm`).
-/

namespace DependencyMap

variable {α : Type} {importance : α → Int} {path : α → Text} {a b : α} {l l' : List α}

/-- Of two nodes the one of greater importance ranks first, and of two of equal importance the one
whose path comes first. -/
def RanksBefore (importance : α → Int) (path : α → Text) (a b : α) : Prop :=
  importance b < importance a ∨ importance a = importance b ∧ path a < path b

theorem RanksBefore.asymm (h : RanksBefore importance path a b) :
    ¬ RanksBefore importance path b a := by
  rintro (hLess | ⟨hEq, hPath⟩)
  · rcases h with hMore | ⟨hEq, -⟩ <;> omega
  · rcases h with hMore | ⟨-, hPath'⟩
    · omega
    · exact List.lt_asymm hPath hPath'

variable (importance path l)

theorem perm_rankBy : (rankBy importance path l).Perm l := List.mergeSort_perm ..

@[simp] theorem mem_rankBy : a ∈ rankBy importance path l ↔ a ∈ l :=
  (perm_rankBy importance path l).mem_iff

@[simp] theorem length_rankBy : (rankBy importance path l).length = l.length :=
  (perm_rankBy importance path l).length_eq

theorem pairwise_rankBy :
    (rankBy importance path l).Pairwise fun a b =>
      importance b < importance a ∨ importance a = importance b ∧ path a ≤ path b := by
  have hSorted : (rankBy importance path l).Pairwise fun a b =>
      (importance a > importance b ||
        (importance a = importance b && decide (path a ≤ path b))) = true := by
    refine List.pairwise_mergeSort ?trans ?total l
    case trans =>
      intro a b c hab hbc
      simp only [Bool.or_eq_true, Bool.and_eq_true, decide_eq_true_eq] at hab hbc ⊢
      rcases hab with hab | ⟨hab, hPath⟩ <;> rcases hbc with hbc | ⟨hbc, hPath'⟩
      · exact Or.inl (by omega)
      · exact Or.inl (by omega)
      · exact Or.inl (by omega)
      · exact Or.inr ⟨hab.trans hbc, List.le_trans hPath hPath'⟩
    case total =>
      intro a b
      simp only [Bool.or_eq_true, Bool.and_eq_true, decide_eq_true_eq]
      rcases Int.lt_trichotomy (importance a) (importance b) with h | h | h
      · exact Or.inr (Or.inl h)
      · rcases List.le_total (path a) (path b) with hPath | hPath
        · exact Or.inl (Or.inr ⟨h, hPath⟩)
        · exact Or.inr (Or.inr ⟨h.symm, hPath⟩)
      · exact Or.inl (Or.inl h)
  refine hSorted.imp ?_
  intro a b h
  simpa using h

variable {importance path l}

/-- The ranking of what has distinct paths is strict. -/
theorem pairwise_rankBy_of_nodup (h : (l.map path).Nodup) :
    (rankBy importance path l).Pairwise (RanksBefore importance path) := by
  have hDistinct : (rankBy importance path l).Pairwise fun a b => path a ≠ path b :=
    List.pairwise_map.mp (((perm_rankBy importance path l).map path).nodup_iff.mpr h)
  refine ((pairwise_rankBy importance path l).and hDistinct).imp ?_
  rintro a b ⟨hMore | ⟨hEq, hPath⟩, hne⟩
  · exact Or.inl hMore
  · refine Or.inr ⟨hEq, List.not_le.mp fun hPath' => hne ?_⟩
    exact List.le_antisymm hPath hPath'

/-- The ranking of what has distinct paths does not depend on the order before. -/
theorem rankBy_eq_of_perm (h : l.Perm l') (hn : (l.map path).Nodup) :
    rankBy importance path l = rankBy importance path l' := by
  have hn' : (l'.map path).Nodup := (h.map path).nodup_iff.mp hn
  refine List.Perm.eq_of_pairwise ?_ (pairwise_rankBy_of_nodup hn) (pairwise_rankBy_of_nodup hn') ?_
  · -- in a strict order no two stand either way
    intro a b _ _ hab hba
    exact absurd hba hab.asymm
  · exact (perm_rankBy ..).trans (h.trans (perm_rankBy ..).symm)

end DependencyMap
