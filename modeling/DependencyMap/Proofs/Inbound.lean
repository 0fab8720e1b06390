import DependencyMap.Graph.Node
import DependencyMap.Proofs.PathMap

/-!
# What the inbound counts count

`inboundCounts` adds up one importing file after the other. `inboundCounts_getD` says what the sum
is: the number of entries that stand at another path and list the path asked for. One importing
file adds one or nothing (`foldl_countOne_importer`), because its list is counted without
repetitions and without the file itself; the rest is an induction over the entries in which the
counts so far are arbitrary.

A sum does not know the order of its summands: `countImporters` goes through importing files in any
order, and counts the same (`countImporters_eq_of_perm`), also where each file lists its paths in
another order or repeats some (`countImporters_eq_of_listsAlike`).
-/

namespace DependencyMap

/-- Without repetitions, what is in a list occurs once. -/
theorem count_eraseDups {α : Type} [BEq α] [LawfulBEq α] (a : α) (l : List α) :
    l.eraseDups.count a = if a ∈ l then 1 else 0 := by
  -- the rest is filtered before it is looked through, so the induction is on the length
  induction hn : l.length using Nat.strongRecOn generalizing l with
  | ind n ih =>
    cases l with
    | nil => simp
    | cons b l =>
      have hShorter : (l.filter fun c => !c == b).length < n := by
        rw [← hn, List.length_cons]
        exact Nat.lt_succ_of_le (List.length_filter_le _ _)
      rw [List.eraseDups_cons, List.count_cons, ih _ hShorter _ rfl]
      by_cases hab : a = b
      · subst hab
        simp
      · have hba : (b == a) = false := beq_eq_false_iff_ne.mpr fun h => hab h.symm
        simp [hab, hba]

theorem getD_countOne (counts : PathMap Nat) (p q : Text) :
    ((countOne counts p).get? q).getD 0 =
      (counts.get? q).getD 0 + if q = p then 1 else 0 := by
  rw [countOne, PathMap.get?_insert]
  by_cases h : q = p
  · rw [if_pos h, if_pos h, h, Option.getD_some]
  · rw [if_neg h, if_neg h, Nat.add_zero]

theorem getD_foldl_countOne (ps : List Text) (counts : PathMap Nat) (q : Text) :
    ((ps.foldl countOne counts).get? q).getD 0 = (counts.get? q).getD 0 + ps.count q := by
  induction ps generalizing counts with
  | nil => rw [List.foldl_nil, List.count_nil, Nat.add_zero]
  | cons p ps ih =>
    rw [List.foldl_cons, ih, getD_countOne, List.count_cons]
    by_cases h : q = p
    · simp [h]
      omega
    · have hpq : ¬ p = q := fun g => h g.symm
      simp [h, hpq]

def countImporter (counts : PathMap Nat) (e : Text × List Text) : PathMap Nat :=
  (e.2.eraseDups.filter fun path => path ≠ e.1).foldl countOne counts

def countImporters (importers : List (Text × List Text)) : PathMap Nat :=
  importers.foldl countImporter .empty

theorem inboundCounts_eq_countImporters (targets : PathMap (List Text)) :
    inboundCounts targets = countImporters targets.entries := rfl

/-- An importing file adds one to the count of each other path that it lists. -/
theorem getD_countImporter (counts : PathMap Nat) (e : Text × List Text) (q : Text) :
    ((countImporter counts e).get? q).getD 0 =
      (counts.get? q).getD 0 + if e.1 ≠ q ∧ q ∈ e.2 then 1 else 0 := by
  rw [countImporter, getD_foldl_countOne]
  congr 1
  by_cases h : q = e.1
  · subst h
    rw [if_neg (by simp), List.count_eq_zero]
    simp
  · have hne : e.1 ≠ q := fun g => h g.symm
    rw [List.count_filter (by simpa using h), count_eraseDups]
    simp [hne]

theorem getD_foldl_countImporter (es : List (Text × List Text)) (counts : PathMap Nat) (q : Text) :
    ((es.foldl countImporter counts).get? q).getD 0 =
      (counts.get? q).getD 0 + es.countP fun e => e.1 ≠ q ∧ q ∈ e.2 := by
  induction es generalizing counts with
  | nil => rw [List.foldl_nil, List.countP_nil, Nat.add_zero]
  | cons e es ih =>
    rw [List.foldl_cons, ih, List.countP_cons, getD_countImporter]
    simp only [decide_eq_true_eq]
    omega

theorem getD_countImporters (es : List (Text × List Text)) (q : Text) :
    ((countImporters es).get? q).getD 0 = es.countP fun e => e.1 ≠ q ∧ q ∈ e.2 := by
  rw [countImporters, getD_foldl_countImporter, PathMap.get?_empty, Option.getD_none, Nat.zero_add]

/-- The inbound count of a path is the number of other files that list it. -/
theorem inboundCounts_getD (targets : PathMap (List Text)) (q : Text) :
    ((inboundCounts targets).get? q).getD 0 =
      targets.entries.countP fun e => e.1 ≠ q ∧ q ∈ e.2 := by
  rw [inboundCounts_eq_countImporters, getD_countImporters]

/-! ### The order of counting -/

theorem foldl_countOne_ne_zero {counts : PathMap Nat} (h : ∀ q, counts.get? q ≠ some 0)
    (ps : List Text) (q : Text) : (ps.foldl countOne counts).get? q ≠ some 0 := by
  induction ps generalizing counts with
  | nil => exact h q
  | cons p ps ih =>
    refine ih fun r => ?_
    rw [countOne, PathMap.get?_insert]
    split
    · simp
    · exact h r

theorem foldl_countImporter_ne_zero {counts : PathMap Nat} (h : ∀ q, counts.get? q ≠ some 0)
    (es : List (Text × List Text)) (q : Text) :
    (es.foldl countImporter counts).get? q ≠ some 0 := by
  induction es generalizing counts with
  | nil => exact h q
  | cons e es ih => exact ih (foldl_countOne_ne_zero h _)

/-- What was not met has no count. -/
theorem countImporters_ne_zero (es : List (Text × List Text)) (q : Text) :
    (countImporters es).get? q ≠ some 0 :=
  foldl_countImporter_ne_zero (fun _ => by simp) es q

/-- Counts are determined by how many files list each path. -/
theorem countImporters_eq_of_countP {es es' : List (Text × List Text)}
    (h : ∀ q, (es.countP fun e => e.1 ≠ q ∧ q ∈ e.2) = es'.countP fun e => e.1 ≠ q ∧ q ∈ e.2) :
    countImporters es = countImporters es' := by
  refine PathMap.ext_get? fun q => ?_
  have hCount := h q
  rw [← getD_countImporters, ← getD_countImporters] at hCount
  have hNe := countImporters_ne_zero es q
  have hNe' := countImporters_ne_zero es' q
  cases hGet : (countImporters es).get? q <;> cases hGet' : (countImporters es').get? q <;>
    simp_all

theorem countImporters_eq_of_perm {es es' : List (Text × List Text)} (h : es.Perm es') :
    countImporters es = countImporters es' :=
  countImporters_eq_of_countP fun _ => h.countP_eq _

theorem inboundCounts_ofList {es : List (Text × List Text)} (h : (es.map (·.1)).Nodup) :
    inboundCounts (.ofList es) = countImporters es :=
  countImporters_eq_of_perm (PathMap.perm_entries_ofList h)

/-- One importing file, which lists the same paths in any order and any number of times. -/
def ListsAlike (e e' : Text × List Text) : Prop := e.1 = e'.1 ∧ ∀ p, p ∈ e.2 ↔ p ∈ e'.2

theorem map_fst_eq_of_listsAlike {es es' : List (Text × List Text)}
    (h : List.Forall₂ ListsAlike es es') : es.map (·.1) = es'.map (·.1) := by
  induction h with
  | nil => rfl
  | cons hHead _ ih => rw [List.map_cons, List.map_cons, hHead.1, ih]

theorem countImporters_eq_of_listsAlike {es es' : List (Text × List Text)}
    (h : List.Forall₂ ListsAlike es es') : countImporters es = countImporters es' := by
  refine countImporters_eq_of_countP fun q => ?_
  induction h with
  | nil => rfl
  | cons hHead _ ih =>
    rw [List.countP_cons, List.countP_cons, ih]
    simp only [hHead.1, hHead.2 q]

end DependencyMap
