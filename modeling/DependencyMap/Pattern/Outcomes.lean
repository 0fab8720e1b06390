import DependencyMap.Pattern.Basic

/-!
# The outcomes of a pattern

`Pattern.outcomes` lists every outcome of reading a pattern, in the order in which they are tried.
The main statement is `run_eq_findSome?`: running a pattern takes the first of them that the
continuation accepts, so `read?` is the head of the list.
-/

namespace DependencyMap

namespace Pattern

/-- The outcomes of a run of code points, from the longest to the empty one. -/
def runOutcomes (p : CodePoint → Bool) (base : Nat) (kept : List Kept) : Text → List Reading
  | [] => [⟨base, [], kept⟩]
  | c :: rest =>
    if p c then runOutcomes p (base + 1) kept rest ++ [⟨base, c :: rest, kept⟩]
    else [⟨base, c :: rest, kept⟩]

/-- Every outcome, in the order in which they are tried. -/
def outcomes : Pattern → Reading → List Reading
  | .nothing, r => [r]
  | .text t, r =>
    if t.isPrefixOf r.rest then [⟨r.taken + t.length, r.rest.drop t.length, r.kept⟩] else []
  | .one p, r =>
    match r.rest with
    | [] => []
    | c :: rest => if p c then [⟨r.taken + 1, rest, r.kept⟩] else []
  | .many p, r => runOutcomes p r.taken r.kept r.rest
  | .seq first second, r => (first.outcomes r).flatMap second.outcomes
  | .choice first second, r => first.outcomes r ++ second.outcomes r
  | .keep slot part, r =>
    (part.outcomes r).map fun r' =>
      { r' with kept := ⟨slot, r.rest, r'.taken - r.taken⟩ :: r'.kept }

theorem gather_eq_append (p : CodePoint → Bool) (taken t : Text) :
    gather p taken t = ((gather p [] t).1 ++ taken, (gather p [] t).2) := by
  induction t generalizing taken with
  | nil => simp [gather]
  | cons c t ih =>
    by_cases h : p c
    · simp only [gather, if_pos h]
      rw [ih (c :: taken), ih [c]]
      simp
    · simp [gather, h]

theorem gather_reverse_append (p : CodePoint → Bool) (t : Text) :
    (gather p [] t).1.reverse ++ (gather p [] t).2 = t := by
  induction t with
  | nil => rfl
  | cons c t ih =>
    by_cases h : p c
    · simp only [gather, if_pos h]
      rw [gather_eq_append p [c] t]
      simpa using ih
    · simp [gather, h]

theorem retreat_append_singleton {α : Type} (next : Reading → Option α) (kept : List Kept)
    (base : Nat) (taken : Text) (c : CodePoint) (rest : Text) :
    retreat kept next (base + (taken ++ [c]).length) (taken ++ [c]) rest =
      (retreat kept next (base + 1 + taken.length) taken rest).or
        (next ⟨base, c :: (taken.reverse ++ rest), kept⟩) := by
  induction taken generalizing rest with
  | nil =>
    simp only [List.nil_append, retreat, List.length_singleton, List.length_nil, Nat.add_zero,
      Nat.add_sub_cancel, List.reverse_nil]
    cases next ⟨base + 1, rest, kept⟩ <;> simp
  | cons d taken ih =>
    have shorter : base + (d :: taken ++ [c]).length - 1 = base + (taken ++ [c]).length := by
      simp only [List.cons_append, List.length_cons]
      omega
    have same : base + (d :: taken ++ [c]).length = base + 1 + (d :: taken).length := by
      simp only [List.cons_append, List.length_cons, List.length_append, List.length_nil]
      omega
    have back : base + 1 + (d :: taken).length - 1 = base + 1 + taken.length := by
      simp only [List.length_cons]
      omega
    rw [List.cons_append, retreat, ← List.cons_append, shorter, ih, same, retreat, back]
    cases next ⟨base + 1 + (d :: taken).length, rest, kept⟩ <;> simp

theorem retreat_gather {α : Type} (p : CodePoint → Bool) (next : Reading → Option α)
    (kept : List Kept) (base : Nat) (t : Text) :
    retreat kept next (base + (gather p [] t).1.length) (gather p [] t).1 (gather p [] t).2 =
      (runOutcomes p base kept t).findSome? next := by
  induction t generalizing base with
  | nil => simp [gather, retreat, runOutcomes]
  | cons c t ih =>
    by_cases h : p c
    · simp only [gather, runOutcomes, if_pos h]
      rw [gather_eq_append p [c] t]
      simp only
      rw [retreat_append_singleton, gather_reverse_append, ih, List.findSome?_append]
      simp
    · simp [gather, retreat, runOutcomes, h]

theorem findSome?_flatMap_eq {α β γ : Type} (next : β → Option γ) (f : α → List β) (l : List α) :
    (l.flatMap f).findSome? next = l.findSome? fun a => (f a).findSome? next := by
  induction l with
  | nil => rfl
  | cons a l ih =>
    rw [List.flatMap_cons, List.findSome?_append, List.findSome?_cons, ih]
    cases (f a).findSome? next <;> rfl

/-- Running a pattern takes the first outcome that the continuation accepts. -/
theorem run_eq_findSome? {α : Type} (p : Pattern) (r : Reading) (next : Reading → Option α) :
    p.run r next = (p.outcomes r).findSome? next := by
  induction p generalizing r next with
  | nothing => simp [run, outcomes]
  | text t =>
    simp only [run, outcomes]
    split <;> simp
  | one p =>
    obtain ⟨taken, rest, kept⟩ := r
    cases rest with
    | nil => rfl
    | cons c rest =>
      simp only [run, outcomes]
      by_cases h : p c <;> simp [h]
  | many p => exact retreat_gather p next r.kept r.taken r.rest
  | seq first second ih₁ ih₂ =>
    simp only [run, outcomes, ih₁, ih₂]
    exact (findSome?_flatMap_eq next second.outcomes (first.outcomes r)).symm
  | choice first second ih₁ ih₂ =>
    simp only [run, outcomes, ih₁, ih₂, List.findSome?_append]
    cases (first.outcomes r).findSome? next <;> simp
  | keep slot part ih =>
    simp only [run, outcomes, ih, List.findSome?_map]
    rfl

theorem read?_eq_head? (p : Pattern) (t : Text) : p.read? t = (p.outcomes (.start t)).head? := by
  rw [read?, run_eq_findSome?]
  cases p.outcomes (.start t) <;> simp

end Pattern

end DependencyMap
