import DependencyMap.Proofs.Pattern.Matching
import DependencyMap.Proofs.Pattern.Taking

/-!
# The signs at which a pattern begins and ends

`nullable`, `mayBegin` and `mayEnd` are computed from a pattern: whether it can take nothing, and
with which signs a text that it takes may begin and end. What a pattern takes obeys them
(`nullable_of_takes`, `mayBegin_of_takes`, `mayEnd_of_takes`). So a pattern cannot be read where the
text goes on with another sign (`run_eq_none_of_stops`), and a sign with which it cannot end may be
put behind a text without a difference (`read?_concat_of_mayEnd`).
-/

namespace DependencyMap

namespace Pattern

def nullable : Pattern → Bool
  | .nothing => true
  | .text t => t.isEmpty
  | .one _ => false
  | .many _ => true
  | .seq first second => first.nullable && second.nullable
  | .choice first second => first.nullable || second.nullable
  | .keep _ part => part.nullable

def mayBegin : Pattern → CodePoint → Bool
  | .nothing, _ => false
  | .text t, c => t.head? = some c
  | .one p, c => p c
  | .many p, c => p c
  | .seq first second, c => first.mayBegin c || first.nullable && second.mayBegin c
  | .choice first second, c => first.mayBegin c || second.mayBegin c
  | .keep _ part, c => part.mayBegin c

def mayEnd : Pattern → CodePoint → Bool
  | .nothing, _ => false
  | .text t, c => t.getLast? = some c
  | .one p, c => p c
  | .many p, c => p c
  | .seq first second, c => second.mayEnd c || second.nullable && first.mayEnd c
  | .choice first second, c => first.mayEnd c || second.mayEnd c
  | .keep _ part, c => part.mayEnd c

variable {p : Pattern} {t w : Text} {c : CodePoint} {ks : List (Slot × Text)}

theorem nullable_of_takes (h : p.Takes [] ks) : p.nullable := by
  induction p generalizing ks with
  | nothing => rfl
  | text t =>
    obtain ⟨rfl, -⟩ := h
    rfl
  | one p =>
    obtain ⟨⟨c, -, hc⟩, -⟩ := h
    cases hc
  | many p => rfl
  | seq first second ih₁ ih₂ =>
    obtain ⟨u, ks₁, v, ks₂, hu, hv, hNil, -⟩ := h
    obtain ⟨rfl, rfl⟩ := List.append_eq_nil_iff.mp hNil.symm
    rw [nullable, ih₁ hu, ih₂ hv]
    rfl
  | choice first second ih₁ ih₂ =>
    rw [nullable, Bool.or_eq_true]
    exact h.imp ih₁ ih₂
  | keep slot part ih =>
    obtain ⟨ks', hTakes, -⟩ := h
    exact ih hTakes

theorem mayBegin_of_takes (h : p.Takes (c :: w) ks) : p.mayBegin c := by
  induction p generalizing c w ks with
  | nothing =>
    obtain ⟨hNil, -⟩ := h
    cases hNil
  | text t =>
    obtain ⟨rfl, -⟩ := h
    exact decide_eq_true rfl
  | one p =>
    obtain ⟨⟨d, hd, hEq⟩, -⟩ := h
    obtain ⟨rfl, -⟩ := List.cons_eq_cons.mp hEq
    exact hd
  | many p =>
    obtain ⟨hw, -⟩ := h
    exact hw c List.mem_cons_self
  | seq first second ih₁ ih₂ =>
    obtain ⟨u, ks₁, v, ks₂, hu, hv, hEq, -⟩ := h
    rw [mayBegin, Bool.or_eq_true, Bool.and_eq_true]
    cases u with
    | nil =>
      obtain rfl : c :: w = v := hEq
      exact Or.inr ⟨nullable_of_takes hu, ih₂ hv⟩
    | cons d u =>
      obtain ⟨rfl, -⟩ := List.cons_eq_cons.mp hEq
      exact Or.inl (ih₁ hu)
  | choice first second ih₁ ih₂ =>
    rw [mayBegin, Bool.or_eq_true]
    exact h.imp ih₁ ih₂
  | keep slot part ih =>
    obtain ⟨ks', hTakes, -⟩ := h
    exact ih hTakes

theorem mayEnd_of_takes (h : p.Takes (w ++ [c]) ks) : p.mayEnd c := by
  induction p generalizing c w ks with
  | nothing =>
    obtain ⟨hNil, -⟩ := h
    exact absurd hNil (by simp)
  | text t =>
    obtain ⟨rfl, -⟩ := h
    exact decide_eq_true List.getLast?_concat
  | one p =>
    obtain ⟨⟨d, hd, hEq⟩, -⟩ := h
    obtain ⟨-, hSame⟩ := List.append_inj' (hEq.trans (List.nil_append [d]).symm) rfl
    obtain ⟨rfl, -⟩ := List.cons_eq_cons.mp hSame
    exact hd
  | many p =>
    obtain ⟨hw, -⟩ := h
    exact hw c (List.mem_append_right _ List.mem_cons_self)
  | seq first second ih₁ ih₂ =>
    obtain ⟨u, ks₁, v, ks₂, hu, hv, hEq, -⟩ := h
    rw [mayEnd, Bool.or_eq_true, Bool.and_eq_true]
    rcases List.eq_nil_or_concat' v with rfl | ⟨v, d, rfl⟩
    · rw [List.append_nil] at hEq
      exact Or.inr ⟨nullable_of_takes hv, ih₁ (hEq ▸ hu)⟩
    · rw [← List.append_assoc] at hEq
      obtain ⟨-, hSame⟩ := List.append_inj' hEq rfl
      obtain ⟨rfl, -⟩ := List.cons_eq_cons.mp hSame
      exact Or.inl (ih₂ hv)
  | choice first second ih₁ ih₂ =>
    rw [mayEnd, Bool.or_eq_true]
    exact h.imp ih₁ ih₂
  | keep slot part ih =>
    obtain ⟨ks', hTakes, -⟩ := h
    exact ih hTakes

/-! ### What follows for reading -/

theorem outcomes_eq_nil_of_stops {r : Reading} (hNullable : p.nullable = false)
    (hStop : Stops p.mayBegin r.rest) : p.outcomes r = [] := by
  apply List.eq_nil_iff_forall_not_mem.mpr
  intro r' hr'
  obtain ⟨w, ks, hTakes, hRest, -⟩ := takes_of_mem_outcomes hr'
  cases w with
  | nil =>
    rw [nullable_of_takes hTakes] at hNullable
    cases hNullable
  | cons c w =>
    rw [hRest, List.cons_append, stops_cons, mayBegin_of_takes hTakes] at hStop
    cases hStop

/-- A pattern that has to take something is not read where the text goes on with a sign with which
it cannot begin. -/
theorem run_eq_none_of_stops {α : Type} {r : Reading} {next : Reading → Option α}
    (hNullable : p.nullable = false) (hStop : Stops p.mayBegin r.rest) : p.run r next = none := by
  rw [run_eq_findSome?, outcomes_eq_nil_of_stops hNullable hStop]
  rfl

/-- A pattern does not read a sign at the end of a text with which it cannot end. -/
theorem outcomes_concat_of_mayEnd (hEnd : p.mayEnd c = false) (t : Text) :
    p.outcomes (.start (t ++ [c])) = (p.outcomes (.start t)).map (Reading.extend [c]) := by
  rw [← filter_outcomes_extend, Reading.extend_start]
  apply Eq.symm
  rw [List.filter_eq_self]
  intro r hr
  obtain ⟨w, ks, hTakes, hRest, -⟩ := takes_of_mem_outcomes hr
  rw [leaves, decide_eq_true_eq, List.length_singleton]
  apply List.length_pos_of_ne_nil
  intro hNil
  -- a reading that leaves nothing would end with the sign
  rw [hNil, List.append_nil] at hRest
  obtain rfl : t ++ [c] = w := hRest
  rw [mayEnd_of_takes hTakes] at hEnd
  cases hEnd

theorem read?_concat_of_mayEnd (hEnd : p.mayEnd c = false) (t : Text) :
    p.read? (t ++ [c]) = (p.read? t).map (Reading.extend [c]) := by
  rw [read?_eq_head?, read?_eq_head?, outcomes_concat_of_mayEnd hEnd, List.head?_map]

end Pattern

namespace Rule

/-- A sign behind a text with which no match can end makes no difference to a scan. -/
theorem scan_concat {rule : Rule} {c : CodePoint} (hNullable : rule.body.nullable = false)
    (hEnd : rule.body.mayEnd c = false) (skip : Nat) (atLineStart : Bool) (offset : Nat)
    (t : Text) (hSkip : skip ≤ t.length) :
    rule.scan skip atLineStart offset (t ++ [c]) =
      (rule.scan skip atLineStart offset t).map (Match.extend [c]) := by
  have hRead (atLineStart : Bool) (t : Text) : rule.readAt? atLineStart (t ++ [c]) =
      (rule.readAt? atLineStart t).map (Reading.extend [c]) := by
    rw [readAt?, readAt?, Pattern.read?_concat_of_mayEnd hEnd]
    split <;> rfl
  induction t generalizing skip atLineStart offset with
  | nil =>
    obtain rfl : skip = 0 := Nat.le_zero.mp hSkip
    have hNone : rule.body.read? [] = none := by
      rw [Pattern.read?_eq_head?, Pattern.outcomes_eq_nil_of_stops hNullable (Pattern.stops_nil _)]
      rfl
    have hHere : rule.readAt? atLineStart [c] = none := by
      rw [← List.nil_append [c], hRead, readAt?, hNone, ite_self]
      rfl
    simp only [List.nil_append, scan, hHere, List.map_nil]
  | cons d t ih =>
    rw [List.cons_append]
    cases skip with
    | succ skip => exact ih skip _ _ (Nat.le_of_succ_le_succ hSkip)
    | zero =>
      have hHere := hRead atLineStart (d :: t)
      rw [List.cons_append] at hHere
      rw [scan, scan, hHere]
      cases hShort : rule.readAt? atLineStart (d :: t) with
      | none => exact ih 0 _ _ (Nat.zero_le _)
      | some r =>
        have hLength := Pattern.length_of_mem_outcomes
          (List.mem_of_head? ((Pattern.read?_eq_head? _ _).symm.trans (read?_of_readAt? hShort)))
        have hTaken : r.taken - 1 ≤ t.length := by
          simp only [Reading.start, List.length_cons] at hLength
          omega
        simp only [Option.map_some, List.map_cons]
        rw [← ih (r.taken - 1) _ _ hTaken]
        rfl

theorem matchesIn_concat {rule : Rule} {c : CodePoint} (hNullable : rule.body.nullable = false)
    (hEnd : rule.body.mayEnd c = false) (t : Text) :
    rule.matchesIn (t ++ [c]) = (rule.matchesIn t).map (Match.extend [c]) :=
  scan_concat hNullable hEnd 0 true 0 t (Nat.zero_le _)

end Rule

end DependencyMap
