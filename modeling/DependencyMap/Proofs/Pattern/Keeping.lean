import DependencyMap.Proofs.Pattern.Matching
import DependencyMap.Proofs.Pattern.Taking

/-!
# What a pattern keeps

Each part that a pattern keeps stands within the text that it takes (`infix_of_takes`), and one of
the patterns inside it takes the part (`exists_keptUnder_of_takes`). `keeps` tells whether something
is kept under a slot however the pattern is read (`exists_mem_of_keeps`). For a match of a rule it
follows where its parts stand in the text and of what signs they are.
-/

namespace DependencyMap

namespace Pattern

/-- The patterns inside whose texts are kept under the slot. -/
def keptUnder (slot : Slot) : Pattern → List Pattern
  | .seq first second => first.keptUnder slot ++ second.keptUnder slot
  | .choice first second => first.keptUnder slot ++ second.keptUnder slot
  | .keep s part => if s = slot then part :: part.keptUnder slot else part.keptUnder slot
  | _ => []

def keeps (slot : Slot) : Pattern → Bool
  | .seq first second => first.keeps slot || second.keeps slot
  | .choice first second => first.keeps slot && second.keeps slot
  | .keep s part => s = slot || part.keeps slot
  | _ => false

variable {p q : Pattern} {t u w : Text} {slot : Slot} {ks : List (Slot × Text)}

theorem infix_of_takes (h : p.Takes w ks) (hPart : (slot, u) ∈ ks) : u <:+: w := by
  induction p generalizing w ks with
  | nothing | text t | one p | many p =>
    obtain ⟨-, rfl⟩ := h
    cases hPart
  | seq first second ih₁ ih₂ =>
    obtain ⟨x, ks₁, y, ks₂, hx, hy, rfl, rfl⟩ := h
    rcases List.mem_append.mp hPart with hPart | hPart
    · exact (ih₂ hy hPart).trans (List.suffix_append x y).isInfix
    · exact (ih₁ hx hPart).trans (List.prefix_append x y).isInfix
  | choice first second ih₁ ih₂ =>
    rcases h with h | h
    · exact ih₁ h hPart
    · exact ih₂ h hPart
  | keep s part ih =>
    obtain ⟨ks', hTakes, rfl⟩ := h
    rcases List.mem_cons.mp hPart with hEq | hPart
    · obtain ⟨rfl, rfl⟩ := Prod.mk.inj hEq
      exact List.infix_rfl
    · exact ih hTakes hPart

/-- A part that is kept is taken by one of the patterns whose texts are kept. -/
theorem exists_keptUnder_of_takes (h : p.Takes w ks) (hPart : (slot, u) ∈ ks) :
    ∃ q ∈ p.keptUnder slot, ∃ ks', q.Takes u ks' := by
  induction p generalizing w ks with
  | nothing | text t | one p | many p =>
    obtain ⟨-, rfl⟩ := h
    cases hPart
  | seq first second ih₁ ih₂ =>
    obtain ⟨x, ks₁, y, ks₂, hx, hy, rfl, rfl⟩ := h
    rcases List.mem_append.mp hPart with hPart | hPart
    · obtain ⟨q, hq, hTakes⟩ := ih₂ hy hPart
      exact ⟨q, List.mem_append_right _ hq, hTakes⟩
    · obtain ⟨q, hq, hTakes⟩ := ih₁ hx hPart
      exact ⟨q, List.mem_append_left _ hq, hTakes⟩
  | choice first second ih₁ ih₂ =>
    rcases h with h | h
    · obtain ⟨q, hq, hTakes⟩ := ih₁ h hPart
      exact ⟨q, List.mem_append_left _ hq, hTakes⟩
    · obtain ⟨q, hq, hTakes⟩ := ih₂ h hPart
      exact ⟨q, List.mem_append_right _ hq, hTakes⟩
  | keep s part ih =>
    obtain ⟨ks', hTakes, rfl⟩ := h
    rw [keptUnder]
    rcases List.mem_cons.mp hPart with hEq | hPart
    · obtain ⟨rfl, rfl⟩ := Prod.mk.inj hEq
      rw [if_pos rfl]
      exact ⟨part, List.mem_cons_self, ks', hTakes⟩
    · obtain ⟨q, hq, hInner⟩ := ih hTakes hPart
      split
      · exact ⟨q, List.mem_cons_of_mem _ hq, hInner⟩
      · exact ⟨q, hq, hInner⟩

theorem exists_mem_of_keeps (hKeeps : p.keeps slot) (h : p.Takes w ks) : ∃ u, (slot, u) ∈ ks := by
  induction p generalizing w ks with
  | nothing | text t | one p | many p => cases hKeeps
  | seq first second ih₁ ih₂ =>
    obtain ⟨x, ks₁, y, ks₂, hx, hy, rfl, rfl⟩ := h
    rw [keeps, Bool.or_eq_true] at hKeeps
    rcases hKeeps with hKeeps | hKeeps
    · obtain ⟨u, hu⟩ := ih₁ hKeeps hx
      exact ⟨u, List.mem_append_right _ hu⟩
    · obtain ⟨u, hu⟩ := ih₂ hKeeps hy
      exact ⟨u, List.mem_append_left _ hu⟩
  | choice first second ih₁ ih₂ =>
    rw [keeps, Bool.and_eq_true] at hKeeps
    rcases h with h | h
    · exact ih₁ hKeeps.1 h
    · exact ih₂ hKeeps.2 h
  | keep s part ih =>
    obtain ⟨ks', hTakes, rfl⟩ := h
    rw [keeps, Bool.or_eq_true, decide_eq_true_eq] at hKeeps
    rcases hKeeps with rfl | hKeeps
    · exact ⟨w, List.mem_cons_self⟩
    · obtain ⟨u, hu⟩ := ih hKeeps hTakes
      exact ⟨u, List.mem_cons_of_mem _ hu⟩

end Pattern

/-! ### Parts of a match -/

namespace Reading

variable {r : Reading} {u : Text} {slot : Slot}

theorem mem_parts_of_part?_eq_some (h : r.part? slot = some u) : (slot, u) ∈ r.parts := by
  rw [part?_eq_find?, Option.map_eq_some_iff] at h
  obtain ⟨⟨s, u'⟩, hFound, rfl⟩ := h
  have hSlot := List.find?_some hFound
  rw [decide_eq_true_eq] at hSlot
  subst hSlot
  exact List.mem_of_find?_eq_some hFound

theorem exists_part?_eq_some (h : (slot, u) ∈ r.parts) : ∃ u', r.part? slot = some u' := by
  rw [part?_eq_find?]
  cases hFound : r.parts.find? fun part => part.1 = slot with
  | none => exact absurd (decide_eq_true rfl) (List.find?_eq_none.mp hFound _ h)
  | some part => exact ⟨part.2, rfl⟩

end Reading

namespace Rule

variable {rule : Rule} {t : Text} {m : Match}

/-- What a match has read stands in the text from where the match begins. -/
theorem takes_of_mem_matchesIn (h : m ∈ rule.matchesIn t) :
    ∃ w, rule.body.Takes w m.reading.parts ∧ w <+: t.drop m.offset := by
  obtain ⟨w, hTakes, hText, -⟩ := Pattern.takes_of_read? (read?_of_mem_scan h)
  exact ⟨w, hTakes, m.reading.rest, hText.symm⟩

variable {slot : Slot} {u : Text}

theorem infix_drop_of_part? (h : m ∈ rule.matchesIn t) (hPart : m.part? slot = some u) :
    u <:+: t.drop m.offset := by
  obtain ⟨w, hTakes, hPrefix⟩ := takes_of_mem_matchesIn h
  exact (Pattern.infix_of_takes hTakes (Reading.mem_parts_of_part?_eq_some hPart)).trans
    hPrefix.isInfix

theorem infix_of_part? (h : m ∈ rule.matchesIn t) (hPart : m.part? slot = some u) : u <:+: t :=
  (infix_drop_of_part? h hPart).trans (List.drop_suffix m.offset t).isInfix

theorem exists_keptUnder_of_part? (h : m ∈ rule.matchesIn t) (hPart : m.part? slot = some u) :
    ∃ q ∈ rule.body.keptUnder slot, ∃ ks, q.Takes u ks := by
  obtain ⟨w, hTakes, -⟩ := takes_of_mem_matchesIn h
  exact Pattern.exists_keptUnder_of_takes hTakes (Reading.mem_parts_of_part?_eq_some hPart)

theorem exists_part?_of_keeps (hKeeps : rule.body.keeps slot) (h : m ∈ rule.matchesIn t) :
    ∃ u, m.part? slot = some u := by
  obtain ⟨w, hTakes, -⟩ := takes_of_mem_matchesIn h
  obtain ⟨u, hu⟩ := Pattern.exists_mem_of_keeps hKeeps hTakes
  exact Reading.exists_part?_eq_some hu

end Rule

end DependencyMap
