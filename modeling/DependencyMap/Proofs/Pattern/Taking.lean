import DependencyMap.Proofs.Pattern.Running
import Mathlib.Data.List.Basic

/-!
# What a pattern takes

`Pattern.Takes` says of a pattern which texts it can take and which parts it keeps of them, without
saying in which order they are tried. The outcomes of a pattern are just these texts where they
begin the text that is read (`takes_of_mem_outcomes`, `exists_mem_outcomes`). So a pattern reads
nothing where no beginning of a text can be taken (`read?_eq_none`), and the order of the outcomes
matters only where two of them keep different parts.
-/

namespace DependencyMap

namespace Reading

def parts (r : Reading) : List (Slot × Text) := r.kept.map fun k => (k.slot, k.content)

theorem part?_eq_find? (r : Reading) (slot : Slot) :
    r.part? slot = (r.parts.find? fun part => part.1 = slot).map (·.2) := by
  rw [part?, parts, List.find?_map, Option.map_map]
  rfl

end Reading

namespace Pattern

variable {p first second part : Pattern} {r r' : Reading} {w t : Text} {ks : List (Slot × Text)}

/-- The pattern can take the text `w`, and keeps these parts of it, the latest first. -/
def Takes : Pattern → (w : Text) → List (Slot × Text) → Prop
  | .nothing, w, ks => w = [] ∧ ks = []
  | .text t, w, ks => w = t ∧ ks = []
  | .one p, w, ks => (∃ c, p c ∧ w = [c]) ∧ ks = []
  | .many p, w, ks => (∀ c ∈ w, p c) ∧ ks = []
  | .seq first second, w, ks => ∃ u ks₁ v ks₂,
      first.Takes u ks₁ ∧ second.Takes v ks₂ ∧ w = u ++ v ∧ ks = ks₂ ++ ks₁
  | .choice first second, w, ks => first.Takes w ks ∨ second.Takes w ks
  | .keep slot part, w, ks => ∃ ks', part.Takes w ks' ∧ ks = (slot, w) :: ks'

/-! ### Outcomes -/

theorem takes_of_mem_runOutcomes {p : CodePoint → Bool} {base : Nat} {kept : List Kept}
    (h : r' ∈ runOutcomes p base kept t) : ∃ w, (∀ c ∈ w, p c) ∧ t = w ++ r'.rest ∧
      r'.taken = base + w.length ∧ r'.kept = kept := by
  induction t generalizing base with
  | nil =>
    obtain rfl := List.mem_singleton.mp h
    exact ⟨[], by simp, rfl, rfl, rfl⟩
  | cons c t ih =>
    rw [runOutcomes] at h
    split at h
    · rename_i hc
      rcases List.mem_append.mp h with h | h
      · obtain ⟨w, hw, hRest, hTaken, hKept⟩ := ih h
        refine ⟨c :: w, List.forall_mem_cons.mpr ⟨hc, hw⟩, ?_, ?_, hKept⟩
        · rw [hRest, List.cons_append]
        · rw [hTaken, List.length_cons]
          omega
      · obtain rfl := List.mem_singleton.mp h
        exact ⟨[], by simp, rfl, rfl, rfl⟩
    · obtain rfl := List.mem_singleton.mp h
      exact ⟨[], by simp, rfl, rfl, rfl⟩

theorem mem_runOutcomes {p : CodePoint → Bool} (hw : ∀ c ∈ w, p c) (base : Nat) (kept : List Kept)
    (rest : Text) : ⟨base + w.length, rest, kept⟩ ∈ runOutcomes p base kept (w ++ rest) := by
  induction w generalizing base with
  | nil =>
    cases rest with
    | nil => exact List.mem_singleton.mpr rfl
    | cons c rest =>
      rw [List.nil_append, runOutcomes]
      split
      · exact List.mem_append_right _ List.mem_cons_self
      · exact List.mem_cons_self
  | cons c w ih =>
    have hTail := ih (fun d hd => hw d (List.mem_cons_of_mem _ hd)) (base + 1)
    have hLength : base + (c :: w).length = base + 1 + w.length := by
      rw [List.length_cons]
      omega
    rw [List.cons_append, runOutcomes, if_pos (hw c List.mem_cons_self), hLength]
    exact List.mem_append_left _ hTail

/-- An outcome takes a beginning of the text, and keeps the parts that belong to it. -/
theorem takes_of_mem_outcomes (h : r' ∈ p.outcomes r) : ∃ w ks, p.Takes w ks ∧
    r.rest = w ++ r'.rest ∧ r'.taken = r.taken + w.length ∧ r'.parts = ks ++ r.parts := by
  induction p generalizing r r' with
  | nothing =>
    obtain rfl := List.mem_singleton.mp h
    exact ⟨[], [], ⟨rfl, rfl⟩, rfl, rfl, rfl⟩
  | text t =>
    rw [outcomes] at h
    split at h
    · rename_i hPrefix
      obtain ⟨rest, hRest⟩ := List.isPrefixOf_iff_prefix.mp hPrefix
      obtain rfl := List.mem_singleton.mp h
      exact ⟨t, [], ⟨rfl, rfl⟩, by simp [← hRest], rfl, rfl⟩
    · cases h
  | one p =>
    obtain ⟨taken, rest, kept⟩ := r
    cases rest with
    | nil => cases h
    | cons c rest =>
      simp only [outcomes] at h
      split at h
      · rename_i hc
        obtain rfl := List.mem_singleton.mp h
        exact ⟨[c], [], ⟨⟨c, hc, rfl⟩, rfl⟩, rfl, rfl, rfl⟩
      · cases h
  | many p =>
    obtain ⟨w, hw, hRest, hTaken, hKept⟩ := takes_of_mem_runOutcomes h
    refine ⟨w, [], ⟨hw, rfl⟩, hRest, hTaken, ?_⟩
    rw [Reading.parts, hKept]
    rfl
  | seq first second ih₁ ih₂ =>
    obtain ⟨m, hm, hr⟩ := List.mem_flatMap.mp h
    obtain ⟨u, ks₁, hu, hRest₁, hTaken₁, hParts₁⟩ := ih₁ hm
    obtain ⟨v, ks₂, hv, hRest₂, hTaken₂, hParts₂⟩ := ih₂ hr
    refine ⟨u ++ v, ks₂ ++ ks₁, ⟨u, ks₁, v, ks₂, hu, hv, rfl, rfl⟩, ?_, ?_, ?_⟩
    · rw [hRest₁, hRest₂, List.append_assoc]
    · rw [hTaken₂, hTaken₁, List.length_append, Nat.add_assoc]
    · rw [hParts₂, hParts₁, List.append_assoc]
  | choice first second ih₁ ih₂ =>
    rcases List.mem_append.mp h with h | h
    · obtain ⟨w, ks, hTakes, hRest⟩ := ih₁ h
      exact ⟨w, ks, Or.inl hTakes, hRest⟩
    · obtain ⟨w, ks, hTakes, hRest⟩ := ih₂ h
      exact ⟨w, ks, Or.inr hTakes, hRest⟩
  | keep slot part ih =>
    obtain ⟨m, hm, rfl⟩ := List.mem_map.mp h
    obtain ⟨w, ks, hTakes, hRest, hTaken, hParts⟩ := ih hm
    refine ⟨w, (slot, w) :: ks, ⟨ks, hTakes, rfl⟩, hRest, hTaken, ?_⟩
    have hContent : (Kept.mk slot r.rest (m.taken - r.taken)).content = w := by
      rw [Kept.content, hTaken, Nat.add_sub_cancel_left, hRest, List.take_left]
    rw [Reading.parts, List.map_cons, hContent, ← Reading.parts, hParts, List.cons_append]

/-- Every beginning of the text that can be taken is taken by an outcome. -/
theorem exists_mem_outcomes (h : p.Takes w ks) {r : Reading} {rest : Text}
    (hRest : r.rest = w ++ rest) : ∃ r' ∈ p.outcomes r,
      r'.rest = rest ∧ r'.taken = r.taken + w.length ∧ r'.parts = ks ++ r.parts := by
  induction p generalizing w ks r rest with
  | nothing =>
    obtain ⟨rfl, rfl⟩ := h
    exact ⟨r, List.mem_cons_self, hRest, rfl, rfl⟩
  | text t =>
    obtain ⟨rfl, rfl⟩ := h
    have hPrefix : w.isPrefixOf r.rest = true :=
      List.isPrefixOf_iff_prefix.mpr ⟨rest, hRest.symm⟩
    rw [outcomes, if_pos hPrefix]
    exact ⟨_, List.mem_cons_self, by simp [hRest], rfl, rfl⟩
  | one p =>
    obtain ⟨⟨c, hc, rfl⟩, rfl⟩ := h
    obtain ⟨taken, rest', kept⟩ := r
    subst hRest
    simp only [outcomes, List.singleton_append, if_pos hc]
    exact ⟨_, List.mem_cons_self, rfl, rfl, rfl⟩
  | many p =>
    obtain ⟨hw, rfl⟩ := h
    refine ⟨⟨r.taken + w.length, rest, r.kept⟩, ?_, rfl, rfl, rfl⟩
    rw [outcomes, hRest]
    exact mem_runOutcomes hw r.taken r.kept rest
  | seq first second ih₁ ih₂ =>
    obtain ⟨u, ks₁, v, ks₂, hu, hv, rfl, rfl⟩ := h
    obtain ⟨m, hm, hRest₁, hTaken₁, hParts₁⟩ := ih₁ hu (hRest.trans (List.append_assoc u v rest))
    obtain ⟨r', hr', hRest₂, hTaken₂, hParts₂⟩ := ih₂ hv hRest₁
    refine ⟨r', List.mem_flatMap.mpr ⟨m, hm, hr'⟩, hRest₂, ?_, ?_⟩
    · rw [hTaken₂, hTaken₁, List.length_append, Nat.add_assoc]
    · rw [hParts₂, hParts₁, List.append_assoc]
  | choice first second ih₁ ih₂ =>
    rcases h with h | h
    · obtain ⟨r', hr', hAll⟩ := ih₁ h hRest
      exact ⟨r', List.mem_append_left _ hr', hAll⟩
    · obtain ⟨r', hr', hAll⟩ := ih₂ h hRest
      exact ⟨r', List.mem_append_right _ hr', hAll⟩
  | keep slot part ih =>
    obtain ⟨ks', hTakes, rfl⟩ := h
    obtain ⟨m, hm, hRest', hTaken, hParts⟩ := ih hTakes hRest
    refine ⟨_, List.mem_map.mpr ⟨m, hm, rfl⟩, hRest', hTaken, ?_⟩
    have hContent : (Kept.mk slot r.rest (m.taken - r.taken)).content = w := by
      rw [Kept.content, hTaken, Nat.add_sub_cancel_left, hRest, List.take_left]
    rw [Reading.parts, List.map_cons, hContent, ← Reading.parts, hParts, List.cons_append]

theorem outcomes_sequence_append (parts others : List Pattern) (r : Reading) :
    (sequence (parts ++ others)).outcomes r =
      ((sequence parts).outcomes r).flatMap (sequence others).outcomes := by
  induction parts generalizing r with
  | nil => exact (List.flatMap_singleton _ _).symm
  | cons part parts ih =>
    show (part.outcomes r).flatMap (sequence (parts ++ others)).outcomes =
      ((part.outcomes r).flatMap (sequence parts).outcomes).flatMap (sequence others).outcomes
    rw [List.flatMap_assoc]
    exact List.flatMap_congr fun m _ => ih m

/-! ### Readings -/

theorem run_some_eq_head? (p : Pattern) (r : Reading) : p.run r some = (p.outcomes r).head? := by
  rw [run_eq_findSome?]
  cases p.outcomes r <;> simp

/-- What is read is a beginning of the text that can be taken. -/
theorem takes_of_run (h : p.run r some = some r') : ∃ w ks, p.Takes w ks ∧
    r.rest = w ++ r'.rest ∧ r'.taken = r.taken + w.length ∧ r'.parts = ks ++ r.parts := by
  rw [run_some_eq_head?] at h
  exact takes_of_mem_outcomes (List.mem_of_head? h)

theorem exists_run (h : p.Takes w ks) {r : Reading} {rest : Text} (hRest : r.rest = w ++ rest) :
    ∃ r', p.run r some = some r' := by
  obtain ⟨m, hm, -⟩ := exists_mem_outcomes h hRest
  rw [run_some_eq_head?]
  cases hOutcomes : p.outcomes r with
  | nil =>
    rw [hOutcomes] at hm
    cases hm
  | cons first others => exact ⟨first, rfl⟩

theorem takes_of_read? (h : p.read? t = some r) :
    ∃ w, p.Takes w r.parts ∧ t = w ++ r.rest ∧ r.taken = w.length := by
  obtain ⟨w, ks, hTakes, hRest, hTaken, hParts⟩ := takes_of_run h
  have hNothing : (Reading.start t).parts = [] := rfl
  rw [hNothing, List.append_nil] at hParts
  exact ⟨w, hParts ▸ hTakes, hRest, hTaken.trans (Nat.zero_add _)⟩

theorem read?_eq_none (h : ∀ w ks, p.Takes w ks → ¬ w <+: t) : p.read? t = none := by
  cases hRead : p.read? t with
  | none => rfl
  | some r =>
    obtain ⟨w, hTakes, rfl, -⟩ := takes_of_read? hRead
    exact absurd (List.prefix_append w r.rest) (h w _ hTakes)

/-! ### What composed patterns take -/

@[simp] theorem takes_text : (text t).Takes w ks ↔ w = t ∧ ks = [] := Iff.rfl

@[simp] theorem takes_one {p : CodePoint → Bool} :
    (one p).Takes w ks ↔ (∃ c, p c ∧ w = [c]) ∧ ks = [] := Iff.rfl

@[simp] theorem takes_many {p : CodePoint → Bool} :
    (many p).Takes w ks ↔ (∀ c ∈ w, p c) ∧ ks = [] := Iff.rfl

@[simp] theorem takes_sequence_nil : (sequence []).Takes w ks ↔ w = [] ∧ ks = [] := Iff.rfl

@[simp] theorem takes_sequence_cons {parts : List Pattern} :
    (sequence (part :: parts)).Takes w ks ↔ ∃ u ks₁ v ks₂,
      part.Takes u ks₁ ∧ (sequence parts).Takes v ks₂ ∧ w = u ++ v ∧ ks = ks₂ ++ ks₁ := Iff.rfl

@[simp] theorem takes_keep {slot : Slot} :
    (keep slot part).Takes w ks ↔ ∃ ks', part.Takes w ks' ∧ ks = (slot, w) :: ks' := Iff.rfl

@[simp] theorem takes_optional :
    (optional part).Takes w ks ↔ part.Takes w ks ∨ w = [] ∧ ks = [] := Iff.rfl

@[simp] theorem takes_many1 {p : CodePoint → Bool} :
    (many1 p).Takes w ks ↔ w ≠ [] ∧ (∀ c ∈ w, p c) ∧ ks = [] := by
  constructor
  · rintro ⟨u, ks₁, v, ks₂, ⟨⟨c, hc, rfl⟩, rfl⟩, ⟨hv, rfl⟩, rfl, rfl⟩
    exact ⟨List.cons_ne_nil c v, List.forall_mem_cons.mpr ⟨hc, hv⟩, rfl⟩
  · rintro ⟨hne, hw, rfl⟩
    cases w with
    | nil => exact absurd rfl hne
    | cons c w =>
      obtain ⟨hc, hTail⟩ := List.forall_mem_cons.mp hw
      exact ⟨[c], [], w, [], ⟨⟨c, hc, rfl⟩, rfl⟩, ⟨hTail, rfl⟩, rfl, rfl⟩

/-! ### Runs -/

/-- A run of code points that satisfy `p` ends before the first one that does not. -/
theorem exists_append_of_stops {p : CodePoint → Bool} {s s' t t' : Text} (hs : ∀ c ∈ s, p c)
    (ht' : Stops p t') (h : s ++ t = s' ++ t') : ∃ more, s' = s ++ more ∧ t = more ++ t' := by
  rcases List.append_eq_append_iff.mp h with hMore | ⟨more, rfl, rfl⟩
  · exact hMore
  · cases more with
    | nil => exact ⟨[], by simp, rfl⟩
    | cons c more =>
      have hc : p c = true := hs c (List.mem_append_right _ List.mem_cons_self)
      rw [stops_cons.mp ht'] at hc
      cases hc

/-- A text can be cut in one way only into a run and what follows from the first code point on that
does not belong to it. -/
theorem append_inj_of_stops {p : CodePoint → Bool} {s s' t t' : Text} (hs : ∀ c ∈ s, p c)
    (hs' : ∀ c ∈ s', p c) (ht : Stops p t) (ht' : Stops p t') (h : s ++ t = s' ++ t') :
    s = s' ∧ t = t' := by
  obtain ⟨more, rfl, rfl⟩ := exists_append_of_stops hs ht' h
  cases more with
  | nil => simp
  | cons c more =>
    have hc : p c = true := hs' c (List.mem_append_right _ List.mem_cons_self)
    rw [stops_cons.mp ht] at hc
    cases hc

end Pattern

end DependencyMap
