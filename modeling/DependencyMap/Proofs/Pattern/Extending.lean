import DependencyMap.Pattern.Basic
import DependencyMap.Pattern.Outcomes
import Mathlib.Data.List.Basic

/-!
# Patterns in a longer text

A pattern does not look beyond what it reads. So its outcomes on a text are, in order, those of its
outcomes on a longer text that end within the first (`filter_outcomes_extend`). For a scan it
follows that a line break between two texts separates their matches, unless a match of the whole
begins in the first text and ends after it (`Rule.matchesIn_append_line`).
-/

namespace DependencyMap

namespace Kept

def extend (u : Text) (k : Kept) : Kept := { k with source := k.source ++ u }

def Fits (k : Kept) : Prop := k.length ≤ k.source.length

theorem Fits.content_extend {k : Kept} (h : k.Fits) (u : Text) :
    (k.extend u).content = k.content := List.take_append_of_le_length h

end Kept

namespace Reading

def extend (u : Text) (r : Reading) : Reading :=
  ⟨r.taken, r.rest ++ u, r.kept.map (Kept.extend u)⟩

def Fits (r : Reading) : Prop := ∀ k ∈ r.kept, k.Fits

theorem extend_start (s u : Text) : (start s).extend u = start (s ++ u) := rfl

theorem Fits.part?_extend {r : Reading} (h : r.Fits) (u : Text) (slot : Slot) :
    (r.extend u).part? slot = r.part? slot := by
  have hSlot : (fun k : Kept => decide (k.slot = slot)) ∘ Kept.extend u =
      fun k => decide (k.slot = slot) := rfl
  rw [part?, extend, List.find?_map, hSlot, part?, Option.map_map]
  cases hFound : r.kept.find? fun k => k.slot = slot with
  | none => rfl
  | some k =>
    have hFits : k.Fits := h k (List.mem_of_find?_eq_some hFound)
    rw [Option.map_some, Option.map_some, Function.comp_apply, hFits.content_extend u]

end Reading

namespace Pattern

/-! ### What reading leaves -/

theorem length_of_mem_runOutcomes {p : CodePoint → Bool} {base : Nat} {kept : List Kept} {t : Text}
    {r : Reading} (h : r ∈ runOutcomes p base kept t) :
    base ≤ r.taken ∧ r.taken + r.rest.length = base + t.length ∧ r.kept = kept := by
  induction t generalizing base with
  | nil =>
    obtain rfl := List.mem_singleton.mp h
    exact ⟨Nat.le_refl _, rfl, rfl⟩
  | cons c t ih =>
    rw [runOutcomes] at h
    split at h
    · rcases List.mem_append.mp h with h | h
      · obtain ⟨hBase, hLength, hKept⟩ := ih h
        refine ⟨by omega, ?_, hKept⟩
        rw [hLength, List.length_cons]
        omega
      · obtain rfl := List.mem_singleton.mp h
        exact ⟨Nat.le_refl _, rfl, rfl⟩
    · obtain rfl := List.mem_singleton.mp h
      exact ⟨Nat.le_refl _, rfl, rfl⟩

/-- What is taken and what is left make up the text. -/
theorem length_of_mem_outcomes {p : Pattern} {r r' : Reading} (h : r' ∈ p.outcomes r) :
    r.taken ≤ r'.taken ∧ r'.taken + r'.rest.length = r.taken + r.rest.length := by
  induction p generalizing r r' with
  | nothing =>
    obtain rfl := List.mem_singleton.mp h
    exact ⟨Nat.le_refl _, rfl⟩
  | text t =>
    rw [outcomes] at h
    split at h
    · rename_i hPrefix
      obtain rfl := List.mem_singleton.mp h
      have hLength : t.length ≤ r.rest.length := (List.isPrefixOf_iff_prefix.mp hPrefix).length_le
      simp only [List.length_drop]
      omega
    · cases h
  | one p =>
    obtain ⟨taken, rest, kept⟩ := r
    cases rest with
    | nil => cases h
    | cons c rest =>
      simp only [outcomes] at h
      split at h
      · obtain rfl := List.mem_singleton.mp h
        simp only [List.length_cons]
        omega
      · cases h
  | many p =>
    obtain ⟨hBase, hLength, -⟩ := length_of_mem_runOutcomes h
    exact ⟨hBase, hLength⟩
  | seq first second ih₁ ih₂ =>
    obtain ⟨m, hm, hr⟩ := List.mem_flatMap.mp h
    have h₁ := ih₁ hm
    have h₂ := ih₂ hr
    omega
  | choice first second ih₁ ih₂ =>
    rcases List.mem_append.mp h with h | h
    · exact ih₁ h
    · exact ih₂ h
  | keep slot part ih =>
    obtain ⟨m, hm, rfl⟩ := List.mem_map.mp h
    have hInner := ih hm
    exact hInner

theorem fits_of_mem_outcomes {p : Pattern} {r r' : Reading} (hr : r.Fits)
    (h : r' ∈ p.outcomes r) : r'.Fits := by
  induction p generalizing r r' with
  | nothing =>
    obtain rfl := List.mem_singleton.mp h
    exact hr
  | text t =>
    rw [outcomes] at h
    split at h
    · obtain rfl := List.mem_singleton.mp h
      exact hr
    · cases h
  | one p =>
    obtain ⟨taken, rest, kept⟩ := r
    cases rest with
    | nil => cases h
    | cons c rest =>
      simp only [outcomes] at h
      split at h
      · obtain rfl := List.mem_singleton.mp h
        exact hr
      · cases h
  | many p =>
    obtain ⟨-, -, hKept⟩ := length_of_mem_runOutcomes h
    rw [Reading.Fits, hKept]
    exact hr
  | seq first second ih₁ ih₂ =>
    obtain ⟨m, hm, hr'⟩ := List.mem_flatMap.mp h
    exact ih₂ (ih₁ hr hm) hr'
  | choice first second ih₁ ih₂ =>
    rcases List.mem_append.mp h with h | h
    · exact ih₁ hr h
    · exact ih₂ hr h
  | keep slot part ih =>
    obtain ⟨m, hm, rfl⟩ := List.mem_map.mp h
    refine List.forall_mem_cons.mpr ⟨?_, ih hr hm⟩
    have hLength := length_of_mem_outcomes hm
    show m.taken - r.taken ≤ r.rest.length
    omega

/-! ### Outcomes on a longer text -/

def leaves (u : Text) (r : Reading) : Bool := u.length ≤ r.rest.length

theorem leaves_extend (u : Text) (r : Reading) : leaves u (r.extend u) = true := by
  simp [leaves, Reading.extend]

theorem filter_runOutcomes_extend (p : CodePoint → Bool) (u : Text) (base : Nat)
    (kept : List Kept) (t : Text) :
    (runOutcomes p base (kept.map (Kept.extend u)) (t ++ u)).filter (leaves u) =
      (runOutcomes p base kept t).map (Reading.extend u) := by
  induction t generalizing base with
  | nil =>
    cases u with
    | nil => rfl
    | cons c u =>
      -- a run that goes on into `u` leaves less than all of it
      have hShort : (runOutcomes p (base + 1) (kept.map (Kept.extend (c :: u))) u).filter
          (leaves (c :: u)) = [] := by
        refine List.filter_eq_nil_iff.mpr fun r hr => ?_
        obtain ⟨hBase, hLength, -⟩ := length_of_mem_runOutcomes hr
        simp only [leaves, decide_eq_true_eq, List.length_cons]
        omega
      simp only [List.nil_append, runOutcomes]
      split
      · rw [List.filter_append, hShort]
        simp [leaves, Reading.extend]
      · simp [leaves, Reading.extend]
  | cons c t ih =>
    have hHere : leaves u ⟨base, c :: (t ++ u), kept.map (Kept.extend u)⟩ = true :=
      leaves_extend u ⟨base, c :: t, kept⟩
    rw [List.cons_append, runOutcomes, runOutcomes]
    split
    · rw [List.filter_append, ih, List.map_append, List.filter_cons_of_pos hHere]
      rfl
    · rw [List.filter_cons_of_pos hHere]
      rfl

theorem flatMap_filter_of_nil {α β : Type} {p : α → Bool} {f : α → List β} {l : List α}
    (h : ∀ a ∈ l, p a = false → f a = []) : (l.filter p).flatMap f = l.flatMap f := by
  induction l with
  | nil => rfl
  | cons a l ih =>
    have hTail : ∀ b ∈ l, p b = false → f b = [] := fun b hb => h b (List.mem_cons_of_mem _ hb)
    rw [List.filter_cons, List.flatMap_cons]
    cases ha : p a with
    | true => rw [if_pos rfl, List.flatMap_cons, ih hTail]
    | false =>
      rw [if_neg Bool.false_ne_true, ih hTail, h a List.mem_cons_self ha, List.nil_append]

/-- The outcomes on a text are, in order, the outcomes on a longer text that end within it. -/
theorem filter_outcomes_extend (p : Pattern) (u : Text) (r : Reading) :
    (p.outcomes (r.extend u)).filter (leaves u) = (p.outcomes r).map (Reading.extend u) := by
  induction p generalizing r with
  | nothing =>
    rw [outcomes, List.filter_cons_of_pos (leaves_extend u r)]
    rfl
  | text t =>
    by_cases hPrefix : t <+: r.rest
    · have hLonger : t <+: r.rest ++ u := hPrefix.trans (List.prefix_append r.rest u)
      have hDrop : (r.rest ++ u).drop t.length = r.rest.drop t.length ++ u :=
        List.drop_append_of_le_length hPrefix.length_le
      rw [outcomes, outcomes, Reading.extend, if_pos (List.isPrefixOf_iff_prefix.mpr hLonger),
        if_pos (List.isPrefixOf_iff_prefix.mpr hPrefix), hDrop,
        List.filter_cons_of_pos (by simp [leaves])]
      rfl
    · rw [outcomes, outcomes, if_neg (mt List.isPrefixOf_iff_prefix.mp hPrefix)]
      split
      · rename_i hLonger
        have hLonger : t <+: r.rest ++ u := List.isPrefixOf_iff_prefix.mp hLonger
        have hLong : r.rest.length < t.length := by
          refine Nat.lt_of_not_le fun hLe => hPrefix ?_
          exact List.prefix_of_prefix_length_le hLonger (List.prefix_append r.rest u) hLe
        have hLength := hLonger.length_le
        rw [List.filter_cons_of_neg]
        · rfl
        · simp only [leaves, Reading.extend, List.length_drop, List.length_append,
            decide_eq_true_eq] at hLength ⊢
          omega
      · rfl
  | one p =>
    obtain ⟨taken, rest, kept⟩ := r
    cases rest with
    | nil =>
      cases u with
      | nil => rfl
      | cons c u =>
        simp only [Reading.extend, List.nil_append, outcomes, List.map_nil]
        split
        · rw [List.filter_cons_of_neg (by simp [leaves])]
          rfl
        · rfl
    | cons c rest =>
      simp only [Reading.extend, List.cons_append, outcomes]
      split
      · rw [List.filter_cons_of_pos (by simp [leaves])]
        rfl
      · rfl
  | many p => exact filter_runOutcomes_extend p u r.taken r.kept r.rest
  | seq first second ih₁ ih₂ =>
    have hBeyond : ∀ m ∈ first.outcomes (r.extend u), leaves u m = false →
        (second.outcomes m).filter (leaves u) = [] := by
      intro m _ hm
      refine List.filter_eq_nil_iff.mpr fun r' hr' => ?_
      have hLength := length_of_mem_outcomes hr'
      simp only [leaves, decide_eq_true_eq, decide_eq_false_iff_not] at hm ⊢
      omega
    calc ((first.outcomes (r.extend u)).flatMap second.outcomes).filter (leaves u)
        = (first.outcomes (r.extend u)).flatMap
            fun m => (second.outcomes m).filter (leaves u) := List.filter_flatMap
      _ = ((first.outcomes (r.extend u)).filter (leaves u)).flatMap
            fun m => (second.outcomes m).filter (leaves u) := (flatMap_filter_of_nil hBeyond).symm
      _ = (first.outcomes r).flatMap
            fun m => (second.outcomes (m.extend u)).filter (leaves u) := by
          rw [ih₁, List.flatMap_map]
      _ = (first.outcomes r).flatMap
            fun m => (second.outcomes m).map (Reading.extend u) := by simp only [ih₂]
      _ = ((first.outcomes r).flatMap second.outcomes).map (Reading.extend u) :=
          List.map_flatMap.symm
  | choice first second ih₁ ih₂ =>
    rw [outcomes, outcomes, List.filter_append, List.map_append, ih₁, ih₂]
  | keep slot part ih =>
    rw [outcomes, outcomes, List.filter_map, List.map_map]
    have hLeaves : leaves u ∘ (fun r' : Reading =>
        { r' with kept := ⟨slot, (r.extend u).rest, r'.taken - (r.extend u).taken⟩ :: r'.kept }) =
        leaves u := rfl
    rw [hLeaves, ih, List.map_map]
    rfl

/-- What is read in a longer text and ends within the shorter one is read in it too. -/
theorem read?_of_read?_append {p : Pattern} {s u : Text} {r : Reading}
    (h : p.read? (s ++ u) = some r) (hTaken : r.taken ≤ s.length) :
    ∃ r', p.read? s = some r' ∧ r'.extend u = r := by
  rw [read?_eq_head?, ← Reading.extend_start, List.head?_eq_some_iff] at h
  obtain ⟨others, hOutcomes⟩ := h
  have hLength := length_of_mem_outcomes (hOutcomes ▸ List.mem_cons_self)
  have hLeaves : leaves u r = true := by
    simp only [Reading.extend, Reading.start, List.length_append] at hLength
    simp only [leaves, decide_eq_true_eq]
    omega
  have hFilter := filter_outcomes_extend p u (.start s)
  rw [hOutcomes, List.filter_cons_of_pos hLeaves] at hFilter
  obtain ⟨r', others', hShort, hr', -⟩ := List.map_eq_cons_iff.mp hFilter.symm
  exact ⟨r', by rw [read?_eq_head?, hShort, List.head?_cons], hr'⟩

/-- What cannot be read in a longer text cannot be read in the shorter one. -/
theorem read?_eq_none_of_append {p : Pattern} {s u : Text} (h : p.read? (s ++ u) = none) :
    p.read? s = none := by
  rw [read?_eq_head?, ← Reading.extend_start, List.head?_eq_none_iff] at h
  have hFilter := filter_outcomes_extend p u (.start s)
  rw [h, List.filter_nil] at hFilter
  rw [read?_eq_head?, List.map_eq_nil_iff.mp hFilter.symm, List.head?_nil]

end Pattern

/-! ### Matches in a longer text -/

namespace Match

def extend (u : Text) (m : Match) : Match := { m with reading := m.reading.extend u }

def moved (n : Nat) (m : Match) : Match := { m with offset := m.offset + n }

end Match

namespace Rule

variable {rule : Rule}

theorem readAt?_of_readAt?_append {atLineStart : Bool} {s u : Text} {r : Reading}
    (h : rule.readAt? atLineStart (s ++ u) = some r) (hTaken : r.taken ≤ s.length) :
    ∃ r', rule.readAt? atLineStart s = some r' ∧ r'.extend u = r := by
  simp only [readAt?] at h ⊢
  split at h
  · cases h
  · rename_i hBegins
    simp only [if_neg hBegins]
    exact Pattern.read?_of_read?_append h hTaken

theorem readAt?_eq_none_of_append {atLineStart : Bool} {s u : Text}
    (h : rule.readAt? atLineStart (s ++ u) = none) : rule.readAt? atLineStart s = none := by
  simp only [readAt?] at h ⊢
  split at h
  · rename_i hBegins
    rw [if_pos hBegins]
  · rename_i hBegins
    rw [if_neg hBegins, Pattern.read?_eq_none_of_append h]

theorem scan_add (rule : Rule) (skip : Nat) (atLineStart : Bool) (offset n : Nat) (t : Text) :
    rule.scan skip atLineStart (offset + n) t =
      (rule.scan skip atLineStart offset t).map (Match.moved n) := by
  induction t generalizing skip atLineStart offset with
  | nil => cases skip <;> rfl
  | cons c t ih =>
    have hNext : offset + n + 1 = offset + 1 + n := by omega
    cases skip with
    | succ skip => rw [scan, scan, hNext, ih]
    | zero =>
      rw [scan, scan, hNext]
      cases rule.readAt? atLineStart (c :: t) with
      | none => exact ih ..
      | some r => simp only [ih, List.map_cons, Match.moved]

theorem bounds_of_mem_scan {skip : Nat} {atLineStart : Bool} {offset : Nat} {t : Text} {m : Match}
    (h : m ∈ rule.scan skip atLineStart offset t) :
    offset ≤ m.offset ∧ m.offset < offset + t.length ∧ m.reading.Fits := by
  induction t generalizing skip atLineStart offset with
  | nil => cases skip <;> cases h
  | cons c t ih =>
    have hTail : ∀ {k}, m ∈ rule.scan k (c = '\n') (offset + 1) t →
        offset ≤ m.offset ∧ m.offset < offset + (c :: t).length ∧ m.reading.Fits := by
      intro k hm
      obtain ⟨hLow, hHigh, hFits⟩ := ih hm
      refine ⟨by omega, ?_, hFits⟩
      rw [List.length_cons]
      omega
    cases skip with
    | succ skip =>
      rw [scan] at h
      exact hTail h
    | zero =>
      rw [scan] at h
      cases hRead : rule.readAt? atLineStart (c :: t) with
      | none =>
        rw [hRead] at h
        exact hTail h
      | some r =>
        simp only [hRead, List.mem_cons] at h
        rcases h with rfl | h
        · refine ⟨Nat.le_refl _, by simp, ?_⟩
          rw [readAt?] at hRead
          split at hRead
          · cases hRead
          · rw [Pattern.read?_eq_head?] at hRead
            have hStart : (Reading.start (c :: t)).Fits := fun k hk => absurd hk List.not_mem_nil
            exact Pattern.fits_of_mem_outcomes hStart (List.mem_of_head? hRead)
        · exact hTail h

/-- Scanning two texts with a line break between them. The scan enters the first text with `skip`
code points of it to pass over, and leaves it with none. -/
theorem scan_append_line {a b : Text} (hBreak : rule.body.read? (CodePoint.ofChar '\n' :: b) = none)
    {skip : Nat} {atLineStart : Bool} {offset : Nat} (hSkip : skip ≤ a.length)
    (hApart : ∀ m ∈ rule.scan skip atLineStart offset (a ++ CodePoint.ofChar '\n' :: b),
      m.offset < offset + a.length → m.offset + m.reading.taken ≤ offset + a.length) :
    rule.scan skip atLineStart offset (a ++ CodePoint.ofChar '\n' :: b) =
      (rule.scan skip atLineStart offset a).map (Match.extend (CodePoint.ofChar '\n' :: b)) ++
        rule.scan 0 true (offset + a.length + 1) b := by
  induction a generalizing skip atLineStart offset with
  | nil =>
    obtain rfl : skip = 0 := Nat.le_zero.mp hSkip
    have hHere : rule.readAt? atLineStart (CodePoint.ofChar '\n' :: b) = none := by
      rw [readAt?, hBreak, ite_self]
    simp only [List.nil_append, scan, hHere, List.map_nil, List.length_nil, Nat.add_zero]
    rfl
  | cons c a ih =>
    have hEnd : offset + (c :: a).length = offset + 1 + a.length := by
      rw [List.length_cons]
      omega
    rw [hEnd] at hApart ⊢
    rw [List.cons_append] at hApart ⊢
    cases skip with
    | succ skip =>
      rw [scan] at hApart ⊢
      rw [scan]
      exact ih (Nat.le_of_succ_le_succ hSkip) hApart
    | zero =>
      rw [scan] at hApart ⊢
      rw [scan]
      cases hRead : rule.readAt? atLineStart (c :: (a ++ CodePoint.ofChar '\n' :: b)) with
      | none =>
        rw [readAt?_eq_none_of_append (s := c :: a) hRead]
        simp only [hRead] at hApart ⊢
        exact ih (Nat.zero_le _) hApart
      | some r =>
        simp only [hRead] at hApart ⊢
        -- the match that begins here ends in the first text
        have hTaken : r.taken ≤ a.length + 1 := by
          have hHere := hApart ⟨offset, r⟩ List.mem_cons_self
          simp only at hHere
          omega
        obtain ⟨r', hShort, hExtend⟩ := readAt?_of_readAt?_append (s := c :: a) hRead hTaken
        have hSame : r'.taken = r.taken := hExtend ▸ rfl
        rw [hShort]
        simp only [hSame, List.map_cons, List.cons_append]
        rw [ih (by omega) fun m hm => hApart m (List.mem_cons_of_mem _ hm)]
        simp only [Match.extend, hExtend]

/-- No match in the two texts with a line break between them begins in the first and ends after
it. -/
def Apart (rule : Rule) (a b : Text) : Prop :=
  ∀ m ∈ rule.matchesIn (a ++ CodePoint.ofChar '\n' :: b),
    ¬ (m.offset < a.length ∧ a.length < m.offset + m.reading.taken)

instance (rule : Rule) (a b : Text) : Decidable (rule.Apart a b) :=
  inferInstanceAs (Decidable (∀ _ ∈ _, _))

/-- The matches in two texts with a line break between them are those of the first and then those
of the second, if no match spans the break and none begins with it. -/
theorem matchesIn_append_line {a b : Text}
    (hBreak : rule.body.read? (CodePoint.ofChar '\n' :: b) = none) (hApart : rule.Apart a b) :
    rule.matchesIn (a ++ CodePoint.ofChar '\n' :: b) =
      (rule.matchesIn a).map (Match.extend (CodePoint.ofChar '\n' :: b)) ++
        (rule.matchesIn b).map (Match.moved (a.length + 1)) := by
  have hScan := @scan_append_line rule a b hBreak 0 true 0 (Nat.zero_le _) fun m hm hBegins => by
    have hNot := hApart m hm
    omega
  rw [matchesIn, hScan, matchesIn, matchesIn, ← scan_add, Nat.zero_add, Nat.zero_add]

end Rule

end DependencyMap
