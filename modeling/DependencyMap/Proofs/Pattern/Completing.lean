import DependencyMap.Proofs.Pattern.Matching
import DependencyMap.Proofs.Pattern.Taking

/-!
# Matches that a longer text completes

A match that begins in one text and ends only in what is put behind it may take the place of matches
that the first text has alone. For a rule that is bound to the starts of lines this cannot happen if
something tells of a text that the rule has been read in it to the end (`Completion`). Then the
matches of a text are the first matches of the text with further lines
(`Rule.map_extend_prefix_matchesIn`).

`EndsAt` is the simplest case: a sign that stands at the end of what is read and nowhere before.
-/

namespace DependencyMap

namespace Pattern

/-- `done` tells of a text that the pattern has been read in it to the end: it holds of what the
pattern takes, goes on to hold when more is put behind the text or lines are put before it, and does
not hold before a line break that the pattern takes. -/
structure Completion (p : Pattern) (done : Text → Prop) : Prop where
  of_takes : ∀ {w ks}, p.Takes w ks → done w
  append : ∀ {t} (u : Text), done t → done (t ++ u)
  behind : ∀ {t} (s : Text), done t → done (s ++ CodePoint.ofChar '\n' :: t)
  pending : ∀ {s u ks}, p.Takes (s ++ CodePoint.ofChar '\n' :: u) ks → ¬ done s

variable {p first second : Pattern} {sign : CodePoint}

/-- Nothing was read to the end in a text over whose end the pattern reads. -/
theorem Completion.not_of_read? {done : Text → Prop} (hDone : Completion p done) {a b : Text}
    {r : Reading} (hRead : p.read? (a ++ CodePoint.ofChar '\n' :: b) = some r)
    (hTaken : a.length < r.taken) : ¬ done a := by
  obtain ⟨w, hTakes, hText, hLength⟩ := takes_of_read? hRead
  have hLonger : a <+: w := by
    refine List.prefix_of_prefix_length_le (List.prefix_append a _)
      (hText ▸ List.prefix_append w r.rest) ?_
    omega
  obtain ⟨more, rfl⟩ := hLonger
  rw [List.append_assoc, List.append_cancel_left_eq] at hText
  cases more with
  | nil =>
    rw [List.append_nil] at hLength
    omega
  | cons c more =>
    obtain ⟨rfl, -⟩ := List.cons_eq_cons.mp hText
    exact hDone.pending hTakes

/-- The sign stands at the end of every text that the pattern takes, and nowhere before. -/
def EndsAt (sign : CodePoint) (p : Pattern) : Prop :=
  ∀ w ks, p.Takes w ks → ∃ u, w = u ++ [sign] ∧ sign ∉ u

/-- No text that the pattern takes has the sign. -/
def avoids (sign : CodePoint) : Pattern → Bool
  | .nothing => true
  | .text t => sign ∉ t
  | .one p => !p sign
  | .many p => !p sign
  | .seq first second => first.avoids sign && second.avoids sign
  | .choice first second => first.avoids sign && second.avoids sign
  | .keep _ part => part.avoids sign

theorem notMem_of_avoids {w : Text} {ks : List (Slot × Text)} (hAvoids : p.avoids sign)
    (h : p.Takes w ks) : sign ∉ w := by
  have hSigns {q : CodePoint → Bool} {w : Text} (hq : !q sign) (hw : ∀ c ∈ w, q c) : sign ∉ w := by
    intro hMem
    rw [hw sign hMem] at hq
    cases hq
  induction p generalizing w ks with
  | nothing =>
    obtain ⟨rfl, -⟩ := h
    exact List.not_mem_nil
  | text t =>
    obtain ⟨rfl, -⟩ := h
    exact of_decide_eq_true hAvoids
  | one q =>
    obtain ⟨⟨c, hc, rfl⟩, -⟩ := h
    exact hSigns hAvoids (List.forall_mem_singleton.mpr hc)
  | many q => exact hSigns hAvoids h.1
  | seq first second ih₁ ih₂ =>
    obtain ⟨u, ks₁, v, ks₂, hu, hv, rfl, -⟩ := h
    rw [avoids, Bool.and_eq_true] at hAvoids
    exact fun hMem => (List.mem_append.mp hMem).elim (ih₁ hAvoids.1 hu) (ih₂ hAvoids.2 hv)
  | choice first second ih₁ ih₂ =>
    rw [avoids, Bool.and_eq_true] at hAvoids
    exact h.elim (ih₁ hAvoids.1) (ih₂ hAvoids.2)
  | keep slot part ih =>
    obtain ⟨ks', hTakes, -⟩ := h
    exact ih hAvoids hTakes

namespace EndsAt

theorem one_eq (sign : CodePoint) : EndsAt sign (.one fun c => c = sign) := by
  rintro w ks ⟨⟨c, hc, rfl⟩, -⟩
  exact ⟨[], by rw [of_decide_eq_true hc]; rfl, List.not_mem_nil⟩

theorem seq (hFirst : first.avoids sign) (h : EndsAt sign second) :
    EndsAt sign (.seq first second) := by
  rintro w ks ⟨u, ks₁, v, ks₂, hu, hv, rfl, -⟩
  obtain ⟨v, rfl, hSign⟩ := h v ks₂ hv
  refine ⟨u ++ v, (List.append_assoc u v [sign]).symm, ?_⟩
  exact fun hMem => (List.mem_append.mp hMem).elim (notMem_of_avoids hFirst hu) hSign

/-- The last part of a sequence. -/
theorem last (h : EndsAt sign p) : EndsAt sign (.sequence [p]) := by
  rintro w ks ⟨u, ks₁, v, ks₂, hu, ⟨rfl, -⟩, rfl, -⟩
  rw [List.append_nil]
  exact h u ks₁ hu

theorem completion (h : EndsAt sign p) : Completion p fun t => sign ∈ t where
  of_takes hTakes := by
    obtain ⟨u, rfl, -⟩ := h _ _ hTakes
    exact List.mem_append_right _ List.mem_cons_self
  append u hMem := List.mem_append_left u hMem
  behind s hMem := List.mem_append_right s (List.mem_cons_of_mem _ hMem)
  pending {s u ks} hTakes hMem := by
    obtain ⟨before, hText, hSign⟩ := h _ _ hTakes
    have hBefore := congrArg List.dropLast hText
    rw [List.dropLast_concat, List.dropLast_append_of_ne_nil (List.cons_ne_nil _ _)] at hBefore
    exact hSign (hBefore ▸ List.mem_append_left _ hMem)

end EndsAt

end Pattern

/-! ### Scanning -/

namespace Rule

open Pattern

variable {rule : Rule} {done : Text → Prop} {skip offset : Nat} {atLineStart : Bool}

/-- A text in which the rule is read nowhere to the end has no match. -/
theorem scan_eq_nil_of_not_done (hRule : rule.anchored = true) (hDone : Completion rule.body done)
    {a : Text} (h : ¬ done a) (skip : Nat) (atLineStart : Bool) (offset : Nat) :
    rule.scan skip atLineStart offset a = [] := by
  refine List.eq_nil_iff_forall_not_mem.mpr fun m hm => h ?_
  obtain ⟨w, hTakes, hText, -⟩ := takes_of_read? (read?_of_mem_scan hm)
  have hHere : done (a.drop (m.offset - offset)) := by
    rw [hText]
    exact hDone.append m.reading.rest (hDone.of_takes hTakes)
  rcases lineStart_of_mem_scan hRule hm with ⟨hOffset, -⟩ | ⟨k, hOffset, hBreak⟩
  · rwa [hOffset, Nat.sub_self, List.drop_zero] at hHere
  · obtain ⟨hk, hBreak⟩ := List.getElem?_eq_some_iff.mp hBreak
    have hLines : a.take k ++ CodePoint.ofChar '\n' :: a.drop (k + 1) = a := by
      rw [← hBreak, ← List.drop_eq_getElem_cons hk, List.take_append_drop]
    have hDrop : m.offset - offset = k + 1 := by omega
    rw [hDrop] at hHere
    exact hLines ▸ hDone.behind (a.take k) hHere

/-- Scanning a text with further lines begins as scanning the text. -/
theorem map_extend_prefix_scan (hRule : rule.anchored = true)
    (hDone : Completion rule.body done) {a : Text} (b : Text) (hSkip : skip ≤ a.length) :
    (rule.scan skip atLineStart offset a).map (Match.extend (CodePoint.ofChar '\n' :: b)) <+:
      rule.scan skip atLineStart offset (a ++ CodePoint.ofChar '\n' :: b) := by
  induction a generalizing skip atLineStart offset with
  | nil => cases skip <;> exact List.nil_prefix
  | cons c a ih =>
    rw [List.cons_append]
    cases skip with
    | succ skip => exact ih (Nat.le_of_succ_le_succ hSkip)
    | zero =>
      rw [scan, scan]
      cases hRead : rule.readAt? atLineStart (c :: (a ++ CodePoint.ofChar '\n' :: b)) with
      | none =>
        rw [readAt?_eq_none_of_append (s := c :: a) hRead]
        exact ih (Nat.zero_le _)
      | some r =>
        by_cases hTaken : r.taken ≤ (c :: a).length
        · obtain ⟨r', hShort, rfl⟩ := readAt?_of_readAt?_append (s := c :: a) hRead hTaken
          rw [hShort]
          exact (List.prefix_cons_inj _).mpr (ih (Nat.sub_le_of_le_add hTaken))
        · have hNot : ¬ done (c :: a) :=
            hDone.not_of_read? (read?_of_readAt? hRead) (Nat.lt_of_not_le hTaken)
          have hNone := scan_eq_nil_of_not_done hRule hDone hNot 0 atLineStart offset
          rw [scan] at hNone
          rw [hNone]
          exact List.nil_prefix

/-- The matches of a text are the first matches of the text with further lines. -/
theorem map_extend_prefix_matchesIn (hRule : rule.anchored = true)
    (hDone : Completion rule.body done) (a b : Text) :
    (rule.matchesIn a).map (Match.extend (CodePoint.ofChar '\n' :: b)) <+:
      rule.matchesIn (a ++ CodePoint.ofChar '\n' :: b) :=
  map_extend_prefix_scan hRule hDone b (Nat.zero_le _)

end Rule

end DependencyMap
