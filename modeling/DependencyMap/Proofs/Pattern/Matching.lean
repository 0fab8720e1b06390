import DependencyMap.Proofs.Pattern.Extending

/-!
# Where matches begin and end

A match begins after the code points that the match before it has taken, and what it reads stands
where it begins. So a match that takes a whole text is the only one in it
(`Rule.matchesIn_eq_singleton`), and two texts are apart where nothing can be read from within the
first (`Rule.apart_of_read?_eq_none`) or where the first is taken as a whole
(`Rule.apart_of_read?_eq_some`).
-/

namespace DependencyMap

namespace Rule

variable {rule : Rule} {t : Text} {m : Match} {r : Reading}

theorem skip_le_of_mem_scan {skip : Nat} {atLineStart : Bool} {offset : Nat}
    (h : m ∈ rule.scan skip atLineStart offset t) : offset + skip ≤ m.offset := by
  induction t generalizing skip atLineStart offset with
  | nil => cases skip <;> cases h
  | cons c t ih =>
    cases skip with
    | succ skip =>
      have hTail := ih h
      omega
    | zero => exact (bounds_of_mem_scan h).1

theorem read?_of_readAt? {atLineStart : Bool} (h : rule.readAt? atLineStart t = some r) :
    rule.body.read? t = some r := by
  rw [readAt?] at h
  split at h
  · cases h
  · exact h

/-- What is read at a match stands there. -/
theorem read?_of_mem_scan {skip : Nat} {atLineStart : Bool} {offset : Nat}
    (h : m ∈ rule.scan skip atLineStart offset t) :
    rule.body.read? (t.drop (m.offset - offset)) = some m.reading := by
  induction t generalizing skip atLineStart offset with
  | nil => cases skip <;> cases h
  | cons c t ih =>
    have hTail {k : Nat} (h : m ∈ rule.scan k (c = '\n') (offset + 1) t) :
        rule.body.read? ((c :: t).drop (m.offset - offset)) = some m.reading := by
      have hFirst := (bounds_of_mem_scan h).1
      have hNext : m.offset - offset = m.offset - (offset + 1) + 1 := by omega
      rw [hNext, List.drop_succ_cons]
      exact ih h
    cases skip with
    | succ skip => exact hTail h
    | zero =>
      rw [scan] at h
      cases hRead : rule.readAt? atLineStart (c :: t) with
      | none =>
        rw [hRead] at h
        exact hTail h
      | some r =>
        simp only [hRead, List.mem_cons] at h
        rcases h with rfl | h
        · rw [Nat.sub_self, List.drop_zero]
          exact read?_of_readAt? hRead
        · exact hTail h

theorem matchesIn_cons_of_read? {c : CodePoint} (hRead : rule.body.read? (c :: t) = some r) :
    rule.matchesIn (c :: t) = ⟨0, r⟩ :: rule.scan (r.taken - 1) (c = '\n') 1 t := by
  have hHere : rule.readAt? true (c :: t) = some r := by
    rw [readAt?, Bool.not_true, Bool.and_false]
    exact hRead
  rw [matchesIn, scan, hHere]

/-- A match at the beginning passes over what it takes. -/
theorem eq_or_taken_le_of_mem_matchesIn (hRead : rule.body.read? t = some r)
    (h : m ∈ rule.matchesIn t) : m = ⟨0, r⟩ ∨ r.taken ≤ m.offset := by
  cases t with
  | nil => cases h
  | cons c t =>
    rw [matchesIn_cons_of_read? hRead] at h
    rcases List.mem_cons.mp h with rfl | h
    · exact Or.inl rfl
    · have hSkip := skip_le_of_mem_scan h
      exact Or.inr (by omega)

/-- A match that takes the whole text is the only one. -/
theorem matchesIn_eq_singleton (hne : t ≠ []) (hRead : rule.body.read? t = some r)
    (hTaken : r.taken = t.length) : rule.matchesIn t = [⟨0, r⟩] := by
  cases t with
  | nil => exact absurd rfl hne
  | cons c t =>
    have hTail : rule.scan (r.taken - 1) (c = '\n') 1 t = [] := by
      refine List.eq_nil_iff_forall_not_mem.mpr fun m hm => ?_
      have hSkip := skip_le_of_mem_scan hm
      have hBound := (bounds_of_mem_scan hm).2.1
      rw [hTaken, List.length_cons] at hSkip
      omega
    rw [matchesIn_cons_of_read? hRead, hTail]

theorem apart_of_read?_eq_none {a b : Text}
    (hNone : ∀ s, s ≠ [] → s <:+ a → rule.body.read? (s ++ CodePoint.ofChar '\n' :: b) = none) :
    rule.Apart a b := by
  rintro m hm ⟨hBegins, -⟩
  have hRead := read?_of_mem_scan hm
  rw [Nat.sub_zero, List.drop_append_of_le_length (Nat.le_of_lt hBegins),
    hNone _ (by simpa using hBegins) (List.drop_suffix _ _)] at hRead
  cases hRead

/-- A match of a rule that is bound to the starts of lines stands at the start of the text, if that
is the start of a line, or behind a line break. -/
theorem lineStart_of_mem_scan (hRule : rule.anchored = true) {skip : Nat} {atLineStart : Bool}
    {offset : Nat} (h : m ∈ rule.scan skip atLineStart offset t) :
    (m.offset = offset ∧ atLineStart = true) ∨
      ∃ k, m.offset = offset + k + 1 ∧ t[k]? = some (CodePoint.ofChar '\n') := by
  induction t generalizing skip atLineStart offset with
  | nil => cases skip <;> cases h
  | cons c t ih =>
    have hTail {n : Nat} (h : m ∈ rule.scan n (c = '\n') (offset + 1) t) :
        ∃ k, m.offset = offset + k + 1 ∧ (c :: t)[k]? = some (CodePoint.ofChar '\n') := by
      rcases ih h with ⟨hOffset, hBreak⟩ | ⟨k, hOffset, hBreak⟩
      · exact ⟨0, hOffset, congrArg some (of_decide_eq_true hBreak)⟩
      · exact ⟨k + 1, by omega, hBreak⟩
    cases skip with
    | succ skip => exact Or.inr (hTail h)
    | zero =>
      rw [scan] at h
      cases hRead : rule.readAt? atLineStart (c :: t) with
      | none =>
        rw [hRead] at h
        exact Or.inr (hTail h)
      | some r =>
        simp only [hRead, List.mem_cons] at h
        rcases h with rfl | h
        · rw [readAt?, hRule, Bool.true_and] at hRead
          cases atLineStart with
          | true => exact Or.inl ⟨rfl, rfl⟩
          | false => cases hRead
        · exact Or.inr (hTail h)

/-- A rule that is bound to the starts of lines has its matches apart from what follows a line if
what it reads at the start of the line ends on it. -/
theorem apart_of_anchored (hRule : rule.anchored = true) {a b : Text}
    (hLine : CodePoint.ofChar '\n' ∉ a)
    (hRead : ∀ r, rule.body.read? (a ++ CodePoint.ofChar '\n' :: b) = some r →
      r.taken ≤ a.length) : rule.Apart a b := by
  rintro m hm ⟨hBegins, hEnds⟩
  rcases lineStart_of_mem_scan hRule hm with ⟨hOffset, -⟩ | ⟨k, hOffset, hBreak⟩
  · have hHere := read?_of_mem_scan hm
    rw [hOffset, Nat.sub_zero, List.drop_zero] at hHere
    have hTaken := hRead m.reading hHere
    omega
  · rw [List.getElem?_append_left (by omega)] at hBreak
    exact hLine (List.mem_of_getElem? hBreak)

/-- A match that ends where the first text does is apart from the second. -/
theorem apart_of_read?_eq_some {a b : Text}
    (hRead : rule.body.read? (a ++ CodePoint.ofChar '\n' :: b) = some r)
    (hTaken : r.taken = a.length) : rule.Apart a b := by
  rintro m hm ⟨hBegins, hEnds⟩
  rcases eq_or_taken_le_of_mem_matchesIn hRead hm with rfl | hLater
  · simp only at hEnds
    omega
  · omega

end Rule

end DependencyMap
