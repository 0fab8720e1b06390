import DependencyMap.Pattern.Basic
import DependencyMap.Pattern.Outcomes

/-!
# Running patterns

Equations for `Pattern.run` on a text whose beginning is known. A word, one code point and a
sequence run in one way only. A run of code points (`many`) may also give code points back: where
the continuation accepts after the longest run, that is the answer (`run_many_append`), and where
the run cannot begin there is nothing to give back (`run_many_of_stops`).

The continuation stays arbitrary, so the equations chain through `sequence`, `optional` and `keep`.

A rule that may begin only at the start of a line has at most one match on a text without line
breaks, and that match is what its pattern reads at the beginning. A rule that can be read at no end
of a text has no match in it.
-/

namespace DependencyMap

namespace Pattern

/-- The text does not go on with a code point that satisfies `p`. -/
def Stops (p : CodePoint → Bool) (t : Text) : Prop := ∀ c ∈ t.head?, p c = false

@[simp] theorem stops_nil (p : CodePoint → Bool) : Stops p [] := by
  intro c hc
  cases hc

@[simp] theorem stops_cons {p : CodePoint → Bool} {c : CodePoint} {t : Text} :
    Stops p (c :: t) ↔ p c = false := by
  simp [Stops]

section Equations

variable {α : Type} {p : CodePoint → Bool} {n : Nat} {t w rest : Text} {c : CodePoint}
  {kept : List Kept} {next : Reading → Option α} {a : α}

@[simp] theorem run_seq (first second : Pattern) (r : Reading) :
    (seq first second).run r next = first.run r fun r => second.run r next := rfl

@[simp] theorem run_sequence_nil (r : Reading) : (sequence []).run r next = next r := rfl

@[simp] theorem run_sequence_cons (part : Pattern) (parts : List Pattern) (r : Reading) :
    (sequence (part :: parts)).run r next = part.run r fun r => (sequence parts).run r next := rfl

@[simp] theorem run_keep (slot : Slot) (part : Pattern) (r : Reading) :
    (keep slot part).run r next = part.run r fun r' =>
      next { r' with kept := ⟨slot, r.rest, r'.taken - r.taken⟩ :: r'.kept } := rfl

theorem run_text_append (t rest : Text) :
    (text t).run ⟨n, t ++ rest, kept⟩ next = next ⟨n + t.length, rest, kept⟩ := by
  simp [run]

theorem run_text_eq_none {r : Reading} (h : ¬ t <+: r.rest) : (text t).run r next = none := by
  rw [run, if_neg]
  exact fun hPrefix => h (List.isPrefixOf_iff_prefix.mp hPrefix)

theorem run_one_cons (h : p c) :
    (one p).run ⟨n, c :: rest, kept⟩ next = next ⟨n + 1, rest, kept⟩ := by
  simp [run, h]

theorem run_one_of_stops {r : Reading} (h : Stops p r.rest) : (one p).run r next = none := by
  obtain ⟨n, rest, kept⟩ := r
  cases rest with
  | nil => rfl
  | cons c rest =>
    have hc : p c = false := stops_cons.mp h
    simp [run, hc]

theorem run_many_of_stops (h : Stops p rest) :
    (many p).run ⟨n, rest, kept⟩ next = next ⟨n, rest, kept⟩ := by
  rw [run_eq_findSome?, outcomes]
  cases rest with
  | nil => simp [runOutcomes]
  | cons c rest =>
    have hc : p c = false := stops_cons.mp h
    simp [runOutcomes, hc]

/-- A run that takes one code point may give it back. -/
theorem run_many_cons (h : p c) :
    (many p).run ⟨n, c :: rest, kept⟩ next =
      ((many p).run ⟨n + 1, rest, kept⟩ next).or (next ⟨n, c :: rest, kept⟩) := by
  rw [run_eq_findSome?, run_eq_findSome?, outcomes, outcomes, runOutcomes, if_pos h,
    List.findSome?_append]
  simp

/-- The longest run is tried first. -/
theorem run_many_append (hw : ∀ c ∈ w, p c) (hStop : Stops p rest)
    (hNext : next ⟨n + w.length, rest, kept⟩ = some a) :
    (many p).run ⟨n, w ++ rest, kept⟩ next = some a := by
  induction w generalizing n with
  | nil => rwa [List.nil_append, run_many_of_stops hStop]
  | cons c w ih =>
    have hTail : ∀ d ∈ w, p d := fun d hd => hw d (List.mem_cons_of_mem _ hd)
    have hLength : n + 1 + w.length = n + (c :: w).length := by
      rw [List.length_cons]
      omega
    rw [List.cons_append, run_many_cons (hw c List.mem_cons_self), ih hTail (hLength ▸ hNext),
      Option.some_or]

/-- A run fails when the continuation fails wherever the run may end. -/
theorem run_many_eq_none (hNone : ∀ m s, s <:+ rest → next ⟨m, s, kept⟩ = none) :
    (many p).run ⟨n, rest, kept⟩ next = none := by
  induction rest generalizing n with
  | nil => rw [run_many_of_stops (stops_nil p), hNone n [] List.suffix_rfl]
  | cons c rest ih =>
    have hHere := hNone n (c :: rest) List.suffix_rfl
    cases hc : p c with
    | false => rw [run_many_of_stops (stops_cons.mpr hc), hHere]
    | true =>
      rw [run_many_cons hc, hHere, ih fun m s hs => hNone m s (hs.trans (List.suffix_cons c rest))]
      rfl

theorem run_many1_append (hne : w ≠ []) (hw : ∀ c ∈ w, p c) (hStop : Stops p rest)
    (hNext : next ⟨n + w.length, rest, kept⟩ = some a) :
    (many1 p).run ⟨n, w ++ rest, kept⟩ next = some a := by
  cases w with
  | nil => exact absurd rfl hne
  | cons c w =>
    have hLength : n + 1 + w.length = n + (c :: w).length := by
      rw [List.length_cons]
      omega
    rw [many1, run_seq, List.cons_append, run_one_cons (hw c List.mem_cons_self)]
    exact run_many_append (fun d hd => hw d (List.mem_cons_of_mem _ hd)) hStop (hLength ▸ hNext)

theorem run_many1_of_stops {r : Reading} (h : Stops p r.rest) : (many1 p).run r next = none := by
  rw [many1, run_seq, run_one_of_stops h]

theorem run_many1_eq_none (hNone : ∀ m s, s <:+ rest → next ⟨m, s, kept⟩ = none) :
    (many1 p).run ⟨n, rest, kept⟩ next = none := by
  cases rest with
  | nil => exact run_many1_of_stops (stops_nil p)
  | cons c rest =>
    cases hc : p c with
    | false => exact run_many1_of_stops (stops_cons.mpr hc)
    | true =>
      rw [many1, run_seq, run_one_cons hc]
      exact run_many_eq_none fun m s hs => hNone m s (hs.trans (List.suffix_cons c rest))

/-- A run of exactly one code point has nothing to give back. -/
theorem run_many1_single (hc : p c) (hStop : Stops p rest) :
    (many1 p).run ⟨n, c :: rest, kept⟩ next = next ⟨n + 1, rest, kept⟩ := by
  rw [many1, run_seq, run_one_cons hc, run_many_of_stops hStop]

theorem run_optional_of_some {part : Pattern} {r : Reading} (h : part.run r next = some a) :
    (optional part).run r next = some a := by
  rw [optional, run, h]

theorem run_optional_of_none {part : Pattern} {r : Reading} (h : part.run r next = none) :
    (optional part).run r next = next r := by
  rw [optional, run, h]
  rfl

end Equations

/-- A sequence that begins with a word is read only where the word stands. -/
theorem read?_sequence_text_eq_none {w t : Text} {parts : List Pattern} (h : ¬ w <+: t) :
    (sequence (text w :: parts)).read? t = none := by
  rw [read?, run_sequence_cons]
  exact run_text_eq_none h

end Pattern

/-! ### Matches on one line -/

namespace Rule

variable {rule : Rule} {t : Text}

theorem scan_eq_nil (hNone : ∀ s, s <:+ t → rule.body.read? s = none) (skip : Nat)
    (atLineStart : Bool) (offset : Nat) : rule.scan skip atLineStart offset t = [] := by
  induction t generalizing skip atLineStart offset with
  | nil => cases skip <;> rfl
  | cons c t ih =>
    have hTail : ∀ s, s <:+ t → rule.body.read? s = none :=
      fun s hs => hNone s (hs.trans (List.suffix_cons c t))
    cases skip with
    | succ skip => exact ih hTail skip _ _
    | zero =>
      have hHere : rule.readAt? atLineStart (c :: t) = none := by
        rw [readAt?, hNone (c :: t) List.suffix_rfl, ite_self]
      rw [scan, hHere]
      exact ih hTail 0 _ _

theorem matchesIn_eq_nil (hNone : ∀ s, s <:+ t → rule.body.read? s = none) :
    rule.matchesIn t = [] := scan_eq_nil hNone 0 true 0

theorem scan_of_anchored (hRule : rule.anchored = true) (hLine : CodePoint.ofChar '\n' ∉ t)
    (skip offset : Nat) : rule.scan skip false offset t = [] := by
  induction t generalizing skip offset with
  | nil => cases skip <;> rfl
  | cons c t ih =>
    have hc : decide (c = CodePoint.ofChar '\n') = false :=
      decide_eq_false fun h => hLine (h ▸ List.mem_cons_self)
    have hTail : CodePoint.ofChar '\n' ∉ t := fun h => hLine (List.mem_cons_of_mem _ h)
    cases skip with
    | succ skip =>
      rw [scan, hc]
      exact ih hTail skip _
    | zero =>
      have hHere : rule.readAt? false (c :: t) = none := by
        rw [readAt?, hRule]
        rfl
      rw [scan, hHere, hc]
      exact ih hTail 0 _

/-- On one line an anchored rule matches what it reads at the beginning, and nothing else. -/
theorem matchesIn_of_anchored (hRule : rule.anchored = true) (hne : t ≠ [])
    (hLine : CodePoint.ofChar '\n' ∉ t) :
    rule.matchesIn t = ((rule.body.read? t).map fun r => ⟨0, r⟩).toList := by
  cases t with
  | nil => exact absurd rfl hne
  | cons c t =>
    have hc : decide (c = CodePoint.ofChar '\n') = false :=
      decide_eq_false fun h => hLine (h ▸ List.mem_cons_self)
    have hTail : CodePoint.ofChar '\n' ∉ t := fun h => hLine (List.mem_cons_of_mem _ h)
    have hHere : rule.readAt? true (c :: t) = rule.body.read? (c :: t) := by
      rw [readAt?, Bool.not_true, Bool.and_false]
      rfl
    rw [matchesIn, scan, hHere, hc]
    cases rule.body.read? (c :: t) with
    | none => exact scan_of_anchored hRule hTail 0 _
    | some r =>
      simp only [scan_of_anchored hRule hTail]
      rfl

/-- The same where the rule reads nothing of an empty text. -/
theorem matchesIn_eq_toList_of_anchored (hRule : rule.anchored = true)
    (hNothing : rule.body.read? [] = none) (hLine : CodePoint.ofChar '\n' ∉ t) :
    rule.matchesIn t = ((rule.body.read? t).map fun r => ⟨0, r⟩).toList := by
  by_cases hne : t = []
  · subst hne
    rw [hNothing]
    rfl
  · exact matchesIn_of_anchored hRule hne hLine

end Rule

end DependencyMap
