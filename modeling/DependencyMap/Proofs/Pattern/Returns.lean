import DependencyMap.Proofs.Pattern.Signs
import DependencyMap.Proofs.Pattern.Ways
import DependencyMap.Proofs.Text.Returns

/-!
# Patterns and carriage returns before line breaks

A pattern overlooks carriage returns when each run in it takes both a carriage return and a line
break, or neither, and when no two of its parts can meet between the two signs
(`Pattern.overlooksReturns`, computed from the pattern). On a text with carriage returns before its
line breaks such a pattern has the same ways as on the text without, and besides only ways that end
between the two signs (`filter_ways_withReturns`). A rule whose pattern ends with neither sign has
therefore the same matches in both texts (`Rule.sightings_withReturns`).
-/

namespace DependencyMap

open Text

namespace Way

def withReturns (w : Way) : Way :=
  ⟨w.taken.withReturns, w.rest.withReturns, w.parts.map (Prod.map id Text.withReturns)⟩

/-- Of a text with carriage returns before its line breaks, the way does not end between the two. -/
def endsWhole (w : Way) : Bool := w.rest.head? ≠ some (CodePoint.ofChar '\n')

theorem endsWhole_withReturns (w : Way) : w.withReturns.endsWhole = true := by
  rw [endsWhole, decide_eq_true_eq]
  intro h
  obtain ⟨t, ht⟩ := List.head?_eq_some_iff.mp h
  exact withReturns_ne_break_cons w.rest t ht

/-- The way that takes nothing leaves a text that does not begin between the two. -/
theorem filter_stay_withReturns (t : Text) :
    [Way.stay t.withReturns].filter endsWhole = [Way.stay t].map withReturns :=
  List.filter_cons_of_pos (endsWhole_withReturns (Way.stay t))

theorem filter_stay_break (t : Text) :
    [Way.stay (CodePoint.ofChar '\n' :: t)].filter endsWhole = [] :=
  List.filter_cons_of_neg (by simp [endsWhole])

theorem withReturns_andThen (w v : Way) :
    (w.andThen v).withReturns = w.withReturns.andThen v.withReturns := by
  simp [withReturns, andThen, withReturns_append]

end Way

namespace Pattern

/-- The pattern reads a text with carriage returns before its line breaks like the text without. -/
def overlooksReturns : Pattern → Bool
  | .nothing => true
  | .text t => t.all fun c => c ≠ '\r' && c ≠ '\n'
  | .one p => !p '\r' && !p '\n'
  | .many p => p '\r' == p '\n'
  | .seq (.one p) (.many q) => p '\r' == p '\n' && q '\r' == q '\n' && (!p '\n' || q '\n')
  | .seq first second =>
    first.overlooksReturns && second.overlooksReturns &&
      (!first.mayEnd '\r' || !second.mayBegin '\n')
  | .choice first second => first.overlooksReturns && second.overlooksReturns
  | .keep _ part => part.overlooksReturns

variable {p first second : Pattern} {t u : Text}

theorem filter_map_andThen (w : Way) (l : List Way) :
    (l.map w.andThen).filter Way.endsWhole = (l.filter Way.endsWhole).map w.andThen := by
  rw [List.filter_map]
  rfl

theorem map_withReturns_andThen (w : Way) (l : List Way) :
    (l.map Way.withReturns).map w.withReturns.andThen = (l.map w.andThen).map Way.withReturns := by
  rw [List.map_map, List.map_map]
  exact List.map_congr_left fun v _ => (Way.withReturns_andThen w v).symm

theorem withReturns_step {c : CodePoint} (h : c ≠ '\n') (t : Text) :
    (Way.step c t).withReturns = .step c (withReturns t) := by
  rw [Way.withReturns, withReturns_cons h]
  rfl

/-- The two signs that stand in the place of a line break, one after the other. -/
theorem andThen_break (t : Text) :
    (Way.step '\r' (CodePoint.ofChar '\n' :: withReturns t)).andThen ∘
      (Way.step '\n' (withReturns t)).andThen = (Way.step '\n' t).withReturns.andThen := by
  funext v
  simp [Way.andThen, Way.withReturns, withReturns_break]

theorem filter_runWays_withReturns {q : CodePoint → Bool} (h : q '\r' = q '\n') (t : Text) :
    (runWays q (withReturns t)).filter Way.endsWhole = (runWays q t).map Way.withReturns := by
  induction t with
  | nil => exact Way.filter_stay_withReturns []
  | cons c t ih =>
    by_cases hc : q c
    · rw [runWays_cons_of_pos hc, List.map_append, ← Way.filter_stay_withReturns,
        ← map_withReturns_andThen, ← ih, ← filter_map_andThen]
      by_cases hBreak : c = '\n'
      · subst hBreak
        have hReturn : q '\r' := h.trans hc
        rw [withReturns_break, runWays_cons_of_pos hReturn, runWays_cons_of_pos hc,
          List.filter_append, List.map_append, List.filter_append, filter_map_andThen _ [_],
          Way.filter_stay_break, List.map_nil, List.append_nil, List.map_map, andThen_break]
      · rw [withReturns_cons hBreak, runWays_cons_of_pos hc, List.filter_append,
          withReturns_step hBreak]
    · rw [runWays_cons_of_neg hc, ← Way.filter_stay_withReturns]
      by_cases hBreak : c = '\n'
      · subst hBreak
        rw [withReturns_break, runWays_cons_of_neg (h ▸ hc)]
      · rw [withReturns_cons hBreak, runWays_cons_of_neg hc]

theorem filter_ways_one_withReturns {q : CodePoint → Bool} (hReturn : q '\r' = false)
    (hBreak : q '\n' = false) (t : Text) :
    ((one q).ways (withReturns t)).filter Way.endsWhole =
      ((one q).ways t).map Way.withReturns := by
  cases t with
  | nil => rfl
  | cons c t =>
    by_cases hc : c = '\n'
    · subst hc
      rw [withReturns_break, ways, ways, hReturn, hBreak]
      rfl
    · rw [withReturns_cons hc, ways, ways]
      split
      · rw [← withReturns_step hc, List.filter_cons_of_pos (Way.endsWhole_withReturns _)]
        rfl
      · rfl

/-- A run of one sign or more. -/
theorem filter_ways_many1_withReturns {q q' : CodePoint → Bool} (h : q '\r' = q '\n')
    (h' : q' '\r' = q' '\n') (hRun : q '\n' → q' '\n') (t : Text) :
    ((seq (one q) (many q')).ways (withReturns t)).filter Way.endsWhole =
      ((seq (one q) (many q')).ways t).map Way.withReturns := by
  have hWays {c : CodePoint} (t : Text) : (seq (one q) (many q')).ways (c :: t) =
      if q c then (runWays q' t).map (Way.step c t).andThen else [] := by
    rw [ways, ways]
    split
    · rw [List.flatMap_singleton]
      rfl
    · rfl
  cases t with
  | nil => rfl
  | cons c t =>
    by_cases hc : q c
    · rw [hWays, if_pos hc, ← map_withReturns_andThen, ← filter_runWays_withReturns h',
        ← filter_map_andThen]
      by_cases hBreak : c = '\n'
      · subst hBreak
        rw [withReturns_break, hWays, if_pos (h.trans hc), runWays_cons_of_pos (hRun hc),
          List.map_append, List.filter_append, filter_map_andThen _ [_], Way.filter_stay_break,
          List.map_nil, List.append_nil, List.map_map, andThen_break]
      · rw [withReturns_cons hBreak, hWays, if_pos hc, withReturns_step hBreak]
    · rw [hWays, if_neg hc]
      by_cases hBreak : c = '\n'
      · subst hBreak
        rw [withReturns_break, hWays, if_neg (h ▸ hc)]
        rfl
      · rw [withReturns_cons hBreak, hWays, if_neg hc]
        rfl

theorem prefix_of_prefix_withReturns (hu : ∀ c ∈ u, c ≠ '\r' ∧ c ≠ '\n')
    (h : u <+: withReturns t) : u <+: t := by
  induction u generalizing t with
  | nil => exact List.nil_prefix
  | cons c u ih =>
    obtain ⟨⟨hReturn, -⟩, hTail⟩ := List.forall_mem_cons.mp hu
    cases t with
    | nil => exact absurd (List.prefix_nil.mp h) (List.cons_ne_nil c u)
    | cons d t =>
      by_cases hd : d = '\n'
      · subst hd
        rw [withReturns_break] at h
        exact absurd (List.cons_prefix_cons.mp h).1 hReturn
      · rw [withReturns_cons hd] at h
        obtain ⟨rfl, hPrefix⟩ := List.cons_prefix_cons.mp h
        exact List.cons_prefix_cons.mpr ⟨rfl, ih hTail hPrefix⟩

theorem withReturns_append_of_ne (hu : ∀ c ∈ u, c ≠ '\r' ∧ c ≠ '\n') (s : Text) :
    withReturns (u ++ s) = u ++ withReturns s := by
  induction u with
  | nil => rfl
  | cons c u ih =>
    obtain ⟨⟨-, hBreak⟩, hTail⟩ := List.forall_mem_cons.mp hu
    rw [List.cons_append, withReturns_cons hBreak, ih hTail, List.cons_append]

theorem filter_ways_text_withReturns (hu : ∀ c ∈ u, c ≠ '\r' ∧ c ≠ '\n') (t : Text) :
    ((text u).ways (withReturns t)).filter Way.endsWhole =
      ((text u).ways t).map Way.withReturns := by
  rw [ways, ways]
  by_cases h : u <+: t
  · obtain ⟨s, rfl⟩ := h
    have hSame : withReturns u = u := by
      have hAppend := withReturns_append_of_ne hu []
      rwa [List.append_nil, withReturns_nil, List.append_nil] at hAppend
    have hWay : (⟨u, withReturns s, []⟩ : Way) = (⟨u, s, []⟩ : Way).withReturns := by
      rw [Way.withReturns, hSame]
      rfl
    have hPrefix (r : Text) : u.isPrefixOf (u ++ r) :=
      List.isPrefixOf_iff_prefix.mpr (List.prefix_append u r)
    rw [withReturns_append_of_ne hu, if_pos (hPrefix _), if_pos (hPrefix _), List.drop_left,
      List.drop_left, hWay, List.filter_cons_of_pos (Way.endsWhole_withReturns _)]
    rfl
  · rw [if_neg fun hPrefix => h (List.isPrefixOf_iff_prefix.mp hPrefix),
      if_neg fun hPrefix => h (prefix_of_prefix_withReturns hu
        (List.isPrefixOf_iff_prefix.mp hPrefix))]
    rfl

/-- Before a line break in a text with carriage returns there stands one. -/
theorem exists_concat_of_withReturns_eq {s : Text}
    (h : withReturns t = u ++ CodePoint.ofChar '\n' :: s) :
    ∃ u', u = u' ++ [CodePoint.ofChar '\r'] := by
  induction t generalizing u with
  | nil => exact absurd h.symm (by simp)
  | cons c t ih =>
    cases u with
    | nil => exact absurd h (withReturns_ne_break_cons _ _)
    | cons d u =>
      by_cases hc : c = '\n'
      · subst hc
        rw [withReturns_break, List.cons_append] at h
        obtain ⟨rfl, hTail⟩ := List.cons_eq_cons.mp h
        cases u with
        | nil => exact ⟨[], rfl⟩
        | cons d u =>
          obtain ⟨rfl, hAfter⟩ := List.cons_eq_cons.mp hTail
          obtain ⟨u', rfl⟩ := ih hAfter
          exact ⟨_ :: _ :: u', rfl⟩
      · rw [withReturns_cons hc, List.cons_append] at h
        obtain ⟨rfl, hTail⟩ := List.cons_eq_cons.mp h
        obtain ⟨u', rfl⟩ := ih hTail
        exact ⟨_ :: u', rfl⟩

/-- A pattern that does not end with a carriage return does not end between the two signs. -/
theorem endsWhole_of_mem_ways {w : Way} (h : p.mayEnd '\r' = false)
    (hw : w ∈ p.ways (withReturns t)) : w.endsWhole = true := by
  obtain ⟨hTakes, hText⟩ := takes_of_mem_ways hw
  rw [Way.endsWhole, decide_eq_true_eq]
  intro hHead
  obtain ⟨s, hRest⟩ := List.head?_eq_some_iff.mp hHead
  rw [hRest] at hText
  obtain ⟨u, hTaken⟩ := exists_concat_of_withReturns_eq hText
  rw [hTaken] at hTakes
  rw [mayEnd_of_takes hTakes] at h
  cases h

/-- A pattern that does not begin with a line break stays between the two signs. -/
theorem filter_ways_break_eq_nil (h : p.mayBegin '\n' = false) {w : Way}
    (hw : w.endsWhole = false) : (p.ways w.rest).filter Way.endsWhole = [] := by
  rw [Way.endsWhole, decide_eq_false_iff_not, not_not] at hw
  obtain ⟨s, hRest⟩ := List.head?_eq_some_iff.mp hw
  rw [hRest, List.filter_eq_nil_iff]
  intro v hv
  obtain ⟨hTakes, hText⟩ := takes_of_mem_ways hv
  obtain ⟨taken, rest, parts⟩ := v
  cases taken with
  | nil =>
    obtain rfl : CodePoint.ofChar '\n' :: s = rest := hText
    simp [Way.endsWhole]
  | cons c taken =>
    obtain ⟨rfl, -⟩ := List.cons_eq_cons.mp hText
    rw [mayBegin_of_takes hTakes] at h
    cases h

theorem filter_ways_seq_withReturns
    (hFirst : (first.ways (withReturns t)).filter Way.endsWhole =
      (first.ways t).map Way.withReturns)
    (hSecond : ∀ s, (second.ways (withReturns s)).filter Way.endsWhole =
      (second.ways s).map Way.withReturns)
    (hMeet : first.mayEnd '\r' = false ∨ second.mayBegin '\n' = false) :
    ((seq first second).ways (withReturns t)).filter Way.endsWhole =
      ((seq first second).ways t).map Way.withReturns := by
  have hBetween : ∀ w ∈ first.ways (withReturns t), w.endsWhole = false →
      ((second.ways w.rest).filter Way.endsWhole).map w.andThen = [] := by
    intro w hw hEnds
    rcases hMeet with hMeet | hMeet
    · rw [endsWhole_of_mem_ways hMeet hw] at hEnds
      cases hEnds
    · rw [filter_ways_break_eq_nil hMeet hEnds, List.map_nil]
  calc ((first.ways (withReturns t)).flatMap
        fun w => (second.ways w.rest).map w.andThen).filter Way.endsWhole
      = (first.ways (withReturns t)).flatMap
          fun w => ((second.ways w.rest).filter Way.endsWhole).map w.andThen := by
        simp only [List.filter_flatMap, filter_map_andThen]
    _ = ((first.ways (withReturns t)).filter Way.endsWhole).flatMap
          fun w => ((second.ways w.rest).filter Way.endsWhole).map w.andThen :=
        (flatMap_filter_of_nil hBetween).symm
    _ = (first.ways t).flatMap fun w =>
          ((second.ways w.rest.withReturns).filter Way.endsWhole).map w.withReturns.andThen := by
        rw [hFirst, List.flatMap_map]
        rfl
    _ = (first.ways t).flatMap fun w =>
          ((second.ways w.rest).map w.andThen).map Way.withReturns := by
        simp only [hSecond, map_withReturns_andThen]
    _ = ((seq first second).ways t).map Way.withReturns := List.map_flatMap.symm

/-- The ways of the pattern on the text with carriage returns are its ways on the text without, and
others that end between a carriage return and a line break. -/
theorem filter_ways_withReturns (h : p.overlooksReturns) (t : Text) :
    (p.ways (withReturns t)).filter Way.endsWhole = (p.ways t).map Way.withReturns := by
  induction p using overlooksReturns.induct generalizing t with
  | case1 => exact Way.filter_stay_withReturns t
  | case2 u =>
    apply filter_ways_text_withReturns
    simpa [overlooksReturns] using h
  | case3 q =>
    rw [overlooksReturns, Bool.and_eq_true, Bool.not_eq_true', Bool.not_eq_true'] at h
    exact filter_ways_one_withReturns h.1 h.2 t
  | case4 q => exact filter_runWays_withReturns (eq_of_beq h) t
  | case5 q q' =>
    simp only [overlooksReturns, Bool.and_eq_true, beq_iff_eq] at h
    obtain ⟨⟨hFirst, hRun⟩, hBoth⟩ := h
    refine filter_ways_many1_withReturns hFirst hRun (fun hBreak => ?_) t
    rwa [hBreak, Bool.not_true, Bool.false_or] at hBoth
  | case6 first second hNotRun ih₁ ih₂ =>
    simp only [overlooksReturns, Bool.and_eq_true, Bool.or_eq_true, Bool.not_eq_true'] at h
    obtain ⟨⟨hFirst, hSecond⟩, hMeet⟩ := h
    exact filter_ways_seq_withReturns (ih₁ hFirst t) (ih₂ hSecond) hMeet
  | case7 first second ih₁ ih₂ =>
    rw [overlooksReturns, Bool.and_eq_true] at h
    rw [ways, ways, List.filter_append, ih₁ h.1, ih₂ h.2, List.map_append]
  | case8 slot part ih =>
    rw [overlooksReturns] at h
    have hEnds : (Way.endsWhole ∘ fun w : Way => { w with parts := (slot, w.taken) :: w.parts }) =
        Way.endsWhole := rfl
    rw [ways, ways, List.filter_map, hEnds, ih h, List.map_map, List.map_map]
    rfl

/-- A pattern that does not end with a carriage return has the same ways in both texts. -/
theorem ways_withReturns (h : p.overlooksReturns) (hEnd : p.mayEnd '\r' = false) (t : Text) :
    p.ways (withReturns t) = (p.ways t).map Way.withReturns := by
  rw [← filter_ways_withReturns h, List.filter_eq_self.mpr fun w => endsWhole_of_mem_ways hEnd]

/-- The readings of the two texts: both have none, or they take the same text and keep the same
parts but for the carriage returns. -/
theorem read?_withReturns (h : p.overlooksReturns) (hEnd : p.mayEnd '\r' = false) (t : Text) :
    (p.read? t = none ∧ p.read? (withReturns t) = none) ∨
      ∃ r r', p.read? t = some r ∧ p.read? (withReturns t) = some r' ∧
        r'.taken = (withReturns (t.take r.taken)).length ∧
        r'.parts = r.parts.map (Prod.map id withReturns) := by
  have hHead : (p.ways (withReturns t)).head? = (p.ways t).head?.map Way.withReturns := by
    rw [ways_withReturns h hEnd, List.head?_map]
  cases hWay : (p.ways t).head? with
  | none =>
    rw [hWay] at hHead
    exact Or.inl ⟨read?_eq_none_of_head?_ways hWay, read?_eq_none_of_head?_ways hHead⟩
  | some w =>
    rw [hWay] at hHead
    obtain ⟨r, hRead, hTaken, hParts⟩ := exists_read?_of_head?_ways hWay
    obtain ⟨r', hRead', hTaken', hParts'⟩ := exists_read?_of_head?_ways hHead
    refine Or.inr ⟨r, r', hRead, hRead', ?_, hParts'.trans (by rw [hParts, Way.withReturns])⟩
    have hText := (takes_of_mem_ways (List.mem_of_head? hWay)).2
    rw [hTaken', hTaken, hText, List.take_left, Way.withReturns]

end Pattern

/-! ### Matches -/

/-- What is seen of a match in a text: what stands before it, and the parts that it keeps. -/
structure Sighting where
  before : Text
  parts : List (Slot × Text)

namespace Sighting

def withReturns (s : Sighting) : Sighting :=
  ⟨s.before.withReturns, s.parts.map (Prod.map id Text.withReturns)⟩

def part? (s : Sighting) (slot : Slot) : Option Text :=
  (s.parts.find? fun part => part.1 = slot).map (·.2)

theorem part?_withReturns (s : Sighting) (slot : Slot) :
    s.withReturns.part? slot = (s.part? slot).map Text.withReturns := by
  rw [part?, withReturns, List.find?_map, part?, Option.map_map, Option.map_map]
  rfl

def line (s : Sighting) : Nat := s.before.count (CodePoint.ofChar '\n') + 1

theorem line_withReturns (s : Sighting) : s.withReturns.line = s.line :=
  congrArg (· + 1) (count_withReturns s.before)

end Sighting

def Match.sighting (t : Text) (m : Match) : Sighting := ⟨t.take m.offset, m.reading.parts⟩

theorem Match.part?_sighting (t : Text) (m : Match) (slot : Slot) :
    (m.sighting t).part? slot = m.part? slot := (Reading.part?_eq_find? m.reading slot).symm

namespace Rule

/-- The rule has the same matches in a text with carriage returns before its line breaks. -/
def overlooksReturns (rule : Rule) : Bool :=
  rule.body.overlooksReturns && !rule.body.mayEnd '\r' && !rule.body.nullable &&
    !rule.body.mayBegin '\n'

variable {rule : Rule} {t : Text}

theorem readAt?_break_eq_none (hNullable : rule.body.nullable = false)
    (hBegin : rule.body.mayBegin '\n' = false) (atLineStart : Bool) (t : Text) :
    rule.readAt? atLineStart (CodePoint.ofChar '\n' :: t) = none := by
  have hNone : rule.body.read? (CodePoint.ofChar '\n' :: t) = none :=
    Pattern.run_eq_none_of_stops hNullable (Pattern.stops_cons.mpr hBegin)
  rw [readAt?, hNone, ite_self]

theorem readAt?_withReturns (h : rule.body.overlooksReturns) (hEnd : rule.body.mayEnd '\r' = false)
    (atLineStart : Bool) (t : Text) :
    (rule.readAt? atLineStart t = none ∧ rule.readAt? atLineStart (withReturns t) = none) ∨
      ∃ r r', rule.readAt? atLineStart t = some r ∧
        rule.readAt? atLineStart (withReturns t) = some r' ∧
        r'.taken = (withReturns (t.take r.taken)).length ∧
        r'.parts = r.parts.map (Prod.map id withReturns) := by
  rw [readAt?, readAt?]
  split
  · exact Or.inl ⟨rfl, rfl⟩
  · exact Pattern.read?_withReturns h hEnd t

/-- Nothing is read before the carriage return of a line break. -/
theorem readAt?_return_eq_none (h : rule.body.overlooksReturns)
    (hEnd : rule.body.mayEnd '\r' = false) (hNullable : rule.body.nullable = false)
    (hBegin : rule.body.mayBegin '\n' = false) (atLineStart : Bool) (t : Text) :
    rule.readAt? atLineStart
      (CodePoint.ofChar '\r' :: CodePoint.ofChar '\n' :: withReturns t) = none := by
  rcases readAt?_withReturns h hEnd atLineStart (CodePoint.ofChar '\n' :: t) with
    ⟨-, hNone⟩ | ⟨r, -, hSome, -⟩
  · exact hNone
  · rw [readAt?_break_eq_none hNullable hBegin] at hSome
    cases hSome

/-- What is left to skip behind the first sign that is taken. -/
theorem length_withReturns_take_cons {c : CodePoint} (hc : c ≠ '\n') (n : Nat) (t : Text) :
    (withReturns ((c :: t).take n)).length - 1 = (withReturns (t.take (n - 1))).length := by
  cases n with
  | zero => rfl
  | succ n =>
    rw [List.take_succ_cons, withReturns_cons hc]
    rfl

/-- Scanning the two texts from the same place on. -/
theorem scan_withReturns (h : rule.overlooksReturns) (before : Text) (skip : Nat)
    (atLineStart : Bool) (t : Text) :
    (rule.scan (withReturns (t.take skip)).length atLineStart (withReturns before).length
        (withReturns t)).map (Match.sighting (withReturns (before ++ t))) =
      (rule.scan skip atLineStart before.length t).map
        fun m => (m.sighting (before ++ t)).withReturns := by
  simp only [overlooksReturns, Bool.and_eq_true, Bool.not_eq_true'] at h
  obtain ⟨⟨⟨hBody, hEnd⟩, hNullable⟩, hBegin⟩ := h
  induction t generalizing before skip atLineStart with
  | nil => cases skip <;> rfl
  | cons c t ih =>
    have hText : before ++ c :: t = (before ++ [c]) ++ t := by simp
    have hLength : (before ++ [c]).length = before.length + 1 := by simp
    have hReturns : (withReturns (before ++ [c])).length =
        (withReturns before).length + (withReturns [c]).length := by
      rw [withReturns_append, List.length_append]
    have hNext (k : Nat) (b : Bool) := ih (before ++ [c]) k b
    rw [← hText, hLength, hReturns] at hNext
    by_cases hc : c = '\n'
    · subst hc
      have hBreak := readAt?_break_eq_none hNullable hBegin
      cases skip with
      | succ skip => exact hNext skip true
      | zero =>
        rw [withReturns_break, List.take_zero, withReturns_nil, List.length_nil, scan,
          readAt?_return_eq_none hBody hEnd hNullable hBegin, scan, hBreak, scan, hBreak]
        exact hNext 0 true
    · have hSign : withReturns [c] = [c] := withReturns_cons hc []
      rw [hSign, List.length_singleton] at hNext
      cases skip with
      | succ skip =>
        rw [withReturns_cons hc, List.take_succ_cons, withReturns_cons hc, List.length_cons, scan,
          scan]
        exact hNext skip (c = '\n')
      | zero =>
        rw [List.take_zero, withReturns_nil, List.length_nil, withReturns_cons hc, scan, scan]
        rcases readAt?_withReturns hBody hEnd atLineStart (c :: t) with
          ⟨hNone, hNone'⟩ | ⟨r, r', hSome, hSome', hTaken, hParts⟩
        · rw [withReturns_cons hc] at hNone'
          rw [hNone, hNone']
          exact hNext 0 (c = '\n')
        · rw [withReturns_cons hc] at hSome'
          have hHere : Match.sighting (withReturns (before ++ c :: t))
              ⟨(withReturns before).length, r'⟩ =
                (Match.sighting (before ++ c :: t) ⟨before.length, r⟩).withReturns := by
            rw [Match.sighting, Match.sighting, Sighting.withReturns, withReturns_append,
              List.take_left, List.take_left, hParts]
          -- the scan goes on behind what is taken, in both texts
          have hSkip : r'.taken - 1 = (withReturns (t.take (r.taken - 1))).length := by
            rw [hTaken, length_withReturns_take_cons hc]
          simp only [hSome, hSome', List.map_cons, hHere, hSkip, hNext]

/-- A rule that overlooks carriage returns has the same matches in both texts. -/
theorem sightings_withReturns (h : rule.overlooksReturns) (t : Text) :
    (rule.matchesIn (withReturns t)).map (Match.sighting (withReturns t)) =
      (rule.matchesIn t).map fun m => (m.sighting t).withReturns :=
  scan_withReturns h [] 0 true t

end Rule

end DependencyMap
