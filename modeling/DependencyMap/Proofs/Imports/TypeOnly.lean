import DependencyMap.Proofs.Imports.Reading
import DependencyMap.Proofs.Pattern.Taking

/-!
# The word `type` behind `import`

A line may go on with `type` behind `import`, and then the word is either a mark for types or the
name to which a default export is bound. `Clause` tells, with what is kept, which texts the rule for
bindings takes behind `import` and white space. So for every outcome of the pattern, in whatever
order they are tried, it is known how the line goes on where `type` stands (`Clause.at_type`) and
what is kept where `from` and a target stand (`Clause.eq_target_of_from`).
-/

namespace DependencyMap

open Pattern

/-! ### Parts of a line -/

def IsGap (s : Text) : Prop := s ≠ [] ∧ ∀ c ∈ s, c.isBlank

instance (s : Text) : Decidable (IsGap s) := inferInstanceAs (Decidable (_ ∧ _))

/-- A text from the word `from` to the mark behind its target. -/
def FromTarget (v target : Text) : Prop :=
  ∃ s opening closing, (∀ c ∈ s, c.isBlank) ∧ isQuote opening ∧ isQuote closing ∧ target ≠ [] ∧
    (∀ c ∈ target, isQuote c = false) ∧
    v = ("from" : Text) ++ (s ++ opening :: (target ++ [closing]))

def TypeMarked (t : Text) : Prop :=
  ∃ s₁ s₂ rest, IsGap s₁ ∧ IsGap s₂ ∧
    t = ("import" : Text) ++ (s₁ ++ (("type" : Text) ++ (s₂ ++ rest)))

/-- The line imports the default export of a module and binds it to the name `type`. -/
def BindsType (t target : Text) : Prop :=
  ∃ s₁ s₂ v rest, IsGap s₁ ∧ IsGap s₂ ∧ FromTarget v target ∧
    t = ("import" : Text) ++ (s₁ ++ (("type" : Text) ++ (s₂ ++ (v ++ rest))))

theorem BindsType.typeMarked {t target : Text} (h : BindsType t target) : TypeMarked t := by
  obtain ⟨s₁, s₂, v, rest, hs₁, hs₂, -, ht⟩ := h
  exact ⟨s₁, s₂, v ++ rest, hs₁, hs₂, ht⟩

theorem TypeMarked.isInfix {t : Text} (h : TypeMarked t) : ("type" : Text) <:+: t := by
  obtain ⟨s₁, s₂, rest, -, -, rfl⟩ := h
  exact ⟨("import" : Text) ++ s₁, s₂ ++ rest, by simp⟩

theorem isBlank_eq_false_of_isQuote {c : CodePoint} (h : isQuote c) : c.isBlank = false := by
  obtain ⟨mark, rfl⟩ := isQuote_iff.mp h
  exact mark.isBlank_sign

theorem isWord_eq_false_of_isQuote {c : CodePoint} (h : isQuote c) : c.isWord = false := by
  obtain ⟨mark, rfl⟩ := isQuote_iff.mp h
  cases mark <;> decide

theorem IsGap.stops_isWord {s : Text} (h : IsGap s) (t : Text) :
    Stops CodePoint.isWord (s ++ t) := by
  obtain ⟨hne, hBlank⟩ := h
  cases s with
  | nil => exact absurd rfl hne
  | cons c s =>
    exact stops_cons.mpr (CodePoint.isWord_eq_false_of_isBlank (hBlank c List.mem_cons_self))

theorem IsGap.isBlank_of_append_eq {s t t' : Text} {c : CodePoint} (h : IsGap s)
    (hSame : s ++ t = c :: t') : c.isBlank := by
  obtain ⟨hne, hBlank⟩ := h
  cases s with
  | nil => exact absurd rfl hne
  | cons d s =>
    obtain ⟨rfl, -⟩ := List.cons_eq_cons.mp hSame
    exact hBlank d List.mem_cons_self

/-! ### What the parts of the rule take -/

section Takes

variable {s t u v w rest rest' target target' : Text} {ks : List (Slot × Text)}

def fromPattern : Pattern := sequence [blanks, .text "from", blanks, quotedTarget]

theorem takes_quotedTarget (h : quotedTarget.Takes w ks) : ∃ opening closing target,
    isQuote opening ∧ isQuote closing ∧ target ≠ [] ∧ (∀ c ∈ target, isQuote c = false) ∧
      w = opening :: (target ++ [closing]) ∧ ks = [(.target, target)] := by
  rw [quotedTarget, quote_eq, upTo1_marks_eq] at h
  obtain ⟨_, _, _, _, ⟨⟨opening, hOpening, rfl⟩, rfl⟩, hTail, rfl, rfl⟩ := h
  obtain ⟨target, _, _, _, ⟨_, hTarget, rfl⟩, hTail, rfl, rfl⟩ := hTail
  obtain ⟨_, _, _, _, ⟨⟨closing, hClosing, rfl⟩, rfl⟩, ⟨rfl, rfl⟩, rfl, rfl⟩ := hTail
  obtain ⟨hne, hInside, rfl⟩ := takes_many1.mp hTarget
  refine ⟨opening, closing, target, hOpening, hClosing, hne, fun c hc => ?_, rfl, rfl⟩
  simpa using hInside c hc

theorem takes_fromPattern (h : fromPattern.Takes w ks) : ∃ s v target,
    (∀ c ∈ s, c.isBlank) ∧ FromTarget v target ∧ w = s ++ v ∧ ks = [(.target, target)] := by
  obtain ⟨s, _, _, _, ⟨hs, rfl⟩, hTail, rfl, rfl⟩ := h
  obtain ⟨_, _, _, _, ⟨rfl, rfl⟩, hTail, rfl, rfl⟩ := hTail
  obtain ⟨s', _, _, _, ⟨hs', rfl⟩, hTail, rfl, rfl⟩ := hTail
  obtain ⟨_, _, _, _, hQuoted, ⟨rfl, rfl⟩, rfl, rfl⟩ := hTail
  obtain ⟨opening, closing, target, hOpening, hClosing, hne, hInside, rfl, rfl⟩ :=
    takes_quotedTarget hQuoted
  refine ⟨s, _, target, hs, ⟨s', opening, closing, hs', hOpening, hClosing, hne, hInside, rfl⟩, ?_,
    rfl⟩
  simp

theorem FromTarget.takes (h : FromTarget v target) (hs : ∀ c ∈ s, c.isBlank) :
    fromPattern.Takes (s ++ v) [(.target, target)] := by
  obtain ⟨s', opening, closing, hs', hOpening, hClosing, hne, hInside, rfl⟩ := h
  have hTarget : (upTo1 ['\'', '"']).Takes target [] := by
    rw [upTo1_marks_eq, takes_many1]
    exact ⟨hne, fun c hc => by rw [hInside c hc]; rfl, rfl⟩
  have hQuoted : quotedTarget.Takes (opening :: (target ++ [closing])) [(.target, target)] := by
    rw [quotedTarget, quote_eq]
    exact ⟨[opening], [], _, _, ⟨⟨opening, hOpening, rfl⟩, rfl⟩,
      ⟨target, _, [closing], [], ⟨[], hTarget, rfl⟩,
        ⟨[closing], [], [], [], ⟨⟨closing, hClosing, rfl⟩, rfl⟩, ⟨rfl, rfl⟩, rfl, rfl⟩, rfl, rfl⟩,
      rfl, rfl⟩
  exact ⟨s, [], _, _, ⟨hs, rfl⟩, ⟨"from", [], _, _, ⟨rfl, rfl⟩, ⟨s', [], _, _, ⟨hs', rfl⟩,
    ⟨_, _, [], [], hQuoted, ⟨rfl, rfl⟩, (List.append_nil _).symm, rfl⟩, rfl, rfl⟩, rfl, rfl⟩, rfl,
    rfl⟩

/-- A target ends at the next mark, so that it is told by where it begins. -/
theorem FromTarget.unique (h : FromTarget v target) (h' : FromTarget u target')
    (hSame : v ++ rest = u ++ rest') : target = target' := by
  obtain ⟨s, opening, closing, hs, hOpening, hClosing, -, hInside, rfl⟩ := h
  obtain ⟨s', opening', closing', hs', hOpening', hClosing', -, hInside', rfl⟩ := h'
  simp only [List.append_assoc, List.append_cancel_left_eq, List.cons_append] at hSame
  obtain ⟨-, hMarks⟩ := append_inj_of_stops hs hs'
    (stops_cons.mpr (isBlank_eq_false_of_isQuote hOpening))
    (stops_cons.mpr (isBlank_eq_false_of_isQuote hOpening')) hSame
  have hTargets := (List.cons_eq_cons.mp hMarks).2
  have hNot {d : CodePoint} {t : Text} (hd : isQuote d) :
      Stops (fun c => !isQuote c) ([] ++ d :: t) := stops_cons.mpr (by simp [hd])
  exact (append_inj_of_stops (p := fun c => !isQuote c) (fun c hc => by simp [hInside c hc])
    (fun c hc => by simp [hInside' c hc]) (hNot hClosing) (hNot hClosing') hTargets).1

theorem FromTarget.eq_cons (h : FromTarget v target) : ∃ v', v = CodePoint.ofChar 'f' :: v' := by
  obtain ⟨s, opening, closing, -, -, -, -, -, rfl⟩ := h
  exact ⟨_, rfl⟩

/-- What stands behind `import` and white space, up to the mark behind the target, and what is kept
of it. Where there are braces or a comma only their place is told. -/
inductive Clause : Text → List (Slot × Text) → Prop
  | unbound {s v target : Text} (hs : ∀ c ∈ s, c.isBlank) (hv : FromTarget v target) :
    Clause (s ++ v) [(.target, target)]
  | braces (v : Text) (ks : List (Slot × Text)) : Clause (CodePoint.ofChar '{' :: v) ks
  | bound (name : Word) {s v target : Text} (hs : ∀ c ∈ s, c.isBlank) (hv : FromTarget v target) :
    Clause (name.text ++ (s ++ v)) [(.target, target), (.binding, name.text)]
  | boundBraces (name : Word) (v : Text) (ks : List (Slot × Text)) :
    Clause (name.text ++ CodePoint.ofChar '{' :: v) ks
  | boundComma (name : Word) {s : Text} (hs : ∀ c ∈ s, c.isBlank) (v : Text)
    (ks : List (Slot × Text)) : Clause (name.text ++ (s ++ CodePoint.ofChar ',' :: v)) ks

def clausePattern : Pattern := sequence [importClause, blanks, .text "from", blanks, quotedTarget]

theorem takes_omitted (part : Pattern) : (sequence [.optional part]).Takes [] [] :=
  ⟨[], [], [], [], Or.inr ⟨rfl, rfl⟩, ⟨rfl, rfl⟩, rfl, rfl⟩

theorem FromTarget.takes_unbound (h : FromTarget v target) :
    clausePattern.Takes v [(.target, target)] :=
  ⟨[], [], v, _, ⟨[], [], [], [], Or.inr ⟨rfl, rfl⟩, takes_omitted _, rfl, rfl⟩,
    h.takes (s := []) (by simp), rfl, rfl⟩

theorem FromTarget.takes_bound (h : FromTarget v target) (name : Word)
    (hs : ∀ c ∈ s, c.isBlank) :
    clausePattern.Takes (name.text ++ (s ++ v)) [(.target, target), (.binding, name.text)] := by
  have hName : word1.Takes name.text [] := takes_many1.mpr ⟨name.ne_nil, name.isWord, rfl⟩
  have hClause : importClause.Takes name.text [(.binding, name.text)] :=
    ⟨name.text, _, [], [], Or.inl ⟨name.text, _, [], [], ⟨[], hName, rfl⟩, takes_omitted _,
      (List.append_nil _).symm, rfl⟩, takes_omitted _, (List.append_nil _).symm, rfl⟩
  exact ⟨name.text, _, s ++ v, _, hClause, h.takes hs, rfl, rfl⟩

theorem takes_bracedNames (h : bracedNames.Takes w ks) : ∃ v, w = CodePoint.ofChar '{' :: v := by
  obtain ⟨_, _, v, _, ⟨⟨c, hc, rfl⟩, rfl⟩, -, rfl, rfl⟩ := h
  exact ⟨v, by rw [of_decide_eq_true hc, List.singleton_append]⟩

theorem takes_clausePattern (h : clausePattern.Takes w ks) : Clause w ks := by
  obtain ⟨_, _, u, _, hClause, hFrom, rfl, rfl⟩ := h
  obtain ⟨s, v, target, hs, hv, rfl, rfl⟩ := takes_fromPattern hFrom
  obtain ⟨b, _, _, _, hBinding, ⟨n, _, _, _, hNames, ⟨rfl, rfl⟩, rfl, rfl⟩, rfl, rfl⟩ := hClause
  rcases hBinding with ⟨name, _, _, _, ⟨_, hName, rfl⟩, ⟨m, _, _, _, hComma, ⟨rfl, rfl⟩, rfl, rfl⟩,
    rfl, rfl⟩ | ⟨rfl, rfl⟩
  · obtain ⟨hne, hWord, rfl⟩ := takes_many1.mp hName
    rcases hComma with ⟨s', _, _, _, ⟨hs', rfl⟩, hSign, rfl, rfl⟩ | ⟨rfl, rfl⟩
    · obtain ⟨_, _, _, _, ⟨⟨c, hc, rfl⟩, rfl⟩, -, rfl, rfl⟩ := hSign
      obtain rfl := of_decide_eq_true hc
      simpa using Clause.boundComma ⟨name, hne, hWord⟩ hs' _ _
    · rcases hNames with hNames | ⟨rfl, rfl⟩
      · obtain ⟨v', rfl⟩ := takes_bracedNames hNames
        simpa using Clause.boundBraces ⟨name, hne, hWord⟩ _ _
      · simpa using Clause.bound ⟨name, hne, hWord⟩ hs hv
  · rcases hNames with hNames | ⟨rfl, rfl⟩
    · obtain ⟨v', rfl⟩ := takes_bracedNames hNames
      exact Clause.braces _ _
    · simpa using Clause.unbound hs hv

end Takes

/-! ### Where a line goes on -/

section Signs

variable {s s' t t' : Text} {c c' : CodePoint}

/-- The first sign behind white space. -/
theorem sign_eq_of_append_eq (hs : ∀ d ∈ s, d.isBlank) (hs' : ∀ d ∈ s', d.isBlank)
    (hc : c.isBlank = false) (hc' : c'.isBlank = false) (h : s ++ c :: t = s' ++ c' :: t') :
    s = s' ∧ c = c' ∧ t = t' := by
  obtain ⟨rfl, hTail⟩ := append_inj_of_stops hs hs' (stops_cons.mpr hc) (stops_cons.mpr hc') h
  exact ⟨rfl, List.cons_eq_cons.mp hTail⟩

theorem Word.exists_eq_cons (name : Word) : ∃ c t, name.text = c :: t ∧ c.isWord := by
  cases hText : name.text with
  | nil => exact absurd hText name.ne_nil
  | cons c t => exact ⟨c, t, rfl, name.isWord c (hText ▸ List.mem_cons_self)⟩

/-- Behind white space no name begins with a sign that is not a word character. -/
theorem Word.append_ne (name : Word) (hs : ∀ d ∈ s, d.isBlank) (hc : c.isBlank = false)
    (hWord : c.isWord = false) : name.text ++ t ≠ s ++ c :: t' := by
  intro h
  obtain ⟨d, more, hText, hd⟩ := name.exists_eq_cons
  rw [hText, List.cons_append] at h
  obtain ⟨-, rfl, -⟩ := sign_eq_of_append_eq (s := []) (by simp) hs
    (CodePoint.isBlank_eq_false_of_isWord hd) hc h
  rw [hd] at hWord
  cases hWord

/-- A name ends with the word that stands there, unless the sign that follows it is in the word. -/
theorem Word.eq_of_append_eq (name : Word) {x : CodePoint} {xs rest : Text}
    (hWord : ∀ d ∈ x :: xs, d.isWord) (hRest : Stops CodePoint.isWord rest)
    (hs : ∀ d ∈ s, d.isBlank) (hc : c ∉ xs) (h : name.text ++ (s ++ c :: t) = x :: xs ++ rest) :
    name.text = x :: xs ∧ s ++ c :: t = rest := by
  obtain ⟨more, hName, hMore⟩ := exists_append_of_stops name.isWord hRest h
  cases more with
  | nil => exact ⟨by rw [hName, List.append_nil], hMore⟩
  | cons d more =>
    -- the name would end within the word, before `d`
    have hd : d ∈ xs := by
      obtain ⟨e, es, hText, -⟩ := name.exists_eq_cons
      rw [hText, List.cons_append] at hName
      rw [(List.cons_eq_cons.mp hName).2]
      exact List.mem_append_right _ List.mem_cons_self
    cases s with
    | nil =>
      obtain ⟨rfl, -⟩ := List.cons_eq_cons.mp hMore
      exact absurd hd hc
    | cons e s =>
      obtain ⟨rfl, -⟩ := List.cons_eq_cons.mp hMore
      have hBlank := hs e List.mem_cons_self
      rw [CodePoint.isBlank_eq_false_of_isWord (hWord e (List.mem_cons_of_mem _ hd))] at hBlank
      cases hBlank

end Signs

namespace Clause

variable {s u v w rest rest' target : Text} {ks : List (Slot × Text)}

/-- Behind white space the part does not begin with a comma. -/
theorem append_ne_comma (h : Clause w ks) (hs : ∀ c ∈ s, c.isBlank) :
    w ++ rest ≠ s ++ CodePoint.ofChar ',' :: rest' := by
  have hComma : (CodePoint.ofChar ',').isBlank = false := by decide
  intro hSame
  cases h with
  | unbound hs₁ hv =>
    obtain ⟨v', rfl⟩ := hv.eq_cons
    rw [List.append_assoc] at hSame
    exact absurd (sign_eq_of_append_eq hs₁ hs (by decide) hComma hSame).2.1 (by decide)
  | braces v ks =>
    exact absurd (sign_eq_of_append_eq (s := []) (by simp) hs (by decide) hComma hSame).2.1
      (by decide)
  | bound name _ _ | boundBraces name _ _ | boundComma name _ _ _ =>
    rw [List.append_assoc] at hSame
    exact name.append_ne hs hComma (by decide) hSame

/-- Behind `type` and a sign that ends the word stand the word `from` and a target, a brace or a
comma. -/
theorem at_type (h : Clause w ks) (hs : ∀ c ∈ s, c.isBlank) (hStop : Stops CodePoint.isWord u)
    (hSame : w ++ rest = s ++ (("type" : Text) ++ u)) :
    (∃ s' v target, (∀ c ∈ s', c.isBlank) ∧ FromTarget v target ∧ u = s' ++ (v ++ rest) ∧
      ks = [(.target, target), (.binding, "type")]) ∨
    (∃ u', u = CodePoint.ofChar '{' :: u') ∨
    (∃ s' u', (∀ c ∈ s', c.isBlank) ∧ u = s' ++ CodePoint.ofChar ',' :: u') := by
  have hType : (("type" : Text) ++ u) = CodePoint.ofChar 't' :: (("ype" : Text) ++ u) := rfl
  have hWord : ∀ c ∈ CodePoint.ofChar 't' :: ("ype" : Text), c.isWord := by decide
  -- a name begins where `type` does
  have hName (name : Word) (s' : Text) {more : Text} {c : CodePoint} (hs' : ∀ d ∈ s', d.isBlank)
      (hc : c ∉ ("ype" : Text))
      (hSame : name.text ++ (s' ++ c :: more) = s ++ (("type" : Text) ++ u)) :
      name.text = "type" ∧ s' ++ c :: more = u := by
    obtain ⟨d, ds, hText, hd⟩ := name.exists_eq_cons
    have hHead := hSame
    rw [hText, List.cons_append, hType] at hHead
    obtain ⟨rfl, -⟩ := sign_eq_of_append_eq (s := []) (by simp) hs
      (CodePoint.isBlank_eq_false_of_isWord hd) (by decide) hHead
    exact name.eq_of_append_eq hWord hStop hs' hc hSame
  cases h with
  | unbound hs₁ hv =>
    obtain ⟨v', rfl⟩ := hv.eq_cons
    rw [List.append_assoc, hType] at hSame
    exact absurd (sign_eq_of_append_eq hs₁ hs (by decide) (by decide) hSame).2.1 (by decide)
  | braces v ks =>
    rw [hType] at hSame
    exact absurd (sign_eq_of_append_eq (s := []) (by simp) hs (by decide) (by decide) hSame).2.1
      (by decide)
  | @bound name s' v target hs' hv =>
    obtain ⟨v', hv'⟩ := hv.eq_cons
    have hAt : name.text ++ (s' ++ CodePoint.ofChar 'f' :: (v' ++ rest)) =
        s ++ (("type" : Text) ++ u) := by
      rw [← hSame, hv']
      simp
    obtain ⟨hText, rfl⟩ := hName name s' hs' (by decide) hAt
    rw [hText]
    exact Or.inl ⟨s', v, target, hs', hv, by rw [hv']; rfl, rfl⟩
  | boundBraces name v ks =>
    rw [List.append_assoc] at hSame
    obtain ⟨-, rfl⟩ := hName name [] (by simp) (by decide) hSame
    exact Or.inr (Or.inl ⟨_, rfl⟩)
  | @boundComma name s' hs' v ks =>
    rw [List.append_assoc, List.append_assoc] at hSame
    obtain ⟨-, rfl⟩ := hName name s' hs' (by decide) hSame
    exact Or.inr (Or.inr ⟨s', _, hs', rfl⟩)

/-- Where `from` and a target stand nothing else is read. -/
theorem eq_target_of_from (h : Clause w ks) (hv : FromTarget v target)
    (hSame : w ++ rest = v ++ rest') : ks = [(.target, target)] := by
  obtain ⟨s₂, opening, closing, hs₂, hOpening, -, -, -, hText⟩ := id hv
  have hFrom : v ++ rest' = CodePoint.ofChar 'f' :: ("rom" : Text) ++
      (s₂ ++ opening :: (target ++ [closing] ++ rest')) := by
    rw [hText]
    simp
    rfl
  have hWord : ∀ c ∈ CodePoint.ofChar 'f' :: ("rom" : Text), c.isWord := by decide
  have hStop : Stops CodePoint.isWord (s₂ ++ opening :: (target ++ [closing] ++ rest')) := by
    cases s₂ with
    | nil => exact stops_cons.mpr (isWord_eq_false_of_isQuote hOpening)
    | cons c s₂ =>
      exact stops_cons.mpr (CodePoint.isWord_eq_false_of_isBlank (hs₂ c List.mem_cons_self))
  -- a name would be the word `from`, and a mark follows that
  have hName (name : Word) (s' : Text) {more : Text} {c : CodePoint} (hs' : ∀ d ∈ s', d.isBlank)
      (hc : c ∉ ("rom" : Text)) (hBlank : c.isBlank = false) (hQuote : isQuote c = false) :
      name.text ++ (s' ++ c :: more) ≠ v ++ rest' := by
    rw [hFrom]
    intro hSame
    obtain ⟨-, hTail⟩ := name.eq_of_append_eq hWord hStop hs' hc hSame
    obtain ⟨-, rfl, -⟩ := sign_eq_of_append_eq hs' hs₂ hBlank
      (isBlank_eq_false_of_isQuote hOpening) hTail
    rw [hOpening] at hQuote
    cases hQuote
  cases h with
  | @unbound s' v' target' hs' hv' =>
    obtain ⟨x, hx⟩ := hv.eq_cons
    obtain ⟨x', hx'⟩ := hv'.eq_cons
    have hSigns : s' ++ CodePoint.ofChar 'f' :: (x' ++ rest) =
        ([] : Text) ++ CodePoint.ofChar 'f' :: (x ++ rest') := by
      simpa [hx, hx'] using hSame
    obtain ⟨rfl, -, -⟩ := sign_eq_of_append_eq hs' (by simp) (by decide) (by decide) hSigns
    rw [hv'.unique hv hSame]
  | braces v' ks =>
    rw [hFrom] at hSame
    exact absurd (List.cons_eq_cons.mp hSame).1 (by decide)
  | @bound name s' v' target' hs' hv' =>
    obtain ⟨x, rfl⟩ := hv'.eq_cons
    rw [List.append_assoc, List.append_assoc] at hSame
    exact absurd hSame (hName name s' hs' (by decide) (by decide) (by decide))
  | boundBraces name v' ks =>
    rw [List.append_assoc] at hSame
    exact absurd hSame (hName name [] (by simp) (by decide) (by decide) (by decide))
  | boundComma name hs' v' ks =>
    rw [List.append_assoc, List.append_assoc] at hSame
    exact absurd hSame (hName name _ hs' (by decide) (by decide) (by decide))

end Clause

end DependencyMap
