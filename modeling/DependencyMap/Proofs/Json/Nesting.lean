import DependencyMap.Proofs.Json.Encoding
import DependencyMap.Proofs.Json.Steps

/-!
# Fuel and the limit of nesting

Two readings of a text agree if the fuel of both is twice the length of the text at least and the
second has room for nesting where the first has (`agree_of_isWidened`); but the first may be too
deep. The induction is on the fuel, with one lemma for each of the three readers. Hence more fuel
makes no difference (`readValue_fuel`), and what is not too deep is read as it would be without the
limit (`decode_eq_of_ne_tooDeep`).

A text in which more arrays are opened than may stand in one another is refused before anything else
of it is looked at (`readValue_replicate`).
-/

namespace DependencyMap

namespace Json

variable {limits limits' : Limits} {fuel fuel' : Nat} {t rest : Text}

/-! ### Readings that agree -/

/-- The reading `x` of `t` leaves an end of `t`, and `y` is the same unless `x` is too deep. -/
structure Agree {α : Type} (t : Text) (x y : Except ReadFault (α × Text)) : Prop where
  left : ∀ read, x = .ok read → read.2 <:+ t
  same : x ≠ .error .tooDeep → y = x

namespace Agree

variable {α β : Type} {t' : Text} {x y : Except ReadFault (α × Text)}

theorem of_left (h : ∀ read, x = .ok read → read.2 <:+ t) : Agree t x x := ⟨h, fun _ => rfl⟩

theorem malformed : Agree t (.error .malformed : Except ReadFault (α × Text)) (.error .malformed) :=
  of_left (by simp)

theorem ok {a : α} (h : rest <:+ t) : Agree t (.ok (a, rest)) (.ok (a, rest)) :=
  of_left fun _ hRead => Except.ok.inj hRead ▸ h

theorem tooDeep : Agree t (.error .tooDeep) y := ⟨by simp, fun h => absurd rfl h⟩

theorem mono (h : Agree t x y) (hSuffix : t <:+ t') : Agree t' x y :=
  ⟨fun read hRead => (h.left read hRead).trans hSuffix, h.same⟩

theorem bind {f g : α × Text → Except ReadFault (β × Text)} (h : Agree t x y)
    (hNext : ∀ read : α × Text, read.2 <:+ t → Agree t (f read) (g read)) :
    Agree t (x.bind f) (y.bind g) := by
  cases x with
  | ok read =>
    have hSame : y = .ok read := h.same (by simp)
    rw [hSame]
    exact hNext read (h.left read rfl)
  | error fault =>
    by_cases hDeep : fault = .tooDeep
    · rw [hDeep]
      exact tooDeep
    · have hSame : y = .error fault := h.same fun hError => hDeep (Except.error.inj hError)
      rw [hSame]
      refine of_left fun read hRead => ?_
      cases hRead

theorem map {f : α → β} (h : Agree t x y) :
    Agree t (x.map fun read => (f read.1, read.2)) (y.map fun read => (f read.1, read.2)) := by
  have hBind (z : Except ReadFault (α × Text)) :
      (z.map fun read => (f read.1, read.2)) = z.bind fun read => .ok (f read.1, read.2) := by
    cases z <;> rfl
  rw [hBind, hBind]
  exact h.bind fun read hLeft => ok hLeft

end Agree

/-- The limits `limits'` are those of `limits` but for more room. -/
structure Limits.IsWidened (limits limits' : Limits) : Prop where
  digits : limits'.digits = limits.digits
  nesting : ∀ n, isWithin limits.nesting n = true → isWithin limits'.nesting n = true

namespace Limits.IsWidened

theorem refl (limits : Limits) : limits.IsWidened limits := ⟨rfl, fun _ => id⟩

theorem inner (h : limits.IsWidened limits') : limits.inner.IsWidened limits'.inner := by
  refine ⟨h.digits, fun n hn => ?_⟩
  have hNesting := h.nesting
  simp only [Limits.inner, isWithin] at hn hNesting ⊢
  cases hRoom : limits.nesting with
  | none =>
    cases hRoom' : limits'.nesting with
    | none => rfl
    | some most =>
      have hMore : n + 1 ≤ most := by simpa [hRoom, hRoom'] using hNesting (n + 1)
      exact decide_eq_true (Nat.le_sub_of_add_le hMore)
  | some most =>
    cases hRoom' : limits'.nesting with
    | none => rfl
    | some most' =>
      have hMore : most ≤ most' := by simpa [hRoom, hRoom'] using hNesting most
      have hLess : n ≤ most - 1 := by simpa [hRoom] using hn
      exact decide_eq_true (Nat.le_trans hLess (Nat.sub_le_sub_right hMore 1))

end Limits.IsWidened

/-- Where there is no room for a bracket, everything is too deep. -/
theorem Agree.within {α : Type} {x y : Except ReadFault (α × Text)}
    (hLimits : limits.IsWidened limits') (h : Agree t x y) :
    Agree t (if isWithin limits.nesting 1 then x else .error .tooDeep)
      (if isWithin limits'.nesting 1 then y else .error .tooDeep) := by
  by_cases hRoom : isWithin limits.nesting 1 = true
  · rw [if_pos hRoom, if_pos (hLimits.nesting 1 hRoom)]
    exact h
  · rw [if_neg hRoom]
    exact .tooDeep

theorem Opening.read_agree {o : Opening} (hIn : o.IsIn t) (hLimits : limits.IsWidened limits')
    (hItems : ∀ u : Text, u.length < t.length →
      Agree u (readItems limits.inner fuel u) (readItems limits'.inner fuel' u))
    (hMembers : ∀ u : Text, u.length < t.length →
      Agree u (readMembers limits.inner fuel [] u) (readMembers limits'.inner fuel' [] u)) :
    Agree t (o.read limits fuel) (o.read limits' fuel') := by
  cases o with
  | token x => exact .of_left hIn
  | empty x => exact (Agree.of_left hIn).within hLimits
  | items u => exact ((hItems u hIn.2).map.mono hIn.1).within hLimits
  | members u => exact ((hMembers u hIn.2).map.mono hIn.1).within hLimits

theorem afterItem_agree {more more' : Text → Except ReadFault (List Value × Text)}
    (v : Value) (hSuffix : rest <:+ t)
    (hMore : ∀ u : Text, u.length < t.length → Agree u (more u) (more' u)) :
    Agree t (afterItem more v rest) (afterItem more' v rest) := by
  cases rest with
  | nil => exact .malformed
  | cons c rest =>
    have hRest := (List.suffix_cons c rest).trans hSuffix
    obtain ⟨hEnd, hShorter⟩ := isProperEnd_skipSpace hSuffix
    rw [afterItem, afterItem]
    split
    · exact .ok hRest
    split
    · exact (hMore _ hShorter).map.mono hEnd
    · exact .malformed

theorem afterMember_agree {more more' : Text → Except ReadFault (List (Text × Value) × Text)}
    (members : List (Text × Value)) (hSuffix : rest <:+ t)
    (hMore : ∀ u : Text, u.length < t.length → Agree u (more u) (more' u)) :
    Agree t (afterMember more members rest) (afterMember more' members rest) := by
  cases rest with
  | nil => exact .malformed
  | cons c rest =>
    have hRest := (List.suffix_cons c rest).trans hSuffix
    obtain ⟨hEnd, hShorter⟩ := isProperEnd_skipSpace hSuffix
    rw [afterMember, afterMember]
    split
    · exact .ok hRest
    split
    · exact (hMore _ hShorter).mono hEnd
    · exact .malformed

theorem readItems_agree
    (hValue : Agree t (readValue limits fuel t) (readValue limits' fuel' t))
    (hItems : ∀ u : Text, u.length < t.length →
      Agree u (readItems limits fuel u) (readItems limits' fuel' u)) :
    Agree t (readItems limits (fuel + 1) t) (readItems limits' (fuel' + 1) t) := by
  rw [readItems_succ, readItems_succ]
  exact hValue.bind fun read hLeft =>
    afterItem_agree read.1 ((skipSpace_suffix read.2).trans hLeft) hItems

theorem readMembers_agree {before : List (Text × Value)}
    (hValue : ∀ u : Text, u.length < t.length →
      Agree u (readValue limits fuel u) (readValue limits' fuel' u))
    (hMembers : ∀ (before : List (Text × Value)) (u : Text), u.length < t.length →
      Agree u (readMembers limits fuel before u) (readMembers limits' fuel' before u)) :
    Agree t (readMembers limits (fuel + 1) before t)
      (readMembers limits' (fuel' + 1) before t) := by
  rw [readMembers_succ, readMembers_succ]
  cases hName : memberName? t with
  | none => exact .malformed
  | some named =>
    obtain ⟨hSuffix, hShorter⟩ := isProperEnd_memberName? hName
    exact ((hValue _ hShorter).mono hSuffix).bind fun read hLeft =>
      afterMember_agree _ ((skipSpace_suffix read.2).trans hLeft) (hMembers _)

theorem readValue_agree_succ (hLimits : limits.IsWidened limits')
    (hItems : ∀ u : Text, u.length < t.length →
      Agree u (readItems limits.inner fuel u) (readItems limits'.inner fuel' u))
    (hMembers : ∀ u : Text, u.length < t.length →
      Agree u (readMembers limits.inner fuel [] u) (readMembers limits'.inner fuel' [] u)) :
    Agree t (readValue limits (fuel + 1) t) (readValue limits' (fuel' + 1) t) := by
  rw [readValue_succ, readValue_succ, hLimits.digits]
  exact Opening.read_agree (opening_isIn _ t) hLimits hItems hMembers

theorem readValue_nil : readValue limits fuel [] = .error .malformed := by
  cases fuel <;> rfl

theorem readMembers_nil {before : List (Text × Value)} :
    readMembers limits fuel before [] = .error .malformed := by
  cases fuel <;> rfl

/-- Readings of a text agree if the fuel of both is enough for it, and the second has room where the
first has. -/
theorem agree_of_isWidened (hLimits : limits.IsWidened limits') :
    (2 * t.length ≤ fuel → 2 * t.length ≤ fuel' →
      Agree t (readValue limits fuel t) (readValue limits' fuel' t) ∧
      ∀ before, Agree t (readMembers limits fuel before t)
        (readMembers limits' fuel' before t)) ∧
    (2 * t.length < fuel → 2 * t.length < fuel' →
      Agree t (readItems limits fuel t) (readItems limits' fuel' t)) := by
  induction fuel generalizing fuel' limits limits' t with
  | zero =>
    refine ⟨fun hFuel _ => ?_, fun hFuel => absurd hFuel (by omega)⟩
    obtain rfl : t = [] := List.length_eq_zero_iff.mp (by omega)
    simp only [readValue_nil, readMembers_nil]
    exact ⟨.malformed, fun _ => .malformed⟩
  | succ fuel ih =>
    cases fuel' with
    | zero =>
      refine ⟨fun _ hFuel => ?_, fun _ hFuel => absurd hFuel (by omega)⟩
      obtain rfl : t = [] := List.length_eq_zero_iff.mp (by omega)
      simp only [readValue_nil, readMembers_nil]
      exact ⟨.malformed, fun _ => .malformed⟩
    | succ fuel' =>
      have hInner (u : Text) := @ih _ _ fuel' u hLimits.inner
      have hSame (u : Text) := @ih _ _ fuel' u hLimits
      refine ⟨fun hFuel hFuel' => ⟨?_, fun before => ?_⟩, fun hFuel hFuel' => ?_⟩
      · exact readValue_agree_succ hLimits
          (fun u hu => (hInner u).2 (by omega) (by omega))
          (fun u hu => ((hInner u).1 (by omega) (by omega)).2 [])
      · exact readMembers_agree (fun u hu => ((hSame u).1 (by omega) (by omega)).1)
          (fun before u hu => ((hSame u).1 (by omega) (by omega)).2 before)
      · exact readItems_agree ((hSame t).1 (by omega) (by omega)).1
          (fun u hu => (hSame u).2 (by omega) (by omega))

/-- More fuel than twice the length of a text makes no difference. -/
theorem readValue_fuel (h : 2 * t.length ≤ fuel) (h' : 2 * t.length ≤ fuel') :
    readValue limits fuel t = readValue limits fuel' t := by
  have hFirst := ((agree_of_isWidened (.refl limits)).1 h h').1
  have hSecond := ((agree_of_isWidened (.refl limits)).1 h' h).1
  by_cases hDeep : readValue limits fuel t = .error .tooDeep
  · by_cases hDeep' : readValue limits fuel' t = .error .tooDeep
    · rw [hDeep, hDeep']
    · exact hSecond.same hDeep'
  · exact (hFirst.same hDeep).symm

/-- What is not too deep is read so with more room. -/
theorem readWithin_eq_of_isWidened (hLimits : limits.IsWidened limits')
    (h : readWithin limits t ≠ .error .tooDeep) : readWithin limits' t = readWithin limits t := by
  have hSpace : 2 * (skipSpace t).length ≤ 2 * t.length + 2 := by
    have hLe := (skipSpace_suffix t).length_le
    omega
  have hSame := ((agree_of_isWidened hLimits).1 hSpace hSpace).1.same fun hDeep =>
    h (by simp only [readWithin, hDeep])
  simp only [readWithin, hSame]

/-- What is not too deep is read as without the limit of nesting. -/
theorem decode_eq_of_ne_tooDeep {room : Option Nat} {body : Bytes}
    (h : decode room body ≠ .error (.unread .tooDeep)) : decode none body = decode room body := by
  have hLimits : Limits.IsWidened ⟨some Numeral.maxDigits, room⟩ ⟨some Numeral.maxDigits, none⟩ :=
    ⟨rfl, fun _ _ => rfl⟩
  simp only [decode, decodeWithin] at h ⊢
  cases hText : (Encoding.detect body).1.decode? (Encoding.detect body).2 with
  | none => rfl
  | some t =>
    have hRead : readWithin ⟨some Numeral.maxDigits, room⟩ t ≠ .error .tooDeep :=
      fun hDeep => h (by simp only [hText, hDeep])
    simp only [readWithin_eq_of_isWidened hLimits hRead]

/-! ### What is too deep -/

/-- Where more arrays are opened than may stand in one another, nothing else is looked at. -/
theorem readValue_replicate {digits : Option Nat} {room n : Nat} (h : room < n)
    (hFuel : 2 * room < fuel) : readValue ⟨digits, some room⟩ fuel
      (List.replicate n (CodePoint.ofChar '[') ++ t) = .error .tooDeep := by
  induction room generalizing n fuel with
  | zero =>
    obtain ⟨n, rfl⟩ : ∃ less, n = less + 1 := ⟨n - 1, by omega⟩
    obtain ⟨fuel, rfl⟩ : ∃ less, fuel = less + 1 := ⟨fuel - 1, by omega⟩
    rw [List.replicate_succ, List.cons_append, readValue]
    simp [isWithin]
  | succ room ih =>
    obtain ⟨n, rfl⟩ : ∃ less, n = less + 2 := ⟨n - 2, by omega⟩
    obtain ⟨fuel, rfl⟩ : ∃ less, fuel = less + 2 := ⟨fuel - 2, by omega⟩
    have hInner := @ih fuel (n + 1) (by omega) (by omega)
    rw [List.replicate_succ, List.cons_append] at hInner
    have hSpace := @skipSpace_cons (List.replicate n (CodePoint.ofChar '[') ++ t)
      (CodePoint.ofChar '[') (by decide)
    rw [List.replicate_succ, List.replicate_succ, List.cons_append, List.cons_append, readValue]
    simp [isWithin, hSpace, readItems, Limits.inner, hInner, Except.map]

end Json

end DependencyMap
