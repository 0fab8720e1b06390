import DependencyMap.Json.Reader

/-!
# The steps of the JSON reader

What is left of a text when a token has been read is an end of it. How a value begins (`Opening`)
depends neither on the fuel nor on the limit of nesting. With that, each of the three readers is one
equation (`readValue_succ`, `readItems_succ`, `readMembers_succ`), in which the others go on with an
end of the text.
-/

namespace DependencyMap

namespace Json

variable {limits : Limits} {fuel : Nat} {t rest : Text}

/-! ### What is left -/

theorem skipSpace_suffix (t : Text) : skipSpace t <:+ t := List.dropWhile_suffix _

theorem suffix_of_skipSpace_eq {c : CodePoint} (h : skipSpace t = c :: rest) : rest <:+ t :=
  ((List.suffix_cons c rest).trans (h ▸ List.suffix_rfl)).trans (skipSpace_suffix t)

def IsProperEnd (u t : Text) : Prop := u <:+ t ∧ u.length < t.length

theorem isProperEnd_cons {u : Text} {c : CodePoint} (h : u <:+ rest) : IsProperEnd u (c :: rest) :=
  ⟨h.trans (List.suffix_cons c rest), Nat.lt_succ_of_le h.length_le⟩

theorem isProperEnd_skipSpace {c : CodePoint} (h : c :: rest <:+ t) :
    IsProperEnd (skipSpace rest) t :=
  have hSpace := skipSpace_suffix rest
  ⟨(hSpace.trans (List.suffix_cons c rest)).trans h,
    Nat.lt_of_lt_of_le (Nat.lt_succ_of_le hSpace.length_le) h.length_le⟩

theorem readString_suffix {joinable : Bool} {before name : Text}
    (h : readString joinable before t = some (name, rest)) : rest <:+ t := by
  fun_induction readString joinable before t <;> simp_all only [reduceCtorEq, Option.some.injEq,
    Prod.mk.injEq, List.suffix_cons, forall_const]
  case case5 ih => exact ih.trans ⟨[_, _, _, _, _, _], rfl⟩
  case case8 ih => exact ih.trans ⟨[_, _], rfl⟩
  case case10 ih => exact ih.trans (List.suffix_cons _ _)

theorem splitDigits_suffix (t : Text) : (splitDigits t).2 <:+ t := List.dropWhile_suffix _

theorem readWhole_suffix (t : Text) : (readWhole t).2 <:+ t := by
  fun_cases readWhole t
  · exact List.suffix_cons _ _
  · exact splitDigits_suffix _
  · exact List.suffix_rfl

theorem readFraction_suffix (t : Text) : (readFraction t).2 <:+ t := by
  fun_cases readFraction t
  · exact (splitDigits_suffix _).trans (List.suffix_cons _ _)
  · exact List.suffix_rfl
  · exact List.suffix_rfl

theorem readExponent_suffix (t : Text) : (readExponent t).2 <:+ t := by
  fun_cases readExponent t with
  | case2 e rest _ signed =>
    have hSigned : signed.2 <:+ rest := by
      cases rest with
      | nil => exact List.suffix_rfl
      | cons s after =>
        simp only [signed]
        split
        · exact List.suffix_cons _ _
        · split
          · exact List.suffix_cons _ _
          · exact List.suffix_rfl
    exact ((splitDigits_suffix _).trans hSigned).trans (List.suffix_cons e rest)
  | _ => exact List.suffix_rfl

theorem readNumber_suffix {negative : Bool} {v : Value}
    (h : readNumber limits negative t = .ok (v, rest)) : rest <:+ t := by
  have hLeft : (readExponent (readFraction (readWhole t).2).2).2 <:+ t :=
    ((readExponent_suffix _).trans (readFraction_suffix _)).trans (readWhole_suffix t)
  simp only [readNumber] at h
  split at h
  · cases h
  split at h
  · split at h
    · cases h
      exact hLeft
    · cases h
  · cases h
    exact hLeft

theorem readWord_suffix {v : Value} (h : readWord t = some (v, rest)) : rest <:+ t := by
  obtain ⟨w, -, hFound⟩ := Option.map_eq_some_iff.mp h
  cases hFound
  exact List.drop_suffix _ t

/-! ### One step -/

/-- How the value at the beginning of a text begins. -/
inductive Opening
  /-- With a token that is no bracket, or with none. -/
  | token (read : Except ReadFault (Value × Text))
  /-- With a bracket that is closed at once, or behind which there is nothing. -/
  | empty (read : Except ReadFault (Value × Text))
  | items (t : Text)
  | members (t : Text)

def openingOf (closing : Char) (nothing : Value) (inside : Text → Opening) (rest : Text) :
    Opening :=
  match skipSpace rest with
  | [] => .empty (.error .malformed)
  | d :: after =>
    if d = CodePoint.ofChar closing then .empty (.ok (nothing, after)) else inside (d :: after)

def opening (digits : Option Nat) : Text → Opening
  | [] => .token (.error .malformed)
  | c :: rest =>
    if c = CodePoint.ofChar '"' then
      match readString false [] rest with
      | none => .token (.error .malformed)
      | some (t, rest) => .token (.ok (.text t, rest))
    else if c = CodePoint.ofChar '[' then openingOf ']' (.array []) .items rest
    else if c = CodePoint.ofChar '\x7b' then openingOf '\x7d' (.object []) .members rest
    else
      match readWord (c :: rest) with
      | some found => .token (.ok found)
      | none =>
        .token (if c = CodePoint.ofChar '-' then readNumber ⟨digits, none⟩ true rest
          else readNumber ⟨digits, none⟩ false (c :: rest))

/-- What is read of a value that begins so. The fuel is for what stands in brackets. -/
def Opening.read (limits : Limits) (fuel : Nat) : Opening → Except ReadFault (Value × Text)
  | token x => x
  | empty x => if isWithin limits.nesting 1 then x else .error .tooDeep
  | items t =>
    if isWithin limits.nesting 1 then
      (readItems limits.inner fuel t).map fun read => (.array read.1, read.2)
    else .error .tooDeep
  | members t =>
    if isWithin limits.nesting 1 then
      (readMembers limits.inner fuel [] t).map fun read => (.object read.1, read.2)
    else .error .tooDeep

theorem read_openingOf (closing : Char) (nothing : Value) (inside : Text → Opening)
    (read : Text → Except ReadFault (Value × Text))
    (h : ∀ u, (inside u).read limits fuel =
      if isWithin limits.nesting 1 then read u else .error .tooDeep) :
    (openingOf closing nothing inside rest).read limits fuel =
      if !isWithin limits.nesting 1 then .error .tooDeep
      else
        match skipSpace rest with
        | [] => .error .malformed
        | d :: after =>
          if d = CodePoint.ofChar closing then .ok (nothing, after) else read (d :: after) := by
  rw [openingOf]
  cases hNesting : isWithin limits.nesting 1 <;> cases skipSpace rest with
    | nil => simp [Opening.read, hNesting]
    | cons d after =>
      by_cases hEnd : d = CodePoint.ofChar closing
      · simp [Opening.read, hNesting, hEnd]
      · simp [hNesting, hEnd, h]

theorem readValue_succ :
    readValue limits (fuel + 1) t = (opening limits.digits t).read limits fuel := by
  cases t with
  | nil => rfl
  | cons c rest =>
    rw [readValue, opening]
    split
    · cases readString false [] rest <;> rfl
    split
    · exact (read_openingOf ']' (.array []) .items
        (fun u => (readItems limits.inner fuel u).map fun read => (.array read.1, read.2))
        fun _ => rfl).symm
    split
    · exact (read_openingOf '\x7d' (.object []) .members
        (fun u => (readMembers limits.inner fuel [] u).map fun read => (.object read.1, read.2))
        fun _ => rfl).symm
    · cases readWord (c :: rest) <;> rfl

/-- What follows an item and the space behind it. -/
def afterItem (more : Text → Except ReadFault (List Value × Text)) (v : Value) :
    Text → Except ReadFault (List Value × Text)
  | [] => .error .malformed
  | c :: rest =>
    if c = CodePoint.ofChar ']' then .ok ([v], rest)
    else if c = CodePoint.ofChar ',' then
      (more (skipSpace rest)).map fun read => (v :: read.1, read.2)
    else .error .malformed

theorem readItems_succ : readItems limits (fuel + 1) t =
    (readValue limits fuel t).bind fun read =>
      afterItem (readItems limits fuel) read.1 (skipSpace read.2) := by
  rw [readItems]
  cases readValue limits fuel t with
  | error fault => rfl
  | ok read => cases hRest : skipSpace read.2 <;> simp [Except.bind, afterItem, hRest]

/-- The name of the member at the beginning of a text, and what follows the colon. -/
def memberName? : Text → Option (Text × Text)
  | [] => none
  | q :: rest =>
    if q ≠ CodePoint.ofChar '"' then none
    else
      (readString false [] rest).bind fun named =>
        match skipSpace named.2 with
        | [] => none
        | c :: rest => if c ≠ CodePoint.ofChar ':' then none else some (named.1, skipSpace rest)

/-- What follows a member and the space behind it. -/
def afterMember (more : Text → Except ReadFault (List (Text × Value) × Text))
    (members : List (Text × Value)) : Text → Except ReadFault (List (Text × Value) × Text)
  | [] => .error .malformed
  | c :: rest =>
    if c = CodePoint.ofChar '\x7d' then .ok (members, rest)
    else if c = CodePoint.ofChar ',' then more (skipSpace rest)
    else .error .malformed

theorem readMembers_succ {before : List (Text × Value)} : readMembers limits (fuel + 1) before t =
    match memberName? t with
    | none => .error .malformed
    | some (name, valued) =>
      (readValue limits fuel valued).bind fun read =>
        afterMember (readMembers limits fuel (Members.set name read.1 before))
          (Members.set name read.1 before) (skipSpace read.2) := by
  cases t with
  | nil => rfl
  | cons q rest =>
    rw [readMembers, memberName?]
    split
    · rfl
    cases hName : readString false [] rest with
    | none => rfl
    | some named =>
      cases hColon : skipSpace named.2 with
      | nil => simp [hColon]
      | cons c rest =>
        by_cases hNot : c ≠ CodePoint.ofChar ':'
        · simp [hColon, hNot]
        simp only [hColon, hNot, Option.bind_some, if_false]
        cases readValue limits fuel (skipSpace rest) with
        | error fault => rfl
        | ok read => cases hRest : skipSpace read.2 <;> simp [Except.bind, afterMember, hRest]

/-! ### Where the reader goes on -/

/-- What is left, and what the reader goes on with, stands at the end of the text. -/
def Opening.IsIn (t : Text) : Opening → Prop
  | token x | empty x => ∀ read, x = .ok read → read.2 <:+ t
  | items u | members u => IsProperEnd u t

theorem openingOf_isIn (closing : Char) (nothing : Value) {inside : Text → Opening} {c : CodePoint}
    (h : ∀ u : Text, u <:+ rest → (inside u).IsIn (c :: rest)) :
    (openingOf closing nothing inside rest).IsIn (c :: rest) := by
  rw [openingOf]
  cases hSpace : skipSpace rest with
  | nil => simp [Opening.IsIn]
  | cons d after =>
    have hSuffix : d :: after <:+ rest := hSpace ▸ skipSpace_suffix rest
    simp only
    split
    · rintro _ hRead
      cases hRead
      exact ((List.suffix_cons d after).trans hSuffix).trans (List.suffix_cons c rest)
    · exact h _ hSuffix

theorem opening_isIn (digits : Option Nat) (t : Text) : (opening digits t).IsIn t := by
  cases t with
  | nil => simp [opening, Opening.IsIn]
  | cons c rest =>
    have hCons := List.suffix_cons c rest
    rw [opening]
    split
    · cases hText : readString false [] rest with
      | none => simp [Opening.IsIn]
      | some read =>
        rintro _ hRead
        cases hRead
        exact (readString_suffix hText).trans hCons
    split
    · exact openingOf_isIn ']' _ fun _ => isProperEnd_cons
    split
    · exact openingOf_isIn '\x7d' _ fun _ => isProperEnd_cons
    · cases hWord : readWord (c :: rest) with
      | some found =>
        rintro _ hRead
        cases hRead
        exact readWord_suffix hWord
      | none =>
        rintro read hRead
        split at hRead
        · exact (readNumber_suffix hRead).trans hCons
        · exact readNumber_suffix hRead

theorem isProperEnd_memberName? {name valued : Text} (h : memberName? t = some (name, valued)) :
    IsProperEnd valued t := by
  cases t with
  | nil => cases h
  | cons q rest =>
    rw [memberName?] at h
    split at h
    · cases h
    obtain ⟨named, hName, h⟩ := Option.bind_eq_some_iff.mp h
    cases hColon : skipSpace named.2 with
    | nil => simp [hColon] at h
    | cons c after =>
      simp only [hColon] at h
      split at h
      · cases h
      · cases h
        exact isProperEnd_cons ((skipSpace_suffix after).trans
          ((suffix_of_skipSpace_eq hColon).trans (readString_suffix hName)))

end Json

end DependencyMap
