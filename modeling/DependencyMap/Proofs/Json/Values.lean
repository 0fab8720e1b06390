import DependencyMap.Proofs.Json.Strings
import DependencyMap.Proofs.Pattern.Running

/-!
# Reading written values

A value is plain if it has no real, no surrogate and no name twice, and nothing that is beyond the
limits. A plain value is read back from both layouts (`readWithin_write`).

The induction is on what makes a value plain. It carries `Reads`: the written value is read wherever
it stands, whatever comes after it that cannot go on with a number, and with no more fuel than it
has code points.
-/

namespace DependencyMap

namespace Json

open Pattern (Stops)

/-- A value without reals, surrogates and repeated names, which is within the limits. -/
inductive Value.Plain : Limits → Value → Prop
  | null {limits : Limits} : Plain limits .null
  | bool {limits : Limits} {b : Bool} : Plain limits (.bool b)
  | integer {limits : Limits} {n : Int} : isWithin limits.digits (natText n.natAbs).length →
      Plain limits (.integer n)
  | text {limits : Limits} {t : Text} : t.IsScalar → Plain limits (.text t)
  | array {limits : Limits} {items : List Value} : isWithin limits.nesting 1 →
      (∀ v ∈ items, Plain limits.inner v) → Plain limits (.array items)
  | object {limits : Limits} {members : List (Text × Value)} : isWithin limits.nesting 1 →
      (members.map (·.1)).Nodup → (∀ m ∈ members, m.1.IsScalar) →
      (∀ m ∈ members, Plain limits.inner m.2) → Plain limits (.object members)

variable {limits : Limits} {layout : Layout} {depth : Nat} {rest t : Text}

/-! ### Space -/

theorem skipSpace_append {gap : Text} (hGap : ∀ c ∈ gap, isSpace c = true) (h : Stops isSpace t) :
    skipSpace (gap ++ t) = t := by
  rw [skipSpace, List.dropWhile_append_of_pos hGap]
  cases t with
  | nil => rfl
  | cons c t => rw [List.dropWhile_cons_of_neg (by simpa using h)]

theorem skipSpace_of_stops (h : Stops isSpace t) : skipSpace t = t :=
  skipSpace_append (List.forall_mem_nil _) h

theorem skipSpace_cons {c : CodePoint} (h : isSpace c = false) : skipSpace (c :: t) = c :: t :=
  skipSpace_of_stops (Pattern.stops_cons.mpr h)

theorem isSpace_of_mem_lineBreak : ∀ c ∈ lineBreak layout depth, isSpace c = true := by
  intro c hc
  rw [lineBreak] at hc
  split at hc
  · rcases List.mem_append.mp hc with hc | hc
    · obtain rfl : c = CodePoint.ofChar '\n' := by simpa [Text.ofString] using hc
      decide
    · obtain ⟨-, rfl⟩ := List.mem_replicate.mp hc
      decide
  · cases hc

theorem skipSpace_lineBreak (h : Stops isSpace t) : skipSpace (lineBreak layout depth ++ t) = t :=
  skipSpace_append isSpace_of_mem_lineBreak h

/-! ### Numbers -/

/-- Whether a code point can go on with an integer, or make it a real. -/
def isNumeric (c : CodePoint) : Bool := c.isAsciiDigit || c = '.' || c = 'e' || c = 'E'

theorem isNumeric_of_isSpace {c : CodePoint} (h : isSpace c = true) : isNumeric c = false := by
  simp only [isSpace, Bool.or_eq_true, decide_eq_true_eq] at h
  rcases h with ((rfl | rfl) | rfl) | rfl <;> decide

theorem splitDigits_append {digits : Text} (hDigits : ∀ c ∈ digits, c.isAsciiDigit = true)
    (h : Stops isNumeric rest) : splitDigits (digits ++ rest) = (digits, rest) := by
  rw [splitDigits, List.takeWhile_append_of_pos hDigits, List.dropWhile_append_of_pos hDigits]
  cases rest with
  | nil => simp
  | cons c rest =>
    have hNot : ¬ c.isAsciiDigit = true := by
      simp [isNumeric] at h
      simp [h]
    rw [List.takeWhile_cons_of_neg hNot, List.dropWhile_cons_of_neg hNot, List.append_nil]

theorem readFraction_of_stops (h : Stops isNumeric rest) : readFraction rest = ([], rest) := by
  cases rest with
  | nil => rfl
  | cons c rest =>
    simp [isNumeric] at h
    simp [readFraction, h]

theorem readExponent_of_stops (h : Stops isNumeric rest) : readExponent rest = (none, rest) := by
  cases rest with
  | nil => rfl
  | cons c rest =>
    simp [isNumeric] at h
    simp [readExponent, h]

theorem readWhole_natText (n : Nat) (h : Stops isNumeric rest) :
    readWhole (natText n ++ rest) = (natText n, rest) := by
  by_cases hZero : n = 0
  · subst hZero
    rfl
  · obtain ⟨c, digits, hDigits, hNe⟩ := head_natText_ne_zero (Nat.pos_of_ne_zero hZero)
    have hSplit := splitDigits_append (isAsciiDigit_of_mem_natText n) h
    rw [hDigits, List.cons_append] at hSplit ⊢
    rw [readWhole, if_neg hNe, hSplit]

theorem readNumber_natText {negative : Bool} {n : Nat}
    (hLimit : isWithin limits.digits (natText n).length) (h : Stops isNumeric rest) :
    readNumber limits negative (natText n ++ rest) =
      .ok (.integer (if negative then -(n : Int) else n), rest) := by
  rw [readNumber.eq_def]
  simp only [readWhole_natText n h, readFraction_of_stops h, readExponent_of_stops h]
  simp [natText_ne_nil, hLimit, digitsValue, ofDigits_natText]

theorem ne_of_isAsciiDigit {c d : CodePoint} (h : c.isAsciiDigit = true)
    (hd : d.isAsciiDigit = false) : c ≠ d := by
  rintro rfl
  simp [h] at hd

/-- An integer is no word. -/
theorem readWord_intText (n : Int) : readWord (intText n ++ rest) = none := by
  obtain ⟨c, digits, hDigits⟩ := List.exists_cons_of_ne_nil (natText_ne_nil n.natAbs)
  have hNe {d : CodePoint} (hd : d.isAsciiDigit = false) : d ≠ c :=
    (ne_of_isAsciiDigit (isAsciiDigit_of_mem_natText n.natAbs c (by simp [hDigits])) hd).symm
  have hLetters : CodePoint.ofChar 'n' ≠ c ∧ CodePoint.ofChar 't' ≠ c ∧ CodePoint.ofChar 'f' ≠ c ∧
      CodePoint.ofChar 'N' ≠ c ∧ CodePoint.ofChar 'I' ≠ c ∧ CodePoint.ofChar '-' ≠ c := by
    refine ⟨?_, ?_, ?_, ?_, ?_, ?_⟩ <;> exact hNe (by decide)
  rw [readWord, Option.map_eq_none_iff, List.find?_eq_none, intText]
  split <;>
    simp [words, Text.startsWith, Text.ofString, hDigits, hLetters]

/-! ### Steps of the reader -/

section Steps

variable {fuel : Nat} {after after₁ after₂ : Text} {v : Value} {items : List Value}
  {before members : List (Text × Value)} {name : Text}

theorem readValue_text (h : readString false [] after = some (t, rest)) :
    readValue limits (fuel + 1) (CodePoint.ofChar '"' :: after) = .ok (.text t, rest) := by
  rw [readValue]
  simp [h]

theorem readValue_number {c : CodePoint} (hQuote : c ≠ CodePoint.ofChar '"')
    (hArray : c ≠ CodePoint.ofChar '[') (hObject : c ≠ CodePoint.ofChar '\x7b')
    (hWord : readWord (c :: after) = none) : readValue limits (fuel + 1) (c :: after) =
      if c = CodePoint.ofChar '-' then readNumber limits true after
      else readNumber limits false (c :: after) := by
  rw [readValue, if_neg hQuote, if_neg hArray, if_neg hObject, hWord]

theorem readValue_array_nil (hNesting : isWithin limits.nesting 1) : readValue limits (fuel + 1)
    (CodePoint.ofChar '[' :: CodePoint.ofChar ']' :: rest) = .ok (.array [], rest) := by
  have hSpace : skipSpace (CodePoint.ofChar ']' :: rest) = CodePoint.ofChar ']' :: rest :=
    skipSpace_cons (by decide)
  rw [readValue]
  simp [hNesting, hSpace]

theorem readValue_object_nil (hNesting : isWithin limits.nesting 1) : readValue limits (fuel + 1)
    (CodePoint.ofChar '\x7b' :: CodePoint.ofChar '\x7d' :: rest) = .ok (.object [], rest) := by
  have hSpace : skipSpace (CodePoint.ofChar '\x7d' :: rest) = CodePoint.ofChar '\x7d' :: rest :=
    skipSpace_cons (by decide)
  rw [readValue]
  simp [hNesting, hSpace]

theorem readValue_array {d : CodePoint} (hNesting : isWithin limits.nesting 1)
    (hSpace : skipSpace after = d :: after₁) (hNot : d ≠ CodePoint.ofChar ']')
    (h : readItems limits.inner fuel (d :: after₁) = .ok (items, rest)) :
    readValue limits (fuel + 1) (CodePoint.ofChar '[' :: after) = .ok (.array items, rest) := by
  rw [readValue]
  simp [hNesting, hSpace, hNot, h, Except.map]

theorem readValue_object {d : CodePoint} (hNesting : isWithin limits.nesting 1)
    (hSpace : skipSpace after = d :: after₁) (hNot : d ≠ CodePoint.ofChar '\x7d')
    (h : readMembers limits.inner fuel [] (d :: after₁) = .ok (members, rest)) :
    readValue limits (fuel + 1) (CodePoint.ofChar '\x7b' :: after) =
      .ok (.object members, rest) := by
  rw [readValue]
  simp [hNesting, hSpace, hNot, h, Except.map]

theorem readItems_last (hValue : readValue limits fuel t = .ok (v, after))
    (hEnd : skipSpace after = CodePoint.ofChar ']' :: rest) :
    readItems limits (fuel + 1) t = .ok ([v], rest) := by
  rw [readItems, hValue]
  simp [hEnd]

theorem readItems_more (hValue : readValue limits fuel t = .ok (v, after))
    (hComma : skipSpace after = CodePoint.ofChar ',' :: after₁)
    (hMore : readItems limits fuel (skipSpace after₁) = .ok (items, rest)) :
    readItems limits (fuel + 1) t = .ok (v :: items, rest) := by
  rw [readItems, hValue]
  simp [hComma, hMore, Except.map]

/-- A member is read at the beginning of `t`: its name, a colon and its value. -/
def ReadsMember (limits : Limits) (fuel : Nat) (t name : Text) (v : Value) (after : Text) :
    Prop :=
  ∃ unquoted unnamed uncoloned, t = CodePoint.ofChar '"' :: unquoted ∧
    readString false [] unquoted = some (name, unnamed) ∧
    skipSpace unnamed = CodePoint.ofChar ':' :: uncoloned ∧
    readValue limits fuel (skipSpace uncoloned) = .ok (v, after)

theorem readMembers_last (hMember : ReadsMember limits fuel t name v after)
    (hEnd : skipSpace after = CodePoint.ofChar '\x7d' :: rest) :
    readMembers limits (fuel + 1) before t = .ok (Members.set name v before, rest) := by
  obtain ⟨unquoted, unnamed, uncoloned, rfl, hName, hColon, hValue⟩ := hMember
  rw [readMembers]
  simp [hName, hColon, hValue, hEnd]

theorem readMembers_more (hMember : ReadsMember limits fuel t name v after)
    (hComma : skipSpace after = CodePoint.ofChar ',' :: after₁) :
    readMembers limits (fuel + 1) before t =
      readMembers limits fuel (Members.set name v before) (skipSpace after₁) := by
  obtain ⟨unquoted, unnamed, uncoloned, rfl, hName, hColon, hValue⟩ := hMember
  rw [readMembers]
  simp [hName, hColon, hValue, hComma]

end Steps

/-! ### Values -/

/-- The written value is read back, whatever comes after it that does not go on with a number. -/
def Reads (limits : Limits) (v : Value) : Prop :=
  ∀ (layout : Layout) (depth fuel : Nat) (rest : Text),
    (write layout depth v).length ≤ fuel → Stops isNumeric rest →
    readValue limits fuel (write layout depth v ++ rest) = .ok (v, rest)

theorem write_array_cons {v : Value} {items : List Value} :
    write layout depth (.array (v :: items)) = CodePoint.ofChar '[' ::
      (lineBreak layout (depth + 1) ++ (write layout (depth + 1) v ++
        (writeItems layout (depth + 1) items ++
          (lineBreak layout depth ++ [CodePoint.ofChar ']'])))) := by
  simp [write, Text.ofString]

theorem write_object_cons {m : Text × Value} {members : List (Text × Value)} :
    write layout depth (.object (m :: members)) = CodePoint.ofChar '\x7b' ::
      (lineBreak layout (depth + 1) ++ (writeMember layout (depth + 1) m ++
        (writeMembers layout (depth + 1) members ++
          (lineBreak layout depth ++ [CodePoint.ofChar '\x7d'])))) := by
  simp [write, Text.ofString]

theorem writeItems_cons {v : Value} {items : List Value} :
    writeItems layout depth (v :: items) = CodePoint.ofChar ',' :: (lineBreak layout depth ++
      (write layout depth v ++ writeItems layout depth items)) := by
  simp [writeItems, Text.ofString]

theorem writeMembers_cons {m : Text × Value} {members : List (Text × Value)} :
    writeMembers layout depth (m :: members) = CodePoint.ofChar ',' :: (lineBreak layout depth ++
      (writeMember layout depth m ++ writeMembers layout depth members)) := by
  simp [writeMembers, Text.ofString]

/-- The name of a member, a colon and space, and its value. -/
theorem writeMember_eq {name : Text} {v : Value} : ∃ gap : Text, (∀ c ∈ gap, isSpace c = true) ∧
    writeMember layout depth (name, v) =
      writeText layout name ++ (CodePoint.ofChar ':' :: (gap ++ write layout depth v)) := by
  cases hIndented : layout.indented with
  | true =>
    refine ⟨[CodePoint.ofChar ' '], by decide, ?_⟩
    simp [writeMember, hIndented, Text.ofString]
  | false =>
    refine ⟨[], by simp, ?_⟩
    simp [writeMember, hIndented, Text.ofString]

/-- A written value begins neither with space nor with the end of an array. -/
theorem write_eq_cons {v : Value} (h : v.Plain limits) :
    ∃ c t, write layout depth v = c :: t ∧ isSpace c = false ∧ c ≠ CodePoint.ofChar ']' := by
  cases h with
  | null => exact ⟨_, _, rfl, by decide, by decide⟩
  | @bool _ b => cases b <;> exact ⟨_, _, rfl, by decide, by decide⟩
  | @integer _ n =>
    rw [write, intText]
    split
    · exact ⟨_, _, rfl, by decide, by decide⟩
    · obtain ⟨c, digits, hDigits⟩ := List.exists_cons_of_ne_nil (natText_ne_nil n.natAbs)
      have hDigit := isAsciiDigit_of_mem_natText n.natAbs c (by simp [hDigits])
      have hNe {d : CodePoint} (hd : d.isAsciiDigit = false) : c ≠ d :=
        ne_of_isAsciiDigit hDigit hd
      refine ⟨c, digits, hDigits, ?_, hNe (by decide)⟩
      simp [isSpace, hNe (show (CodePoint.ofChar ' ').isAsciiDigit = false by decide),
        hNe (show (CodePoint.ofChar '\t').isAsciiDigit = false by decide),
        hNe (show (CodePoint.ofChar '\n').isAsciiDigit = false by decide),
        hNe (show (CodePoint.ofChar '\r').isAsciiDigit = false by decide)]
  | text => exact ⟨_, _, rfl, by decide, by decide⟩
  | @array _ items =>
    cases items with
    | nil => exact ⟨_, _, rfl, by decide, by decide⟩
    | cons v items => exact ⟨_, _, write_array_cons, by decide, by decide⟩
  | @object _ members =>
    cases members with
    | nil => exact ⟨_, _, rfl, by decide, by decide⟩
    | cons m members => exact ⟨_, _, write_object_cons, by decide, by decide⟩

theorem stops_write {v : Value} (h : v.Plain limits) :
    Stops isSpace (write layout depth v ++ t) := by
  obtain ⟨c, written, hWritten, hSpace, -⟩ := @write_eq_cons limits layout depth v h
  rw [hWritten]
  exact Pattern.stops_cons.mpr hSpace

theorem stops_lineBreak {p : CodePoint → Bool} {c : CodePoint}
    (hBreak : p (CodePoint.ofChar '\n') = false) (h : p c = false) :
    Stops p (lineBreak layout depth ++ c :: t) := by
  rw [lineBreak]
  split
  · exact Pattern.stops_cons.mpr hBreak
  · exact Pattern.stops_cons.mpr h

theorem exists_fuel {v : Value} (h : v.Plain limits) {fuel : Nat}
    (hFuel : (write layout depth v).length ≤ fuel) : ∃ less, fuel = less + 1 := by
  obtain ⟨c, written, hWritten, -, -⟩ := @write_eq_cons limits layout depth v h
  rw [hWritten, List.length_cons] at hFuel
  exact ⟨fuel - 1, by omega⟩

theorem reads_integer {n : Int} (h : isWithin limits.digits (natText n.natAbs).length) :
    Reads limits (.integer n) := by
  intro layout depth fuel rest hFuel hRest
  obtain ⟨fuel, rfl⟩ := exists_fuel (Value.Plain.integer h) hFuel
  have hWord := @readWord_intText rest n
  have hNumber (negative : Bool) := @readNumber_natText limits rest negative n.natAbs h hRest
  rw [write]
  by_cases hNegative : n < 0
  · have hText : intText n ++ rest = CodePoint.ofChar '-' :: (natText n.natAbs ++ rest) := by
      rw [intText, if_pos hNegative]
      rfl
    have hValue : -(n.natAbs : Int) = n := by omega
    rw [hText] at hWord ⊢
    rw [readValue_number (by decide) (by decide) (by decide) hWord, if_pos rfl, hNumber true,
      if_pos rfl, hValue]
  · obtain ⟨c, digits, hDigits⟩ := List.exists_cons_of_ne_nil (natText_ne_nil n.natAbs)
    have hNe {d : CodePoint} (hd : d.isAsciiDigit = false) : c ≠ d :=
      ne_of_isAsciiDigit (isAsciiDigit_of_mem_natText n.natAbs c (by simp [hDigits])) hd
    have hText : intText n ++ rest = c :: (digits ++ rest) := by
      rw [intText, if_neg hNegative, hDigits]
      rfl
    have hValue : (n.natAbs : Int) = n := by omega
    rw [hText] at hWord ⊢
    rw [readValue_number (hNe (by decide)) (hNe (by decide)) (hNe (by decide)) hWord,
      if_neg (hNe (by decide)), ← List.cons_append, ← hDigits, hNumber false,
      if_neg Bool.false_ne_true, hValue]

theorem reads_text {t : Text} (h : t.IsScalar) : Reads limits (.text t) := by
  intro layout depth fuel rest hFuel hRest
  obtain ⟨written, hWritten, hRead⟩ := @readString_writeText rest layout t fun _ => h
  obtain ⟨fuel, rfl⟩ := exists_fuel (@Value.Plain.text limits t h) hFuel
  rw [write, hWritten]
  exact readValue_text hRead

theorem readItems_write {v : Value} {items : List Value}
    (hItems : ∀ w ∈ v :: items, w.Plain limits ∧ Reads limits w) {fuel : Nat}
    (hFuel : (write layout depth v).length + (writeItems layout depth items).length < fuel)
    {outer : Nat} :
    readItems limits fuel (write layout depth v ++ (writeItems layout depth items ++
      (lineBreak layout outer ++ CodePoint.ofChar ']' :: rest))) = .ok (v :: items, rest) := by
  obtain ⟨fuel, rfl⟩ : ∃ less, fuel = less + 1 := ⟨fuel - 1, by omega⟩
  induction items generalizing v fuel with
  | nil =>
    have hEnd : skipSpace (lineBreak layout outer ++ CodePoint.ofChar ']' :: rest) =
        CodePoint.ofChar ']' :: rest :=
      skipSpace_lineBreak (Pattern.stops_cons.mpr (by decide))
    rw [writeItems, List.nil_append]
    exact readItems_last ((hItems v List.mem_cons_self).2 layout depth fuel _ (by omega)
      (stops_lineBreak (by decide) (by decide))) hEnd
  | cons w items ih =>
    rw [writeItems_cons] at hFuel ⊢
    simp only [List.length_cons, List.length_append, List.cons_append, List.append_assoc] at hFuel ⊢
    have hFirst := (hItems v List.mem_cons_self).2 layout depth fuel
    refine readItems_more (hFirst _ (by omega) (Pattern.stops_cons.mpr (by decide)))
      (skipSpace_cons (by decide)) ?_
    rw [skipSpace_lineBreak (stops_write (hItems w (by simp)).1)]
    obtain ⟨less, rfl⟩ : ∃ less, fuel = less + 1 := ⟨fuel - 1, by omega⟩
    exact ih (fun u hu => hItems u (List.mem_cons_of_mem v hu)) less (by omega)

theorem reads_array {items : List Value} (hNesting : isWithin limits.nesting 1)
    (h : ∀ v ∈ items, v.Plain limits.inner ∧ Reads limits.inner v) :
    Reads limits (.array items) := by
  intro layout depth fuel rest hFuel hRest
  obtain ⟨fuel, rfl⟩ := exists_fuel (.array hNesting fun v hv => (h v hv).1) hFuel
  cases items with
  | nil => exact readValue_array_nil hNesting
  | cons v items =>
    have hPlain := (h v List.mem_cons_self).1
    obtain ⟨c, written, hWritten, -, hNot⟩ :=
      @write_eq_cons limits.inner layout (depth + 1) v hPlain
    simp only [write_array_cons, List.length_cons, List.length_append] at hFuel
    have hItems :=
      @readItems_write limits.inner layout (depth + 1) rest v items h fuel (by omega) depth
    rw [write_array_cons]
    simp only [List.cons_append, List.append_assoc, List.nil_append]
    rw [hWritten, List.cons_append] at hItems
    refine readValue_array hNesting ?_ hNot hItems
    rw [skipSpace_lineBreak (stops_write hPlain), hWritten]
    rfl

/-! ### Members -/

theorem Members.set_of_notMem {name : Text} {v : Value} {before : List (Text × Value)}
    (h : name ∉ before.map (·.1)) : Members.set name v before = before ++ [(name, v)] := by
  induction before with
  | nil => rfl
  | cons m before ih =>
    simp only [List.map_cons, List.mem_cons, not_or] at h
    rw [Members.set, if_neg (Ne.symm h.1), ih h.2]
    rfl

/-- The object that is read with one member more, which has a new name. -/
theorem Members.set_of_nodup {m : Text × Value} {before members : List (Text × Value)}
    (h : ((before ++ m :: members).map (·.1)).Nodup) :
    Members.set m.1 m.2 before = before ++ [m] := by
  refine Members.set_of_notMem fun hMem => ?_
  rw [List.map_append, List.map_cons, List.nodup_append] at h
  exact h.2.2 m.1 hMem m.1 List.mem_cons_self rfl

/-- A member whose name and value are read back. -/
def ReadsAsMember (limits : Limits) (m : Text × Value) : Prop :=
  m.1.IsScalar ∧ m.2.Plain limits ∧ Reads limits m.2

theorem length_writeMember (m : Text × Value) :
    (write layout depth m.2).length < (writeMember layout depth m).length := by
  obtain ⟨gap, -, hMember⟩ := @writeMember_eq layout depth m.1 m.2
  rw [hMember]
  simp
  omega

theorem readsMember_writeMember {m : Text × Value} (h : ReadsAsMember limits m) {fuel : Nat}
    (hFuel : (write layout depth m.2).length ≤ fuel) (hRest : Stops isNumeric rest) :
    ReadsMember limits fuel (writeMember layout depth m ++ rest) m.1 m.2 rest := by
  obtain ⟨hName, hPlain, hReads⟩ := h
  obtain ⟨gap, hGap, hMember⟩ := @writeMember_eq layout depth m.1 m.2
  have hText : writeMember layout depth m ++ rest = writeText layout m.1 ++
      (CodePoint.ofChar ':' :: (gap ++ (write layout depth m.2 ++ rest))) := by
    rw [hMember]
    simp
  obtain ⟨unquoted, hQuoted, hRead⟩ := @readString_writeText
    (CodePoint.ofChar ':' :: (gap ++ (write layout depth m.2 ++ rest))) layout m.1 fun _ => hName
  refine ⟨unquoted, _, _, hText.trans hQuoted, hRead,
    skipSpace_cons (by decide), ?_⟩
  rw [skipSpace_append hGap (stops_write hPlain)]
  exact hReads layout depth fuel rest hFuel hRest

theorem writeMember_eq_cons (m : Text × Value) :
    ∃ t, writeMember layout depth m = CodePoint.ofChar '"' :: t := by
  obtain ⟨gap, -, hMember⟩ := @writeMember_eq layout depth m.1 m.2
  exact ⟨_, hMember.trans rfl⟩

theorem stops_writeMember (m : Text × Value) : Stops isSpace (writeMember layout depth m ++ t) := by
  obtain ⟨written, hWritten⟩ := @writeMember_eq_cons layout depth m
  rw [hWritten]
  exact Pattern.stops_cons.mpr (by decide)

theorem readMembers_write {m : Text × Value} {members before : List (Text × Value)}
    (hMembers : ∀ n ∈ m :: members, ReadsAsMember limits n)
    (hNames : ((before ++ m :: members).map (·.1)).Nodup) {fuel : Nat}
    (hFuel : (writeMember layout depth m).length + (writeMembers layout depth members).length <
      fuel) {outer : Nat} :
    readMembers limits fuel before (writeMember layout depth m ++
      (writeMembers layout depth members ++ (lineBreak layout outer ++
        CodePoint.ofChar '\x7d' :: rest))) = .ok (before ++ m :: members, rest) := by
  obtain ⟨fuel, rfl⟩ : ∃ less, fuel = less + 1 := ⟨fuel - 1, by omega⟩
  induction members generalizing m before fuel with
  | nil =>
    have hLength := @length_writeMember layout depth m
    have hEnd : skipSpace (lineBreak layout outer ++ CodePoint.ofChar '\x7d' :: rest) =
        CodePoint.ofChar '\x7d' :: rest :=
      skipSpace_lineBreak (Pattern.stops_cons.mpr (by decide))
    rw [writeMembers, List.nil_append,
      readMembers_last (readsMember_writeMember (hMembers m List.mem_cons_self) (by omega)
        (stops_lineBreak (by decide) (by decide))) hEnd, Members.set_of_nodup hNames]
  | cons n members ih =>
    have hLength := @length_writeMember layout depth m
    rw [writeMembers_cons] at hFuel ⊢
    simp only [List.length_cons, List.length_append, List.cons_append, List.append_assoc] at hFuel ⊢
    obtain ⟨less, rfl⟩ : ∃ less, fuel = less + 1 := ⟨fuel - 1, by omega⟩
    rw [readMembers_more (readsMember_writeMember (hMembers m List.mem_cons_self) (by omega)
        (Pattern.stops_cons.mpr (by decide)))
      (skipSpace_cons (by decide)),
      skipSpace_lineBreak (stops_writeMember n), Members.set_of_nodup hNames]
    have hRest := @ih n (before ++ [m]) (fun k hk => hMembers k (List.mem_cons_of_mem m hk))
      (by simpa using hNames) less (by omega)
    simpa using hRest

theorem reads_object {members : List (Text × Value)} (hNesting : isWithin limits.nesting 1)
    (hNames : (members.map (·.1)).Nodup) (h : ∀ m ∈ members, ReadsAsMember limits.inner m) :
    Reads limits (.object members) := by
  intro layout depth fuel rest hFuel hRest
  obtain ⟨fuel, rfl⟩ := exists_fuel
    (.object hNesting hNames (fun m hm => (h m hm).1) fun m hm => (h m hm).2.1) hFuel
  cases members with
  | nil => exact readValue_object_nil hNesting
  | cons m members =>
    obtain ⟨written, hWritten⟩ := @writeMember_eq_cons layout (depth + 1) m
    simp only [write_object_cons, List.length_cons, List.length_append] at hFuel
    have hMembers := @readMembers_write limits.inner layout (depth + 1) rest m members [] h hNames
      fuel (by omega) depth
    rw [write_object_cons]
    simp only [List.cons_append, List.append_assoc, List.nil_append]
    rw [hWritten, List.cons_append] at hMembers
    refine readValue_object hNesting ?_ (by decide) hMembers
    rw [skipSpace_lineBreak (stops_writeMember m), hWritten]
    rfl

/-- Every plain value is read back. -/
theorem Value.Plain.reads {v : Value} (h : v.Plain limits) : Reads limits v := by
  induction h with
  | @null limits =>
    intro layout depth fuel rest hFuel hRest
    obtain ⟨fuel, rfl⟩ := exists_fuel (@Value.Plain.null limits) hFuel
    rfl
  | @bool limits b =>
    intro layout depth fuel rest hFuel hRest
    obtain ⟨fuel, rfl⟩ := exists_fuel (@Value.Plain.bool limits b) hFuel
    cases b <;> rfl
  | integer hDigits => exact reads_integer hDigits
  | text hText => exact reads_text hText
  | array hNesting hItems ih => exact reads_array hNesting fun v hv => ⟨hItems v hv, ih v hv⟩
  | object hNesting hNames hText hMembers ih =>
    exact reads_object hNesting hNames fun m hm => ⟨hText m hm, hMembers m hm, ih m hm⟩

/-- A plain value is what its text is read as, in either layout and with space after it. -/
theorem readWithin_write {v : Value} (h : v.Plain limits) {gap : Text}
    (hGap : ∀ c ∈ gap, isSpace c = true) :
    readWithin limits (write layout depth v ++ gap) = .ok v := by
  have hStops : Stops isNumeric gap := fun c hc =>
    isNumeric_of_isSpace (hGap c (List.mem_of_mem_head? hc))
  have hEnd : skipSpace gap = [] := by
    simpa using @skipSpace_append [] gap hGap (Pattern.stops_nil _)
  rw [readWithin, skipSpace_of_stops (stops_write h), h.reads layout depth _ gap (by simp; omega)
    hStops]
  simp [hEnd]

/-- An object that has one member, a text, is read. -/
theorem readWithin_object_text {unquoted valued name t : Text}
    (hNesting : isWithin limits.nesting 1)
    (hName : readString false [] unquoted =
      some (name, CodePoint.ofChar ':' :: CodePoint.ofChar '"' :: valued))
    (hText : readString false [] valued = some (t, [CodePoint.ofChar '\x7d'])) :
    readWithin limits (CodePoint.ofChar '\x7b' :: CodePoint.ofChar '"' :: unquoted) =
      .ok (.object [(name, .text t)]) := by
  have hMember : ReadsMember limits.inner (2 * unquoted.length + 4)
      (CodePoint.ofChar '"' :: unquoted) name (.text t) [CodePoint.ofChar '\x7d'] := by
    refine ⟨_, _, _, rfl, hName, skipSpace_cons (by decide), ?_⟩
    rw [skipSpace_cons (by decide)]
    exact readValue_text hText
  have hObject := readValue_object hNesting (skipSpace_cons (by decide)) (by decide)
    (readMembers_last hMember (skipSpace_cons (by decide)))
  have hFuel : 2 * (unquoted.length + 1 + 1) + 2 = 2 * unquoted.length + 4 + 1 + 1 := by omega
  rw [readWithin, skipSpace_cons (by decide), List.length_cons, List.length_cons, hFuel, hObject]
  rfl

end Json

end DependencyMap
