import DependencyMap.Json.Encoding
import DependencyMap.Proofs.Json.Values

/-!
# Written values as bytes

Bytes that begin with two characters of ASCII are taken as UTF-8 (`detect_eq_utf8`), and every
written object with members begins so: it is decoded from its bytes in either layout
(`decodeWithin_write_object`). A written value has no surrogates if none of its texts has
(`Value.Plain.isScalar_write`), and in the layout that escapes nothing it has them if one of its
texts has (`Value.Holds.isScalar`).
-/

namespace DependencyMap

namespace Json

variable {limits : Limits} {layout : Layout} {depth : Nat}

/-! ### The encoding that is found -/

/-- Bytes that begin with two of ASCII, neither of them zero, are taken as UTF-8. -/
theorem detect_eq_utf8 {a b : UInt8} {rest : Bytes} (ha : a.toNat < 0x80) (hZero : a ≠ 0)
    (hb : b ≠ 0) : Encoding.detect (a :: b :: rest) = (.utf8, a :: b :: rest) := by
  have hMarks : (Encoding.marks.find? fun m => m.1.isPrefixOf (a :: b :: rest)) = none := by
    have hNe {n : UInt8} (hn : 0x80 ≤ n.toNat) : n ≠ a := by
      rintro rfl
      omega
    have hFE : (0xFE : UInt8) ≠ a := hNe (by decide)
    have hFF : (0xFF : UInt8) ≠ a := hNe (by decide)
    have hEF : (0xEF : UInt8) ≠ a := hNe (by decide)
    simp [Encoding.marks, hFE, hFF, hEF, hZero.symm]
  have hZeros : Encoding.ofZeros (a :: b :: rest) = .utf8 := by
    match rest with
    | [] => simp [Encoding.ofZeros, hZero, hb]
    | [_] => rfl
    | _ :: _ :: _ => simp [Encoding.ofZeros, hZero, hb]
  simp [Encoding.detect, hMarks, hZeros]

/-- A text that begins with two code points of ASCII is read from its bytes. -/
theorem decodeWithin_encodeLoosely {c d : CodePoint} {t : Text}
    (hc : 0 < c.value ∧ c.value < 0x80) (hd : 0 < d.value ∧ d.value < 0x80)
    {result : Except ReadFault Value} (h : readWithin limits (c :: d :: t) = result) :
    decodeWithin limits (Utf8.encodeLoosely (c :: d :: t)) = result.mapError .unread := by
  have hBytes : Utf8.encodeLoosely (c :: d :: t) =
      c.value.toUInt8 :: d.value.toUInt8 :: Utf8.encodeLoosely t := by
    simp [Utf8.encodeLoosely, Utf8.encodeCodePoint_one hc.2, Utf8.encodeCodePoint_one hd.2]
  have hNe {e : CodePoint} (he : 0 < e.value ∧ e.value < 0x80) : e.value.toUInt8 ≠ 0 := by
    intro hZero
    rw [Utf8.toUInt8_eq_iff (by omega)] at hZero
    have : (0 : UInt8).toNat = 0 := rfl
    omega
  have hAscii : c.value.toUInt8.toNat < 0x80 := by
    rw [Utf8.toNat_toUInt8 (by omega)]
    exact hc.2
  have hDecode := Utf8.decodeLoosely?_eq_some_iff.mpr (rfl : Utf8.encodeLoosely (c :: d :: t) = _)
  rw [hBytes] at hDecode ⊢
  simp only [decodeWithin, detect_eq_utf8 hAscii (hNe hc) (hNe hd), Encoding.decode?, hDecode, h]
  cases result <;> rfl

/-- An object with members is decoded from the bytes that it is written as. -/
theorem decodeWithin_write_object {members : List (Text × Value)} (hNe : members ≠ [])
    (h : (Value.object members).Plain limits) {gap : Text} (hGap : ∀ c ∈ gap, isSpace c = true) :
    decodeWithin limits (Utf8.encodeLoosely (write layout 0 (.object members) ++ gap)) =
      .ok (.object members) := by
  obtain ⟨m, others, rfl⟩ := List.exists_cons_of_ne_nil hNe
  have hRead := @readWithin_write limits layout 0 _ h gap hGap
  obtain ⟨written, hWritten⟩ := @writeMember_eq_cons layout 1 m
  rw [write_object_cons, hWritten] at hRead ⊢
  cases hLayout : layout.indented with
  | true =>
    simp only [lineBreak, hLayout, if_true] at hRead ⊢
    exact decodeWithin_encodeLoosely (by decide) (by decide) hRead
  | false =>
    simp only [lineBreak, hLayout, Bool.false_eq_true, if_false, List.nil_append] at hRead ⊢
    exact decodeWithin_encodeLoosely (by decide) (by decide) hRead

/-! ### Surrogates in what is written -/

theorem isScalar_of_forall_lt {t : Text} (h : ∀ c ∈ t, c.value < 0xD800) : t.IsScalar :=
  fun c hc => CodePoint.isSurrogate_eq_false_iff.mpr (Or.inl (h c hc))

theorem isScalar_natText (n : Nat) : (natText n).IsScalar := by
  refine isScalar_of_forall_lt fun c hc => ?_
  have hDigit := isAsciiDigit_of_mem_natText n c hc
  simp [CodePoint.isAsciiDigit] at hDigit
  omega

theorem isScalar_intText (n : Int) : (intText n).IsScalar := by
  rw [intText]
  split
  · exact Text.isScalar_append.mpr ⟨by decide, isScalar_natText _⟩
  · exact isScalar_natText _

theorem isScalar_of_forall_isSpace {t : Text} (h : ∀ c ∈ t, isSpace c = true) : t.IsScalar := by
  intro c hc
  have hSpace := h c hc
  simp only [isSpace, Bool.or_eq_true, decide_eq_true_eq] at hSpace
  rcases hSpace with ((rfl | rfl) | rfl) | rfl <;> decide

theorem isSurrogate_digit : ∀ n < 16, (digit n).isSurrogate = false := by decide

theorem isScalar_unitEscape {n : Nat} (h : n < 65536) : (unitEscape n).IsScalar := by
  rw [unitEscape, ofHex_four h, Text.isScalar_append]
  refine ⟨by decide, ?_⟩
  simp [isSurrogate_digit _ (show n / 4096 < 16 by omega),
    isSurrogate_digit _ (show n / 256 % 16 < 16 by omega),
    isSurrogate_digit _ (show n / 16 % 16 < 16 by omega),
    isSurrogate_digit _ (show n % 16 < 16 by omega)]

theorem isScalar_writeCodePoint {c : CodePoint} (h : c.isSurrogate = false) :
    (writeCodePoint layout c).IsScalar := by
  have hBound := c.value_lt
  rw [writeCodePoint]
  cases hFound : shortEscapes.find? fun e => c = CodePoint.ofChar e.1 with
  | some e =>
    have hEscapes : ∀ e ∈ shortEscapes, (Text.ofString e.2).IsScalar := by decide
    exact hEscapes e (List.mem_of_find?_eq_some hFound)
  | none =>
    simp only
    split
    · rw [numberEscape]
      split
      · rename_i hSmall
        exact isScalar_unitEscape hSmall
      · exact Text.isScalar_append.mpr
          ⟨isScalar_unitEscape (by omega), isScalar_unitEscape (by omega)⟩
    · simpa using h

theorem isScalar_writeText {t : Text} (h : t.IsScalar) : (writeText layout t).IsScalar := by
  have hInner : Text.IsScalar (t.flatMap (writeCodePoint layout)) := by
    intro d hd
    obtain ⟨c, hc, hd⟩ := List.mem_flatMap.mp hd
    exact isScalar_writeCodePoint (h c hc) d hd
  rw [writeText, Text.isScalar_append, Text.isScalar_append]
  exact ⟨⟨by decide, hInner⟩, by decide⟩

theorem isScalar_lineBreak : (lineBreak layout depth).IsScalar :=
  isScalar_of_forall_isSpace isSpace_of_mem_lineBreak

theorem isScalar_writeMember_iff {m : Text × Value} : (writeMember layout depth m).IsScalar ↔
    (writeText layout m.1).IsScalar ∧ (write layout depth m.2).IsScalar := by
  obtain ⟨gap, hGap, hMember⟩ := @writeMember_eq layout depth m.1 m.2
  have hColon : (CodePoint.ofChar ':').isSurrogate = false := by decide
  rw [hMember]
  simp [hColon, isScalar_of_forall_isSpace hGap]

theorem isScalar_writeItems_iff {items : List Value} : (writeItems layout depth items).IsScalar ↔
    ∀ v ∈ items, (write layout depth v).IsScalar := by
  have hComma : (CodePoint.ofChar ',').isSurrogate = false := by decide
  induction items with
  | nil => simp [writeItems]
  | cons v items ih => simp [writeItems_cons, hComma, isScalar_lineBreak, ih]

theorem isScalar_writeMembers_iff {members : List (Text × Value)} :
    (writeMembers layout depth members).IsScalar ↔
      ∀ m ∈ members, (writeMember layout depth m).IsScalar := by
  have hComma : (CodePoint.ofChar ',').isSurrogate = false := by decide
  induction members with
  | nil => simp [writeMembers]
  | cons m members ih =>
    rw [writeMembers_cons, List.forall_mem_cons]
    simp [hComma, isScalar_lineBreak, ih]

/-- The brackets of an array and the space in it are no surrogates. -/
theorem isScalar_write_array_iff {items : List Value} :
    (write layout depth (.array items)).IsScalar ↔
      ∀ v ∈ items, (write layout (depth + 1) v).IsScalar := by
  cases items with
  | nil =>
    rw [write]
    exact iff_of_true (by decide) (List.forall_mem_nil _)
  | cons v items =>
    have hOpen : (CodePoint.ofChar '[').isSurrogate = false := by decide
    have hClose : (CodePoint.ofChar ']').isSurrogate = false := by decide
    simp [write_array_cons, isScalar_lineBreak, isScalar_writeItems_iff, hOpen, hClose]

theorem isScalar_write_object_iff {members : List (Text × Value)} :
    (write layout depth (.object members)).IsScalar ↔
      ∀ m ∈ members, (writeMember layout (depth + 1) m).IsScalar := by
  cases members with
  | nil =>
    rw [write]
    exact iff_of_true (by decide) (List.forall_mem_nil _)
  | cons m members =>
    have hOpen : (CodePoint.ofChar '\x7b').isSurrogate = false := by decide
    have hClose : (CodePoint.ofChar '\x7d').isSurrogate = false := by decide
    rw [write_object_cons, List.forall_mem_cons]
    simp [isScalar_lineBreak, isScalar_writeMembers_iff, hOpen, hClose]

/-- What a plain value is written as has no surrogate. -/
theorem Value.Plain.isScalar_write {v : Value} (h : v.Plain limits) :
    (write layout depth v).IsScalar := by
  induction h generalizing depth with
  | null =>
    rw [write]
    decide
  | @bool _ b =>
    rw [write]
    cases b <;> decide
  | integer => exact isScalar_intText _
  | text hText => exact isScalar_writeText hText
  | array _ _ ih => exact isScalar_write_array_iff.mpr fun v hv => ih v hv
  | object _ _ hText _ ih =>
    exact isScalar_write_object_iff.mpr fun m hm =>
      isScalar_writeMember_iff.mpr ⟨isScalar_writeText (hText m hm), ih m hm⟩

inductive Value.Holds : Value → Text → Prop
  | text {t : Text} : Holds (.text t) t
  | item {items : List Value} {v : Value} {t : Text} : v ∈ items → Holds v t →
      Holds (.array items) t
  | member {members : List (Text × Value)} {m : Text × Value} {t : Text} : m ∈ members →
      Holds m.2 t → Holds (.object members) t

/-- In the compact form a surrogate is left as it is. -/
theorem writeCodePoint_compact_of_isSurrogate {c : CodePoint} (h : c.isSurrogate = true) :
    writeCodePoint compact c = [c] := by
  have hFound : (shortEscapes.find? fun e => c = CodePoint.ofChar e.1) = none := by
    have hScalar : ∀ e ∈ shortEscapes, (CodePoint.ofChar e.1).isSurrogate = false := by decide
    refine List.find?_eq_none.mpr fun e he hSame => ?_
    have hNot := hScalar e he
    rw [← of_decide_eq_true hSame, h] at hNot
    cases hNot
  have hValue : ¬ c.value < 0x20 := by
    simp [CodePoint.isSurrogate] at h
    omega
  simp [writeCodePoint, hFound, hValue, compact]

theorem isScalar_of_writeText_compact {t : Text} (h : (writeText compact t).IsScalar) :
    t.IsScalar := by
  intro c hc
  by_contra hNot
  have hSurrogate : c.isSurrogate = true := Bool.not_eq_false _ ▸ hNot
  have hMem : c ∈ writeText compact t := by
    have hInner : c ∈ t.flatMap (writeCodePoint compact) :=
      List.mem_flatMap.mpr ⟨c, hc, by simp [writeCodePoint_compact_of_isSurrogate hSurrogate]⟩
    exact List.mem_append_left _ (List.mem_append_right _ hInner)
  exact hNot (h c hMem)

/-- Where a value is written compactly without surrogates, no text in it has one. -/
theorem Value.Holds.isScalar {v : Value} {t : Text} (h : v.Holds t)
    (hWritten : (write compact depth v).IsScalar) : t.IsScalar := by
  induction h generalizing depth with
  | text => exact isScalar_of_writeText_compact hWritten
  | item hv _ ih => exact ih (isScalar_write_array_iff.mp hWritten _ hv)
  | member hm _ ih =>
    exact ih (isScalar_writeMember_iff.mp (isScalar_write_object_iff.mp hWritten _ hm)).2

end Json

end DependencyMap
