import DependencyMap.Json.Reader
import DependencyMap.Json.Value
import DependencyMap.Proofs.Text.Digits
import DependencyMap.Proofs.Text.Utf8

/-!
# Reading written strings

A string without surrogates is read back from both layouts (`readString_writeText`). What a code
point is written as is read as that code point, whatever was read before it: of two escaped units in
a row, the first is no low surrogate, so that it never joins the code point before them.
-/

namespace DependencyMap

namespace Json

variable {joinable : Bool} {before rest : Text}

/-! ### Escapes -/

theorem readString_escape {e d : CodePoint} (hUnit : e ≠ 'u') (h : escaped? e = some d) :
    readString joinable before (CodePoint.ofChar '\\' :: e :: rest) =
      readString false (d :: before) rest := by
  rw [readString.eq_def]
  simp [hUnit, h]

/-- Each escape of one letter is a backslash and a letter that stands for the code point. -/
theorem escaped?_of_mem_shortEscapes : ∀ e ∈ shortEscapes, ∃ d,
    Text.ofString e.2 = [CodePoint.ofChar '\\', d] ∧ d ≠ 'u' ∧
      escaped? d = some (CodePoint.ofChar e.1) := by
  simp only [shortEscapes, List.forall_mem_cons]
  refine ⟨?_, ?_, ?_, ?_, ?_, ?_, ?_, fun _ h => nomatch h⟩
  all_goals exact ⟨_, rfl, by decide, by decide⟩

theorem readString_shortEscape {e : Char × String} (h : e ∈ shortEscapes) :
    readString joinable before (Text.ofString e.2 ++ rest) =
      readString false (CodePoint.ofChar e.1 :: before) rest := by
  obtain ⟨d, hText, hUnit, hEscaped⟩ := escaped?_of_mem_shortEscapes e h
  rw [hText]
  exact readString_escape hUnit hEscaped

theorem unit?_digits {n : Nat} (h : n < 65536) :
    unit? (digit (n / 4096)) (digit (n / 256 % 16)) (digit (n / 16 % 16)) (digit (n % 16)) =
      CodePoint.ofNat? n := by
  simp only [unit?, hexDigit?_digit _ (show n / 4096 < 16 by omega),
    hexDigit?_digit _ (show n / 256 % 16 < 16 by omega),
    hexDigit?_digit _ (show n / 16 % 16 < 16 by omega),
    hexDigit?_digit _ (show n % 16 < 16 by omega), Option.bind_eq_bind, Option.bind_some]
  congr 1
  omega

theorem readString_unitEscape {n : Nat} (h : n < 65536) {c : CodePoint} (hc : c.value = n) :
    readString joinable before (unitEscape n ++ rest) =
      readString true (pushUnit joinable before c) rest := by
  have hUnit := (unit?_digits h).trans (CodePoint.ofNat?_eq_some_iff.mpr hc)
  have hText : unitEscape n = [CodePoint.ofChar '\\', CodePoint.ofChar 'u', digit (n / 4096),
      digit (n / 256 % 16), digit (n / 16 % 16), digit (n % 16)] := by
    rw [unitEscape, ofHex_four h]
    rfl
  rw [hText, readString.eq_def]
  simp [hUnit]

/-! ### Code points -/

/-- A unit that is no low surrogate joins nothing. -/
theorem pushUnit_of_not_low {c : CodePoint} (h : c.isLowSurrogate = false) :
    pushUnit joinable before c = c :: before := by
  cases before with
  | nil => rfl
  | cons d earlier => cases joinable <;> simp [pushUnit, joinSurrogates?, h]

theorem isLowSurrogate_eq_false {c : CodePoint} (h : c.isSurrogate = false) :
    c.isLowSurrogate = false := by
  rw [CodePoint.isSurrogate_eq_false_iff] at h
  simp only [CodePoint.isLowSurrogate, Bool.and_eq_false_iff, decide_eq_false_iff_not]
  omega

/-- The two units of a code point above U+FFFF make it again. -/
theorem joinSurrogates?_eq_some {c high low : CodePoint} (h : 0x10000 ≤ c.value)
    (hHigh : high.value = 0xD800 + (c.value - 0x10000) / 0x400)
    (hLow : low.value = 0xDC00 + (c.value - 0x10000) % 0x400) :
    joinSurrogates? high low = some c := by
  have hBound := c.value_lt
  have hUnits : (high.isHighSurrogate && low.isLowSurrogate) = true := by
    simp only [CodePoint.isHighSurrogate, CodePoint.isLowSurrogate, Bool.and_eq_true,
      decide_eq_true_eq]
    omega
  rw [joinSurrogates?, if_pos hUnits, CodePoint.ofNat?_eq_some_iff]
  omega

theorem readString_numberEscape {c : CodePoint} (h : c.isSurrogate = false) :
    readString joinable before (numberEscape c ++ rest) = readString true (c :: before) rest := by
  have hBound := c.value_lt
  rw [numberEscape]
  split
  · rename_i hSmall
    rw [readString_unitEscape hSmall rfl, pushUnit_of_not_low (isLowSurrogate_eq_false h)]
  · rename_i hLarge
    obtain ⟨high, hHigh⟩ : ∃ high : CodePoint,
        high.value = 0xD800 + (c.value - 0x10000) / 0x400 := ⟨⟨_, by omega⟩, rfl⟩
    obtain ⟨low, hLow⟩ : ∃ low : CodePoint,
        low.value = 0xDC00 + (c.value - 0x10000) % 0x400 := ⟨⟨_, by omega⟩, rfl⟩
    have hNotLow : high.isLowSurrogate = false := by
      simp only [CodePoint.isLowSurrogate, Bool.and_eq_false_iff, decide_eq_false_iff_not]
      omega
    have hJoined := joinSurrogates?_eq_some (Nat.not_lt.mp hLarge) hHigh hLow
    simp only [List.append_assoc]
    rw [readString_unitEscape (by omega) hHigh, pushUnit_of_not_low hNotLow,
      readString_unitEscape (by omega) hLow]
    simp [pushUnit, hJoined]

/-- What a code point is written as is read as the code point. -/
theorem readString_writeCodePoint {layout : Layout} {c : CodePoint}
    (h : layout.ascii = true → c.isSurrogate = false) :
    ∃ joins, readString joinable before (writeCodePoint layout c ++ rest) =
      readString joins (c :: before) rest := by
  rw [writeCodePoint]
  cases hFound : shortEscapes.find? fun e => c = CodePoint.ofChar e.1 with
  | some e =>
    have hSame : c = CodePoint.ofChar e.1 := by simpa using List.find?_some hFound
    exact ⟨false, hSame ▸ readString_shortEscape (List.mem_of_find?_eq_some hFound)⟩
  | none =>
    by_cases hEscaped : c.value < 0x20 ∨ layout.ascii = true ∧ 0x7E < c.value
    · have hSurrogate : c.isSurrogate = false := by
        rcases hEscaped with hControl | ⟨hAscii, -⟩
        · exact CodePoint.isSurrogate_eq_false_iff.mpr (Or.inl (by omega))
        · exact h hAscii
      refine ⟨true, ?_⟩
      simp only [Bool.or_eq_true, Bool.and_eq_true, decide_eq_true_eq, hEscaped, if_true]
      exact readString_numberEscape hSurrogate
    · refine ⟨false, ?_⟩
      have hNot := List.find?_eq_none.mp hFound
      have hQuote : c ≠ CodePoint.ofChar '"' := by
        simpa using hNot ('"', "\\\"") (by simp [shortEscapes])
      have hBackslash : c ≠ CodePoint.ofChar '\\' := by
        simpa using hNot ('\\', "\\\\") (by simp [shortEscapes])
      simp only [Bool.or_eq_true, Bool.and_eq_true, decide_eq_true_eq, hEscaped, if_false]
      rw [List.singleton_append, readString.eq_def]
      simp only [hQuote, hBackslash, if_false]
      rw [if_neg fun hControl => hEscaped (Or.inl hControl)]

/-- A written string is read back. -/
theorem readString_written {layout : Layout} {t : Text}
    (h : layout.ascii = true → t.IsScalar) :
    readString joinable before (t.flatMap (writeCodePoint layout) ++ CodePoint.ofChar '"' :: rest) =
      some (before.reverse ++ t, rest) := by
  induction t generalizing joinable before with
  | nil =>
    rw [readString.eq_def]
    simp
  | cons c t ih =>
    rw [List.flatMap_cons, List.append_assoc]
    obtain ⟨joins, hFirst⟩ := @readString_writeCodePoint joinable before
      (t.flatMap (writeCodePoint layout) ++ CodePoint.ofChar '"' :: rest) layout c
      fun hAscii => (Text.isScalar_cons.mp (h hAscii)).1
    rw [hFirst, ih fun hAscii => (Text.isScalar_cons.mp (h hAscii)).2]
    simp

theorem readString_writeText {layout : Layout} {t : Text}
    (h : layout.ascii = true → t.IsScalar) :
    ∃ written, writeText layout t ++ rest = CodePoint.ofChar '"' :: written ∧
      readString false [] written = some (t, rest) := by
  refine ⟨t.flatMap (writeCodePoint layout) ++ CodePoint.ofChar '"' :: rest, ?_,
    readString_written h⟩
  simp [writeText, Text.ofString]

end Json

end DependencyMap
