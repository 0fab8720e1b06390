import DependencyMap.Number.Numeral

/-!
# Written numbers

The decimal digits of a number have its value (`ofDigits_natText`), and only zero begins with a
zero. A number of sixteen bits is written in four hexadecimal digits, from which it can be told
(`ofHex_four`).
-/

namespace DependencyMap

def digit (n : Nat) : CodePoint := CodePoint.ofChar (Nat.digitChar n)

theorem hexDigit?_digit : ∀ n < 16, (digit n).hexDigit? = some n := by decide

theorem isAsciiDigit_digit : ∀ n < 10, (digit n).isAsciiDigit = true := by decide

theorem asciiDigit?_digit : ∀ n < 10, (digit n).asciiDigit? = some n := by decide

/-! ### Decimal digits -/

theorem natText_eq (n : Nat) : natText n = (Nat.toDigits 10 n).map CodePoint.ofChar := by
  rw [natText, Text.ofString, Nat.toString_eq_repr, Nat.toList_repr]

theorem natText_of_lt {n : Nat} (h : n < 10) : natText n = [digit n] := by
  rw [natText_eq, Nat.toDigits_of_lt_base h]
  rfl

theorem natText_of_le {n : Nat} (h : 10 ≤ n) :
    natText n = natText (n / 10) ++ [digit (n % 10)] := by
  rw [natText_eq, natText_eq, Nat.toDigits_of_base_le (by decide) h, List.map_append]
  rfl

theorem natText_ne_nil (n : Nat) : natText n ≠ [] := by
  simp [natText_eq, Nat.toDigits_ne_nil]

theorem isAsciiDigit_of_mem_natText (n : Nat) : ∀ c ∈ natText n, c.isAsciiDigit = true := by
  induction n using Nat.strongRecOn with
  | _ n ih =>
    intro c hc
    by_cases hSmall : n < 10
    · rw [natText_of_lt hSmall, List.mem_singleton] at hc
      exact hc ▸ isAsciiDigit_digit n hSmall
    · rw [natText_of_le (Nat.not_lt.mp hSmall), List.mem_append, List.mem_singleton] at hc
      rcases hc with hc | rfl
      · exact ih (n / 10) (by omega) c hc
      · exact isAsciiDigit_digit _ (by omega)

/-- The digits of a number have its value. -/
theorem ofDigits_natText (n : Nat) :
    Numeral.ofDigits ((natText n).filterMap CodePoint.asciiDigit?) = n := by
  induction n using Nat.strongRecOn with
  | _ n ih =>
    by_cases hSmall : n < 10
    · simp [natText_of_lt hSmall, asciiDigit?_digit n hSmall, Numeral.ofDigits]
    · have hRest := ih (n / 10) (by omega)
      have hLast := asciiDigit?_digit (n % 10) (by omega)
      rw [natText_of_le (Nat.not_lt.mp hSmall)]
      simp only [Numeral.ofDigits, List.filterMap_append, List.foldl_append, List.filterMap_cons,
        List.filterMap_nil, List.foldl_cons, List.foldl_nil, hLast] at hRest ⊢
      omega

/-- Only zero begins with a zero. -/
theorem head_natText_ne_zero {n : Nat} (h : 0 < n) :
    ∃ c rest, natText n = c :: rest ∧ c ≠ '0' := by
  induction n using Nat.strongRecOn with
  | _ n ih =>
    by_cases hSmall : n < 10
    · refine ⟨digit n, [], natText_of_lt hSmall, ?_⟩
      simp [digit]
      omega
    · obtain ⟨c, rest, hRest, hNe⟩ := ih (n / 10) (by omega) (by omega)
      exact ⟨c, rest ++ [digit (n % 10)], by rw [natText_of_le (Nat.not_lt.mp hSmall), hRest]; rfl,
        hNe⟩

/-! ### Hexadecimal digits -/

theorem ofHex_eq (width n : Nat) : Text.ofHex width n =
    (List.replicate (width - (Nat.toDigits 16 n).length) '0' ++ Nat.toDigits 16 n).map
      CodePoint.ofChar := by
  rw [Text.ofHex, Text.ofString, String.toList_ofList]

theorem ofHex_one {n : Nat} (h : n < 16) : Text.ofHex 1 n = [digit n] := by
  rw [ofHex_eq, Nat.toDigits_of_lt_base h]
  rfl

theorem ofHex_succ {width : Nat} (h : 0 < width) (n : Nat) :
    Text.ofHex (width + 1) n = Text.ofHex width (n / 16) ++ [digit (n % 16)] := by
  by_cases hSmall : n < 16
  · have hWidth : width = width - 1 + 1 := by omega
    rw [ofHex_eq, ofHex_eq, Nat.toDigits_of_lt_base hSmall, Nat.div_eq_of_lt hSmall,
      Nat.mod_eq_of_lt hSmall, Nat.toDigits_zero, hWidth]
    simp [digit, List.replicate_succ']
  · rw [ofHex_eq, ofHex_eq, Nat.toDigits_of_base_le (by decide) (Nat.not_lt.mp hSmall)]
    simp [digit]

theorem ofHex_four {n : Nat} (h : n < 65536) : Text.ofHex 4 n =
    [digit (n / 4096), digit (n / 256 % 16), digit (n / 16 % 16), digit (n % 16)] := by
  rw [ofHex_succ (by decide), ofHex_succ (by decide), ofHex_succ (by decide),
    ofHex_one (by omega)]
  simp only [Nat.div_div_eq_div_mul, List.cons_append, List.nil_append]

end DependencyMap
