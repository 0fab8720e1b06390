import DependencyMap.Text.Utf8
import Mathlib.Data.List.Basic

/-!
# Decoding and encoding UTF-8

Decoding accepts exactly what encoding writes: `decode_eq_ok_iff` says that bytes decode to a text
just when they are what the text is written as. Where surrogates are let through the same holds of
all texts (`decodeLoosely?_eq_some_iff`).

`Sequence.Closes` says which bytes close an open sequence, and with which code point. What a first
byte begins is closed by just those bytes that come after it in a written code point
(`closes_begin?_iff`); the two main statements follow by taking the bytes sequence by sequence.
-/

namespace DependencyMap

namespace CodePoint

theorem ofNat?_eq_some_iff {n : Nat} {c : CodePoint} : ofNat? n = some c ↔ c.value = n := by
  rw [ofNat?]
  constructor
  · intro h
    split at h
    · cases h
      rfl
    · cases h
  · rintro rfl
    rw [dif_pos c.value_lt]

theorem isSurrogate_eq_false_iff {c : CodePoint} :
    c.isSurrogate = false ↔ c.value < 0xD800 ∨ 0xDFFF < c.value := by
  simp only [isSurrogate, Bool.and_eq_false_iff, decide_eq_false_iff_not]
  omega

end CodePoint

namespace Utf8

/-! ### The bytes of a code point -/

section Forms

variable {c : CodePoint}

theorem encodeCodePoint_one (h : c.value < 0x80) : encodeCodePoint c = [c.value.toUInt8] := by
  simp only [encodeCodePoint, if_pos h]

theorem encodeCodePoint_two (hLow : 0x80 ≤ c.value) (hHigh : c.value < 0x800) :
    encodeCodePoint c = [(0xC0 + c.value / 64).toUInt8, (0x80 + c.value % 64).toUInt8] := by
  simp only [encodeCodePoint, if_neg (Nat.not_lt.mpr hLow), if_pos hHigh]
  simp

theorem encodeCodePoint_three (hLow : 0x800 ≤ c.value) (hHigh : c.value < 0x10000) :
    encodeCodePoint c = [(0xE0 + c.value / 4096).toUInt8, (0x80 + c.value / 64 % 64).toUInt8,
      (0x80 + c.value % 64).toUInt8] := by
  simp only [encodeCodePoint, if_neg (show ¬ c.value < 0x80 by omega),
    if_neg (Nat.not_lt.mpr hLow), if_pos hHigh]
  simp

theorem encodeCodePoint_four (hLow : 0x10000 ≤ c.value) :
    encodeCodePoint c = [(0xF0 + c.value / 262144).toUInt8, (0x80 + c.value / 4096 % 64).toUInt8,
      (0x80 + c.value / 64 % 64).toUInt8, (0x80 + c.value % 64).toUInt8] := by
  simp only [encodeCodePoint, if_neg (show ¬ c.value < 0x80 by omega),
    if_neg (show ¬ c.value < 0x800 by omega), if_neg (Nat.not_lt.mpr hLow)]
  simp

theorem toNat_toUInt8 {n : Nat} (h : n < 256) : n.toUInt8.toNat = n := UInt8.toNat_ofNat_of_lt' h

theorem toUInt8_eq_iff {n : Nat} (h : n < 256) {b : UInt8} : n.toUInt8 = b ↔ n = b.toNat := by
  rw [← UInt8.toNat_inj, toNat_toUInt8 h]

theorem encodeCodePoint_eq_two_iff (hLow : 0x80 ≤ c.value) (hHigh : c.value < 0x800) {b : UInt8}
    {tail : Bytes} :
    encodeCodePoint c = b :: tail ↔
      ∃ b₁, tail = [b₁] ∧ 0xC0 + c.value / 64 = b.toNat ∧ 0x80 + c.value % 64 = b₁.toNat := by
  rw [encodeCodePoint_two hLow hHigh, List.cons.injEq, toUInt8_eq_iff (by omega)]
  constructor
  · rintro ⟨hFirst, rfl⟩
    exact ⟨_, rfl, hFirst, (toNat_toUInt8 (by omega)).symm⟩
  · rintro ⟨b₁, rfl, hFirst, hNext⟩
    rw [(toUInt8_eq_iff (by omega)).mpr hNext]
    exact ⟨hFirst, rfl⟩

theorem encodeCodePoint_eq_three_iff (hLow : 0x800 ≤ c.value) (hHigh : c.value < 0x10000)
    {b : UInt8} {tail : Bytes} :
    encodeCodePoint c = b :: tail ↔
      ∃ b₁ b₂, tail = [b₁, b₂] ∧ 0xE0 + c.value / 4096 = b.toNat ∧
        0x80 + c.value / 64 % 64 = b₁.toNat ∧ 0x80 + c.value % 64 = b₂.toNat := by
  rw [encodeCodePoint_three hLow hHigh, List.cons.injEq, toUInt8_eq_iff (by omega)]
  constructor
  · rintro ⟨hFirst, rfl⟩
    exact ⟨_, _, rfl, hFirst, (toNat_toUInt8 (by omega)).symm, (toNat_toUInt8 (by omega)).symm⟩
  · rintro ⟨b₁, b₂, rfl, hFirst, hNext, hLast⟩
    rw [(toUInt8_eq_iff (by omega)).mpr hNext, (toUInt8_eq_iff (by omega)).mpr hLast]
    exact ⟨hFirst, rfl⟩

theorem encodeCodePoint_eq_four_iff (hLow : 0x10000 ≤ c.value) {b : UInt8} {tail : Bytes} :
    encodeCodePoint c = b :: tail ↔
      ∃ b₁ b₂ b₃, tail = [b₁, b₂, b₃] ∧ 0xF0 + c.value / 262144 = b.toNat ∧
        0x80 + c.value / 4096 % 64 = b₁.toNat ∧ 0x80 + c.value / 64 % 64 = b₂.toNat ∧
        0x80 + c.value % 64 = b₃.toNat := by
  have hHigh := c.value_lt
  rw [encodeCodePoint_four hLow, List.cons.injEq, toUInt8_eq_iff (by omega)]
  constructor
  · rintro ⟨hFirst, rfl⟩
    exact ⟨_, _, _, rfl, hFirst, (toNat_toUInt8 (by omega)).symm,
      (toNat_toUInt8 (by omega)).symm, (toNat_toUInt8 (by omega)).symm⟩
  · rintro ⟨b₁, b₂, b₃, rfl, hFirst, hNext, hMiddle, hLast⟩
    rw [(toUInt8_eq_iff (by omega)).mpr hNext, (toUInt8_eq_iff (by omega)).mpr hMiddle,
      (toUInt8_eq_iff (by omega)).mpr hLast]
    exact ⟨hFirst, rfl⟩

theorem encodeCodePoint_ne_nil (c : CodePoint) : encodeCodePoint c ≠ [] := by
  simp only [encodeCodePoint]
  split
  · exact List.cons_ne_nil _ _
  · split
    · exact List.cons_ne_nil _ _
    · split <;> exact List.cons_ne_nil _ _

/-- A byte of ASCII stands for itself and for nothing else. -/
theorem encodeCodePoint_eq_ascii_iff {b : UInt8} (h : b.toNat < 0x80) {tail : Bytes} :
    encodeCodePoint c = b :: tail ↔ c.value = b.toNat ∧ tail = [] := by
  constructor
  · intro hBytes
    by_cases hOne : c.value < 0x80
    · rw [encodeCodePoint_one hOne, List.cons.injEq, toUInt8_eq_iff (by omega)] at hBytes
      obtain ⟨hValue, rfl⟩ := hBytes
      exact ⟨hValue, rfl⟩
    by_cases hTwo : c.value < 0x800
    · obtain ⟨b₁, -, hFirst, -⟩ := (encodeCodePoint_eq_two_iff (by omega) hTwo).mp hBytes
      omega
    by_cases hThree : c.value < 0x10000
    · obtain ⟨b₁, b₂, -, hFirst, -⟩ := (encodeCodePoint_eq_three_iff (by omega) hThree).mp hBytes
      omega
    · obtain ⟨b₁, b₂, b₃, -, hFirst, -⟩ := (encodeCodePoint_eq_four_iff (by omega)).mp hBytes
      omega
  · rintro ⟨hValue, rfl⟩
    rw [encodeCodePoint_one (by omega), (toUInt8_eq_iff (by omega)).mpr hValue]

theorem encodeLoosely_eq_nil_iff {t : Text} : encodeLoosely t = [] ↔ t = [] := by
  cases t with
  | nil => simp [encodeLoosely]
  | cons c t => simp [encodeLoosely, encodeCodePoint_ne_nil]

end Forms

/-! ### Closing a sequence -/

namespace Sequence

def Allows (q : Sequence) (b : UInt8) : Prop := q.low ≤ b.toNat ∧ b.toNat ≤ q.high

/-- The bytes close the sequence, and it stands for the code point. -/
inductive Closes : Sequence → Bytes → CodePoint → Prop
  | last {q : Sequence} {b : UInt8} {c : CodePoint} : q.missing ≤ 1 → q.Allows b →
      c.value = q.bitsWith b → Closes q [b] c
  | more {q : Sequence} {b : UInt8} {tail : Bytes} {c : CodePoint} : 1 < q.missing →
      q.Allows b → Closes (q.add b) tail c → Closes q (b :: tail) c

theorem closes_one_iff {q : Sequence} {tail : Bytes} {c : CodePoint} (h : q.missing = 1) :
    q.Closes tail c ↔ ∃ b, tail = [b] ∧ q.Allows b ∧ c.value = q.bitsWith b := by
  constructor
  · intro hCloses
    cases hCloses with
    | last _ hAllows hValue => exact ⟨_, rfl, hAllows, hValue⟩
    | more hMore => omega
  · rintro ⟨b, rfl, hAllows, hValue⟩
    exact .last (Nat.le_of_eq h) hAllows hValue

theorem closes_more_iff {q : Sequence} {bytes : Bytes} {c : CodePoint} (h : 1 < q.missing) :
    q.Closes bytes c ↔ ∃ b tail, bytes = b :: tail ∧ q.Allows b ∧ (q.add b).Closes tail c := by
  constructor
  · intro hCloses
    cases hCloses with
    | last hLast => omega
    | more _ hAllows hRest => exact ⟨_, _, rfl, hAllows, hRest⟩
  · rintro ⟨b, tail, rfl, hAllows, hRest⟩
    exact .more h hAllows hRest

theorem closes_two_iff {q : Sequence} {bytes : Bytes} {c : CodePoint} (h : q.missing = 2) :
    q.Closes bytes c ↔ ∃ b₁ b₂, bytes = [b₁, b₂] ∧ q.Allows b₁ ∧
      (0x80 ≤ b₂.toNat ∧ b₂.toNat ≤ 0xBF) ∧
      c.value = q.bitsWith b₁ * 64 + b₂.toNat % 64 := by
  rw [closes_more_iff (by omega)]
  constructor
  · rintro ⟨b₁, tail, rfl, hAllows, hRest⟩
    obtain ⟨b₂, rfl, hLast, hValue⟩ := (closes_one_iff (by simp [add, h])).mp hRest
    exact ⟨b₁, b₂, rfl, hAllows, hLast, hValue⟩
  · rintro ⟨b₁, b₂, rfl, hAllows, hLast, hValue⟩
    exact ⟨b₁, [b₂], rfl, hAllows, (closes_one_iff (by simp [add, h])).mpr ⟨b₂, rfl, hLast, hValue⟩⟩

theorem closes_three_iff {q : Sequence} {bytes : Bytes} {c : CodePoint} (h : q.missing = 3) :
    q.Closes bytes c ↔ ∃ b₁ b₂ b₃, bytes = [b₁, b₂, b₃] ∧ q.Allows b₁ ∧
      (0x80 ≤ b₂.toNat ∧ b₂.toNat ≤ 0xBF) ∧ (0x80 ≤ b₃.toNat ∧ b₃.toNat ≤ 0xBF) ∧
      c.value = (q.bitsWith b₁ * 64 + b₂.toNat % 64) * 64 + b₃.toNat % 64 := by
  rw [closes_more_iff (by omega)]
  constructor
  · rintro ⟨b₁, tail, rfl, hAllows, hRest⟩
    obtain ⟨b₂, b₃, rfl, hMiddle, hLast, hValue⟩ := (closes_two_iff (by simp [add, h])).mp hRest
    exact ⟨b₁, b₂, b₃, rfl, hAllows, hMiddle, hLast, hValue⟩
  · rintro ⟨b₁, b₂, b₃, rfl, hAllows, hMiddle, hLast, hValue⟩
    exact ⟨b₁, [b₂, b₃], rfl, hAllows,
      (closes_two_iff (by simp [add, h])).mpr ⟨b₂, b₃, rfl, hMiddle, hLast, hValue⟩⟩

end Sequence

section Beginning

variable {surrogates : Bool} {b : UInt8} {start : Nat}

theorem begin?_two (hLow : 0xC2 ≤ b.toNat) (hHigh : b.toNat ≤ 0xDF) :
    ∃ q, begin? surrogates b start = some q ∧ q.missing = 1 ∧ q.bits = b.toNat - 0xC0 ∧
      ∀ b₁, q.Allows b₁ ↔ 0x80 ≤ b₁.toNat ∧ b₁.toNat ≤ 0xBF := by
  simp only [begin?, if_pos (And.intro hLow hHigh)]
  exact ⟨_, rfl, rfl, rfl, fun _ => Iff.rfl⟩

theorem begin?_three (hLow : 0xE0 ≤ b.toNat) (hHigh : b.toNat ≤ 0xEF) :
    ∃ q, begin? surrogates b start = some q ∧ q.missing = 2 ∧ q.bits = b.toNat - 0xE0 ∧
      ∀ b₁, q.Allows b₁ ↔ (0x80 ≤ b₁.toNat ∧ b₁.toNat ≤ 0xBF) ∧
        (b.toNat = 0xE0 → 0xA0 ≤ b₁.toNat) ∧
        (surrogates = false → b.toNat = 0xED → b₁.toNat ≤ 0x9F) := by
  have hNot : ¬ (0xC2 ≤ b.toNat ∧ b.toNat ≤ 0xDF) := by omega
  simp only [begin?, if_neg hNot, if_pos (And.intro hLow hHigh)]
  refine ⟨_, rfl, rfl, rfl, fun b₁ => ?_⟩
  cases surrogates <;> simp [Sequence.Allows] <;> grind

theorem begin?_four (hLow : 0xF0 ≤ b.toNat) (hHigh : b.toNat ≤ 0xF4) :
    ∃ q, begin? surrogates b start = some q ∧ q.missing = 3 ∧ q.bits = b.toNat - 0xF0 ∧
      ∀ b₁, q.Allows b₁ ↔ (0x80 ≤ b₁.toNat ∧ b₁.toNat ≤ 0xBF) ∧
        (b.toNat = 0xF0 → 0x90 ≤ b₁.toNat) ∧ (b.toNat = 0xF4 → b₁.toNat ≤ 0x8F) := by
  have hTwo : ¬ (0xC2 ≤ b.toNat ∧ b.toNat ≤ 0xDF) := by omega
  have hThree : ¬ (0xE0 ≤ b.toNat ∧ b.toNat ≤ 0xEF) := by omega
  simp only [begin?, if_neg hTwo, if_neg hThree, if_pos (And.intro hLow hHigh)]
  refine ⟨_, rfl, rfl, rfl, fun b₁ => ?_⟩
  simp only [Sequence.Allows]
  grind

/-- A byte that begins a sequence is in one of three ranges. -/
theorem range_of_begin? {q : Sequence} (h : begin? surrogates b start = some q) :
    (0xC2 ≤ b.toNat ∧ b.toNat ≤ 0xDF) ∨ (0xE0 ≤ b.toNat ∧ b.toNat ≤ 0xEF) ∨
      (0xF0 ≤ b.toNat ∧ b.toNat ≤ 0xF4) := by
  simp only [begin?] at h
  split at h
  · rename_i hRange
    exact Or.inl hRange
  · split at h
    · rename_i hRange
      exact Or.inr (Or.inl hRange)
    · split at h
      · rename_i hRange
        exact Or.inr (Or.inr hRange)
      · cases h

/-- What closes the sequence of a first byte of two. -/
theorem closes_begin?_two_iff (hLow : 0xC2 ≤ b.toNat) (hHigh : b.toNat ≤ 0xDF) {tail : Bytes}
    {c : CodePoint} :
    (∃ q, begin? surrogates b start = some q ∧ q.Closes tail c) ↔
      ∃ b₁, tail = [b₁] ∧ (0x80 ≤ b₁.toNat ∧ b₁.toNat ≤ 0xBF) ∧
        c.value = (b.toNat - 0xC0) * 64 + b₁.toNat % 64 := by
  obtain ⟨q, hBegin, hMissing, hBits, hAllows⟩ :=
    @begin?_two surrogates b start hLow hHigh
  simp only [hBegin, Option.some.injEq, exists_eq_left', Sequence.closes_one_iff hMissing,
    hAllows, Sequence.bitsWith, hBits]

/-- What closes the sequence of a first byte of three. -/
theorem closes_begin?_three_iff (hLow : 0xE0 ≤ b.toNat) (hHigh : b.toNat ≤ 0xEF) {tail : Bytes}
    {c : CodePoint} :
    (∃ q, begin? surrogates b start = some q ∧ q.Closes tail c) ↔
      ∃ b₁ b₂, tail = [b₁, b₂] ∧
        ((0x80 ≤ b₁.toNat ∧ b₁.toNat ≤ 0xBF) ∧ (b.toNat = 0xE0 → 0xA0 ≤ b₁.toNat) ∧
          (surrogates = false → b.toNat = 0xED → b₁.toNat ≤ 0x9F)) ∧
        (0x80 ≤ b₂.toNat ∧ b₂.toNat ≤ 0xBF) ∧
        c.value = ((b.toNat - 0xE0) * 64 + b₁.toNat % 64) * 64 + b₂.toNat % 64 := by
  obtain ⟨q, hBegin, hMissing, hBits, hAllows⟩ :=
    @begin?_three surrogates b start hLow hHigh
  simp only [hBegin, Option.some.injEq, exists_eq_left', Sequence.closes_two_iff hMissing,
    hAllows, Sequence.bitsWith, hBits]

/-- What closes the sequence of a first byte of four. -/
theorem closes_begin?_four_iff (hLow : 0xF0 ≤ b.toNat) (hHigh : b.toNat ≤ 0xF4) {tail : Bytes}
    {c : CodePoint} :
    (∃ q, begin? surrogates b start = some q ∧ q.Closes tail c) ↔
      ∃ b₁ b₂ b₃, tail = [b₁, b₂, b₃] ∧
        ((0x80 ≤ b₁.toNat ∧ b₁.toNat ≤ 0xBF) ∧ (b.toNat = 0xF0 → 0x90 ≤ b₁.toNat) ∧
          (b.toNat = 0xF4 → b₁.toNat ≤ 0x8F)) ∧
        (0x80 ≤ b₂.toNat ∧ b₂.toNat ≤ 0xBF) ∧ (0x80 ≤ b₃.toNat ∧ b₃.toNat ≤ 0xBF) ∧
        c.value = (((b.toNat - 0xF0) * 64 + b₁.toNat % 64) * 64 + b₂.toNat % 64) * 64 +
          b₃.toNat % 64 := by
  obtain ⟨q, hBegin, hMissing, hBits, hAllows⟩ :=
    @begin?_four surrogates b start hLow hHigh
  simp only [hBegin, Option.some.injEq, exists_eq_left', Sequence.closes_three_iff hMissing,
    hAllows, Sequence.bitsWith, hBits]

/-- What a byte begins is closed by the bytes that come after it in a written code point. -/
theorem closes_begin?_iff {tail : Bytes} {c : CodePoint} :
    (∃ q, begin? surrogates b start = some q ∧ q.Closes tail c) ↔
      0x80 ≤ c.value ∧ encodeCodePoint c = b :: tail ∧
        (surrogates = false → c.isSurrogate = false) := by
  rw [CodePoint.isSurrogate_eq_false_iff]
  have hBound := c.value_lt
  constructor
  · intro h
    obtain ⟨q, hBegin, -⟩ := id h
    rcases range_of_begin? hBegin with ⟨hLow, hHigh⟩ | ⟨hLow, hHigh⟩ | ⟨hLow, hHigh⟩
    · obtain ⟨b₁, rfl, hNext, hValue⟩ := (closes_begin?_two_iff hLow hHigh).mp h
      rw [encodeCodePoint_eq_two_iff (by omega) (by omega)]
      exact ⟨by omega, ⟨b₁, rfl, by omega, by omega⟩, fun _ => by omega⟩
    · obtain ⟨b₁, b₂, rfl, ⟨hNext, hFirst, hSurrogate⟩, hLast, hValue⟩ :=
        (closes_begin?_three_iff hLow hHigh).mp h
      rw [encodeCodePoint_eq_three_iff (by omega) (by omega)]
      refine ⟨by omega, ⟨b₁, b₂, rfl, by omega, by omega, by omega⟩, fun hStrict => ?_⟩
      have := hSurrogate hStrict
      omega
    · obtain ⟨b₁, b₂, b₃, rfl, ⟨hNext, hFirst, hFourth⟩, hMiddle, hLast, hValue⟩ :=
        (closes_begin?_four_iff hLow hHigh).mp h
      rw [encodeCodePoint_eq_four_iff (by omega)]
      exact ⟨by omega, ⟨b₁, b₂, b₃, rfl, by omega, by omega, by omega, by omega⟩,
        fun _ => by omega⟩
  · rintro ⟨hAscii, hBytes, hSurrogate⟩
    by_cases hTwo : c.value < 0x800
    · obtain ⟨b₁, rfl, hFirst, hNext⟩ := (encodeCodePoint_eq_two_iff hAscii hTwo).mp hBytes
      rw [closes_begin?_two_iff (by omega) (by omega)]
      exact ⟨b₁, rfl, by omega, by omega⟩
    by_cases hThree : c.value < 0x10000
    · obtain ⟨b₁, b₂, rfl, hFirst, hNext, hLast⟩ :=
        (encodeCodePoint_eq_three_iff (by omega) hThree).mp hBytes
      rw [closes_begin?_three_iff (by omega) (by omega)]
      refine ⟨b₁, b₂, rfl, ⟨by omega, by omega, fun hStrict => ?_⟩, by omega, by omega⟩
      have := hSurrogate hStrict
      omega
    · obtain ⟨b₁, b₂, b₃, rfl, hFirst, hNext, hMiddle, hLast⟩ :=
        (encodeCodePoint_eq_four_iff (by omega)).mp hBytes
      rw [closes_begin?_four_iff (by omega) (by omega)]
      exact ⟨b₁, b₂, b₃, rfl, ⟨by omega, by omega, by omega⟩, by omega, by omega, by omega⟩

end Beginning

/-! ### Runs -/

namespace Decoding

variable {surrogates : Bool} {position : Nat} {before t : Text} {bytes rest : Bytes} {b : UInt8}

theorem run_cons_eq_ok_iff {d : Decoding} :
    run surrogates position d (b :: rest) = .ok t ↔
      ∃ e, step surrogates position d b = .ok e ∧ run surrogates (position + 1) e rest = .ok t := by
  rw [run]
  cases step surrogates position d b <;> simp

theorem goOn_eq_ok_iff {q : Sequence} {e : Decoding} :
    goOn before q b = .ok e ↔ q.Allows b ∧
      ((q.missing ≤ 1 ∧ ∃ c : CodePoint, c.value = q.bitsWith b ∧ e = ⟨c :: before, none⟩) ∨
        (1 < q.missing ∧ e = ⟨before, some (q.add b)⟩)) := by
  rw [goOn, ← Nat.not_le]
  split
  · rename_i hAllows
    simp only [Sequence.Allows, hAllows, and_self, true_and]
    split
    · rename_i hLast
      simp only [hLast, true_and, not_true_eq_false, false_and, or_false,
        ← CodePoint.ofNat?_eq_some_iff]
      cases CodePoint.ofNat? (q.bitsWith b) <;> simp [eq_comm]
    · rename_i hMore
      simp [hMore, eq_comm]
  · rename_i hNot
    simp [Sequence.Allows, hNot]

/-- An open sequence is closed by the bytes that come next. -/
theorem run_open_eq_ok_iff {q : Sequence} :
    run surrogates position ⟨before, some q⟩ bytes = .ok t ↔
      ∃ tail c rest, bytes = tail ++ rest ∧ q.Closes tail c ∧
        run surrogates (position + tail.length) ⟨c :: before, none⟩ rest = .ok t := by
  induction bytes generalizing position q with
  | nil =>
    constructor
    · intro h
      cases h
    · rintro ⟨tail, c, rest, hBytes, hCloses, -⟩
      rw [(List.append_eq_nil_iff.mp hBytes.symm).1] at hCloses
      cases hCloses
  | cons b bytes ih =>
    rw [run_cons_eq_ok_iff]
    constructor
    · rintro ⟨e, hStep, hRun⟩
      rcases goOn_eq_ok_iff.mp hStep with ⟨hAllows, ⟨hLast, c, hValue, rfl⟩ | ⟨hMore, rfl⟩⟩
      · exact ⟨[b], c, bytes, rfl, .last hLast hAllows hValue, hRun⟩
      · obtain ⟨tail, c, rest, rfl, hCloses, hRest⟩ := ih.mp hRun
        refine ⟨b :: tail, c, rest, rfl, .more hMore hAllows hCloses, ?_⟩
        rw [List.length_cons, ← Nat.add_assoc, Nat.add_right_comm]
        exact hRest
    · rintro ⟨tail, c, rest, hBytes, hCloses, hRun⟩
      cases hCloses with
      | last hLast hAllows hValue =>
        obtain ⟨rfl, rfl⟩ := List.cons.inj hBytes
        exact ⟨_, goOn_eq_ok_iff.mpr ⟨hAllows, Or.inl ⟨hLast, c, hValue, rfl⟩⟩, hRun⟩
      | more hMore hAllows hRest =>
        obtain ⟨rfl, rfl⟩ := List.cons.inj hBytes
        refine ⟨_, goOn_eq_ok_iff.mpr ⟨hAllows, Or.inr ⟨hMore, rfl⟩⟩,
          ih.mpr ⟨_, c, rest, rfl, hRest, ?_⟩⟩
        rw [List.length_cons, ← Nat.add_assoc, Nat.add_right_comm] at hRun
        exact hRun

/-- Where no sequence is open the bytes begin with those of a code point. -/
theorem run_closed_eq_ok_iff :
    run surrogates position ⟨before, none⟩ (b :: bytes) = .ok t ↔
      ∃ tail c rest, bytes = tail ++ rest ∧ encodeCodePoint c = b :: tail ∧
        (surrogates = false → c.isSurrogate = false) ∧
        run surrogates (position + 1 + tail.length) ⟨c :: before, none⟩ rest = .ok t := by
  rw [run_cons_eq_ok_iff]
  by_cases hAscii : b.toNat < 0x80
  · rw [step, start, dif_pos hAscii]
    constructor
    · rintro ⟨e, hStep, hRun⟩
      cases hStep
      exact ⟨[], _, bytes, rfl, (encodeCodePoint_eq_ascii_iff hAscii).mpr ⟨rfl, rfl⟩,
        fun _ => CodePoint.isSurrogate_eq_false_iff.mpr (Or.inl (by simp only; omega)), hRun⟩
    · rintro ⟨tail, c, rest, rfl, hBytes, -, hRun⟩
      obtain ⟨hValue, rfl⟩ := (encodeCodePoint_eq_ascii_iff hAscii).mp hBytes
      obtain rfl : c = ⟨b.toNat, Nat.lt_trans hAscii (by decide)⟩ := CodePoint.ext hValue
      exact ⟨_, rfl, hRun⟩
  · have hNotAscii {c : CodePoint} {tail : Bytes} (h : encodeCodePoint c = b :: tail) :
        0x80 ≤ c.value := by
      by_contra hNot
      rw [encodeCodePoint_one (by omega), List.cons.injEq, toUInt8_eq_iff (by omega)] at h
      omega
    rw [step, start, dif_neg hAscii]
    constructor
    · rintro ⟨e, hStep, hRun⟩
      cases hBegin : begin? surrogates b position with
      | none =>
        rw [hBegin] at hStep
        cases hStep
      | some q =>
        rw [hBegin] at hStep
        cases hStep
        obtain ⟨tail, c, rest, hSplit, hCloses, hRest⟩ := run_open_eq_ok_iff.mp hRun
        obtain ⟨-, hBytes, hStrict⟩ := closes_begin?_iff.mp ⟨q, hBegin, hCloses⟩
        exact ⟨tail, c, rest, hSplit, hBytes, hStrict, hRest⟩
    · rintro ⟨tail, c, rest, hSplit, hBytes, hStrict, hRest⟩
      obtain ⟨q, hBegin, hCloses⟩ :=
        closes_begin?_iff.mpr ⟨hNotAscii hBytes, hBytes, hStrict⟩
      rw [hBegin]
      exact ⟨_, rfl, run_open_eq_ok_iff.mpr ⟨tail, c, rest, hSplit, hCloses, hRest⟩⟩

/-- The bytes that decode are those of a text; it has surrogates only where they are let
through. -/
theorem run_eq_ok_iff :
    run surrogates position ⟨before, none⟩ bytes = .ok t ↔
      ∃ u, t = before.reverse ++ u ∧ bytes = encodeLoosely u ∧
        (surrogates = false → ∀ c ∈ u, c.isSurrogate = false) := by
  induction hLength : bytes.length using Nat.strongRecOn
    generalizing bytes position before with
  | _ length ih =>
    subst hLength
    cases bytes with
    | nil =>
      constructor
      · intro h
        cases h
        exact ⟨[], (List.append_nil _).symm, rfl, by simp⟩
      · rintro ⟨u, rfl, hBytes, -⟩
        rw [encodeLoosely_eq_nil_iff.mp hBytes.symm, List.append_nil]
        rfl
    | cons b bytes =>
      rw [run_closed_eq_ok_iff]
      constructor
      · rintro ⟨tail, c, rest, rfl, hBytes, hStrict, hRun⟩
        have hShorter : rest.length < (b :: (tail ++ rest)).length := by
          rw [List.length_cons, List.length_append]
          omega
        obtain ⟨u, rfl, rfl, hRest⟩ := (ih rest.length hShorter rfl).mp hRun
        refine ⟨c :: u, by simp, by simp [encodeLoosely, hBytes], fun hNot => ?_⟩
        exact List.forall_mem_cons.mpr ⟨hStrict hNot, hRest hNot⟩
      · rintro ⟨u, rfl, hBytes, hStrict⟩
        cases u with
        | nil => cases hBytes
        | cons c u =>
          obtain ⟨first, tail, hFirst⟩ := List.exists_cons_of_ne_nil (encodeCodePoint_ne_nil c)
          rw [encodeLoosely, List.flatMap_cons, hFirst, List.cons_append] at hBytes
          obtain ⟨rfl, rfl⟩ := List.cons.inj hBytes
          have hShorter (rest : Bytes) : rest.length < (b :: (tail ++ rest)).length := by
            rw [List.length_cons, List.length_append]
            omega
          refine ⟨tail, c, _, rfl, hFirst, fun hNot => hStrict hNot c List.mem_cons_self,
            (ih _ (hShorter _) rfl).mpr ⟨u, by simp, rfl, fun hNot d hMem => ?_⟩⟩
          exact hStrict hNot d (List.mem_cons_of_mem c hMem)

end Decoding

end Utf8

/-! ### Whole texts -/

/-- The text has no surrogate, so that it can be written as UTF-8. -/
def Text.IsScalar (t : Text) : Prop := ∀ c ∈ t, c.isSurrogate = false

namespace Text

instance (t : Text) : Decidable t.IsScalar := inferInstanceAs (Decidable (∀ _ ∈ _, _))

@[simp] theorem isScalar_nil : IsScalar [] := List.forall_mem_nil _

@[simp] theorem isScalar_cons {c : CodePoint} {t : Text} :
    IsScalar (c :: t) ↔ c.isSurrogate = false ∧ t.IsScalar := List.forall_mem_cons

@[simp] theorem isScalar_append {s t : Text} :
    IsScalar (s ++ t) ↔ s.IsScalar ∧ t.IsScalar := List.forall_mem_append

end Text

namespace Utf8

theorem surrogateRun?_eq_none_iff {position : Nat} {t : Text} :
    surrogateRun? position t = none ↔ t.IsScalar := by
  induction t generalizing position with
  | nil => simp [surrogateRun?]
  | cons c t ih =>
    rw [surrogateRun?]
    cases hSurrogate : c.isSurrogate <;> simp [hSurrogate, ih]

/-- A text is written just when it has no surrogate. -/
theorem encode_eq_ok_iff {t : Text} {bytes : Bytes} :
    encode t = .ok bytes ↔ t.IsScalar ∧ bytes = encodeLoosely t := by
  rw [encode, ← @surrogateRun?_eq_none_iff 0]
  cases surrogateRun? 0 t <;> simp [eq_comm]

/-- Bytes decode to just the text that is written as them. -/
theorem decode_eq_ok_iff {t : Text} {bytes : Bytes} :
    decode bytes = .ok t ↔ encode t = .ok bytes := by
  rw [decode, Decoding.run_eq_ok_iff, encode_eq_ok_iff]
  constructor
  · rintro ⟨u, rfl, hBytes, hStrict⟩
    exact ⟨hStrict rfl, hBytes⟩
  · rintro ⟨hStrict, hBytes⟩
    exact ⟨t, rfl, hBytes, fun _ => hStrict⟩

/-- Where surrogates are let through, bytes decode to just the text that is written as them. -/
theorem decodeLoosely?_eq_some_iff {t : Text} {bytes : Bytes} :
    decodeLoosely? bytes = some t ↔ bytes = encodeLoosely t := by
  have hOk : decodeLoosely? bytes = some t ↔ Decoding.run true 0 ⟨[], none⟩ bytes = .ok t := by
    rw [decodeLoosely?]
    cases Decoding.run true 0 ⟨[], none⟩ bytes <;> simp [Except.toOption]
  rw [hOk, Decoding.run_eq_ok_iff]
  constructor
  · rintro ⟨u, rfl, hBytes, -⟩
    exact hBytes
  · intro hBytes
    exact ⟨t, rfl, hBytes, fun h => nomatch h⟩

end Utf8

end DependencyMap
