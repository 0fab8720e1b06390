/-!
# Code points

The unit of every text of this library. A code point is a number below `0x110000`; the surrogates
are among them, because a JSON string may hold one without its partner and such a text has to be
carried (it is only refused when it is written as UTF-8). Code points are ordered by number.
-/

namespace DependencyMap

structure CodePoint where
  value : Nat
  value_lt : value < 0x110000
deriving DecidableEq

namespace CodePoint

@[ext] theorem ext {a b : CodePoint} (h : a.value = b.value) : a = b := by
  cases a; cases b; cases h; rfl

def ofNat? (n : Nat) : Option CodePoint :=
  if h : n < 0x110000 then some ⟨n, h⟩ else none

theorem toNat_lt_of_char (c : Char) : c.toNat < 0x110000 := by
  rcases c.valid with h | h
  · exact Nat.lt_trans h (by decide)
  · exact h.2

def ofChar (c : Char) : CodePoint := ⟨c.toNat, toNat_lt_of_char c⟩

instance : Coe Char CodePoint := ⟨ofChar⟩

theorem ofChar_injective {c d : Char} (h : ofChar c = ofChar d) : c = d :=
  Char.ext (UInt32.toNat_inj.mp (congrArg CodePoint.value h))

@[simp] theorem ofChar_inj {c d : Char} : ofChar c = ofChar d ↔ c = d :=
  ⟨ofChar_injective, fun h => h ▸ rfl⟩

/-- The code points that only UTF-16 uses, in pairs. -/
def isSurrogate (c : CodePoint) : Bool := 0xD800 ≤ c.value && c.value ≤ 0xDFFF

def isHighSurrogate (c : CodePoint) : Bool := 0xD800 ≤ c.value && c.value ≤ 0xDBFF

def isLowSurrogate (c : CodePoint) : Bool := 0xDC00 ≤ c.value && c.value ≤ 0xDFFF

/-- The character of a code point; a surrogate is none and is shown as U+FFFD. -/
def toChar (c : CodePoint) : Char := if c.isSurrogate then '\uFFFD' else Char.ofNat c.value

/-- Whether the number of `c` lies in one of the ranges, both ends included. -/
def inRanges (ranges : List (Nat × Nat)) (c : CodePoint) : Bool :=
  ranges.any fun r => r.1 ≤ c.value && c.value ≤ r.2

/-- The small letter of a capital of the ASCII alphabet; everything else is left alone. -/
def toLower (c : CodePoint) : CodePoint :=
  if h : 65 ≤ c.value ∧ c.value ≤ 90 then ⟨c.value + 32, by omega⟩ else c

instance : LT CodePoint := ⟨fun a b => a.value < b.value⟩

instance : LE CodePoint := ⟨fun a b => a.value ≤ b.value⟩

instance : DecidableLT CodePoint := fun a b => inferInstanceAs (Decidable (a.value < b.value))

instance : DecidableLE CodePoint := fun a b => inferInstanceAs (Decidable (a.value ≤ b.value))

instance : Std.Irrefl (α := CodePoint) (· < ·) := ⟨fun a => Nat.lt_irrefl a.value⟩

instance : Std.Asymm (α := CodePoint) (· < ·) := ⟨fun _ _ h => Nat.lt_asymm h⟩

instance : Trans (α := CodePoint) (· < ·) (· < ·) (· < ·) := ⟨fun h g => Nat.lt_trans h g⟩

instance : Std.Trichotomous (α := CodePoint) (· < ·) :=
  ⟨fun _ _ h g => ext (Nat.le_antisymm (Nat.le_of_not_lt g) (Nat.le_of_not_lt h))⟩

instance : Std.LawfulOrderLT CodePoint := ⟨fun _ _ => Nat.lt_iff_le_and_not_ge⟩

instance : Std.IsLinearOrder CodePoint where
  le_refl a := Nat.le_refl a.value
  le_trans _ _ _ h g := Nat.le_trans h g
  le_antisymm _ _ h g := ext (Nat.le_antisymm h g)
  le_total a b := Nat.le_total a.value b.value

end CodePoint

end DependencyMap
