import DependencyMap.Number.Binary64
import DependencyMap.Number.Numeral
import DependencyMap.Toml.Fault

/-!
# Dates and times

The fields of a moment stand in fixed columns, and what stands between them does not matter. Each is
read as a numeral by itself. After the seconds of a date with a time there may be a fraction and a
zone; if one of these cannot be read, both count as missing. A time of day is told by its first
eight characters, and the digits of its fraction, three to six, count as microseconds.
-/

namespace DependencyMap

namespace Toml

def daysInMonth (year month : Nat) : Nat :=
  if month = 2 then (if year % 4 = 0 ∧ (year % 100 ≠ 0 ∨ year % 400 = 0) then 29 else 28)
  else if [4, 6, 9, 11].contains month then 30 else 31

/-- The numeral in some columns, if it is not negative. -/
def column? (t : Text) (first count : Nat) : Option Nat :=
  match Numeral.integer? ((t.drop first).take count) with
  | some (.ofNat n) => some n
  | _ => none

def calendarDate? (t : Text) : Option (Nat × Nat × Nat) := do
  let year ← column? t 0 4
  let month ← column? t 5 2
  let day ← column? t 8 2
  if 1 ≤ year ∧ 1 ≤ month ∧ month ≤ 12 ∧ 1 ≤ day ∧ day ≤ daysInMonth year month then
    some (year, month, day)
  else none

/-- The fields of a time that begins at the given column. -/
def clockTime? (t : Text) (first : Nat) : Option (Nat × Nat × Nat) := do
  let hour ← column? t first 2
  let minute ← column? t (first + 3) 2
  let second ← column? t (first + 6) 2
  if hour < 24 ∧ minute < 60 ∧ second < 60 then some (hour, minute, second) else none

/-! ## Dates -/

/-- The minutes by which clocks are ahead in a zone. The letter `Z` stands for no difference. -/
def ahead? (zone : Text) : Option Int :=
  if zone = "Z" then some 0
  else do
    let hours ← Numeral.integer? ((zone.drop 1).take 2)
    let minutes ← Numeral.integer? ((zone.drop 4).take 2)
    some (if zone.startsWith "-" then -(60 * hours + minutes) else 60 * hours + minutes)

/-- The microseconds of a fraction of a second after its point. More than six digits are scaled down
as doubles. -/
def microseconds (digits : Text) : Except Fault (Option Int) :=
  match Numeral.integer? digits with
  | none => .ok none
  | some n =>
    if digits.length ≤ 6 then .ok (some (n * Nat.pow 10 (6 - digits.length)))
    else
      let size := Binary64.ofDecimal (n < 0) n.natAbs 0
      let unit := Binary64.ofDecimal false 1 (6 - digits.length)
      match size.times unit with
      | .finite negative mantissa exponent =>
        .ok (some (Binary64.truncate negative mantissa exponent))
      | _ => missed .fractionTooLarge

/-- What follows the seconds: the fraction without its point, and the zone. -/
def splitFraction (t : Text) : Text × Option Text :=
  let digitsTo (c : CodePoint) : Text := t.takeWhile fun d => d ≠ c
  let zoneFrom (c : CodePoint) : Text := t.dropWhile fun d => d ≠ c
  if (t.getLast?).any fun c : CodePoint => c.toLower = 'z' then (t.dropLast, some "Z")
  else if t.elem (CodePoint.ofChar '+') then (digitsTo '+', some (zoneFrom '+'))
  else if t.elem (CodePoint.ofChar '-') then (digitsTo '-', some (zoneFrom '-'))
  else (t, none)

/-- The microseconds and the zone of what follows the seconds. -/
def readAfterSeconds (t : Text) : Except Fault (Int × Option Int) :=
  if !t.startsWith "." then .ok (0, ahead? t)
  else
    let (digits, zone) := splitFraction (t.drop 1)
    match zone.map ahead? with
    | some none => .ok (0, none)
    | ahead => (microseconds digits).map fun micro? =>
      match micro? with
      | none => (0, none)
      | some micro => (micro, ahead.join)

/-- The date, or the date with a time, that a text is. -/
def readDate (t : Text) : Except Fault (Option Moment) := do
  let (micro, ahead) ← readAfterSeconds (t.drop 19)
  if !(t.drop 1).elem (CodePoint.ofChar '-') then .ok none
  else if t.length = 10 then
    .ok ((calendarDate? t).map fun (year, month, day) => .date year month day)
  else
    match calendarDate? t, clockTime? t 11 with
    | some (year, month, day), some (hour, minute, second) =>
      if 0 ≤ micro ∧ micro < 1000000 then
        .ok (some (.dateTime year month day hour minute second micro.toNat ahead))
      else .ok none
    | _, _ => .ok none

/-! ## Times of day -/

/-- Whether a text begins with the digits and colons of a time. -/
def beginsWithTime (t : Text) : Bool :=
  8 ≤ t.length && ((t.take 8).zipIdx.all fun (c, n) =>
    if n = 2 ∨ n = 5 then c = ':' else c.isAsciiDigit)

/-- The digits of a fraction that has three or more of them, up to six. -/
def fractionDigits (t : Text) : Text :=
  let digits :=
    if t.startsWith "." then ((t.drop 1).take 6).takeWhile CodePoint.isAsciiDigit else []
  if digits.length < 3 then [] else digits

/-- The time of day that a text begins with. -/
def readTime (t : Text) : Except Fault Moment :=
  orMalformed ((clockTime? t 0).map fun (hour, minute, second) =>
    .time hour minute second ((column? (fractionDigits (t.drop 8)) 0 6).getD 0))

end Toml

end DependencyMap
