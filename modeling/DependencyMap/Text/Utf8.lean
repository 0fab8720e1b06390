import DependencyMap.Number.Numeral

/-!
# UTF-8

Decoding is strict: it accepts the shortest form of each code point and, unless surrogates are let
through, no surrogate. A fault names the bytes from the start of the sequence up to the longest part
of it that could still have become a code point. Encoding fails at a surrogate, and its fault names
the whole run of surrogates.
-/

namespace DependencyMap

abbrev Bytes := List UInt8

namespace Utf8

inductive Reason
  | invalidStart
  | invalidContinuation
  | unexpectedEnd
deriving DecidableEq

/-- Why bytes are not UTF-8: the reason, the first byte, its place and the number of bytes that are
named. -/
structure DecodeFault where
  reason : Reason
  byte : UInt8
  start : Nat
  length : Nat
deriving DecidableEq

def Reason.message : Reason → Text
  | .invalidStart => "invalid start byte"
  | .invalidContinuation => "invalid continuation byte"
  | .unexpectedEnd => "unexpected end of data"

/-- The fault in words, with the byte if it is the only one and else with the places of the first
and last one. -/
def DecodeFault.message (f : DecodeFault) : Text :=
  let place : Text :=
    if f.length ≤ 1 then
      "byte 0x" ++ Text.ofHex 2 f.byte.toNat ++ " in position " ++ natText f.start
    else "bytes in position " ++ natText f.start ++ "-" ++ natText (f.start + f.length - 1)
  "'utf-8' codec can't decode " ++ place ++ ": " ++ f.reason.message

/-- A sequence that has begun: its first byte and place, how many bytes were read, the bits so far,
how many bytes are missing, and the bounds for the next one. -/
structure Sequence where
  byte : UInt8
  start : Nat
  read : Nat
  bits : Nat
  missing : Nat
  low : Nat
  high : Nat

/-- The sequence that a byte outside ASCII begins. -/
def begin? (surrogates : Bool) (b : UInt8) (start : Nat) : Option Sequence :=
  let n := b.toNat
  if 0xC2 ≤ n ∧ n ≤ 0xDF then some ⟨b, start, 1, n - 0xC0, 1, 0x80, 0xBF⟩
  else if 0xE0 ≤ n ∧ n ≤ 0xEF then
    some ⟨b, start, 1, n - 0xE0, 2, if n = 0xE0 then 0xA0 else 0x80,
      if n = 0xED && !surrogates then 0x9F else 0xBF⟩
  else if 0xF0 ≤ n ∧ n ≤ 0xF4 then
    some ⟨b, start, 1, n - 0xF0, 3, if n = 0xF0 then 0x90 else 0x80,
      if n = 0xF4 then 0x8F else 0xBF⟩
  else none

namespace Sequence

/-- The bits of the sequence with the last six of one byte more. -/
def bitsWith (s : Sequence) (b : UInt8) : Nat := s.bits * 64 + b.toNat % 64

/-- The sequence with one byte more, which is not its last. -/
def add (s : Sequence) (b : UInt8) : Sequence :=
  { s with
    read := s.read + 1, bits := s.bitsWith b, missing := s.missing - 1, low := 0x80, high := 0xBF }

/-- The fault of a sequence that does not go on as it has to. -/
def fault (s : Sequence) (reason : Reason) : DecodeFault := ⟨reason, s.byte, s.start, s.read⟩

end Sequence

/-- How far decoding has come: the code points before, the last first, and the sequence that is
open. -/
structure Decoding where
  before : Text
  sequence : Option Sequence

namespace Decoding

/-- The byte at `position`, where no sequence is open. -/
def start (surrogates : Bool) (position : Nat) (before : Text) (b : UInt8) :
    Except DecodeFault Decoding :=
  if h : b.toNat < 0x80 then .ok ⟨⟨b.toNat, by omega⟩ :: before, none⟩
  else
    match begin? surrogates b position with
    | none => .error ⟨.invalidStart, b, position, 1⟩
    | some s => .ok ⟨before, some s⟩

/-- A byte of the open sequence. -/
def goOn (before : Text) (s : Sequence) (b : UInt8) : Except DecodeFault Decoding :=
  if s.low ≤ b.toNat ∧ b.toNat ≤ s.high then
    if s.missing ≤ 1 then
      match CodePoint.ofNat? (s.bitsWith b) with
      | some c => .ok ⟨c :: before, none⟩
      | none => .error (s.fault .invalidContinuation)
    else .ok ⟨before, some (s.add b)⟩
  else .error (s.fault .invalidContinuation)

def step (surrogates : Bool) (position : Nat) (d : Decoding) (b : UInt8) :
    Except DecodeFault Decoding :=
  match d.sequence with
  | none => start surrogates position d.before b
  | some s => goOn d.before s b

/-- The text when the bytes are at an end. -/
def finish (d : Decoding) : Except DecodeFault Text :=
  match d.sequence with
  | none => .ok d.before.reverse
  | some s => .error (s.fault .unexpectedEnd)

/-- Decodes the bytes from `position` on. -/
def run (surrogates : Bool) : (position : Nat) → Decoding → Bytes → Except DecodeFault Text
  | _, d, [] => d.finish
  | position, d, b :: rest =>
    match step surrogates position d b with
    | .error fault => .error fault
    | .ok d => run surrogates (position + 1) d rest

end Decoding

/-- The text of strict UTF-8. -/
def decode (bytes : Bytes) : Except DecodeFault Text := Decoding.run false 0 ⟨[], none⟩ bytes

/-- The text of UTF-8 in which surrogates are let through. -/
def decodeLoosely? (bytes : Bytes) : Option Text := (Decoding.run true 0 ⟨[], none⟩ bytes).toOption

/-- The bytes of a code point. -/
def encodeCodePoint (c : CodePoint) : Bytes :=
  let n := c.value
  let tail (shift : Nat) : UInt8 := (0x80 + n / Nat.pow 2 shift % 64).toUInt8
  if n < 0x80 then [n.toUInt8]
  else if n < 0x800 then [(0xC0 + n / 64).toUInt8, tail 0]
  else if n < 0x10000 then [(0xE0 + n / 4096).toUInt8, tail 6, tail 0]
  else [(0xF0 + n / 262144).toUInt8, tail 12, tail 6, tail 0]

/-- The bytes of a text in which surrogates are let through. -/
def encodeLoosely (t : Text) : Bytes := t.flatMap encodeCodePoint

/-- Where a text cannot be written: the first run of surrogates, its place and its length. -/
structure EncodeFault where
  surrogate : CodePoint
  start : Nat
  length : Nat
deriving DecidableEq

/-- The first run of surrogates of a text that begins at `position`. -/
def surrogateRun? : (position : Nat) → Text → Option EncodeFault
  | _, [] => none
  | position, c :: rest =>
    if c.isSurrogate then
      some ⟨c, position, (rest.takeWhile CodePoint.isSurrogate).length + 1⟩
    else surrogateRun? (position + 1) rest

/-- The bytes of a text without surrogates. -/
def encode (t : Text) : Except EncodeFault Bytes :=
  match surrogateRun? 0 t with
  | some fault => .error fault
  | none => .ok (encodeLoosely t)

end Utf8

end DependencyMap
