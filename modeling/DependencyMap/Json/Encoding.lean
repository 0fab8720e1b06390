import DependencyMap.Json.Reader
import DependencyMap.Text.Utf8

/-!
# JSON as bytes

The encoding of a JSON text is found from its byte order mark, which is no part of the text, or else
from the zeros among its first bytes, since a JSON text begins with a character of ASCII.

UTF-16 and UTF-32 have units of two or four bytes in either order of bytes. In UTF-16 a high
surrogate and a low one after it make one code point; a surrogate without its partner is let
through, as in UTF-32. Bytes left over and numbers above U+10FFFF are refused.
-/

namespace DependencyMap

/-! ### UTF-16 and UTF-32 -/

namespace WideUnits

/-- The units of `width` bytes, or nothing if bytes are left over. -/
def units? (bigEndian : Bool) (width : Nat) : (pending : List Nat) → Bytes → Option (List Nat)
  | pending, [] => if pending.isEmpty then some [] else none
  | pending, b :: rest =>
    let pending := pending ++ [b.toNat]
    if pending.length < width then units? bigEndian width pending rest
    else
      let ordered := if bigEndian then pending else pending.reverse
      (units? bigEndian width [] rest).map (ordered.foldl (fun n b => n * 256 + b) 0 :: ·)

/-- Joins the pairs of surrogates. -/
def joinPairs : List Nat → List Nat
  | high :: low :: rest =>
    if 0xD800 ≤ high ∧ high ≤ 0xDBFF ∧ 0xDC00 ≤ low ∧ low ≤ 0xDFFF then
      (0x10000 + (high - 0xD800) * 0x400 + (low - 0xDC00)) :: joinPairs rest
    else high :: joinPairs (low :: rest)
  | units => units

def decode16? (bigEndian : Bool) (bytes : Bytes) : Option Text :=
  (units? bigEndian 2 [] bytes).bind fun units => (joinPairs units).mapM CodePoint.ofNat?

def decode32? (bigEndian : Bool) (bytes : Bytes) : Option Text :=
  (units? bigEndian 4 [] bytes).bind fun units => units.mapM CodePoint.ofNat?

end WideUnits

namespace Json

/-! ### The encoding that is found -/

inductive Encoding
  | utf8
  | utf16 (bigEndian : Bool)
  | utf32 (bigEndian : Bool)
deriving DecidableEq

namespace Encoding

/-- The byte order marks. Those of UTF-32 come first, because one of them begins like one of
UTF-16. -/
def marks : List (Bytes × Encoding) := [
  ([0x00, 0x00, 0xFE, 0xFF], .utf32 true), ([0xFF, 0xFE, 0x00, 0x00], .utf32 false),
  ([0xFE, 0xFF], .utf16 true), ([0xFF, 0xFE], .utf16 false), ([0xEF, 0xBB, 0xBF], .utf8)]

/-- The encoding that the zeros among the first bytes show. -/
def ofZeros : Bytes → Encoding
  | [a, b] => if a = 0 then .utf16 true else if b = 0 then .utf16 false else .utf8
  | a :: b :: c :: d :: _ =>
    if a = 0 then (if b = 0 then .utf32 true else .utf16 true)
    else if b = 0 then (if c = 0 ∧ d = 0 then .utf32 false else .utf16 false)
    else .utf8
  | _ => .utf8

/-- The encoding of a JSON text and its bytes without the mark. -/
def detect (bytes : Bytes) : Encoding × Bytes :=
  match marks.find? fun m => m.1.isPrefixOf bytes with
  | some (mark, encoding) => (encoding, bytes.drop mark.length)
  | none => (ofZeros bytes, bytes)

def decode? : Encoding → Bytes → Option Text
  | .utf8, bytes => Utf8.decodeLoosely? bytes
  | .utf16 bigEndian, bytes => WideUnits.decode16? bigEndian bytes
  | .utf32 bigEndian, bytes => WideUnits.decode32? bigEndian bytes

end Encoding

/-- Why bytes are not read as JSON. -/
inductive DecodeFault
  | undecodable
  | unread (fault : ReadFault)
deriving DecidableEq

/-- The value that bytes write in the encoding they show. -/
def decodeWithin (limits : Limits) (bytes : Bytes) : Except DecodeFault Value :=
  let found := Encoding.detect bytes
  match found.1.decode? found.2 with
  | none => .error .undecodable
  | some t =>
    match readWithin limits t with
    | .error fault => .error (.unread fault)
    | .ok v => .ok v

/-- The value of bytes in which integers have 4300 digits at most and `room` arrays and objects may
stand in one another. -/
def decode (room : Option Nat) (bytes : Bytes) : Except DecodeFault Value :=
  decodeWithin ⟨some Numeral.maxDigits, room⟩ bytes

end Json

end DependencyMap
