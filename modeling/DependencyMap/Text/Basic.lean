import DependencyMap.Text.CodePoint

/-!
# Texts

A text is a list of code points. Texts are ordered lexicographically by code point, which is the
order of every sorted answer. Cutting a text at its slashes keeps empty pieces, so nothing is lost
(`ofSegments_segments`).

White space is that of Unicode: the controls from tab to carriage return and from file separator to
unit separator, the next-line control, and the separators of space, line and paragraph. The
zero-width characters and the byte order mark are not white space. A carriage return with a line
feed after it, or alone, ends a line like a line feed does.
-/

namespace DependencyMap

abbrev Text := List CodePoint

namespace Text

def ofString (s : String) : Text := s.toList.map CodePoint.ofChar

instance : Coe String Text := ⟨ofString⟩

/-- The string of a text, with U+FFFD in the place of each surrogate. -/
def toString (t : Text) : String := String.ofList (t.map CodePoint.toChar)

def startsWith (t beginning : Text) : Bool := beginning.isPrefixOf t

def endsWith (t ending : Text) : Bool := ending.isSuffixOf t

/-- Whether `part` occurs somewhere in the text. -/
def contains : (t part : Text) → Bool
  | [], part => part.isEmpty
  | c :: rest, part => part.isPrefixOf (c :: rest) || contains rest part

/-- The pieces of a text between the occurrences of a mark, given what was read of the first piece,
the last first, and how many code points still belong to the mark before it. -/
def cutByFrom (mark : Text) : (skip : Nat) → (before : Text) → Text → List Text
  | _, before, [] => [before.reverse]
  | skip + 1, before, _ :: rest => cutByFrom mark skip before rest
  | 0, before, c :: rest =>
    if mark.isPrefixOf (c :: rest) then
      before.reverse :: cutByFrom mark (mark.length - 1) [] rest
    else cutByFrom mark 0 (c :: before) rest

/-- The pieces between the occurrences of a mark that is not empty, taken from left to right. -/
def cutBy (t mark : Text) : List Text := cutByFrom mark 0 [] t

/-- The pieces between the slashes. -/
def segments (t : Text) : List Text := t.splitOn (CodePoint.ofChar '/')

/-- Pieces put together with a slash between each two. -/
def ofSegments (pieces : List Text) : Text := [CodePoint.ofChar '/'].intercalate pieces

/-- Cutting at the slashes and putting together again loses nothing. -/
theorem ofSegments_segments (t : Text) : ofSegments t.segments = t :=
  List.intercalate_splitOn (CodePoint.ofChar '/')

/-- Pieces put together with a comma and a space between each two. -/
def listed (pieces : List Text) : Text := (ofString ", ").intercalate pieces

/-- The part after the last slash, or the whole text. -/
def lastSegment (t : Text) : Text := t.segments.getLastD []

/-- The part before the last slash, or nothing when there is none. -/
def beforeLastSlash (t : Text) : Text := ofSegments t.segments.dropLast

end Text

/-! ### White space -/

def CodePoint.isBlank (c : CodePoint) : Bool :=
  c.inRanges [(0x09, 0x0D), (0x1C, 0x20), (0x85, 0x85), (0xA0, 0xA0), (0x1680, 0x1680),
    (0x2000, 0x200A), (0x2028, 0x2029), (0x202F, 0x202F), (0x205F, 0x205F), (0x3000, 0x3000)]

namespace Text

/-- The text without the code points at its two ends that satisfy `p`. -/
def stripWhere (p : CodePoint → Bool) (t : Text) : Text :=
  ((t.dropWhile p).reverse.dropWhile p).reverse

/-- The text without white space at its two ends. -/
def strip (t : Text) : Text := t.stripWhere CodePoint.isBlank

/-! ### Line endings -/

/-- One more code point, after whether the one before it was a carriage return and what has been
written, the last first. -/
def unifyStep (state : Bool × Text) (c : CodePoint) : Bool × Text :=
  if c = '\r' then (true, CodePoint.ofChar '\n' :: state.2)
  else if c = '\n' ∧ state.1 = true then (false, state.2)
  else (false, c :: state.2)

/-- The text with a line feed for each line ending. -/
def unifyNewlines (t : Text) : Text := (t.foldl unifyStep (false, [])).2.reverse

end Text

end DependencyMap
