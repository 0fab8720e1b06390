import DependencyMap.Text.Basic

/-!
# Options of a command line

Options have a long name after two hyphens and may have a short one of a single letter after one.
Short options may stand together in one word. The value of an option is what is left of its word
after the equals sign or the letter, or else the next word, whatever that is. Two hyphens alone end
the options.
-/

namespace DependencyMap

namespace Command

/-- An option, known by the long name without its hyphens. -/
structure OptionRule where
  name : Text
  letter : Option CodePoint
  takesValue : Bool

/-- An option as it was given. -/
structure Given where
  name : Text
  value : Option Text

/-- Why words are not a command line. -/
inductive OptionFault
  | unknown
  | misused
deriving DecidableEq

/-- Options and arguments, each in the order in which they were given. -/
structure Words where
  options : List Given
  arguments : List Text

namespace Words

def addOptions (given : List Given) (w : Words) : Words :=
  { w with options := given ++ w.options }

def addArgument (word : Text) (w : Words) : Words :=
  { w with arguments := word :: w.arguments }

end Words

/-- What a word of options comes to: the options in it, and the option that still lacks its
value. -/
structure OptionWord where
  given : List Given
  lacking : Option Text

/-- A word with a long option, after its two hyphens. -/
def readLong (rules : List OptionRule) (word : Text) : Except OptionFault OptionWord :=
  let name := word.takeWhile fun c : CodePoint => c ≠ '='
  let value := if word.length = name.length then none else some (word.drop (name.length + 1))
  match rules.find? fun r => r.name = name with
  | none => .error .unknown
  | some r =>
    match r.takesValue, value with
    | true, none => .ok ⟨[], some name⟩
    | true, some v => .ok ⟨[⟨name, some v⟩], none⟩
    | false, none => .ok ⟨[⟨name, none⟩], none⟩
    | false, some _ => .error .misused

/-- The letters of a word of short options, after its hyphen. -/
def readShort (rules : List OptionRule) : Text → Except OptionFault OptionWord
  | [] => .ok ⟨[], none⟩
  | c :: rest =>
    match rules.find? fun r => r.letter = some c with
    | none => .error .unknown
    | some r =>
      if r.takesValue then
        if rest.isEmpty then .ok ⟨[], some r.name⟩ else .ok ⟨[⟨r.name, some rest⟩], none⟩
      else (readShort rules rest).map fun w => ⟨⟨r.name, none⟩ :: w.given, w.lacking⟩

/-- A word that begins with a hyphen and goes on. -/
def readOptionWord (rules : List OptionRule) (word : Text) : Except OptionFault OptionWord :=
  if word.startsWith "--" then readLong rules (word.drop 2) else readShort rules (word.drop 1)

/-- Whether a word holds options. A hyphen alone does not. -/
def isOptionWord (word : Text) : Bool := word.startsWith "-" && 1 < word.length

/-- Splits words into options and arguments. Unless arguments may stand between options, the first
of them ends the options. -/
def splitWords (rules : List OptionRule) (mixed : Bool) : List Text → Except OptionFault Words
  | [] => .ok ⟨[], []⟩
  | word :: words =>
    if word = "--" then .ok ⟨[], words⟩
    else if isOptionWord word then
      match readOptionWord rules word with
      | .error fault => .error fault
      | .ok ⟨given, none⟩ => (splitWords rules mixed words).map (Words.addOptions given)
      | .ok ⟨given, some name⟩ =>
        match words with
        | [] => .error .misused
        | value :: words =>
          (splitWords rules mixed words).map (Words.addOptions (given ++ [⟨name, some value⟩]))
    else if mixed then (splitWords rules mixed words).map (Words.addArgument word)
    else .ok ⟨[], word :: words⟩

namespace Words

def has (w : Words) (name : Text) : Bool := w.options.any fun g => g.name = name

/-- The value of an option, of which the last one given counts. -/
def value? (w : Words) (name : Text) : Option Text :=
  ((w.options.filter fun g => g.name = name).getLast?).bind Given.value

end Words

end Command

end DependencyMap
