import Metamorphosis.Glyph

namespace Metamorphosis

/-- What the text should have gone on with. -/
inductive Expected
  | directive
  | directiveName
  | contextKeyword
  | glyphName
  | pattern
  | replacement
  | endOfLine
  | symbol (text : String)
deriving DecidableEq

def Expected.text : Expected → String
  | .directive => "directive"
  | .directiveName => "directive name"
  | .contextKeyword => "context keyword"
  | .glyphName => "glyph name"
  | .pattern => "pattern"
  | .replacement => "replacement"
  | .endOfLine => "end of line"
  | .symbol text => "'" ++ text ++ "'"

/-- A place in the text where reading stopped, and what was expected there, the closest first. -/
structure Failure where
  rest : List Char
  expected : List Expected
deriving DecidableEq

/-- What was read, and the text after it. -/
abbrev Reader (α : Type) := List Char → Except Failure (α × List Char)

/-- What was read, or nothing if the text does not start with such a thing. -/
abbrev OptReader (α : Type) := List Char → Except Failure (Option (α × List Char))

/-- Name what a reader was in the middle of when it failed. -/
def labelled {α : Type} (what : Expected) (r : Except Failure α) : Except Failure α :=
  match r with
  | .ok a => .ok a
  | .error f => .error { f with expected := f.expected ++ [what] }

def isSpace (c : Char) : Bool :=
  c == ' ' || c == '\t'

/-- Characters that may stand between rules. -/
def isBlank (c : Char) : Bool :=
  isSpace c || c == '\n' || c == '\r' || c == '\x0c'

def isNameChar (c : Char) : Bool :=
  c.isAlphanum || c == '.' || c == '_'

/-- Spacing inside a rule, which stays on its line. -/
def skipSpaces (s : List Char) : List Char :=
  s.dropWhile isSpace

def isLineChar (c : Char) : Bool :=
  c != '\n' && c != '\r'

/-- The text at the end of the line of a comment. A lone carriage return is no end of a line. -/
def commentEnd? : List Char → Option (List Char)
  | '\r' :: '\n' :: t => some ('\r' :: '\n' :: t)
  | '\r' :: _ => none
  | t => some t

/-- The text from the end of the line of a comment on. -/
def afterComment? : List Char → Option (List Char)
  | '#' :: s => commentEnd? (s.dropWhile isLineChar)
  | _ => none

theorem eq_of_commentEnd? {s t : List Char} (h : commentEnd? s = some t) : t = s := by
  unfold commentEnd? at h
  split at h
  next => exact (Option.some.inj h).symm
  next => cases h
  next => exact (Option.some.inj h).symm

theorem afterComment?_length {s t : List Char} (h : afterComment? s = some t) :
    t.length < s.length := by
  unfold afterComment? at h
  split at h
  next r =>
    have hr := (List.dropWhile_sublist (l := r) isLineChar).length_le
    rw [eq_of_commentEnd? h, List.length_cons]
    omega
  next => cases h

/-- Everything between rules: blanks and comments. -/
def skipBlanks (s : List Char) : List Char :=
  match h : afterComment? (s.dropWhile isBlank) with
  | some t =>
    have : t.length < s.length :=
      Nat.lt_of_lt_of_le (afterComment?_length h) (List.dropWhile_sublist isBlank).length_le
    skipBlanks t
  | none => s.dropWhile isBlank
termination_by s.length

/-- The text after a word it starts with. -/
def afterWord? : List Char → List Char → Option (List Char)
  | [], s => some s
  | _ :: _, [] => none
  | c :: w, d :: s => if c == d then afterWord? w s else none

/-- The name at the start of the text. -/
def readName? (s : List Char) : Option (String × List Char) :=
  if (s.takeWhile isNameChar).isEmpty then none
  else some (String.ofList (s.takeWhile isNameChar), s.dropWhile isNameChar)

/-- A name that must be there. -/
def readName : Reader String := fun s =>
  match readName? s with
  | some r => .ok r
  | none => .error ⟨s, [.glyphName]⟩

/-- A sign that must be there, after spacing. -/
def readSymbol (text : String) : Reader Unit := fun s =>
  match afterWord? text.toList (skipSpaces s) with
  | some t => .ok ((), t)
  | none => .error ⟨skipSpaces s, [.symbol text]⟩

/-- What is read, as something else. -/
def readAs {α β : Type} (read : Reader α) (as : α → β) : Reader β := fun s => do
  let (a, t) ← read s
  return (as a, t)

/-- Items as long as there is one; an item that takes no text is the last. -/
def readMany {α : Type} (item : OptReader α) (s : List Char) :
    Except Failure (List α × List Char) :=
  match item s with
  | .error f => .error f
  | .ok none => .ok ([], s)
  | .ok (some (a, t)) =>
    if t.length < s.length then
      match readMany item t with
      | .error f => .error f
      | .ok (as, u) => .ok (a :: as, u)
    else .ok ([a], t)
termination_by s.length

/-- The end of a line, a comment, a brace that closes a block, or the end of the text. -/
def readBreak : Reader Unit
  | [] => .ok ((), [])
  | '\n' :: t => .ok ((), t)
  | '\r' :: '\n' :: t => .ok ((), t)
  | '\x7d' :: t => .ok ((), '\x7d' :: t)
  | t =>
    match afterComment? t with
    | some u => .ok ((), u)
    | none => .error ⟨t, [.endOfLine]⟩

/-- The end of a rule, after spacing. -/
def readEnd : Reader Unit := fun s =>
  readBreak (skipSpaces s)

end Metamorphosis
