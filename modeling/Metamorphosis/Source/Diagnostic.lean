import Metamorphosis.Source.Reader

namespace Metamorphosis

/-- Text that is no rule file, and where reading it failed. -/
structure SyntaxError where
  source : List Char
  failure : Failure
deriving DecidableEq

def byteCount (s : List Char) : Nat :=
  s.foldl (fun n c => n + c.utf8Size) 0

def blanks (n : Nat) : String :=
  String.ofList (List.replicate n ' ')

/-- The part of a text after its last line break. -/
def lastLine (s : List Char) : List Char :=
  (s.reverse.takeWhile (· != '\n')).reverse

/-- Where a message points: the text before a character, that character with the text after it, and
whether the caret stands behind the character. -/
structure Caret where
  before : List Char
  here : List Char
  isBehind : Bool
deriving DecidableEq

namespace Caret

/-- The line of the caret, up to its character. -/
def line (c : Caret) : List Char :=
  lastLine c.before

def lineNumber (c : Caret) : Nat :=
  c.before.count '\n' + 1

/-- The whole line of the caret. -/
def content (c : Caret) : List Char :=
  c.line ++ c.here.takeWhile (· != '\n')

/-- Columns count characters from one; in front of a character of several bytes they count
bytes. -/
def column (c : Caret) : Nat :=
  if c.isBehind then c.line.length + 2
  else if c.here.head?.all (·.utf8Size == 1) then c.line.length + 1
  else byteCount c.line + 1

end Caret

namespace SyntaxError

/-- The text before the place of the failure. -/
def before (e : SyntaxError) : List Char :=
  e.source.take (e.source.length - e.failure.rest.length)

/-- At the end of the text the caret stands behind its last character. -/
def caret (e : SyntaxError) : Caret :=
  match e.failure.rest with
  | [] => ⟨e.source.dropLast, e.source.getLast?.toList, true⟩
  | rest => ⟨e.before, rest, false⟩

/-- The place of the failure in a text of several lines. -/
def placeInLines (e : SyntaxError) : String :=
  let number := toString e.caret.lineNumber
  let gutter := blanks number.length
  s!"parse error at line {number}, column {e.caret.column}\n" ++
  s!"{gutter} |\n" ++
  s!"{number} | {String.ofList e.caret.content}\n" ++
  s!"{gutter} | {blanks (e.caret.column - 1)}^\n"

/-- The place of the failure under a text of one line, counted in bytes. -/
def placeInLine (e : SyntaxError) : String :=
  String.ofList e.source ++ "\n" ++ blanks (byteCount e.before) ++ "^\n"

def place (e : SyntaxError) : String :=
  if e.source.contains '\n' then e.placeInLines else e.placeInLine

/-- What was expected, the closest first. -/
def expectation (e : SyntaxError) : String :=
  match e.failure.expected with
  | [] => ""
  | expected => "expected " ++ ", ".intercalate (expected.map Expected.text)

def message (e : SyntaxError) : String :=
  "parse error: " ++ e.place ++ e.expectation

end SyntaxError

end Metamorphosis
