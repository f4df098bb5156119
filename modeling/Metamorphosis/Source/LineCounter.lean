import Metamorphosis.Source.Reader

namespace Metamorphosis

/-- The bytes of a text. -/
def utf8 (s : List Char) : List UInt8 :=
  s.flatMap String.utf8EncodeChar

/-- The byte that ends a line. -/
def breakByte : UInt8 := 10

/-- The bytes of a text, with the place of the last lookup and its line. -/
structure LineCounter where
  bytes : List UInt8
  offset : Nat := 0
  line : Nat := 1

namespace LineCounter

/-- A counter that has looked nothing up. -/
def ofText (text : List Char) : LineCounter :=
  { bytes := utf8 text }

/-- The place to count on from for a place at an offset, with its line. -/
def start (c : LineCounter) (offset : Nat) : Nat × Nat :=
  if offset < c.offset then (0, 1) else (c.offset, c.line)

/-- The counter after a lookup of the place where `rest` begins. -/
def lookUp (c : LineCounter) (rest : List Char) : LineCounter :=
  let offset := c.bytes.length - (utf8 rest).length
  let seen := c.start offset
  { c with
    offset
    line := seen.2 + ((c.bytes.take offset).drop seen.1).count breakByte }

/-- The lines of places that are looked up one after another. -/
def linesOf (c : LineCounter) : List (List Char) → List Nat
  | [] => []
  | rest :: more => (c.lookUp rest).line :: (c.lookUp rest).linesOf more

end LineCounter

/-- A reader that is given a counter and hands it on. -/
abbrev LineReader (α : Type) := LineCounter → Reader (α × LineCounter)

/-- Such a reader of something that the text need not start with. -/
abbrev OptLineReader (α : Type) := LineCounter → OptReader (α × LineCounter)

namespace LineReader

variable {α β : Type}

/-- A rule that is told the line of its first character. -/
def numbered (rule : Nat → Reader α) : LineReader α := fun lines s =>
  let looked := lines.lookUp s
  readAs (rule looked.line) (fun r => (r, looked)) s

/-- Something for which no line is looked up. -/
def unnumbered (read : Reader α) : LineReader α := fun lines =>
  readAs read fun a => (a, lines)

/-- What is read, as something else. -/
def map (read : LineReader α) (as : α → β) : LineReader β := fun lines =>
  readAs (read lines) fun x => (as x.1, x.2)

/-- Items as long as there is one, each with the counter that the one before it left; an item that
takes no text is the last. -/
def many (item : OptLineReader α) (lines : LineCounter) (s : List Char) :
    Except Failure ((List α × LineCounter) × List Char) :=
  match item lines s with
  | .error f => .error f
  | .ok none => .ok (([], lines), s)
  | .ok (some ((a, lines), t)) =>
    if t.length < s.length then
      match many item lines t with
      | .error f => .error f
      | .ok ((as, lines), u) => .ok ((a :: as, lines), u)
    else .ok (([a], lines), t)
termination_by s.length

end LineReader

end Metamorphosis
