import Metamorphosis.Document

namespace Metamorphosis

/-- One line at a level of indentation, four blanks a level. -/
structure Line where
  level : Nat
  text : String
deriving DecidableEq

def Line.render (l : Line) : String :=
  String.ofList (List.replicate (4 * l.level) ' ') ++ l.text ++ "\n"

/-- The line between two parts. -/
def Line.blank : Line := ⟨0, ""⟩

/-- A named part in braces, its lines one level deeper. -/
def braced (level : Nat) (head : String) (inner : List String) : List Line :=
  ⟨level, head ++ " \x7b"⟩ :: inner.map (⟨level + 1, ·⟩) ++ [⟨level, "\x7d;"⟩]

def Action.text : Action → String
  | .markGlyph => "mark glyph"
  | .markFirst => "mark first"
  | .markLast => "mark last"
  | .substituteCurrent table => "substitute current with " ++ table
  | .substituteMarked table => "substitute marked with " ++ table
  | .rearrange verb => "rearrange (" ++ verb.text ++ ")"

def GlyphClass.declaration (c : GlyphClass) : String :=
  "class " ++ c.name ++ " \x7b " ++ ", ".intercalate c.glyphs ++ " \x7d;"

def State.lines (level : Nat) (s : State) : List Line :=
  braced level ("state " ++ s.name) (s.entries.map fun (c, t) => c ++ ": " ++ t ++ ";")

def Transition.lines (level : Nat) (t : Transition) : List Line :=
  braced level ("transition " ++ t.name)
    (("change state to " ++ t.next ++ ";") :: t.actions.map fun a => a.text ++ ";")

def SubstitutionTable.lines (level : Nat) (s : SubstitutionTable) : List Line :=
  braced level ("substitution " ++ s.name) (s.entries.map fun (g, r) => g ++ " => " ++ r ++ ";")

/-- Classes, states, transitions, and each substitution table, with blank lines between. -/
def StateTable.lines (level : Nat) (t : StateTable) : List Line :=
  t.classes.map (⟨level, ·.declaration⟩) ++ [Line.blank] ++
  t.states.flatMap (State.lines level) ++ [Line.blank] ++
  t.transitions.flatMap (Transition.lines level) ++
  t.substitutions.flatMap fun s => Line.blank :: s.lines level

def Body.lines (level : Nat) : Body → List Line
  | .contextual table => table.lines level
  | .rearrangement table => table.lines level
  | .noncontextual entries => entries.map fun (g, r) => ⟨level, g ++ " => " ++ r.text ++ ";"⟩
  | .ligature entries =>
    entries.map fun (g, parts) => ⟨level, g ++ " := " ++ " + ".intercalate parts ++ ";"⟩
  | .insertion entries => entries.map fun (g, parts) => ⟨level, g ++ " > " ++ spaced parts ++ ";"⟩

/-- A subtable under its number, two levels deep in the document. -/
def Subtable.lines (number : Nat) (s : Subtable) : List Line :=
  [Line.blank, ⟨2, s!"// Subtable {number}: " ++ s.description⟩, ⟨2, s.body.keyword ++ " \x7b"⟩] ++
  s.body.lines 3 ++ [⟨2, "\x7d;"⟩]

/-- Subtables are numbered from a first number on. -/
def subtableLines : Nat → List Subtable → List Line
  | _, [] => []
  | number, s :: rest => s.lines number ++ subtableLines (number + 1) rest

def Document.lines (d : Document) : List Line :=
  [⟨0, "// ot2aat generated ATIF"⟩,
    ⟨0, "// Feature: " ++ d.config.text⟩,
    Line.blank,
    ⟨0, "feature (" ++ d.config.feature ++ ") \x7b"⟩,
    ⟨1, s!"selector ({d.config.selector.toNat}) \x7b"⟩] ++
  subtableLines 0 d.subtables ++
  [⟨1, "\x7d;"⟩, ⟨0, "\x7d;"⟩]

def Document.render (d : Document) : String :=
  String.join (d.lines.map Line.render)

end Metamorphosis
