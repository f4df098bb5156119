import Metamorphosis.StateTable.Run

namespace Metamorphosis

/-- What becomes of a glyph in a noncontextual subtable. -/
inductive Replacement
  | glyph (name : Glyph)
  | delete
deriving DecidableEq

def Replacement.text : Replacement → String
  | .glyph name => name
  | .delete => Glyph.deletion

inductive Body
  | contextual (table : StateTable)
  | rearrangement (table : StateTable)
  | noncontextual (entries : List (Glyph × Replacement))
  | ligature (entries : List (Glyph × List Glyph))
  | insertion (entries : List (Glyph × List Glyph))
deriving DecidableEq

namespace Body

def keyword : Body → String
  | .contextual _ => "contextual"
  | .rearrangement _ => "rearrangement"
  | .noncontextual _ => "noncontextual"
  | .ligature _ => "ligature"
  | .insertion _ => "insertion"

def stateTable? : Body → Option StateTable
  | .contextual table => some table
  | .rearrangement table => some table
  | _ => none

end Body

structure Subtable where
  description : String
  body : Body
deriving DecidableEq

/-- The first code of temporary glyphs, unless another one is asked for. -/
def defaultTempBase : UInt16 := 65000

/-- The feature setting rules are compiled for, and the first code of its temporary glyphs. -/
structure Config where
  feature : String
  selector : UInt16 := 0
  tempBase : UInt16 := defaultTempBase
deriving DecidableEq

def Config.text (c : Config) : String :=
  s!"{c.feature}, selector {c.selector.toNat}"

structure Document where
  config : Config
  subtables : List Subtable := []
deriving DecidableEq

namespace Document

def size (d : Document) : Nat :=
  d.subtables.length

def isEmpty (d : Document) : Bool :=
  d.subtables.isEmpty

/-- Add a subtable; its number is the size before. -/
def push (d : Document) (s : Subtable) : Document :=
  { d with subtables := d.subtables ++ [s] }

end Document

/-- What becomes of one glyph under the entries of a noncontextual subtable. -/
def replaceGlyph (entries : List (Glyph × Replacement)) (g : Glyph) : List Glyph :=
  match entries.lookup g with
  | some (.glyph name) => [name]
  | some .delete => []
  | none => [g]

namespace Subtable

/-- A run of glyphs after a contextual or noncontextual subtable; the other kinds are left to the
shaper and keep it as it is. -/
def apply (s : Subtable) (glyphs : List Glyph) : List Glyph :=
  match s.body with
  | .contextual table => table.run glyphs
  | .noncontextual entries => glyphs.flatMap (replaceGlyph entries)
  | .rearrangement _ | .ligature _ | .insertion _ => glyphs

/-- A run of glyphs after several subtables in order. -/
def applyAll (subtables : List Subtable) (glyphs : List Glyph) : List Glyph :=
  subtables.foldl (fun glyphs s => s.apply glyphs) glyphs

end Subtable

end Metamorphosis
