import Metamorphosis.StateTable

namespace Metamorphosis

/-- The state of a run between two glyphs: the table's state, the index that is marked, and the
glyphs as rewritten so far. -/
structure Head where
  state : String
  mark : Option Nat
  glyphs : List Glyph
deriving DecidableEq

namespace StateTable

/-- The first class in the order of names that holds a glyph. -/
def classOf? (t : StateTable) (g : Glyph) : Option String :=
  (t.classes.find? fun c => c.glyphs.contains g).map GlyphClass.name

/-- The replacement of a glyph in a named substitution table; a glyph without one stays. -/
def replace (t : StateTable) (table : String) (g : Glyph) : Glyph :=
  ((t.substitutions.find? fun s => s.name == table).bind fun s => s.entries.lookup g).getD g

/-- Perform an action at an index. Actions that rearrange leave the glyphs where they are. -/
def perform (t : StateTable) (i : Nat) (h : Head) : Action → Head
  | .markGlyph => { h with mark := some i }
  | .substituteCurrent table => { h with glyphs := h.glyphs.modify i (t.replace table) }
  | .substituteMarked table =>
    match h.mark with
    | some m => { h with glyphs := h.glyphs.modify m (t.replace table) }
    | none => h
  | .markFirst | .markLast | .rearrange _ => h

/-- The transition taken at an index. -/
def transitionAt? (t : StateTable) (h : Head) (i : Nat) : Option Transition :=
  h.glyphs[i]?.bind fun g =>
    (t.classOf? g).bind fun className =>
      (t.route? h.state className).bind t.findTransition?

/-- Read the glyph at an index. Where no class holds it, or its class is not routed, the run goes
back to the start state. -/
def step (t : StateTable) (h : Head) (i : Nat) : Head :=
  match t.transitionAt? h i with
  | some tr => { tr.actions.foldl (t.perform i) h with state := tr.next }
  | none => { h with state := start }

/-- The head after the first `n` glyphs. -/
def headAfter (t : StateTable) (glyphs : List Glyph) (n : Nat) : Head :=
  (List.range n).foldl t.step ⟨start, none, glyphs⟩

/-- The glyphs after a run over all of them. -/
def run (t : StateTable) (glyphs : List Glyph) : List Glyph :=
  (t.headAfter glyphs glyphs.length).glyphs

end StateTable

end Metamorphosis
