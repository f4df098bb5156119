import Metamorphosis.Glyph
import Metamorphosis.Verb

namespace Metamorphosis

/-- What a transition does to the run of glyphs it is in. -/
inductive Action
  | markGlyph
  | markFirst
  | markLast
  | substituteCurrent (table : String)
  | substituteMarked (table : String)
  | rearrange (verb : Verb)
deriving DecidableEq

/-- A state with the transition taken for each class, in the order in which they were routed. -/
structure State where
  name : String
  entries : List (String × String) := []
deriving DecidableEq

structure Transition where
  name : String
  next : String
  actions : List Action
deriving DecidableEq

/-- A named table of replacements. -/
structure SubstitutionTable where
  name : String
  entries : List (Glyph × Glyph)
deriving DecidableEq

/-- Classes are in the order of their names, and so are the members of each; all else is in the
order in which it was added. -/
structure StateTable where
  classes : List GlyphClass := []
  states : List State := []
  transitions : List Transition := []
  substitutions : List SubstitutionTable := []
deriving DecidableEq

namespace StateTable

/-- The state in which every run begins. -/
def start : String := "Start"

/-- A table with its first state and nothing else. -/
def new : StateTable :=
  { states := [{ name := start }] }

def hasClass (t : StateTable) (name : String) : Bool :=
  t.classes.any fun c => c.name == name

def findState? (t : StateTable) (name : String) : Option State :=
  t.states.find? fun s => s.name == name

def findTransition? (t : StateTable) (name : String) : Option Transition :=
  t.transitions.find? fun tr => tr.name == name

/-- The transition a state takes for a class. -/
def route? (t : StateTable) (state className : String) : Option String :=
  (t.findState? state).bind fun s => s.entries.lookup className

/-- Add members to a class among classes in the order of their names. -/
def insertMembers (name : String) (members : List Glyph) : List GlyphClass → List GlyphClass
  | [] => [⟨name, glyphSet members⟩]
  | c :: cs =>
    if c.name == name then ⟨name, glyphSet (c.glyphs ++ members)⟩ :: cs
    else if precedes name c.name then ⟨name, glyphSet members⟩ :: c :: cs
    else c :: insertMembers name members cs

/-- Add members to a class. A class comes to be with its first member. -/
def addClass (t : StateTable) (name : String) (members : List Glyph) : StateTable :=
  if members.isEmpty then t else { t with classes := insertMembers name members t.classes }

/-- Add a state, unless there is one of that name. -/
def addState (t : StateTable) (name : String) : StateTable :=
  if (t.findState? name).isSome then t else { t with states := t.states ++ [{ name }] }

/-- Route a class of a state to a transition. Refused if the class is not declared or the state
routes it already. -/
def addRoute? (t : StateTable) (state className transition : String) : Option StateTable :=
  if !t.hasClass className || (t.route? state className).isSome then none
  else
    let t := t.addState state
    some { t with states := t.states.map fun s =>
      if s.name == state then { s with entries := s.entries ++ [(className, transition)] } else s }

/-- Route a class if that is not refused. -/
def addRoute (t : StateTable) (state className transition : String) : StateTable :=
  (t.addRoute? state className transition).getD t

/-- Add a transition, unless there is one of that name. -/
def addTransition (t : StateTable) (name next : String) (actions : List Action) : StateTable :=
  if (t.findTransition? name).isSome then t
  else { t with transitions := t.transitions ++ [⟨name, next, actions⟩] }

def addSubstitution (t : StateTable) (name : String) (entries : List (Glyph × Glyph)) :
    StateTable :=
  { t with substitutions := t.substitutions ++ [⟨name, entries⟩] }

end StateTable

/-- The transition a state is to take for a class. -/
structure Route where
  state : String
  className : String
  transition : String
deriving DecidableEq

namespace StateTable

def addClasses (t : StateTable) (classes : List (String × List Glyph)) : StateTable :=
  classes.foldl (fun t (name, members) => t.addClass name members) t

def addStates (t : StateTable) (names : List String) : StateTable :=
  names.foldl addState t

def addRoutes (t : StateTable) (routes : List Route) : StateTable :=
  routes.foldl (fun t r => t.addRoute r.state r.className r.transition) t

def addTransitions (t : StateTable) (transitions : List Transition) : StateTable :=
  transitions.foldl (fun t tr => t.addTransition tr.name tr.next tr.actions) t

/-- A table of the given parts, with the state in which runs begin before the others. Of two routes
for one class of a state, or two transitions of one name, the first stays. -/
def build (classes : List (String × List Glyph)) (states : List String) (routes : List Route)
    (transitions : List Transition) : StateTable :=
  (((new.addClasses classes).addStates states).addRoutes routes).addTransitions transitions

/-- The glyphs at each of the first `length` positions of some patterns. -/
def positionGlyphs (patterns : List (List Glyph)) (length : Nat) : List (List Glyph) :=
  (List.range length).map fun i => patterns.filterMap fun pattern => pattern[i]?

/-- The class of a glyph in a window: that of the first place where it stands. -/
def placeClass (window : List Glyph) (g : Glyph) : String :=
  numbered "Position" (window.idxOf g + 1)

/-- A class for each distinct glyph of a window. -/
def placeClasses (window : List Glyph) : List (String × List Glyph) :=
  window.map fun g => (placeClass window g, [g])

end StateTable

end Metamorphosis
