import Metamorphosis.StateTable
import Metamorphosis.Verb

namespace Metamorphosis

namespace StateTable

def positionClass (i : Nat) : String := numbered "Position" i

/-- The state after the first `i` positions of a pattern. -/
def matched (i : Nat) : String := numbered "Matched" i

/-- The routes of a pattern of a given length: each position leads to the next, and a glyph of the
first position begins a match anew. -/
def wholeRoutes (length : Nat) (className step : Nat → String) : List Route :=
  ⟨start, className 0, step 0⟩ ::
  (List.range' 1 (length - 1)).flatMap fun i =>
    [⟨matched i, className i, step i⟩, ⟨matched i, className 0, step 0⟩]

/-- The transition at position `i` of a pattern whose target is at index `target`. -/
def wholeStep (length target i : Nat) : String :=
  if i + 1 = length then "DoSubstitution"
  else if i = target then "MarkTarget"
  else matched (i + 1)

def wholeTransitions (length target : Nat) : List Transition :=
  (List.range (length - 1)).map (fun i =>
    ⟨wholeStep length target i, matched (i + 1), if i = target then [.markGlyph] else []⟩) ++
  [⟨"DoSubstitution", start,
    [if target + 1 = length then .substituteCurrent "Subst" else .substituteMarked "Subst"]⟩]

/-- The table for patterns of one length with the target at one index. -/
def whole (length target : Nat) (patterns : List (List Glyph)) (entries : List (Glyph × Glyph)) :
    StateTable :=
  (build
    ((positionGlyphs patterns length).zipIdx.map fun (glyphs, i) => (positionClass (i + 1), glyphs))
    ((List.range' 1 (length - 1)).map matched)
    (wholeRoutes length (fun i => positionClass (i + 1)) (wholeStep length target))
    (wholeTransitions length target)).addSubstitution "Subst" entries

/-- The transition at index `i` of a pattern some of whose indices are marked. -/
def markingStep (length : Nat) (marked : List Nat) (i : Nat) : String :=
  if i + 1 = length then "Complete"
  else if marked.contains i then numbered "MarkTemp" (i + 1)
  else matched (i + 1)

def markingTransitions (length : Nat) (marked : List Nat) : List Transition :=
  (List.range length).map fun i =>
    ⟨markingStep length marked i, if i + 1 = length then start else matched (i + 1),
      if marked.contains i then [.substituteCurrent "MarkTemps"] else []⟩

/-- The table that turns the glyphs at some indices of a pattern into temporary glyphs. -/
def marking (pattern : List Glyph) (marked : List Nat) (entries : List (Glyph × Glyph)) :
    StateTable :=
  let length := pattern.length
  (build (placeClasses pattern) ((List.range' 1 (length - 1)).map matched)
    (wholeRoutes length (fun i => (pattern[i]?.map (placeClass pattern)).getD "")
      (markingStep length marked))
    (markingTransitions length marked)).addSubstitution "MarkTemps" entries

/-- The state after the first `i` glyphs of a window. -/
def saw (i : Nat) : String := numbered "Saw" i

/-- The transition at index `i` of a window of a given length. -/
def rearrangementStep (length i : Nat) : String :=
  if i = 0 then "MarkFirst"
  else if i + 1 = length then "Rearrange"
  else numbered "Advance" (i + 1)

def rearrangementRoutes (window : List Glyph) : List Route :=
  let className (i : Nat) : String := (window[i]?.map (placeClass window)).getD ""
  ⟨start, className 0, "MarkFirst"⟩ ::
  (List.range' 1 (window.length - 1)).flatMap fun i =>
    [⟨saw i, className i, rearrangementStep window.length i⟩, ⟨saw i, className 0, "MarkFirst"⟩]

def rearrangementTransitions (length : Nat) (verb : Verb) : List Transition :=
  ⟨"MarkFirst", saw 1, [.markFirst]⟩ ::
  (List.range' 1 (length - 2)).map (fun i => ⟨rearrangementStep length i, saw (i + 1), []⟩) ++
  [⟨"Rearrange", start, [.markLast, .rearrange verb]⟩]

/-- The table for one window. -/
def rearrangement (w : Window) : StateTable :=
  build (placeClasses w.before) ((List.range' 1 (w.before.length - 1)).map saw)
    (rearrangementRoutes w.before) (rearrangementTransitions w.before.length w.verb)

end StateTable

end Metamorphosis
