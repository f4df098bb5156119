import Metamorphosis.StateTable

namespace Metamorphosis

/-- A position of a match with the name of its class. -/
structure MatchPosition where
  className : String
  glyphs : List Glyph
deriving DecidableEq

/-- A glyph at two positions. -/
structure SharedGlyph where
  glyph : Glyph
  earlier : String
  later : String
deriving DecidableEq

/-- The first glyph of these positions, in the order of names, that one of `earlier` holds. -/
def MatchPosition.sharedWith? (earlier : List MatchPosition) (p : MatchPosition) :
    Option SharedGlyph :=
  p.glyphs.findSome? fun g =>
    (earlier.find? fun q => q.glyphs.contains g).map fun q => ⟨g, q.className, p.className⟩

/-- The first glyph that stands at two positions. -/
def sharedGlyph? : List MatchPosition → List MatchPosition → Option SharedGlyph
  | _, [] => none
  | earlier, p :: rest =>
    match p.sharedWith? earlier with
    | some s => some s
    | none => sharedGlyph? (earlier ++ [p]) rest

namespace StateTable

def firstClass (i : Nat) : String := numbered "First" i

def secondClass (i : Nat) : String := numbered "Second" i

def sawFirst (i : Nat) : String := numbered "SawFirst" i

def sawSecond (i : Nat) : String := numbered "SawSecond" i

/-- The positions of `between` contexts with `n` glyphs before and `m` after the target. -/
def betweenPositions (n m : Nat) (sides : List (List Glyph × List Glyph)) (targets : List Glyph) :
    List MatchPosition :=
  (positionGlyphs (sides.map Prod.fst) n).zipIdx.map
    (fun (glyphs, i) => ⟨firstClass (i + 1), glyphSet glyphs⟩) ++
  [⟨"Target", glyphSet targets⟩] ++
  (positionGlyphs (sides.map Prod.snd) m).zipIdx.map
    (fun (glyphs, i) => ⟨secondClass (i + 1), glyphSet glyphs⟩)

/-- The states of a match that is under way: one for each matched beginning. -/
def betweenStates (n m : Nat) : List String :=
  (List.range' 1 n).map sawFirst ++ ["SawTarget"] ++ (List.range' 1 (m - 1)).map sawSecond

/-- From each matched beginning to the next, in the order of the states; a glyph of the first
position begins a match anew. -/
def betweenChainRoutes (n m : Nat) : List Route :=
  let advances : List (String × String) :=
    (List.range' 2 (n - 1)).map (fun i => (firstClass i, sawFirst i)) ++
    [("Target", "MarkTarget")] ++
    (List.range' 1 m).map fun j =>
      (secondClass j, if j < m then sawSecond j else "DoSubstitution")
  ⟨start, firstClass 1, sawFirst 1⟩ ::
  ((betweenStates n m).zip advances).flatMap fun (state, className, transition) =>
    [⟨state, className, transition⟩, ⟨state, firstClass 1, sawFirst 1⟩]

def betweenChainTransitions (n m : Nat) : List Transition :=
  ((List.range' 1 n).map sawFirst ++ (List.range' 1 (m - 1)).map sawSecond).map
    (fun state => ⟨state, state, []⟩) ++
  [⟨"MarkTarget", "SawTarget", [.markGlyph]⟩,
    ⟨"DoSubstitution", start, [.substituteMarked "Subst"]⟩]

/-- The table for targets between `n` and `m` glyphs, neither of them zero. -/
def betweenChain (n m : Nat) (positions : List MatchPosition) (entries : List (Glyph × Glyph)) :
    StateTable :=
  (build (positions.map fun p => (p.className, p.glyphs)) (betweenStates n m)
    (betweenChainRoutes n m) (betweenChainTransitions n m)).addSubstitution "Subst" entries

end StateTable

end Metamorphosis
