import Metamorphosis.StateTable

namespace Metamorphosis

/-- The roles a glyph has in the matches around it. -/
structure Role where
  first : Bool
  second : Bool
  target : Bool
deriving DecidableEq

namespace Role

def all : List Role :=
  [⟨true, false, false⟩, ⟨false, true, false⟩, ⟨true, true, false⟩, ⟨false, false, true⟩,
    ⟨true, false, true⟩, ⟨false, true, true⟩, ⟨true, true, true⟩]

/-- The class of the glyphs with these roles. -/
def className : Role → String
  | ⟨true, false, false⟩ => "First"
  | ⟨false, true, false⟩ => "Second"
  | ⟨true, true, false⟩ => "FirstAndSecond"
  | ⟨false, false, true⟩ => "Target"
  | ⟨true, false, true⟩ => "TrgtAndFirst"
  | ⟨false, true, true⟩ => "TrgtAndSecond"
  | ⟨true, true, true⟩ => "TrgtAndBoth"
  | ⟨false, false, false⟩ => ""

def of (firsts seconds targets : List Glyph) (g : Glyph) : Role :=
  ⟨firsts.contains g, seconds.contains g, targets.contains g⟩

end Role

/-- What a run remembers: whether the last glyph was a first context, and whether the last glyph is
a marked target. -/
structure Progress where
  sawFirst : Bool
  marked : Bool
deriving DecidableEq

namespace Progress

def all : List Progress :=
  [⟨false, false⟩, ⟨true, false⟩, ⟨false, true⟩, ⟨true, true⟩]

def stateName : Progress → String
  | ⟨false, false⟩ => StateTable.start
  | ⟨true, false⟩ => "SawFirst"
  | ⟨false, true⟩ => "SawTarget"
  | ⟨true, true⟩ => "SawTargetFirst"

end Progress

/-- What a glyph brings about: the marked target is rewritten, the glyph is marked, the glyph may
open the next match. -/
structure Move where
  commit : Bool
  mark : Bool
  first : Bool
deriving DecidableEq

namespace Move

/-- A glyph that brings nothing about takes the run back to its start. -/
def isIdle (m : Move) : Bool :=
  !m.commit && !m.mark && !m.first

def transitionName : Move → String
  | ⟨false, false, false⟩ => ""
  | ⟨false, false, true⟩ => "SawFirst"
  | ⟨false, true, false⟩ => "MarkTarget"
  | ⟨false, true, true⟩ => "MarkTargetFirst"
  | ⟨true, false, false⟩ => "DoSubstitution"
  | ⟨true, false, true⟩ => "DoSubstitutionFirst"
  | ⟨true, true, false⟩ => "DoSubstitutionBoth"
  | ⟨true, true, true⟩ => "DoSubstitutionBothFirst"

def next (m : Move) : Progress :=
  ⟨m.first, m.mark⟩

def actions (m : Move) : List Action :=
  (if m.commit then [.substituteMarked "Subst"] else []) ++ (if m.mark then [.markGlyph] else [])

def transition (m : Move) : Transition :=
  ⟨m.transitionName, m.next.stateName, m.actions⟩

end Move

/-- A second context confirms a marked target, and a target after a first context is marked. -/
def Progress.move (p : Progress) (r : Role) : Move :=
  ⟨p.marked && r.second, p.sawFirst && r.target, r.first⟩

/-- The moves out of a state over glyphs of the given roles. -/
def Progress.moves (p : Progress) (roles : List Role) : List (Role × Move) :=
  (roles.map fun r => (r, p.move r)).filter fun (_, m) => !m.isIdle

/-- Add what one move leads to from states already known. -/
def Progress.widen (roles : List Role) (known : List Progress) : List Progress :=
  Progress.all.filter fun p =>
    known.contains p || known.any fun q => (q.moves roles).any fun (_, m) => m.next == p

/-- The states that runs over glyphs of the given roles can be in. Each round that is not the last
adds a state, so as many rounds as there are states suffice. -/
def Progress.reachable (roles : List Role) : List Progress :=
  Nat.repeat (Progress.widen roles) Progress.all.length [⟨false, false⟩]

namespace StateTable

/-- The table for targets between one glyph of `firsts` and one of `seconds`. -/
def between (firsts seconds : List Glyph) (entries : List (Glyph × Glyph)) : StateTable :=
  let targets := entries.map Prod.fst
  let glyphs := glyphSet (firsts ++ seconds ++ targets)
  let members (r : Role) : List Glyph :=
    glyphs.filter fun g => Role.of firsts seconds targets g == r
  let roles := Role.all.filter fun r => !(members r).isEmpty
  let steps := (Progress.reachable roles).flatMap fun p =>
    (p.moves roles).map fun (r, m) => (p, r, m)
  (build (roles.map fun r => (r.className, members r))
    ((Progress.reachable roles).map Progress.stateName)
    (steps.map fun (p, r, m) => ⟨p.stateName, r.className, m.transitionName⟩)
    (steps.map fun (_, _, m) => m.transition)).addSubstitution "Subst" entries

end StateTable

end Metamorphosis
