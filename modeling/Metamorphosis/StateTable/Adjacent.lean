import Metamorphosis.Fault
import Metamorphosis.Glyph
import Metamorphosis.StateTable

namespace Metamorphosis

namespace StateTable

/-- Rewrite a target that follows the context glyph. -/
def afterRoutes : List Route :=
  [⟨start, "Context", "SawContext"⟩,
    ⟨start, "TrgtAndCntx", "SawContext"⟩,
    ⟨"SawContext", "Context", "SawContext"⟩,
    ⟨"SawContext", "Target", "DoSubstitution"⟩,
    ⟨"SawContext", "TrgtAndCntx", "DoSubstitutionBoth"⟩]

def afterTransitions (overlapping : Bool) : List Transition :=
  [⟨"SawContext", "SawContext", []⟩,
    ⟨"DoSubstitution", start, [.substituteCurrent "Subst"]⟩] ++
  if overlapping then [⟨"DoSubstitutionBoth", "SawContext", [.substituteCurrent "Subst"]⟩] else []

/-- Rewrite a target that the context glyph follows. -/
def beforeRoutes : List Route :=
  [⟨start, "Target", "MarkTarget"⟩,
    ⟨start, "TrgtAndCntx", "MarkTargetBoth"⟩,
    ⟨"SawTarget", "Target", "MarkTarget"⟩,
    ⟨"SawTarget", "Context", "DoSubstitution"⟩,
    ⟨"SawTarget", "TrgtAndCntx", "DoSubstitutionBoth"⟩]

def beforeTransitions (overlapping : Bool) : List Transition :=
  [⟨"MarkTarget", "SawTarget", [.markGlyph]⟩,
    ⟨"DoSubstitution", start, [.substituteMarked "Subst"]⟩] ++
  if overlapping then
    [⟨"MarkTargetBoth", "SawTarget", [.markGlyph]⟩,
      ⟨"DoSubstitutionBoth", "SawTarget", [.substituteMarked "Subst", .markGlyph]⟩]
  else []

/-- The table for targets next to one context glyph. -/
def adjacent (side : Side) (glyph : Glyph) (entries : List (Glyph × Glyph)) : StateTable :=
  let overlap := Overlap.of (entries.map Prod.fst) [glyph]
  let classes :=
    [("Context", overlap.contextOnly), ("Target", overlap.targetOnly),
      ("TrgtAndCntx", overlap.both)]
  let table :=
    match side with
    | .after => build classes ["SawContext"] afterRoutes (afterTransitions overlap.isOverlapping)
    | .before => build classes ["SawTarget"] beforeRoutes (beforeTransitions overlap.isOverlapping)
  table.addSubstitution "Subst" entries

def contextClass (i : Nat) : String := numbered "Context" i

/-- The state after the glyphs of the first `i` context positions. -/
def sawContext (i : Nat) : String := numbered "SawContext" i

/-- From each position to the next, and from the last to the target. -/
def chainAfterRoutes (length : Nat) : List Route :=
  ⟨start, contextClass 1, sawContext 1⟩ ::
  (List.range' 1 length).flatMap fun i =>
    [if i < length then ⟨sawContext i, contextClass (i + 1), sawContext (i + 1)⟩
      else ⟨sawContext i, "Target", "DoSubstitution"⟩,
      ⟨sawContext i, contextClass i, sawContext i⟩,
      ⟨sawContext i, contextClass 1, sawContext 1⟩]

def chainAfterTransitions (length : Nat) : List Transition :=
  (List.range' 1 length).map (fun i => ⟨sawContext i, sawContext i, []⟩) ++
  [⟨"DoSubstitution", start, [.substituteCurrent "Subst"]⟩]

/-- The state that has seen the target and the first `i` context positions. -/
def awaiting (i : Nat) : String :=
  if i = 0 then "SawTarget" else sawContext i

/-- From the target through the context positions. -/
def chainBeforeRoutes (length : Nat) : List Route :=
  ⟨start, "Target", "MarkTarget"⟩ ::
  (List.range length).flatMap fun i =>
    ⟨awaiting i, contextClass (i + 1),
      if i + 1 < length then sawContext (i + 1) else "DoSubstitution"⟩ ::
    (if 0 < i then [⟨awaiting i, contextClass i, awaiting i⟩] else []) ++
    [⟨awaiting i, "Target", "MarkTarget"⟩]

def chainBeforeTransitions (length : Nat) : List Transition :=
  ⟨"MarkTarget", "SawTarget", [.markGlyph]⟩ ::
  (List.range' 1 (length - 1)).map (fun i => ⟨sawContext i, sawContext i, []⟩) ++
  [⟨"DoSubstitution", start, [.substituteMarked "Subst"]⟩]

/-- The table for contexts of one length, which is at least two. -/
def chain (side : Side) (length : Nat) (patterns : List (List Glyph))
    (entries : List (Glyph × Glyph)) : StateTable :=
  let classes :=
    (positionGlyphs patterns length).zipIdx.map (fun (glyphs, i) => (contextClass (i + 1), glyphs)) ++
    [("Target", entries.map Prod.fst)]
  let table :=
    match side with
    | .after =>
      build classes ((List.range' 1 length).map sawContext) (chainAfterRoutes length)
        (chainAfterTransitions length)
    | .before =>
      build classes ((List.range length).map awaiting) (chainBeforeRoutes length)
        (chainBeforeTransitions length)
  table.addSubstitution "Subst" entries

end StateTable

end Metamorphosis
