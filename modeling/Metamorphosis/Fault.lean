import Metamorphosis.Rule

namespace Metamorphosis

/-- The side of the target on which an adjacent context lies. -/
inductive Side
  | after
  | before
deriving DecidableEq

def Side.text : Side → String
  | .after => "after"
  | .before => "before"

/-- A list of context positions that must not be empty. -/
inductive ContextPart
  | adjacent (side : Side)
  | betweenFirst
  | betweenSecond
deriving DecidableEq

def ContextPart.text : ContextPart → String
  | .adjacent side => side.text
  | .betweenFirst => "between (first)"
  | .betweenSecond => "between (second)"

/-- What is wrong with a class or a rule. Sizes are numbers of glyphs an element stands for. -/
inductive RuleFault
  | duplicateClass (name : String)
  | emptyClass (name : String)
  | undefinedClass (name : String)
  | noSubstitutions
  | emptyContext (part : ContextPart)
  | pairSizes (pair : Pair) (targets replacements : Nat)
  | shortWhen
  | whenSizes (first other : Element) (firstSize otherSize : Nat)
  | pairOffPattern (pair : Pair) (size patternSize : Nat)
  | targetOutsidePattern (target : Element)
  | reorderCounts (before after : Nat)
  | reorderLength (count : Nat)
  | reorderPosition (number : Nat) (before after : Element) (beforeSize afterSize : Nat)
  | reorderSizes (first other : Element) (firstSize otherSize : Nat)
  | tooManyWindows (count limit : Nat)
  | simpleSizes (target replacement : Element) (targets replacements : Nat)
  | fewComponents (ligature : Element)
  | ligatureSizes (expected found : Nat)
  | noTargets (source : Element)
  | oneToManySizes (expected found : Nat)
  | windowSides (before after : Nat)
  | windowLength (count : Nat)
  | missingGlyph (name : Glyph)
  | alreadyInOrder
  | unsupportedPermutation (length : Nat) (signature : String) (supported : List String)
deriving DecidableEq

/-- How the permutations of one length that have a verb are named in a message. -/
def supportedText : List String → String
  | [only] => s!"only {only} is supported"
  | signatures => "supported: " ++ ", ".intercalate signatures

def RuleFault.message : RuleFault → String
  | .duplicateClass name => s!"duplicate class '@{name}'"
  | .emptyClass name => s!"class '@{name}' has no glyphs"
  | .undefinedClass name => s!"undefined class '@{name}'"
  | .noSubstitutions => "rule has no substitutions"
  | .emptyContext part => s!"{part.text} context needs at least one element"
  | .pairSizes pair a b => s!"target and replacement sizes differ in '{pair.text}' ({a} vs {b})"
  | .shortWhen => "when pattern needs at least two elements"
  | .whenSizes x y a b =>
    s!"when pattern elements '{x.text}' and '{y.text}' differ in size ({a} vs {b})"
  | .pairOffPattern pair a b =>
    s!"substitution '{pair.text}' does not match the pattern size ({a} vs {b})"
  | .targetOutsidePattern target => s!"target '{target.text}' does not occur in the when pattern"
  | .reorderCounts a b => s!"reorder sides have different element counts ({a} vs {b})"
  | .reorderLength n => s!"reorder patterns must have 2 to 4 elements, got {n}"
  | .reorderPosition n x y a b =>
    s!"position {n} pairs '{x.text}' with '{y.text}' of different sizes ({a} vs {b})"
  | .reorderSizes x y a b =>
    s!"elements '{x.text}' and '{y.text}' must expand to the same size ({a} vs {b})"
  | .tooManyWindows n limit => s!"expands to {n} combinations (limit {limit})"
  | .simpleSizes x y a b => s!"'{x.text}' and '{y.text}' differ in size ({a} vs {b})"
  | .fewComponents ligature => s!"ligature '{ligature.text}' needs at least two components"
  | .ligatureSizes a b => s!"ligature classes must have matching sizes ({a} vs {b})"
  | .noTargets source => s!"'{source.text}' expands to nothing"
  | .oneToManySizes a b => s!"one-to-many classes must have matching sizes ({a} vs {b})"
  | .windowSides a b => s!"reorder sides differ in length ({a} vs {b})"
  | .windowLength n => s!"reorder patterns must have 2 to 4 glyphs, got {n}"
  | .missingGlyph name => s!"glyph '{name}' does not appear on the right-hand side"
  | .alreadyInOrder => "glyphs are already in order; nothing to rearrange"
  | .unsupportedPermutation n signature supported =>
    s!"unsupported {n}-glyph permutation '{signature}' (" ++ supportedText supported ++ ")"

/-- Why glyph rules cannot be made into a subtable. A shape is a pattern length with the index of
the target. -/
inductive TableFault
  | temporariesExhausted (allocated : Nat) (base : UInt16)
  | shortChain (side : Side) (length : Nat)
  | betweenSideMissing (line : Nat)
  | betweenOverlap (line : Nat) (glyph : Glyph) (earlier later : String)
  | noWhenRules
  | shortPattern (line : Nat)
  | whenTargetMissing (line : Nat) (target : Glyph)
  | whenShapes (line : Nat) (found expected : Nat × Nat)
  | multiPassContext (line : Nat) (kind : String)
  | multiPassEmpty (line : Nat)
  | multiPassTargetMissing (line : Nat) (target : Glyph)
deriving DecidableEq

def shapeText (shape : Nat × Nat) : String :=
  s!"({shape.1}, {shape.2})"

def TableFault.message : TableFault → String
  | .temporariesExhausted n base =>
    s!"temporary glyph codes exhausted ({n} allocated from base {base.toNat})"
  | .shortChain side n =>
    s!"multi-position {side.text} subtable needs at least 2 context glyphs, " ++
    s!"sampled rule has {n}"
  | .betweenSideMissing line => s!"between rule at line {line} needs at least one glyph on each side"
  | .betweenOverlap line glyph earlier later =>
    s!"between rule at line {line}: glyph '{glyph}' appears in both {earlier} and {later} " ++
    "of a multi-glyph between context"
  | .noWhenRules => "empty when group"
  | .shortPattern line => s!"when rule at line {line} needs a pattern of at least 2 glyphs"
  | .whenTargetMissing line target =>
    s!"when rule at line {line}: target '{target}' is not in its pattern"
  | .whenShapes line found expected =>
    "single-pass when rules must share pattern length and target position " ++
    s!"(line {line} has {shapeText found}, expected {shapeText expected})"
  | .multiPassContext line kind =>
    s!"multi-pass rule at line {line} must use a when context, found {kind}"
  | .multiPassEmpty line => s!"multi-pass rule at line {line} has no substitutions"
  | .multiPassTargetMissing line target =>
    s!"multi-pass rule at line {line}: target '{target}' is not in its pattern"

/-- Why no document comes of a list of rules. A class definition has no line. -/
inductive CompileError
  | invalidRule (line : Option Nat) (fault : RuleFault)
  | failed (fault : TableFault)
deriving DecidableEq

def CompileError.message : CompileError → String
  | .invalidRule (some line) fault => s!"invalid rule at line {line}: {fault.message}"
  | .invalidRule none fault => s!"invalid rule: {fault.message}"
  | .failed fault => s!"generation failed: {fault.message}"

end Metamorphosis
