import Metamorphosis.Registry
import Metamorphosis.Session

namespace Metamorphosis

/-- The glyphs of the two sides of a substitution, which must be equally many. -/
def Pair.glyphs (registry : Registry) (p : Pair) : Except RuleFault (List Glyph × List Glyph) := do
  let targets ← registry.glyphsOf p.target
  let replacements ← registry.glyphsOf p.replacement
  if targets.length = replacements.length then return (targets, replacements)
  else throw (.pairSizes p targets.length replacements.length)

namespace ContextualRule

/-- One glyph rule for each substitution, each context and each target. -/
def inContexts (registry : Registry) (rule : ContextualRule) (contexts : List (Context Glyph)) :
    Except RuleFault (List GlyphRule) := do
  let perPair ← rule.pairs.mapM fun pair => do
    let (targets, replacements) ← pair.glyphs registry
    return contexts.flatMap fun context =>
      (targets.zip replacements).map fun (t, r) => GlyphRule.single context t r rule.line
  return perPair.flatten

/-- The choices of glyphs for a part of a context, which must not be empty. -/
def contextChoices (registry : Registry) (part : ContextPart) (elements : List Element) :
    Except RuleFault (List (List Glyph)) := do
  if elements.isEmpty then throw (.emptyContext part)
  return choices (← registry.positionsOf elements)

/-- The glyph rules of a rule with a context next to its targets. -/
def adjacentRules (registry : Registry) (rule : ContextualRule) (side : Side)
    (pattern : List Element) : Except RuleFault (List GlyphRule) := do
  let contexts ← contextChoices registry (.adjacent side) pattern
  rule.inContexts registry (contexts.map fun glyphs =>
    match side with
    | .after => .after glyphs
    | .before => .before glyphs)

/-- The glyph rules of a rule with contexts on both sides of its targets. -/
def betweenRules (registry : Registry) (rule : ContextualRule) (first second : List Element) :
    Except RuleFault (List GlyphRule) := do
  if first.isEmpty then throw (.emptyContext .betweenFirst)
  if second.isEmpty then throw (.emptyContext .betweenSecond)
  let firsts := choices (← registry.positionsOf first)
  let seconds := choices (← registry.positionsOf second)
  rule.inContexts registry (firsts.flatMap fun f => seconds.map fun s => .between f s)

/-- The positions of a `when` pattern, all of one size, and that size. -/
def whenPositions (registry : Registry) (pattern : List Element) :
    Except RuleFault (List (List Glyph) × Nat) := do
  if pattern.length < 2 then throw .shortWhen
  let positions ← registry.positionsOf pattern
  match commonSize (pattern.zip positions) with
  | .ok size => return (positions, size)
  | .error m => throw (.whenSizes m.first m.other m.firstSize m.otherSize)

/-- The two sides of each substitution of a `when` rule, in the size of its pattern. -/
def whenPairs (registry : Registry) (pairs : List Pair) (size : Nat) :
    Except RuleFault (List (List Glyph × List Glyph)) :=
  pairs.mapM fun pair => do
    let (targets, replacements) ← pair.glyphs registry
    if targets.length = size then return (targets, replacements)
    else throw (.pairOffPattern pair targets.length size)

/-- The group of the glyph rules that the rule on a line is taken apart into. -/
def groupName (line : Nat) : String :=
  numbered "decomposed_" line

/-- The three rules for a pattern with its target at an inner index, through the temporary glyph
of the `k`-th target. -/
def takeApart (line k index : Nat) (pattern : List Glyph) (target replacement : Glyph) :
    CompileM (List GlyphRule) := do
  let temp ← CompileM.temporary ⟨.decomposed, line, k, 0⟩
  let group := some (groupName line)
  return [
    { site := .context (.after (pattern.take index)), pairs := [(target, temp)], line, group },
    { site := .context (.before (pattern.drop (index + 1))), pairs := [(temp, replacement)],
      line, group },
    { site := .cleanup temp, pairs := [(temp, target)], line, group }]

/-- The glyph rules for one substitution in a `when` pattern. Its target is looked for position by
position, with all its glyphs at once. -/
def splitAtTarget (line : Nat) (positions : List (List Glyph)) (target : Element)
    (targets replacements : List Glyph) : CompileM (List GlyphRule) :=
  match positions.findIdx? fun position => position.any targets.contains with
  | none => throw (.invalidRule (some line) (.targetOutsidePattern target))
  | some index => do
    let perTarget ← (targets.zip replacements).zipIdx.mapM fun ((t, r), k) =>
      let pattern := column positions k
      if index = 0 then
        return [GlyphRule.single (.before (pattern.drop 1)) t r line]
      else if index + 1 = positions.length then
        return [GlyphRule.single (.after (pattern.take index)) t r line]
      else takeApart line k index pattern t r
    return perTarget.flatten

/-- The rule for the `k`-th glyphs of a `when` pattern, with all substitutions. -/
def wholeRule (line k : Nat) (positions : List (List Glyph))
    (sides : List (List Glyph × List Glyph)) : GlyphRule where
  site := .context (.when (column positions k))
  pairs := (column (sides.map Prod.fst) k).zip (column (sides.map Prod.snd) k)
  line := line

/-- The glyph rules of a `when` rule. -/
def whenRules (registry : Registry) (rule : ContextualRule) (pattern : List Element) :
    CompileM (List GlyphRule) := do
  let (positions, size) ← CompileM.atLine rule.line (whenPositions registry pattern)
  let sides ← CompileM.atLine rule.line (whenPairs registry rule.pairs size)
  match rule.pairs, sides with
  | [pair], [(targets, replacements)] =>
    splitAtTarget rule.line positions pair.target targets replacements
  | _, _ => return (List.range size).map fun k => wholeRule rule.line k positions sides

/-- The glyph rules of a rule, each of them reported once all are known. -/
def glyphRules (registry : Registry) (rule : ContextualRule) : CompileM (List GlyphRule) := do
  if rule.pairs.isEmpty then throw (.invalidRule (some rule.line) .noSubstitutions)
  let rules ← match rule.context with
    | .after pattern => CompileM.atLine rule.line (rule.adjacentRules registry .after pattern)
    | .before pattern => CompileM.atLine rule.line (rule.adjacentRules registry .before pattern)
    | .between first second => CompileM.atLine rule.line (rule.betweenRules registry first second)
    | .when pattern => rule.whenRules registry pattern
  CompileM.reportAll (rules.map .glyphRule)
  return rules

/-- The glyph rules of several rules, up to the first that has none. -/
def allGlyphRules (registry : Registry) (rules : List ContextualRule) :
    CompileM (List GlyphRule) := do
  let perRule ← rules.mapM (glyphRules registry)
  let all := perRule.flatten
  CompileM.report (.contextualExpanded rules.length all.length (← get).arena.size)
  return all

end ContextualRule

end Metamorphosis
