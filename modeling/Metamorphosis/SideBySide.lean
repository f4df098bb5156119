import Metamorphosis.Registry
import Metamorphosis.Session

namespace Metamorphosis

/-- The substitutions of a simple rule. -/
def SimpleRule.entries (registry : Registry) (rule : SimpleRule) :
    Except RuleFault (List (Glyph × Glyph)) := do
  let targets ← registry.glyphsOf rule.target
  let replacements ← registry.glyphsOf rule.replacement
  if targets.length = replacements.length then return targets.zip replacements
  else throw (.simpleSizes rule.target rule.replacement targets.length replacements.length)

/-- A head glyph with its parts, for each place of lists side by side. -/
def spreadEntries (head : List Glyph) (parts : List (List Glyph)) (size : Nat) :
    List (Glyph × List Glyph) :=
  (List.range size).filterMap fun k =>
    (spread? head k).map fun g => (g, parts.filterMap (spread? · k))

/-- The entries of a head glyph with its parts. Elements that stand for several glyphs are taken side
by side and must be equally many. -/
def sideBySide (registry : Registry) (head : Element) (parts : List Element)
    (fault : Nat → Nat → RuleFault) : Except RuleFault (List (Glyph × List Glyph)) := do
  let heads ← registry.glyphsOf head
  let positions ← registry.positionsOf parts
  match spreadSize ((heads :: positions).map List.length) with
  | .ok size => return spreadEntries heads positions size
  | .error (a, b) => throw (fault a b)

/-- The ligatures of a ligature rule, each with its components. -/
def LigatureRule.entries (registry : Registry) (rule : LigatureRule) :
    Except RuleFault (List (Glyph × List Glyph)) := do
  if rule.components.length < 2 then throw (.fewComponents rule.ligature)
  sideBySide registry rule.ligature rule.components .ligatureSizes

/-- The glyphs of a one-to-many rule, each with the sequence it becomes. -/
def OneToManyRule.entries (registry : Registry) (rule : OneToManyRule) :
    Except RuleFault (List (Glyph × List Glyph)) := do
  if rule.targets.isEmpty then throw (.noTargets rule.source)
  sideBySide registry rule.source rule.targets .oneToManySizes

namespace ReorderRule

/-- The most windows a rule may stand for. -/
def maxWindows : Nat := 100

/-- The first position whose two elements stand for different numbers of glyphs. -/
def unevenPosition? (before after : List (Element × List Glyph)) : Option RuleFault :=
  (before.zip after).zipIdx.findSome? fun (((x, b), (y, a)), i) =>
    if b.length = a.length then none
    else some (.reorderPosition (i + 1) x y b.length a.length)

/-- The two sides of a rule, position by position, and their common size. -/
def positions (registry : Registry) (rule : ReorderRule) :
    Except RuleFault (List (List Glyph) × List (List Glyph) × Nat) := do
  let count := rule.before.length
  if count ≠ rule.after.length then throw (.reorderCounts count rule.after.length)
  if count < 2 ∨ 4 < count then throw (.reorderLength count)
  let before ← registry.positionsOf rule.before
  let after ← registry.positionsOf rule.after
  match unevenPosition? (rule.before.zip before) (rule.after.zip after) with
  | some fault => throw fault
  | none =>
    match commonSize (rule.before.zip before) with
    | .error m => throw (.reorderSizes m.first m.other m.firstSize m.otherSize)
    | .ok size =>
      if maxWindows < size then throw (.tooManyWindows size maxWindows)
      return (before, after, size)

/-- The windows of a rule, each of them reported as soon as its verb is found. -/
def windows (registry : Registry) (rule : ReorderRule) : CompileM (List Window) := do
  let (before, after, size) ← CompileM.atLine rule.line (rule.positions registry)
  (List.range size).mapM fun k => do
    let verb ← CompileM.atLine rule.line (Verb.detect (column before k) (column after k))
    let window : Window := ⟨column before k, column after k, verb, rule.line⟩
    CompileM.report (.window window)
    return window

/-- The windows of several rules, up to the first that has none. -/
def allWindows (registry : Registry) (rules : List ReorderRule) : CompileM (List Window) := do
  let perRule ← rules.mapM (windows registry)
  let all := perRule.flatten
  CompileM.report (.reorderExpanded rules.length all.length)
  return all

end ReorderRule

end Metamorphosis
