import Metamorphosis.Merge
import Metamorphosis.RuleGroup
import Metamorphosis.StateTable.Adjacent
import Metamorphosis.StateTable.Between
import Metamorphosis.StateTable.BetweenChain
import Metamorphosis.StateTable.Pattern

namespace Metamorphosis

/-- A target with its replacement, the temporary glyph that stands for it and its index in the
pattern. -/
structure MarkedTarget where
  target : Glyph
  replacement : Glyph
  temp : Glyph
  index : Nat
deriving DecidableEq

/-- The first index of a glyph that is not taken. -/
def freeIndex? (pattern : List Glyph) (taken : List Nat) (g : Glyph) : Option Nat :=
  (pattern.zipIdx.find? fun (h, i) => h == g && !taken.contains i).map Prod.snd

/-- Temporary glyphs for more targets of a rule, each target at an index of its own. -/
def markTargets (line ordinal : Nat) (pattern : List Glyph) :
    List MarkedTarget → List (Glyph × Glyph) → CompileM (List MarkedTarget)
  | marked, [] => return marked
  | marked, (target, replacement) :: rest =>
    match freeIndex? pattern (marked.map MarkedTarget.index) target with
    | none => throw (.failed (.multiPassTargetMissing line target))
    | some index => do
      let temp ← CompileM.temporary ⟨.multiPass, line, ordinal, marked.length⟩
      markTargets line ordinal pattern (marked ++ [⟨target, replacement, temp, index⟩]) rest

/-- The subtables of a `when` pattern, given its marked targets and its last substitution. -/
def passSubtables (line : Nat) (pattern : List Glyph) (marked : List MarkedTarget)
    (last : Glyph × Glyph) : CompileM (List Subtable) := do
  let description := numbered "multi-pass marking, line " line
  let entries ← CompileM.merge description (marked.map fun m => (m.target, m.temp))
  return [
    ⟨description, .contextual
      (StateTable.marking pattern (marked.map MarkedTarget.index) entries)⟩,
    ⟨numbered "multi-pass substitution, line " line, .noncontextual
      (marked.map (fun m => (m.temp, .glyph m.replacement)) ++ [(last.1, .glyph last.2)])⟩,
    ⟨numbered "multi-pass cleanup, line " line, .noncontextual
      (marked.map fun m => (m.temp, .delete))⟩]

/-- The three subtables of a rule. Only `when` rules can be matched in several passes. -/
def GlyphRule.passes (ordinal : Nat) (r : GlyphRule) : CompileM (List Subtable) :=
  match r.site with
  | .context (.when pattern) =>
    match r.pairs.getLast? with
    | some last => do
      let marked ← markTargets r.line ordinal pattern [] r.pairs.dropLast
      passSubtables r.line pattern marked last
    | none => throw (.failed (.multiPassEmpty r.line))
  | site => throw (.failed (.multiPassContext r.line site.kind))

/-- The substitutions of rules as listed. -/
def substitutions (rules : List GlyphRule) : List (Glyph × Glyph) :=
  rules.flatMap GlyphRule.pairs

/-- The context length of a chain, taken from its first rule. -/
def chainLength (side : Side) (rules : List GlyphRule) : Except TableFault Nat :=
  let length := ((rules.head?.bind GlyphRule.pattern?).getD []).length
  if length < 2 then .error (.shortChain side length) else .ok length

/-- The length of a `when` pattern and the index of its target. -/
def GlyphRule.shape (r : GlyphRule) : Except TableFault (Nat × Nat) :=
  let pattern := r.pattern?.getD []
  let target := (r.pairs.head?.map Prod.fst).getD ""
  if pattern.length < 2 then .error (.shortPattern r.line)
  else
    match pattern.idxOf? target with
    | some index => .ok (pattern.length, index)
    | none => .error (.whenTargetMissing r.line target)

/-- A shape, if rules share it. -/
def sharedShape (shape : Nat × Nat) : List GlyphRule → Except TableFault (Nat × Nat)
  | [] => .ok shape
  | r :: rest => do
    let found ← r.shape
    if found = shape then sharedShape shape rest else throw (.whenShapes r.line found shape)

/-- The shape that `when` rules have in common. -/
def commonShape : List GlyphRule → Except TableFault (Nat × Nat)
  | [] => .error .noWhenRules
  | r :: rest => do sharedShape (← r.shape) rest

namespace RuleGroup

/-- The subtables of a group. -/
def subtables : RuleGroup → CompileM (List Subtable)
  | .adjacent side glyph rules => do
    let description := side.text ++ " " ++ glyph
    let entries ← CompileM.merge description (substitutions rules)
    return [⟨description, .contextual (StateTable.adjacent side glyph entries)⟩]
  | .chain side rules => do
    let length ← CompileM.inTable (chainLength side rules)
    let description := s!"{side.text}, {length}-glyph context"
    let entries ← CompileM.merge description (substitutions rules)
    return [⟨description, .contextual
      (StateTable.chain side length (rules.filterMap GlyphRule.pattern?) entries)⟩]
  | .between rules => do
    let entries ← CompileM.merge "between" (substitutions rules)
    let sides := rules.filterMap GlyphRule.sides?
    return [⟨"between", .contextual
      (StateTable.between (sides.flatMap Prod.fst) (sides.flatMap Prod.snd) entries)⟩]
  | .betweenChain n m rules => do
    let line := (rules.head?.map GlyphRule.line).getD 0
    if n = 0 ∨ m = 0 then throw (.failed (.betweenSideMissing line))
    let description := s!"between, {n}+{m}-glyph context"
    let entries ← CompileM.merge description (substitutions rules)
    let positions := StateTable.betweenPositions n m (rules.filterMap GlyphRule.sides?)
      (entries.map Prod.fst)
    match sharedGlyph? [] positions with
    | some s => throw (.failed (.betweenOverlap line s.glyph s.earlier s.later))
    | none => return [⟨description, .contextual (StateTable.betweenChain n m positions entries)⟩]
  | .whole rules => do
    let (length, target) ← CompileM.inTable (commonShape rules)
    let description := s!"when, {length}-glyph pattern"
    let entries ← CompileM.merge description (substitutions rules)
    return [⟨description, .contextual
      (StateTable.whole length target (rules.filterMap GlyphRule.pattern?) entries)⟩]
  | .cleanup description rules => do
    let entries ← CompileM.merge description (substitutions rules)
    return [⟨description, .noncontextual (entries.map fun (g, r) => (g, .glyph r))⟩]
  | .multiPass ordinal rule => rule.passes ordinal

/-- The subtables of a group, announced once all of them are made. -/
def announced (group : RuleGroup) : CompileM (List Subtable) := do
  let made ← group.subtables
  made.mapM CompileM.announce

end RuleGroup

/-- The subtables of glyph rules, group after group. -/
def GlyphRule.allSubtables (rules : List GlyphRule) : CompileM (List Subtable) := do
  CompileM.report (.synthesizing (RuleCounts.ofRules rules))
  let perGroup ← (RuleGroup.ofRules rules).mapM RuleGroup.announced
  return perGroup.flatten

end Metamorphosis
