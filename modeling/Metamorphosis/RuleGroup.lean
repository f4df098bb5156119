import Metamorphosis.Event
import Metamorphosis.Glyph

namespace Metamorphosis

/-- Rules that become one subtable, or one rule that becomes three. -/
inductive RuleGroup
  | adjacent (side : Side) (glyph : Glyph) (rules : List GlyphRule)
  | chain (side : Side) (rules : List GlyphRule)
  | between (rules : List GlyphRule)
  | betweenChain (first second : Nat) (rules : List GlyphRule)
  | whole (rules : List GlyphRule)
  | cleanup (description : String) (rules : List GlyphRule)
  | multiPass (ordinal : Nat) (rule : GlyphRule)
deriving DecidableEq

namespace GlyphRule

/-- The pattern of a rule that takes one pass and has its context on the given side. -/
def adjacentPattern? (side : Side) (r : GlyphRule) : Option (List Glyph) :=
  match side, r.site with
  | .after, .context (.after pattern) => if r.isMultiPass then none else some pattern
  | .before, .context (.before pattern) => if r.isMultiPass then none else some pattern
  | _, _ => none

/-- The two sides of a `between` rule that takes one pass. -/
def betweenSides? (r : GlyphRule) : Option (List Glyph × List Glyph) :=
  if r.isMultiPass then none else r.sides?

/-- The pattern of a `when` rule that takes one pass. -/
def wholePattern? (r : GlyphRule) : Option (List Glyph) :=
  match r.site with
  | .context (.when pattern) => if r.isMultiPass then none else some pattern
  | _ => none

/-- A rule in a context that takes several passes. -/
def takesPasses (r : GlyphRule) : Bool :=
  r.isMultiPass && !r.isCleanup

end GlyphRule

namespace RuleGroup

/-- Groups of rules with their contexts on one side: by context length, and by the glyph itself
where the context is one glyph. -/
def adjacentGroups (side : Side) (rules : List GlyphRule) : List RuleGroup :=
  let sided := rules.filterMap fun r => (r.adjacentPattern? side).map fun pattern => (pattern, r)
  (groupByKey Nat.blt (fun entry => entry.1.length) sided).flatMap fun (length, entries) =>
    if length = 1 then
      (groupByKey precedes (fun entry => entry.1.headD "") entries).map fun (glyph, entries) =>
        .adjacent side glyph (entries.map Prod.snd)
    else [.chain side (entries.map Prod.snd)]

/-- Groups of `between` rules by the lengths of their sides. -/
def betweenGroups (rules : List GlyphRule) : List RuleGroup :=
  let sided := rules.filterMap fun r => r.betweenSides?.map fun (f, s) => ((f.length, s.length), r)
  (groupByKey pairPrecedes Prod.fst sided).map fun ((first, second), entries) =>
    if first = 1 ∧ second = 1 then .between (entries.map Prod.snd)
    else .betweenChain first second (entries.map Prod.snd)

/-- The group of the `when` rules, if there are any. -/
def wholeGroups (rules : List GlyphRule) : List RuleGroup :=
  match rules.filter fun r => r.wholePattern?.isSome with
  | [] => []
  | wholes => [.whole wholes]

/-- Cleanup rules that belong to a group, by the name of that group. -/
def namedCleanups (rules : List GlyphRule) : List RuleGroup :=
  let named := (rules.filter GlyphRule.isCleanup).filterMap fun r => r.group.map fun id => (id, r)
  (groupByKey precedes Prod.fst named).map fun (id, entries) =>
    .cleanup ("cleanup " ++ id) (entries.map Prod.snd)

/-- A group for each rule that takes several passes. -/
def passGroups (rules : List GlyphRule) : List RuleGroup :=
  (rules.filter GlyphRule.takesPasses).zipIdx.map fun (r, ordinal) => .multiPass ordinal r

/-- The group of the cleanup rules that belong to none, if there are any. -/
def otherCleanups (rules : List GlyphRule) : List RuleGroup :=
  match rules.filter fun r => r.isCleanup && r.group.isNone with
  | [] => []
  | others => [.cleanup "cleanup" others]

/-- The groups of glyph rules in the order of their subtables. -/
def ofRules (rules : List GlyphRule) : List RuleGroup :=
  adjacentGroups .after rules ++ adjacentGroups .before rules ++ betweenGroups rules ++
  wholeGroups rules ++ namedCleanups rules ++ passGroups rules ++ otherCleanups rules

end RuleGroup

/-- How many rules of each kind there are. -/
def RuleCounts.ofRules (rules : List GlyphRule) : RuleCounts where
  after := rules.countP fun r => (r.adjacentPattern? .after).isSome
  before := rules.countP fun r => (r.adjacentPattern? .before).isSome
  between := rules.countP fun r => r.betweenSides?.isSome
  when := rules.countP fun r => r.wholePattern?.isSome
  multiPass := rules.countP GlyphRule.takesPasses
  cleanup := rules.countP GlyphRule.isCleanup

end Metamorphosis
