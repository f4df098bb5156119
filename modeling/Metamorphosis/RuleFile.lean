import Metamorphosis.Rule

namespace Metamorphosis

structure RuleFile where
  classes : List GlyphClass := []
  contextual : List ContextualRule := []
  reorder : List ReorderRule := []
  simple : List SimpleRule := []
  ligature : List LigatureRule := []
  oneToMany : List OneToManyRule := []
deriving DecidableEq

/-- A place where a glyph is named: the line of a rule, or none for a class member. -/
structure GlyphUse where
  name : Glyph
  line : Option Nat
deriving DecidableEq

def Element.glyph? : Element → Option Glyph
  | .glyph name => some name
  | .classRef _ => none

/-- The elements of a context, the first side of a `between` before the second. -/
def Context.elements {α : Type} : Context α → List α
  | .after pattern => pattern
  | .before pattern => pattern
  | .between first second => first ++ second
  | .when pattern => pattern

namespace RuleFile

/-- The number of rules of all kinds; classes do not count. -/
def ruleCount (f : RuleFile) : Nat :=
  f.contextual.length + f.reorder.length + f.simple.length + f.ligature.length +
    f.oneToMany.length

def isEmpty (f : RuleFile) : Bool :=
  f.ruleCount == 0

def summary (f : RuleFile) : String :=
  s!"RuleFile({f.classes.length} classes, {f.contextual.length} contextual, " ++
  s!"{f.reorder.length} reorder, {f.simple.length} simple, {f.ligature.length} ligature, " ++
  s!"{f.oneToMany.length} one-to-many)"

/-- Every element of the rules with the line of its rule, kind by kind. -/
def elements (f : RuleFile) : List (Element × Nat) :=
  (f.contextual.flatMap fun r =>
    (r.context.elements ++ r.pairs.flatMap fun p => [p.target, p.replacement]).map (·, r.line)) ++
  (f.reorder.flatMap fun r => (r.before ++ r.after).map (·, r.line)) ++
  (f.simple.flatMap fun r => [r.target, r.replacement].map (·, r.line)) ++
  (f.ligature.flatMap fun r => (r.ligature :: r.components).map (·, r.line)) ++
  (f.oneToMany.flatMap fun r => (r.source :: r.targets).map (·, r.line))

/-- Every use of a glyph in the file, class members first. -/
def glyphUses (f : RuleFile) : List GlyphUse :=
  (f.classes.flatMap fun c => c.glyphs.map fun g => ⟨g, none⟩) ++
  f.elements.filterMap fun (e, line) => e.glyph?.map fun g => ⟨g, some line⟩

/-- The first use of a name that is not usable. -/
def unusableName? (f : RuleFile) : Option GlyphUse :=
  f.glyphUses.find? fun u => !u.name.isUsable

/-- The line of the next rule in a file put together rule by rule; classes take no line. -/
def nextLine (f : RuleFile) : Nat :=
  f.ruleCount + 1

def addClass (f : RuleFile) (c : GlyphClass) : RuleFile :=
  { f with classes := f.classes ++ [c] }

def addContextual (f : RuleFile) (context : Context Element) (pairs : List Pair) : RuleFile :=
  { f with contextual := f.contextual ++ [⟨context, pairs, f.nextLine⟩] }

def addReorder (f : RuleFile) (before after : List Element) : RuleFile :=
  { f with reorder := f.reorder ++ [⟨before, after, f.nextLine⟩] }

def addSimple (f : RuleFile) (target replacement : Element) : RuleFile :=
  { f with simple := f.simple ++ [⟨target, replacement, f.nextLine⟩] }

def addLigature (f : RuleFile) (ligature : Element) (components : List Element) : RuleFile :=
  { f with ligature := f.ligature ++ [⟨ligature, components, f.nextLine⟩] }

def addOneToMany (f : RuleFile) (source : Element) (targets : List Element) : RuleFile :=
  { f with oneToMany := f.oneToMany ++ [⟨source, targets, f.nextLine⟩] }

end RuleFile

end Metamorphosis
