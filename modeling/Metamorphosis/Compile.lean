import Metamorphosis.Document.Layout
import Metamorphosis.GlyphRule.Expansion
import Metamorphosis.RuleGroup.Subtables
import Metamorphosis.SideBySide
import Metamorphosis.StateTable.Pattern

namespace Metamorphosis

/-- One noncontextual subtable for all simple rules. -/
def SimpleRule.subtables (registry : Registry) (rules : List SimpleRule) :
    CompileM (List Subtable) := do
  let perRule ← rules.mapM fun r => CompileM.atLine r.line (r.entries registry)
  let entries ← CompileM.merge "simple substitutions" perRule.flatten
  let made ← CompileM.announce
    ⟨"simple substitutions", .noncontextual (entries.map fun (g, r) => (g, .glyph r))⟩
  return [made]

/-- One ligature subtable for all ligature rules, with one ligature for each list of components. -/
def LigatureRule.subtables (registry : Registry) (rules : List LigatureRule) :
    CompileM (List Subtable) := do
  let entries ← CompileM.collect
    (fun r : LigatureRule => CompileM.atLine r.line (r.entries registry)) Prod.snd
    (fun e => .ligatureRepeated e.1 e.2) [] rules
  let made ← CompileM.announce ⟨"ligatures", .ligature entries⟩
  return [made]

/-- One insertion subtable for all one-to-many rules, with one entry for each source. -/
def OneToManyRule.subtables (registry : Registry) (rules : List OneToManyRule) :
    CompileM (List Subtable) := do
  let entries ← CompileM.collect
    (fun r : OneToManyRule => CompileM.atLine r.line (r.entries registry)) Prod.fst
    (fun e => .sourceRepeated e.1) [] rules
  let made ← CompileM.announce ⟨"one-to-many", .insertion entries⟩
  return [made]

/-- The text of the document of glyph rules on their own. -/
def GlyphRule.synthesize (config : Config) (rules : List GlyphRule) : CompileM String := do
  return Document.render { config, subtables := ← GlyphRule.allSubtables rules }

def ContextualRule.subtables (registry : Registry) (rules : List ContextualRule) :
    CompileM (List Subtable) := do
  GlyphRule.allSubtables (← ContextualRule.allGlyphRules registry rules)

/-- One rearrangement subtable for each window. -/
def ReorderRule.subtables (registry : Registry) (rules : List ReorderRule) :
    CompileM (List Subtable) := do
  let windows ← ReorderRule.allWindows registry rules
  windows.mapM fun w =>
    CompileM.announce ⟨"rearrangement " ++ w.text, .rearrangement (StateTable.rearrangement w)⟩

/-- The document of some rules on their own. -/
def compileRules {ρ : Type} (subtables : Registry → List ρ → CompileM (List Subtable))
    (classes : List GlyphClass) (config : Config) (rules : List ρ) : CompileM Document :=
  match Registry.ofClasses classes with
  | .error fault => throw (.invalidRule none fault)
  | .ok registry => return { config, subtables := ← subtables registry rules }

/-- The subtables of a kind of rules, none if there are no rules. -/
def ifAny {ρ : Type} (subtables : List ρ → CompileM (List Subtable)) (rules : List ρ) :
    CompileM (List Subtable) :=
  if rules.isEmpty then return [] else subtables rules

/-- The document of a rule file: simple rules, ligatures, one-to-many rules, contextual rules and
reorder rules, in this order. -/
def RuleFile.compile (file : RuleFile) (config : Config) : CompileM Document :=
  match Registry.ofClasses file.classes with
  | .error fault => throw (.invalidRule none fault)
  | .ok registry => do
    let simple ← ifAny (SimpleRule.subtables registry) file.simple
    let ligatures ← ifAny (LigatureRule.subtables registry) file.ligature
    let oneToMany ← ifAny (OneToManyRule.subtables registry) file.oneToMany
    let contextual ← ifAny (ContextualRule.subtables registry) file.contextual
    let reorder ← ifAny (ReorderRule.subtables registry) file.reorder
    let document : Document :=
      { config, subtables := simple ++ ligatures ++ oneToMany ++ contextual ++ reorder }
    CompileM.report (.generated document.size config (← get).arena.size)
    return document

end Metamorphosis
