import Metamorphosis.RuleFile

namespace Metamorphosis

def GlyphClass.definition (c : GlyphClass) : String :=
  "@class " ++ c.name ++ " = " ++ spaced c.glyphs

def SimpleRule.text (r : SimpleRule) : String :=
  r.target.text ++ " -> " ++ r.replacement.text

def LigatureRule.text (r : LigatureRule) : String :=
  r.ligature.text ++ " := " ++ " + ".intercalate (r.components.map Element.text)

def OneToManyRule.text (r : OneToManyRule) : String :=
  r.source.text ++ " > " ++ spaced (r.targets.map Element.text)

/-- The lines of a block; no rules make no block. -/
def blockLines (keyword : String) (rules : List String) : List String :=
  if rules.isEmpty then [] else ("@" ++ keyword ++ " \x7b") :: rules ++ ["\x7d"]

/-- The number of lines of a block of so many rules. -/
def blockHeight (rules : Nat) : Nat :=
  if rules = 0 then 0 else rules + 2

namespace RuleFile

def lines (f : RuleFile) : List String :=
  f.classes.map GlyphClass.definition ++
  blockLines "contextual" (f.contextual.map ContextualRule.text) ++
  blockLines "reorder" (f.reorder.map ReorderRule.text) ++
  blockLines "simple" (f.simple.map SimpleRule.text) ++
  blockLines "ligature" (f.ligature.map LigatureRule.text) ++
  blockLines "one2many" (f.oneToMany.map OneToManyRule.text)

def print (f : RuleFile) : String :=
  String.join (f.lines.map (· ++ "\n"))

/-- The file with each rule on the line where it is printed, below the first line of its block. -/
def placed (f : RuleFile) : RuleFile :=
  let contextual := f.classes.length + 1
  let reorder := contextual + blockHeight f.contextual.length
  let simple := reorder + blockHeight f.reorder.length
  let ligature := simple + blockHeight f.simple.length
  let oneToMany := ligature + blockHeight f.ligature.length
  { classes := f.classes
    contextual := f.contextual.mapIdx fun i r => { r with line := contextual + 1 + i }
    reorder := f.reorder.mapIdx fun i r => { r with line := reorder + 1 + i }
    simple := f.simple.mapIdx fun i r => { r with line := simple + 1 + i }
    ligature := f.ligature.mapIdx fun i r => { r with line := ligature + 1 + i }
    oneToMany := f.oneToMany.mapIdx fun i r => { r with line := oneToMany + 1 + i } }

/-- Every rule as it is written, with its line. -/
def ruleTexts (f : RuleFile) : List (String × Nat) :=
  f.contextual.map (fun r => (r.text, r.line)) ++ f.reorder.map (fun r => (r.text, r.line)) ++
  f.simple.map (fun r => (r.text, r.line)) ++ f.ligature.map (fun r => (r.text, r.line)) ++
  f.oneToMany.map (fun r => (r.text, r.line))

end RuleFile

end Metamorphosis
