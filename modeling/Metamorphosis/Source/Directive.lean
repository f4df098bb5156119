import Metamorphosis.Source.LineCounter
import Metamorphosis.Source.RuleLine

namespace Metamorphosis

def readNames : Reader (List Glyph) :=
  readSome (fun s => return readName? (skipSpaces s)) noElement

/-- The members of a class, which may be bracketed. -/
def readMembers : Reader (List Glyph) := fun s =>
  match afterWord? "[".toList (skipSpaces s) with
  | some t => do
    let (glyphs, u) ← readNames t
    let (_, v) ← readSymbol "]" u
    return (glyphs, v)
  | none => readNames s

/-- A class definition after its keyword, from which spacing sets it off. -/
def readDefinition : Reader GlyphClass := fun s =>
  if (s.takeWhile isSpace).isEmpty then throw ⟨s, []⟩
  else do
    let (name, t) ← readName (skipSpaces s)
    let (_, u) ← readSymbol "=" t
    let (glyphs, v) ← readMembers u
    return (⟨name, glyphs⟩, v)

/-- Something that takes the rest of its line. -/
def readToEnd {α : Type} (read : Reader α) : Reader α := fun s => do
  let (a, t) ← read s
  let (_, u) ← readEnd t
  return (a, u)

/-- The next rule of a block, if the block does not end here. -/
def readBlockRule? {α : Type} (rule : Reader α) : OptReader α := fun s =>
  match skipBlanks s with
  | '\x7d' :: _ => return none
  | t => do
    let r ← readToEnd rule t
    return some r

/-- The rules of a block between its braces, each with its line. -/
def LineReader.block {α : Type} (rule : Nat → Reader α) : LineReader (List α) := fun lines s => do
  let (_, t) ← readSymbol "\x7b" s
  let (rules, u) ← many (fun lines => readBlockRule? (numbered rule lines)) lines t
  return (rules, (skipBlanks u).drop 1)

inductive Directive
  | glyphClass
  | contextual
  | reorder
  | simple
  | ligature
  | oneToMany
deriving DecidableEq

def directives : List (String × Directive) :=
  [("class", .glyphClass), ("contextual", .contextual), ("reorder", .reorder),
    ("simple", .simple), ("ligature", .ligature), ("one2many", .oneToMany)]

/-- What follows the name of a directive. -/
def Directive.reader : Directive → LineReader RuleFile
  | .glyphClass => .map (.unnumbered (readToEnd readDefinition)) fun c => { classes := [c] }
  | .contextual => .map (.block readContextual) fun rules => { contextual := rules }
  | .reorder => .map (.block readReorder) fun rules => { reorder := rules }
  | .simple => .map (.block readSimple) fun rules => { simple := rules }
  | .ligature => .map (.block readLigature) fun rules => { ligature := rules }
  | .oneToMany => .map (.block readOneToMany) fun rules => { oneToMany := rules }

/-- A class definition or a block. -/
def LineReader.directive : LineReader RuleFile := fun lines s =>
  match s with
  | '@' :: t => do
    let (directive, u) ← readKeyword directives .directiveName t
    directive.reader lines u
  | s => throw ⟨s, [.directive]⟩

/-- Two rule files as one, the rules of the first before those of the second. -/
def RuleFile.append (f g : RuleFile) : RuleFile where
  classes := f.classes ++ g.classes
  contextual := f.contextual ++ g.contextual
  reorder := f.reorder ++ g.reorder
  simple := f.simple ++ g.simple
  ligature := f.ligature ++ g.ligature
  oneToMany := f.oneToMany ++ g.oneToMany

/-- The next directive, unless nothing is left. -/
def LineReader.directive? : OptLineReader RuleFile := fun lines s =>
  match skipBlanks s with
  | [] => return none
  | t => do
    let r ← directive lines t
    return some r

/-- The directives of a text to its end, as one rule file. -/
def readRuleFile (s : List Char) : Except Failure RuleFile := do
  let ((parts, _), _) ← LineReader.many LineReader.directive? (.ofText s) s
  return parts.foldl RuleFile.append {}

end Metamorphosis
