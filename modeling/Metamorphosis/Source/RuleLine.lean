import Metamorphosis.RuleFile
import Metamorphosis.Source.Reader

namespace Metamorphosis

/-- An element, if one starts here; after the sign of a class its name must follow. -/
def readElement? : OptReader Element
  | '@' :: t => do
    let (name, u) ← readName t
    return some (.classRef name, u)
  | s => return (readName? s).map fun (name, t) => (.glyph name, t)

def readElement : Reader Element := fun s => do
  match ← readElement? s with
  | some r => return r
  | none => throw ⟨s, [.glyphName]⟩

/-- One or more items, with the failure for text that starts with none. -/
def readSome {α : Type} (item : OptReader α) (missing : List Char → Failure) :
    Reader (List α) := fun s => do
  match ← item s with
  | none => throw (missing s)
  | some (a, t) => do
    let (as, u) ← readMany item t
    return (a :: as, u)

/-- An item behind a sign, if the sign and an item are there. -/
def readBehind {α : Type} (sign : String) (item : OptReader α) : OptReader α := fun s =>
  match afterWord? sign.toList (skipSpaces s) with
  | some t => item (skipSpaces t)
  | none => return none

/-- One or more items with a sign between them. A sign that no item follows is left alone. -/
def readSeparated {α : Type} (sign : String) (item : OptReader α) : Reader (List α) := fun s => do
  match ← item s with
  | none => throw ⟨s, [.glyphName]⟩
  | some (a, t) => do
    let (as, u) ← readMany (readBehind sign item) t
    return (a :: as, u)

def noElement (s : List Char) : Failure :=
  ⟨skipSpaces s, [.glyphName]⟩

/-- A list of elements. -/
def readPattern : Reader (List Element) := fun s =>
  labelled .pattern (readSome (fun s => readElement? (skipSpaces s)) noElement s)

/-- The word between the two sides of a `between` context. -/
def betweenWord : String := "and"

/-- An element that is not the word between two sides. -/
def readFirstSideElement? : OptReader Element := fun s => do
  match ← readElement? (skipSpaces s) with
  | some (.glyph name, t) => return if name == betweenWord then none else some (.glyph name, t)
  | r => return r

/-- The first side of a `between` context, which ends at the word `and`. -/
def readFirstSide : Reader (List Element) := fun s =>
  labelled .pattern (readSome readFirstSideElement? (fun s =>
    match readName? (skipSpaces s) with
    | some _ => ⟨skipSpaces s, []⟩
    | none => noElement s) s)

/-- The first of some words that the text starts with, as what it stands for. -/
def readKeyword? {α : Type} (words : List (String × α)) (s : List Char) : Option (α × List Char) :=
  words.findSome? fun (word, a) => (afterWord? word.toList s).map fun t => (a, t)

/-- One of some words that must be there. -/
def readKeyword {α : Type} (words : List (String × α)) (missing : Expected) : Reader α := fun s =>
  match readKeyword? words s with
  | some r => .ok r
  | none => .error ⟨s, [missing]⟩

inductive ContextKeyword
  | after
  | before
  | between
  | when
deriving DecidableEq

def contextKeywords : List (String × ContextKeyword) :=
  [("after", .after), ("before", .before), ("between", .between), ("when", .when)]

/-- What follows the keyword of a context. -/
def ContextKeyword.read : ContextKeyword → Reader (Context Element)
  | .after => readAs readPattern .after
  | .before => readAs readPattern .before
  | .when => readAs readPattern .when
  | .between => fun s => do
    let (first, t) ← readFirstSide s
    let (_, u) ← readSymbol betweenWord t
    let (second, v) ← readPattern u
    return (.between first second, v)

def readContext : Reader (Context Element) := fun s => do
  let (keyword, t) ← readKeyword contextKeywords .contextKeyword s
  keyword.read t

/-- A substitution, if an element starts here. -/
def readPair? : OptReader Pair := fun s => do
  match ← readElement? s with
  | none => return none
  | some (target, t) => do
    let (_, u) ← readSymbol "=>" t
    let (replacement, v) ← labelled .replacement (readElement (skipSpaces u))
    return some ({ target, replacement }, v)

/-- A rule in two parts with a sign between them, given its line. -/
def readAround {α β γ : Type} (left : Reader α) (sign : Reader Unit) (right : Reader β)
    (rule : α → β → Nat → γ) (line : Nat) : Reader γ := fun s => do
  let (a, t) ← left s
  let (_, u) ← sign t
  let (b, v) ← right u
  return (rule a b line, v)

def readContextual : Nat → Reader ContextualRule :=
  readAround readContext (readSymbol ":") (fun s => readSeparated "," readPair? (skipSpaces s))
    ContextualRule.mk

/-- The arrow of a reorder rule, which may be short of its shaft. -/
def readArrow : Reader Unit := fun s =>
  match afterWord? ">".toList (skipSpaces s) with
  | some t => return ((), t)
  | none => readSymbol "=>" s

def readReorder : Nat → Reader ReorderRule :=
  readAround readPattern readArrow readPattern ReorderRule.mk

def readSimple : Nat → Reader SimpleRule :=
  readAround readElement (readSymbol "->") (fun s => readElement (skipSpaces s)) SimpleRule.mk

def readLigature : Nat → Reader LigatureRule :=
  readAround readElement (readSymbol ":=")
    (fun s => readSeparated "+" readElement? (skipSpaces s)) LigatureRule.mk

def readOneToMany : Nat → Reader OneToManyRule :=
  readAround readElement (readSymbol ">") readPattern OneToManyRule.mk

end Metamorphosis
