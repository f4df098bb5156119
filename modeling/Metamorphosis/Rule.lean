import Metamorphosis.Glyph

namespace Metamorphosis

/-- A named list of glyphs. -/
structure GlyphClass where
  name : String
  glyphs : List Glyph
deriving DecidableEq

/-- One position of a rule: a glyph, or a class that stands for each of its glyphs. -/
inductive Element
  | glyph (name : Glyph)
  | classRef (name : String)
deriving DecidableEq

def Element.text : Element → String
  | .glyph name => name
  | .classRef name => "@" ++ name

/-- Where a substitution applies. A `when` pattern spans the target, the other sides surround it. -/
inductive Context (α : Type)
  | after (pattern : List α)
  | before (pattern : List α)
  | between (first second : List α)
  | when (pattern : List α)
deriving DecidableEq

namespace Context

variable {α : Type}

def kind : Context α → String
  | .after _ => "after"
  | .before _ => "before"
  | .between _ _ => "between"
  | .when _ => "when"

/-- The context in the rule language, given the text of a position. -/
def text (word : α → String) : Context α → String
  | .between first second =>
    "between " ++ spaced (first.map word) ++ " and " ++ spaced (second.map word)
  | .after pattern => "after " ++ spaced (pattern.map word)
  | .before pattern => "before " ++ spaced (pattern.map word)
  | .when pattern => "when " ++ spaced (pattern.map word)

end Context

/-- An edit of name suffixes that a substitution asks for. It is carried along, and nothing acts on
it. -/
inductive Wildcard
  | appendSuffix (suffix : String)
  | removeSuffix (suffix : String)
deriving DecidableEq

/-- A substitution of one element by another. -/
structure Pair where
  target : Element
  replacement : Element
  wildcard : Option Wildcard := none
deriving DecidableEq

/-- The substitution in the rule language, which has no words for a wildcard. -/
def Pair.text (p : Pair) : String :=
  p.target.text ++ " => " ++ p.replacement.text

structure ContextualRule where
  context : Context Element
  pairs : List Pair
  line : Nat
deriving DecidableEq

def ContextualRule.text (r : ContextualRule) : String :=
  r.context.text Element.text ++ ": " ++ ", ".intercalate (r.pairs.map Pair.text)

/-- The glyphs of `before`, in the order of `after`. -/
structure ReorderRule where
  before : List Element
  after : List Element
  line : Nat
deriving DecidableEq

def ReorderRule.text (r : ReorderRule) : String :=
  spaced (r.before.map Element.text) ++ " => " ++ spaced (r.after.map Element.text)

structure SimpleRule where
  target : Element
  replacement : Element
  line : Nat
deriving DecidableEq

structure LigatureRule where
  ligature : Element
  components : List Element
  line : Nat
deriving DecidableEq

structure OneToManyRule where
  source : Element
  targets : List Element
  line : Nat
deriving DecidableEq

end Metamorphosis
