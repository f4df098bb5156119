import Metamorphosis.Rule

namespace Metamorphosis

/-- Where a glyph rule applies: in a context, or wherever its temporary glyph was left behind. -/
inductive Site
  | context (context : Context Glyph)
  | cleanup (temp : Glyph)
deriving DecidableEq

namespace Site

def kind : Site → String
  | .context c => c.kind
  | .cleanup _ => "cleanup"

def text : Site → String
  | .context c => c.text id
  | .cleanup temp => "cleanup " ++ temp

end Site

/-- A contextual rule on glyphs. The rules that one written rule was taken apart into share a
group. -/
structure GlyphRule where
  site : Site
  pairs : List (Glyph × Glyph)
  line : Nat
  group : Option String := none
deriving DecidableEq

namespace GlyphRule

/-- A rule with one substitution and no group. -/
def single (context : Context Glyph) (target replacement : Glyph) (line : Nat) : GlyphRule :=
  { site := .context context, pairs := [(target, replacement)], line }

/-- The glyphs of a context that has one list of positions. -/
def pattern? (r : GlyphRule) : Option (List Glyph) :=
  match r.site with
  | .context (.after pattern) => some pattern
  | .context (.before pattern) => some pattern
  | .context (.when pattern) => some pattern
  | .context (.between _ _) => none
  | .cleanup _ => none

/-- The two sides of a `between` context. -/
def sides? (r : GlyphRule) : Option (List Glyph × List Glyph) :=
  match r.site with
  | .context (.between first second) => some (first, second)
  | _ => none

/-- Several substitutions in one match take several passes. -/
def isMultiPass (r : GlyphRule) : Bool :=
  1 < r.pairs.length

def isCleanup (r : GlyphRule) : Bool :=
  match r.site with
  | .cleanup _ => true
  | .context _ => false

def text (r : GlyphRule) : String :=
  r.site.text ++ ": " ++ ", ".intercalate (r.pairs.map fun (t, s) => t ++ " => " ++ s)

end GlyphRule

end Metamorphosis
