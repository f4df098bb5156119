namespace Metamorphosis

/-- A glyph, known by its name in the font. -/
abbrev Glyph := String

namespace Glyph

/-- The longest name a font table holds, in bytes. -/
def maxBytes : Nat := 63

/-- The word written in place of a replacement when a glyph is deleted. -/
def deletion : String := "DEL"

def isUsable (g : Glyph) : Bool :=
  g.utf8ByteSize ≤ maxBytes && g != deletion

end Glyph

/-- A name with a number behind it, as in `Context2`. -/
def numbered (name : String) (n : Nat) : String :=
  name ++ toString n

/-- Texts with one space between neighbours. -/
def spaced (texts : List String) : String :=
  " ".intercalate texts

/-- Texts are ordered code point by code point, a proper beginning first. -/
def charsPrecede : List Char → List Char → Bool
  | _, [] => false
  | [], _ :: _ => true
  | a :: as, b :: bs => Nat.blt a.toNat b.toNat || (a == b && charsPrecede as bs)

/-- The order of names. -/
def precedes (a b : String) : Bool :=
  charsPrecede a.toList b.toList

/-- Pairs of numbers are ordered by the first, then by the second. -/
def pairPrecedes (a b : Nat × Nat) : Bool :=
  Nat.blt a.1 b.1 || (a.1 == b.1 && Nat.blt a.2 b.2)

/-- Put an element in its place in an increasing list; one that is there already stays single. -/
def insertDistinct {α : Type} (lt : α → α → Bool) (x : α) : List α → List α
  | [] => [x]
  | y :: ys =>
    if lt x y then x :: y :: ys
    else if lt y x then y :: insertDistinct lt x ys
    else y :: ys

/-- The elements of a list in increasing order, each once. -/
def sortDistinct {α : Type} (lt : α → α → Bool) (xs : List α) : List α :=
  xs.foldr (insertDistinct lt) []

/-- The distinct names of a list in order. -/
def glyphSet (glyphs : List Glyph) : List Glyph :=
  sortDistinct precedes glyphs

/-- The elements of a list by their keys, keys in order, elements of one key in list order. -/
def groupByKey {α κ : Type} [BEq κ] (lt : κ → κ → Bool) (key : α → κ) (xs : List α) :
    List (κ × List α) :=
  (sortDistinct lt (xs.map key)).map fun k => (k, xs.filter fun x => key x == k)

structure Overlap where
  targetOnly : List Glyph
  contextOnly : List Glyph
  both : List Glyph
deriving DecidableEq

namespace Overlap

def of (targets contexts : List Glyph) : Overlap where
  targetOnly := (glyphSet targets).filter fun g => !contexts.contains g
  contextOnly := (glyphSet contexts).filter fun g => !targets.contains g
  both := (glyphSet targets).filter fun g => contexts.contains g

def isOverlapping (o : Overlap) : Bool :=
  !o.both.isEmpty

/-- Every glyph in one of the parts. -/
def glyphs (o : Overlap) : List Glyph :=
  glyphSet (o.targetOnly ++ o.contextOnly ++ o.both)

end Overlap

end Metamorphosis
