import Metamorphosis.Fault
import Metamorphosis.Rule

namespace Metamorphosis

structure Registry where
  classes : List GlyphClass
  names_nodup : (classes.map GlyphClass.name).Nodup
  glyphs_ne_nil : ∀ c ∈ classes, c.glyphs ≠ []

namespace Registry

def empty : Registry :=
  ⟨[], by simp, by simp⟩

def size (r : Registry) : Nat :=
  r.classes.length

def isEmpty (r : Registry) : Bool :=
  r.classes.isEmpty

def find? (r : Registry) (name : String) : Option GlyphClass :=
  r.classes.find? fun c => c.name == name

def contains (r : Registry) (name : String) : Bool :=
  (r.find? name).isSome

/-- Add a class; a name already taken is reported before a class without glyphs. -/
def insert (r : Registry) (c : GlyphClass) : Except RuleFault Registry :=
  if taken : c.name ∈ r.classes.map GlyphClass.name then .error (.duplicateClass c.name)
  else if bare : c.glyphs = [] then .error (.emptyClass c.name)
  else .ok {
    classes := r.classes ++ [c]
    names_nodup := by
      rw [List.map_append, List.nodup_append]
      refine ⟨r.names_nodup, by simp, ?_⟩
      intro a ha b hb
      simp only [List.map_cons, List.map_nil, List.mem_singleton] at hb
      rintro rfl
      exact taken (hb ▸ ha)
    glyphs_ne_nil := by
      intro d hd
      rcases List.mem_append.mp hd with hd | hd
      · exact r.glyphs_ne_nil d hd
      · rw [List.mem_singleton.mp hd]
        exact bare }

def ofClasses (classes : List GlyphClass) : Except RuleFault Registry :=
  classes.foldlM insert empty

/-- The glyphs an element stands for, in the order of its class. -/
def glyphsOf (r : Registry) : Element → Except RuleFault (List Glyph)
  | .glyph name => .ok [name]
  | .classRef name =>
    match r.find? name with
    | some c => .ok c.glyphs
    | none => .error (.undefinedClass name)

def positionsOf (r : Registry) (elements : List Element) : Except RuleFault (List (List Glyph)) :=
  elements.mapM r.glyphsOf

end Registry

/-- Each of some choices with each glyph of one more position. -/
def extendChoices (chosen : List (List Glyph)) (position : List Glyph) : List (List Glyph) :=
  chosen.flatMap fun choice => position.map fun g => choice ++ [g]

/-- Every choice of one glyph per position, the last position changing fastest. -/
def choices (positions : List (List Glyph)) : List (List Glyph) :=
  positions.foldl extendChoices [[]]

/-- The `k`-th glyph of every position. -/
def column (positions : List (List Glyph)) (k : Nat) : List Glyph :=
  positions.filterMap fun position => position[k]?

/-- Two elements that stand for different numbers of glyphs. -/
structure SizeMismatch where
  first : Element
  other : Element
  firstSize : Nat
  otherSize : Nat
deriving DecidableEq

/-- The size that lists side by side have in common, or the first one that differs from the
first. -/
def commonSize : List (Element × List Glyph) → Except SizeMismatch Nat
  | [] => .ok 0
  | (first, glyphs) :: rest =>
    match rest.find? fun entry => entry.2.length != glyphs.length with
    | some (other, others) => .error ⟨first, other, glyphs.length, others.length⟩
    | none => .ok glyphs.length

/-- The size that lists of more than one glyph have in common, or the size so far with the first
that does not fit it. -/
def spreadSize (sizes : List Nat) : Except (Nat × Nat) Nat :=
  sizes.foldlM (fun size next =>
    if next = 1 ∨ next = size then .ok size
    else if size = 1 then .ok next
    else .error (size, next)) 1

/-- The `k`-th glyph of a list; a list of one glyph stands for that glyph throughout. -/
def spread? : List Glyph → Nat → Option Glyph
  | [g], _ => some g
  | glyphs, k => glyphs[k]?

end Metamorphosis
