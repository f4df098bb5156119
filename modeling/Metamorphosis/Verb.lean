import Metamorphosis.Fault

namespace Metamorphosis

/-- A part of a window under rearrangement. -/
inductive Part
  | A
  | B
  | x
  | C
  | D
deriving DecidableEq

namespace Part

def letter : Part → Char
  | .A => 'A'
  | .B => 'B'
  | .x => 'x'
  | .C => 'C'
  | .D => 'D'

def isHead : Part → Bool
  | .A | .B => true
  | _ => false

def isTail : Part → Bool
  | .C | .D => true
  | _ => false

/-- The glyphs of a part, when `heads` glyphs at the start and `tails` at the end have names. -/
def glyphs {α : Type} (heads tails : Nat) (window : List α) : Part → List α
  | .A => window.take 1
  | .B => (window.drop 1).take 1
  | .x => (window.drop heads).take (window.length - heads - tails)
  | .C => (window.drop (window.length - 2)).take 1
  | .D => window.drop (window.length - 1)

end Part

inductive Verb
  | noChange
  | Ax_xA
  | xD_Dx
  | AxD_DxA
  | ABx_xAB
  | ABx_xBA
  | xCD_CDx
  | xCD_DCx
  | AxCD_CDxA
  | AxCD_DCxA
  | ABxD_DxAB
  | ABxD_DxBA
  | ABxCD_CDxAB
  | ABxCD_CDxBA
  | ABxCD_DCxAB
  | ABxCD_DCxBA
deriving DecidableEq

namespace Verb

/-- All verbs in the order of their numbers. -/
def all : List Verb :=
  [noChange, Ax_xA, xD_Dx, AxD_DxA, ABx_xAB, ABx_xBA, xCD_CDx, xCD_DCx, AxCD_CDxA, AxCD_DCxA,
    ABxD_DxAB, ABxD_DxBA, ABxCD_CDxAB, ABxCD_CDxBA, ABxCD_DCxAB, ABxCD_DCxBA]

/-- The number of a verb in a font table. -/
def number (v : Verb) : Nat :=
  all.idxOf v

def ofNumber? (n : Nat) : Option Verb :=
  all[n]?

/-- The order of the parts before and after. -/
def sides : Verb → List Part × List Part
  | noChange => ([.x], [.x])
  | Ax_xA => ([.A, .x], [.x, .A])
  | xD_Dx => ([.x, .D], [.D, .x])
  | AxD_DxA => ([.A, .x, .D], [.D, .x, .A])
  | ABx_xAB => ([.A, .B, .x], [.x, .A, .B])
  | ABx_xBA => ([.A, .B, .x], [.x, .B, .A])
  | xCD_CDx => ([.x, .C, .D], [.C, .D, .x])
  | xCD_DCx => ([.x, .C, .D], [.D, .C, .x])
  | AxCD_CDxA => ([.A, .x, .C, .D], [.C, .D, .x, .A])
  | AxCD_DCxA => ([.A, .x, .C, .D], [.D, .C, .x, .A])
  | ABxD_DxAB => ([.A, .B, .x, .D], [.D, .x, .A, .B])
  | ABxD_DxBA => ([.A, .B, .x, .D], [.D, .x, .B, .A])
  | ABxCD_CDxAB => ([.A, .B, .x, .C, .D], [.C, .D, .x, .A, .B])
  | ABxCD_CDxBA => ([.A, .B, .x, .C, .D], [.C, .D, .x, .B, .A])
  | ABxCD_DCxAB => ([.A, .B, .x, .C, .D], [.D, .C, .x, .A, .B])
  | ABxCD_DCxBA => ([.A, .B, .x, .C, .D], [.D, .C, .x, .B, .A])

/-- A verb in writing, such as `ABx => xAB`. -/
def text : Verb → String
  | noChange => "no change"
  | v =>
    String.ofList (v.sides.1.map Part.letter) ++ " => " ++ String.ofList (v.sides.2.map Part.letter)

/-- A window after a verb has acted on it; a window shorter than the parts with a name has none. -/
def rearrange? {α : Type} (v : Verb) (window : List α) : Option (List α) :=
  let heads := v.sides.1.countP Part.isHead
  let tails := v.sides.1.countP Part.isTail
  if heads + tails ≤ window.length then some (v.sides.2.flatMap (Part.glyphs heads tails window))
  else none

/-- The permutations that have a verb: for each glyph of a window, the place it moves to. -/
def supported : List (List Nat × Verb) :=
  [([1, 0], Ax_xA),
    ([1, 2, 0], ABx_xAB),
    ([2, 0, 1], xCD_CDx),
    ([2, 1, 0], AxD_DxA),
    ([2, 3, 0, 1], ABxCD_CDxAB),
    ([3, 2, 0, 1], ABxCD_CDxBA),
    ([0, 1, 2, 3], ABxD_DxAB),
    ([0, 1, 3, 2], xCD_DCx),
    ([2, 3, 1, 0], ABxCD_DCxAB),
    ([3, 2, 1, 0], ABxCD_DCxBA),
    ([3, 0, 1, 2], Ax_xA),
    ([3, 0, 2, 1], AxCD_DCxA)]

/-- A place is written as one byte, counted from the digit zero. -/
def placeChar (place : Nat) : Char :=
  Char.ofNat ((0x30 : UInt8) + place.toUInt8).toNat

/-- A permutation as text. -/
def signature (places : List Nat) : String :=
  String.ofList (places.map placeChar)

/-- The verb of a permutation given as text. -/
def ofSignature? (s : String) : Option Verb :=
  (supported.find? fun entry => signature entry.1 == s).map Prod.snd

/-- The place in `after` of each glyph of `before`, taking the first of equal glyphs. -/
def places (before after : List Glyph) : Except RuleFault (List Nat) :=
  before.mapM fun g =>
    match after.idxOf? g with
    | some place => .ok place
    | none => .error (.missingGlyph g)

/-- The verb that takes `before` to `after`. -/
def detect (before after : List Glyph) : Except RuleFault Verb :=
  if before.length ≠ after.length then .error (.windowSides before.length after.length)
  else if before.length < 2 ∨ 4 < before.length then .error (.windowLength before.length)
  else
    match places before after with
    | .error fault => .error fault
    | .ok moves =>
      match supported.lookup moves with
      | some v => .ok v
      | none =>
        if moves = [0, 1] then .error .alreadyInOrder
        else .error (.unsupportedPermutation before.length (signature moves)
          ((supported.filter fun entry => entry.1.length == before.length).map
            fun entry => signature entry.1))

end Verb

structure Window where
  before : List Glyph
  after : List Glyph
  verb : Verb
  line : Nat
deriving DecidableEq

def Window.text (w : Window) : String :=
  spaced w.before ++ " => " ++ spaced w.after ++ " (" ++ w.verb.text ++ ")"

end Metamorphosis
