import Metamorphosis.Glyph
import Metamorphosis.Session

namespace Metamorphosis

/-- A replacement that was given up for another one listed before it. -/
structure Conflict where
  target : Glyph
  kept : Glyph
  replacement : Glyph
deriving DecidableEq

/-- Put a pair in its place among pairs in the order of their targets. -/
def enter (pair : Glyph × Glyph) : List (Glyph × Glyph) → List (Glyph × Glyph)
  | [] => [pair]
  | entry :: rest =>
    if precedes pair.1 entry.1 then pair :: entry :: rest else entry :: enter pair rest

/-- The replacements kept so far, targets in order, and those given up. -/
structure Merged where
  entries : List (Glyph × Glyph) := []
  lost : List Conflict := []
deriving DecidableEq

namespace Merged

/-- One more pair. A new target is entered; one that is there keeps its replacement, and another one
is given up. -/
def add (m : Merged) (pair : Glyph × Glyph) : Merged :=
  match m.entries.lookup pair.1 with
  | none => { m with entries := enter pair m.entries }
  | some kept =>
    if kept == pair.2 then m else { m with lost := m.lost ++ [⟨pair.1, kept, pair.2⟩] }

/-- Pairs taken one after another. -/
def ofPairs (pairs : List (Glyph × Glyph)) : Merged :=
  pairs.foldl add {}

end Merged

/-- Add an entry, unless one with its key is there. -/
def keepFirst {α κ : Type} [BEq κ] (key : α → κ) (kept : List α) (entry : α) : List α :=
  if kept.any fun other => key other == key entry then kept else kept ++ [entry]

/-- Those entries whose key is taken when their turn comes. -/
def repeated {α κ : Type} [BEq κ] (key : α → κ) : List α → List α → List α
  | _, [] => []
  | kept, entry :: rest =>
    if kept.any fun other => key other == key entry then entry :: repeated key kept rest
    else repeated key (kept ++ [entry]) rest

namespace CompileM

/-- The replacements of a subtable, with a report of each one given up. -/
def merge (description : String) (pairs : List (Glyph × Glyph)) :
    CompileM (List (Glyph × Glyph)) := do
  let merged := Merged.ofPairs pairs
  reportAll (merged.lost.map fun c => .dropped description c.target c.kept c.replacement)
  return merged.entries

/-- The entries of rules after those kept so far, the first for each key. Entries with a key that
is taken are reported rule by rule. -/
def collect {ρ α κ : Type} [BEq κ] (entriesOf : ρ → CompileM (List α)) (key : α → κ)
    (event : α → Event) : List α → List ρ → CompileM (List α)
  | kept, [] => return kept
  | kept, rule :: rest => do
    let entries ← entriesOf rule
    reportAll ((repeated key kept entries).map event)
    collect entriesOf key event (entries.foldl (keepFirst key) kept) rest

end CompileM

end Metamorphosis
