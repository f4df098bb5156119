import Metamorphosis.Event

namespace Metamorphosis

structure Session where
  arena : Arena
  announced : Nat := 0
  events : Array Event := #[]

/-- An action of a session that may fail. -/
abbrev CompileM := ExceptT CompileError (StateM Session)

namespace Session

/-- A session in which nothing has happened. -/
def fresh (base : UInt16) : Session :=
  { arena := { base } }

end Session

namespace CompileM

/-- The result of an action, and the session after it. -/
def exec {α : Type} (x : CompileM α) (s : Session) : Except CompileError α × Session :=
  x.run.run s

def report (event : Event) : CompileM Unit :=
  modify fun s => { s with events := s.events.push event }

def reportAll (events : List Event) : CompileM Unit :=
  modify fun s => { s with events := s.events ++ events.toArray }

/-- A fault of the rule on a line. -/
def atLine {α : Type} (line : Nat) : Except RuleFault α → CompileM α
  | .ok a => pure a
  | .error fault => throw (.invalidRule (some line) fault)

/-- A fault of a group of glyph rules. -/
def inTable {α : Type} : Except TableFault α → CompileM α
  | .ok a => pure a
  | .error fault => throw (.failed fault)

/-- The name of the temporary glyph of a key; a code is reported when it is first handed out. -/
def temporary (key : TempKey) : CompileM Glyph := do
  let arena := (← get).arena
  let (code, after) ← inTable (arena.request key)
  if (arena.code? key).isNone then report (.temporary code key)
  modify fun s => { s with arena := after }
  return toString code

/-- Announce a subtable under the next number. -/
def announce (subtable : Subtable) : CompileM Subtable := do
  report (.subtable (← get).announced subtable)
  modify fun s => { s with announced := s.announced + 1 }
  return subtable

end CompileM

end Metamorphosis
