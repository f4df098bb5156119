import Metamorphosis.Fault

namespace Metamorphosis

/-- What a temporary glyph is for. -/
inductive Purpose
  | decomposed
  | multiPass
deriving DecidableEq

structure TempKey where
  purpose : Purpose
  line : Nat
  index : Nat
  slot : Nat
deriving DecidableEq

/-- Glyph codes by key: the counter starts at `base` and holds the code for the next new key, and
the keys that have codes are remembered with them. -/
structure Allocator where
  base : UInt16
  next : UInt32 := base.toUInt32
  assigned : List (TempKey × UInt16) := []
deriving DecidableEq

/-- The largest glyph code. -/
def Arena.maxCode : Nat := 65535

namespace Allocator

/-- A number as a glyph code, if it is small enough. -/
def glyphCode? (n : UInt32) : Option UInt16 :=
  if n.toNat ≤ Arena.maxCode then some n.toUInt16 else none

/-- The code of a key, and the allocator after the request. A key that is remembered keeps its code.
A new one takes the code the counter holds, if that is one. -/
def allocate (a : Allocator) (key : TempKey) : Except TableFault UInt16 × Allocator :=
  match a.assigned.lookup key with
  | some code => (.ok code, a)
  | none =>
    match glyphCode? a.next with
    | none => (.error (.temporariesExhausted a.assigned.length a.base), a)
    | some code =>
      (.ok code, { a with next := a.next + 1, assigned := a.assigned ++ [(key, code)] })

/-- The allocators that requests lead to. -/
inductive Reached : Allocator → Prop
  | fresh (base : UInt16) : Reached { base }
  | allocate {a : Allocator} (key : TempKey) (h : Reached a) : Reached (a.allocate key).2

end Allocator

/-- The temporary glyphs handed out: an allocator as requests have left it. -/
structure Arena extends Allocator where
  reached : toAllocator.Reached := by exact .fresh _
deriving DecidableEq

namespace Arena

/-- The keys served so far, in the order of their first requests. -/
def keys (a : Arena) : List TempKey :=
  a.assigned.map Prod.fst

def size (a : Arena) : Nat :=
  a.assigned.length

def isEmpty (a : Arena) : Bool :=
  a.assigned.isEmpty

/-- The code a key was given. -/
def code? (a : Arena) (key : TempKey) : Option Nat :=
  (a.assigned.lookup key).map UInt16.toNat

/-- The code a new key would be given. -/
def nextCode (a : Arena) : Nat :=
  a.next.toNat

/-- The arena after a request for a key. -/
def afterRequest (a : Arena) (key : TempKey) : Arena :=
  ⟨(a.allocate key).2, .allocate key a.reached⟩

/-- The code of a key, and the arena that remembers it. -/
def request (a : Arena) (key : TempKey) : Except TableFault (Nat × Arena) :=
  match (a.allocate key).1 with
  | .ok code => .ok (code.toNat, a.afterRequest key)
  | .error fault => .error fault

end Arena

end Metamorphosis
