import Mathlib.Data.Nat.PSub
import Metamorphosis.Proofs.Session

namespace Metamorphosis

variable {ε α β : Type}

namespace Checked

/-- What follows the first `i` elements. -/
def sliceFrom (i : Nat) (xs : List α) : Option (List α) :=
  if i ≤ xs.length then some (xs.drop i) else none

/-- The first `i` elements. -/
def sliceTo (i : Nat) (xs : List α) : Option (List α) :=
  if i ≤ xs.length then some (xs.take i) else none

/-- A sum that has to fit into some bits. -/
def sum (bits a b : Nat) : Option Nat :=
  if a + b < 2 ^ bits then some (a + b) else none

theorem sliceFrom_eq {i : Nat} {xs : List α} (h : i ≤ xs.length) :
    sliceFrom i xs = some (xs.drop i) :=
  if_pos h

theorem sliceTo_eq {i : Nat} {xs : List α} (h : i ≤ xs.length) :
    sliceTo i xs = some (xs.take i) :=
  if_pos h

theorem mapM_eq_map {f : α → Option β} {g : α → β} {xs : List α} (h : ∀ x ∈ xs, f x = some (g x)) :
    xs.mapM f = some (xs.map g) := by
  induction xs with
  | nil => rfl
  | cons x xs ih =>
    rw [List.mapM_cons, h x List.mem_cons_self,
      ih fun y hy => h y (List.mem_cons_of_mem x hy)]
    rfl

/-- Where every element has a result, none is left out. -/
theorem mapM_eq_filterMap {f : α → Option β} {xs : List α} (h : ∀ x ∈ xs, (f x).isSome = true) :
    xs.mapM f = some (xs.filterMap f) := by
  induction xs with
  | nil => rfl
  | cons x xs ih =>
    obtain ⟨b, hb⟩ := Option.isSome_iff_exists.mp (h x List.mem_cons_self)
    rw [List.mapM_cons, hb, ih fun y hy => h y (List.mem_cons_of_mem x hy),
      List.filterMap_cons_some hb]
    rfl

/-- A loop whose steps have results as long as its states keep an invariant. -/
theorem foldlM_eq_foldl {P : β → Prop} {f : β → α → Option β} {g : β → α → β}
    (h : ∀ b, P b → ∀ x, f b x = some (g b x) ∧ P (g b x)) {b : β} (hb : P b) (xs : List α) :
    xs.foldlM f b = some (xs.foldl g b) := by
  induction xs generalizing b with
  | nil => rfl
  | cons x xs ih =>
    obtain ⟨hf, hg⟩ := h b hb x
    rw [List.foldlM_cons, hf]
    exact ih hg

/-- A computation that may fail, all of whose accesses are in range. -/
def ofExcept (x : Except ε α) : ExceptT ε Option α :=
  ExceptT.mk (some x)

/-- An access in range gives its result to what follows. -/
theorem access_bind {access : Option α} {a : α} (h : access = some a)
    (f : α → ExceptT ε Option β) : ((liftM access : ExceptT ε Option α) >>= f) = f a := by
  subst h
  rfl

/-- The accesses that follow a computation have to be in range for the result it has. -/
theorem ofExcept_bind {x : Except ε α} {f : α → ExceptT ε Option β} {g : α → Except ε β}
    (h : ∀ a, x = .ok a → f a = ofExcept (g a)) : (ofExcept x >>= f) = ofExcept (x >>= g) := by
  cases x with
  | error e => rfl
  | ok a => exact h a rfl

theorem mapM_ofExcept {f : α → ExceptT ε Option β} {g : α → Except ε β} {xs : List α}
    (h : ∀ x ∈ xs, f x = ofExcept (g x)) : xs.mapM f = ofExcept (xs.mapM g) := by
  induction xs with
  | nil => rfl
  | cons x xs ih =>
    rw [List.mapM_cons, List.mapM_cons, h x List.mem_cons_self,
      ih fun y hy => h y (List.mem_cons_of_mem x hy)]
    exact ofExcept_bind fun _ _ => ofExcept_bind fun _ _ => rfl

end Checked

/-- An action of a session with its accesses checked. -/
abbrev CheckedM := ExceptT CompileError (StateT Session Option)

namespace CheckedM

/-- The result of an action and the session after it, unless an access is out of range. -/
def exec (x : CheckedM α) (s : Session) : Option (Except CompileError α × Session) :=
  x.run.run s

/-- An action all of whose accesses are in range. -/
def of (x : CompileM α) : CheckedM α :=
  ExceptT.mk fun s => some (x.exec s)

instance : MonadLift CompileM CheckedM := ⟨of⟩

@[simp] theorem exec_of (x : CompileM α) (s : Session) : (of x).exec s = some (x.exec s) := rfl

theorem access_bind {access : Option α} {a : α} (h : access = some a) (f : α → CheckedM β) :
    ((liftM access : CheckedM α) >>= f) = f a := by
  subst h
  rfl

/-- The accesses that follow an action have to be in range for the results it can have. -/
theorem of_bind {x : CompileM α} {f : α → CheckedM β} {g : α → CompileM β}
    (h : ∀ s a s', x.exec s = (.ok a, s') → f a = of (g a)) : (of x >>= f) = of (x >>= g) := by
  funext s
  change (of x >>= f).exec s = some ((x >>= g).exec s)
  unfold exec
  rw [ExceptT.run_bind, StateT.run_bind, CompileM.exec_bind]
  change (some (x.exec s) >>= _) = _
  cases hx : x.exec s with
  | mk result s' =>
    cases result with
    | error e => rfl
    | ok a => exact congrFun (h s a s' hx) s'

theorem mapM_of {f : α → CheckedM β} {g : α → CompileM β} {xs : List α}
    (h : ∀ x ∈ xs, f x = of (g x)) : xs.mapM f = of (xs.mapM g) := by
  induction xs with
  | nil => rfl
  | cons x xs ih =>
    rw [List.mapM_cons, List.mapM_cons, h x List.mem_cons_self,
      ih fun y hy => h y (List.mem_cons_of_mem x hy)]
    exact of_bind fun _ _ _ _ => of_bind fun _ _ _ _ => rfl

/-- A fault of the rule on a line. -/
def atLine (line : Nat) (x : ExceptT RuleFault Option α) : CheckedM α := do
  CompileM.atLine line (← x.run)

/-- A fault of a group of glyph rules. -/
def inTable (x : ExceptT TableFault Option α) : CheckedM α := do
  CompileM.inTable (← x.run)

theorem atLine_ofExcept (line : Nat) (x : Except RuleFault α) :
    atLine line (Checked.ofExcept x) = of (CompileM.atLine line x) := rfl

end CheckedM

end Metamorphosis
