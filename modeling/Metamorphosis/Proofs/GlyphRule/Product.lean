import Mathlib.Algebra.GroupWithZero.Nat
import Metamorphosis.Proofs.GlyphRule.Split
import Metamorphosis.RuleFile

namespace Metamorphosis

open CompileM

namespace Context

variable {α β : Type}

/-- The lists of elements that make up a context. -/
def parts : Context α → List (List α)
  | .after pattern => [pattern]
  | .before pattern => [pattern]
  | .between first second => [first, second]
  | .when pattern => [pattern]

/-- The context with others in the places of its elements. -/
def fill (c : Context α) (others : List β) : Context β :=
  match c with
  | .after _ => .after others
  | .before _ => .before others
  | .between first _ => .between (others.take first.length) (others.drop first.length)
  | .when _ => .when others

end Context

/-- The context next to a target on one side. -/
def Side.context {α : Type} (side : Side) (pattern : List α) : Context α :=
  match side with
  | .after => .after pattern
  | .before => .before pattern

/-- The elements of the context and of the substitutions. -/
def ContextualRule.elements (rule : ContextualRule) : List Element :=
  rule.context.elements ++ rule.pairs.flatMap fun pair => [pair.target, pair.replacement]

namespace ContextualRule

variable {registry : Registry} {rule : ContextualRule} {rules : List GlyphRule} {s : Session}

theorem forall_elements_iff {P : Element → Prop} :
    (∀ e ∈ rule.elements, P e) ↔ (∀ e ∈ rule.context.elements, P e) ∧
      ∀ pair ∈ rule.pairs, P pair.target ∧ P pair.replacement := by
  simp only [elements, List.forall_mem_append, List.forall_mem_flatMap, List.forall_mem_cons]
  simp

end ContextualRule

def lettersAndMarks : Registry :=
  ⟨[⟨"letters", ["a", "e"]⟩, ⟨"marks", ["m", "n"]⟩], by decide, by decide⟩

end Metamorphosis
