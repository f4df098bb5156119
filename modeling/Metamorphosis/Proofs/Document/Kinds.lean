import Metamorphosis.Proofs.Growth
import Metamorphosis.RuleFile

namespace Metamorphosis

namespace CompileM

variable {α β : Type} {draws : Prop} {R : Arena → Arena → Prop}

/-- In two sessions whose arenas are related the action gives the same, and their arenas are related
after it. -/
def Respects (R : Arena → Arena → Prop) (x : CompileM α) : Prop :=
  ∀ s s' : Session, R s.arena s'.arena →
    (exec x s).1 = (exec x s').1 ∧ R (exec x s).2.arena (exec x s').2.arena

theorem Respects.bind {x : CompileM α} {f : α → CompileM β} (hx : Respects R x)
    (hf : ∀ a, Respects R (f a)) : Respects R (x >>= f) := by
  intro s s' hs
  obtain ⟨hresult, harena⟩ := hx s s' hs
  rw [exec_bind, exec_bind]
  cases he : exec x s with
  | mk result m =>
    cases he' : exec x s' with
    | mk result' m' =>
      rw [he, he'] at hresult harena
      obtain rfl : result = result' := hresult
      cases result with
      | ok a => exact hf a m m' harena
      | error e => exact ⟨rfl, harena⟩

/-- A request is answered by the arena alone. -/
theorem Respects.temporary (key : TempKey) : Respects Eq (temporary key) := by
  intro s s' hs
  rw [exec_temporary, exec_temporary, hs]
  cases s'.arena.request key with
  | ok answer => exact ⟨rfl, rfl⟩
  | error fault => exact ⟨rfl, hs⟩

end CompileM

open CompileM

section Gathering

end Gathering

section Kinds

variable {file : RuleFile} {config : Config}

end Kinds

section Numbers

/-- The lines in front of the subtables of a document. -/
def Document.opening (config : Config) : List Line :=
  [⟨0, "// ot2aat generated ATIF"⟩,
    ⟨0, "// Feature: " ++ config.text⟩,
    Line.blank,
    ⟨0, "feature (" ++ config.feature ++ ") \x7b"⟩,
    ⟨1, s!"selector ({config.selector.toNat}) \x7b"⟩]

end Numbers

end Metamorphosis
