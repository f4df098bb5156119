import Metamorphosis.GlyphRule.Expansion
import Metamorphosis.Proofs.Session

namespace Metamorphosis

open CompileM

/-- The rules that a pattern with its target at an inner index is taken apart into. -/
def apartRules (line index : Nat) (pattern : List Glyph) (target replacement temp : Glyph) :
    List GlyphRule :=
  [⟨.context (.after (pattern.take index)), [(target, temp)], line,
      some (ContextualRule.groupName line)⟩,
    ⟨.context (.before (pattern.drop (index + 1))), [(temp, replacement)], line,
      some (ContextualRule.groupName line)⟩,
    ⟨.cleanup temp, [(temp, target)], line, some (ContextualRule.groupName line)⟩]

namespace ContextualRule

theorem exec_takeApart {line k index : Nat} {pattern : List Glyph} {target replacement temp : Glyph}
    {s s' : Session} (h : exec (temporary ⟨.decomposed, line, k, 0⟩) s = (.ok temp, s')) :
    exec (takeApart line k index pattern target replacement) s =
      (.ok (apartRules line index pattern target replacement temp), s') := by
  unfold takeApart
  rw [exec_bind_of_ok h]
  rfl

section Literal

variable {registry : Registry} {pattern : List Glyph}

/-- The positions of a pattern written glyph by glyph. -/
def singletons (pattern : List Glyph) : List (List Glyph) :=
  pattern.map fun g => [g]

theorem positionsOf_literal :
    registry.positionsOf (pattern.map .glyph) = .ok (singletons pattern) := by
  unfold Registry.positionsOf singletons
  induction pattern with
  | nil => rfl
  | cons g gs ih =>
    rw [List.map_cons, List.mapM_cons, ih]
    rfl

theorem commonSize_literal (hne : pattern ≠ []) :
    commonSize ((pattern.map Element.glyph).zip (singletons pattern)) = .ok 1 := by
  cases pattern with
  | nil => exact absurd rfl hne
  | cons g gs =>
    have hf : ((gs.map Element.glyph).zip (singletons gs)).find?
        (fun entry => entry.2.length != [g].length) = none := by
      rw [List.find?_eq_none]
      rintro ⟨e, position⟩ hp
      obtain ⟨h, _, rfl⟩ := List.mem_map.mp (List.of_mem_zip hp).2
      simp
    rw [singletons, List.map_cons, List.map_cons, List.zip_cons_cons, ← singletons, commonSize, hf]
    rfl

theorem whenPositions_literal (hl : 2 ≤ pattern.length) :
    whenPositions registry (pattern.map .glyph) = .ok (singletons pattern, 1) := by
  have hne : pattern ≠ [] := by
    rintro rfl
    simp at hl
  unfold whenPositions
  rw [List.length_map, if_neg (by omega), positionsOf_literal]
  simp only [bind, Except.bind, commonSize_literal hne]
  rfl

theorem column_literal : column (singletons pattern) 0 = pattern := by
  unfold column singletons
  rw [List.filterMap_map]
  exact List.filterMap_some

theorem findIdx?_literal (target : Glyph) :
    (singletons pattern).findIdx? (fun position => position.any [target].contains) =
      pattern.findIdx? fun g => g == target := by
  unfold singletons
  rw [List.findIdx?_map]
  congr 1
  funext g
  by_cases h : g = target <;> simp [h]

/-- A rule with its one target inside the pattern is taken apart there. -/
theorem exec_splitAtTarget_inner {line index : Nat} {target temp : Glyph} {s s' : Session}
    (hi : pattern.findIdx? (fun g => g == target) = some index)
    (hfirst : index ≠ 0) (hlast : index + 1 ≠ pattern.length)
    (ht : exec (temporary ⟨.decomposed, line, 0, 0⟩) s = (.ok temp, s')) (element : Element)
    (replacement : Glyph) :
    exec (splitAtTarget line (singletons pattern) element [target] [replacement]) s =
      (.ok (apartRules line index pattern target replacement temp), s') := by
  have hlength : (singletons pattern).length = pattern.length := List.length_map _
  unfold splitAtTarget
  rw [findIdx?_literal, hi]
  simp only [hfirst, hlength, hlast, if_false]
  have happart : exec (takeApart line 0 index pattern target replacement) s =
      (.ok (apartRules line index pattern target replacement temp), s') := exec_takeApart ht
  simp only [List.zip_cons_cons, List.zip_nil_left, List.zipIdx_cons, List.zipIdx_nil,
    List.mapM_cons, List.mapM_nil, column_literal, bind_assoc, pure_bind]
  rw [exec_bind_of_ok happart]
  simp

/-- The glyph rules of a `when` rule written glyph by glyph with one substitution. -/
theorem exec_glyphRules_literal {line : Nat} {target replacement : Glyph}
    {wildcard : Option Wildcard} {rules : List GlyphRule} {s s' : Session} (hl : 2 ≤ pattern.length)
    (h : exec (splitAtTarget line (singletons pattern) (.glyph target) [target] [replacement]) s =
      (.ok rules, s')) :
    ∃ s'', exec (glyphRules registry
        ⟨.when (pattern.map .glyph), [⟨.glyph target, .glyph replacement, wildcard⟩], line⟩) s =
      (.ok rules, s'') := by
  have hpairs : whenPairs registry [⟨.glyph target, .glyph replacement, wildcard⟩] 1 =
      .ok [([target], [replacement])] := rfl
  have hw : exec (whenRules registry
      ⟨.when (pattern.map .glyph), [⟨.glyph target, .glyph replacement, wildcard⟩], line⟩
      (pattern.map .glyph)) s = (.ok rules, s') := by
    unfold whenRules
    rw [whenPositions_literal hl, exec_bind_of_ok (exec_atLine_ok _ _ _)]
    simp only [hpairs]
    rw [exec_bind_of_ok (exec_atLine_ok _ _ _)]
    exact h
  have he : glyphRules registry
      ⟨.when (pattern.map .glyph), [⟨.glyph target, .glyph replacement, wildcard⟩], line⟩ =
        (whenRules registry
          ⟨.when (pattern.map .glyph), [⟨.glyph target, .glyph replacement, wildcard⟩], line⟩
          (pattern.map .glyph) >>= fun rules => do
            reportAll (rules.map .glyphRule)
            return rules) := rfl
  rw [he, exec_bind_of_ok hw, exec_bind_of_ok (exec_reportAll _ _)]
  exact ⟨_, rfl⟩

end Literal

end ContextualRule

end Metamorphosis
