import Metamorphosis.Compile
import Metamorphosis.Proofs.Arena
import Metamorphosis.Proofs.GlyphRule.Expansion
import Metamorphosis.Proofs.StateTable.Adjacent
import Metamorphosis.Proofs.StateTable.Between
import Metamorphosis.Proofs.StateTable.Run

namespace Metamorphosis

open CompileM

/-- The document of one rule, given the glyph rules it stands for. -/
theorem exec_compileRules_single {classes : List GlyphClass} {registry : Registry}
    (hr : Registry.ofClasses classes = .ok registry) (config : Config) {rule : ContextualRule}
    {rules : List GlyphRule} {tables : List Subtable} {s s' : Session}
    (h : exec (rule.glyphRules registry) s = (.ok rules, s'))
    (ht : Returns (GlyphRule.allSubtables rules) tables) :
    ∃ s'', exec (compileRules ContextualRule.subtables classes config [rule]) s =
      (.ok ⟨config, tables⟩, s'') := by
  have hall : ∃ m, exec (ContextualRule.allGlyphRules registry [rule]) s = (.ok rules, m) := by
    unfold ContextualRule.allGlyphRules
    simp only [List.mapM_cons, List.mapM_nil, bind_assoc, pure_bind]
    rw [exec_bind_of_ok h]
    exact ⟨_, by simp [exec_bind]; rfl⟩
  obtain ⟨m, hm⟩ := hall
  obtain ⟨m', hm'⟩ := ht m
  refine ⟨m', ?_⟩
  unfold compileRules
  rw [hr]
  simp only [ContextualRule.subtables, bind_assoc]
  rw [exec_bind_of_ok hm, exec_bind_of_ok hm']
  rfl

namespace RuleGroup

/-- The group of one rule with its context on a side. -/
def beside (side : Side) (context : List Glyph) (rule : GlyphRule) : RuleGroup :=
  match context with
  | [glyph] => .adjacent side glyph [rule]
  | _ => .chain side [rule]

theorem adjacentGroups_beside {side : Side} {context : List Glyph} {rule : GlyphRule}
    {rules : List GlyphRule}
    (h : rules.filterMap (fun r => (r.adjacentPattern? side).map fun pattern => (pattern, r)) =
      [(context, rule)]) : adjacentGroups side rules = [beside side context rule] := by
  have hgroups : adjacentGroups side rules =
      if context.length = 1 then [.adjacent side (context.headD "") [rule]]
      else [.chain side [rule]] := by
    simp [adjacentGroups, h, groupByKey_singleton]
  rw [hgroups]
  rcases context with _ | ⟨glyph, _ | ⟨second, rest⟩⟩
  · rfl
  · rfl
  · simp [beside]

theorem namedCleanups_single {rules : List GlyphRule} {id : String} {rule : GlyphRule}
    (h : (rules.filter GlyphRule.isCleanup).filterMap (fun r => r.group.map fun id => (id, r)) =
      [(id, rule)]) : namedCleanups rules = [.cleanup ("cleanup " ++ id) [rule]] := by
  simp [namedCleanups, h, groupByKey_singleton]

end RuleGroup

/-- A target inside a pattern is taken apart into a group for each side and a cleanup. -/
theorem ofRules_apartRules {line index : Nat} {pattern : List Glyph} {t r temp : Glyph} :
    RuleGroup.ofRules (apartRules line index pattern t r temp) =
      [.beside .after (pattern.take index)
          ⟨.context (.after (pattern.take index)), [(t, temp)], line,
            some (ContextualRule.groupName line)⟩,
        .beside .before (pattern.drop (index + 1))
          ⟨.context (.before (pattern.drop (index + 1))), [(temp, r)], line,
            some (ContextualRule.groupName line)⟩,
        .cleanup ("cleanup " ++ ContextualRule.groupName line)
          [⟨.cleanup temp, [(temp, t)], line, some (ContextualRule.groupName line)⟩]] := by
  have hafter : RuleGroup.adjacentGroups .after (apartRules line index pattern t r temp) = _ :=
    RuleGroup.adjacentGroups_beside rfl
  have hbefore : RuleGroup.adjacentGroups .before (apartRules line index pattern t r temp) = _ :=
    RuleGroup.adjacentGroups_beside rfl
  unfold RuleGroup.ofRules
  rw [hafter, hbefore, RuleGroup.namedCleanups_single rfl]
  rfl

section OneGlyphSides

variable {a t c r temp : Glyph} {line : Nat}

/-- The subtables that a target between two glyphs is taken apart into. -/
def apartSubtables (line : Nat) (a t c r temp : Glyph) : List Subtable :=
  [⟨"after " ++ a, .contextual (StateTable.adjacent .after a (firstReplacements [(t, temp)]))⟩,
    ⟨"before " ++ c, .contextual (StateTable.adjacent .before c (firstReplacements [(temp, r)]))⟩,
    ⟨"cleanup " ++ ContextualRule.groupName line,
      .noncontextual ((firstReplacements [(temp, t)]).map fun (g, r) => (g, .glyph r))⟩]

theorem returns_apart :
    Returns (GlyphRule.allSubtables (apartRules line 1 [a, t, c] t r temp))
      (apartSubtables line a t c r temp) := by
  have h : List.Forall₂ (fun group made => Returns group.subtables made)
      (RuleGroup.ofRules (apartRules line 1 [a, t, c] t r temp))
      ((apartSubtables line a t c r temp).map fun s => [s]) := by
    rw [ofRules_apartRules]
    exact .cons (.bind (.merge _ _) (.pure _)) (.cons (.bind (.merge _ _) (.pure _))
      (.cons (.bind (.merge _ _) (.pure _)) .nil))
  exact Returns.allSubtables h

/-- The subtable of a target between two glyphs. -/
def enclosedSubtables (a t c r : Glyph) : List Subtable :=
  [⟨"between", .contextual (StateTable.between [a] [c] (firstReplacements [(t, r)]))⟩]

theorem returns_enclosed :
    Returns (GlyphRule.allSubtables [GlyphRule.single (.between [a] [c]) t r line])
      (enclosedSubtables a t c r) := by
  have h : List.Forall₂ (fun group made => Returns group.subtables made)
      (RuleGroup.ofRules [GlyphRule.single (.between [a] [c]) t r line])
      ((enclosedSubtables a t c r).map fun s => [s]) :=
    .cons (.bind (.merge _ _) (.pure _)) .nil
  exact Returns.allSubtables h

/-- The target becomes the temporary glyph after the first glyph. -/
theorem getElem?_run_after (run : List Glyph) (i : Nat) :
    ((StateTable.adjacent .after a (firstReplacements [(t, temp)])).run run)[i]? =
      run[i]?.map fun g => if 0 < i ∧ run[i - 1]? = some a ∧ g = t then temp else g := by
  rw [StateTable.run_after, List.getElem?_mapIdx]
  simp only [lookup_firstReplacements, getD_lookup_single, ite_and]

/-- The temporary glyph becomes the replacement before the last glyph. -/
theorem getElem?_run_before (run : List Glyph) (i : Nat) :
    ((StateTable.adjacent .before c (firstReplacements [(temp, r)])).run run)[i]? =
      run[i]?.map fun g => if run[i + 1]? = some c ∧ g = temp then r else g := by
  rw [StateTable.run_before, List.getElem?_mapIdx]
  simp only [lookup_firstReplacements, getD_lookup_single, ite_and]

/-- The passes rewrite the target where it stands between the two glyphs. The first pass leaves the
glyph after a target as it is, since the target is not the first glyph itself. -/
theorem applyAll_apart (hta : t ≠ a) (hr : r ≠ temp) {run : List Glyph} (hrun : temp ∉ run) :
    Subtable.applyAll (apartSubtables line a t c r temp) run = run.mapIdx fun i g =>
      if 0 < i ∧ run[i - 1]? = some a ∧ g = t ∧ run[i + 1]? = some c then r else g := by
  apply List.ext_getElem?
  intro i
  simp only [Subtable.applyAll, apartSubtables, List.foldl_cons, List.foldl_nil, Subtable.apply,
    flatMap_replaceGlyph_glyphs, lookup_firstReplacements, getD_lookup_single, List.getElem?_map,
    getElem?_run_before, getElem?_run_after, List.getElem?_mapIdx]
  cases hg : run[i]? with
  | none => rfl
  | some g =>
    have hne : g ≠ temp := by
      rintro rfl
      exact hrun (List.mem_of_getElem? hg)
    by_cases hm : 0 < i ∧ run[i - 1]? = some a ∧ g = t
    · obtain ⟨hi, ha, rfl⟩ := hm
      have hahead : run[i + 1]?.map (fun h =>
          if 0 < i + 1 ∧ run[i + 1 - 1]? = some a ∧ h = g then temp else h) = run[i + 1]? := by
        simp [hg, hta]
      rw [hahead]
      by_cases hc : run[i + 1]? = some c
      · simp [hi, ha, hc, hr]
      · simp [hi, ha, hc]
    · have hm' : ¬(0 < i ∧ run[i - 1]? = some a ∧ g = t ∧ run[i + 1]? = some c) :=
        fun ⟨hi, ha, ht, _⟩ => hm ⟨hi, ha, ht⟩
      simp only [Option.map_some, if_neg hm, if_neg hm', hne, and_false, if_false]

theorem applyAll_enclosed (run : List Glyph) :
    Subtable.applyAll (enclosedSubtables a t c r) run = run.mapIdx fun i g =>
      if 0 < i ∧ run[i - 1]? = some a ∧ g = t ∧ run[i + 1]? = some c then r else g := by
  simp only [Subtable.applyAll, enclosedSubtables, List.foldl_cons, List.foldl_nil, Subtable.apply,
    StateTable.run_between]
  apply StateTable.mapIdx_congr
  intro i g hg
  have hcommit : (StateTable.moveAt [a] [c] (firstReplacements [(t, r)]) run (i + 1)).commit =
      true ↔ 0 < i ∧ run[i - 1]? = some a ∧ g = t ∧ run[i + 1]? = some c := by
    rw [StateTable.commit_iff hg, mem_keys_firstReplacements]
    simp only [List.map_cons, List.map_nil, List.mem_singleton]
    constructor
    · rintro ⟨⟨f, hi, hf, rfl⟩, ht, s, hs, rfl⟩
      exact ⟨hi, hf, ht, hs⟩
    · rintro ⟨hi, ha, ht, hc⟩
      exact ⟨⟨a, hi, ha, rfl⟩, ht, c, hc, rfl⟩
  rw [lookup_firstReplacements, getD_lookup_single]
  split
  next hc =>
    have he := hcommit.mp hc
    rw [if_pos he.2.2.1, if_pos he]
  next hc => rw [if_neg (fun he => hc (hcommit.mpr he))]

end OneGlyphSides

namespace ContextualRule

/-- The rule `when a t c: t => r`. -/
def inside (a t c r : Glyph) (line : Nat) (wildcard : Option Wildcard) : ContextualRule :=
  ⟨.when [.glyph a, .glyph t, .glyph c], [⟨.glyph t, .glyph r, wildcard⟩], line⟩

/-- The rule `between a and c: t => r`. -/
def enclosed (a t c r : Glyph) (line : Nat) (wildcard : Option Wildcard) : ContextualRule :=
  ⟨.between [.glyph a] [.glyph c], [⟨.glyph t, .glyph r, wildcard⟩], line⟩

theorem exec_glyphRules_inside (registry : Registry) (base : UInt16) {a t : Glyph} (hta : t ≠ a)
    (c r : Glyph) (line : Nat) (wildcard : Option Wildcard) :
    ∃ s, exec ((inside a t c r line wildcard).glyphRules registry) (Session.fresh base) =
      (.ok (apartRules line 1 [a, t, c] t r (toString base.toNat)), s) := by
  obtain ⟨m, hm⟩ := exec_temporary_fresh base ⟨.decomposed, line, 0, 0⟩
  have hi : [a, t, c].findIdx? (fun g => g == t) = some 1 := by
    simp [List.findIdx?_cons, hta.symm]
  have hs := exec_splitAtTarget_inner hi (by decide) (by simp) hm (.glyph t) r
  have he : inside a t c r line wildcard =
      ⟨.when ([a, t, c].map .glyph), [⟨.glyph t, .glyph r, wildcard⟩], line⟩ := rfl
  rw [he]
  exact exec_glyphRules_literal (by simp) hs

theorem exec_glyphRules_enclosed (registry : Registry) (a t c r : Glyph) (line : Nat)
    (wildcard : Option Wildcard) (s : Session) :
    ∃ s', exec ((enclosed a t c r line wildcard).glyphRules registry) s =
      (.ok [GlyphRule.single (.between [a] [c]) t r line], s') :=
  ⟨_, rfl⟩

end ContextualRule

/-- A target inside its pattern, taken apart into passes through the first temporary glyph, and a
target between the same two glyphs in one table: both rewrite every run alike. -/
theorem when_inside_agrees_with_between {classes : List GlyphClass} {registry : Registry}
    (hclasses : Registry.ofClasses classes = .ok registry) (config : Config) {a t c r : Glyph}
    (hta : t ≠ a) (hr : r ≠ toString config.tempBase.toNat) (line line' : Nat)
    (wildcard wildcard' : Option Wildcard) :
    ∃ apart between s s',
      exec (compileRules ContextualRule.subtables classes config
        [ContextualRule.inside a t c r line wildcard]) (Session.fresh config.tempBase) =
          (.ok apart, s) ∧
      exec (compileRules ContextualRule.subtables classes config
        [ContextualRule.enclosed a t c r line' wildcard']) (Session.fresh config.tempBase) =
          (.ok between, s') ∧
      apart.subtables.length = 3 ∧ between.subtables.length = 1 ∧
      ∀ run, toString config.tempBase.toNat ∉ run →
        Subtable.applyAll apart.subtables run = Subtable.applyAll between.subtables run := by
  obtain ⟨_, hapart⟩ :=
    ContextualRule.exec_glyphRules_inside registry config.tempBase hta c r line wildcard
  obtain ⟨_, hbetween⟩ := ContextualRule.exec_glyphRules_enclosed registry a t c r line' wildcard'
    (Session.fresh config.tempBase)
  obtain ⟨s, hs⟩ := exec_compileRules_single hclasses config hapart returns_apart
  obtain ⟨s', hs'⟩ := exec_compileRules_single hclasses config hbetween returns_enclosed
  refine ⟨_, _, s, s', hs, hs', rfl, rfl, ?_⟩
  intro run hrun
  rw [applyAll_apart hta hr hrun, applyAll_enclosed]

/-- Windows that overlap in a glyph which is context on both sides. -/
theorem when_inside_agrees_with_between_overlapping :
    Registry.ofClasses [] = .ok Registry.empty ∧ "t" ≠ "a" ∧ "a" ≠ toString defaultTempBase.toNat ∧
    toString defaultTempBase.toNat ∉ ["a", "t", "a", "t", "a", "a"] ∧
    ∃ apart between s s',
      exec (compileRules ContextualRule.subtables [] { feature := "Overlap" }
        [ContextualRule.inside "a" "t" "a" "a" 1 none]) (Session.fresh defaultTempBase) =
          (.ok apart, s) ∧
      exec (compileRules ContextualRule.subtables [] { feature := "Overlap" }
        [ContextualRule.enclosed "a" "t" "a" "a" 1 none]) (Session.fresh defaultTempBase) =
          (.ok between, s') ∧
      Subtable.applyAll apart.subtables ["a", "t", "a", "t", "a", "a"] =
        Subtable.applyAll between.subtables ["a", "t", "a", "t", "a", "a"] := by
  have hclasses : Registry.ofClasses [] = .ok Registry.empty := rfl
  have hta : "t" ≠ "a" := by decide
  have hr : "a" ≠ toString defaultTempBase.toNat := by decide
  obtain ⟨apart, between, s, s', hs, hs', _, _, h⟩ := when_inside_agrees_with_between
    (c := "a") hclasses { feature := "Overlap" } hta hr 1 1 none none
  exact ⟨hclasses, hta, hr, by decide, apart, between, s, s', hs, hs', h _ (by decide)⟩

end Metamorphosis
