import Metamorphosis.Proofs.GlyphRule.Split
import Metamorphosis.RuleGroup

namespace Metamorphosis

open CompileM

variable {registry : Registry} {rule : ContextualRule} {rules : List GlyphRule} {s s' : Session}

namespace ContextualRule

theorem whenPairs_length {pairs : List Pair} {size : Nat} {sides : List (List Glyph × List Glyph)}
    (h : whenPairs registry pairs size = .ok sides) :
    sides.length = pairs.length ∧
      ∀ side ∈ sides, side.1.length = size ∧ side.2.length = size := by
  refine ⟨length_of_mapM_ok h, ?_⟩
  intro side hside
  obtain ⟨pair, _, hg, hsize⟩ := forall₂_of_mem_right (whenPairs_ok_iff.mp h) side hside
  obtain ⟨_, _, hsame⟩ := Pair.glyphs_ok_iff.mp hg
  exact ⟨hsize, hsame.symm.trans hsize⟩

/-- A rule with the whole pattern has as many substitutions as were written. -/
theorem length_pairs_wholeRule {line k : Nat} {positions : List (List Glyph)} {pairs : List Pair}
    {size : Nat} {sides : List (List Glyph × List Glyph)}
    (h : whenPairs registry pairs size = .ok sides) (hk : k < size) :
    (wholeRule line k positions sides).pairs.length = pairs.length := by
  obtain ⟨hlength, hsides⟩ := whenPairs_length h
  have htargets : (column (sides.map Prod.fst) k).length = sides.length := by
    rw [length_column, List.length_map]
    intro position hposition
    obtain ⟨side, hside, rfl⟩ := List.mem_map.mp hposition
    rwa [(hsides side hside).1]
  have hreplacements : (column (sides.map Prod.snd) k).length = sides.length := by
    rw [length_column, List.length_map]
    intro position hposition
    obtain ⟨side, hside, rfl⟩ := List.mem_map.mp hposition
    rwa [(hsides side hside).2]
  rw [wholeRule, List.length_zip, htargets, hreplacements, Nat.min_self, hlength]

theorem wholePattern?_of_site {r : GlyphRule} (h : ∀ pattern, r.site ≠ .context (.when pattern)) :
    r.wholePattern? = none := by
  unfold GlyphRule.wholePattern?
  split
  next pattern hsite => exact absurd hsite (h pattern)
  next => rfl

theorem splitAtTarget_wholePattern? {line : Nat} {positions : List (List Glyph)} {target : Element}
    {targets replacements : List Glyph}
    (h : exec (splitAtTarget line positions target targets replacements) s = (.ok rules, s')) :
    ∀ r ∈ rules, r.wholePattern? = none := by
  rw [splitAtTarget_eq] at h
  split at h
  next => cases h
  next index _ =>
    obtain ⟨perTarget, m, hper, h⟩ := exec_bind_ok h
    rw [← exec_pure_ok h]
    intro r hr
    obtain ⟨own, hown, hr⟩ := List.mem_flatten.mp hr
    obtain ⟨x, _, before, after, hexec⟩ := exec_mapM_ok hper own hown
    apply wholePattern?_of_site
    intro pattern
    rcases splitRules_ok hexec with ⟨_, rfl⟩ | ⟨_, rfl⟩ | ⟨_, _, code, _, rfl⟩
    · rw [List.mem_singleton.mp hr]
      simp [GlyphRule.single]
    · rw [List.mem_singleton.mp hr]
      simp [GlyphRule.single]
    · simp only [apartRules, List.mem_cons, List.not_mem_nil, or_false] at hr
      rcases hr with rfl | rfl | rfl <;> simp

theorem glyphRules_wholePattern? (h : exec (rule.glyphRules registry) s = (.ok rules, s')) :
    ∀ r ∈ rules, r.wholePattern? = none := by
  obtain ⟨m, hm, _, hne⟩ := exec_glyphRules_ok h
  have hsingle : ∀ {contexts : List (Context Glyph)},
      (∀ context ∈ contexts, ∀ pattern, context ≠ .when pattern) →
        rule.inContexts registry contexts = .ok rules → ∀ r ∈ rules, r.wholePattern? = none := by
    intro contexts hcontexts hin r hr
    obtain ⟨context, hcontext, _, _, _, _, _, _, _, _, rfl⟩ := inContexts_ok hin r hr
    apply wholePattern?_of_site
    intro pattern he
    exact hcontexts context hcontext pattern (Site.context.inj he)
  unfold unreported at hm
  split at hm
  next pattern _ =>
    obtain ⟨choices, _, hin⟩ := except_bind_ok (exec_atLine_inv hm).1
    refine hsingle ?_ hin
    intro context hcontext pattern
    obtain ⟨glyphs, _, rfl⟩ := List.mem_map.mp hcontext
    simp
  next pattern _ =>
    obtain ⟨choices, _, hin⟩ := except_bind_ok (exec_atLine_inv hm).1
    refine hsingle ?_ hin
    intro context hcontext pattern
    obtain ⟨glyphs, _, rfl⟩ := List.mem_map.mp hcontext
    simp
  next first second _ =>
    obtain ⟨contexts, hbetween, hin⟩ := betweenRules_ok (exec_atLine_inv hm).1
    refine hsingle ?_ hin
    intro context hcontext pattern
    obtain ⟨f, g, rfl, _⟩ := hbetween context hcontext
    simp
  next pattern _ =>
    obtain ⟨positions, size, _, hsplit | ⟨hone, sides, hsides, rfl⟩⟩ := whenRules_ok hm
    · obtain ⟨pair, targets, replacements, m', _, _, _, hsplit⟩ := hsplit
      exact splitAtTarget_wholePattern? hsplit
    · intro r hr
      obtain ⟨k, hk, rfl⟩ := List.mem_map.mp hr
      have hlength : (wholeRule rule.line k positions sides).pairs.length = rule.pairs.length :=
        length_pairs_wholeRule hsides (List.mem_range.mp hk)
      have hpos : 0 < rule.pairs.length := List.length_pos_iff.mpr hne
      have hmany : (wholeRule rule.line k positions sides).isMultiPass = true := by
        rw [GlyphRule.isMultiPass, hlength, decide_eq_true_eq]
        omega
      exact if_pos hmany

theorem allGlyphRules_wholePattern? {written : List ContextualRule}
    (h : exec (allGlyphRules registry written) s = (.ok rules, s')) :
    ∀ r ∈ rules, r.wholePattern? = none := by
  obtain ⟨perRule, m, hper, h⟩ := exec_bind_ok h
  rw [exec_bind_of_ok (exec_get m), exec_bind_of_ok (exec_report _ m)] at h
  rw [← exec_pure_ok h]
  intro r hr
  obtain ⟨own, hown, hr⟩ := List.mem_flatten.mp hr
  obtain ⟨rule, _, _, _, hrule⟩ := exec_mapM_ok hper own hown
  exact glyphRules_wholePattern? hrule r hr

end ContextualRule

end Metamorphosis
