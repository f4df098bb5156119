import Metamorphosis.Proofs.Document.Closed
import Metamorphosis.Proofs.RuleGroup.Grouping
import Metamorphosis.Proofs.StateTable.Ready

namespace Metamorphosis

open CompileM

theorem mem_pairs_target {r : GlyphRule} (h : r.pairs ≠ []) :
    ∃ replacement, (r.target, replacement) ∈ r.pairs := by
  obtain ⟨p, rest, hp⟩ := List.exists_cons_of_ne_nil h
  have ht : r.target = p.1 := by rw [GlyphRule.target, hp]; rfl
  rw [ht, hp]
  exact ⟨p.2, List.mem_cons_self⟩

/-- The glyph at the shared index of the patterns is a target. -/
theorem whole_keys {rules : List GlyphRule} {length target : Nat}
    (hpairs : ∀ r ∈ rules, r.pairs ≠ []) (hshape : commonShape rules = .ok (length, target)) :
    ∀ pattern ∈ rules.filterMap GlyphRule.pattern?, ∀ g, pattern[target]? = some g →
      g ∈ (firstReplacements (substitutions rules)).map Prod.fst := by
  intro pattern hpattern g hg
  obtain ⟨r, hr, hp⟩ := List.mem_filterMap.mp hpattern
  obtain ⟨_, _, hindex⟩ := shape_eq_ok.mp ((commonShape_eq_ok.mp hshape).2 r hr)
  rw [hp, Option.getD_some] at hindex
  obtain ⟨hlt, htarget, _⟩ := List.idxOf?_eq_some_iff.mp hindex
  rw [List.getElem?_eq_getElem hlt, htarget] at hg
  obtain ⟨replacement, hmem⟩ := mem_pairs_target (hpairs r hr)
  rw [mem_keys_firstReplacements, mem_keys_substitutions, ← Option.some.inj hg]
  exact ⟨r, hr, replacement, hmem⟩

theorem target_lt_of_commonShape {rules : List GlyphRule} {length target : Nat}
    (h : commonShape rules = .ok (length, target)) : target < length := by
  obtain ⟨hne, hall⟩ := commonShape_eq_ok.mp h
  obtain ⟨r, hr⟩ := List.exists_mem_of_ne_nil rules hne
  obtain ⟨_, hlength, hindex⟩ := shape_eq_ok.mp (hall r hr)
  obtain ⟨hlt, _⟩ := List.idxOf?_eq_some_iff.mp hindex
  omega

theorem RuleGroup.HasTable.guarded {group : RuleGroup} {t : StateTable}
    (hpairs : ∀ r ∈ group.rules, r.pairs ≠ []) (h : group.HasTable t) :
    ∃ armed table, t.Guarded armed table := by
  cases h with
  | adjacent side glyph rules =>
    cases side with
    | after => exact ⟨_, _, StateTable.adjacent_after_guarded⟩
    | before => exact ⟨_, _, StateTable.adjacent_before_guarded⟩
  | @chain side rules length hlength =>
    have htwo := (chainLength_eq_ok.mp hlength).1
    cases side with
    | after => exact ⟨_, _, StateTable.chain_after_guarded (by omega) _ _⟩
    | before => exact ⟨_, _, StateTable.chain_before_guarded _ _⟩
  | between rules => exact ⟨_, _, StateTable.between_guarded _ _ _⟩
  | betweenChain hn hm hshared => exact ⟨_, _, StateTable.betweenChain_guarded hn hm _ _⟩
  | whole hshape =>
    exact ⟨_, _, StateTable.whole_guarded (target_lt_of_commonShape hshape)
      (whole_keys hpairs hshape)⟩
  | @marking ordinal rule pattern pairs arena marked hmarks =>
    refine ⟨_, _, StateTable.marking_guarded ?_⟩
    intro i hi g hg
    obtain ⟨m, hm, rfl⟩ := List.mem_map.mp hi
    rw [hmarks.index_eq m hm] at hg
    rw [mem_keys_firstReplacements, ← Option.some.inj hg]
    exact List.mem_map.mpr ⟨_, List.mem_map_of_mem hm, rfl⟩

/-- Whatever tables the rules have and whatever they run over, an action is performed only where it
has what it needs, also where a glyph is in several classes. -/
theorem actions_performed_ready (rules : List GlyphRule) (hpairs : ∀ r ∈ rules, r.pairs ≠ [])
    (s s' : Session) (made : List Subtable)
    (h : exec (GlyphRule.allSubtables rules) s = (.ok made, s')) :
    ∀ sub ∈ made, ∀ table, sub.body = .contextual table →
      ∀ run i head action, table.Performs run i head action → table.Ready i head action := by
  intro sub hsub table htable run i head action hperforms
  have hsome : sub.body.stateTable? = some table := by
    rw [htable]
    rfl
  obtain ⟨group, hgroup, hmade⟩ := allSubtables_hasTable h sub hsub table hsome
  have hsubset := RuleGroup.rules_subset hgroup
  obtain ⟨armed, name, hguarded⟩ := hmade.guarded fun r hr => hpairs r (hsubset hr)
  exact hguarded.ready hperforms

/-- A target that is a context of its own rule, a pattern with one glyph twice, a glyph that is
target and context on both sides, and a rule with two substitutions. -/
def overlappingRules : List GlyphRule :=
  [.single (.before ["a", "b"]) "a" "x" 1,
    .single (.before ["a", "b"]) "c" "x" 1,
    .single (.between ["a"] ["a"]) "a" "y" 2,
    .single (.when ["a", "b", "a"]) "b" "y" 3,
    ⟨.context (.when ["a", "b"]), [("a", "x"), ("b", "y")], 4, none⟩]

/-- The table of the first two rules does rewrite a marked glyph. -/
theorem actions_performed_ready_overlapping :
    (∀ r ∈ overlappingRules, r.pairs ≠ []) ∧
    ∃ made s',
      exec (GlyphRule.allSubtables overlappingRules) (Session.fresh defaultTempBase) =
        (.ok made, s') ∧
      (∃ sub ∈ made, ∃ table head, sub.body = .contextual table ∧
        table.Performs ["c", "a", "b"] 2 head (.substituteMarked "Subst")) ∧
      ∀ sub ∈ made, ∀ table, sub.body = .contextual table →
        ∀ run i head action, table.Performs run i head action → table.Ready i head action := by
  have hpairs : ∀ r ∈ overlappingRules, r.pairs ≠ [] := by decide
  have hmade : ∃ made s',
      exec (GlyphRule.allSubtables overlappingRules) (Session.fresh defaultTempBase) =
        (.ok made, s') ∧
      ∃ sub ∈ made, ∃ table head, sub.body = .contextual table ∧
        table.Performs ["c", "a", "b"] 2 head (.substituteMarked "Subst") :=
    ⟨_, _, rfl, _, List.mem_cons_self, _, _, rfl, _, [], [], rfl, rfl, rfl⟩
  obtain ⟨made, s', hexec, hperforms⟩ := hmade
  exact ⟨hpairs, made, s', hexec, hperforms,
    actions_performed_ready overlappingRules hpairs _ _ made hexec⟩

end Metamorphosis
