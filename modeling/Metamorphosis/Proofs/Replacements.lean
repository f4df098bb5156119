import Mathlib.Data.List.Induction
import Metamorphosis.Merge
import Metamorphosis.Proofs.Ordered

namespace Metamorphosis

section FirstReplacements

/-- One replacement for each target, targets in order: the first one listed. -/
def firstReplacements (pairs : List (Glyph × Glyph)) : List (Glyph × Glyph) :=
  (glyphSet (pairs.map Prod.fst)).filterMap fun target =>
    (pairs.lookup target).map fun replacement => (target, replacement)

@[simp] theorem lookup_firstReplacements (pairs : List (Glyph × Glyph)) (g : Glyph) :
    (firstReplacements pairs).lookup g = pairs.lookup g := by
  unfold firstReplacements
  rw [lookup_filterMap_keys]
  split
  next => rfl
  next hg => exact (lookup_eq_none_of_not_mem (by simpa using hg)).symm

/-- Merging keeps each target once, in order. -/
theorem map_fst_firstReplacements (pairs : List (Glyph × Glyph)) :
    (firstReplacements pairs).map Prod.fst = glyphSet (pairs.map Prod.fst) := by
  have hkey : ∀ g ∈ glyphSet (pairs.map Prod.fst),
      ((pairs.lookup g).map fun v => (g, v)).map Prod.fst = some g := by
    intro g hg
    obtain ⟨v, hv⟩ := exists_lookup_of_mem (mem_glyphSet.mp hg)
    rw [hv, Option.map_some, Option.map_some]
  rw [firstReplacements, List.map_filterMap, List.filterMap_congr hkey, List.filterMap_some]

theorem mem_keys_firstReplacements {pairs : List (Glyph × Glyph)} {g : Glyph} :
    g ∈ (firstReplacements pairs).map Prod.fst ↔ g ∈ pairs.map Prod.fst := by
  rw [map_fst_firstReplacements, mem_glyphSet]

/-- Nothing is replaced by what no pair replaces it by. -/
theorem mem_of_mem_firstReplacements {pairs : List (Glyph × Glyph)} {p : Glyph × Glyph}
    (h : p ∈ firstReplacements pairs) : p ∈ pairs := by
  obtain ⟨target, _, hp⟩ := List.mem_filterMap.mp h
  obtain ⟨replacement, hr, rfl⟩ := Option.map_eq_some_iff.mp hp
  exact mem_of_lookup hr

theorem firstReplacements_pairwise (pairs : List (Glyph × Glyph)) :
    ((firstReplacements pairs).map Prod.fst).Pairwise (precedes · · = true) := by
  rw [map_fst_firstReplacements]
  exact sortDistinct_pairwise precedes_orders _

theorem nodup_keys_firstReplacements (pairs : List (Glyph × Glyph)) :
    ((firstReplacements pairs).map Prod.fst).Nodup :=
  precedes_orders.nodup (firstReplacements_pairwise pairs)

/-- As many entries as pairs are left if and only if no target has two. -/
theorem length_firstReplacements_eq_iff {pairs : List (Glyph × Glyph)} :
    (firstReplacements pairs).length = pairs.length ↔ (pairs.map Prod.fst).Nodup := by
  rw [← length_glyphSet_eq_iff, ← map_fst_firstReplacements, List.length_map, List.length_map]

/-- Nothing is given up if no target has two replacements. -/
theorem firstReplacements_perm {pairs : List (Glyph × Glyph)} (hn : (pairs.map Prod.fst).Nodup) :
    (firstReplacements pairs).Perm pairs := by
  have hkept := List.Nodup.of_map _ (nodup_keys_firstReplacements pairs)
  rw [List.perm_ext_iff_of_nodup hkept (List.Nodup.of_map _ hn)]
  intro p
  constructor
  · exact mem_of_mem_firstReplacements
  · intro hp
    have hl := lookup_of_mem_nodup hn hp
    rw [← lookup_firstReplacements] at hl
    exact mem_of_lookup hl

/-- Merging depends on the first replacement of every target only. -/
theorem firstReplacements_congr {pairs pairs' : List (Glyph × Glyph)}
    (h : ∀ g, pairs.lookup g = pairs'.lookup g) :
    firstReplacements pairs = firstReplacements pairs' := by
  have hkeys : ∀ g, g ∈ pairs.map Prod.fst ↔ g ∈ pairs'.map Prod.fst := by
    intro g
    rw [← isSome_lookup, ← isSome_lookup, h]
  unfold firstReplacements
  rw [glyphSet_congr hkeys]
  simp only [h]

/-- Pairs in the order of their targets, each target once, are left as they are. -/
theorem firstReplacements_of_pairwise {pairs : List (Glyph × Glyph)}
    (h : (pairs.map Prod.fst).Pairwise (precedes · · = true)) :
    firstReplacements pairs = pairs := by
  have hkeys : glyphSet (pairs.map Prod.fst) = pairs.map Prod.fst :=
    eq_of_pairwise_of_mem_iff precedes_orders (sortDistinct_pairwise precedes_orders _) h
      fun _ => mem_glyphSet
  have hentry : ∀ p ∈ pairs, ((pairs.lookup p.1).map fun v => (p.1, v)) = some p := by
    intro p hp
    rw [lookup_of_mem_nodup (precedes_orders.nodup h) hp, Option.map_some]
  rw [firstReplacements, hkeys, List.filterMap_map]
  exact (List.filterMap_congr hentry).trans List.filterMap_some

end FirstReplacements

section Loop

variable {pairs : List (Glyph × Glyph)} {p : Glyph × Glyph}

theorem mem_keys_enter {target : Glyph} :
    target ∈ (enter p pairs).map Prod.fst ↔ target = p.1 ∨ target ∈ pairs.map Prod.fst := by
  induction pairs with
  | nil => simp [enter]
  | cons entry rest ih =>
    unfold enter
    split
    next => rw [List.map_cons, List.mem_cons]
    next => rw [List.map_cons, List.mem_cons, ih, List.map_cons, List.mem_cons, or_left_comm]

/-- A new target comes behind those that precede it and before the others. -/
theorem enter_pairwise (h : (pairs.map Prod.fst).Pairwise (precedes · · = true))
    (hnew : p.1 ∉ pairs.map Prod.fst) :
    ((enter p pairs).map Prod.fst).Pairwise (precedes · · = true) := by
  induction pairs with
  | nil => exact List.pairwise_singleton _ _
  | cons entry rest ih =>
    rw [List.map_cons, List.pairwise_cons] at h
    rw [List.map_cons, List.mem_cons, not_or] at hnew
    unfold enter
    split
    next hbefore =>
      rw [List.map_cons, List.pairwise_cons]
      refine ⟨?_, List.pairwise_cons.mpr h⟩
      intro target htarget
      rcases List.mem_cons.mp htarget with rfl | htarget
      · exact hbefore
      · exact precedes_orders.trans hbefore (h.1 target htarget)
    next hbehind =>
      rw [List.map_cons, List.pairwise_cons]
      refine ⟨?_, ih h.2 hnew.2⟩
      intro target htarget
      rcases mem_keys_enter.mp htarget with rfl | htarget
      · by_contra hafter
        exact hnew.1 (precedes_connected _ _ (Bool.not_eq_true _ ▸ hbehind)
          (Bool.not_eq_true _ ▸ hafter))
      · exact h.1 target htarget

theorem lookup_cons_of_ne {target : Glyph} (h : target ≠ p.1) :
    (p :: pairs).lookup target = pairs.lookup target := by
  rw [List.lookup_cons, beq_false_of_ne h]

theorem lookup_enter (hnew : p.1 ∉ pairs.map Prod.fst) (target : Glyph) :
    (enter p pairs).lookup target = (pairs ++ [p]).lookup target := by
  induction pairs with
  | nil => rfl
  | cons entry rest ih =>
    unfold enter
    split
    next =>
      by_cases htarget : target = p.1
      · have hnone := lookup_eq_none_of_not_mem hnew
        rw [htarget, List.lookup_append, hnone, Option.none_or, List.lookup_cons_self,
          List.lookup_cons_self]
      · rw [lookup_cons_of_ne htarget, List.lookup_append, lookup_cons_of_ne htarget,
          List.lookup_nil, Option.or_none]
    next =>
      rw [List.map_cons, List.mem_cons, not_or] at hnew
      rw [List.cons_append, List.lookup_cons, List.lookup_cons, ih hnew.2]

/-- A new target is put where it belongs among the first replacements. -/
theorem enter_firstReplacements (hnew : p.1 ∉ pairs.map Prod.fst) :
    enter p (firstReplacements pairs) = firstReplacements (pairs ++ [p]) := by
  have hnew' : p.1 ∉ (firstReplacements pairs).map Prod.fst := mt mem_keys_firstReplacements.mp hnew
  rw [← firstReplacements_of_pairwise (enter_pairwise (firstReplacements_pairwise pairs) hnew')]
  apply firstReplacements_congr
  intro target
  rw [lookup_enter hnew', List.lookup_append, List.lookup_append, lookup_firstReplacements]

namespace Merged

theorem ofPairs_concat : ofPairs (pairs ++ [p]) = (ofPairs pairs).add p := by
  rw [ofPairs, List.foldl_concat, ← ofPairs]

/-- Whatever pairs came, the entries are their first replacements. -/
theorem entries_ofPairs (pairs : List (Glyph × Glyph)) :
    (ofPairs pairs).entries = firstReplacements pairs := by
  induction pairs using List.reverseRecOn with
  | nil => rfl
  | append_singleton pairs p ih =>
    rw [ofPairs_concat, add, ih, lookup_firstReplacements]
    cases hl : pairs.lookup p.1 with
    | none =>
      refine enter_firstReplacements fun hmem => ?_
      rw [← isSome_lookup, hl] at hmem
      cases hmem
    | some kept =>
      have hsame : firstReplacements (pairs ++ [p]) = firstReplacements pairs := by
        apply firstReplacements_congr
        intro target
        rw [List.lookup_append]
        by_cases htarget : target = p.1
        · rw [htarget, hl, Option.some_or]
        · rw [lookup_cons_of_ne htarget, List.lookup_nil, Option.or_none]
      dsimp only
      rw [hsame]
      split
      next => exact ih
      next => rfl

end Merged

end Loop

end Metamorphosis
