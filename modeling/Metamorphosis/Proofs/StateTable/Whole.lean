import Metamorphosis.Proofs.StateTable.Marking
import Metamorphosis.StateTable.Pattern

namespace Metamorphosis

namespace StateTable

variable {length target : Nat} {patterns : List (List Glyph)} {entries : List (Glyph × Glyph)}

section Steps

theorem wholeStep_injective {i j : Nat}
    (h : wholeStep length target i = wholeStep length target j) : i = j := by
  have hlast : ∀ k, wholeStep length target k = "DoSubstitution" → k + 1 = length := by
    intro k hk
    unfold wholeStep at hk
    split at hk
    next hn => exact hn
    next =>
      have hl := congrArg String.toList hk
      split at hl <;> simp [numbered, matched] at hl
  have hmark : ∀ k, matched k ≠ "MarkTarget" := by
    intro k he
    have hl := congrArg String.toList he
    simp [matched, numbered] at hl
  by_cases hi : i + 1 = length
  · have hj := hlast j (h.symm.trans (if_pos hi))
    omega
  · by_cases hj : j + 1 = length
    · have hi' := hlast i (h.trans (if_pos hj))
      omega
    · unfold wholeStep at h
      rw [if_neg hi, if_neg hj] at h
      split at h <;> split at h
      next => omega
      next => exact absurd h.symm (hmark (j + 1))
      next => exact absurd h (hmark (i + 1))
      next => exact Nat.succ.inj (numbered_injective h)

theorem wholeStep_last (hl : 0 < length) : wholeStep length target (length - 1) = "DoSubstitution" :=
  if_pos (by omega)

theorem mem_wholeTransitions {tr : Transition} :
    tr ∈ wholeTransitions length target ↔
      (∃ i, i + 1 < length ∧ tr = ⟨wholeStep length target i, matched (i + 1),
        if i = target then [.markGlyph] else []⟩) ∨
      tr = ⟨"DoSubstitution", start,
        [if target + 1 = length then .substituteCurrent "Subst"
          else .substituteMarked "Subst"]⟩ := by
  unfold wholeTransitions
  rw [List.mem_append, List.mem_singleton, List.mem_map]
  apply or_congr_left
  constructor
  · rintro ⟨i, hi, rfl⟩
    have hlt := List.mem_range.mp hi
    exact ⟨i, by omega, rfl⟩
  · rintro ⟨i, hi, rfl⟩
    exact ⟨i, List.mem_range.mpr (by omega), rfl⟩

/-- The transition at an index of the patterns as a whole. -/
def wholeTransition (length target j : Nat) : Transition :=
  ⟨wholeStep length target j, matchState (matchedAfter length j),
    if j + 1 = length then
      [if target + 1 = length then .substituteCurrent "Subst" else .substituteMarked "Subst"]
    else if j = target then [.markGlyph] else []⟩

theorem wholeTransition_of_lt {j : Nat} (hj : j + 1 < length) :
    wholeTransition length target j = ⟨wholeStep length target j, matched (j + 1),
      if j = target then [.markGlyph] else []⟩ := by
  have hne : j + 1 ≠ length := by omega
  simp [wholeTransition, matchedAfter, matchState, hne]

theorem wholeTransition_last (hl : 0 < length) :
    wholeTransition length target (length - 1) = ⟨"DoSubstitution", start,
      [if target + 1 = length then .substituteCurrent "Subst" else .substituteMarked "Subst"]⟩ := by
  have he : length - 1 + 1 = length := by omega
  simp [wholeTransition, wholeStep_last hl, matchedAfter, matchState, he]

/-- Each index of the patterns has one transition. -/
theorem mem_wholeTransitions_iff_index (hl : 0 < length) {tr : Transition} :
    tr ∈ wholeTransitions length target ↔
      ∃ j, j < length ∧ tr = wholeTransition length target j := by
  rw [mem_wholeTransitions]
  constructor
  · rintro (⟨j, hj, rfl⟩ | rfl)
    · exact ⟨j, by omega, (wholeTransition_of_lt hj).symm⟩
    · exact ⟨length - 1, by omega, (wholeTransition_last hl).symm⟩
  · rintro ⟨j, hj, rfl⟩
    by_cases hlast : j + 1 = length
    · obtain rfl : j = length - 1 := by omega
      exact Or.inr (wholeTransition_last hl)
    · exact Or.inl ⟨j, by omega, wholeTransition_of_lt (by omega)⟩

end Steps

section Run

theorem whole_matchesRow (hl : 0 < length) (ha : Apart (positionGlyphs patterns length) []) :
    (whole length target patterns entries).MatchesRow (positionGlyphs patterns length) matchState
      (wholeTransition length target) := by
  have hlength := length_positionGlyphs patterns length
  have hclasses := @mem_numberedClasses (positionGlyphs patterns length) positionClass
  refine MatchesRow.addSubstitution (matchesRow_build ha rfl (fun _ _ => hclasses) ?_ ?_ ?_ ?_ ?_) _ _
  · intro r
    rw [mem_wholeRoutes hl, hlength]
    rfl
  · exact fun _ _ _ _ => matchState_injective
  · exact fun _ _ _ _ he => Nat.succ.inj (numbered_injective he)
  · rw [hlength]
    exact fun _ => find?_rowTransitions (fun _ => mem_wholeTransitions_iff_index hl)
      fun _ _ _ _ => wholeStep_injective
  · intro j _
    rw [hlength]
    rfl

/-- A pattern that ends in its target has it rewritten as it is read. -/
theorem run_whole_of_last (ha : Apart (positionGlyphs patterns (target + 1)) []) (run : List Glyph) :
    (whole (target + 1) target patterns entries).run run = run.mapIdx fun i g =>
      if target ≤ i ∧ StandsAt (positionGlyphs patterns (target + 1)) run (i - target) (target + 1)
      then (entries.lookup g).getD g
      else g := by
  have hactions : ∀ j, j < (positionGlyphs patterns (target + 1)).length →
      (wholeTransition (target + 1) target j).actions =
        if decide (j = target) then [.substituteCurrent "Subst"] else [] := by
    intro j _
    simp only [wholeTransition, Nat.add_right_cancel_iff, if_true, decide_eq_true_iff]
    split <;> rfl
  rw [(whole_matchesRow (Nat.succ_pos target) ha).run_current
    (by rw [length_positionGlyphs]; exact Nat.succ_pos target) hactions]
  simp only [any_placeAt?_iff ha, whole, replace_build]

/-- A pattern that goes on behind its target has it marked, and rewritten in the end. -/
theorem run_whole_of_lt {rest : Nat} (hrest : 0 < rest)
    (ha : Apart (positionGlyphs patterns (target + rest + 1)) []) (run : List Glyph) :
    (whole (target + rest + 1) target patterns entries).run run = run.mapIdx fun i g =>
      if target ≤ i ∧ StandsAt (positionGlyphs patterns (target + rest + 1)) run (i - target)
        (target + rest + 1)
      then (entries.lookup g).getD g
      else g := by
  have hlength := length_positionGlyphs patterns (target + rest + 1)
  have hlast : target + 1 ≠ target + rest + 1 := by omega
  have hactions : ∀ j, j < (positionGlyphs patterns (target + rest + 1)).length →
      (wholeTransition (target + rest + 1) target j).actions =
        (if j = target + rest then [.substituteMarked "Subst"] else []) ++
          if j = target then [.markGlyph] else [] := by
    intro j _
    simp only [wholeTransition, Nat.add_right_cancel_iff, hlast, if_false]
    split
    next hover => rw [if_neg (by omega), List.append_nil]
    next => rw [List.nil_append]
  rw [(whole_matchesRow (Nat.succ_pos _) ha).run_marked ha hrest hlength hactions, hlength]
  simp only [whole, replace_build]

/-- A run gives the targets around which all positions stand their replacements. -/
theorem run_whole (ht : target < length) (ha : Apart (positionGlyphs patterns length) [])
    (run : List Glyph) :
    (whole length target patterns entries).run run = run.mapIdx fun i g =>
      if target ≤ i ∧ StandsAt (positionGlyphs patterns length) run (i - target) length then
        (entries.lookup g).getD g
      else g := by
  obtain ⟨rest, rfl⟩ : ∃ rest, length = target + rest + 1 := ⟨length - (target + 1), by omega⟩
  cases rest with
  | zero => exact run_whole_of_last ha run
  | succ rest => exact run_whole_of_lt (Nat.succ_pos rest) ha run

end Run

end StateTable

end Metamorphosis
