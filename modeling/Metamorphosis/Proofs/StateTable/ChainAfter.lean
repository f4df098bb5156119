import Metamorphosis.Proofs.StateTable.Chain
import Metamorphosis.Proofs.StateTable.Run
import Metamorphosis.Proofs.Stretch

namespace Metamorphosis

namespace StateTable

/-- The state after a word over the first `k` positions. -/
def afterChainState (k : Nat) : String :=
  if k = 0 then start else sawContext k

theorem afterChainState_injective {i j : Nat} (h : afterChainState i = afterChainState j) :
    i = j := by
  unfold afterChainState at h
  split at h <;> split at h
  next => omega
  next => exact absurd h.symm (sawContext_ne_start j)
  next => exact absurd h (sawContext_ne_start i)
  next => exact numbered_injective h

variable {length : Nat}

/-- A glyph goes on to the next position, stays at its own or begins anew at the first. -/
theorem mem_chainAfterRoutes (hl : 0 < length) {r : Route} :
    r ∈ chainAfterRoutes length ↔
      (∃ k j, k ≤ length ∧ j < length ∧ (j = k ∨ j + 1 = k ∨ j = 0) ∧
        r = ⟨afterChainState k, contextClass (j + 1), sawContext (j + 1)⟩) ∨
      r = ⟨afterChainState length, "Target", "DoSubstitution"⟩ := by
  have hstate : ∀ i, 0 < i → afterChainState i = sawContext i := by
    intro i hi
    rw [afterChainState, if_neg (by omega)]
  unfold chainAfterRoutes
  simp only [List.mem_cons, List.mem_flatMap, List.mem_range'_1, List.not_mem_nil, or_false]
  constructor
  · rintro (rfl | ⟨i, hi, rfl | rfl | rfl⟩)
    · exact Or.inl ⟨0, 0, by omega, hl, Or.inl rfl, rfl⟩
    · split
      next hlt => exact Or.inl ⟨i, i, by omega, hlt, Or.inl rfl, by rw [hstate i hi.1]⟩
      next hlt =>
        have he : i = length := by omega
        exact Or.inr (by rw [he, hstate length hl])
    · obtain ⟨j, rfl⟩ : ∃ j, i = j + 1 := ⟨i - 1, by omega⟩
      exact Or.inl ⟨j + 1, j, by omega, by omega, Or.inr (Or.inl rfl), by rw [hstate _ hi.1]⟩
    · exact Or.inl ⟨i, 0, by omega, hl, Or.inr (Or.inr rfl), by rw [hstate i hi.1]⟩
  · rintro (⟨k, j, hk, hj, hjk, rfl⟩ | rfl)
    · by_cases h0 : k = 0
      · have hj0 : j = 0 := by omega
        subst h0
        subst hj0
        exact Or.inl rfl
      · refine Or.inr ⟨k, by omega, ?_⟩
        rw [hstate k (by omega)]
        rcases hjk with rfl | rfl | rfl
        · exact Or.inl (by rw [if_pos hj])
        · exact Or.inr (Or.inl rfl)
        · exact Or.inr (Or.inr rfl)
    · refine Or.inr ⟨length, by omega, Or.inl ?_⟩
      rw [if_neg (Nat.lt_irrefl _), hstate length hl]

theorem find?_chainAfterRoutes {k j : Nat} (hk : k ≤ length) (hj : j < length) :
    (chainAfterRoutes length).find?
        (fun r => r.state == afterChainState k && r.className == contextClass (j + 1)) =
      if j = k ∨ j + 1 = k ∨ j = 0 then
        some ⟨afterChainState k, contextClass (j + 1), sawContext (j + 1)⟩ else none := by
  have hl : 0 < length := by omega
  apply find?_eq_ite
  · exact fun h => (mem_chainAfterRoutes hl).mpr (Or.inl ⟨k, j, hk, hj, h, rfl⟩)
  · simp
  · intro r hr hp
    simp only [Bool.and_eq_true, beq_iff_eq] at hp
    rcases (mem_chainAfterRoutes hl).mp hr with ⟨k', j', _, _, hjk, rfl⟩ | rfl
    · obtain rfl := afterChainState_injective hp.1
      have hn : j' + 1 = j + 1 := numbered_injective hp.2
      obtain rfl : j' = j := by omega
      exact ⟨hjk, rfl⟩
    · exact absurd hp.2.symm (contextClass_ne_target (j + 1))

theorem find?_chainAfterRoutes_target (hl : 0 < length) {k : Nat} :
    (chainAfterRoutes length).find?
        (fun r => r.state == afterChainState k && r.className == "Target") =
      if k = length then some ⟨afterChainState k, "Target", "DoSubstitution"⟩ else none := by
  apply find?_eq_ite
  · intro h
    rw [h]
    exact (mem_chainAfterRoutes hl).mpr (Or.inr rfl)
  · simp
  · intro r hr hp
    simp only [Bool.and_eq_true, beq_iff_eq] at hp
    rcases (mem_chainAfterRoutes hl).mp hr with ⟨k', j', _, _, _, rfl⟩ | rfl
    · exact absurd hp.2 (contextClass_ne_target (j' + 1))
    · obtain rfl := afterChainState_injective hp.1
      exact ⟨rfl, rfl⟩

theorem mem_chainAfterTransitions {tr : Transition} :
    tr ∈ chainAfterTransitions length ↔
      (∃ j, j < length ∧ tr = ⟨sawContext (j + 1), sawContext (j + 1), []⟩) ∨
        tr = ⟨"DoSubstitution", start, [.substituteCurrent "Subst"]⟩ := by
  unfold chainAfterTransitions
  rw [List.mem_append, List.mem_singleton]
  apply or_congr_left
  simp only [List.mem_map, List.mem_range'_1]
  constructor
  · rintro ⟨i, hi, rfl⟩
    obtain ⟨j, rfl⟩ : ∃ j, i = j + 1 := ⟨i - 1, by omega⟩
    exact ⟨j, by omega, rfl⟩
  · rintro ⟨j, hj, rfl⟩
    exact ⟨j + 1, by omega, rfl⟩

theorem find?_chainAfterTransitions {j : Nat} (hj : j < length) :
    (chainAfterTransitions length).find? (fun tr => tr.name == sawContext (j + 1)) =
      some ⟨sawContext (j + 1), sawContext (j + 1), []⟩ := by
  apply find?_eq_some_of_unique
  · exact mem_chainAfterTransitions.mpr (Or.inl ⟨j, hj, rfl⟩)
  · simp
  · intro tr ht hn
    rcases mem_chainAfterTransitions.mp ht with ⟨i, _, rfl⟩ | rfl
    · have he : i + 1 = j + 1 := numbered_injective (beq_iff_eq.mp hn)
      rw [he]
    · exact absurd (beq_iff_eq.mp hn).symm (sawContext_ne_doSubstitution (j + 1))

theorem find?_chainAfterTransitions_last :
    (chainAfterTransitions length).find? (fun tr => tr.name == "DoSubstitution") =
      some ⟨"DoSubstitution", start, [.substituteCurrent "Subst"]⟩ := by
  apply find?_eq_some_of_unique
  · exact mem_chainAfterTransitions.mpr (Or.inr rfl)
  · simp
  · intro tr ht hn
    rcases mem_chainAfterTransitions.mp ht with ⟨i, _, rfl⟩ | rfl
    · exact absurd (beq_iff_eq.mp hn) (sawContext_ne_doSubstitution (i + 1))
    · rfl

/-- How far a word is after another glyph. -/
def afterAdvance (positions : List (List Glyph)) (k : Nat) (g : Glyph) : Nat :=
  match placeOf? positions g with
  | some j => if j = k ∨ j + 1 = k ∨ j = 0 then j + 1 else 0
  | none => 0

variable {positions : List (List Glyph)} {targets : List Glyph}

theorem reaction_chainAfter (ha : Apart positions targets) (hl : 0 < positions.length)
    (states : List String) {k : Nat} (hk : k ≤ positions.length) (g : Glyph) :
    (build (chainClasses positions targets) states (chainAfterRoutes positions.length)
        (chainAfterTransitions positions.length)).reaction (afterChainState k) g =
      (afterChainState (afterAdvance positions k g),
        if decide (k = positions.length) && targets.contains g then [.substituteCurrent "Subst"]
        else []) := by
  rw [reaction, next?_build, classOf?_chainClasses ha, chainClass?, afterAdvance]
  cases hp : placeOf? positions g with
  | some j =>
    have hj := placeOf?_lt hp
    have hnt : targets.contains g = false := by
      rw [← Bool.not_eq_true, List.contains_iff_mem]
      intro hg
      rw [placeOf?_of_target ha hg] at hp
      cases hp
    dsimp only
    rw [hnt, Bool.and_false, Option.bind_some, find?_chainAfterRoutes hk hj]
    by_cases h : j = k ∨ j + 1 = k ∨ j = 0
    · rw [if_pos h, if_pos h, Option.bind_some, find?_chainAfterTransitions hj]
      rfl
    · rw [if_neg h, if_neg h]
      rfl
  | none =>
    dsimp only
    by_cases hg : targets.contains g = true
    · rw [if_pos hg, Option.bind_some, find?_chainAfterRoutes_target hl, hg, Bool.and_true]
      by_cases hkl : k = positions.length
      · rw [if_pos hkl, if_pos (decide_eq_true hkl), Option.bind_some,
          find?_chainAfterTransitions_last]
        rfl
      · rw [if_neg hkl, if_neg (by simpa using hkl)]
        rfl
    · rw [if_neg hg, Bool.eq_false_iff.mpr hg, Bool.and_false]
      rfl

/-- How far the word is that ends the first `n` glyphs of a run. -/
def afterProgress (positions : List (List Glyph)) (run : List Glyph) : Nat → Nat
  | 0 => 0
  | n + 1 => (run[n]?.map (afterAdvance positions (afterProgress positions run n))).getD 0

theorem afterAdvance_eq_succ (ha : Apart positions targets) {k m : Nat} {g : Glyph} :
    afterAdvance positions m g = k + 1 ↔
      (∃ p, positions[k]? = some p ∧ g ∈ p) ∧ (k = m ∨ k + 1 = m ∨ k = 0) := by
  rw [← placeOf?_eq_some ha, afterAdvance]
  cases placeOf? positions g with
  | none => simp
  | some j =>
    simp only [Option.some.injEq]
    split
    next h =>
      constructor
      · intro he
        obtain rfl : j = k := by omega
        exact ⟨rfl, h⟩
      · rintro ⟨rfl, _⟩
        rfl
    next h =>
      constructor
      · intro he
        omega
      · rintro ⟨rfl, hk⟩
        exact absurd hk h

theorem afterProgress_le (run : List Glyph) (n : Nat) :
    afterProgress positions run n ≤ positions.length := by
  cases n with
  | zero => exact Nat.zero_le _
  | succ n =>
    rw [afterProgress]
    cases run[n]? with
    | none => exact Nat.zero_le _
    | some g =>
      rw [Option.map_some, Option.getD_some, afterAdvance]
      cases hp : placeOf? positions g with
      | none => exact Nat.zero_le _
      | some j =>
        have hj := placeOf?_lt hp
        dsimp only
        split <;> omega

/-- The word that ends the run is as far as its positions are spelled. -/
theorem afterProgress_iff (ha : Apart positions targets) {run : List Glyph} {n : Nat}
    (hn : n ≤ run.length) {k : Nat} (hk : k < positions.length) :
    afterProgress positions run n = k + 1 ↔
      endsIn (positions.take (k + 1)) (run.take n) = true := by
  induction n generalizing k with
  | zero =>
    have hne : positions.take (k + 1) ≠ [] := by
      rw [← List.length_pos_iff, List.length_take]
      omega
    simp [afterProgress, hne]
  | succ n ih =>
    have hg : run[n]? = some run[n] := List.getElem?_eq_getElem (by omega)
    have hp : positions[k]? = some positions[k] := List.getElem?_eq_getElem hk
    rw [afterProgress, hg, Option.map_some, Option.getD_some, afterAdvance_eq_succ ha,
      take_succ_of_getElem? hg, take_succ_of_getElem? hp, endsIn_concat, Bool.and_eq_true,
      Bool.or_eq_true, List.contains_iff_mem, ← take_succ_of_getElem? hp, ← ih (by omega) hk]
    have hplace : (∃ p, positions[k]? = some p ∧ run[n] ∈ p) ↔ run[n] ∈ positions[k] := by
      rw [hp]
      simp
    rw [hplace]
    apply and_congr_right
    intro _
    cases k with
    | zero => simp
    | succ k =>
      rw [← ih (by omega) (by omega)]
      omega

theorem chain_after_eq {patterns : List (List Glyph)} {entries : List (Glyph × Glyph)} :
    chain .after length patterns entries =
      (build (chainClasses (positionGlyphs patterns length) (entries.map Prod.fst))
        ((List.range' 1 length).map sawContext) (chainAfterRoutes length)
        (chainAfterTransitions length)).addSubstitution "Subst" entries := rfl

/-- A run gives the targets after a word over the positions their replacements. -/
theorem run_chainAfter {patterns : List (List Glyph)} {entries : List (Glyph × Glyph)}
    (hl : 0 < length)
    (ha : Apart (positionGlyphs patterns length) (entries.map Prod.fst)) (run : List Glyph) :
    (chain .after length patterns entries).run run = run.mapIdx fun i g =>
      if endsIn (positionGlyphs patterns length) (run.take i) then (entries.lookup g).getD g
      else g := by
  have hlen := length_positionGlyphs patterns length
  have hwhole : ∀ n, n ≤ run.length →
      decide (afterProgress (positionGlyphs patterns length) run n = length) =
        endsIn (positionGlyphs patterns length) (run.take n) := by
    intro n hn
    obtain ⟨k, rfl⟩ : ∃ k, length = k + 1 := ⟨length - 1, by omega⟩
    have hiff := afterProgress_iff ha hn (by omega : k < (positionGlyphs patterns (k + 1)).length)
    rw [List.take_of_length_le (by omega)] at hiff
    rw [Bool.eq_iff_iff, decide_eq_true_iff, hiff]
  rw [run_of_substituteCurrent "Subst"
    (fun n => afterChainState (afterProgress (positionGlyphs patterns length) run n))
    (fun n => decide (afterProgress (positionGlyphs patterns length) run n = length) &&
      run[n]?.any fun g => (entries.map Prod.fst).contains g) rfl]
  · apply mapIdx_congr
    intro i g hg
    have hi := (List.getElem?_eq_some_iff.mp hg).1
    rw [chain_after_eq, replace_build, hwhole i (by omega), hg, Option.any_some]
    by_cases ht : g ∈ entries.map Prod.fst
    · rw [List.contains_iff_mem.mpr ht, Bool.and_true]
    · simp [lookup_eq_none_of_not_mem ht]
  · intro n g hg
    have hread := reaction_chainAfter ha (by omega) ((List.range' 1 length).map sawContext)
      (afterProgress_le run n) g
    rw [hlen] at hread
    have he : (chain .after length patterns entries).reaction
        (afterChainState (afterProgress (positionGlyphs patterns length) run n)) g = _ := hread
    rw [he, hg, Option.any_some, afterProgress, hg]
    rfl

end StateTable

end Metamorphosis
