import Metamorphosis.Proofs.RuleGroup.Chain
import Metamorphosis.Proofs.StateTable.BetweenChain

namespace Metamorphosis

open CompileM

/-- Some rule has the glyph at an index of its first side. -/
def FirstAt (rules : List GlyphRule) (k : Nat) (g : Glyph) : Prop :=
  ∃ r ∈ rules, ∃ first second, r.sides? = some (first, second) ∧ first[k]? = some g

/-- Some rule has the glyph at an index of its second side. -/
def SecondAt (rules : List GlyphRule) (k : Nat) (g : Glyph) : Prop :=
  ∃ r ∈ rules, ∃ first second, r.sides? = some (first, second) ∧ second[k]? = some g

/-- The glyph is one of a position of the rules: of one of the first `n` before the target, of the
target itself, or of one of the first `m` after it. Positions are counted through. -/
inductive InPlace (rules : List GlyphRule) (n m : Nat) : Nat → Glyph → Prop
  | first {k : Nat} {g : Glyph} (hk : k < n) (h : FirstAt rules k g) : InPlace rules n m k g
  | target {g : Glyph} (h : IsTarget rules g) : InPlace rules n m n g
  | second {k : Nat} {g : Glyph} (hk : k < m) (h : SecondAt rules k g) :
    InPlace rules n m (n + 1 + k) g

/-- The glyphs of a run from `n` before an index to `m` after it are in place. -/
def InPlaceAround (rules : List GlyphRule) (n m : Nat) (run : List Glyph) (i : Nat) : Prop :=
  n ≤ i ∧ ∀ k, k ≤ n + m → ∃ g, run[i - n + k]? = some g ∧ InPlace rules n m k g

section Positions

variable {rules : List GlyphRule} {n m k : Nat} {g : Glyph}

/-- The positions that a group of rules is matched at. -/
def sidePositions (rules : List GlyphRule) (n m : Nat) : List MatchPosition :=
  StateTable.betweenPositions n m (rules.filterMap GlyphRule.sides?)
    ((firstReplacements (substitutions rules)).map Prod.fst)

theorem mem_filterMap_sides (side : List Glyph × List Glyph → List Glyph) :
    g ∈ ((rules.filterMap GlyphRule.sides?).map side).filterMap (fun glyphs => glyphs[k]?) ↔
      ∃ r ∈ rules, ∃ first second, r.sides? = some (first, second) ∧
        (side (first, second))[k]? = some g := by
  simp only [List.mem_filterMap, List.mem_map, Prod.exists]
  constructor
  · rintro ⟨_, ⟨first, second, ⟨r, hr, hs⟩, rfl⟩, hg⟩
    exact ⟨r, hr, first, second, hs, hg⟩
  · rintro ⟨r, hr, first, second, hs, hg⟩
    exact ⟨_, ⟨first, second, ⟨r, hr, hs⟩, rfl⟩, hg⟩

theorem inPlace_iff :
    InPlace rules n m k g ↔ k < n ∧ FirstAt rules k g ∨ k = n ∧ IsTarget rules g ∨
      n < k ∧ k < n + 1 + m ∧ SecondAt rules (k - (n + 1)) g := by
  constructor
  · intro h
    cases h with
    | first hk h => exact Or.inl ⟨hk, h⟩
    | target h => exact Or.inr (Or.inl ⟨rfl, h⟩)
    | @second j _ hj h =>
      refine Or.inr (Or.inr ⟨by omega, by omega, ?_⟩)
      rwa [Nat.add_sub_cancel_left]
  · rintro (⟨hk, h⟩ | ⟨rfl, h⟩ | ⟨hlt, hk, h⟩)
    · exact .first hk h
    · exact .target h
    · obtain ⟨j, rfl⟩ : ∃ j, k = n + 1 + j := ⟨k - (n + 1), by omega⟩
      rw [Nat.add_sub_cancel_left] at h
      exact .second (by omega) h

theorem mem_betweenGlyphs (hk : k < n + 1 + m) :
    g ∈ StateTable.betweenGlyphs n (rules.filterMap GlyphRule.sides?)
        ((firstReplacements (substitutions rules)).map Prod.fst) k ↔
      InPlace rules n m k g := by
  rw [inPlace_iff, StateTable.betweenGlyphs]
  split
  next hlt =>
    have hne : k ≠ n := by omega
    have hgt : ¬n < k := by omega
    rw [mem_filterMap_sides]
    simp only [hlt, hne, hgt, true_and, false_and, or_false]
    rfl
  next hlt =>
    split
    next he => simp [mem_keys_firstReplacements, mem_keys_substitutions, he]
    next hne =>
      have hgt : n < k := by omega
      rw [mem_filterMap_sides]
      simp only [hlt, hne, hgt, hk, true_and, false_and, false_or]
      rfl

theorem getElem?_sidePositions {p : MatchPosition} (hp : (sidePositions rules n m)[k]? = some p) :
    k < n + 1 + m ∧ p.className = StateTable.betweenClass n k ∧
      ∀ g, g ∈ p.glyphs ↔ InPlace rules n m k g := by
  rw [sidePositions, StateTable.betweenPositions_eq_map, List.getElem?_map] at hp
  obtain ⟨j, hj, rfl⟩ := Option.map_eq_some_iff.mp hp
  obtain ⟨hlt, rfl⟩ := List.getElem?_eq_some_iff.mp hj
  rw [List.length_range] at hlt
  rw [List.getElem_range]
  exact ⟨hlt, rfl, fun g => mem_glyphSet.trans (mem_betweenGlyphs hlt)⟩

theorem length_sidePositions : (sidePositions rules n m).length = n + 1 + m := by
  rw [sidePositions, StateTable.betweenPositions_eq_map, List.length_map, List.length_range]

theorem exists_sidePosition (hk : k < n + 1 + m) :
    ∃ p, (sidePositions rules n m)[k]? = some p ∧ ∀ g, g ∈ p.glyphs ↔ InPlace rules n m k g := by
  have hlt : k < (sidePositions rules n m).length := by rwa [length_sidePositions]
  have hp := List.getElem?_eq_getElem hlt
  exact ⟨_, hp, (getElem?_sidePositions hp).2.2⟩

theorem InPlace.lt (h : InPlace rules n m k g) : k < n + 1 + m := by
  rcases inPlace_iff.mp h with h | h | h <;> omega

/-- The positions share no glyph exactly if a glyph is in place at one of them only. -/
theorem sharedGlyph?_sidePositions :
    sharedGlyph? [] (sidePositions rules n m) = none ↔
      ∀ {i j : Nat} {g : Glyph}, InPlace rules n m i g → InPlace rules n m j g → i = j := by
  rw [StateTable.sharedGlyph?_eq_none_iff_unique]
  constructor
  · intro h i j g hi hj
    obtain ⟨p, hp, hgp⟩ := exists_sidePosition hi.lt
    obtain ⟨q, hq, hgq⟩ := exists_sidePosition hj.lt
    exact h hp hq ((hgp g).mpr hi) ((hgq g).mpr hj)
  · intro h i j p q g hp hq hgp hgq
    exact h (((getElem?_sidePositions hp).2.2 g).mp hgp) (((getElem?_sidePositions hq).2.2 g).mp hgq)

theorem sharedGlyph?_sidePositions_ne :
    sharedGlyph? [] (sidePositions rules n m) ≠ none ↔
      ∃ i j g, i ≠ j ∧ InPlace rules n m i g ∧ InPlace rules n m j g := by
  rw [ne_eq, sharedGlyph?_sidePositions]
  constructor
  · intro h
    by_contra hnone
    refine h fun {i j g} hi hj => ?_
    by_contra hne
    exact hnone ⟨i, j, g, hne, hi, hj⟩
  · rintro ⟨i, j, g, hne, hi, hj⟩ h
    exact hne (h hi hj)

theorem standsAt_sidePositions {run : List Glyph} {first : Nat} :
    StateTable.StandsAt ((sidePositions rules n m).map MatchPosition.glyphs) run first
        (n + m + 1) ↔
      ∀ k, k ≤ n + m → ∃ g, run[first + k]? = some g ∧ InPlace rules n m k g := by
  unfold StateTable.StandsAt
  apply forall_congr'
  intro k
  rw [Nat.lt_succ_iff]
  apply imp_congr_right
  intro hk
  have hlt : k < n + 1 + m := by omega
  obtain ⟨p, hp, hgp⟩ : ∃ p, (sidePositions rules n m)[k]? = some p ∧ _ := exists_sidePosition hlt
  simp [hp, hgp]

end Positions

section Groups

variable {rules : List GlyphRule} {n m : Nat}

theorem returns_betweenChain (hn : 0 < n) (hm : 0 < m)
    (hshared : sharedGlyph? [] (sidePositions rules n m) = none) :
    Returns (RuleGroup.betweenChain n m rules).subtables
      [⟨s!"between, {n}+{m}-glyph context", .contextual
        (StateTable.betweenChain n m (sidePositions rules n m)
          (firstReplacements (substitutions rules)))⟩] := by
  have hsides : ¬(n = 0 ∨ m = 0) := by omega
  unfold sidePositions at hshared ⊢
  unfold RuleGroup.subtables
  dsimp only
  rw [if_neg hsides]
  refine .bind (.merge _ _) ?_
  rw [hshared]
  exact .pure _

theorem fails_betweenChain :
    Fails (RuleGroup.betweenChain n m rules).subtables ↔
      n = 0 ∨ m = 0 ∨ sharedGlyph? [] (sidePositions rules n m) ≠ none := by
  constructor
  · intro hfails
    by_contra hnot
    obtain ⟨hn, hm, hshared⟩ : n ≠ 0 ∧ m ≠ 0 ∧ sharedGlyph? [] (sidePositions rules n m) = none := by
      simpa only [not_or, ne_eq, not_not] using hnot
    exact (returns_betweenChain (by omega) (by omega) hshared).not_fails hfails
  · intro h
    unfold sidePositions at h
    unfold RuleGroup.subtables
    dsimp only
    split
    next => exact .throw _
    next hsides =>
      have hne := (or_assoc.mpr h).resolve_left hsides
      obtain ⟨shared, hshared⟩ := Option.ne_none_iff_exists'.mp hne
      refine Returns.bind_fails (.merge _ _) ?_
      rw [hshared]
      exact .throw _

/-- A table without shared glyphs rewrites what is in place around a target. -/
theorem rewrites_betweenChain (hn : 0 < n) (hm : 0 < m)
    (hshared : sharedGlyph? [] (sidePositions rules n m) = none) :
    Rewrites (StateTable.betweenChain n m (sidePositions rules n m)
        (firstReplacements (substitutions rules))) rules
      fun run i _ => InPlaceAround rules n m run i := by
  have hl : (sidePositions rules n m).length = n + m + 1 := by rw [length_sidePositions]; omega
  have ha : StateTable.Apart ((sidePositions rules n m).map MatchPosition.glyphs) [] := by
    refine ⟨?_, fun _ _ _ _ => List.not_mem_nil⟩
    intro i j p q g hp hq hgp hgq
    rw [List.getElem?_map] at hp hq
    obtain ⟨p', hp', rfl⟩ := Option.map_eq_some_iff.mp hp
    obtain ⟨q', hq', rfl⟩ := Option.map_eq_some_iff.mp hq
    exact StateTable.sharedGlyph?_eq_none_iff_unique.mp hshared hp' hq' hgp hgq
  refine rewrites_of_run (StateTable.run_betweenChain hn hm hl
    (fun _ _ hp => (getElem?_sidePositions hp).2.1) ha _) ?_
  intro run i g hg
  rw [standsAt_sidePositions]
  refine ⟨fun h => ⟨?_, h⟩, And.right⟩
  -- the glyph itself is at the position of the target
  obtain ⟨hi, hall⟩ := h
  obtain ⟨g', hg', hplace⟩ := hall n (by omega)
  rw [Nat.sub_add_cancel hi] at hg'
  obtain rfl : g = g' := Option.some.inj (hg.symm.trans hg')
  rcases inPlace_iff.mp hplace with h | h | h
  · omega
  · exact h.2
  · omega

end Groups

/-- The group of `between` rules for `n` glyphs before and `m` after the target fails exactly if a
side is empty or some glyph is in place at two positions. Otherwise its table rewrites the glyphs
that have all positions around them. -/
theorem between_chain_rewrites_in_place (rules : List GlyphRule) (n m : Nat) :
    (Fails (RuleGroup.betweenChain n m rules).subtables ↔
      n = 0 ∨ m = 0 ∨ ∃ i j g, i ≠ j ∧ InPlace rules n m i g ∧ InPlace rules n m j g) ∧
    (¬Fails (RuleGroup.betweenChain n m rules).subtables →
      ∃ table, Returns (RuleGroup.betweenChain n m rules).subtables
          [⟨s!"between, {n}+{m}-glyph context", .contextual table⟩] ∧
        Rewrites table rules fun run i _ => InPlaceAround rules n m run i) := by
  refine ⟨fails_betweenChain.trans (by rw [sharedGlyph?_sidePositions_ne]), ?_⟩
  intro hsucceeds
  obtain ⟨hn, hm, hshared⟩ : n ≠ 0 ∧ m ≠ 0 ∧ sharedGlyph? [] (sidePositions rules n m) = none := by
    simpa only [fails_betweenChain, not_or, ne_eq, not_not] using hsucceeds
  exact ⟨_, returns_betweenChain (by omega) (by omega) hshared,
    rewrites_betweenChain (by omega) (by omega) hshared⟩

/-- Rules with two glyphs before their targets and one after, two of which have one target. -/
def enclosingRules : List GlyphRule :=
  [.single (.between ["a", "b"] ["c"]) "x" "y" 1, .single (.between ["d", "b"] ["e"]) "z" "w" 2,
    .single (.between ["f", "g"] ["e"]) "x" "q" 3]

/-- The positions may be those of several rules. -/
theorem between_chain_rewrites_in_place_enclosing :
    ¬Fails (RuleGroup.betweenChain 2 1 enclosingRules).subtables ∧
    ∃ table, Returns (RuleGroup.betweenChain 2 1 enclosingRules).subtables
        [⟨"between, 2+1-glyph context", .contextual table⟩] ∧
      (table.run ["a", "a", "g", "x", "e", "x"])[3]? = some "y" := by
  have hshared : sharedGlyph? [] (sidePositions enclosingRules 2 1) = none := by decide
  have hsucceeds : ¬Fails (RuleGroup.betweenChain 2 1 enclosingRules).subtables :=
    (returns_betweenChain (by decide) (by decide) hshared).not_fails
  obtain ⟨table, hreturns, hrewrites⟩ :=
    (between_chain_rewrites_in_place enclosingRules 2 1).2 hsucceeds
  have haround : InPlaceAround enclosingRules 2 1 ["a", "a", "g", "x", "e", "x"] 3 :=
    ⟨by decide, standsAt_sidePositions.mp (by decide)⟩
  obtain ⟨replacement, hlookup, hrun⟩ :=
    ((hrewrites ["a", "a", "g", "x", "e", "x"]).2 3 "x" rfl).1 haround
  obtain rfl : replacement = "y" := Option.some.inj (hlookup.symm.trans rfl)
  exact ⟨hsucceeds, table, hreturns, hrun⟩

end Metamorphosis
