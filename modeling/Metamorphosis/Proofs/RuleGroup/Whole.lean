import Metamorphosis.Proofs.RuleGroup.Chain
import Metamorphosis.Proofs.StateTable.Whole

namespace Metamorphosis

open CompileM

/-- A `when` rule with one substitution, for a pattern of a length that has the target at an index
and not before it. -/
def GlyphRule.HasShape (r : GlyphRule) (length index : Nat) : Prop :=
  ∃ pattern target replacement, r.site = .context (.when pattern) ∧
    r.pairs = [(target, replacement)] ∧ pattern.length = length ∧
    pattern.idxOf? target = some index

/-- No glyph is at two positions of the patterns. -/
def PositionsApart (rules : List GlyphRule) : Prop :=
  ∀ {i j : Nat} {g : Glyph}, ContextAt rules i g → ContextAt rules j g → i = j

/-- The run from an index on has a glyph of each of the first `length` positions. -/
def InPositions (rules : List GlyphRule) (length : Nat) (run : List Glyph) (first : Nat) : Prop :=
  ∀ k, k < length → ∃ g, run[first + k]? = some g ∧ ContextAt rules k g

section Shapes

variable {rules : List GlyphRule} {length index : Nat}

theorem shape_eq_ok_iff {r : GlyphRule} {pattern : List Glyph} {target replacement : Glyph}
    (hsite : r.site = .context (.when pattern)) (hpairs : r.pairs = [(target, replacement)]) :
    r.shape = .ok (length, index) ↔ 2 ≤ length ∧ r.HasShape length index := by
  have hpattern : r.pattern?.getD [] = pattern := by rw [GlyphRule.pattern?, hsite, Option.getD_some]
  have htarget : r.target = target := by rw [GlyphRule.target, hpairs]; rfl
  rw [shape_eq_ok, hpattern, htarget]
  apply and_congr_right
  intro _
  constructor
  · rintro ⟨hlen, hindex⟩
    exact ⟨pattern, target, replacement, hsite, hpairs, hlen, hindex⟩
  · rintro ⟨pattern', target', replacement', hsite', hpairs', hlen, hindex⟩
    cases hsite.symm.trans hsite'
    cases hpairs.symm.trans hpairs'
    exact ⟨hlen, hindex⟩

theorem GlyphRule.HasShape.index_lt {r : GlyphRule} (h : r.HasShape length index) :
    index < length := by
  obtain ⟨pattern, target, _, _, _, rfl, hindex⟩ := h
  exact (List.idxOf?_eq_some_iff.mp hindex).1

/-- A glyph at the index of the targets is a target. -/
theorem isTarget_of_contextAt (hshape : ∀ r ∈ rules, r.HasShape length index) {g : Glyph}
    (h : ContextAt rules index g) : IsTarget rules g := by
  obtain ⟨r, hr, pattern, hp, hg⟩ := h
  obtain ⟨pattern', target, replacement, hsite, hpairs, _, hindex⟩ := hshape r hr
  rw [GlyphRule.pattern?, hsite] at hp
  cases hp
  obtain ⟨hlt, hat, _⟩ := List.idxOf?_eq_some_iff.mp hindex
  rw [List.getElem?_eq_getElem hlt, hat, Option.some.injEq] at hg
  rw [← hg]
  exact ⟨r, hr, replacement, by rw [hpairs]; exact List.mem_singleton.mpr rfl⟩

/-- Rules share a shape exactly if one is found for all of them. -/
theorem commonShape_eq_ok_iff (hne : rules ≠ [])
    (hrules : ∀ r ∈ rules, ∃ pattern target replacement, r.site = .context (.when pattern) ∧
      r.pairs = [(target, replacement)]) :
    commonShape rules = .ok (length, index) ↔
      2 ≤ length ∧ ∀ r ∈ rules, r.HasShape length index := by
  rw [commonShape_eq_ok]
  constructor
  · rintro ⟨_, hshape⟩
    refine ⟨two_le_of_commonShape (commonShape_eq_ok.mpr ⟨hne, hshape⟩), fun r hr => ?_⟩
    obtain ⟨pattern, target, replacement, hsite, hpairs⟩ := hrules r hr
    exact ((shape_eq_ok_iff hsite hpairs).mp (hshape r hr)).2
  · rintro ⟨hl, hshape⟩
    refine ⟨hne, fun r hr => ?_⟩
    obtain ⟨pattern, target, replacement, hsite, hpairs⟩ := hrules r hr
    exact (shape_eq_ok_iff hsite hpairs).mpr ⟨hl, hshape r hr⟩

end Shapes

section Groups

variable {rules : List GlyphRule} {length index : Nat}

theorem returns_whole (h : commonShape rules = .ok (length, index)) :
    Returns (RuleGroup.whole rules).subtables
      [⟨s!"when, {length}-glyph pattern", .contextual
        (StateTable.whole length index (rules.filterMap GlyphRule.pattern?)
          (firstReplacements (substitutions rules)))⟩] := by
  unfold RuleGroup.subtables
  dsimp only
  rw [h]
  exact .bind (.pure _) (.bind (.merge _ _) (.pure _))

theorem fails_whole :
    Fails (RuleGroup.whole rules).subtables ↔ ∀ shape, commonShape rules ≠ .ok shape := by
  constructor
  · rintro hfails ⟨length, index⟩ h
    exact (returns_whole h).not_fails hfails
  · intro h
    unfold RuleGroup.subtables
    dsimp only
    cases hc : commonShape rules with
    | ok shape => exact absurd hc (h shape)
    | error fault => exact .bind (.throw _) _

theorem standsAt_contextPositions {run : List Glyph} {first : Nat} :
    StateTable.StandsAt (contextPositions rules length) run first length ↔
      InPositions rules length run first := by
  unfold StateTable.StandsAt InPositions
  apply forall₂_congr
  intro k hk
  have hlt : k < (contextPositions rules length).length := by rwa [length_contextPositions]
  have hp := List.getElem?_eq_getElem hlt
  simp [hp, mem_contextPositions hp]

theorem exists_contextPosition (hshape : ∀ r ∈ rules, r.HasShape length index) {k : Nat} {g : Glyph}
    (h : ContextAt rules k g) : ∃ p, (contextPositions rules length)[k]? = some p ∧ g ∈ p := by
  obtain ⟨r, hr, pattern, hp, hg⟩ := h
  obtain ⟨pattern', _, _, hsite, _, hlen, _⟩ := hshape r hr
  rw [GlyphRule.pattern?, hsite] at hp
  cases hp
  have hlt : k < (contextPositions rules length).length := by
    rw [length_contextPositions, ← hlen]
    exact (List.getElem?_eq_some_iff.mp hg).1
  have hk := List.getElem?_eq_getElem hlt
  exact ⟨_, hk, (mem_contextPositions hk).mpr ⟨r, hr, _, by rw [GlyphRule.pattern?, hsite], hg⟩⟩

/-- Positions are apart if no two of them share a glyph, which can be checked. -/
theorem positionsApart_of_pairwise (hshape : ∀ r ∈ rules, r.HasShape length index)
    (h : (contextPositions rules length).Pairwise fun p q => ∀ g ∈ p, g ∉ q) :
    PositionsApart rules := by
  intro i j g hi hj
  obtain ⟨p, hp, hgp⟩ := exists_contextPosition hshape hi
  obtain ⟨q, hq, hgq⟩ := exists_contextPosition hshape hj
  obtain ⟨hi', rfl⟩ := List.getElem?_eq_some_iff.mp hp
  obtain ⟨hj', rfl⟩ := List.getElem?_eq_some_iff.mp hq
  rw [List.pairwise_iff_getElem] at h
  rcases Nat.lt_trichotomy i j with hlt | he | hlt
  · exact absurd hgq (h i j hi' hj' hlt g hgp)
  · exact he
  · exact absurd hgp (h j i hj' hi' hlt g hgq)

/-- Patterns without a glyph at two positions have their targets rewritten where they stand. -/
theorem rewrites_whole (hne : rules ≠ []) (hshape : ∀ r ∈ rules, r.HasShape length index)
    (hapart : PositionsApart rules) :
    Rewrites (StateTable.whole length index (rules.filterMap GlyphRule.pattern?)
        (firstReplacements (substitutions rules))) rules
      fun run i _ => index ≤ i ∧ InPositions rules length run (i - index) := by
  have hlt : index < length := by
    obtain ⟨r, hr⟩ := List.exists_mem_of_ne_nil rules hne
    exact (hshape r hr).index_lt
  have ha : StateTable.Apart (contextPositions rules length) [] := by
    refine ⟨?_, fun _ _ _ _ => List.not_mem_nil⟩
    intro i j p q g hp hq hgp hgq
    exact hapart ((mem_contextPositions hp).mp hgp) ((mem_contextPositions hq).mp hgq)
  refine rewrites_of_run (StateTable.run_whole hlt ha) ?_
  intro run i g hg
  rw [← contextPositions, standsAt_contextPositions]
  refine ⟨fun h => ⟨?_, h⟩, And.right⟩
  -- the glyph itself is at the index of the targets
  obtain ⟨hi, hall⟩ := h
  obtain ⟨g', hg', hat⟩ := hall index hlt
  rw [Nat.sub_add_cancel hi] at hg'
  obtain rfl : g = g' := Option.some.inj (hg.symm.trans hg')
  exact isTarget_of_contextAt hshape hat

end Groups

/-- A group of `when` rules with one substitution each fails exactly if its patterns do not share a
length of two or more and the index at which their targets stand first. Otherwise it has a table,
and if no glyph is at two positions of the patterns, the table rewrites the glyphs that have all
positions around them. -/
theorem whole_rewrites_in_positions (rules : List GlyphRule) (hne : rules ≠ [])
    (hrules : ∀ r ∈ rules, ∃ pattern target replacement, r.site = .context (.when pattern) ∧
      r.pairs = [(target, replacement)]) :
    (Fails (RuleGroup.whole rules).subtables ↔
      ¬∃ length index, 2 ≤ length ∧ ∀ r ∈ rules, r.HasShape length index) ∧
    ∀ length index, 2 ≤ length → (∀ r ∈ rules, r.HasShape length index) →
      ∃ table, Returns (RuleGroup.whole rules).subtables
          [⟨s!"when, {length}-glyph pattern", .contextual table⟩] ∧
        (PositionsApart rules → Rewrites table rules fun run i _ =>
          index ≤ i ∧ InPositions rules length run (i - index)) := by
  constructor
  · rw [fails_whole]
    simp only [Prod.forall, ne_eq, commonShape_eq_ok_iff hne hrules, not_exists]
  · intro length index hl hshape
    exact ⟨_, returns_whole ((commonShape_eq_ok_iff hne hrules).mpr ⟨hl, hshape⟩),
      rewrites_whole hne hshape⟩

/-- Rules with the target between two glyphs, two of which have one target. -/
def spanningRules : List GlyphRule :=
  [.single (.when ["a", "b", "c"]) "b" "x" 1, .single (.when ["d", "e", "f"]) "e" "y" 2,
    .single (.when ["d", "b", "f"]) "b" "z" 3]

theorem hasShape_spanningRules : ∀ r ∈ spanningRules, r.HasShape 3 1 := by
  simp only [spanningRules, List.forall_mem_cons, List.not_mem_nil, false_imp_iff, implies_true,
    and_true]
  exact ⟨⟨_, _, _, rfl, rfl, rfl, rfl⟩, ⟨_, _, _, rfl, rfl, rfl, rfl⟩, ⟨_, _, _, rfl, rfl, rfl, rfl⟩⟩

/-- The positions may be those of several rules, and the mark of a match that was dropped is not
rewritten. -/
theorem whole_rewrites_in_positions_crossed :
    PositionsApart spanningRules ∧
    ∃ table, Returns (RuleGroup.whole spanningRules).subtables
        [⟨"when, 3-glyph pattern", .contextual table⟩] ∧
      (table.run ["a", "b", "d", "b", "c", "b"])[3]? = some "x" ∧
      (table.run ["a", "b", "d", "b", "c", "b"])[1]? = some "b" := by
  have hshape := hasShape_spanningRules
  have hapart : PositionsApart spanningRules := positionsApart_of_pairwise hshape (by decide)
  have hrules : ∀ r ∈ spanningRules, ∃ pattern target replacement,
      r.site = .context (.when pattern) ∧ r.pairs = [(target, replacement)] := by
    intro r hr
    obtain ⟨pattern, target, replacement, hsite, hpairs, _⟩ := hshape r hr
    exact ⟨pattern, target, replacement, hsite, hpairs⟩
  obtain ⟨table, hreturns, hrewrites⟩ :=
    (whole_rewrites_in_positions spanningRules (by decide) hrules).2 3 1 (by decide) hshape
  have hrun := (hrewrites hapart ["a", "b", "d", "b", "c", "b"]).2
  have hstands : InPositions spanningRules 3 ["a", "b", "d", "b", "c", "b"] (3 - 1) :=
    standsAt_contextPositions.mp (by decide)
  have hdropped : ¬InPositions spanningRules 3 ["a", "b", "d", "b", "c", "b"] (1 - 1) :=
    fun h => absurd (standsAt_contextPositions.mpr h) (by decide)
  obtain ⟨replacement, hlookup, hthird⟩ := (hrun 3 "b" rfl).1 ⟨by decide, hstands⟩
  obtain rfl : replacement = "x" := Option.some.inj (hlookup.symm.trans rfl)
  exact ⟨hapart, table, hreturns, hthird, (hrun 1 "b" rfl).2 fun h => hdropped h.2⟩

end Metamorphosis
