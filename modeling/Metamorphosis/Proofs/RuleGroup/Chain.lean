import Metamorphosis.Proofs.RuleGroup.Shape
import Metamorphosis.Proofs.StateTable.Between
import Metamorphosis.Proofs.StateTable.ChainAfter
import Metamorphosis.Proofs.StateTable.ChainBefore

namespace Metamorphosis

open CompileM

section Rewriting

variable {table : StateTable} {rules : List GlyphRule}
  {chosen : List Glyph → Nat → Glyph → Prop}

/-- Over any run, the table gives the chosen glyphs the replacements that are listed first for them
and keeps all others. What is chosen depends on the run as it was. -/
def Rewrites (table : StateTable) (rules : List GlyphRule)
    (chosen : List Glyph → Nat → Glyph → Prop) : Prop :=
  ∀ run : List Glyph, (table.run run).length = run.length ∧
    ∀ i g, run[i]? = some g →
      (chosen run i g → ∃ replacement, (substitutions rules).lookup g = some replacement ∧
        (table.run run)[i]? = some replacement) ∧
      (¬chosen run i g → (table.run run)[i]? = some g)

/-- A table that looks glyphs up where a condition holds rewrites the targets there. -/
theorem rewrites_of_run {admits : List Glyph → Nat → Prop} [∀ run i, Decidable (admits run i)]
    (hrun : ∀ run, table.run run = run.mapIdx fun i g =>
      if admits run i then ((firstReplacements (substitutions rules)).lookup g).getD g else g)
    (hchosen : ∀ run i g, run[i]? = some g →
      (chosen run i g ↔ IsTarget rules g ∧ admits run i)) :
    Rewrites table rules chosen := by
  intro run
  refine ⟨StateTable.length_run table run, ?_⟩
  intro i g hg
  rw [hrun, List.getElem?_mapIdx, hg, Option.map_some, lookup_firstReplacements, hchosen run i g hg]
  constructor
  · rintro ⟨htarget, hadmits⟩
    obtain ⟨replacement, hr⟩ := exists_lookup_of_mem (mem_keys_substitutions.mpr htarget)
    exact ⟨replacement, hr, by rw [if_pos hadmits, hr, Option.getD_some]⟩
  · intro hnot
    by_cases hadmits : admits run i
    · have htarget : g ∉ (substitutions rules).map Prod.fst :=
        fun hmem => hnot ⟨mem_keys_substitutions.mp hmem, hadmits⟩
      rw [if_pos hadmits, lookup_eq_none_of_not_mem htarget, Option.getD_none]
    · rw [if_neg hadmits]

end Rewriting

/-- Some rule has the glyph at an index of its pattern. -/
def ContextAt (rules : List GlyphRule) (k : Nat) (g : Glyph) : Prop :=
  ∃ r ∈ rules, ∃ pattern, r.pattern? = some pattern ∧ pattern[k]? = some g

/-- No glyph is at two context positions, and none at a context position is a target. -/
structure RolesApart (rules : List GlyphRule) : Prop where
  unique : ∀ {i j : Nat} {g : Glyph}, ContextAt rules i g → ContextAt rules j g → i = j
  not_target : ∀ {i : Nat} {g : Glyph}, ContextAt rules i g → ¬IsTarget rules g

/-- A word over the first `n` context positions: one or more glyphs of each of them in turn. -/
def ContextWord (rules : List GlyphRule) (n : Nat) (word : List Glyph) : Prop :=
  ∃ blocks : List (List Glyph), blocks.length = n ∧ blocks.flatten = word ∧
    ∀ k block, blocks[k]? = some block → block ≠ [] ∧ ∀ g ∈ block, ContextAt rules k g

section Positions

variable {rules : List GlyphRule} {length k : Nat} {g : Glyph}

/-- The glyphs at the context positions of some rules. -/
def contextPositions (rules : List GlyphRule) (length : Nat) : List (List Glyph) :=
  StateTable.positionGlyphs (rules.filterMap GlyphRule.pattern?) length

theorem length_contextPositions : (contextPositions rules length).length = length :=
  StateTable.length_positionGlyphs _ length

theorem contextAt_iff :
    ContextAt rules k g ↔
      g ∈ (rules.filterMap GlyphRule.pattern?).filterMap fun pattern => pattern[k]? := by
  simp only [ContextAt, List.mem_filterMap]
  constructor
  · rintro ⟨r, hr, pattern, hp, hg⟩
    exact ⟨pattern, ⟨r, hr, hp⟩, hg⟩
  · rintro ⟨pattern, ⟨r, hr, hp⟩, hg⟩
    exact ⟨r, hr, pattern, hp, hg⟩

theorem mem_contextPositions {p : List Glyph} (hp : (contextPositions rules length)[k]? = some p) :
    g ∈ p ↔ ContextAt rules k g := by
  rw [(StateTable.getElem?_positionGlyphs.mp hp).2, contextAt_iff]

theorem contextPositions_succ :
    contextPositions rules (length + 1) = contextPositions rules length ++
      [(rules.filterMap GlyphRule.pattern?).filterMap fun pattern => pattern[length]?] := by
  simp [contextPositions, StateTable.positionGlyphs, List.range_succ]

theorem RolesApart.apart (h : RolesApart rules) :
    StateTable.Apart (contextPositions rules length)
      ((firstReplacements (substitutions rules)).map Prod.fst) := by
  refine ⟨?_, ?_⟩
  · intro i j p q g hp hq hgp hgq
    exact h.unique ((mem_contextPositions hp).mp hgp) ((mem_contextPositions hq).mp hgq)
  · intro p hp g hg
    obtain ⟨i, hi⟩ := List.mem_iff_getElem?.mp hp
    rw [mem_keys_firstReplacements, mem_keys_substitutions]
    exact h.not_target ((mem_contextPositions hi).mp hg)

theorem spells_contextPositions {word : List Glyph} :
    spells (contextPositions rules length) word = true ↔ ContextWord rules length word := by
  rw [spells_iff_blocks]
  apply exists_congr
  intro blocks
  have hlen : (contextPositions rules length).length = length := length_contextPositions
  rw [List.forall₂_iff_get]
  constructor
  · rintro ⟨hword, hblocks, h⟩
    refine ⟨hblocks.symm.trans hlen, hword, ?_⟩
    intro k block hk
    obtain ⟨hlt, rfl⟩ := List.getElem?_eq_some_iff.mp hk
    have hp : k < (contextPositions rules length).length := by omega
    obtain ⟨hne, hall⟩ := h k hp hlt
    exact ⟨hne, fun g hg => (mem_contextPositions (List.getElem?_eq_getElem hp)).mp (hall g hg)⟩
  · rintro ⟨hblocks, hword, h⟩
    refine ⟨hword, hlen.trans hblocks.symm, ?_⟩
    intro k hp hlt
    obtain ⟨hne, hall⟩ := h k _ (List.getElem?_eq_getElem hlt)
    exact ⟨hne, fun g hg => (mem_contextPositions (List.getElem?_eq_getElem hp)).mpr (hall g hg)⟩

/-- A beginning over the positions is over at the first glyph of the last. -/
theorem beginsWith_contextPositions {n : Nat} {glyphs : List Glyph} :
    beginsWith (contextPositions rules (n + 1)) glyphs = true ↔
      ∃ word last, word ++ [last] <+: glyphs ∧ ContextWord rules n word ∧
        ContextAt rules n last := by
  rw [contextPositions_succ, beginsWith_concat]
  simp only [spells_contextPositions, ← contextAt_iff]
  constructor
  · rintro ⟨word, last, after, rfl, hword, hlast⟩
    exact ⟨word, last, ⟨after, by simp⟩, hword, hlast⟩
  · rintro ⟨word, last, ⟨after, rfl⟩, hword, hlast⟩
    exact ⟨word, last, after, by simp, hword, hlast⟩

end Positions

section Groups

variable {side : Side} {rules : List GlyphRule} {length : Nat}

/-- Rules whose patterns have one length of two or more make a table. -/
theorem returns_chain (hne : rules ≠ []) (hl : 2 ≤ length)
    (hpatterns : ∀ r ∈ rules, ∃ pattern, r.pattern? = some pattern ∧ pattern.length = length) :
    Returns (RuleGroup.chain side rules).subtables
      [⟨s!"{side.text}, {length}-glyph context", .contextual
        (StateTable.chain side length (rules.filterMap GlyphRule.pattern?)
          (firstReplacements (substitutions rules)))⟩] := by
  have hlength : chainLength side rules = .ok length := by
    obtain ⟨r, rest, rfl⟩ := List.exists_cons_of_ne_nil hne
    obtain ⟨pattern, hp, hlen⟩ := hpatterns r List.mem_cons_self
    refine chainLength_eq_ok.mpr ⟨hl, ?_⟩
    rw [List.head?_cons, Option.bind_some, hp, Option.getD_some, hlen]
  unfold RuleGroup.subtables
  dsimp only
  rw [hlength]
  exact .bind (.pure _) (.bind (.merge _ _) (.pure _))

end Groups

/-- The table of `after` rules with patterns of one length rewrites the targets that stand right
after a word over the context positions. -/
theorem after_chain_rewrites_behind_words (rules : List GlyphRule) (length : Nat)
    (hne : rules ≠ []) (hl : 2 ≤ length)
    (hrules : ∀ r ∈ rules, ∃ pattern, r.site = .context (.after pattern) ∧
      pattern.length = length)
    (hapart : RolesApart rules) :
    ∃ table, Returns (RuleGroup.chain .after rules).subtables
        [⟨s!"after, {length}-glyph context", .contextual table⟩] ∧
      Rewrites table rules fun run i g => IsTarget rules g ∧
        ∃ word, word <:+ run.take i ∧ ContextWord rules length word := by
  refine ⟨_, returns_chain hne hl fun r hr => ?_, ?_⟩
  · obtain ⟨pattern, hsite, hlen⟩ := hrules r hr
    exact ⟨pattern, by rw [GlyphRule.pattern?, hsite], hlen⟩
  refine rewrites_of_run (StateTable.run_chainAfter (Nat.zero_lt_of_lt hl) hapart.apart) ?_
  intro run i g _
  simp only [← spells_contextPositions]
  exact and_congr_right fun _ => endsIn_eq_true.symm

/-- Three rules of one context length, two of which have one target. -/
def crossedRules (context : List Glyph → Context Glyph) : List GlyphRule :=
  [.single (context ["a", "b"]) "x" "y" 1, .single (context ["c", "d"]) "z" "w" 2,
    .single (context ["e", "f"]) "x" "q" 3]

theorem rolesApart_crossedRules {context : List Glyph → Context Glyph}
    (hpatterns : (crossedRules context).filterMap GlyphRule.pattern? =
      [["a", "b"], ["c", "d"], ["e", "f"]]) :
    RolesApart (crossedRules context) := by
  have hcontext : ∀ {k g}, ContextAt (crossedRules context) k g →
      k = 0 ∧ g ∈ ["a", "c", "e"] ∨ k = 1 ∧ g ∈ ["b", "d", "f"] := by
    intro k g h
    rw [contextAt_iff, hpatterns] at h
    rcases k with _ | _ | k
    · exact Or.inl ⟨rfl, h⟩
    · exact Or.inr ⟨rfl, h⟩
    · simp at h
  have hplaces : ∀ g ∈ ["a", "c", "e"], g ∉ ["b", "d", "f"] := by decide
  have htargets : ∀ g ∈ ["a", "c", "e"] ++ ["b", "d", "f"], g ∉ ["x", "z", "x"] := by decide
  refine ⟨?_, ?_⟩
  · intro i j g hi hj
    rcases hcontext hi with ⟨rfl, hg⟩ | ⟨rfl, hg⟩ <;>
      rcases hcontext hj with ⟨rfl, hg'⟩ | ⟨rfl, hg'⟩
    · rfl
    · exact absurd hg' (hplaces g hg)
    · exact absurd hg (hplaces g hg')
    · rfl
  · intro i g hi
    rw [← mem_keys_substitutions]
    exact htargets g (List.mem_append.mpr ((hcontext hi).imp And.right And.right))

/-- The word may take its positions from several rules. -/
theorem after_chain_rewrites_behind_words_crossed :
    RolesApart (crossedRules .after) ∧
    ∃ table, Returns (RuleGroup.chain .after (crossedRules .after)).subtables
        [⟨"after, 2-glyph context", .contextual table⟩] ∧
      (table.run ["b", "a", "c", "d", "b", "x", "x"])[5]? = some "y" := by
  have hrules : ∀ r ∈ crossedRules .after, ∃ pattern,
      r.site = .context (.after pattern) ∧ pattern.length = 2 := by
    simp [crossedRules, GlyphRule.single]
  have hapart : RolesApart (crossedRules .after) := rolesApart_crossedRules rfl
  obtain ⟨table, hreturns, hrewrites⟩ := after_chain_rewrites_behind_words (crossedRules .after) 2
    (by decide) (by decide) hrules hapart
  have hword : ContextWord (crossedRules .after) 2 ["a", "c", "d", "b"] :=
    spells_contextPositions.mp (by decide)
  obtain ⟨replacement, hlookup, hrun⟩ := ((hrewrites ["b", "a", "c", "d", "b", "x", "x"]).2 5 "x"
    rfl).1 ⟨mem_keys_substitutions.mp (by decide), _, ⟨["b"], rfl⟩, hword⟩
  obtain rfl : replacement = "y" := Option.some.inj (hlookup.symm.trans rfl)
  exact ⟨hapart, table, hreturns, hrun⟩

/-- The table of `before` rules with patterns of one length rewrites the targets right after which
a word over all context positions but the last stands, and then a glyph of the last. -/
theorem before_chain_rewrites_ahead_of_words (rules : List GlyphRule) (length : Nat)
    (hne : rules ≠ []) (hl : 2 ≤ length)
    (hrules : ∀ r ∈ rules, ∃ pattern, r.site = .context (.before pattern) ∧
      pattern.length = length)
    (hapart : RolesApart rules) :
    ∃ table, Returns (RuleGroup.chain .before rules).subtables
        [⟨s!"before, {length}-glyph context", .contextual table⟩] ∧
      Rewrites table rules fun run i g => IsTarget rules g ∧
        ∃ word last, word ++ [last] <+: run.drop (i + 1) ∧ ContextWord rules (length - 1) word ∧
          ContextAt rules (length - 1) last := by
  refine ⟨_, returns_chain hne hl fun r hr => ?_, ?_⟩
  · obtain ⟨pattern, hsite, hlen⟩ := hrules r hr
    exact ⟨pattern, by rw [GlyphRule.pattern?, hsite], hlen⟩
  refine rewrites_of_run (StateTable.run_chainBefore (Nat.zero_lt_of_lt hl) hapart.apart) ?_
  intro run i g _
  obtain ⟨n, rfl⟩ : ∃ n, length = n + 1 := ⟨length - 1, by omega⟩
  exact and_congr_right fun _ => beginsWith_contextPositions.symm

theorem before_chain_rewrites_ahead_of_words_crossed :
    RolesApart (crossedRules .before) ∧
    ∃ table, Returns (RuleGroup.chain .before (crossedRules .before)).subtables
        [⟨"before, 2-glyph context", .contextual table⟩] ∧
      (table.run ["x", "x", "a", "c", "d", "b"])[1]? = some "y" := by
  have hrules : ∀ r ∈ crossedRules .before, ∃ pattern,
      r.site = .context (.before pattern) ∧ pattern.length = 2 := by
    simp [crossedRules, GlyphRule.single]
  have hapart : RolesApart (crossedRules .before) := rolesApart_crossedRules rfl
  obtain ⟨table, hreturns, hrewrites⟩ := before_chain_rewrites_ahead_of_words
    (crossedRules .before) 2 (by decide) (by decide) hrules hapart
  have hword : ContextWord (crossedRules .before) 1 ["a", "c"] :=
    spells_contextPositions.mp (by decide)
  have hlast : ContextAt (crossedRules .before) 1 "d" := contextAt_iff.mpr (by decide)
  obtain ⟨replacement, hlookup, hrun⟩ := ((hrewrites ["x", "x", "a", "c", "d", "b"]).2 1 "x"
    rfl).1 ⟨mem_keys_substitutions.mp (by decide), _, _, ⟨["b"], rfl⟩, hword, hlast⟩
  obtain rfl : replacement = "y" := Option.some.inj (hlookup.symm.trans rfl)
  exact ⟨hapart, table, hreturns, hrun⟩

end Metamorphosis
