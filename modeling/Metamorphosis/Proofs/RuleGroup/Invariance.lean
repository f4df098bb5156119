import Metamorphosis.Proofs.Growth
import Metamorphosis.Proofs.RuleGroup.Shape
import Metamorphosis.Proofs.StateTable.Members

namespace Metamorphosis

open CompileM

namespace RuleGroup

section Keys

variable {rules rules' : List GlyphRule}

theorem mem_filterMap_congr {β : Type} (h : ∀ r, r ∈ rules ↔ r ∈ rules')
    (part? : GlyphRule → Option β) (b : β) :
    b ∈ rules.filterMap part? ↔ b ∈ rules'.filterMap part? := by
  simp only [List.mem_filterMap, h]

theorem any_congr (h : ∀ r, r ∈ rules ↔ r ∈ rules') (test : GlyphRule → Bool) :
    rules.any test = rules'.any test := by
  rw [Bool.eq_iff_iff, List.any_eq_true, List.any_eq_true]
  simp only [h]

theorem adjacentKeys_congr (h : ∀ r, r ∈ rules ↔ r ∈ rules') (side : Side) :
    adjacentKeys side rules = adjacentKeys side rules' := by
  have hpatterns := mem_filterMap_congr h (GlyphRule.adjacentPattern? side)
  have hlengths :
      sortDistinct Nat.blt ((rules.filterMap (GlyphRule.adjacentPattern? side)).map List.length) =
        sortDistinct Nat.blt
          ((rules'.filterMap (GlyphRule.adjacentPattern? side)).map List.length) := by
    apply sortDistinct_congr natBlt_orders
    intro n
    simp only [List.mem_map, hpatterns]
  have hheads : ∀ length : Nat,
      glyphSet (((rules.filterMap (GlyphRule.adjacentPattern? side)).filter
        fun p => p.length == length).map fun p => p.headD "") =
      glyphSet (((rules'.filterMap (GlyphRule.adjacentPattern? side)).filter
        fun p => p.length == length).map fun p => p.headD "") := by
    intro length
    apply glyphSet_congr
    intro g
    simp only [List.mem_map, List.mem_filter, hpatterns]
  simp only [adjacentKeys, hlengths, hheads]

/-- The same rules have the same keys in the same order. -/
theorem keys_congr (h : ∀ r, r ∈ rules ↔ r ∈ rules') :
    leadingKeys rules ++ otherKeys rules = leadingKeys rules' ++ otherKeys rules' := by
  have hbetween : betweenKeys rules = betweenKeys rules' := by
    rw [betweenKeys, betweenKeys,
      sortDistinct_congr pairPrecedes_orders (mem_filterMap_congr h GlyphRule.sideLengths?)]
  have hnamed : namedKeys rules = namedKeys rules' := by
    have hcleanups : ∀ r, r ∈ rules.filter GlyphRule.isCleanup ↔
        r ∈ rules'.filter GlyphRule.isCleanup := by
      intro r
      rw [List.mem_filter, List.mem_filter, h]
    rw [namedKeys, namedKeys,
      sortDistinct_congr precedes_orders (mem_filterMap_congr hcleanups GlyphRule.group)]
  rw [leadingKeys, leadingKeys, adjacentKeys_congr h, adjacentKeys_congr h, hbetween, hnamed,
    wholeKeys, wholeKeys, any_congr h, otherKeys, otherKeys, any_congr h]

end Keys

section Single

variable {rules : List GlyphRule}

theorem takesPasses_of_single {r : GlyphRule} (h : r.pairs.length ≤ 1) : r.takesPasses = false := by
  have hone : r.isMultiPass = false := by
    rw [GlyphRule.isMultiPass, decide_eq_false_iff_not]
    omega
  rw [GlyphRule.takesPasses, hone, Bool.false_and]

/-- Rules with one substitution each are in the groups of their keys. -/
theorem ofRules_of_single (h : ∀ r ∈ rules, r.pairs.length ≤ 1) :
    ofRules rules = (leadingKeys rules ++ otherKeys rules).map (ofKey rules) := by
  have hpasses : rules.filter GlyphRule.takesPasses = [] := by
    rw [List.filter_eq_nil_iff]
    intro r hr
    rw [takesPasses_of_single (h r hr)]
    exact Bool.false_ne_true
  rw [ofRules_eq, passGroups, hpasses, List.map_append]
  simp

theorem filter_isOf_of_single (h : ∀ r ∈ rules, r.pairs.length ≤ 1) (key : GroupKey) :
    rules.filter (GlyphRule.isOf key) = rules.filter fun r => r.groupKey == key := by
  apply List.filter_congr
  intro r hr
  rw [GlyphRule.isOf, takesPasses_of_single (h r hr), Bool.not_false, Bool.true_and]

end Single

/-- The same rules in any order and number, with the same first replacement of each target. -/
structure SameRules (rules rules' : List GlyphRule) : Prop where
  mem_iff : ∀ r, r ∈ rules ↔ r ∈ rules'
  first : ∀ target, (substitutions rules).lookup target = (substitutions rules').lookup target

namespace SameRules

variable {shared shared' : List GlyphRule} (h : SameRules shared shared')
include h

theorem merge (description : String) :
    Agree (merge description (substitutions shared)) (merge description (substitutions shared')) :=
  .merge description (firstReplacements_congr h.first)

theorem agree_between : Agree (between shared).subtables (between shared').subtables := by
  refine .bind (h.merge _) fun entries => ?_
  have hsides := mem_filterMap_congr h.mem_iff GlyphRule.sides?
  have htable : StateTable.between
      ((shared.filterMap GlyphRule.sides?).flatMap Prod.fst)
      ((shared.filterMap GlyphRule.sides?).flatMap Prod.snd) entries =
    StateTable.between
      ((shared'.filterMap GlyphRule.sides?).flatMap Prod.fst)
      ((shared'.filterMap GlyphRule.sides?).flatMap Prod.snd) entries := by
    apply StateTable.between_congr
    · intro g
      simp only [List.mem_flatMap, hsides]
    · intro g
      simp only [List.mem_flatMap, hsides]
  dsimp only
  rw [htable]
  exact .pure _

theorem agree_betweenChain (n m : Nat) :
    Agree (betweenChain n m shared).subtables (betweenChain n m shared').subtables := by
  unfold subtables
  dsimp only
  split
  next => exact .throw _ _
  next =>
    refine .bind (h.merge _) fun entries => ?_
    rw [StateTable.betweenPositions_congr (mem_filterMap_congr h.mem_iff GlyphRule.sides?)]
    split
    next => exact .throw _ _
    next => exact .pure _

theorem agree_whole : Agree (whole shared).subtables (whole shared').subtables := by
  have hshape : ∀ shape, commonShape shared = .ok shape ↔ commonShape shared' = .ok shape := by
    intro shape
    have hnil : shared = [] ↔ shared' = [] := by
      rw [List.eq_nil_iff_forall_not_mem, List.eq_nil_iff_forall_not_mem]
      simp only [h.mem_iff]
    rw [commonShape_eq_ok, commonShape_eq_ok, ne_eq, hnil]
    simp only [h.mem_iff]
  refine .bind (.inTable hshape) fun shape => .bind (h.merge _) fun entries => ?_
  have hpatterns := mem_filterMap_congr h.mem_iff GlyphRule.pattern?
  rw [StateTable.whole_congr hpatterns shape.1 shape.2 entries]
  exact .pure _

theorem agree_chain {side : Side} (hlength : chainLength side shared = chainLength side shared') :
    Agree (chain side shared).subtables (chain side shared').subtables := by
  have hsame : ∀ length, chainLength side shared = .ok length ↔
      chainLength side shared' = .ok length := by
    intro length
    rw [hlength]
  refine .bind (.inTable hsame) fun length => .bind (h.merge _) fun entries => ?_
  rw [StateTable.chain_congr (mem_filterMap_congr h.mem_iff GlyphRule.pattern?)]
  exact .pure _

end SameRules

/-- Groups of the same rules have the same subtables, or none. -/
theorem agree_ofKey {rules rules' : List GlyphRule} {key : GroupKey}
    (hsome : ∃ r ∈ rules, r.isOf key = true)
    (h : SameRules (rules.filter (GlyphRule.isOf key)) (rules'.filter (GlyphRule.isOf key))) :
    Agree (ofKey rules key).subtables (ofKey rules' key).subtables := by
  cases key with
  | adjacent side glyph => exact .bind (h.merge _) fun _ => .pure _
  | chain side length =>
    have hsome' : ∃ r ∈ rules', r.isOf (.chain side length) = true := by
      obtain ⟨r, hr⟩ := hsome
      exact ⟨r, List.mem_filter.mp ((h.mem_iff r).mp (List.mem_filter.mpr hr))⟩
    exact h.agree_chain ((chainLength_filter hsome).trans (chainLength_filter hsome').symm)
  | between n m =>
    unfold ofKey GroupKey.group
    dsimp only
    split
    next => exact h.agree_between
    next => exact h.agree_betweenChain n m
  | whole => exact h.agree_whole
  | cleanup id =>
    cases id with
    | none => exact .bind (h.merge _) fun _ => .pure _
    | some id => exact .bind (h.merge _) fun _ => .pure _

end RuleGroup

/-- Rules with one substitution each need no temporary glyph. -/
theorem composed_synthesize (config : Config) {rules : List GlyphRule}
    (h : ∀ r ∈ rules, r.pairs.length ≤ 1) : Composed False (GlyphRule.synthesize config rules) := by
  have hgroup : ∀ group ∈ RuleGroup.ofRules rules, Composed False group.announced := by
    intro group hgroup
    rw [RuleGroup.ofRules_of_single h] at hgroup
    obtain ⟨key, _, rfl⟩ := List.mem_map.mp hgroup
    apply RuleGroup.composed_announced_of
    apply RuleGroup.composed_subtables
    intro ordinal r he
    exact absurd he (RuleGroup.ofKey_ne_multiPass rules key ordinal r)
  exact .bind (.bind (.report _) fun _ => .bind (.mapM hgroup) fun _ => .pure _) fun _ => .pure _

/-- The text of rules with one substitution each, and whether there is one, depends on the set of
the rules and on the first replacement of each target in each group; no temporary glyph is handed
out. -/
theorem synthesize_order_irrelevant {rules rules' : List GlyphRule}
    (hsingle : ∀ r ∈ rules, r.pairs.length ≤ 1) (hmem : ∀ r, r ∈ rules ↔ r ∈ rules')
    (hfirst : ∀ key target,
      (substitutions (rules.filter fun r => r.groupKey == key)).lookup target =
        (substitutions (rules'.filter fun r => r.groupKey == key)).lookup target)
    (config : Config) (s s' : Session) :
    (exec (GlyphRule.synthesize config rules) s).2.arena = s.arena ∧
    (exec (GlyphRule.synthesize config rules') s').2.arena = s'.arena ∧
    ((∃ text, (exec (GlyphRule.synthesize config rules) s).1 = .ok text ∧
        (exec (GlyphRule.synthesize config rules') s').1 = .ok text) ∨
      ∃ e e', (exec (GlyphRule.synthesize config rules) s).1 = .error e ∧
        (exec (GlyphRule.synthesize config rules') s').1 = .error e') := by
  have hsingle' : ∀ r ∈ rules', r.pairs.length ≤ 1 := fun r hr => hsingle r ((hmem r).mpr hr)
  refine ⟨((composed_synthesize config hsingle).keeps s).symm,
    ((composed_synthesize config hsingle').keeps s').symm, ?_⟩
  -- the keys come in the same order, so the groups can be compared one by one
  have hgroups : List.Forall₂ (fun group group' : RuleGroup => Agree group.announced group'.announced)
      (RuleGroup.ofRules rules) (RuleGroup.ofRules rules') := by
    rw [RuleGroup.ofRules_of_single hsingle, RuleGroup.ofRules_of_single hsingle',
      ← RuleGroup.keys_congr hmem, List.forall₂_map_left_iff, List.forall₂_map_right_iff,
      List.forall₂_same]
    intro key hkey
    apply Agree.announced
    apply RuleGroup.agree_ofKey (RuleGroup.mem_keys.mp hkey)
    constructor
    · intro r
      rw [List.mem_filter, List.mem_filter, hmem]
    · rw [RuleGroup.filter_isOf_of_single hsingle, RuleGroup.filter_isOf_of_single hsingle']
      exact hfirst key
  have hagree : Agree (GlyphRule.synthesize config rules) (GlyphRule.synthesize config rules') := by
    refine .bind (.bind (.of_returns (.report _) (.report _)) fun _ => ?_) fun _ => .pure _
    exact .bind (.mapM hgroups) fun _ => .pure _
  rcases hagree with ⟨text, hx, hy⟩ | ⟨hx, hy⟩
  · obtain ⟨t, ht⟩ := hx s
    obtain ⟨t', ht'⟩ := hy s'
    left
    exact ⟨text, by rw [ht], by rw [ht']⟩
  · obtain ⟨e, t, ht⟩ := hx s
    obtain ⟨e', t', ht'⟩ := hy s'
    right
    exact ⟨e, e', by rw [ht], by rw [ht']⟩

/-- Two rules for one target, of which the second replacement is given up, and a rule of another
group. -/
def contestedRules : List GlyphRule :=
  [.single (.after ["a"]) "t" "x" 1, .single (.before ["b"]) "u" "y" 3,
    .single (.after ["a"]) "t" "z" 2]

def contestedRulesAgain : List GlyphRule :=
  [.single (.before ["b"]) "u" "y" 3, .single (.after ["a"]) "t" "x" 1,
    .single (.after ["a"]) "t" "z" 2, .single (.after ["a"]) "t" "z" 2,
    .single (.before ["b"]) "u" "y" 3]

theorem synthesize_order_irrelevant_contested :
    ∃ text,
      (exec (GlyphRule.synthesize { feature := "Test" } contestedRules)
        (Session.fresh defaultTempBase)).1 = .ok text ∧
      (exec (GlyphRule.synthesize { feature := "Test" } contestedRulesAgain)
        (Session.fresh defaultTempBase)).1 = .ok text := by
  have hmem : ∀ r, r ∈ contestedRules ↔ r ∈ contestedRulesAgain := by
    intro r
    simp only [contestedRules, contestedRulesAgain, List.mem_cons, List.not_mem_nil]
    tauto
  have hfirst : ∀ key target,
      (substitutions (contestedRules.filter fun r => r.groupKey == key)).lookup target =
        (substitutions (contestedRulesAgain.filter fun r => r.groupKey == key)).lookup target := by
    intro key target
    have hlookup : ∀ (g r r' : Glyph) (rest : List (Glyph × Glyph)),
        ((g, r) :: (g, r') :: rest).lookup target = ((g, r) :: rest).lookup target := by
      intro g r r' rest
      simp only [List.lookup_cons]
      split <;> rfl
    by_cases hafter : key = .adjacent .after "a"
    · subst hafter
      exact (hlookup "t" "x" "z" []).trans
        ((hlookup "t" "x" "z" [("t", "z")]).trans (hlookup "t" "x" "z" [])).symm
    · by_cases hbefore : key = .adjacent .before "b"
      · subst hbefore
        exact (hlookup "u" "y" "y" []).symm
      · have ha : (GroupKey.adjacent .after "a" == key) = false := beq_false_of_ne (Ne.symm hafter)
        have hb : (GroupKey.adjacent .before "b" == key) = false :=
          beq_false_of_ne (Ne.symm hbefore)
        simp [contestedRules, contestedRulesAgain, GlyphRule.single, GlyphRule.groupKey,
          GroupKey.beside, ha, hb]
  obtain ⟨_, _, hsame | ⟨e, _, he, _⟩⟩ := synthesize_order_irrelevant (by decide) hmem hfirst
    { feature := "Test" } (Session.fresh defaultTempBase) (Session.fresh defaultTempBase)
  · exact hsame
  · cases he

end Metamorphosis
