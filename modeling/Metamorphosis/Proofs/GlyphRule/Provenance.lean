import Metamorphosis.Proofs.GlyphRule.Expansion
import Metamorphosis.Proofs.Outcome

namespace Metamorphosis

open CompileM

/-- A glyph that the cleanup rule of some group replaces. -/
def Restored (rules : List GlyphRule) (g : Glyph) : Prop :=
  ∃ r ∈ rules, r.isCleanup = true ∧ r.group.isSome = true ∧ g ∈ r.pairs.map Prod.fst

/-- Every replacement has the property, or is restored where it comes from a rule that is in a
context and takes one pass. -/
def Settled (P : Glyph → Prop) (rules : List GlyphRule) : Prop :=
  ∀ r ∈ rules, ∀ p ∈ r.pairs,
    P p.2 ∨ (r.isCleanup = false ∧ r.isMultiPass = false ∧ Restored rules p.2)

section Settled

variable {P : Glyph → Prop}

theorem restored_mono {rules all : List GlyphRule} {g : Glyph} (h : Restored rules g)
    (hsub : rules ⊆ all) : Restored all g := by
  obtain ⟨r, hr, hc⟩ := h
  exact ⟨r, hsub hr, hc⟩

theorem settled_of_forall {rules : List GlyphRule}
    (h : ∀ r ∈ rules, ∀ p ∈ r.pairs, P p.2) : Settled P rules :=
  fun r hr p hp => Or.inl (h r hr p hp)

theorem settled_flatten {parts : List (List GlyphRule)} (h : ∀ rules ∈ parts, Settled P rules) :
    Settled P parts.flatten := by
  intro r hr p hp
  obtain ⟨rules, hrules, hr⟩ := List.mem_flatten.mp hr
  rcases h rules hrules r hr p hp with hP | ⟨hc, hm, hrest⟩
  · exact Or.inl hP
  · have hsub : rules ⊆ parts.flatten :=
      fun r hr => List.mem_flatten.mpr ⟨rules, hrules, hr⟩
    exact Or.inr ⟨hc, hm, restored_mono hrest hsub⟩

/-- Of the three rules of a target taken apart, the last restores what the first brings in. -/
theorem settled_apartRules {line index : Nat} {pattern : List Glyph}
    {target replacement temp : Glyph} (ht : P target) (hr : P replacement) :
    Settled P (apartRules line index pattern target replacement temp) := by
  intro r hmem p hp
  simp only [apartRules, List.mem_cons, List.not_mem_nil, or_false] at hmem
  rcases hmem with rfl | rfl | rfl <;> rw [List.mem_singleton.mp hp]
  · exact Or.inr ⟨rfl, rfl, _, List.mem_cons_of_mem _ (List.mem_cons_of_mem _ List.mem_cons_self),
      rfl, rfl, List.mem_cons_self⟩
  · exact Or.inl hr
  · exact Or.inl ht

end Settled

/-- Every glyph that the element stands for has the property. -/
def Registry.Supplies (registry : Registry) (P : Glyph → Prop) (e : Element) : Prop :=
  ∀ glyphs, registry.glyphsOf e = .ok glyphs → ∀ g ∈ glyphs, P g

/-- Every glyph that a written substitution of the rule stands for has the property. -/
def ContextualRule.Supplied (registry : Registry) (P : Glyph → Prop) (rule : ContextualRule) :
    Prop :=
  ∀ pair ∈ rule.pairs, registry.Supplies P pair.target ∧ registry.Supplies P pair.replacement

/-- A substitution stands for the glyphs of its two sides, if these are equally many. -/
theorem Pair.glyphs_ok_iff {registry : Registry} {pair : Pair} {side : List Glyph × List Glyph} :
    pair.glyphs registry = .ok side ↔
      registry.glyphsOf pair.target = .ok side.1 ∧
        registry.glyphsOf pair.replacement = .ok side.2 ∧ side.1.length = side.2.length := by
  constructor
  · intro h
    obtain ⟨targets, htargets, h⟩ := except_bind_ok h
    obtain ⟨replacements, hreplacements, h⟩ := except_bind_ok h
    split at h
    next hlength =>
      cases h
      exact ⟨htargets, hreplacements, hlength⟩
    next => cases h
  · rintro ⟨htargets, hreplacements, hlength⟩
    refine except_bind_ok_iff.mpr ⟨side.1, htargets, ?_⟩
    exact except_bind_ok_iff.mpr ⟨side.2, hreplacements, if_pos hlength⟩

theorem Pair.glyphs_ok {registry : Registry} {pair : Pair} {targets replacements : List Glyph}
    (h : pair.glyphs registry = .ok (targets, replacements)) :
    registry.glyphsOf pair.target = .ok targets ∧
      registry.glyphsOf pair.replacement = .ok replacements :=
  ⟨(glyphs_ok_iff.mp h).1, (glyphs_ok_iff.mp h).2.1⟩

theorem Pair.glyphs_length {registry : Registry} {pair : Pair} {targets replacements : List Glyph}
    (h : pair.glyphs registry = .ok (targets, replacements)) :
    targets.length = replacements.length :=
  (glyphs_ok_iff.mp h).2.2

namespace ContextualRule

variable {registry : Registry} {P : Glyph → Prop} {rule : ContextualRule}
  {rules : List GlyphRule}

/-- The rules in some contexts have one substitution each, of a target and its replacement. -/
theorem inContexts_ok {contexts : List (Context Glyph)}
    (h : rule.inContexts registry contexts = .ok rules) :
    ∀ r ∈ rules, ∃ context ∈ contexts, ∃ pair ∈ rule.pairs, ∃ targets replacements target replacement,
      pair.glyphs registry = .ok (targets, replacements) ∧
      (target, replacement) ∈ targets.zip replacements ∧
      r = GlyphRule.single context target replacement rule.line := by
  obtain ⟨perPair, hper, h⟩ := except_bind_ok h
  cases h
  intro r hr
  obtain ⟨made, hmade, hr⟩ := List.mem_flatten.mp hr
  obtain ⟨pair, hpair, hm⟩ := except_mapM_ok hper made hmade
  obtain ⟨⟨targets, replacements⟩, hg, hm⟩ := except_bind_ok hm
  cases hm
  obtain ⟨context, hcontext, hr⟩ := List.mem_flatMap.mp hr
  obtain ⟨⟨target, replacement⟩, hz, rfl⟩ := List.mem_map.mp hr
  exact ⟨context, hcontext, pair, hpair, targets, replacements, target, replacement, hg, hz, rfl⟩

theorem inContexts_settled (hs : rule.Supplied registry P) {contexts : List (Context Glyph)}
    (h : rule.inContexts registry contexts = .ok rules) : Settled P rules := by
  apply settled_of_forall
  intro r hr p hp
  obtain ⟨_, _, pair, hpair, _, replacements, _, replacement, hg, hz, rfl⟩ := inContexts_ok h r hr
  rw [List.mem_singleton.mp hp]
  exact (hs pair hpair).2 replacements (Pair.glyphs_ok hg).2 replacement (List.of_mem_zip hz).2

theorem adjacentRules_settled (hs : rule.Supplied registry P) {side : Side}
    {pattern : List Element} (h : rule.adjacentRules registry side pattern = .ok rules) :
    Settled P rules := by
  obtain ⟨contexts, _, h⟩ := except_bind_ok h
  exact inContexts_settled hs h

theorem betweenRules_ok {first second : List Element}
    (h : rule.betweenRules registry first second = .ok rules) :
    ∃ contexts, (∀ context ∈ contexts, ∃ f s, context = .between f s ∧
        (∃ firsts, registry.positionsOf first = .ok firsts ∧ f ∈ choices firsts) ∧
        ∃ seconds, registry.positionsOf second = .ok seconds ∧ s ∈ choices seconds) ∧
      rule.inContexts registry contexts = .ok rules := by
  unfold betweenRules at h
  cases hf : first.isEmpty with
  | true =>
    rw [hf] at h
    cases h
  | false =>
    cases hs : second.isEmpty with
    | true =>
      rw [hf, hs] at h
      cases h
    | false =>
      rw [hf, hs] at h
      obtain ⟨firsts, hfirsts, h⟩ := except_bind_ok h
      obtain ⟨seconds, hseconds, h⟩ := except_bind_ok h
      refine ⟨_, ?_, h⟩
      intro context hcontext
      obtain ⟨f, hf, hcontext⟩ := List.mem_flatMap.mp hcontext
      obtain ⟨s, hs, rfl⟩ := List.mem_map.mp hcontext
      exact ⟨f, s, rfl, ⟨firsts, hfirsts, hf⟩, ⟨seconds, hseconds, hs⟩⟩

theorem betweenRules_settled (hs : rule.Supplied registry P) {first second : List Element}
    (h : rule.betweenRules registry first second = .ok rules) : Settled P rules := by
  obtain ⟨contexts, _, h⟩ := betweenRules_ok h
  exact inContexts_settled hs h

/-- Every substitution has two sides of the given size. -/
theorem whenPairs_ok_iff {pairs : List Pair} {size : Nat} {sides : List (List Glyph × List Glyph)} :
    whenPairs registry pairs size = .ok sides ↔
      List.Forall₂ (fun pair side => pair.glyphs registry = .ok side ∧ side.1.length = size)
        pairs sides := by
  unfold whenPairs
  rw [except_mapM_ok_iff]
  constructor
  · intro h
    refine h.imp fun pair side hside => ?_
    obtain ⟨found, hfound, hside⟩ := except_bind_ok hside
    dsimp only at hside
    split at hside
    next hsize =>
      cases hside
      exact ⟨hfound, hsize⟩
    next => cases hside
  · intro h
    refine h.imp fun pair side hside => ?_
    exact except_bind_ok_iff.mpr ⟨side, hside.1, if_pos hside.2⟩

theorem whenPairs_supplied (hs : rule.Supplied registry P) {size : Nat}
    {sides : List (List Glyph × List Glyph)}
    (h : whenPairs registry rule.pairs size = .ok sides) :
    ∀ side ∈ sides, (∀ g ∈ side.1, P g) ∧ ∀ g ∈ side.2, P g := by
  intro side hside
  obtain ⟨pair, hpair, hg, _⟩ := forall₂_of_mem_right (whenPairs_ok_iff.mp h) side hside
  obtain ⟨ht, hr, _⟩ := Pair.glyphs_ok_iff.mp hg
  exact ⟨(hs pair hpair).1 _ ht, (hs pair hpair).2 _ hr⟩

theorem takeApart_settled {line k index : Nat} {pattern : List Glyph} {target replacement : Glyph}
    {s s' : Session} (ht : P target) (hr : P replacement)
    (h : exec (takeApart line k index pattern target replacement) s = (.ok rules, s')) :
    Settled P rules := by
  obtain ⟨temp, m, htemp, hrest⟩ := exec_bind_ok h
  rw [exec_takeApart htemp] at h
  rw [← Except.ok.inj (Prod.mk.inj h).1]
  exact settled_apartRules ht hr

theorem splitAtTarget_settled {line : Nat} {positions : List (List Glyph)} {target : Element}
    {targets replacements : List Glyph} {s s' : Session} (ht : ∀ g ∈ targets, P g)
    (hr : ∀ g ∈ replacements, P g)
    (h : exec (splitAtTarget line positions target targets replacements) s = (.ok rules, s')) :
    Settled P rules := by
  unfold splitAtTarget at h
  split at h
  next => cases h
  next index _ =>
    obtain ⟨perTarget, m, hper, h⟩ := exec_bind_ok h
    rw [← exec_pure_ok h]
    apply settled_flatten
    intro made hmade
    obtain ⟨⟨⟨t, r⟩, k⟩, hx, before, after, hm⟩ := exec_mapM_ok hper made hmade
    obtain ⟨hz, hz'⟩ := List.of_mem_zip (List.fst_mem_of_mem_zipIdx hx)
    have hsingle : ∀ context, Settled P [GlyphRule.single context t r line] := by
      intro context
      apply settled_of_forall
      intro rule hrule p hp
      rw [List.mem_singleton.mp hrule] at hp
      rw [List.mem_singleton.mp hp]
      exact hr r hz'
    dsimp only at hm
    split at hm
    next =>
      rw [← exec_pure_ok hm]
      exact hsingle _
    next =>
      split at hm
      next =>
        rw [← exec_pure_ok hm]
        exact hsingle _
      next => exact takeApart_settled (ht t hz) (hr r hz') hm

theorem mem_column {positions : List (List Glyph)} {k : Nat} {g : Glyph}
    (h : g ∈ column positions k) : ∃ position ∈ positions, g ∈ position := by
  obtain ⟨position, hp, hk⟩ := List.mem_filterMap.mp h
  exact ⟨position, hp, List.mem_of_getElem? hk⟩

theorem whenRules_settled (hs : rule.Supplied registry P) {pattern : List Element}
    {s s' : Session} (h : exec (rule.whenRules registry pattern) s = (.ok rules, s')) :
    Settled P rules := by
  obtain ⟨⟨positions, size⟩, m, _, h⟩ := exec_bind_ok h
  obtain ⟨sides, m', hsides, h⟩ := exec_bind_ok h
  have hsupplied := whenPairs_supplied hs (exec_atLine_inv hsides).1
  split at h
  next pair targets replacements _ =>
    have hside := hsupplied _ List.mem_cons_self
    exact splitAtTarget_settled hside.1 hside.2 h
  next =>
    rw [← exec_pure_ok h]
    apply settled_of_forall
    intro r hr p hp
    obtain ⟨k, _, rfl⟩ := List.mem_map.mp hr
    obtain ⟨position, hposition, hg⟩ := mem_column (List.of_mem_zip hp).2
    obtain ⟨side, hside, rfl⟩ := List.mem_map.mp hposition
    exact (hsupplied side hside).2 _ hg

/-- The glyph rules of a rule are settled if its substitutions are. -/
theorem glyphRules_settled (hs : rule.Supplied registry P) {s s' : Session}
    (h : exec (rule.glyphRules registry) s = (.ok rules, s')) : Settled P rules := by
  unfold glyphRules at h
  cases hp : rule.pairs.isEmpty with
  | true =>
    rw [hp] at h
    cases h
  | false =>
    rw [hp] at h
    have hreported : ∀ {made : List GlyphRule} {m : Session},
        exec (reportAll (made.map .glyphRule) >>= fun _ => pure made) m = (.ok rules, s') →
          made = rules := by
      intro made m hm
      exact exec_pure_ok hm
    cases hc : rule.context <;> rw [hc] at h <;> obtain ⟨made, m, hm, h⟩ := exec_bind_ok h <;>
      obtain rfl := hreported h
    case after => exact adjacentRules_settled hs (exec_atLine_inv hm).1
    case before => exact adjacentRules_settled hs (exec_atLine_inv hm).1
    case between => exact betweenRules_settled hs (exec_atLine_inv hm).1
    case when => exact whenRules_settled hs hm

theorem allGlyphRules_settled {written : List ContextualRule}
    (hs : ∀ rule ∈ written, rule.Supplied registry P) {s s' : Session}
    (h : exec (allGlyphRules registry written) s = (.ok rules, s')) : Settled P rules := by
  obtain ⟨perRule, m, hper, h⟩ := exec_bind_ok h
  rw [exec_bind_of_ok (exec_get m), exec_bind_of_ok (exec_report _ m)] at h
  rw [← exec_pure_ok h]
  apply settled_flatten
  intro made hmade
  obtain ⟨rule, hrule, _, _, hm⟩ := exec_mapM_ok hper made hmade
  exact glyphRules_settled (hs rule hrule) hm

end ContextualRule

end Metamorphosis
