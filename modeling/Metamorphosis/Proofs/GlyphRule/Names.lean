import Metamorphosis.Proofs.GlyphRule.Split
import Metamorphosis.RuleFile

namespace Metamorphosis

open CompileM

def Site.glyphs : Site → List Glyph
  | .context c => c.elements
  | .cleanup temp => [temp]

/-- Every glyph that the rule names. -/
def GlyphRule.glyphs (r : GlyphRule) : List Glyph :=
  r.site.glyphs ++ r.pairs.flatMap fun p => [p.1, p.2]

/-- Every glyph of the rules has the property. -/
def MadeOf (P : Glyph → Prop) (rules : List GlyphRule) : Prop :=
  ∀ r ∈ rules, ∀ g ∈ r.glyphs, P g

variable {P : Glyph → Prop}

theorem GlyphRule.forall_glyphs {r : GlyphRule} :
    (∀ g ∈ r.glyphs, P g) ↔ (∀ g ∈ r.site.glyphs, P g) ∧ ∀ p ∈ r.pairs, P p.1 ∧ P p.2 := by
  simp only [glyphs, List.forall_mem_append, List.forall_mem_flatMap, List.forall_mem_cons]
  simp

theorem madeOf_flatten {parts : List (List GlyphRule)} (h : ∀ rules ∈ parts, MadeOf P rules) :
    MadeOf P parts.flatten := by
  intro r hr
  obtain ⟨rules, hrules, hr⟩ := List.mem_flatten.mp hr
  exact h rules hrules r hr

/-- A rule with one substitution has the glyphs of its context and of the substitution. -/
theorem forall_glyphs_single {site : Site} {target replacement : Glyph} {line : Nat}
    {group : Option String} (hsite : ∀ g ∈ site.glyphs, P g) (ht : P target) (hr : P replacement) :
    ∀ g ∈ (⟨site, [(target, replacement)], line, group⟩ : GlyphRule).glyphs, P g := by
  refine GlyphRule.forall_glyphs.mpr ⟨hsite, ?_⟩
  intro p hp
  rw [List.mem_singleton.mp hp]
  exact ⟨ht, hr⟩

theorem apartRules_madeOf {line index : Nat} {pattern : List Glyph}
    {target replacement temp : Glyph} (hp : ∀ g ∈ pattern, P g) (ht : P target)
    (hr : P replacement) (htemp : P temp) :
    MadeOf P (apartRules line index pattern target replacement temp) := by
  intro r hmem
  simp only [apartRules, List.mem_cons, List.not_mem_nil, or_false] at hmem
  rcases hmem with rfl | rfl | rfl
  · exact forall_glyphs_single (fun g hg => hp g (List.mem_of_mem_take hg)) ht htemp
  · exact forall_glyphs_single (fun g hg => hp g (List.mem_of_mem_drop hg)) htemp hr
  · refine forall_glyphs_single ?_ htemp ht
    intro g hg
    rwa [List.mem_singleton.mp hg]

theorem mem_choices {positions : List (List Glyph)} {pattern : List Glyph}
    (h : pattern ∈ choices positions) : ∀ g ∈ pattern, ∃ position ∈ positions, g ∈ position := by
  induction positions generalizing pattern with
  | nil =>
    rw [choices_nil, List.mem_singleton] at h
    simp [h]
  | cons position rest ih =>
    rw [choices_cons] at h
    obtain ⟨first, hfirst, h⟩ := List.mem_flatMap.mp h
    obtain ⟨others, hothers, rfl⟩ := List.mem_map.mp h
    intro g hg
    rcases List.mem_cons.mp hg with rfl | hg
    · exact ⟨position, List.mem_cons_self, hfirst⟩
    · obtain ⟨p, hp, hg⟩ := ih hothers g hg
      exact ⟨p, List.mem_cons_of_mem _ hp, hg⟩

theorem Registry.positionsOf_supplied {registry : Registry} {elements : List Element}
    {positions : List (List Glyph)} (hs : ∀ e ∈ elements, registry.Supplies P e)
    (h : registry.positionsOf elements = .ok positions) :
    ∀ position ∈ positions, ∀ g ∈ position, P g := by
  intro position hposition
  obtain ⟨e, he, hglyphs⟩ := except_mapM_ok h position hposition
  exact hs e he position hglyphs

namespace ContextualRule

variable {registry : Registry} {rule : ContextualRule} {rules : List GlyphRule}

/-- Every glyph that an element of the rule stands for has the property. -/
def AllSupplied (registry : Registry) (P : Glyph → Prop) (rule : ContextualRule) : Prop :=
  (∀ e ∈ rule.context.elements, registry.Supplies P e) ∧ rule.Supplied registry P

theorem inContexts_madeOf (hs : rule.Supplied registry P) {contexts : List (Context Glyph)}
    (hc : ∀ context ∈ contexts, ∀ g ∈ context.elements, P g)
    (h : rule.inContexts registry contexts = .ok rules) : MadeOf P rules := by
  intro r hr
  obtain ⟨context, hcontext, pair, hpair, targets, replacements, target, replacement, hglyphs, hz,
    rfl⟩ := inContexts_ok h r hr
  obtain ⟨htargets, hreplacements⟩ := Pair.glyphs_ok hglyphs
  obtain ⟨ht, hr⟩ := List.of_mem_zip hz
  exact forall_glyphs_single (hc context hcontext) ((hs pair hpair).1 targets htargets target ht)
    ((hs pair hpair).2 replacements hreplacements replacement hr)

theorem contextChoices_supplied {part : ContextPart} {elements : List Element}
    {contexts : List (List Glyph)} (hs : ∀ e ∈ elements, registry.Supplies P e)
    (h : contextChoices registry part elements = .ok contexts) :
    ∀ context ∈ contexts, ∀ g ∈ context, P g := by
  unfold contextChoices at h
  cases hempty : elements.isEmpty with
  | true =>
    rw [hempty] at h
    cases h
  | false =>
    rw [hempty] at h
    obtain ⟨positions, hpositions, h⟩ := except_bind_ok h
    cases h
    intro context hcontext g hg
    obtain ⟨position, hposition, hg⟩ := mem_choices hcontext g hg
    exact Registry.positionsOf_supplied hs hpositions position hposition g hg

theorem adjacentRules_madeOf (hs : rule.Supplied registry P) {side : Side} {pattern : List Element}
    (hp : ∀ e ∈ pattern, registry.Supplies P e)
    (h : rule.adjacentRules registry side pattern = .ok rules) : MadeOf P rules := by
  obtain ⟨contexts, hcontexts, h⟩ := except_bind_ok h
  refine inContexts_madeOf hs ?_ h
  intro context hcontext
  obtain ⟨glyphs, hglyphs, rfl⟩ := List.mem_map.mp hcontext
  cases side <;> exact contextChoices_supplied hp hcontexts glyphs hglyphs

theorem betweenRules_madeOf (hs : rule.Supplied registry P) {first second : List Element}
    (hfirst : ∀ e ∈ first, registry.Supplies P e) (hsecond : ∀ e ∈ second, registry.Supplies P e)
    (h : rule.betweenRules registry first second = .ok rules) : MadeOf P rules := by
  obtain ⟨contexts, hbetween, h⟩ := betweenRules_ok h
  refine inContexts_madeOf hs ?_ h
  intro context hcontext
  obtain ⟨f, s, rfl, ⟨firsts, hfirsts, hf⟩, ⟨seconds, hseconds, hs⟩⟩ := hbetween context hcontext
  refine List.forall_mem_append.mpr ⟨?_, ?_⟩
  · intro g hg
    obtain ⟨position, hposition, hg⟩ := mem_choices hf g hg
    exact Registry.positionsOf_supplied hfirst hfirsts position hposition g hg
  · intro g hg
    obtain ⟨position, hposition, hg⟩ := mem_choices hs g hg
    exact Registry.positionsOf_supplied hsecond hseconds position hposition g hg

theorem forall_column {positions : List (List Glyph)}
    (h : ∀ position ∈ positions, ∀ g ∈ position, P g) (k : Nat) : ∀ g ∈ column positions k, P g := by
  intro g hg
  obtain ⟨position, hposition, hg⟩ := mem_column hg
  exact h position hposition g hg

/-- The temporary glyphs of a pattern that is taken apart are in the arena at the end. -/
theorem splitAtTarget_madeOf {line : Nat} {positions : List (List Glyph)} {target : Element}
    {targets replacements : List Glyph} {s s' : Session}
    (hnames : ∀ g ∈ s'.arena.names, P g) (hp : ∀ position ∈ positions, ∀ g ∈ position, P g)
    (ht : ∀ g ∈ targets, P g) (hr : ∀ g ∈ replacements, P g)
    (h : exec (splitAtTarget line positions target targets replacements) s = (.ok rules, s')) :
    MadeOf P rules := by
  obtain ⟨index, perTarget, _, rfl, hper⟩ := splitAtTarget_ok h
  apply madeOf_flatten
  intro own hown
  obtain ⟨⟨⟨t, r⟩, k⟩, hx, before, after, hsplit, hext⟩ := forall₂_of_mem_right hper own hown
  obtain ⟨hmem, hmem'⟩ := List.of_mem_zip (List.fst_mem_of_mem_zipIdx hx)
  have hcolumn := forall_column hp k
  have hsingle : ∀ context : Context Glyph, (∀ g ∈ context.elements, P g) →
      MadeOf P [GlyphRule.single context t r line] := by
    intro context hc rule hrule
    rw [List.mem_singleton.mp hrule]
    exact forall_glyphs_single hc (ht t hmem) (hr r hmem')
  rcases splitRules_ok hsplit with ⟨_, rfl⟩ | ⟨_, rfl⟩ | ⟨_, _, code, hcode, rfl⟩
  · exact hsingle _ fun g hg => hcolumn g (List.mem_of_mem_drop hg)
  · exact hsingle _ fun g hg => hcolumn g (List.mem_of_mem_take hg)
  · exact apartRules_madeOf hcolumn (ht t hmem) (hr r hmem')
      (hnames _ (Arena.mem_names (hext _ _ hcode)))

theorem whenRules_madeOf (hs : rule.Supplied registry P) {pattern : List Element}
    (hp : ∀ e ∈ pattern, registry.Supplies P e) {s s' : Session}
    (hnames : ∀ g ∈ s'.arena.names, P g)
    (h : exec (rule.whenRules registry pattern) s = (.ok rules, s')) : MadeOf P rules := by
  obtain ⟨positions, size, hpositions, hsplit | ⟨_, sides, hsides, rfl⟩⟩ := whenRules_ok h
  · obtain ⟨pair, targets, replacements, m, hpair, hglyphs, _, hsplit⟩ := hsplit
    obtain ⟨htargets, hreplacements⟩ := Pair.glyphs_ok hglyphs
    obtain ⟨ht, hr⟩ := hs pair (by rw [hpair]; exact List.mem_cons_self)
    exact splitAtTarget_madeOf hnames
      (Registry.positionsOf_supplied hp (whenPositions_ok hpositions).1) (ht targets htargets)
      (hr replacements hreplacements) hsplit
  · have hsupplied := whenPairs_supplied hs hsides
    intro r hr
    obtain ⟨k, _, rfl⟩ := List.mem_map.mp hr
    refine GlyphRule.forall_glyphs.mpr ⟨?_, ?_⟩
    · exact forall_column (Registry.positionsOf_supplied hp (whenPositions_ok hpositions).1) k
    · intro p hpair
      obtain ⟨ht, hr⟩ := List.of_mem_zip hpair
      constructor
      · refine forall_column ?_ k p.1 ht
        intro position hposition
        obtain ⟨side, hside, rfl⟩ := List.mem_map.mp hposition
        exact (hsupplied side hside).1
      · refine forall_column ?_ k p.2 hr
        intro position hposition
        obtain ⟨side, hside, rfl⟩ := List.mem_map.mp hposition
        exact (hsupplied side hside).2

theorem glyphRules_madeOf (hs : rule.AllSupplied registry P) {s s' : Session}
    (hnames : ∀ g ∈ s'.arena.names, P g)
    (h : exec (rule.glyphRules registry) s = (.ok rules, s')) : MadeOf P rules := by
  obtain ⟨hcontext, hpairs⟩ := hs
  obtain ⟨m, hm, harena, _⟩ := exec_glyphRules_ok h
  unfold unreported at hm
  split at hm
  next pattern hc =>
    rw [hc] at hcontext
    exact adjacentRules_madeOf hpairs hcontext (exec_atLine_inv hm).1
  next pattern hc =>
    rw [hc] at hcontext
    exact adjacentRules_madeOf hpairs hcontext (exec_atLine_inv hm).1
  next first second hc =>
    rw [hc] at hcontext
    obtain ⟨hfirst, hsecond⟩ := List.forall_mem_append.mp hcontext
    exact betweenRules_madeOf hpairs hfirst hsecond (exec_atLine_inv hm).1
  next pattern hc =>
    rw [hc] at hcontext
    exact whenRules_madeOf hpairs hcontext (by rwa [harena]) hm

/-- The glyph rules of written rules are made of what these stand for and of temporary glyphs. -/
theorem allGlyphRules_madeOf {written : List ContextualRule}
    (hs : ∀ rule ∈ written, rule.AllSupplied registry P) {s s' : Session}
    (hnames : ∀ g ∈ s'.arena.names, P g)
    (h : exec (allGlyphRules registry written) s = (.ok rules, s')) : MadeOf P rules := by
  obtain ⟨perRule, m, hper, h⟩ := exec_bind_ok h
  rw [exec_bind_of_ok (exec_get m), exec_bind_of_ok (exec_report _ m)] at h
  obtain ⟨hrules, rfl⟩ := Prod.mk.inj h
  rw [← Except.ok.inj hrules]
  apply madeOf_flatten
  intro made hmade
  obtain ⟨rule, hrule, before, after, hm, hext⟩ :=
    forall₂_of_mem_right (exec_mapM_grows (composed_glyphRules registry) hper) made hmade
  exact glyphRules_madeOf (hs rule hrule) (fun g hg => hnames g (hext.names_subset hg)) hm

end ContextualRule

end Metamorphosis
