import Metamorphosis.Proofs.GlyphRule.Split
import Metamorphosis.Proofs.StateTable.Build
import Metamorphosis.Source.Load

namespace Metamorphosis

open CompileM

/-- The temporary glyph that a cleanup rule takes back. -/
def GlyphRule.temporary? (r : GlyphRule) : Option Glyph :=
  match r.site with
  | .cleanup temp => some temp
  | .context _ => none

/-- The temporary glyphs of rules, one for each cleanup rule. -/
def temporaries (rules : List GlyphRule) : List Glyph :=
  rules.filterMap GlyphRule.temporary?

theorem temporaries_eq_nil {rules : List GlyphRule} (h : ∀ r ∈ rules, r.isCleanup = false) :
    temporaries rules = [] := by
  unfold temporaries
  rw [List.filterMap_eq_nil_iff]
  intro r hr
  have hc := h r hr
  unfold GlyphRule.isCleanup at hc
  unfold GlyphRule.temporary?
  split
  next hs =>
    rw [hs] at hc
    cases hc
  next => rfl

theorem temporaries_flatten (perTarget : List (List GlyphRule)) :
    temporaries perTarget.flatten = perTarget.flatMap temporaries := by
  unfold temporaries
  rw [List.filterMap_flatten, ← List.flatMap_def]

theorem getElem?_flatMap_single {α β : Type} {f : α → List β} {xs : List α}
    (h : ∀ x ∈ xs, (f x).length = 1) (k : Nat) :
    (xs.flatMap f)[k]? = xs[k]?.bind fun x => (f x)[0]? := by
  induction xs generalizing k with
  | nil => rfl
  | cons x xs ih =>
    obtain ⟨y, hy⟩ := List.length_eq_one_iff.mp (h x List.mem_cons_self)
    have hrest := ih fun x' hx' => h x' (List.mem_cons_of_mem _ hx')
    rw [List.flatMap_cons, hy]
    cases k with
    | zero => simp [hy]
    | succ k => simpa using hrest k

namespace ContextualRule

variable {registry : Registry} {rule : ContextualRule} {rules : List GlyphRule} {s s' : Session}

theorem inContexts_isCleanup {contexts : List (Context Glyph)}
    (h : rule.inContexts registry contexts = .ok rules) : ∀ r ∈ rules, r.isCleanup = false := by
  intro r hr
  obtain ⟨_, _, _, _, _, _, _, _, _, _, rfl⟩ := inContexts_ok h r hr
  rfl

/-- The temporary glyph of a combination is that of the rule's line and its number. -/
theorem splitAtTarget_temporaries {line : Nat} {positions : List (List Glyph)} {target : Element}
    {targets replacements : List Glyph}
    (h : exec (splitAtTarget line positions target targets replacements) s = (.ok rules, s'))
    {k : Nat} {temp : Glyph} (hk : (temporaries rules)[k]? = some temp) :
    ∃ code, s'.arena.code? ⟨.decomposed, line, k, 0⟩ = some code ∧ temp = toString code := by
  obtain ⟨index, perTarget, _, rfl, hrules⟩ := splitAtTarget_ok h
  rw [temporaries_flatten] at hk
  by_cases hinner : 0 < index ∧ index + 1 ≠ positions.length
  · -- every target has rules of its own, with one cleanup rule
    have hown : ∀ {x : (Glyph × Glyph) × Nat} {own : List GlyphRule} {before after : Session},
        exec (splitRules line index positions x.1.1 x.1.2 x.2) before = (.ok own, after) →
          ∃ code, after.arena.code? ⟨.decomposed, line, x.2, 0⟩ = some code ∧
            temporaries own = [toString code] := by
      intro x own before after hx
      rcases splitRules_ok hx with ⟨h0, _⟩ | ⟨hlast, _⟩ | ⟨_, _, code, hcode, rfl⟩
      · omega
      · exact absurd hlast hinner.2
      · exact ⟨code, hcode, rfl⟩
    have hone : ∀ own ∈ perTarget, (temporaries own).length = 1 := by
      intro own hmem
      obtain ⟨x, _, _, _, hx, _⟩ := forall₂_of_mem_right hrules own hmem
      obtain ⟨code, _, htemps⟩ := hown hx
      rw [htemps]
      rfl
    rw [getElem?_flatMap_single hone] at hk
    obtain ⟨own, hmem, hfirst⟩ := Option.bind_eq_some_iff.mp hk
    obtain ⟨x, hxk, before, after, hx, hext⟩ := forall₂_getElem? hrules.flip hmem
    obtain ⟨code, hcode, htemps⟩ := hown hx
    rw [htemps] at hfirst
    have hnumber : x.2 = k := by
      rw [List.getElem?_zipIdx] at hxk
      obtain ⟨pair, _, rfl⟩ := Option.map_eq_some_iff.mp hxk
      exact Nat.zero_add k
    rw [hnumber] at hcode
    exact ⟨code, hext _ _ hcode, (Option.some.inj hfirst).symm⟩
  · have hnone : perTarget.flatMap temporaries = [] := by
      rw [List.flatMap_eq_nil_iff]
      intro own hmem
      obtain ⟨x, _, _, _, hx, _⟩ := forall₂_of_mem_right hrules own hmem
      rcases splitRules_ok hx with ⟨_, rfl⟩ | ⟨_, rfl⟩ | ⟨h0, hlast, _⟩
      · rfl
      · rfl
      · exact absurd ⟨h0, hlast⟩ hinner
    rw [hnone] at hk
    cases hk

/-- The `k`-th temporary glyph of a rule is the one that the arena has for its line and `k`. -/
theorem glyphRules_temporaries (h : exec (rule.glyphRules registry) s = (.ok rules, s')) {k : Nat}
    {temp : Glyph} (hk : (temporaries rules)[k]? = some temp) :
    ∃ code, s'.arena.code? ⟨.decomposed, rule.line, k, 0⟩ = some code ∧ temp = toString code := by
  have hnever : (∀ r ∈ rules, r.isCleanup = false) → False := by
    intro hn
    rw [temporaries_eq_nil hn] at hk
    cases hk
  obtain ⟨m, hm, harena, _⟩ := exec_glyphRules_ok h
  unfold unreported at hm
  rw [← harena]
  split at hm
  next pattern _ =>
    obtain ⟨contexts, _, hm⟩ := except_bind_ok (exec_atLine_inv hm).1
    exact (hnever (inContexts_isCleanup hm)).elim
  next pattern _ =>
    obtain ⟨contexts, _, hm⟩ := except_bind_ok (exec_atLine_inv hm).1
    exact (hnever (inContexts_isCleanup hm)).elim
  next first second _ =>
    obtain ⟨contexts, _, hm⟩ := betweenRules_ok (exec_atLine_inv hm).1
    exact (hnever (inContexts_isCleanup hm)).elim
  next pattern _ =>
    obtain ⟨positions, size, _, hsplit | ⟨_, sides, _, rfl⟩⟩ := whenRules_ok hm
    · obtain ⟨pair, targets, replacements, m', _, _, _, hsplit⟩ := hsplit
      exact splitAtTarget_temporaries hsplit hk
    · refine (hnever ?_).elim
      intro r hr
      obtain ⟨j, _, rfl⟩ := List.mem_map.mp hr
      rfl

end ContextualRule

/-- The arena gives each line and combination a glyph of its own: of the rules taken apart in one
session, two have a temporary glyph in common exactly if they stand on one line, and then it is that
of the same combination. -/
theorem temporaries_shared_iff_same_line {registry : Registry} {rules : List ContextualRule}
    {perRule : List (List GlyphRule)} {s s' : Session}
    (h : exec (rules.mapM (ContextualRule.glyphRules registry)) s = (.ok perRule, s'))
    {i j k l : Nat} {rule rule' : ContextualRule} {own own' : List GlyphRule} {temp temp' : Glyph}
    (hrule : rules[i]? = some rule) (hown : perRule[i]? = some own)
    (htemp : (temporaries own)[k]? = some temp)
    (hrule' : rules[j]? = some rule') (hown' : perRule[j]? = some own')
    (htemp' : (temporaries own')[l]? = some temp') :
    temp = temp' ↔ rule.line = rule'.line ∧ k = l := by
  have hcode : ∀ {i k : Nat} {rule : ContextualRule} {own : List GlyphRule} {temp : Glyph},
      rules[i]? = some rule → perRule[i]? = some own → (temporaries own)[k]? = some temp →
        ∃ code, s'.arena.code? ⟨.decomposed, rule.line, k, 0⟩ = some code ∧
          temp = toString code := by
    intro i k rule own temp hrule hown htemp
    have hmade := exec_mapM_grows (ContextualRule.composed_glyphRules registry) h
    obtain ⟨made, hmade, before, after, hexec, hext⟩ :=
      ContextualRule.forall₂_getElem? hmade hrule
    obtain rfl : made = own := Option.some.inj (hmade.symm.trans hown)
    obtain ⟨code, hc, ht⟩ := ContextualRule.glyphRules_temporaries hexec htemp
    exact ⟨code, hext _ _ hc, ht⟩
  obtain ⟨code, hc, rfl⟩ := hcode hrule hown htemp
  obtain ⟨code', hc', rfl⟩ := hcode hrule' hown' htemp'
  constructor
  · intro he
    have hkey := Arena.code?_injective hc (toString_nat_injective he ▸ hc')
    exact ⟨congrArg TempKey.line hkey, congrArg TempKey.index hkey⟩
  · rintro ⟨hline, rfl⟩
    rw [hline] at hc
    rw [Option.some.inj (hc.symm.trans hc')]

/-- The same rule on two lines. -/
theorem temporaries_of_two_lines_differ :
    ∃ perRule s own own',
      exec (([1, 2].map fun line => ContextualRule.literal ["a", "b", "c"] "b" "x" line none).mapM
        (ContextualRule.glyphRules .empty)) (Session.fresh defaultTempBase) = (.ok perRule, s) ∧
      perRule[0]? = some own ∧ (temporaries own)[0]? = some "65000" ∧
      perRule[1]? = some own' ∧ (temporaries own')[0]? = some "65001" ∧ "65000" ≠ "65001" := by
  have hmade : ∃ perRule s own own',
      exec (([1, 2].map fun line => ContextualRule.literal ["a", "b", "c"] "b" "x" line none).mapM
        (ContextualRule.glyphRules .empty)) (Session.fresh defaultTempBase) = (.ok perRule, s) ∧
      perRule[0]? = some own ∧ (temporaries own)[0]? = some "65000" ∧
      perRule[1]? = some own' ∧ (temporaries own')[0]? = some "65001" :=
    ⟨_, _, _, _, rfl, rfl, by decide, rfl, by decide⟩
  obtain ⟨perRule, s, own, own', h, hown, htemp, hown', htemp'⟩ := hmade
  have hiff := temporaries_shared_iff_same_line h rfl hown htemp rfl hown' htemp'
  refine ⟨perRule, s, own, own', h, hown, htemp, hown', htemp', ?_⟩
  intro he
  have hline : 1 = 2 := (hiff.mp he).1
  omega

/-- Two blocks on one line: both rules use the first temporary glyph. -/
theorem temporaries_shared_on_one_line :
    ∃ file perRule s,
      RuleFile.load
        "@contextual \x7b when a b c: b => x \x7d@contextual \x7b when d e f: e => y \x7d\n" =
          .ok file ∧
      exec (file.contextual.mapM (ContextualRule.glyphRules .empty))
        (Session.fresh defaultTempBase) = (.ok perRule, s) ∧
      perRule.map temporaries = [["65000"], ["65000"]] := by
  refine ⟨{ contextual :=
    [⟨.when [.glyph "a", .glyph "b", .glyph "c"], [⟨.glyph "b", .glyph "x", none⟩], 1⟩,
      ⟨.when [.glyph "d", .glyph "e", .glyph "f"], [⟨.glyph "e", .glyph "y", none⟩], 1⟩] }, _, _,
    ?_, rfl, ?_⟩
  · exact except_ok_of_toOption (by decide +kernel)
  · decide

end Metamorphosis
