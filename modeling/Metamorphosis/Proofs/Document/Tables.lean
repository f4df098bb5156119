import Metamorphosis.Compile
import Metamorphosis.Proofs.Growth
import Metamorphosis.Proofs.RuleGroup.Passes
import Metamorphosis.Proofs.Window
import Metamorphosis.RuleFile

namespace Metamorphosis

open CompileM

theorem exec_announce_ok {subtable made : Subtable} {s s' : Session}
    (h : exec (announce subtable) s = (.ok made, s')) : made = subtable := by
  obtain ⟨m, hm⟩ := Returns.announce subtable s
  rw [hm] at h
  exact (Except.ok.inj (Prod.mk.inj h).1).symm

section Groups

/-- The state table of a group, with what is checked before it is made. -/
inductive RuleGroup.HasTable : RuleGroup → StateTable → Prop
  | adjacent (side : Side) (glyph : Glyph) (rules : List GlyphRule) :
    HasTable (.adjacent side glyph rules)
      (StateTable.adjacent side glyph (firstReplacements (substitutions rules)))
  | chain {side : Side} {rules : List GlyphRule} {length : Nat}
      (hlength : chainLength side rules = .ok length) :
    HasTable (.chain side rules)
      (StateTable.chain side length (rules.filterMap GlyphRule.pattern?)
        (firstReplacements (substitutions rules)))
  | between (rules : List GlyphRule) :
    HasTable (.between rules)
      (StateTable.between ((rules.filterMap GlyphRule.sides?).flatMap Prod.fst)
        ((rules.filterMap GlyphRule.sides?).flatMap Prod.snd)
        (firstReplacements (substitutions rules)))
  | betweenChain {n m : Nat} {rules : List GlyphRule} (hn : 0 < n) (hm : 0 < m)
      (hshared : sharedGlyph? [] (StateTable.betweenPositions n m
        (rules.filterMap GlyphRule.sides?)
        ((firstReplacements (substitutions rules)).map Prod.fst)) = none) :
    HasTable (.betweenChain n m rules)
      (StateTable.betweenChain n m (StateTable.betweenPositions n m
        (rules.filterMap GlyphRule.sides?) ((firstReplacements (substitutions rules)).map Prod.fst))
        (firstReplacements (substitutions rules)))
  | whole {rules : List GlyphRule} {length target : Nat}
      (hshape : commonShape rules = .ok (length, target)) :
    HasTable (.whole rules)
      (StateTable.whole length target (rules.filterMap GlyphRule.pattern?)
        (firstReplacements (substitutions rules)))
  | marking {ordinal : Nat} {rule : GlyphRule} {pattern : List Glyph}
      {pairs : List (Glyph × Glyph)} {arena : Arena} {marked : List MarkedTarget}
      (hmarks : Marks rule.line ordinal 0 pattern pairs arena marked) :
    HasTable (.multiPass ordinal rule)
      (StateTable.marking pattern (marked.map MarkedTarget.index)
        (firstReplacements (marked.map fun m => (m.target, m.temp))))

theorem subtables_hasTable {group : RuleGroup} {made : List Subtable} {s s' : Session}
    (h : exec group.subtables s = (.ok made, s')) :
    ∀ sub ∈ made, ∀ table, sub.body.stateTable? = some table → group.HasTable table := by
  have hsingle : ∀ {description : String} {table : StateTable}, group.HasTable table →
      ∀ sub ∈ [(⟨description, .contextual table⟩ : Subtable)], ∀ t,
        sub.body.stateTable? = some t → group.HasTable t := by
    intro description table htable sub hsub t ht
    rw [List.mem_singleton.mp hsub] at ht
    rwa [← Option.some.inj ht]
  cases group with
  | adjacent side glyph rules =>
    obtain ⟨m, h⟩ := exec_merge_bind_ok h
    cases h
    exact hsingle (.adjacent side glyph rules)
  | chain side rules =>
    obtain ⟨length, m, hl, h⟩ := exec_bind_ok h
    obtain ⟨m', h⟩ := exec_merge_bind_ok h
    cases h
    exact hsingle (.chain (exec_inTable_inv hl).1)
  | between rules =>
    obtain ⟨m, h⟩ := exec_merge_bind_ok h
    cases h
    exact hsingle (.between rules)
  | betweenChain first second rules =>
    unfold RuleGroup.subtables at h
    dsimp only at h
    by_cases hz : first = 0 ∨ second = 0
    · rw [if_pos hz] at h
      cases h
    · rw [if_neg hz] at h
      obtain ⟨m, h⟩ := exec_merge_bind_ok h
      split at h
      next => cases h
      next hshared =>
        cases h
        exact hsingle (.betweenChain (by omega) (by omega) hshared)
  | whole rules =>
    obtain ⟨⟨length, target⟩, m, hl, h⟩ := exec_bind_ok h
    obtain ⟨m', h⟩ := exec_merge_bind_ok h
    cases h
    exact hsingle (.whole (exec_inTable_inv hl).1)
  | cleanup description rules =>
    obtain ⟨m, h⟩ := exec_merge_bind_ok h
    cases h
    simp [Body.stateTable?]
  | multiPass ordinal rule =>
    obtain ⟨pattern, marked, pairs, last, _, _, hmarks, rfl⟩ := passes_ok h
    intro sub hsub table ht
    simp only [markedSubtables, List.mem_cons, List.not_mem_nil, or_false] at hsub
    rcases hsub with rfl | rfl | rfl
    · rw [← Option.some.inj ht]
      exact .marking hmarks
    · cases ht
    · cases ht

/-- The state tables of glyph rules are those of their groups. -/
theorem allSubtables_hasTable {rules : List GlyphRule} {made : List Subtable} {s s' : Session}
    (h : exec (GlyphRule.allSubtables rules) s = (.ok made, s')) :
    ∀ sub ∈ made, ∀ table, sub.body.stateTable? = some table →
      ∃ group ∈ RuleGroup.ofRules rules, group.HasTable table := by
  intro sub hsub table htable
  obtain ⟨group, hgroup, ofGroup, before, after, hmem, hmade⟩ := exec_allSubtables_ok h sub hsub
  exact ⟨group, hgroup, subtables_hasTable hmade sub hmem table htable⟩

end Groups

section Windows

/-- The subtable rearranges a window of two or more glyphs. -/
def Subtable.IsWindow (sub : Subtable) : Prop :=
  ∃ w : Window, 2 ≤ w.before.length ∧ sub.body = .rearrangement (StateTable.rearrangement w)

/-- Every window of several rules is one of a rule of them. -/
theorem allWindows_ok {registry : Registry} {rules : List ReorderRule} {windows : List Window}
    {s s' : Session} (h : exec (ReorderRule.allWindows registry rules) s = (.ok windows, s')) :
    ∀ w ∈ windows, ∃ rule ∈ rules, ∃ ofRule before after, w ∈ ofRule ∧
      exec (rule.windows registry) before = (.ok ofRule, after) := by
  obtain ⟨perRule, m, hrules, h⟩ := exec_bind_ok h
  obtain ⟨_, m', _, h⟩ := exec_bind_ok h
  rw [← exec_pure_ok h]
  intro w hw
  obtain ⟨ofRule, hmem, hw⟩ := List.mem_flatten.mp hw
  obtain ⟨rule, hrule, before, after, hmade⟩ := exec_mapM_ok hrules ofRule hmem
  exact ⟨rule, hrule, ofRule, before, after, hw, hmade⟩

/-- Reorder rules have a table for each of their windows. -/
theorem reorder_ok {registry : Registry} {rules : List ReorderRule} {made : List Subtable}
    {s s' : Session} (h : exec (ReorderRule.subtables registry rules) s = (.ok made, s')) :
    ∀ sub ∈ made, ∃ rule ∈ rules, ∃ windows before after, ∃ w ∈ windows,
      exec (rule.windows registry) before = (.ok windows, after) ∧
      sub.body = .rearrangement (StateTable.rearrangement w) := by
  obtain ⟨windows, m, hwindows, h⟩ := exec_bind_ok h
  intro sub hsub
  obtain ⟨w, hw, s₁, s₂, hannounced⟩ := exec_mapM_ok h sub hsub
  obtain ⟨rule, hrule, ofRule, s₃, s₄, hmem, hmade⟩ := allWindows_ok hwindows w hw
  exact ⟨rule, hrule, ofRule, s₃, s₄, w, hmem, hmade, by rw [exec_announce_ok hannounced]⟩

theorem reorder_windows {registry : Registry} {rules : List ReorderRule} {made : List Subtable}
    {s s' : Session} (h : exec (ReorderRule.subtables registry rules) s = (.ok made, s')) :
    ∀ sub ∈ made, sub.IsWindow := by
  intro sub hsub
  obtain ⟨rule, _, windows, before, after, w, hw, hwindows, hbody⟩ := reorder_ok h sub hsub
  exact ⟨w, windows_length hwindows w hw, hbody⟩

end Windows

section Files

variable {registry : Registry} {made : List Subtable} {s s' : Session}

/-- One announced subtable. -/
theorem announced_single {subtable : Subtable}
    (h : exec (do let made ← announce subtable; return [made]) s = (.ok made, s')) :
    made = [subtable] := by
  obtain ⟨announced, m, ha, h⟩ := exec_bind_ok h
  rw [← exec_pure_ok h, exec_announce_ok ha]

theorem simple_tableless {rules : List SimpleRule}
    (h : exec (SimpleRule.subtables registry rules) s = (.ok made, s')) :
    ∀ sub ∈ made, sub.body.stateTable? = none := by
  obtain ⟨perRule, m, _, h⟩ := exec_bind_ok h
  obtain ⟨m', h⟩ := exec_merge_bind_ok h
  simp [announced_single h, Body.stateTable?]

theorem ligature_tableless {rules : List LigatureRule}
    (h : exec (LigatureRule.subtables registry rules) s = (.ok made, s')) :
    ∀ sub ∈ made, sub.body.stateTable? = none := by
  obtain ⟨entries, m, _, h⟩ := exec_bind_ok h
  simp [announced_single h, Body.stateTable?]

theorem oneToMany_tableless {rules : List OneToManyRule}
    (h : exec (OneToManyRule.subtables registry rules) s = (.ok made, s')) :
    ∀ sub ∈ made, sub.body.stateTable? = none := by
  obtain ⟨entries, m, _, h⟩ := exec_bind_ok h
  simp [announced_single h, Body.stateTable?]

theorem ifAny_forall {ρ : Type} {subtables : List ρ → CompileM (List Subtable)} {rules : List ρ}
    {P : Subtable → Prop}
    (hP : ∀ {made s s'}, exec (subtables rules) s = (.ok made, s') → ∀ sub ∈ made, P sub)
    (h : exec (ifAny subtables rules) s = (.ok made, s')) : ∀ sub ∈ made, P sub := by
  unfold ifAny at h
  split at h
  next =>
    rw [← exec_pure_ok h]
    simp
  next => exact hP h

/-- The contextual rules of a file stand for these glyph rules in a session with this arena. -/
def RuleFile.Expands (file : RuleFile) (arena : Arena) (rules : List GlyphRule) : Prop :=
  ∃ registry before after, Registry.ofClasses file.classes = .ok registry ∧
    before.arena = arena ∧
    exec (ContextualRule.allGlyphRules registry file.contextual) before = (.ok rules, after)

/-- No rules have no subtables, and no glyph rules. -/
theorem contextual_ok {rules : List ContextualRule}
    (h : exec (ifAny (ContextualRule.subtables registry) rules) s = (.ok made, s')) :
    ∃ glyphRules m m', exec (ContextualRule.allGlyphRules registry rules) s = (.ok glyphRules, m) ∧
      exec (GlyphRule.allSubtables glyphRules) m = (.ok made, m') ∧
      m'.arena = s'.arena := by
  unfold ifAny at h
  split at h
  next hnone =>
    obtain ⟨hmade, rfl⟩ := Prod.mk.inj h
    rw [List.isEmpty_iff.mp hnone, ← Except.ok.inj hmade]
    exact ⟨[], _, _, rfl, rfl, rfl⟩
  next =>
    obtain ⟨glyphRules, m, hrules, h⟩ := exec_bind_ok h
    exact ⟨glyphRules, m, s', hrules, h, rfl⟩

/-- The document of a rule file has the subtables of its kinds of rules, made one after another. -/
theorem compile_ok {file : RuleFile} {config : Config} {document : Document}
    (h : exec (file.compile config) s = (.ok document, s')) :
    ∃ registry simple ligatures oneToMany contextual reorder m₁ m₂ m₃ m₄ m₅,
      Registry.ofClasses file.classes = .ok registry ∧
      exec (ifAny (SimpleRule.subtables registry) file.simple) s = (.ok simple, m₁) ∧
      exec (ifAny (LigatureRule.subtables registry) file.ligature) m₁ = (.ok ligatures, m₂) ∧
      exec (ifAny (OneToManyRule.subtables registry) file.oneToMany) m₂ = (.ok oneToMany, m₃) ∧
      exec (ifAny (ContextualRule.subtables registry) file.contextual) m₃ = (.ok contextual, m₄) ∧
      exec (ifAny (ReorderRule.subtables registry) file.reorder) m₄ = (.ok reorder, m₅) ∧
      document.subtables = simple ++ ligatures ++ oneToMany ++ contextual ++ reorder ∧
      m₅.arena = s'.arena := by
  unfold RuleFile.compile at h
  split at h
  next => cases h
  next registry hregistry =>
    obtain ⟨simple, m₁, hsimple, h⟩ := exec_bind_ok h
    obtain ⟨ligatures, m₂, hligatures, h⟩ := exec_bind_ok h
    obtain ⟨oneToMany, m₃, honeToMany, h⟩ := exec_bind_ok h
    obtain ⟨contextual, m₄, hcontextual, h⟩ := exec_bind_ok h
    obtain ⟨reorder, m₅, hreorder, h⟩ := exec_bind_ok h
    rw [exec_bind_of_ok (exec_get m₅), exec_bind_of_ok (exec_report _ m₅)] at h
    obtain ⟨hdocument, rfl⟩ := Prod.mk.inj h
    refine ⟨registry, simple, ligatures, oneToMany, contextual, reorder, m₁, m₂, m₃, m₄, m₅,
      hregistry, hsimple, hligatures, honeToMany, hcontextual, hreorder, ?_, rfl⟩
    rw [← Except.ok.inj hdocument]

theorem compile_tables {file : RuleFile} {config : Config} {document : Document}
    (h : exec (file.compile config) s = (.ok document, s')) :
    ∃ rules made m m', file.Expands s.arena rules ∧
      exec (GlyphRule.allSubtables rules) m = (.ok made, m') ∧
      (∀ sub ∈ made, sub ∈ document.subtables) ∧
      ∀ sub ∈ document.subtables,
        sub ∈ made ∨ sub.body.stateTable? = none ∨ sub.IsWindow := by
  obtain ⟨registry, simple, ligatures, oneToMany, contextual, reorder, m₁, m₂, m₃, m₄, m₅, hregistry,
    hsimple, hligatures, honeToMany, hcontextual, hreorder, hdocument, _⟩ := compile_ok h
  -- only contextual rules ask for temporary glyphs
  have h₁ : s.arena = m₁.arena :=
    (Composed.ifAny (composed_simple registry _)).keeps.of_exec hsimple
  have h₂ : m₁.arena = m₂.arena :=
    (Composed.ifAny (composed_ligature registry _)).keeps.of_exec hligatures
  have h₃ : m₂.arena = m₃.arena :=
    (Composed.ifAny (composed_oneToMany registry _)).keeps.of_exec honeToMany
  obtain ⟨rules, m, m', hrules, hmade, _⟩ := contextual_ok hcontextual
  rw [hdocument]
  refine ⟨rules, contextual, m, m',
    ⟨registry, m₃, m, hregistry, (h₁.trans (h₂.trans h₃)).symm, hrules⟩, hmade, ?_, ?_⟩
  · intro sub hsub
    simp only [List.mem_append, hsub, or_true, true_or]
  · intro sub hsub
    simp only [List.mem_append] at hsub
    rcases hsub with (((hsub | hsub) | hsub) | hsub) | hsub
    · exact Or.inr (Or.inl (ifAny_forall simple_tableless hsimple sub hsub))
    · exact Or.inr (Or.inl (ifAny_forall ligature_tableless hligatures sub hsub))
    · exact Or.inr (Or.inl (ifAny_forall oneToMany_tableless honeToMany sub hsub))
    · exact Or.inl hsub
    · exact Or.inr (Or.inr (ifAny_forall reorder_windows hreorder sub hsub))

/-- What holds for the tables of windows holds for all tables of a document exactly if it holds for
those of its glyph rules. -/
theorem compile_forall_tables {file : RuleFile} {config : Config} {document : Document}
    {Q : StateTable → Prop}
    (hwindow : ∀ w : Window, 2 ≤ w.before.length → Q (StateTable.rearrangement w))
    (h : exec (file.compile config) s = (.ok document, s')) :
    ∃ rules made m m', file.Expands s.arena rules ∧
      exec (GlyphRule.allSubtables rules) m = (.ok made, m') ∧
      ((∀ sub ∈ document.subtables, ∀ table, sub.body.stateTable? = some table → Q table) ↔
        ∀ sub ∈ made, ∀ table, sub.body.stateTable? = some table → Q table) := by
  obtain ⟨rules, made, m, m', hexpands, hmade, hsubset, htables⟩ := compile_tables h
  refine ⟨rules, made, m, m', hexpands, hmade, ?_, ?_⟩
  · exact fun hall sub hsub => hall sub (hsubset sub hsub)
  · intro hall sub hsub table htable
    rcases htables sub hsub with hsub | hnone | ⟨w, hlength, hbody⟩
    · exact hall sub hsub table htable
    · rw [hnone] at htable
      cases htable
    · rw [hbody] at htable
      rw [← Option.some.inj htable]
      exact hwindow w hlength

end Files

end Metamorphosis
