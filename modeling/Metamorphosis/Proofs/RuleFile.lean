import Metamorphosis.Proofs.GlyphRule.Provenance
import Metamorphosis.RuleFile

namespace Metamorphosis

theorem classes_ofClasses {classes : List GlyphClass} {registry : Registry}
    (h : Registry.ofClasses classes = .ok registry) : registry.classes = classes := by
  have hfold : ∀ (start : Registry), classes.foldlM Registry.insert start = .ok registry →
      registry.classes = start.classes ++ classes := by
    clear h
    induction classes with
    | nil =>
      intro start h
      cases h
      simp
    | cons c classes ih =>
      intro start h
      rw [List.foldlM_cons] at h
      obtain ⟨next, hnext, h⟩ := except_bind_ok h
      rw [ih next h]
      unfold Registry.insert at hnext
      split at hnext
      next => cases hnext
      next =>
        split at hnext
        next => cases hnext
        next =>
          cases hnext
          simp
  simpa [Registry.empty] using hfold Registry.empty h

namespace RuleFile

variable {f : RuleFile} {registry : Registry}

/-- Every glyph that a class lists or a rule names. -/
def glyphNames (f : RuleFile) : List Glyph :=
  f.glyphUses.map GlyphUse.name

theorem mem_glyphNames_class {c : GlyphClass} (hc : c ∈ f.classes) {g : Glyph}
    (hg : g ∈ c.glyphs) : g ∈ f.glyphNames := by
  refine List.mem_map.mpr ⟨⟨g, none⟩, List.mem_append_left _ ?_, rfl⟩
  exact List.mem_flatMap.mpr ⟨c, hc, List.mem_map_of_mem hg⟩

theorem mem_glyphNames_element {g : Glyph} {line : Nat} (h : (.glyph g, line) ∈ f.elements) :
    g ∈ f.glyphNames := by
  refine List.mem_map.mpr ⟨⟨g, some line⟩, List.mem_append_right _ ?_, rfl⟩
  exact List.mem_filterMap.mpr ⟨_, h, rfl⟩

/-- What an element of a rule stands for is named. -/
theorem supplies_glyphNames (h : Registry.ofClasses f.classes = .ok registry) {e : Element}
    {line : Nat} (he : (e, line) ∈ f.elements) : registry.Supplies (· ∈ f.glyphNames) e := by
  intro glyphs hglyphs g hg
  cases e with
  | glyph name =>
    cases hglyphs
    rw [List.mem_singleton.mp hg]
    exact mem_glyphNames_element he
  | classRef name =>
    rw [Registry.glyphsOf] at hglyphs
    split at hglyphs
    next c hc =>
      cases hglyphs
      have hmem := List.mem_of_find?_eq_some hc
      rw [classes_ofClasses h] at hmem
      exact mem_glyphNames_class hmem hg
    next => cases hglyphs

section Elements

variable {e : Element}

theorem mem_elements_contextual {r : ContextualRule} (hr : r ∈ f.contextual)
    (he : e ∈ r.context.elements ++ r.pairs.flatMap fun p => [p.target, p.replacement]) :
    (e, r.line) ∈ f.elements := by
  simp only [elements, List.mem_append]
  exact Or.inl (Or.inl (Or.inl (Or.inl (List.mem_flatMap.mpr ⟨r, hr, List.mem_map_of_mem he⟩))))

theorem mem_elements_reorder {r : ReorderRule} (hr : r ∈ f.reorder)
    (he : e ∈ r.before ++ r.after) : (e, r.line) ∈ f.elements := by
  simp only [elements, List.mem_append]
  exact Or.inl (Or.inl (Or.inl (Or.inr (List.mem_flatMap.mpr ⟨r, hr, List.mem_map_of_mem he⟩))))

theorem mem_elements_simple {r : SimpleRule} (hr : r ∈ f.simple)
    (he : e ∈ [r.target, r.replacement]) : (e, r.line) ∈ f.elements := by
  simp only [elements, List.mem_append]
  exact Or.inl (Or.inl (Or.inr (List.mem_flatMap.mpr ⟨r, hr, List.mem_map_of_mem he⟩)))

theorem mem_elements_ligature {r : LigatureRule} (hr : r ∈ f.ligature)
    (he : e ∈ r.ligature :: r.components) : (e, r.line) ∈ f.elements := by
  simp only [elements, List.mem_append]
  exact Or.inl (Or.inr (List.mem_flatMap.mpr ⟨r, hr, List.mem_map_of_mem he⟩))

theorem mem_elements_oneToMany {r : OneToManyRule} (hr : r ∈ f.oneToMany)
    (he : e ∈ r.source :: r.targets) : (e, r.line) ∈ f.elements := by
  simp only [elements, List.mem_append]
  exact Or.inr (List.mem_flatMap.mpr ⟨r, hr, List.mem_map_of_mem he⟩)

end Elements

end RuleFile

end Metamorphosis
