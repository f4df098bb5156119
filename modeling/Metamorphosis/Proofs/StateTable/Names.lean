import Metamorphosis.Proofs.StateTable.Adjacent
import Metamorphosis.Proofs.StateTable.Between
import Metamorphosis.Proofs.StateTable.Chain
import Metamorphosis.StateTable.BetweenChain
import Metamorphosis.StateTable.Pattern

namespace Metamorphosis

namespace StateTable

/-- Every glyph in a class or a substitution of the table. -/
def glyphs (t : StateTable) : List Glyph :=
  t.classes.flatMap GlyphClass.glyphs ++
    t.substitutions.flatMap fun s => s.entries.flatMap fun e => [e.1, e.2]

section Names

variable {P : Glyph → Prop}

theorem forall_glyphs_build {classes : List (String × List Glyph)} {states : List String}
    {routes : List Route} {transitions : List Transition}
    (hc : ∀ c ∈ classes, ∀ g ∈ c.2, P g) :
    ∀ g ∈ (build classes states routes transitions).glyphs, P g := by
  intro g hg
  rw [glyphs, build_substitutions, List.flatMap_nil, List.append_nil] at hg
  obtain ⟨c, hmem, hg⟩ := List.mem_flatMap.mp hg
  have hholds : (build classes states routes transitions).Holds c.name g := ⟨c, hmem, rfl, hg⟩
  obtain ⟨members, hmembers, hg⟩ := holds_build.mp hholds
  exact hc _ hmembers g hg

theorem forall_glyphs_addSubstitution {t : StateTable} {name : String}
    {entries : List (Glyph × Glyph)} (ht : ∀ g ∈ t.glyphs, P g)
    (he : ∀ e ∈ entries, P e.1 ∧ P e.2) : ∀ g ∈ (t.addSubstitution name entries).glyphs, P g := by
  obtain ⟨hclasses, hsubstitutions⟩ := List.forall_mem_append.mp ht
  refine List.forall_mem_append.mpr ⟨hclasses, ?_⟩
  intro g hg
  rw [addSubstitution, List.flatMap_append, List.flatMap_singleton] at hg
  rcases List.mem_append.mp hg with hg | hg
  · exact hsubstitutions g hg
  · obtain ⟨e, hmem, hg⟩ := List.mem_flatMap.mp hg
    simp only [List.mem_cons, List.not_mem_nil, or_false] at hg
    rcases hg with rfl | rfl
    · exact (he e hmem).1
    · exact (he e hmem).2

theorem forall_targets {entries : List (Glyph × Glyph)} (he : ∀ e ∈ entries, P e.1 ∧ P e.2) :
    ∀ g ∈ entries.map Prod.fst, P g := by
  intro g hg
  obtain ⟨e, hmem, rfl⟩ := List.mem_map.mp hg
  exact (he e hmem).1

theorem forall_positionGlyphs {patterns : List (List Glyph)} (hp : ∀ p ∈ patterns, ∀ g ∈ p, P g)
    (length : Nat) : ∀ members ∈ positionGlyphs patterns length, ∀ g ∈ members, P g := by
  intro members hmembers g hg
  obtain ⟨i, _, rfl⟩ := List.mem_map.mp hmembers
  obtain ⟨pattern, hpattern, hi⟩ := List.mem_filterMap.mp hg
  exact hp pattern hpattern g (List.mem_of_getElem? hi)

variable {entries : List (Glyph × Glyph)}

theorem forall_glyphs_adjacent (side : Side) {glyph : Glyph} (hglyph : P glyph)
    (he : ∀ e ∈ entries, P e.1 ∧ P e.2) : ∀ g ∈ (adjacent side glyph entries).glyphs, P g := by
  have hclasses : ∀ c ∈ adjacentClasses glyph (entries.map Prod.fst), ∀ g ∈ c.2, P g := by
    intro c hc g hg
    simp only [adjacentClasses, List.mem_cons, List.not_mem_nil, or_false] at hc
    rcases hc with rfl | rfl | rfl
    · rw [beq_iff_eq.mp (mem_contextOnly.mp hg).1]
      exact hglyph
    · exact forall_targets he g (List.contains_iff_mem.mp (mem_targetOnly.mp hg).2)
    · exact forall_targets he g (List.contains_iff_mem.mp (mem_both.mp hg).2)
  cases side <;> exact forall_glyphs_addSubstitution (forall_glyphs_build hclasses) he

theorem forall_glyphs_chain (side : Side) (length : Nat) {patterns : List (List Glyph)}
    (hp : ∀ p ∈ patterns, ∀ g ∈ p, P g) (he : ∀ e ∈ entries, P e.1 ∧ P e.2) :
    ∀ g ∈ (chain side length patterns entries).glyphs, P g := by
  have hclasses : ∀ c ∈ chainClasses (positionGlyphs patterns length) (entries.map Prod.fst),
      ∀ g ∈ c.2, P g := by
    intro c hc
    rcases mem_chainClasses.mp hc with ⟨j, hj, _⟩ | ⟨_, hc⟩
    · exact forall_positionGlyphs hp length c.2 (List.mem_of_getElem? hj)
    · rw [hc]
      exact forall_targets he
  cases side <;> exact forall_glyphs_addSubstitution (forall_glyphs_build hclasses) he

theorem forall_glyphs_between {firsts seconds : List Glyph} (hf : ∀ g ∈ firsts, P g)
    (hs : ∀ g ∈ seconds, P g) (he : ∀ e ∈ entries, P e.1 ∧ P e.2) :
    ∀ g ∈ (between firsts seconds entries).glyphs, P g := by
  rw [between_eq]
  refine forall_glyphs_addSubstitution (forall_glyphs_build ?_) he
  intro c hc g hg
  obtain ⟨r, _, rfl⟩ := List.mem_map.mp hc
  have hall : ∀ g ∈ firsts ++ seconds ++ entries.map Prod.fst, P g :=
    List.forall_mem_append.mpr ⟨List.forall_mem_append.mpr ⟨hf, hs⟩, forall_targets he⟩
  exact hall g (mem_betweenMembers.mp hg).1

theorem forall_betweenPositions {n m : Nat} {sides : List (List Glyph × List Glyph)}
    {targets : List Glyph} (hs : ∀ s ∈ sides, (∀ g ∈ s.1, P g) ∧ ∀ g ∈ s.2, P g)
    (ht : ∀ g ∈ targets, P g) :
    ∀ p ∈ betweenPositions n m sides targets, ∀ g ∈ p.glyphs, P g := by
  have hside : ∀ side : List Glyph × List Glyph → List Glyph,
      (∀ s ∈ sides, ∀ g ∈ side s, P g) → ∀ p ∈ sides.map side, ∀ g ∈ p, P g := by
    intro side hside p hp
    obtain ⟨s, hs, rfl⟩ := List.mem_map.mp hp
    exact hside s hs
  intro p hp g hg
  simp only [betweenPositions, List.mem_append, List.mem_map, List.mem_singleton] at hp
  rcases hp with (⟨x, hx, rfl⟩ | rfl) | ⟨x, hx, rfl⟩
  · exact forall_positionGlyphs (hside Prod.fst fun s hmem => (hs s hmem).1) n x.1
      (List.fst_mem_of_mem_zipIdx hx) g (mem_glyphSet.mp hg)
  · exact ht g (mem_glyphSet.mp hg)
  · exact forall_positionGlyphs (hside Prod.snd fun s hmem => (hs s hmem).2) m x.1
      (List.fst_mem_of_mem_zipIdx hx) g (mem_glyphSet.mp hg)

theorem forall_glyphs_betweenChain (n m : Nat) {positions : List MatchPosition}
    (hp : ∀ p ∈ positions, ∀ g ∈ p.glyphs, P g) (he : ∀ e ∈ entries, P e.1 ∧ P e.2) :
    ∀ g ∈ (betweenChain n m positions entries).glyphs, P g := by
  refine forall_glyphs_addSubstitution (forall_glyphs_build ?_) he
  intro c hc
  obtain ⟨p, hmem, rfl⟩ := List.mem_map.mp hc
  exact hp p hmem

theorem forall_glyphs_whole (length target : Nat) {patterns : List (List Glyph)}
    (hp : ∀ p ∈ patterns, ∀ g ∈ p, P g) (he : ∀ e ∈ entries, P e.1 ∧ P e.2) :
    ∀ g ∈ (whole length target patterns entries).glyphs, P g := by
  refine forall_glyphs_addSubstitution (forall_glyphs_build ?_) he
  intro c hc
  obtain ⟨x, hx, rfl⟩ := List.mem_map.mp hc
  exact forall_positionGlyphs hp length x.1 (List.fst_mem_of_mem_zipIdx hx)

theorem forall_placeClasses {window : List Glyph} (hw : ∀ g ∈ window, P g) :
    ∀ c ∈ placeClasses window, ∀ g ∈ c.2, P g := by
  intro c hc g hg
  obtain ⟨h, hmem, rfl⟩ := List.mem_map.mp hc
  rw [List.mem_singleton.mp hg]
  exact hw h hmem

theorem forall_glyphs_marking {pattern : List Glyph} (hp : ∀ g ∈ pattern, P g)
    (marked : List Nat) (he : ∀ e ∈ entries, P e.1 ∧ P e.2) :
    ∀ g ∈ (marking pattern marked entries).glyphs, P g :=
  forall_glyphs_addSubstitution (forall_glyphs_build (forall_placeClasses hp)) he

theorem forall_glyphs_rearrangement {w : Window} (hw : ∀ g ∈ w.before, P g) :
    ∀ g ∈ (rearrangement w).glyphs, P g :=
  forall_glyphs_build (forall_placeClasses hw)

end Names

end StateTable

end Metamorphosis
