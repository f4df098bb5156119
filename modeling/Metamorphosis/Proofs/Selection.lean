import Mathlib.Algebra.BigOperators.Group.List.Basic
import Metamorphosis.Proofs.Outcome
import Metamorphosis.Registry

namespace Metamorphosis

namespace Registry

variable {registry : Registry} {e : Element} {elements : List Element} {glyphs : List Glyph}
  {positions : List (List Glyph)}

/-- The element refers to a class that is not defined. -/
def Lacks (registry : Registry) (e : Element) : Prop :=
  ∃ name, e = .classRef name ∧ name ∉ registry.classes.map GlyphClass.name

/-- The element stands for this number of glyphs. -/
def HasSize (registry : Registry) (n : Nat) (e : Element) : Prop :=
  ∃ glyphs, registry.glyphsOf e = .ok glyphs ∧ glyphs.length = n

theorem find?_eq_none_iff {name : String} :
    registry.find? name = none ↔ name ∉ registry.classes.map GlyphClass.name := by
  rw [find?, List.find?_eq_none]
  simp

theorem exists_glyphsOf_iff :
    (∃ glyphs, registry.glyphsOf e = .ok glyphs) ↔ ¬registry.Lacks e := by
  cases e with
  | glyph name =>
    have hlacks : ¬registry.Lacks (.glyph name) := by
      rintro ⟨_, h, _⟩
      cases h
    exact ⟨fun _ => hlacks, fun _ => ⟨[name], rfl⟩⟩
  | classRef name =>
    have hlacks : registry.Lacks (.classRef name) ↔ registry.find? name = none := by
      rw [find?_eq_none_iff]
      constructor
      · rintro ⟨_, h, hn⟩
        cases h
        exact hn
      · exact fun hn => ⟨name, rfl, hn⟩
    rw [hlacks, glyphsOf]
    cases registry.find? name <;> simp

theorem hasSize_or_iff {m n : Nat} : registry.HasSize m e ∨ registry.HasSize n e ↔
    ∃ glyphs, registry.glyphsOf e = .ok glyphs ∧ (glyphs.length = m ∨ glyphs.length = n) := by
  simp only [HasSize, ← exists_or, and_or_left]

theorem not_lacks_of_hasSize {n : Nat} (h : registry.HasSize n e) : ¬registry.Lacks e := by
  obtain ⟨glyphs, hglyphs, _⟩ := h
  exact exists_glyphsOf_iff.mp ⟨glyphs, hglyphs⟩

theorem exists_positionsOf_iff :
    (∃ positions, registry.positionsOf elements = .ok positions) ↔
      ∀ e ∈ elements, ¬registry.Lacks e := by
  rw [positionsOf, except_mapM_exists_iff]
  simp only [exists_glyphsOf_iff]

/-- What holds of the glyphs of each element holds of each position. -/
theorem forall_positionsOf_iff {P : List Glyph → Prop}
    (h : registry.positionsOf elements = .ok positions) :
    (∀ e ∈ elements, ∃ glyphs, registry.glyphsOf e = .ok glyphs ∧ P glyphs) ↔
      ∀ position ∈ positions, P position := by
  have hall := except_mapM_ok_iff.mp h
  constructor
  · intro hP position hposition
    obtain ⟨e, he, hglyphs⟩ := forall₂_of_mem_right hall position hposition
    obtain ⟨glyphs, hg, hp⟩ := hP e he
    rwa [← Except.ok.inj (hg.symm.trans hglyphs)]
  · intro hP e he
    obtain ⟨position, hposition, hglyphs⟩ := forall₂_of_mem_left hall e he
    exact ⟨position, hglyphs, hP position hposition⟩

theorem exists_positionsOf_forall_iff {P : List Glyph → Prop} :
    (∃ positions, registry.positionsOf elements = .ok positions ∧ ∀ position ∈ positions, P position) ↔
      ∀ e ∈ elements, ∃ glyphs, registry.glyphsOf e = .ok glyphs ∧ P glyphs := by
  constructor
  · intro h
    obtain ⟨positions, hpositions, hP⟩ := h
    exact (forall_positionsOf_iff hpositions).mpr hP
  · intro h
    obtain ⟨positions, hpositions⟩ : ∃ positions, registry.positionsOf elements = .ok positions := by
      refine except_mapM_exists_iff.mpr fun e he => ?_
      obtain ⟨glyphs, hglyphs, _⟩ := h e he
      exact ⟨glyphs, hglyphs⟩
    exact ⟨positions, hpositions, (forall_positionsOf_iff hpositions).mp h⟩

/-- No element stands for nothing. -/
theorem glyphsOf_ne_nil (h : registry.glyphsOf e = .ok glyphs) : glyphs ≠ [] := by
  cases e with
  | glyph name =>
    cases h
    simp
  | classRef name =>
    rw [glyphsOf] at h
    split at h
    next c hc =>
      cases h
      exact registry.glyphs_ne_nil c (List.mem_of_find?_eq_some hc)
    next => cases h

end Registry

section Choices

variable {positions : List (List Glyph)}

/-- Positions that follow extend each choice by all of theirs. -/
theorem foldl_extendChoices (chosen positions : List (List Glyph)) :
    positions.foldl extendChoices chosen =
      chosen.flatMap fun choice => (choices positions).map (choice ++ ·) := by
  induction positions generalizing chosen with
  | nil => simp [choices]
  | cons position rest ih =>
    rw [List.foldl_cons, choices, List.foldl_cons, ih, ih (extendChoices [[]] position)]
    simp [extendChoices, List.flatMap_assoc, List.flatMap_map, List.map_flatMap, Function.comp_def]

theorem choices_nil : choices [] = [[]] := rfl

theorem choices_cons (position : List Glyph) (rest : List (List Glyph)) :
    choices (position :: rest) = position.flatMap fun g => (choices rest).map (g :: ·) := by
  rw [choices, List.foldl_cons, foldl_extendChoices]
  simp [extendChoices, List.flatMap_map]

end Choices

section Columns

variable {positions : List (List Glyph)} {k : Nat}

/-- The `k`-th glyphs of all positions. -/
def IsColumn (positions : List (List Glyph)) (k : Nat) (glyphs : List Glyph) : Prop :=
  positions.map (fun position => position[k]?) = glyphs.map some

theorem isColumn_column (h : ∀ position ∈ positions, k < position.length) :
    IsColumn positions k (column positions k) := by
  unfold IsColumn column
  induction positions with
  | nil => rfl
  | cons position rest ih =>
    have hlt := h position List.mem_cons_self
    have hk : position[k]? = some position[k] := List.getElem?_eq_getElem hlt
    have hrest := ih fun p hp => h p (List.mem_cons_of_mem position hp)
    simp only [List.map_cons, List.filterMap_cons, hk, hrest]

theorem isColumn_of_length {n : Nat} (h : ∀ position ∈ positions, position.length = n)
    (hk : k < n) : IsColumn positions k (column positions k) :=
  isColumn_column fun position hposition => by rwa [h position hposition]

theorem IsColumn.length_eq {glyphs : List Glyph} (h : IsColumn positions k glyphs) :
    positions.length = glyphs.length := by
  simpa using congrArg List.length h

theorem IsColumn.eq_column {glyphs : List Glyph} (h : IsColumn positions k glyphs) :
    glyphs = column positions k := by
  have hfilter := congrArg (List.filterMap id) h
  rw [List.filterMap_map, List.filterMap_map] at hfilter
  simpa [column] using hfilter.symm

/-- The `k`-th glyph of every element. -/
def Registry.Picks (registry : Registry) (k : Nat) (elements : List Element)
    (glyphs : List Glyph) : Prop :=
  List.Forall₂ (fun e g => ∃ all, registry.glyphsOf e = .ok all ∧ all[k]? = some g) elements glyphs

theorem Registry.picks_iff {registry : Registry} {elements : List Element} {glyphs : List Glyph}
    (h : registry.positionsOf elements = .ok positions) :
    registry.Picks k elements glyphs ↔ IsColumn positions k glyphs := by
  unfold Registry.Picks IsColumn
  have hall := except_mapM_ok_iff.mp h
  clear h
  induction hall generalizing glyphs with
  | nil => simp
  | @cons e position _ _ he _ ih =>
    simp only [List.forall₂_cons_left_iff, ih, he, Except.ok.injEq, exists_eq_left', List.map_cons]
    constructor
    · intro h
      obtain ⟨g, rest, hg, hrest, rfl⟩ := h
      rw [hg, hrest, List.map_cons]
    · intro h
      obtain ⟨g, rest, rfl, hg, hrest⟩ := List.map_eq_cons_iff.mp h.symm
      exact ⟨g, rest, hg.symm, hrest.symm, rfl⟩

/-- Lists of one size have one glyph each at every place below it. -/
theorem Registry.picks_iff_eq_column {registry : Registry} {elements : List Element} {n : Nat}
    {glyphs : List Glyph} (h : registry.positionsOf elements = .ok positions)
    (hsizes : ∀ position ∈ positions, position.length = n) (hk : k < n) :
    registry.Picks k elements glyphs ↔ glyphs = column positions k := by
  rw [Registry.picks_iff h]
  constructor
  · exact IsColumn.eq_column
  · intro he
    rw [he]
    exact isColumn_of_length hsizes hk

end Columns

section Spreading

/-- The common size after one more list. -/
def spreadStep (size next : Nat) : Except (Nat × Nat) Nat :=
  if next = 1 ∨ next = size then .ok size
  else if size = 1 then .ok next
  else .error (size, next)

theorem spreadStep_ok_iff {size next size' : Nat} : spreadStep size next = .ok size' ↔
    (size = 1 ∨ size = size') ∧ (next = 1 ∨ next = size') ∧ (size' = size ∨ size' = next) := by
  unfold spreadStep
  split
  next hfits =>
    rw [Except.ok.injEq]
    omega
  next hnot =>
    split
    next hone =>
      rw [Except.ok.injEq]
      omega
    next hmany =>
      constructor
      · intro h
        cases h
      · omega

/-- A size other than one stays the common size to the end. -/
theorem foldlM_spreadStep_ok_iff {sizes : List Nat} {start size : Nat} :
    sizes.foldlM spreadStep start = .ok size ↔
      (start = 1 ∨ start = size) ∧ (∀ n ∈ sizes, n = 1 ∨ n = size) ∧
        (size = start ∨ size ∈ sizes) := by
  induction sizes generalizing start with
  | nil =>
    rw [List.foldlM_nil]
    constructor
    · intro h
      have he : start = size := Except.ok.inj h
      simp [he]
    · rintro ⟨_, _, rfl | h⟩
      · rfl
      · cases h
  | cons next rest ih =>
    rw [List.foldlM_cons, except_bind_ok_iff]
    simp only [spreadStep_ok_iff, ih]
    rw [List.forall_mem_cons, List.mem_cons]
    constructor
    · rintro ⟨size', hstep, hsize', hrest, hlast⟩
      refine ⟨by omega, ⟨by omega, hrest⟩, ?_⟩
      rcases hlast with rfl | hmem
      · omega
      · exact Or.inr (Or.inr hmem)
    · rintro ⟨hstart, ⟨hnext, hrest⟩, hlast⟩
      by_cases hone : start = 1
      · refine ⟨next, by omega, by omega, hrest, ?_⟩
        rcases hlast with rfl | rfl | hmem
        · omega
        · exact Or.inl rfl
        · exact Or.inr hmem
      · exact ⟨start, by omega, by omega, hrest, by omega⟩

/-- Lists have a common size if all that have more than one glyph have that size. -/
theorem spreadSize_ok_iff {sizes : List Nat} {size : Nat} : spreadSize sizes = .ok size ↔
    (∀ n ∈ sizes, n = 1 ∨ n = size) ∧ (size = 1 ∨ size ∈ sizes) := by
  have h : spreadSize sizes = .ok size ↔ _ := @foldlM_spreadStep_ok_iff sizes 1 size
  simpa using h

/-- The common size of some lists is that of one of them. -/
theorem spreadSize_ok_iff_mem {sizes : List Nat} {size : Nat} (hne : sizes ≠ []) :
    spreadSize sizes = .ok size ↔ (∀ n ∈ sizes, n = 1 ∨ n = size) ∧ size ∈ sizes := by
  rw [spreadSize_ok_iff]
  refine and_congr_right fun hfits => ?_
  constructor
  · intro h
    obtain ⟨n, hn⟩ := List.exists_mem_of_ne_nil sizes hne
    rcases h with rfl | hmem
    · rcases hfits n hn with rfl | rfl <;> exact hn
    · exact hmem
  · exact Or.inr

/-- Sizes that fit together with some size have a common one. -/
theorem exists_common_size {sizes : List Nat} {n : Nat} (hne : sizes ≠ [])
    (h : ∀ m ∈ sizes, m = 1 ∨ m = n) : ∃ size ∈ sizes, ∀ m ∈ sizes, m = 1 ∨ m = size := by
  by_cases hn : n ∈ sizes
  · exact ⟨n, hn, h⟩
  · obtain ⟨size, hsize⟩ := List.exists_mem_of_ne_nil sizes hne
    refine ⟨size, hsize, fun m hm => Or.inl ?_⟩
    rcases h m hm with hone | rfl
    · exact hone
    · exact absurd hm hn

/-- A list has a glyph at every place if it has one glyph, or else as many as there are places. -/
theorem spread?_eq_some_iff {glyphs : List Glyph} {k : Nat} {g : Glyph} :
    spread? glyphs k = some g ↔ glyphs = [g] ∨ glyphs.length ≠ 1 ∧ glyphs[k]? = some g := by
  cases glyphs with
  | nil => simp [spread?]
  | cons first rest =>
    cases rest with
    | nil => simp [spread?]
    | cons second rest => simp [spread?]

theorem isSome_spread? {glyphs : List Glyph} {size k : Nat}
    (h : glyphs.length = 1 ∨ glyphs.length = size) (hk : k < size) :
    (spread? glyphs k).isSome = true := by
  rw [Option.isSome_iff_exists]
  simp only [spread?_eq_some_iff]
  by_cases hone : glyphs.length = 1
  · obtain ⟨g, hg⟩ := List.length_eq_one_iff.mp hone
    exact ⟨g, Or.inl hg⟩
  · have hlt : k < glyphs.length := by omega
    exact ⟨glyphs[k], Or.inr ⟨hone, List.getElem?_eq_getElem hlt⟩⟩

end Spreading

end Metamorphosis
