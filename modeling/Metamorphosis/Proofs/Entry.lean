import Metamorphosis.Proofs.Selection
import Metamorphosis.SideBySide

namespace Metamorphosis

/-- From every element its only glyph, or the one at this place if it has several. -/
def Registry.Spreads (registry : Registry) (k : Nat) (elements : List Element)
    (glyphs : List Glyph) : Prop :=
  List.Forall₂ (fun e g => ∃ all, registry.glyphsOf e = .ok all ∧
    (all = [g] ∨ all.length ≠ 1 ∧ all[k]? = some g)) elements glyphs

/-- All elements are defined, and those with several glyphs have equally many. -/
def Registry.FitTogether (registry : Registry) (elements : List Element) : Prop :=
  (∀ e ∈ elements, ¬registry.Lacks e) ∧
    ∃ n ≥ 1, ∀ e ∈ elements, registry.HasSize 1 e ∨ registry.HasSize n e

/-- The largest of the elements has this number of glyphs. -/
structure Registry.Largest (registry : Registry) (elements : List Element) (n : Nat) : Prop where
  le : ∀ e ∈ elements, ∃ glyphs, registry.glyphsOf e = .ok glyphs ∧ glyphs.length ≤ n
  attained : ∃ e ∈ elements, registry.HasSize n e

/-- A head and parts have entries if there are enough parts and all elements fit together. There is
an entry for each glyph of the largest element, and the order of the parts does not matter. -/
structure SpreadsEntries (registry : Registry) (head : Element) (fewest : Nat)
    (entriesOf : List Element → Except RuleFault (List (Glyph × List Glyph))) : Prop where
  succeeds_iff : ∀ parts, (∃ entries, entriesOf parts = .ok entries) ↔
    fewest ≤ parts.length ∧ registry.FitTogether (head :: parts)
  entries_eq : ∀ parts entries, entriesOf parts = .ok entries →
    registry.Largest (head :: parts) entries.length ∧
      ∀ i < entries.length, ∃ entry, entries[i]? = some entry ∧
        registry.Spreads i (head :: parts) (entry.1 :: entry.2)
  order_irrelevant : ∀ parts parts', parts.Perm parts' → ∀ entries, entriesOf parts = .ok entries →
    ∃ entries', entriesOf parts' = .ok entries' ∧ entries'.length = entries.length

section SideBySide

variable {registry : Registry} {head : Element} {parts elements : List Element}
  {fault : Nat → Nat → RuleFault} {entries : List (Glyph × List Glyph)} {heads : List Glyph}
  {positions : List (List Glyph)} {size : Nat}

theorem positionsOf_cons_iff : registry.positionsOf (head :: parts) = .ok (heads :: positions) ↔
    registry.glyphsOf head = .ok heads ∧ registry.positionsOf parts = .ok positions := by
  unfold Registry.positionsOf
  rw [except_mapM_ok_iff, except_mapM_ok_iff, List.forall₂_cons]

theorem sideBySide_ok_iff : sideBySide registry head parts fault = .ok entries ↔
    ∃ heads positions size, registry.positionsOf (head :: parts) = .ok (heads :: positions) ∧
      (∀ glyphs ∈ heads :: positions, glyphs.length = 1 ∨ glyphs.length = size) ∧
      size ∈ (heads :: positions).map List.length ∧
      spreadEntries heads positions size = entries := by
  have hsize : ∀ (heads : List Glyph) (positions : List (List Glyph)) (size : Nat),
      spreadSize ((heads :: positions).map List.length) = .ok size ↔
        (∀ glyphs ∈ heads :: positions, glyphs.length = 1 ∨ glyphs.length = size) ∧
          size ∈ (heads :: positions).map List.length := by
    intro heads positions size
    rw [spreadSize_ok_iff_mem (by simp), List.forall_mem_map]
  unfold sideBySide
  rw [except_bind_ok_iff]
  simp only [except_bind_ok_iff, positionsOf_cons_iff]
  constructor
  · intro h
    obtain ⟨heads, hheads, positions, hpositions, h⟩ := h
    split at h
    next size hs =>
      obtain ⟨hfits, hmem⟩ := (hsize heads positions size).mp hs
      exact ⟨heads, positions, size, ⟨hheads, hpositions⟩, hfits, hmem, Except.ok.inj h⟩
    next => cases h
  · intro h
    obtain ⟨heads, positions, size, ⟨hheads, hpositions⟩, hfits, hmem, rfl⟩ := h
    refine ⟨heads, hheads, positions, hpositions, ?_⟩
    rw [(hsize heads positions size).mpr ⟨hfits, hmem⟩]
    rfl

/-- Every place below the common size has an entry with a glyph of each list. -/
theorem spreadEntries_forall₂
    (h : ∀ glyphs ∈ heads :: positions, glyphs.length = 1 ∨ glyphs.length = size) :
    List.Forall₂ (fun k entry => List.Forall₂ (fun glyphs g => spread? glyphs k = some g)
      (heads :: positions) (entry.1 :: entry.2))
      (List.range size) (spreadEntries heads positions size) := by
  have hhead := h heads List.mem_cons_self
  have hparts : ∀ glyphs ∈ positions, glyphs.length = 1 ∨ glyphs.length = size :=
    fun glyphs hg => h glyphs (List.mem_cons_of_mem heads hg)
  have hsome : ∀ k ∈ List.range size, ((spread? heads k).map fun g =>
      (g, positions.filterMap (spread? · k))).isSome = true := by
    intro k hk
    rw [Option.isSome_map]
    exact isSome_spread? hhead (List.mem_range.mp hk)
  have hall := (List.forall₂_and_left _ _).mpr
    ⟨fun k hk => List.mem_range.mp hk, forall₂_filterMap hsome⟩
  refine hall.imp fun k entry hentry => ?_
  obtain ⟨hk, hentry⟩ := hentry
  obtain ⟨g, hg, rfl⟩ := Option.map_eq_some_iff.mp hentry
  exact .cons hg (forall₂_filterMap fun glyphs hglyphs => isSome_spread? (hparts glyphs hglyphs) hk)

theorem one_le_length (hpositions : registry.positionsOf elements = .ok positions) :
    ∀ glyphs ∈ positions, 1 ≤ glyphs.length := by
  intro glyphs hglyphs
  obtain ⟨e, _, he⟩ := except_mapM_ok hpositions glyphs hglyphs
  exact List.length_pos_iff.mpr (Registry.glyphsOf_ne_nil he)

theorem exists_sideBySide_iff : (∃ entries, sideBySide registry head parts fault = .ok entries) ↔
    registry.FitTogether (head :: parts) := by
  unfold Registry.FitTogether
  simp only [sideBySide_ok_iff, Registry.hasSize_or_iff]
  constructor
  · intro h
    obtain ⟨_, heads, positions, size, hpositions, hfits, hmem, _⟩ := h
    refine ⟨Registry.exists_positionsOf_iff.mp ⟨_, hpositions⟩, size, ?_, ?_⟩
    · obtain ⟨glyphs, hglyphs, rfl⟩ := List.mem_map.mp hmem
      exact one_le_length hpositions glyphs hglyphs
    · exact (Registry.forall_positionsOf_iff hpositions).mpr hfits
  · intro h
    obtain ⟨_, n, _, hsizes⟩ := h
    obtain ⟨lists, hlists, hfits⟩ := Registry.exists_positionsOf_forall_iff.mpr hsizes
    obtain ⟨heads, positions, _, _, rfl⟩ :=
      List.forall₂_cons_left_iff.mp (except_mapM_ok_iff.mp hlists)
    obtain ⟨size, hmem, hcommon⟩ := exists_common_size (by simp) (List.forall_mem_map.mpr hfits)
    exact ⟨_, heads, positions, size, hlists, List.forall_mem_map.mp hcommon, hmem, rfl⟩

theorem sideBySide_entries (h : sideBySide registry head parts fault = .ok entries) :
    registry.Largest (head :: parts) entries.length ∧
      ∀ i < entries.length, ∃ entry, entries[i]? = some entry ∧
        registry.Spreads i (head :: parts) (entry.1 :: entry.2) := by
  obtain ⟨heads, positions, size, hpositions, hfits, hmem, rfl⟩ := sideBySide_ok_iff.mp h
  have hall := spreadEntries_forall₂ hfits
  have hlength : (spreadEntries heads positions size).length = size := by
    rw [← hall.length_eq, List.length_range]
  obtain ⟨largest, hlargest, hsize⟩ := List.mem_map.mp hmem
  have hpos : 1 ≤ size := hsize ▸ one_le_length hpositions largest hlargest
  rw [hlength]
  refine ⟨⟨?_, ?_⟩, fun i hi => ?_⟩
  · refine (Registry.forall_positionsOf_iff hpositions).mpr fun glyphs hglyphs => ?_
    rcases hfits glyphs hglyphs with hone | hsame <;> omega
  · obtain ⟨e, he, hglyphs⟩ := except_mapM_ok hpositions largest hlargest
    exact ⟨e, he, largest, hglyphs, hsize⟩
  · have hentry : i < (spreadEntries heads positions size).length := by omega
    have hspread := hall.get (by simpa using hi) hentry
    rw [List.get_eq_getElem, List.getElem_range] at hspread
    refine ⟨_, List.getElem?_eq_getElem hentry, ?_⟩
    exact forall₂_comp (except_mapM_ok_iff.mp hpositions)
      (hspread.imp fun _ _ hg => spread?_eq_some_iff.mp hg)

/-- Whether elements fit together depends only on which elements there are. -/
theorem Registry.FitTogether.of_mem {elements' : List Element} (h : registry.FitTogether elements)
    (hmem : ∀ e ∈ elements', e ∈ elements) : registry.FitTogether elements' := by
  obtain ⟨hdefined, n, hpos, hsizes⟩ := h
  exact ⟨fun e he => hdefined e (hmem e he), n, hpos, fun e he => hsizes e (hmem e he)⟩

theorem Registry.Largest.le_of_mem {elements' : List Element} {n n' : Nat}
    (h : registry.Largest elements n) (h' : registry.Largest elements' n')
    (hmem : ∀ e ∈ elements', e ∈ elements) : n' ≤ n := by
  obtain ⟨e, he, largest, hlargest, hsize⟩ := h'.attained
  obtain ⟨glyphs, hglyphs, hle⟩ := h.le e (hmem e he)
  have hsame : largest = glyphs := Except.ok.inj (hlargest.symm.trans hglyphs)
  subst hsame
  omega

theorem spreadsEntries_of_ok_iff {fewest : Nat}
    {entriesOf : List Element → Except RuleFault (List (Glyph × List Glyph))}
    (h : ∀ parts entries, entriesOf parts = .ok entries ↔
      fewest ≤ parts.length ∧ sideBySide registry head parts fault = .ok entries) :
    SpreadsEntries registry head fewest entriesOf := by
  have hsucceeds : ∀ parts, (∃ entries, entriesOf parts = .ok entries) ↔
      fewest ≤ parts.length ∧ registry.FitTogether (head :: parts) := by
    intro parts
    simp only [h, exists_and_left, exists_sideBySide_iff]
  refine ⟨hsucceeds, fun parts entries hok => sideBySide_entries ((h parts entries).mp hok).2, ?_⟩
  intro parts parts' hperm entries hok
  have hmem : ∀ e, e ∈ head :: parts' ↔ e ∈ head :: parts := fun e => (hperm.cons head).symm.mem_iff
  obtain ⟨hfewest, hfit⟩ := (hsucceeds parts).mp ⟨entries, hok⟩
  obtain ⟨entries', hok'⟩ := (hsucceeds parts').mpr
    ⟨hperm.length_eq ▸ hfewest, hfit.of_mem fun e he => (hmem e).mp he⟩
  obtain ⟨hlargest, _⟩ := sideBySide_entries ((h parts entries).mp hok).2
  obtain ⟨hlargest', _⟩ := sideBySide_entries ((h parts' entries').mp hok').2
  refine ⟨entries', hok', Nat.le_antisymm ?_ ?_⟩
  · exact hlargest.le_of_mem hlargest' fun e he => (hmem e).mp he
  · exact hlargest'.le_of_mem hlargest fun e he => (hmem e).mpr he

end SideBySide

section Rules

variable {registry : Registry} {entries : List (Glyph × List Glyph)}

theorem LigatureRule.entries_ok_iff {rule : LigatureRule} : rule.entries registry = .ok entries ↔
    2 ≤ rule.components.length ∧
      sideBySide registry rule.ligature rule.components .ligatureSizes = .ok entries := by
  unfold LigatureRule.entries
  dsimp only
  rw [except_guard_ok_iff, Nat.not_lt]

theorem OneToManyRule.entries_ok_iff {rule : OneToManyRule} :
    rule.entries registry = .ok entries ↔ 1 ≤ rule.targets.length ∧
      sideBySide registry rule.source rule.targets .oneToManySizes = .ok entries := by
  unfold OneToManyRule.entries
  dsimp only
  rw [except_guard_ok_iff, List.isEmpty_iff, Nat.one_le_iff_ne_zero, ne_eq,
    List.length_eq_zero_iff]

end Rules

end Metamorphosis
