import Mathlib.Data.List.Nodup
import Mathlib.Data.List.Perm.Basic
import Mathlib.Data.Option.Basic
import Metamorphosis.Proofs.Outcome
import Metamorphosis.Verb

namespace Metamorphosis

namespace Verb

variable {α β : Type} {before after : List Glyph} {moves : List Nat} {v : Verb}

section Table

/-- The table holds permutations of two to four glyphs. -/
theorem supported_permutations : ∀ entry ∈ supported,
    entry.1.Perm (List.range entry.1.length) ∧ 2 ≤ entry.1.length ∧ entry.1.length ≤ 4 := by
  decide

theorem lookup_supported : supported.lookup moves = some v ↔ (moves, v) ∈ supported := by
  constructor
  · intro h
    obtain ⟨front, rest, he, _⟩ := List.lookup_eq_some_iff.mp h
    rw [he]
    exact List.mem_append_right front List.mem_cons_self
  · have hfirst : ∀ entry ∈ supported, supported.lookup entry.1 = some entry.2 := by decide
    exact hfirst (moves, v)

end Table

section Moves

/-- Every glyph of `before` stands in `after` at the place it moves to. -/
def Moves (moves : List Nat) (before after : List Glyph) : Prop :=
  List.Forall₂ (fun g place => after[place]? = some g) before moves

theorem moves_iff : Moves moves before after ↔ moves.length = before.length ∧
    ∀ i < before.length, ∃ place, moves[i]? = some place ∧ after[place]? = before[i]? := by
  unfold Moves
  rw [List.forall₂_iff_get]
  constructor
  · rintro ⟨hlength, h⟩
    refine ⟨hlength.symm, fun i hi => ?_⟩
    have hi' : i < moves.length := by omega
    have hg : after[moves[i]]? = some before[i] := h i hi hi'
    exact ⟨moves[i], List.getElem?_eq_getElem hi', hg.trans (List.getElem?_eq_getElem hi).symm⟩
  · rintro ⟨hlength, h⟩
    refine ⟨hlength.symm, fun i hi hi' => ?_⟩
    obtain ⟨place, hplace, hg⟩ := h i hi
    obtain ⟨_, rfl⟩ := List.getElem?_eq_some_iff.mp hplace
    exact hg.trans (List.getElem?_eq_getElem hi)

/-- Where nothing moves, every place is its own. -/
theorem moves_range (window : List Glyph) :
    Moves (List.range window.length) window window :=
  moves_iff.mpr ⟨List.length_range, fun i hi => ⟨i, List.getElem?_range hi, rfl⟩⟩

/-- Read at the places of its glyphs, the window after gives the window before. -/
theorem Moves.map_getD (h : Moves moves before after) : moves.map (after.getD · "") = before := by
  induction h with
  | nil => rfl
  | cons hg _ ih => rw [List.map_cons, ih, List.getD_eq_getElem?_getD, hg, Option.getD_some]

theorem Moves.map_idxOf (h : Moves moves before after) (hnodup : after.Nodup) :
    before.map after.idxOf = moves := by
  induction h with
  | nil => rfl
  | cons hg _ ih =>
    obtain ⟨hlt, rfl⟩ := List.getElem?_eq_some_iff.mp hg
    rw [List.map_cons, ih, hnodup.idxOf_getElem _ hlt]

/-- The two sides of a window tell the places. -/
theorem Moves.unique {moves' : List Nat} (h : Moves moves before after)
    (h' : Moves moves' before after) (hnodup : after.Nodup) : moves = moves' :=
  (h.map_idxOf hnodup).symm.trans (h'.map_idxOf hnodup)

/-- A window moved by a permutation is a rearrangement. -/
theorem Moves.perm (h : Moves moves before after)
    (hmoves : moves.Perm (List.range after.length)) : before.Perm after := by
  rw [← h.map_getD]
  nth_rewrite 2 [← (moves_range after).map_getD]
  exact hmoves.map _

/-- Moves do not depend on the names of glyphs. -/
theorem moves_map {f : Glyph → Glyph} (hf : Function.Injective f) :
    Moves moves (before.map f) (after.map f) ↔ Moves moves before after := by
  unfold Moves
  rw [List.forall₂_map_left_iff]
  simp only [List.getElem?_map, Option.map_eq_some_iff, hf.eq_iff, exists_eq_right]

theorem places_ok : places before after = .ok moves ↔
    List.Forall₂ (fun g place => after.idxOf? g = some place) before moves := by
  unfold places
  rw [except_mapM_ok_iff]
  constructor
  · intro h
    refine h.imp fun g place hg => ?_
    split at hg
    next i hi => rw [hi, Except.ok.inj hg]
    next => cases hg
  · intro h
    refine h.imp fun g place hg => ?_
    rw [hg]

/-- The first place of a glyph is one of its places. -/
theorem moves_of_places (h : places before after = .ok moves) : Moves moves before after := by
  refine (places_ok.mp h).imp fun g place hg => ?_
  obtain ⟨hlt, hplace, _⟩ := List.idxOf?_eq_some_iff.mp hg
  exact List.getElem?_eq_some_iff.mpr ⟨hlt, hplace⟩

/-- Where no glyph is there twice, its first place is its only one. -/
theorem Moves.places_eq (h : Moves moves before after) (hnodup : after.Nodup) :
    places before after = .ok moves := by
  refine places_ok.mpr (h.imp fun g place hg => ?_)
  obtain ⟨hlt, hplace⟩ := List.getElem?_eq_some_iff.mp hg
  refine List.idxOf?_eq_some_iff.mpr ⟨hlt, hplace, ?_⟩
  intro j hj he
  have hsame := hnodup.getElem_inj_iff.mp (he.trans hplace.symm)
  omega

/-- Glyphs with different first places are different. -/
theorem nodup_of_places (h : places before after = .ok moves) (hmoves : moves.Nodup) :
    before.Nodup := by
  have hmap : before.map after.idxOf? = moves.map some := by
    have hplaces : List.Forall₂ Eq (before.map after.idxOf?) (moves.map some) := by
      rw [List.forall₂_map_left_iff, List.forall₂_map_right_iff]
      exact places_ok.mp h
    rwa [List.forall₂_eq_eq_eq] at hplaces
  apply List.Nodup.of_map after.idxOf?
  rw [hmap]
  exact hmoves.map (Option.some_injective Nat)

end Moves

section Detection

/-- A window moved by a permutation of the table is a rearrangement. -/
theorem Moves.perm_of_supported (hmoves : Moves moves before after) (hmem : (moves, v) ∈ supported)
    (hsides : before.length = after.length) : before.Perm after := by
  have hperm := (supported_permutations _ hmem).1
  have hlength : before.length = moves.length := hmoves.length_eq
  rw [← hlength, hsides] at hperm
  exact hmoves.perm hperm

/-- The permutation that a window with a verb moves its glyphs by. -/
theorem detect_ok_places (h : detect before after = .ok v) :
    before.length = after.length ∧
      ∃ moves, (moves, v) ∈ supported ∧ places before after = .ok moves := by
  unfold detect at h
  split at h
  next => cases h
  next hsides =>
    split at h
    next => cases h
    next =>
      split at h
      next => cases h
      next moves hplaces =>
        split at h
        next w hw =>
          rw [← Except.ok.inj h]
          exact ⟨not_not.mp hsides, moves, lookup_supported.mp hw, hplaces⟩
        next => split at h <;> cases h

/-- A window has the verb of the permutation that moves its glyphs, if these are distinct. -/
theorem detect_ok_iff : detect before after = .ok v ↔
    before.length = after.length ∧ before.Nodup ∧
      ∃ moves, (moves, v) ∈ supported ∧ Moves moves before after := by
  constructor
  · intro h
    obtain ⟨hsides, moves, hmem, hplaces⟩ := detect_ok_places h
    have hperm := (supported_permutations _ hmem).1
    refine ⟨hsides, nodup_of_places hplaces (hperm.nodup_iff.mpr List.nodup_range), moves, hmem, ?_⟩
    exact moves_of_places hplaces
  · rintro ⟨hsides, hnodup, moves, hmem, hmoves⟩
    have hafter := (hmoves.perm_of_supported hmem hsides).nodup_iff.mp hnodup
    have hinside : ¬(before.length < 2 ∨ 4 < before.length) := by
      have hlength : before.length = moves.length := hmoves.length_eq
      have hbounds := (supported_permutations _ hmem).2
      simp only at hbounds
      omega
    unfold detect
    rw [if_neg (not_not.mpr hsides), if_neg hinside, hmoves.places_eq hafter]
    simp only [lookup_supported.mpr hmem]

theorem length_of_detect (h : detect before after = .ok v) :
    2 ≤ before.length ∧ before.length ≤ 4 := by
  obtain ⟨_, _, moves, hmem, hmoves⟩ := detect_ok_iff.mp h
  have hbounds := (supported_permutations _ hmem).2
  rwa [← (hmoves.length_eq : before.length = moves.length)] at hbounds

/-- A window has a verb exactly if it moves two to four distinct glyphs by a permutation of the
table. It is then a rearrangement that has no glyph twice. Renaming glyphs, different ones to
different ones, changes neither whether a window has a verb nor which. -/
theorem detect_supported_permutations (before after : List Glyph) :
    ((∃ v, detect before after = .ok v) ↔
      before.length = after.length ∧ 2 ≤ before.length ∧ before.length ≤ 4 ∧ before.Nodup ∧
        ∃ moves ∈ supported.map Prod.fst, moves.Perm (List.range before.length) ∧
          ∀ i < before.length, ∃ place, moves[i]? = some place ∧ after[place]? = before[i]?) ∧
    (∀ v, detect before after = .ok v → after.Perm before ∧ after.Nodup) ∧
    ∀ f : Glyph → Glyph, Function.Injective f → ∀ v,
      (detect (before.map f) (after.map f) = .ok v ↔ detect before after = .ok v) := by
  refine ⟨⟨?_, ?_⟩, ?_, ?_⟩
  · rintro ⟨v, h⟩
    obtain ⟨hsides, hnodup, moves, hmem, hmoves⟩ := detect_ok_iff.mp h
    obtain ⟨htwo, hfour⟩ := length_of_detect h
    obtain ⟨hlength, hplaces⟩ := moves_iff.mp hmoves
    have hperm := (supported_permutations _ hmem).1
    rw [hlength] at hperm
    exact ⟨hsides, htwo, hfour, hnodup, moves, List.mem_map.mpr ⟨_, hmem, rfl⟩, hperm, hplaces⟩
  · rintro ⟨hsides, _, _, hnodup, _, hmem, hperm, hplaces⟩
    obtain ⟨entry, hentry, rfl⟩ := List.mem_map.mp hmem
    have hlength := hperm.length_eq
    rw [List.length_range] at hlength
    exact ⟨entry.2, detect_ok_iff.mpr
      ⟨hsides, hnodup, entry.1, hentry, moves_iff.mpr ⟨hlength, hplaces⟩⟩⟩
  · intro v h
    obtain ⟨hsides, hnodup, moves, hmem, hmoves⟩ := detect_ok_iff.mp h
    have hperm := hmoves.perm_of_supported hmem hsides
    exact ⟨hperm.symm, hperm.nodup_iff.mp hnodup⟩
  · intro f hf v
    simp only [detect_ok_iff, List.length_map, List.nodup_map_iff hf, moves_map hf]

theorem detect_supported_permutations_renamed :
    Function.Injective (fun g : Glyph => "u" ++ g) ∧
      detect ["ua", "ub", "uc"] ["uc", "ub", "ua"] = .ok .AxD_DxA := by
  have hinjective : Function.Injective (fun g : Glyph => "u" ++ g) :=
    fun _ _ h => (String.append_right_inj "u").mp h
  obtain ⟨_, _, hrenamed⟩ := detect_supported_permutations ["a", "b", "c"] ["c", "b", "a"]
  exact ⟨hinjective, (hrenamed _ hinjective _).mpr rfl⟩

end Detection

section Action

theorem glyphs_map (f : α → β) (heads tails : Nat) (window : List α) :
    Part.glyphs heads tails (window.map f) = fun part => (part.glyphs heads tails window).map f := by
  funext part
  cases part <;> simp only [Part.glyphs, List.length_map, List.map_take, List.map_drop]

/-- A verb treats glyphs alike. -/
theorem rearrange?_map (f : α → β) (v : Verb) (window : List α) :
    v.rearrange? (window.map f) = (v.rearrange? window).map (List.map f) := by
  unfold rearrange?
  simp only [List.length_map, glyphs_map]
  split
  next => rw [Option.map_some, List.map_flatMap]
  next => rfl

/-- A verb acts on a window as on the places that its glyphs move to. -/
theorem rearrange?_iff_places (hnodup : after.Nodup) (hmoves : Moves moves before after) :
    v.rearrange? before = some after ↔ v.rearrange? moves = some (List.range after.length) := by
  constructor
  · intro h
    have hplaces := rearrange?_map after.idxOf v before
    rwa [hmoves.map_idxOf hnodup, h, Option.map_some, (moves_range after).map_idxOf hnodup]
      at hplaces
  · intro h
    have hglyphs := rearrange?_map (after.getD · "") v moves
    rwa [hmoves.map_getD, h, Option.map_some, (moves_range after).map_getD] at hglyphs

/-- The permutations whose verb does something else. -/
def misassigned : List (List Nat) :=
  [[0, 1, 2, 3], [0, 1, 3, 2], [3, 0, 2, 1]]

theorem supported_realised : ∀ entry ∈ supported,
    (entry.2.rearrange? entry.1 = some (List.range entry.1.length) ↔ entry.1 ∉ misassigned) := by
  decide

/-- Of the permutations of the table only one leaves all glyphs in place. -/
theorem supported_range : ∀ entry ∈ supported,
    entry.1 = List.range entry.1.length → entry.1 ∈ misassigned := by
  decide

/-- The verb of a window does what the window asks for, unless the window stays as it is, or four
glyphs `a b c d` are to become `a b d c` or `b d c a`. -/
theorem realises_window_iff (h : detect before after = .ok v) :
    v.rearrange? before = some after ↔ before ≠ after ∧
      ∀ a b c d, before = [a, b, c, d] → after ≠ [a, b, d, c] ∧ after ≠ [b, d, c, a] := by
  obtain ⟨hsides, hnodup, moves, hmem, hmoves⟩ := detect_ok_iff.mp h
  have hafter := (hmoves.perm_of_supported hmem hsides).nodup_iff.mp hnodup
  have hlength : after.length = moves.length := hsides.symm.trans hmoves.length_eq
  rw [rearrange?_iff_places hafter hmoves, hlength, supported_realised _ hmem]
  constructor
  · intro hnot
    refine ⟨?_, ?_⟩
    · rintro rfl
      have hrange := hmoves.unique (moves_range before) hafter
      rw [hlength] at hrange
      exact hnot (supported_range _ hmem hrange)
    · rintro a b c d rfl
      constructor
      · rintro rfl
        have hswap : Moves [0, 1, 3, 2] [a, b, c, d] [a, b, d, c] :=
          .cons rfl (.cons rfl (.cons rfl (.cons rfl .nil)))
        rw [hmoves.unique hswap hafter] at hnot
        exact hnot (by simp [misassigned])
      · rintro rfl
        have hturn : Moves [3, 0, 2, 1] [a, b, c, d] [b, d, c, a] :=
          .cons rfl (.cons rfl (.cons rfl (.cons rfl .nil)))
        rw [hmoves.unique hturn hafter] at hnot
        exact hnot (by simp [misassigned])
  · -- both sides of a misassigned window are read off the places
    rintro ⟨hne, hfour⟩ hbad
    have hbefore := hmoves.map_getD.symm
    have hread := (moves_range after).map_getD.symm
    rw [hlength] at hread
    simp only [misassigned, List.mem_cons, List.not_mem_nil, or_false] at hbad
    rcases hbad with rfl | rfl | rfl
    · exact hne (hbefore.trans hread.symm)
    · exact (hfour _ _ _ _ hbefore).1 hread
    · exact (hfour _ _ _ _ hbefore).2 hread

theorem realises_window_third :
    detect ["a", "b", "c"] ["c", "a", "b"] = .ok .ABx_xAB ∧
      rearrange? .ABx_xAB ["a", "b", "c"] = some ["c", "a", "b"] :=
  ⟨rfl, (realises_window_iff rfl).mpr ⟨by decide, by simp⟩⟩

/-- The verbs of two windows of four glyphs do something else, and no verb does what these windows
ask for. -/
theorem misses_window :
    (detect ["a", "b", "c", "d"] ["a", "b", "d", "c"] = .ok .xCD_DCx ∧
      rearrange? .xCD_DCx ["a", "b", "c", "d"] = some ["d", "c", "a", "b"] ∧
      ∀ v : Verb, v.rearrange? ["a", "b", "c", "d"] ≠ some ["a", "b", "d", "c"]) ∧
    (detect ["a", "b", "c", "d"] ["b", "d", "c", "a"] = .ok .AxCD_DCxA ∧
      rearrange? .AxCD_DCxA ["a", "b", "c", "d"] = some ["d", "c", "b", "a"] ∧
      ∀ v : Verb, v.rearrange? ["a", "b", "c", "d"] ≠ some ["b", "d", "c", "a"]) := by
  refine ⟨⟨rfl, rfl, fun v => ?_⟩, rfl, rfl, fun v => ?_⟩ <;> cases v <;> decide

end Action

end Verb

end Metamorphosis
