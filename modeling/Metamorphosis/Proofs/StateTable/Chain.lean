import Mathlib.Data.List.Nodup
import Metamorphosis.Proofs.StateTable.Build
import Metamorphosis.StateTable.Adjacent

namespace Metamorphosis

namespace StateTable

/-- No glyph is at two positions, and none at a position is a target. -/
structure Apart (positions : List (List Glyph)) (targets : List Glyph) : Prop where
  unique : ∀ {i j : Nat} {p q : List Glyph} {g : Glyph}, positions[i]? = some p →
    positions[j]? = some q → g ∈ p → g ∈ q → i = j
  not_target : ∀ p ∈ positions, ∀ g ∈ p, g ∉ targets

/-- The position of a glyph. -/
def placeOf? (positions : List (List Glyph)) (g : Glyph) : Option Nat :=
  positions.findIdx? fun p => p.contains g

section Places

variable {positions : List (List Glyph)} {targets : List Glyph} {g : Glyph}

theorem placeOf?_eq_some (ha : Apart positions targets) {j : Nat} :
    placeOf? positions g = some j ↔ ∃ p, positions[j]? = some p ∧ g ∈ p := by
  unfold placeOf?
  constructor
  · intro h
    obtain ⟨hj, hp, _⟩ := List.findIdx?_eq_some_iff_getElem.mp h
    exact ⟨positions[j], List.getElem?_eq_getElem hj, List.contains_iff_mem.mp hp⟩
  · rintro ⟨p, hp, hg⟩
    cases hf : positions.findIdx? fun p => p.contains g with
    | none =>
      have hn := List.findIdx?_eq_none_iff.mp hf p (List.mem_of_getElem? hp)
      simp [hg] at hn
    | some i =>
      obtain ⟨hi, hq, _⟩ := List.findIdx?_eq_some_iff_getElem.mp hf
      rw [ha.unique (List.getElem?_eq_getElem hi) hp (List.contains_iff_mem.mp hq) hg]

theorem placeOf?_lt {j : Nat} (h : placeOf? positions g = some j) : j < positions.length :=
  (List.findIdx?_eq_some_iff_getElem.mp h).1

theorem placeOf?_of_target (ha : Apart positions targets) (hg : g ∈ targets) :
    placeOf? positions g = none := by
  cases h : placeOf? positions g with
  | none => rfl
  | some j =>
    obtain ⟨p, hp, hgp⟩ := (placeOf?_eq_some ha).mp h
    exact absurd hg (ha.not_target p (List.mem_of_getElem? hp) g hgp)

/-- The glyphs of a row without repetition are apart from each other. -/
theorem apart_singletons {row : List Glyph} (hn : row.Nodup) (ht : ∀ g ∈ row, g ∉ targets) :
    Apart (row.map fun g => [g]) targets := by
  refine ⟨?_, ?_⟩
  · intro i j p q g hp hq hgp hgq
    rw [List.getElem?_map] at hp hq
    obtain ⟨a, ha, rfl⟩ := Option.map_eq_some_iff.mp hp
    obtain ⟨b, hb, rfl⟩ := Option.map_eq_some_iff.mp hq
    obtain rfl : g = a := List.mem_singleton.mp hgp
    obtain rfl : g = b := List.mem_singleton.mp hgq
    obtain ⟨hi, hi'⟩ := List.getElem?_eq_some_iff.mp ha
    obtain ⟨hj, hj'⟩ := List.getElem?_eq_some_iff.mp hb
    exact (List.Nodup.getElem_inj_iff hn).mp (hi'.trans hj'.symm)
  · intro p hp g hg
    obtain ⟨a, ha, rfl⟩ := List.mem_map.mp hp
    rw [List.mem_singleton.mp hg]
    exact ht a ha

theorem placeOf?_singletons {row : List Glyph} (hn : row.Nodup) {j : Nat} :
    placeOf? (row.map fun g => [g]) g = some j ↔ row[j]? = some g := by
  have ha : Apart (row.map fun g => [g]) [] := apart_singletons hn fun _ _ => List.not_mem_nil
  rw [placeOf?_eq_some ha, List.getElem?_map]
  cases row[j]? <;> simp [eq_comm]

end Places

section Classes

variable {positions : List (List Glyph)} {targets : List Glyph} {states : List String}
  {routes : List Route} {transitions : List Transition} {g : Glyph}

theorem contextClass_ne_target (i : Nat) : contextClass i ≠ "Target" := by
  intro he
  have hl := congrArg String.toList he
  simp [contextClass, numbered] at hl

def chainClasses (positions : List (List Glyph)) (targets : List Glyph) :
    List (String × List Glyph) :=
  positions.zipIdx.map (fun (glyphs, i) => (contextClass (i + 1), glyphs)) ++ [("Target", targets)]

/-- Classes numbered from one on, as they are listed. -/
theorem mem_numberedClasses (className : Nat → String) {name : String} {members : List Glyph} :
    (name, members) ∈ positions.zipIdx.map (fun (glyphs, i) => (className (i + 1), glyphs)) ↔
      ∃ j, positions[j]? = some members ∧ name = className (j + 1) := by
  rw [List.mem_map]
  constructor
  · rintro ⟨⟨p, j⟩, hp, he⟩
    obtain ⟨rfl, rfl⟩ := Prod.mk.inj he
    exact ⟨j, List.mem_zipIdx_iff_getElem?.mp hp, rfl⟩
  · rintro ⟨j, hp, rfl⟩
    exact ⟨(members, j), List.mem_zipIdx_iff_getElem?.mpr hp, rfl⟩

theorem mem_chainClasses {name : String} {members : List Glyph} :
    (name, members) ∈ chainClasses positions targets ↔
      (∃ j, positions[j]? = some members ∧ name = contextClass (j + 1)) ∨
        (name = "Target" ∧ members = targets) := by
  unfold chainClasses
  rw [List.mem_append, List.mem_singleton, Prod.mk.injEq]
  exact or_congr_left (mem_numberedClasses contextClass)

/-- The class of a glyph that has at most one position and is no target if it has one. -/
def chainClass? (positions : List (List Glyph)) (targets : List Glyph) (g : Glyph) :
    Option String :=
  match placeOf? positions g with
  | some j => some (contextClass (j + 1))
  | none => if targets.contains g then some "Target" else none

theorem holds_chainClasses (ha : Apart positions targets) {name : String} :
    (build (chainClasses positions targets) states routes transitions).Holds name g ↔
      chainClass? positions targets g = some name := by
  rw [holds_build]
  unfold chainClass?
  constructor
  · rintro ⟨members, hm, hg⟩
    rcases mem_chainClasses.mp hm with ⟨j, hj, rfl⟩ | ⟨rfl, rfl⟩
    · rw [(placeOf?_eq_some ha).mpr ⟨members, hj, hg⟩]
    · rw [placeOf?_of_target ha hg]
      simp [hg]
  · intro h
    cases hp : placeOf? positions g with
    | some j =>
      rw [hp] at h
      obtain ⟨p, hj, hg⟩ := (placeOf?_eq_some ha).mp hp
      exact ⟨p, mem_chainClasses.mpr (Or.inl ⟨j, hj, (Option.some.inj h).symm⟩), hg⟩
    | none =>
      rw [hp] at h
      dsimp only at h
      split at h
      next ht =>
        have hn : name = "Target" := (Option.some.inj h).symm
        exact ⟨targets, mem_chainClasses.mpr (Or.inr ⟨hn, rfl⟩), List.contains_iff_mem.mp ht⟩
      next => cases h

theorem classOf?_chainClasses (ha : Apart positions targets) (g : Glyph) :
    (build (chainClasses positions targets) states routes transitions).classOf? g =
      chainClass? positions targets g := by
  cases hc : chainClass? positions targets g with
  | none =>
    apply classOf?_eq_none
    intro name h
    rw [holds_chainClasses ha, hc] at h
    cases h
  | some name =>
    apply classOf?_eq_some ((holds_chainClasses ha).mpr hc)
    intro other h
    rw [holds_chainClasses ha, hc] at h
    exact (Option.some.inj h).symm

end Classes

theorem sawContext_ne_start (i : Nat) : sawContext i ≠ start := by
  intro he
  have hl := congrArg String.toList he
  simp [sawContext, numbered, start] at hl

theorem sawContext_ne_doSubstitution (i : Nat) : sawContext i ≠ "DoSubstitution" := by
  intro he
  have hl := congrArg String.toList he
  simp [sawContext, numbered] at hl

theorem sawContext_ne_markTarget (i : Nat) : sawContext i ≠ "MarkTarget" := by
  intro he
  have hl := congrArg String.toList he
  simp [sawContext, numbered] at hl

theorem take_succ_of_getElem? {α : Type} {xs : List α} {n : Nat} {x : α} (h : xs[n]? = some x) :
    xs.take (n + 1) = xs.take n ++ [x] := by
  rw [List.take_add_one, h]
  rfl

theorem length_positionGlyphs (patterns : List (List Glyph)) (length : Nat) :
    (positionGlyphs patterns length).length = length := by
  simp [positionGlyphs]

end StateTable

end Metamorphosis
