import Mathlib.Data.List.Basic
import Metamorphosis.Proofs.StateTable.Row
import Metamorphosis.StateTable.Pattern

namespace Metamorphosis

namespace StateTable

/-- The state after the first `k` glyphs of a pattern, `k` being less than all. -/
def matchState (k : Nat) : String :=
  if k = 0 then start else matched k

theorem matchState_injective {i j : Nat} (h : matchState i = matchState j) : i = j := by
  refine numberedState_injective (fun k he => ?_) h
  have hl := congrArg String.toList he
  simp [numbered, start] at hl

/-- From each state one route goes on with the match and one begins it anew. -/
theorem mem_wholeRoutes {length : Nat} {className step : Nat → String} (hl : 0 < length)
    {r : Route} :
    r ∈ wholeRoutes length className step ↔
      ∃ i j, i < length ∧ (j = i ∨ j = 0) ∧ r = ⟨matchState i, className j, step j⟩ :=
  mem_rowRoutes className matched step hl

section Steps

variable {length : Nat} {marked : List Nat}

theorem markingStep_injective {i j : Nat}
    (h : markingStep length marked i = markingStep length marked j) : i = j := by
  have hcomplete : ∀ k, markingStep length marked k = "Complete" → k + 1 = length := by
    intro k hk
    unfold markingStep at hk
    split at hk
    next hn => exact hn
    next =>
      have hl := congrArg String.toList hk
      split at hl <;> simp [numbered, matched] at hl
  have hmixed : ∀ m n, numbered "MarkTemp" m ≠ matched n := by
    intro m n he
    have hl := congrArg String.toList he
    simp [numbered, matched] at hl
  by_cases hi' : i + 1 = length
  · have hj' := hcomplete j (h.symm.trans (if_pos hi'))
    omega
  · by_cases hj' : j + 1 = length
    · have hi'' := hcomplete i (h.trans (if_pos hj'))
      omega
    · unfold markingStep at h
      rw [if_neg hi', if_neg hj'] at h
      have hn : i + 1 = j + 1 := by
        split at h <;> split at h
        next => exact numbered_injective h
        next => exact absurd h (hmixed _ _)
        next => exact absurd h.symm (hmixed _ _)
        next => exact numbered_injective h
      omega

/-- The transition at an index of the pattern as a whole. -/
def markingTransition (length : Nat) (marked : List Nat) (j : Nat) : Transition :=
  ⟨markingStep length marked j, matchState (matchedAfter length j),
    if marked.contains j then [.substituteCurrent "MarkTemps"] else []⟩

theorem mem_markingTransitions {tr : Transition} :
    tr ∈ markingTransitions length marked ↔
      ∃ j, j < length ∧ tr = markingTransition length marked j := by
  have hnext : ∀ j, matchState (matchedAfter length j) =
      if j + 1 = length then start else matched (j + 1) := by
    intro j
    unfold matchedAfter
    split <;> simp [matchState]
  simp only [markingTransitions, markingTransition, hnext, List.mem_map, List.mem_range,
    eq_comm (b := tr)]

end Steps

section Marking

variable {pattern : List Glyph} {indices : List Nat} {entries : List (Glyph × Glyph)}

/-- Each glyph of a window is in the class of its first place and in no other. -/
theorem holds_placeClasses {states : List String} {routes : List Route}
    {transitions : List Transition} {name : String} {g : Glyph} :
    (build (placeClasses pattern) states routes transitions).Holds name g ↔
      g ∈ pattern ∧ name = placeClass pattern g := by
  rw [holds_build]
  unfold placeClasses
  constructor
  · rintro ⟨members, hm, hg⟩
    obtain ⟨x, hx, he⟩ := List.mem_map.mp hm
    obtain ⟨rfl, rfl⟩ := Prod.mk.inj he
    rw [List.mem_singleton.mp hg]
    exact ⟨hx, rfl⟩
  · rintro ⟨hg, rfl⟩
    exact ⟨[g], List.mem_map.mpr ⟨g, hg, rfl⟩, List.mem_singleton.mpr rfl⟩

theorem placeClass_injective {g g' : Glyph} (hg : g ∈ pattern)
    (h : placeClass pattern g = placeClass pattern g') : g = g' := by
  have hi : pattern.idxOf g + 1 = pattern.idxOf g' + 1 := numbered_injective h
  exact (List.idxOf_inj hg).mp (Nat.succ.inj hi)

/-- The index in the pattern that a glyph takes after `k` matched glyphs: it goes on with the match
or begins one anew. -/
def hit? (pattern : List Glyph) (k : Nat) (g : Glyph) : Option Nat :=
  if g ∈ pattern ∧ (pattern.idxOf g = k ∨ pattern.idxOf g = 0) then some (pattern.idxOf g) else none

/-- What is matched after another glyph. -/
def advance (pattern : List Glyph) (k : Nat) (g : Glyph) : Nat :=
  ((hit? pattern k g).map (matchedAfter pattern.length)).getD 0

/-- How many glyphs of the pattern are matched after `n` glyphs of a run. -/
def matchLength (pattern run : List Glyph) : Nat → Nat
  | 0 => 0
  | n + 1 => (run[n]?.map (advance pattern (matchLength pattern run n))).getD 0

theorem hit?_eq_some {k j : Nat} {g : Glyph} :
    hit? pattern k g = some j ↔ g ∈ pattern ∧ pattern.idxOf g = j ∧ (j = k ∨ j = 0) := by
  unfold hit?
  split
  next h =>
    rw [Option.some.injEq]
    constructor
    · rintro rfl
      exact ⟨h.1, rfl, h.2⟩
    · exact fun h => h.2.1
  next h =>
    constructor
    · intro hn
      cases hn
    · rintro ⟨hg, rfl, hj⟩
      exact absurd ⟨hg, hj⟩ h

theorem idxOf_eq_iff (hp : pattern.Nodup) {g : Glyph} {j : Nat} :
    g ∈ pattern ∧ pattern.idxOf g = j ↔ pattern[j]? = some g := by
  constructor
  · rintro ⟨hg, rfl⟩
    have hlt := List.idxOf_lt_length_of_mem hg
    rw [List.getElem?_eq_getElem hlt, List.getElem_idxOf hlt]
  · intro h
    obtain ⟨hlt, rfl⟩ := List.getElem?_eq_some_iff.mp h
    exact ⟨List.getElem_mem hlt, hp.idxOf_getElem j hlt⟩

/-- The pattern is matched as the row of its glyphs. -/
theorem hit?_eq_rowHit? (hp : pattern.Nodup) (k : Nat) (g : Glyph) :
    hit? pattern k g = rowHit? (pattern.map fun g => [g]) k g := by
  apply Option.ext
  intro j
  rw [hit?_eq_some, rowHit?_eq_some, placeOf?_singletons hp, ← idxOf_eq_iff hp, and_assoc]

theorem matchLength_eq_rowProgress (hp : pattern.Nodup) (run : List Glyph) (n : Nat) :
    matchLength pattern run n = rowProgress (pattern.map fun g => [g]) run n := by
  induction n with
  | zero => rfl
  | succ n ih =>
    rw [matchLength, rowProgress, ih, List.length_map]
    cases run[n]? with
    | none => rfl
    | some g =>
      rw [Option.map_some, Option.getD_some, advance, hit?_eq_rowHit? hp, Option.bind_some]

theorem hit?_eq_placeAt? (hp : pattern.Nodup) {run : List Glyph} {n : Nat} {g : Glyph}
    (hg : run[n]? = some g) :
    hit? pattern (matchLength pattern run n) g = placeAt? (pattern.map fun g => [g]) run n := by
  rw [hit?_eq_rowHit? hp, matchLength_eq_rowProgress hp, placeAt?, hg, Option.bind_some]

/-- A glyph takes the index up to which the pattern matches. -/
theorem hit?_iff (hp : pattern.Nodup) {run : List Glyph} {n : Nat} {g : Glyph}
    (hg : run[n]? = some g) {j : Nat} (hj : j < pattern.length) :
    hit? pattern (matchLength pattern run n) g = some j ↔
      pattern.take (j + 1) <:+ run.take (n + 1) := by
  have hn := (List.getElem?_eq_some_iff.mp hg).1
  rw [hit?_eq_placeAt? hp hg, placeAt?_eq_some (apart_window hp),
    ← exists_standsAt_window (n := n + 1) (k := j + 1) hj hn]
  simp only [← Nat.add_assoc, Nat.add_right_cancel_iff]

theorem marking_substitutions :
    (marking pattern indices entries).substitutions = [⟨"MarkTemps", entries⟩] := by
  rw [marking, addSubstitution, build_substitutions, List.nil_append]

theorem marking_matchesRow (hp : pattern.Nodup) (hne : pattern ≠ []) :
    (marking pattern indices entries).MatchesRow (pattern.map fun g => [g]) matchState
      (markingTransition pattern.length indices) :=
  (matchesRow_window hp rfl (fun _ => mem_wholeRoutes (List.length_pos_iff.mpr hne))
    (fun _ _ => matchState_injective)
    (fun _ => find?_rowTransitions (fun _ => mem_markingTransitions)
      fun _ _ _ _ => markingStep_injective)
    fun _ _ => rfl).addSubstitution _ _

/-- A run rewrites the glyphs that take a marked index. -/
theorem run_marking (hp : pattern.Nodup) (hne : pattern ≠ []) (run : List Glyph) :
    (marking pattern indices entries).run run = run.mapIdx fun i g =>
      if (hit? pattern (matchLength pattern run i) g).any indices.contains then
        (entries.lookup g).getD g
      else g := by
  have hl : 0 < (pattern.map fun g => [g]).length := by
    rw [List.length_map]
    exact List.length_pos_iff.mpr hne
  rw [(marking_matchesRow hp hne).run_current hl fun _ _ => rfl]
  apply mapIdx_congr
  intro i g hg
  rw [hit?_eq_placeAt? hp hg, marking, replace_build]

/-- The pattern matches up to the glyph at an index of a run: the run up to it ends in the beginning
of the pattern up to the glyph. -/
def MatchesUpTo (pattern run : List Glyph) (i : Nat) (g : Glyph) : Prop :=
  g ∈ pattern ∧ pattern.take (pattern.idxOf g + 1) <:+ run.take (i + 1)

instance (pattern run : List Glyph) (i : Nat) (g : Glyph) :
    Decidable (MatchesUpTo pattern run i g) :=
  inferInstanceAs (Decidable (_ ∧ _))

/-- A run rewrites the glyphs at marked indices up to which the pattern matches. -/
theorem run_marking_iff (hp : pattern.Nodup) (hne : pattern ≠ []) (run : List Glyph) :
    (marking pattern indices entries).run run = run.mapIdx fun i g =>
      if MatchesUpTo pattern run i g ∧ pattern.idxOf g ∈ indices then (entries.lookup g).getD g
      else g := by
  rw [run_marking hp hne]
  apply mapIdx_congr
  intro i g hg
  have hiff : (hit? pattern (matchLength pattern run i) g).any indices.contains = true ↔
      MatchesUpTo pattern run i g ∧ pattern.idxOf g ∈ indices := by
    constructor
    · intro h
      cases hj : hit? pattern (matchLength pattern run i) g with
      | none =>
        rw [hj] at h
        cases h
      | some j =>
        rw [hj] at h
        obtain ⟨hm, rfl, _⟩ := hit?_eq_some.mp hj
        have hlt := List.idxOf_lt_length_of_mem hm
        exact ⟨⟨hm, (hit?_iff hp hg hlt).mp hj⟩, List.contains_iff_mem.mp h⟩
    · rintro ⟨⟨hm, hs⟩, hc⟩
      have hlt := List.idxOf_lt_length_of_mem hm
      rw [(hit?_iff hp hg hlt).mpr hs]
      exact List.contains_iff_mem.mpr hc
  by_cases h : MatchesUpTo pattern run i g ∧ pattern.idxOf g ∈ indices
  · rw [if_pos h, if_pos (hiff.mpr h)]
  · rw [if_neg h, if_neg (fun hn => h (hiff.mp hn))]

end Marking

end StateTable

end Metamorphosis
