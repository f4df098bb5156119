import Metamorphosis.Proofs.Ordered
import Metamorphosis.Proofs.StateTable.Row
import Metamorphosis.StateTable.BetweenChain

namespace Metamorphosis

namespace StateTable

/-- The state after the first `k` positions, `k` being less than all. -/
def betweenState (n k : Nat) : String :=
  if k = 0 then start
  else if k ≤ n then sawFirst k
  else if k = n + 1 then "SawTarget"
  else sawSecond (k - (n + 1))

/-- The class of position `k`. -/
def betweenClass (n k : Nat) : String :=
  if k < n then firstClass (k + 1) else if k = n then "Target" else secondClass (k - n)

/-- The transition at position `k`. -/
def betweenStep (n m k : Nat) : String :=
  if k < n then sawFirst (k + 1)
  else if k = n then "MarkTarget"
  else if k < n + m then sawSecond (k - n)
  else "DoSubstitution"

variable {n m : Nat}

/-- The numbers from one on, those after the middle one counted from it. -/
theorem range'_around (a b : Nat) :
    List.range' 1 (a + 1 + b) =
      List.range' 1 a ++ [a + 1] ++ (List.range' 1 b).map (a + 1 + ·) := by
  have hlast : [a + 1] ++ List.range' (a + 1 + 1) b = List.range' (1 + a) (1 + b) := by
    rw [Nat.add_comm 1 b, Nat.add_comm 1 a, List.range'_succ]
    rfl
  rw [List.map_add_range', List.append_assoc, hlast, List.range'_append_1, Nat.add_assoc]

theorem betweenStates_eq (hm : 0 < m) :
    betweenStates n m = (List.range' 1 (n + m)).map (betweenState n) := by
  have hfirst : (List.range' 1 n).map sawFirst = (List.range' 1 n).map (betweenState n) := by
    apply List.map_congr_left
    intro k hk
    have hr := List.mem_range'_1.mp hk
    rw [betweenState, if_neg (by omega), if_pos (by omega)]
  have htarget : betweenState n (n + 1) = "SawTarget" := by
    rw [betweenState, if_neg (by omega), if_neg (by omega), if_pos rfl]
  have hsecond : (List.range' 1 (m - 1)).map sawSecond =
      (List.range' 1 (m - 1)).map (betweenState n ∘ (n + 1 + ·)) := by
    apply List.map_congr_left
    intro k hk
    have hr := List.mem_range'_1.mp hk
    rw [Function.comp, betweenState, if_neg (by omega), if_neg (by omega), if_neg (by omega),
      Nat.add_sub_cancel_left]
  rw [betweenStates, hfirst, hsecond, ← htarget, show n + m = n + 1 + (m - 1) by omega,
    range'_around, List.map_append, List.map_append, List.map_map]
  rfl

theorem betweenAdvances_eq (hn : 0 < n) :
    (List.range' 2 (n - 1)).map (fun i => (firstClass i, sawFirst i)) ++
      [("Target", "MarkTarget")] ++
      (List.range' 1 m).map (fun j =>
        (secondClass j, if j < m then sawSecond j else "DoSubstitution")) =
      (List.range' 1 (n + m)).map fun k => (betweenClass n k, betweenStep n m k) := by
  obtain ⟨a, rfl⟩ : ∃ a, n = a + 1 := ⟨n - 1, by omega⟩
  have hfirst : (List.range' 2 a).map (fun i => (firstClass i, sawFirst i)) =
      (List.range' 1 a).map fun k => (betweenClass (a + 1) k, betweenStep (a + 1) m k) := by
    rw [show 2 = 1 + 1 from rfl, ← List.map_add_range' 1, List.map_map]
    apply List.map_congr_left
    intro k hk
    have hr := List.mem_range'_1.mp hk
    have hlt : k < a + 1 := by omega
    rw [Function.comp, betweenClass, betweenStep, if_pos hlt, if_pos hlt, Nat.add_comm]
  have htarget : (betweenClass (a + 1) (a + 1), betweenStep (a + 1) m (a + 1)) =
      ("Target", "MarkTarget") := by
    simp [betweenClass, betweenStep]
  have hsecond : (List.range' 1 m).map (fun j =>
        (secondClass j, if j < m then sawSecond j else "DoSubstitution")) =
      (List.range' 1 m).map
        ((fun k => (betweenClass (a + 1) k, betweenStep (a + 1) m k)) ∘ (a + 1 + ·)) := by
    apply List.map_congr_left
    intro k hk
    have hr := List.mem_range'_1.mp hk
    have hlt : ¬a + 1 + k < a + 1 := by omega
    have hne : a + 1 + k ≠ a + 1 := by omega
    simp only [Function.comp, betweenClass, betweenStep, if_neg hlt, if_neg hne,
      Nat.add_sub_cancel_left, Nat.add_lt_add_iff_left]
  rw [Nat.add_sub_cancel, hfirst, hsecond, ← htarget, range'_around, List.map_append,
    List.map_append, List.map_map]
  rfl

/-- From each state one route goes on with the match and one begins it anew. -/
theorem mem_betweenChainRoutes (hn : 0 < n) (hm : 0 < m) {r : Route} :
    r ∈ betweenChainRoutes n m ↔
      ∃ i j, i ≤ n + m ∧ (j = i ∨ j = 0) ∧
        r = ⟨betweenState n i, betweenClass n j, betweenStep n m j⟩ := by
  have hzero : (⟨betweenClass n 0, betweenStep n m 0⟩ : String × String) =
      (firstClass 1, sawFirst 1) := by
    rw [betweenClass, betweenStep, if_pos hn, if_pos hn]
  obtain ⟨hclass, hstep⟩ := Prod.mk.inj hzero
  unfold betweenChainRoutes
  dsimp only
  rw [betweenStates_eq hm, betweenAdvances_eq hn, List.zip_map']
  simp only [List.mem_cons, List.mem_flatMap, List.mem_map, List.mem_range'_1, List.not_mem_nil,
    or_false, ← hclass, ← hstep]
  constructor
  · rintro (rfl | ⟨_, ⟨i, hi, rfl⟩, rfl | rfl⟩)
    · exact ⟨0, 0, by omega, Or.inl rfl, rfl⟩
    · exact ⟨i, i, by omega, Or.inl rfl, rfl⟩
    · exact ⟨i, 0, by omega, Or.inr rfl, rfl⟩
  · rintro ⟨i, j, hi, hj, rfl⟩
    by_cases h0 : i = 0
    · have hj0 : j = 0 := by omega
      subst h0
      subst hj0
      exact Or.inl rfl
    · refine Or.inr ⟨_, ⟨i, by omega, rfl⟩, ?_⟩
      rcases hj with rfl | rfl
      · exact Or.inl rfl
      · exact Or.inr rfl

section Names

/-- The names on the two sides of the target differ from each other and from those in between. -/
theorem sawFirst_ne_sawSecond (i j : Nat) : sawFirst i ≠ sawSecond j := by
  intro he
  have hl := congrArg String.toList he
  simp [sawFirst, sawSecond, numbered] at hl

theorem sawFirst_not_mem (i : Nat) :
    sawFirst i ∉ [start, "SawTarget", "MarkTarget", "DoSubstitution"] := by
  simp only [List.mem_cons, List.not_mem_nil, or_false, not_or]
  refine ⟨?_, ?_, ?_, ?_⟩ <;> intro he <;> have hl := congrArg String.toList he <;>
    simp [sawFirst, numbered, start] at hl

theorem sawSecond_not_mem (i : Nat) :
    sawSecond i ∉ [start, "SawTarget", "MarkTarget", "DoSubstitution"] := by
  simp only [List.mem_cons, List.not_mem_nil, or_false, not_or]
  refine ⟨?_, ?_, ?_, ?_⟩ <;> intro he <;> have hl := congrArg String.toList he <;>
    simp [sawSecond, numbered, start] at hl

theorem sawFirst_injective {i j : Nat} (h : sawFirst i = sawFirst j) : i = j :=
  numbered_injective h

theorem sawSecond_injective {i j : Nat} (h : sawSecond i = sawSecond j) : i = j :=
  numbered_injective h

theorem betweenState_injective {i j : Nat} (h : betweenState n i = betweenState n j) : i = j := by
  have hmiddle : start ≠ "SawTarget" := by decide
  unfold betweenState at h
  grind [sawFirst_not_mem, sawSecond_not_mem, sawFirst_ne_sawSecond, sawFirst_injective,
    sawSecond_injective]

theorem betweenStep_injective {i j : Nat} (hi : i ≤ n + m) (hj : j ≤ n + m)
    (h : betweenStep n m i = betweenStep n m j) : i = j := by
  have hmiddle : "MarkTarget" ≠ "DoSubstitution" := by decide
  unfold betweenStep at h
  grind [sawFirst_not_mem, sawSecond_not_mem, sawFirst_ne_sawSecond, sawFirst_injective,
    sawSecond_injective]

theorem firstClass_ne_target (i : Nat) : firstClass i ≠ "Target" := by
  intro he
  have hl := congrArg String.toList he
  simp [firstClass, numbered] at hl

theorem secondClass_ne_target (i : Nat) : secondClass i ≠ "Target" := by
  intro he
  have hl := congrArg String.toList he
  simp [secondClass, numbered] at hl

theorem betweenClass_injective {i j : Nat} (h : betweenClass n i = betweenClass n j) : i = j := by
  have hsides : ∀ k l, firstClass k ≠ secondClass l := by
    intro k l he
    have hl := congrArg String.toList he
    simp [firstClass, secondClass, numbered] at hl
  have hfirst : ∀ {k l}, firstClass k = firstClass l → k = l := numbered_injective
  have hsecond : ∀ {k l}, secondClass k = secondClass l → k = l := numbered_injective
  unfold betweenClass at h
  grind [firstClass_ne_target, secondClass_ne_target]

end Names

section Transitions

/-- The transition at position `k` as a whole. -/
def betweenTransition (n m k : Nat) : Transition :=
  ⟨betweenStep n m k, betweenState n (matchedAfter (n + m + 1) k),
    (if k = n + m then [.substituteMarked "Subst"] else []) ++ if k = n then [.markGlyph] else []⟩

theorem betweenTransition_of_lt {k : Nat} (hk : k < n) :
    betweenTransition n m k = ⟨sawFirst (k + 1), sawFirst (k + 1), []⟩ := by
  have hlast : k ≠ n + m := by omega
  have hle : k + 1 ≤ n := hk
  simp [betweenTransition, betweenStep, betweenState, matchedAfter, hk, Nat.ne_of_lt hk, hlast, hle]

theorem betweenTransition_target (hm : 0 < m) :
    betweenTransition n m n = ⟨"MarkTarget", "SawTarget", [.markGlyph]⟩ := by
  have hlast : m ≠ 0 := by omega
  have hgt : ¬n + 1 ≤ n := by omega
  simp [betweenTransition, betweenStep, betweenState, matchedAfter, hlast, hgt]

theorem betweenTransition_of_gt {k : Nat} (hk : n < k) (hlt : k < n + m) :
    betweenTransition n m k = ⟨sawSecond (k - n), sawSecond (k - n), []⟩ := by
  have hge : ¬k < n := by omega
  have hne : k ≠ n := by omega
  have hlast : k ≠ n + m := by omega
  have hgt : ¬k + 1 ≤ n := by omega
  simp [betweenTransition, betweenStep, betweenState, matchedAfter, hge, hne, hlt, hlast, hgt]

theorem betweenTransition_last (hm : 0 < m) :
    betweenTransition n m (n + m) = ⟨"DoSubstitution", start, [.substituteMarked "Subst"]⟩ := by
  have hne : m ≠ 0 := by omega
  have hge : ¬n + m < n := by omega
  simp [betweenTransition, betweenStep, betweenState, matchedAfter, hne, hge]

theorem mem_betweenChainTransitions (hm : 0 < m) {tr : Transition} :
    tr ∈ betweenChainTransitions n m ↔ ∃ k, k < n + m + 1 ∧ tr = betweenTransition n m k := by
  unfold betweenChainTransitions
  simp only [List.map_append, List.map_map, List.mem_append, List.mem_map, Function.comp,
    List.mem_range'_1, List.mem_cons, List.not_mem_nil, or_false]
  constructor
  · rintro ((⟨i, hi, rfl⟩ | ⟨i, hi, rfl⟩) | rfl | rfl)
    · obtain ⟨k, rfl⟩ : ∃ k, i = k + 1 := ⟨i - 1, by omega⟩
      exact ⟨k, by omega, (betweenTransition_of_lt (by omega)).symm⟩
    · refine ⟨n + i, by omega, ?_⟩
      rw [betweenTransition_of_gt (by omega) (by omega), Nat.add_sub_cancel_left]
    · exact ⟨n, by omega, (betweenTransition_target hm).symm⟩
    · exact ⟨n + m, by omega, (betweenTransition_last hm).symm⟩
  · rintro ⟨k, hk, rfl⟩
    by_cases hlt : k < n
    · rw [betweenTransition_of_lt hlt]
      exact Or.inl (Or.inl ⟨k + 1, by omega, rfl⟩)
    · by_cases htarget : k = n
      · rw [htarget, betweenTransition_target hm]
        exact Or.inr (Or.inl rfl)
      · by_cases hlast : k = n + m
        · rw [hlast, betweenTransition_last hm]
          exact Or.inr (Or.inr rfl)
        · rw [betweenTransition_of_gt (by omega) (by omega)]
          exact Or.inl (Or.inr ⟨k - n, by omega, rfl⟩)

end Transitions

section Positions

variable {sides : List (List Glyph × List Glyph)} {targets : List Glyph}

/-- The glyphs at position `k`. -/
def betweenGlyphs (n : Nat) (sides : List (List Glyph × List Glyph)) (targets : List Glyph)
    (k : Nat) : List Glyph :=
  if k < n then (sides.map Prod.fst).filterMap fun first => first[k]?
  else if k = n then targets
  else (sides.map Prod.snd).filterMap fun second => second[k - (n + 1)]?

theorem zipIdx_map_range {α : Type} (f : Nat → α) (length : Nat) :
    ((List.range length).map f).zipIdx = (List.range length).map fun i => (f i, i) := by
  apply List.ext_getElem (by simp)
  intro i hi _
  simp

theorem betweenPositions_eq_map :
    betweenPositions n m sides targets = (List.range (n + 1 + m)).map fun k =>
      ⟨betweenClass n k, glyphSet (betweenGlyphs n sides targets k)⟩ := by
  have hfirst : ∀ k ∈ List.range n,
      (⟨firstClass (k + 1), glyphSet ((sides.map Prod.fst).filterMap fun first => first[k]?)⟩ :
        MatchPosition) = ⟨betweenClass n k, glyphSet (betweenGlyphs n sides targets k)⟩ := by
    intro k hk
    have hlt := List.mem_range.mp hk
    simp [betweenClass, betweenGlyphs, hlt]
  have hsecond : ∀ j ∈ List.range m,
      (⟨secondClass (j + 1), glyphSet ((sides.map Prod.snd).filterMap fun second => second[j]?)⟩ :
        MatchPosition) =
        ⟨betweenClass n (n + 1 + j), glyphSet (betweenGlyphs n sides targets (n + 1 + j))⟩ := by
    intro j _
    have hge : ¬n + 1 + j < n := by omega
    have hne : n + 1 + j ≠ n := by omega
    have hclass : n + 1 + j - n = j + 1 := by omega
    simp [betweenClass, betweenGlyphs, hge, hne, hclass]
  have htarget : (⟨"Target", glyphSet targets⟩ : MatchPosition) =
      ⟨betweenClass n n, glyphSet (betweenGlyphs n sides targets n)⟩ := by
    simp [betweenClass, betweenGlyphs]
  rw [List.range_add, List.range_succ]
  simp only [betweenPositions, positionGlyphs, zipIdx_map_range, List.map_append, List.map_map,
    Function.comp_def, List.map_cons, List.map_nil]
  rw [List.map_congr_left hfirst, List.map_congr_left hsecond, htarget]

end Positions

section Shared

theorem sharedWith?_eq_none {earlier : List MatchPosition} {p : MatchPosition} :
    p.sharedWith? earlier = none ↔ ∀ q ∈ earlier, ∀ g ∈ p.glyphs, g ∉ q.glyphs := by
  unfold MatchPosition.sharedWith?
  rw [List.findSome?_eq_none_iff]
  simp only [Option.map_eq_none_iff, List.find?_eq_none, List.contains_iff_mem]
  exact ⟨fun h q hq g hg => h g hg q hq, fun h g hg q hq => h q hq g hg⟩

/-- No glyph is shared exactly if no two positions hold the same glyph. -/
theorem sharedGlyph?_eq_none {earlier positions : List MatchPosition} :
    sharedGlyph? earlier positions = none ↔
      (∀ p ∈ positions, ∀ q ∈ earlier, ∀ g ∈ p.glyphs, g ∉ q.glyphs) ∧
        positions.Pairwise fun p q => ∀ g ∈ p.glyphs, g ∉ q.glyphs := by
  induction positions generalizing earlier with
  | nil => simp [sharedGlyph?]
  | cons p rest ih =>
    unfold sharedGlyph?
    rw [List.forall_mem_cons, List.pairwise_cons, ← sharedWith?_eq_none]
    cases hp : p.sharedWith? earlier with
    | some s => simp
    | none =>
      dsimp only
      rw [ih]
      simp only [List.forall_mem_append, List.forall_mem_singleton, true_and]
      grind

/-- No glyph is shared exactly if the index of a position is told by any glyph of it. -/
theorem sharedGlyph?_eq_none_iff_unique {positions : List MatchPosition} :
    sharedGlyph? [] positions = none ↔ ∀ {i j : Nat} {p q : MatchPosition} {g : Glyph},
      positions[i]? = some p → positions[j]? = some q → g ∈ p.glyphs → g ∈ q.glyphs → i = j := by
  rw [sharedGlyph?_eq_none, List.pairwise_iff_getElem]
  constructor
  · rintro ⟨_, h⟩ i j p q g hp hq hgp hgq
    obtain ⟨hi, rfl⟩ := List.getElem?_eq_some_iff.mp hp
    obtain ⟨hj, rfl⟩ := List.getElem?_eq_some_iff.mp hq
    rcases Nat.lt_trichotomy i j with hlt | he | hlt
    · exact absurd hgq (h i j hi hj hlt g hgp)
    · exact he
    · exact absurd hgp (h j i hj hi hlt g hgq)
  · intro h
    refine ⟨by simp, ?_⟩
    intro i j hi hj hlt g hgp hgq
    have he := h (List.getElem?_eq_getElem hi) (List.getElem?_eq_getElem hj) hgp hgq
    omega

end Shared

section Run

variable {positions : List MatchPosition}

theorem betweenChain_matchesRow (hn : 0 < n) (hm : 0 < m)
    (hl : positions.length = n + m + 1)
    (hnames : ∀ k p, positions[k]? = some p → p.className = betweenClass n k)
    (ha : Apart (positions.map MatchPosition.glyphs) []) (entries : List (Glyph × Glyph)) :
    (betweenChain n m positions entries).MatchesRow (positions.map MatchPosition.glyphs)
      (betweenState n) (betweenTransition n m) := by
  have hlength : (positions.map MatchPosition.glyphs).length = n + m + 1 := by
    rw [List.length_map, hl]
  have hclasses : ∀ name members,
      (name, members) ∈ positions.map (fun p => (p.className, p.glyphs)) ↔
        ∃ j : Nat, (positions.map MatchPosition.glyphs)[j]? = some members ∧
          name = betweenClass n j := by
    intro name members
    simp only [List.mem_iff_getElem?, List.getElem?_map, Option.map_eq_some_iff, Prod.mk.injEq]
    constructor
    · rintro ⟨j, p, hp, rfl, rfl⟩
      exact ⟨j, ⟨p, hp, rfl⟩, hnames j p hp⟩
    · rintro ⟨j, ⟨p, hp, rfl⟩, rfl⟩
      exact ⟨j, p, hp, hnames j p hp, rfl⟩
  refine MatchesRow.addSubstitution (matchesRow_build ha rfl hclasses ?_ ?_ ?_ ?_ ?_) _ _
  · intro r
    rw [mem_betweenChainRoutes hn hm, hlength]
    simp only [Nat.lt_succ_iff]
    rfl
  · exact fun _ _ _ _ => betweenState_injective
  · exact fun _ _ _ _ => betweenClass_injective
  · rw [hlength]
    exact fun _ => find?_rowTransitions (fun _ => mem_betweenChainTransitions hm)
      fun _ _ hi hj => betweenStep_injective (by omega) (by omega)
  · intro j _
    rw [hlength]
    rfl

/-- A run gives the targets around which all positions stand their replacements. -/
theorem run_betweenChain (hn : 0 < n) (hm : 0 < m) (hl : positions.length = n + m + 1)
    (hnames : ∀ k p, positions[k]? = some p → p.className = betweenClass n k)
    (ha : Apart (positions.map MatchPosition.glyphs) []) (entries : List (Glyph × Glyph))
    (run : List Glyph) :
    (betweenChain n m positions entries).run run = run.mapIdx fun i g =>
      if n ≤ i ∧ StandsAt (positions.map MatchPosition.glyphs) run (i - n) (n + m + 1) then
        (entries.lookup g).getD g
      else g := by
  have hlength : (positions.map MatchPosition.glyphs).length = n + m + 1 := by
    rw [List.length_map, hl]
  have hrow := betweenChain_matchesRow hn hm hl hnames ha entries
  rw [hrow.run_marked ha hm hlength fun _ _ => rfl, hlength]
  simp only [betweenChain, replace_build]

end Run

end StateTable

end Metamorphosis
