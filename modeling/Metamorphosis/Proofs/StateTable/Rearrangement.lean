import Metamorphosis.Proofs.StateTable.Row
import Metamorphosis.StateTable.Pattern

namespace Metamorphosis

namespace StateTable

/-- The state after the first `k` glyphs of a window, `k` being less than all. -/
def windowState (k : Nat) : String :=
  if k = 0 then start else saw k

theorem windowState_injective {i j : Nat} (h : windowState i = windowState j) : i = j := by
  refine numberedState_injective (fun k he => ?_) h
  have hl := congrArg String.toList he
  simp [numbered, start] at hl

section Transitions

variable {length : Nat} {verb : Verb}

theorem rearrangementStep_eq_rearrange {i : Nat} :
    rearrangementStep length i = "Rearrange" ↔ i ≠ 0 ∧ i + 1 = length := by
  unfold rearrangementStep
  split
  next h0 => simp [h0]
  next h0 =>
    split
    next hlast => simp [h0, hlast]
    next hlast =>
      have hne : numbered "Advance" (i + 1) ≠ "Rearrange" := by
        intro he
        have hl := congrArg String.toList he
        simp [numbered] at hl
      simp [hne, hlast]

theorem rearrangementStep_eq_markFirst {i : Nat} :
    rearrangementStep length i = "MarkFirst" ↔ i = 0 := by
  unfold rearrangementStep
  split
  next h0 => simp [h0]
  next h0 =>
    have hne : numbered "Advance" (i + 1) ≠ "MarkFirst" := by
      intro he
      have hl := congrArg String.toList he
      simp [numbered] at hl
    split <;> simp [h0, hne]

theorem rearrangementStep_injective {i j : Nat}
    (h : rearrangementStep length i = rearrangementStep length j) : i = j := by
  by_cases hi : i = 0
  · have hj := rearrangementStep_eq_markFirst.mp
      (h.symm.trans (rearrangementStep_eq_markFirst.mpr hi))
    omega
  · have hj : j ≠ 0 := fun hj =>
      hi (rearrangementStep_eq_markFirst.mp (h.trans (rearrangementStep_eq_markFirst.mpr hj)))
    by_cases hlast : i + 1 = length
    · have hr := rearrangementStep_eq_rearrange.mp
        (h.symm.trans (rearrangementStep_eq_rearrange.mpr ⟨hi, hlast⟩))
      omega
    · have hjlast : j + 1 ≠ length := fun hjl =>
        hlast (rearrangementStep_eq_rearrange.mp
          (h.trans (rearrangementStep_eq_rearrange.mpr ⟨hj, hjl⟩))).2
      unfold rearrangementStep at h
      rw [if_neg hi, if_neg hj, if_neg hlast, if_neg hjlast] at h
      have hn := numbered_injective h
      omega

/-- The transition at an index of a window. -/
def windowTransition (length : Nat) (verb : Verb) (j : Nat) : Transition :=
  ⟨rearrangementStep length j, windowState (matchedAfter length j),
    if j = 0 then [.markFirst] else if j + 1 = length then [.markLast, .rearrange verb] else []⟩

theorem mem_rearrangementTransitions (hl : 2 ≤ length) {tr : Transition} :
    tr ∈ rearrangementTransitions length verb ↔
      ∃ j, j < length ∧ tr = windowTransition length verb j := by
  have hfirst : windowTransition length verb 0 = ⟨"MarkFirst", saw 1, [.markFirst]⟩ := by
    have hne : 0 + 1 ≠ length := by omega
    simp [windowTransition, rearrangementStep, windowState, matchedAfter, hne]
  have hinner : ∀ i, 0 < i → i + 1 < length →
      windowTransition length verb i = ⟨rearrangementStep length i, saw (i + 1), []⟩ := by
    intro i h0 hi
    have hne : i + 1 ≠ length := by omega
    have hi0 : i ≠ 0 := by omega
    simp [windowTransition, windowState, matchedAfter, hne, hi0]
  have hlast : windowTransition length verb (length - 1) =
      ⟨"Rearrange", start, [.markLast, .rearrange verb]⟩ := by
    have he : length - 1 + 1 = length := by omega
    have h0 : length - 1 ≠ 0 := by omega
    simp [windowTransition, rearrangementStep, windowState, matchedAfter, he, h0]
  unfold rearrangementTransitions
  simp only [List.cons_append, List.mem_cons, List.mem_append, List.mem_map, List.mem_range'_1,
    List.not_mem_nil, or_false]
  constructor
  · rintro (rfl | ⟨i, hi, rfl⟩ | rfl)
    · exact ⟨0, by omega, hfirst.symm⟩
    · exact ⟨i, by omega, (hinner i (by omega) (by omega)).symm⟩
    · exact ⟨length - 1, by omega, hlast.symm⟩
  · rintro ⟨j, hj, rfl⟩
    by_cases h0 : j = 0
    · exact Or.inl (h0 ▸ hfirst)
    · by_cases hl : j + 1 = length
      · obtain rfl : j = length - 1 := by omega
        exact Or.inr (Or.inr hlast)
      · exact Or.inr (Or.inl ⟨j, by omega, (hinner j (by omega) (by omega)).symm⟩)

end Transitions

/-- At an index of a run the table takes a transition of some name. -/
def Takes (t : StateTable) (run : List Glyph) (i : Nat) (name : String) : Prop :=
  ∃ tr ∈ t.transitionAt? (t.headAfter run i) i, tr.name = name

/-- At an index of a run the table performs an action. -/
def Acts (t : StateTable) (run : List Glyph) (i : Nat) (action : Action) : Prop :=
  ∃ tr ∈ t.transitionAt? (t.headAfter run i) i, action ∈ tr.actions

/-- Up to index `i` of a run the table has performed an action last at index `m`. -/
def LastActs (t : StateTable) (run : List Glyph) (i : Nat) (action : Action) (m : Nat) : Prop :=
  m ≤ i ∧ t.Acts run m action ∧ ∀ k, m < k → k ≤ i → ¬t.Acts run k action

section Window

variable {w : Window} {run : List Glyph} {i : Nat}

theorem mem_rearrangementRoutes {window : List Glyph} (hl : 0 < window.length) {r : Route} :
    r ∈ rearrangementRoutes window ↔ ∃ i j, i < window.length ∧ (j = i ∨ j = 0) ∧
      r = ⟨windowState i, (window[j]?.map (placeClass window)).getD "",
        rearrangementStep window.length j⟩ :=
  mem_rowRoutes (fun j => (window[j]?.map (placeClass window)).getD "") saw
    (rearrangementStep window.length) hl

theorem rearrangement_matchesRow (hw : w.before.Nodup) (hl : 2 ≤ w.before.length) :
    (rearrangement w).MatchesRow (w.before.map fun g => [g]) windowState
      (windowTransition w.before.length w.verb) :=
  matchesRow_window hw rfl (fun _ => mem_rearrangementRoutes (by omega))
    (fun _ _ => windowState_injective)
    (fun _ => find?_rowTransitions (fun _ => mem_rearrangementTransitions hl)
      fun _ _ _ _ => rearrangementStep_injective)
    fun _ _ => rfl

theorem takes_rearrangement (hw : w.before.Nodup) (hl : 2 ≤ w.before.length) {name : String} :
    (rearrangement w).Takes run i name ↔
      ∃ j ∈ placeAt? (w.before.map fun g => [g]) run i,
        rearrangementStep w.before.length j = name := by
  unfold Takes
  rw [(rearrangement_matchesRow hw hl).transitionAt?_eq (by rw [List.length_map]; omega)]
  simp [windowTransition]

theorem acts_rearrangement (hw : w.before.Nodup) (hl : 2 ≤ w.before.length) {action : Action} :
    (rearrangement w).Acts run i action ↔
      ∃ j ∈ placeAt? (w.before.map fun g => [g]) run i,
        action ∈ (windowTransition w.before.length w.verb j).actions := by
  unfold Acts
  rw [(rearrangement_matchesRow hw hl).transitionAt?_eq (by rw [List.length_map]; omega)]
  simp

theorem takes_rearrange (hw : w.before.Nodup) (hl : 2 ≤ w.before.length) :
    (rearrangement w).Takes run i "Rearrange" ↔
      placeAt? (w.before.map fun g => [g]) run i = some (w.before.length - 1) := by
  rw [takes_rearrangement hw hl]
  simp only [rearrangementStep_eq_rearrange]
  constructor
  · rintro ⟨j, hj, _, hlast⟩
    rw [← hlast]
    exact hj
  · intro h
    exact ⟨_, h, by omega, by omega⟩

theorem acts_markFirst (hw : w.before.Nodup) (hl : 2 ≤ w.before.length) :
    (rearrangement w).Acts run i .markFirst ↔
      placeAt? (w.before.map fun g => [g]) run i = some 0 := by
  rw [acts_rearrangement hw hl]
  have hmark : ∀ j, Action.markFirst ∈ (windowTransition w.before.length w.verb j).actions ↔
      j = 0 := by
    intro j
    unfold windowTransition
    dsimp only
    split
    next h0 => simp [h0]
    next h0 => split <;> simp [h0]
  simp [hmark]

/-- The verb acts where the window ends. -/
theorem takes_rearrange_iff (hw : w.before.Nodup) (hl : 2 ≤ w.before.length) :
    (rearrangement w).Takes run i "Rearrange" ↔
      ∃ first, first + w.before.length = i + 1 ∧ w.before <+: run.drop first := by
  rw [takes_rearrange hw hl,
    placeAt?_eq_some (apart_window hw),
    show w.before.length - 1 + 1 = w.before.length by omega]
  simp only [standsAt_window_all]
  apply exists_congr
  intro first
  apply and_congr_left'
  omega

/-- The first glyph of a window that ends at an index is the last one marked as first. -/
theorem lastActs_markFirst (hw : w.before.Nodup) (hl : 2 ≤ w.before.length) {first : Nat}
    (hfirst : first + w.before.length = i + 1) (hs : w.before <+: run.drop first) :
    (rearrangement w).LastActs run i .markFirst first := by
  have ha := apart_window hw
  have hstands := standsAt_window_all.mpr hs
  refine ⟨by omega, ?_, ?_⟩
  · exact (acts_markFirst hw hl).mpr
      ((placeAt?_eq_some ha).mpr ⟨first, rfl, hstands.mono (by omega)⟩)
  · intro k hlt hle hk
    have hlater := (placeAt?_eq_some ha).mpr
      ⟨first, Nat.add_sub_of_le (Nat.le_of_lt hlt), hstands.mono (by omega)⟩
    have hzero := Option.some.inj (hlater.symm.trans ((acts_markFirst hw hl).mp hk))
    omega

theorem acts_rearrange (hw : w.before.Nodup) (hl : 2 ≤ w.before.length)
    (ht : (rearrangement w).Takes run i "Rearrange") :
    (rearrangement w).Acts run i (.rearrange w.verb) := by
  refine (acts_rearrangement hw hl).mpr ⟨_, (takes_rearrange hw hl).mp ht, ?_⟩
  have h0 : w.before.length - 1 ≠ 0 := by omega
  have hlast : w.before.length - 1 + 1 = w.before.length := by omega
  simp [windowTransition, h0, hlast]

end Window

end StateTable

end Metamorphosis
